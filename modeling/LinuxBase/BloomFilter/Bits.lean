import LinuxBase.BloomFilter.Summary

/-!
# `BitSet<N>` as a map of bits (`bloom-filter/bloomfilter.h`)

The numbers below `N` name different bits of the array: `x / 8` is below `bitSize`, also if `N` is not
a multiple of 8, and no two have the same `x / 8` and `x % 8`. So a history of calls is a history of
stores into a map (`exec_stores`), from any contents of the array, which `new char[]` does not clear.
-/

namespace LinuxBase
namespace BitSet

variable {N : Nat}

theorem index_lt_bitSize {x : Nat} (hx : x < N) : x / 8 < bitSize N := by
  have h := (zero N).index_lt hx
  rwa [(zero N).size_eq] at h

/-- `test` of any number: its bit, or an access behind the array. -/
theorem test_eq (b : BitSet N) (y : Nat) :
    b.test y = if y / 8 < bitSize N then .ret (b.bit y) else .fault := by
  by_cases h : y / 8 < b.bitArr.length
  · rw [if_pos (b.size_eq ▸ h), test, bit, List.getD_eq_getElem?_getD, List.getElem?_eq_getElem h]
    simp only [Run.ofOption_some, Run.ret_bind, Option.getD_some]
    rw [CharBits.and_mask_ne_zero (Nat.mod_lt _ (by decide))]
  · rw [if_neg (b.size_eq ▸ h), test, List.getElem?_eq_none (Nat.not_lt.mp h)]
    rfl

/-- **Frame.** A call on `x` changes no bit but `x`, so no other answer of `test`. -/
theorem test_call_of_ne {b b' : BitSet N} {c : Call} (hc : c.arg < N) (h : call c b = .ret b')
    {y : Nat} (hy : y ≠ c.arg) : b'.test y = b.test y := by
  obtain ⟨b₁, hb₁, -, hbits⟩ := b.call_spec hc
  rw [h] at hb₁
  cases hb₁
  rw [test_eq, test_eq, hbits, if_neg hy]

/-- The bits after a history of calls. -/
theorem bit_exec (b : BitSet N) {cs : List Call} (hcs : ∀ c ∈ cs, c.arg < N) :
    ∃ b', exec call cs b = .ret b' ∧
      ∀ y, b'.bit y = (lastAt Call.arg y cs).elim (b.bit y) Call.value :=
  exec_stores (P := fun _ c => c.arg < N)
    (fun b _ hc => let ⟨b', hb', _, hbits⟩ := b.call_spec hc; ⟨b', hb', hbits⟩) (along_of_mem hcs)

/-- **Independent bits.** Calls below `N` access the array only inside, and after them `test y` is what
the last call on `y` stored, or what it was before. No call on `x` changes any other `test y`. -/
theorem independent_bits (b : BitSet N) {cs : List Call} (hcs : ∀ c ∈ cs, c.arg < N) :
    (∀ c ∈ cs, c.arg / 8 < bitSize N) ∧
      (∃ b', exec call cs b = .ret b' ∧ ∀ y < N, y / 8 < bitSize N ∧ ∃ v, b.test y = .ret v ∧
        b'.test y = .ret ((lastAt Call.arg y cs).elim v Call.value)) ∧
      ∀ (b₁ : BitSet N) (c : Call), c.arg < N →
        ∃ b₂, call c b₁ = .ret b₂ ∧ ∀ y, y ≠ c.arg → b₂.test y = b₁.test y := by
  refine ⟨fun c hc => index_lt_bitSize (hcs c hc), ?_, fun b₁ c hc => ?_⟩
  · obtain ⟨b', hb', hbits⟩ := b.bit_exec hcs
    refine ⟨b', hb', fun y hy => ⟨index_lt_bitSize hy, b.bit y, b.test_spec hy, ?_⟩⟩
    rw [b'.test_spec hy, hbits]
  · obtain ⟨b₂, hb₂, -⟩ := b₁.call_spec hc
    exact ⟨b₂, hb₂, fun y hy => test_call_of_ne hc hb₂ hy⟩

/-- Nine bits in two characters of ones: the bits 7 and 8 are on the two sides of the split. -/
theorem independent_bits_nine :
    ∃ b', exec call [.reset 8, .reset 7, .set 7] (⟨0, [0xFF, 0xFF], rfl⟩ : BitSet 9) = .ret b' ∧
      b'.test 8 = .ret false ∧ b'.test 7 = .ret true ∧ b'.test 3 = .ret true := by
  obtain ⟨-, ⟨b', hb', htest⟩, -⟩ := @independent_bits 9 ⟨0, [0xFF, 0xFF], rfl⟩
    [.reset 8, .reset 7, .set 7] (by simp [Call.arg])
  obtain ⟨-, v₈, -, h₈⟩ := htest 8 (by decide)
  obtain ⟨-, v₇, -, h₇⟩ := htest 7 (by decide)
  obtain ⟨-, v₃, hv₃, h₃⟩ := htest 3 (by decide)
  cases hv₃
  exact ⟨b', hb', h₈, h₇, h₃⟩

end BitSet
end LinuxBase
