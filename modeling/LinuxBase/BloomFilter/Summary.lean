import LinuxBase.BloomFilter.BitSet
import LinuxBase.Lib.Tally
import Mathlib.Data.Fintype.Card

/-!
# `some`, `any` and the counter of `BitSet<N>` (`bloom-filter/bloomfilter.h`)

`some` and `any` read whole characters, and `any` the bits of the last one. A `char` is signed, so it
never is `0xFF`, and a bit other than the first never is `1`: `any` is false for all `N` but 1
(`any_eq_false`). `set` counts up, also for a bit that is set, and `reset` counts down.

So the three agree with the bits in all states of a run exactly if each call changes its bit, and no
call sets the last clear bit of more than one (`agree_iff`). The index of `some` is an `int`, which has
to be enough for the characters.

`N` is at least 1 in `any`: the unsigned `bitSize - 1` is that of natural numbers.
-/

namespace LinuxBase
namespace BitSet

open CharBits

variable {N : Nat}

/-- The greatest `int`. -/
def intMax : Nat := 0x7FFFFFFF

/-- The loop of `some` at the index `i`, where the characters `cs` are left. -/
def someLoop : List (BitVec 8) → Nat → Run Bool
  | [], _ => .ret false
  | c :: cs, i =>
    if promote c ≠ 0#32 then .ret true
    else if i < intMax then someLoop cs (i + 1)
    else .fault

protected def some (b : BitSet N) : Run Bool := someLoop b.bitArr 0

/-- The first loop of `any` at the index `i`, where the characters `cs` are left: it ends with a
`return false`, or behind the loop. -/
def fullLoop : List (BitVec 8) → Nat → Run Bool
  | [], _ => .ret true
  | c :: cs, i =>
    if promote c ≠ 0xFF#32 then .ret false
    else if i < intMax then fullLoop cs (i + 1)
    else .fault

/-- The second loop of `any` at the bit `i`, with `n` bits left. -/
def lastLoop (c : BitVec 8) : Nat → Nat → Bool
  | 0, _ => true
  | n + 1, i => if promote c &&& mask i ≠ 1#32 then false else lastLoop c n (i + 1)

protected def any (b : BitSet N) : Run Bool := do
  if ← fullLoop (b.bitArr.take (bitSize N - 1)) 0 then
    let c ← .ofOption b.bitArr[bitSize N - 1]?
    .ret (lastLoop c (N - (bitSize N - 1) * 8) 0)
  else .ret false

/-- All bits are clear. -/
def zero (N : Nat) : BitSet N := { bitArr := List.replicate (bitSize N) 0, size_eq := by simp }

inductive Call where
  | set (x : Nat)
  | reset (x : Nat)

def Call.arg : Call → Nat
  | .set x | .reset x => x

/-- The value that a call gives its bit. -/
def Call.value : Call → Bool
  | .set _ => true
  | .reset _ => false

def call : Call → BitSet N → Run (BitSet N)
  | .set x, b => b.set x
  | .reset x, b => b.reset x

/-- The queries agree with the bits. -/
structure Agrees (b : BitSet N) : Prop where
  some : ∃ r, b.some = .ret r ∧ (r = true ↔ ∃ x < N, b.test x = .ret true)
  any : ∃ r, b.any = .ret r ∧ (r = true ↔ ∀ x < N, b.test x = .ret true)
  count : b.count.toNat = (Finset.univ.filter fun x : Fin N => b.test x = .ret true).card

/-- A call changes its bit, and it does not set the last clear bit of more than one. -/
def Changes (b : BitSet N) : Call → Prop
  | .set x => b.test x = .ret false ∧ (N = 1 ∨ ∃ y < N, y ≠ x ∧ b.test y = .ret false)
  | .reset x => b.test x = .ret true

instance (b : BitSet N) : DecidablePred (Changes b)
  | .set x => inferInstanceAs (Decidable
      (b.test x = .ret false ∧ (N = 1 ∨ ∃ y < N, y ≠ x ∧ b.test y = .ret false)))
  | .reset x => inferInstanceAs (Decidable (b.test x = .ret true))

/-! ## `some` -/

theorem promote_eq_zero {c : BitVec 8} : promote c = 0#32 ↔ c = 0#8 := by
  constructor
  · intro h
    apply BitVec.eq_of_getLsbD_eq
    intro j hj
    rw [← getLsbD_promote hj, h]
    simp
  · rintro rfl
    rfl

theorem someLoop_eq {cs : List (BitVec 8)} {i : Nat} (hi : cs.length + i ≤ intMax) :
    someLoop cs i = .ret (cs.any (· != 0#8)) := by
  induction cs generalizing i with
  | nil => rfl
  | cons c cs ih =>
    rw [List.length_cons] at hi
    rw [someLoop, List.any_cons]
    by_cases hc : promote c = 0#32
    · have hlt : i < intMax := by omega
      rw [if_neg (not_not.mpr hc), if_pos hlt, ih (by omega), promote_eq_zero.mp hc]
      simp
    · have hne : (c != 0#8) = true := by
        rw [bne_iff_ne]
        exact fun h => hc (promote_eq_zero.mpr h)
      rw [if_pos hc, hne, Bool.true_or]

/-- Too many characters for an `int`. -/
theorem someLoop_fault {n i : Nat} (hi : i ≤ intMax) (hn : intMax < n + i) :
    someLoop (List.replicate n 0#8) i = .fault := by
  induction n generalizing i with
  | zero => omega
  | succ n ih =>
    have hzero : ¬ promote 0#8 ≠ 0#32 := by decide
    rw [List.replicate_succ, someLoop, if_neg hzero]
    by_cases hlt : i < intMax
    · rw [if_pos hlt]
      exact ih (by omega) (by omega)
    · rw [if_neg hlt]

/-! ## `any` -/

theorem promote_ne (c : BitVec 8) : promote c ≠ 0xFF#32 := by
  revert c
  decide

theorem mask_one_ne (c : BitVec 8) : promote c &&& mask 1 ≠ 1#32 := by
  revert c
  decide

theorem mask_zero_ne (c : BitVec 8) : promote c &&& mask 0 ≠ 1#32 ↔ c.getLsbD 0 = false := by
  revert c
  decide

/-- For more than one bit, `any` is false. -/
theorem any_eq_false (b : BitSet N) (hN : 1 < N) : b.any = .ret false := by
  have hlen := b.size_eq
  have hsize : bitSize N ≠ 0 := by
    unfold bitSize
    split
    · rename_i h; rw [beq_iff_eq] at h; omega
    · omega
  unfold BitSet.any
  cases hcs : b.bitArr with
  | nil => rw [hcs, List.length_nil] at hlen; omega
  | cons c cs =>
    by_cases hone : bitSize N = 1
    · -- The last character is the only one, and it has at least two bits.
      have htwo : ∃ n, N - (bitSize N - 1) * 8 = n + 2 := ⟨N - 2, by omega⟩
      obtain ⟨n, hn⟩ := htwo
      rw [hn, hone]
      simp only [Nat.sub_self, List.take_zero, fullLoop, Run.ret_bind, if_true,
        List.getElem?_cons_zero, Run.ofOption_some, lastLoop]
      rw [if_pos (mask_one_ne c), ite_self]
    · obtain ⟨n, hn⟩ : ∃ n, bitSize N - 1 = n + 1 := ⟨bitSize N - 2, by omega⟩
      rw [hn, List.take_succ_cons, fullLoop, if_pos (promote_ne c)]
      rfl

/-- `any` reads the only bit. -/
theorem any_one (b : BitSet 1) : b.any = .ret (b.bit 0) := by
  have hlen : b.bitArr.length = 1 := b.size_eq
  obtain ⟨c, hc⟩ := List.length_eq_one_iff.mp hlen
  have hone : bitSize 1 = 1 := rfl
  unfold BitSet.any bit
  rw [hone, hc]
  simp only [Nat.sub_self, List.take_zero, fullLoop, Run.ret_bind, if_true, Nat.zero_mul,
    Nat.sub_zero, List.getElem?_cons_zero, Run.ofOption_some, lastLoop, Nat.zero_div, Nat.zero_mod,
    List.getD_cons_zero]
  by_cases hbit : c.getLsbD 0 = false
  · rw [if_pos ((mask_zero_ne c).mpr hbit), hbit]
  · rw [if_neg fun h => hbit ((mask_zero_ne c).mp h)]
    rw [Bool.not_eq_false] at hbit
    rw [hbit]

/-! ## The bits -/

/-- No bit behind the last one is set. -/
def Clean (b : BitSet N) : Prop := ∀ y, N ≤ y → b.bit y = false

theorem test_true (b : BitSet N) {x : Nat} (hx : x < N) : b.test x = .ret true ↔ b.bit x = true := by
  rw [test_spec b hx, Run.ret.injEq]

theorem test_false (b : BitSet N) {x : Nat} (hx : x < N) :
    b.test x = .ret false ↔ b.bit x = false := by
  rw [test_spec b hx, Run.ret.injEq]

theorem char_eq_zero {c : BitVec 8} : c = 0#8 ↔ ∀ j < 8, c.getLsbD j = false := by
  constructor
  · rintro rfl j -
    exact BitVec.getLsbD_zero
  · intro h
    apply BitVec.eq_of_getLsbD_eq
    intro j hj
    rw [h j hj, BitVec.getLsbD_zero]

/-- Some character is not zero exactly if some bit is set. -/
theorem any_ne_zero_iff {b : BitSet N} (hc : b.Clean) :
    b.bitArr.any (· != 0#8) = true ↔ ∃ x < N, b.bit x = true := by
  rw [List.any_eq_true]
  constructor
  · rintro ⟨c, hmem, hne⟩
    rw [bne_iff_ne, ne_eq, char_eq_zero] at hne
    obtain ⟨k, hk, rfl⟩ := List.mem_iff_getElem.mp hmem
    obtain ⟨j, hj⟩ := Classical.not_forall.mp hne
    obtain ⟨hj8, hbit⟩ := Classical.not_imp.mp hj
    have hset : b.bit (8 * k + j) = true := by
      rw [bit, show (8 * k + j) / 8 = k by omega, show (8 * k + j) % 8 = j by omega]
      simpa [List.getD_eq_getElem?_getD, List.getElem?_eq_getElem hk] using hbit
    refine ⟨8 * k + j, Nat.not_le.mp fun hle => ?_, hset⟩
    rw [hc _ hle] at hset
    cases hset
  · rintro ⟨x, hx, hbit⟩
    refine ⟨b.bitArr.getD (x / 8) 0, List.mem_of_getElem? (b.read_index hx), ?_⟩
    rw [bne_iff_ne]
    intro h0
    rw [bit, h0] at hbit
    simp at hbit

/-- How many bits are set. -/
def bits (b : BitSet N) : Nat := tally id fun x : Fin N => b.bit x

theorem card_test (b : BitSet N) :
    (Finset.univ.filter fun x : Fin N => b.test x = .ret true).card = b.bits := by
  rw [bits, tally]
  congr 1
  exact Finset.filter_congr fun x _ => b.test_true x.isLt

theorem bits_le (b : BitSet N) : b.bits ≤ N :=
  (Finset.card_filter_le _ _).trans_eq (Fintype.card_fin N)

/-- How the number of set bits changes with the bit `x`. -/
theorem bits_of_update {b b' : BitSet N} {x : Nat} (hx : x < N) (v : Bool)
    (h : ∀ y, b'.bit y = if y = x then v else b.bit y) :
    b'.bits + (b.bit x).toNat = b.bits + v.toNat := by
  have hupdate : (fun y : Fin N => b'.bit y) =
      Function.update (fun y : Fin N => b.bit y) ⟨x, hx⟩ v := by
    funext y
    rw [h, Function.update_apply]
    simp only [Fin.ext_iff]
  have ht := tally_update id (fun y : Fin N => b.bit y) ⟨x, hx⟩ v
  rw [← hupdate] at ht
  exact ht

/-! ## Calls -/

/-- The counter behind a call. -/
def Call.countAfter (n : BitVec 64) : Call → BitVec 64
  | .set _ => n + 1
  | .reset _ => n - 1

theorem Call.countAfter_ne (c : Call) (n : BitVec 64) : c.countAfter n ≠ n := by
  cases c with
  | set x => simp only [Call.countAfter]; bv_omega
  | reset x => simp only [Call.countAfter]; bv_omega

/-- **What a call does**, to the bits and to the counter. -/
theorem call_spec (b : BitSet N) {c : Call} (hc : c.arg < N) :
    ∃ b', call c b = .ret b' ∧ b'.count = c.countAfter b.count ∧
      ∀ y, b'.bit y = if y = c.arg then c.value else b.bit y := by
  cases c with
  | set x =>
    obtain ⟨b', hb', hbits⟩ := b.set_spec hc
    refine ⟨b', hb', ?_, fun y => ?_⟩
    · obtain ⟨ch, -, hret⟩ := Run.bind_eq_ret.mp hb'
      cases hret
      rfl
    · rw [hbits, Call.arg, Call.value]
      by_cases hy : y = x
      · simp [hy]
      · simp [hy]
  | reset x =>
    obtain ⟨b', hb', hbits⟩ := b.reset_spec hc
    refine ⟨b', hb', ?_, fun y => ?_⟩
    · obtain ⟨ch, -, hret⟩ := Run.bind_eq_ret.mp hb'
      cases hret
      rfl
    · rw [hbits, Call.arg, Call.value]
      by_cases hy : y = x
      · simp [hy]
      · simp [hy]

/-- What is known in a run whose calls all change their bits. -/
structure Correct (b : BitSet N) : Prop where
  clean : b.Clean
  count : b.count.toNat = b.bits
  notFull : N = 1 ∨ ∃ y < N, b.bit y = false

theorem bit_zero (N y : Nat) : (zero N).bit y = false := by
  have hchar : (zero N).bitArr.getD (y / 8) 0 = 0#8 := by
    simp only [zero, List.getD_eq_getElem?_getD, List.getElem?_replicate]
    split <;> rfl
  rw [bit, hchar, BitVec.getLsbD_zero]

theorem bits_zero (N : Nat) : (zero N).bits = 0 := by
  rw [bits, tally, Finset.card_eq_zero, Finset.filter_eq_empty_iff]
  intro x _
  rw [bit_zero]
  exact Bool.false_ne_true

theorem correct_zero (hN : 1 ≤ N) : (zero N).Correct where
  clean y _ := bit_zero N y
  count := (bits_zero N).symm
  notFull := .inr ⟨0, hN, bit_zero N 0⟩

theorem Correct.agrees {b : BitSet N} (h : b.Correct) (hint : bitSize N ≤ intMax) : b.Agrees where
  some := by
    refine ⟨_, someLoop_eq (by rw [b.size_eq]; exact hint), (any_ne_zero_iff h.clean).trans ?_⟩
    exact exists_congr fun x => and_congr_right fun hx => (b.test_true hx).symm
  any := by
    rcases h.notFull with rfl | ⟨y, hy, hbit⟩
    · refine ⟨_, any_one b, fun hbit x hx => ?_, fun hall => ?_⟩
      · rw [b.test_true hx, show x = 0 by omega]
        exact hbit
      · exact (b.test_true Nat.one_pos).mp (hall 0 Nat.one_pos)
    · by_cases hN : N = 1
      · subst hN
        obtain rfl : y = 0 := by omega
        refine ⟨_, any_one b, fun h1 => ?_, fun hall => ?_⟩
        · rw [hbit] at h1; cases h1
        · exact (b.test_true hy).mp (hall 0 hy)
      · refine ⟨_, b.any_eq_false (by omega), nofun, fun hall => ?_⟩
        rw [(b.test_true hy).mp (hall y hy)] at hbit
        cases hbit
  count := by rw [card_test, h.count]

theorem Correct.call {b b' : BitSet N} {c : Call} (h : b.Correct) (hN : N < 2 ^ 64)
    (hc : c.arg < N) (hchange : b.Changes c) (hb' : call c b = .ret b') : b'.Correct := by
  obtain ⟨b₁, hb₁, hcount, hbits⟩ := b.call_spec hc
  rw [hb'] at hb₁
  cases hb₁
  have hn := bits_of_update hc c.value hbits
  have hle := b'.bits_le
  have hold := h.count
  refine ⟨fun y hy => ?_, ?_, ?_⟩
  · rw [hbits, if_neg (by omega)]
    exact h.clean y hy
  · cases c with
    | set x =>
      rw [(b.test_false hc).mp hchange.1] at hn
      simp only [Call.value, Bool.toNat_false, Bool.toNat_true] at hn
      rw [hcount, Call.countAfter]
      bv_omega
    | reset x =>
      rw [(b.test_true hc).mp hchange] at hn
      simp only [Call.value, Bool.toNat_false, Bool.toNat_true] at hn
      rw [hcount, Call.countAfter]
      bv_omega
  · cases c with
    | set x =>
      refine hchange.2.imp_right fun ⟨y, hy, hne, hclear⟩ => ⟨y, hy, ?_⟩
      rw [hbits]
      exact (if_neg hne).trans ((b.test_false hy).mp hclear)
    | reset x => exact .inr ⟨x, hc, by rw [hbits]; exact if_pos rfl⟩

/-- A call that does not change its bit changes the counter. -/
theorem not_agrees_of_same {b b' : BitSet N} {c : Call} (h : b.Correct) (hc : c.arg < N)
    (hsame : b.bit c.arg = c.value) (hcount : b'.count = c.countAfter b.count)
    (hbits : ∀ y, b'.bit y = if y = c.arg then c.value else b.bit y) : ¬ b'.Agrees := by
  intro ha
  have hn := bits_of_update hc c.value hbits
  rw [hsame, Nat.add_right_cancel_iff] at hn
  have hcard := ha.count
  rw [card_test, hn, ← h.count, hcount] at hcard
  exact c.countAfter_ne b.count (BitVec.eq_of_toNat_eq hcard)

theorem not_agrees_call {b : BitSet N} {c : Call} (h : b.Correct) (hc : c.arg < N)
    (hchange : ¬ b.Changes c) : ∃ b', call c b = .ret b' ∧ ¬ b'.Agrees := by
  obtain ⟨b', hb', hcount, hbits⟩ := b.call_spec hc
  refine ⟨b', hb', ?_⟩
  by_cases hsame : b.bit c.arg = c.value
  · exact not_agrees_of_same h hc hsame hcount hbits
  · cases c with
    | reset x =>
      simp only [Call.arg, Call.value, Bool.not_eq_false] at hsame
      exact absurd ((b.test_true hc).mpr hsame) hchange
    | set x =>
      -- This was the last clear bit.
      simp only [Call.arg, Call.value, Bool.not_eq_true] at hsame
      have hlast : ¬ (N = 1 ∨ ∃ y < N, y ≠ x ∧ b.test y = .ret false) := fun hl =>
        hchange ⟨(b.test_false hc).mpr hsame, hl⟩
      rw [not_or] at hlast
      obtain ⟨hN, hfull⟩ := hlast
      intro ha
      obtain ⟨r, hr, hiff⟩ := ha.any
      have hx : x < N := hc
      rw [b'.any_eq_false (by omega), Run.ret.injEq] at hr
      subst hr
      have hall : ∀ y < N, b'.test y = .ret true := by
        intro y hy
        rw [b'.test_true hy, hbits]
        split
        · rfl
        · rename_i hne
          by_contra hclear
          rw [Bool.not_eq_true] at hclear
          exact hfull ⟨y, hy, hne, (b.test_false hy).mpr hclear⟩
      cases hiff.mpr hall

theorem bitSize_le_iff (N : Nat) : bitSize N ≤ intMax ↔ N ≤ 8 * intMax := by
  unfold bitSize
  split
  · rename_i h; rw [beq_iff_eq] at h; omega
  · rename_i h; rw [beq_iff_eq] at h; omega

/-- **`some`, `any` and the counter.** In all states of a run from clear bits, they agree with the bits
exactly if an `int` is enough for the characters, and each call changes its bit, without setting the
last clear one of more than one. -/
theorem agree_iff (hN : 1 ≤ N) (hsize : N < 2 ^ 64) {cs : List Call} (hcs : ∀ c ∈ cs, c.arg < N) :
    (∀ b, Visits call (zero N) cs b → b.Agrees) ↔
      N ≤ 8 * intMax ∧ Along call Changes (zero N) cs := by
  by_cases hint : bitSize N ≤ intMax
  · rw [and_iff_right ((bitSize_le_iff N).mp hint)]
    exact visits_iff (I := Correct) (fun b h => h.agrees hint)
      (fun b c b' h hc hchange hb' => h.call hsize hc hchange hb')
      (fun b c h hc hchange => not_agrees_call h hc hchange) (correct_zero hN) (along_of_mem hcs)
  · refine ⟨fun hall => ?_, fun h => absurd ((bitSize_le_iff N).mpr h.1) hint⟩
    obtain ⟨r, hr, -⟩ := (hall (zero N) ⟨0, rfl⟩).some
    have hfault : (zero N).some = .fault := someLoop_fault (Nat.zero_le _) (by omega)
    rw [hfault] at hr
    cases hr

/-- Nine bits, of which two are set and one is reset. -/
theorem agree_iff_nine :
    Along call Changes (zero 9) [.set 3, .set 8, .reset 3] ∧
      ∀ b, Visits call (zero 9) [.set 3, .set 8, .reset 3] b → b.Agrees :=
  ⟨by decide, (agree_iff (by decide) (by decide) (by simp [Call.arg])).mpr ⟨by decide, by decide⟩⟩

/-- Both of two bits are set, but `any` is false. A bit is set twice, and the counter is 2. -/
theorem not_agrees_two :
    (¬ ∀ b, Visits call (zero 2) [.set 0, .set 1] b → b.Agrees) ∧
      ¬ ∀ b, Visits call (zero 8) [.set 0, .set 0] b → b.Agrees := by
  constructor
  · intro h
    obtain ⟨r, hr, hiff⟩ := (h _ ⟨2, rfl⟩).any
    cases hr
    exact absurd (hiff.mpr (by decide)) Bool.false_ne_true
  · intro h
    exact absurd (h _ ⟨2, rfl⟩).count (by decide)

end BitSet
end LinuxBase
