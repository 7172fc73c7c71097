import LinuxBase.Lib.CharBits
import LinuxBase.Lib.Trace

/-!
# `BitSet<N>` (`bloom-filter/bloomfilter.h`)

The bits `0, ..., N - 1` in an array of `bitSize` characters. An access outside the array is a
`fault`; an argument below `N` is inside it (`index_lt`).

`bit b y` is the bit that `y` names. `set` and `reset` change the bit of their argument and no
other one (`set_spec`, `reset_spec`), and `test` reads it (`test_spec`).
-/

namespace LinuxBase

open CharBits

/-- The size of `bitArr` in the constructor. -/
def bitSize (N : Nat) : Nat := if N % 8 == 0 then N / 8 else N / 8 + 1

/-- A `BitSet<N>`: its counter and its array, of the size that the constructor allocates. -/
structure BitSet (N : Nat) where
  count : BitVec 64 := 0
  bitArr : List (BitVec 8)
  size_eq : bitArr.length = bitSize N

namespace BitSet

variable {N : Nat}

/-- `b` with the character at `index` and the counter changed. -/
def store (b : BitSet N) (index : Nat) (c : BitVec 8) (count : BitVec 64) : BitSet N :=
  { count, bitArr := b.bitArr.set index c, size_eq := by rw [List.length_set]; exact b.size_eq }

def set (x : Nat) (b : BitSet N) : Run (BitSet N) := do
  let index := x / 8
  let bit := x % 8
  let c ← .ofOption b.bitArr[index]?
  .ret (b.store index (toChar (promote c ||| mask bit)) (b.count + 1))

def reset (x : Nat) (b : BitSet N) : Run (BitSet N) := do
  let index := x / 8
  let bit := x % 8
  let c ← .ofOption b.bitArr[index]?
  .ret (b.store index (toChar (promote c &&& ~~~ mask bit)) (b.count - 1))

def test (x : Nat) (b : BitSet N) : Run Bool := do
  let index := x / 8
  let bit := x % 8
  let c ← .ofOption b.bitArr[index]?
  .ret (promote c &&& mask bit != 0#32)

/-- The bit that `y` names. -/
def bit (b : BitSet N) (y : Nat) : Bool := (b.bitArr.getD (y / 8) 0).getLsbD (y % 8)

theorem index_lt (b : BitSet N) {x : Nat} (hx : x < N) : x / 8 < b.bitArr.length := by
  rw [b.size_eq, bitSize]
  split
  · rename_i h; rw [beq_iff_eq] at h; omega
  · omega

/-- The bits after a store of `c` at the index of `x`. -/
theorem bit_store {b : BitSet N} {x y : Nat} {c : BitVec 8} {count : BitVec 64} (hx : x < N) :
    (b.store (x / 8) c count).bit y =
      if y / 8 = x / 8 then c.getLsbD (y % 8) else b.bit y := by
  simp only [bit, store, List.getD_eq_getElem?_getD, List.getElem?_set]
  by_cases h : x / 8 = y / 8
  · rw [if_pos h, if_pos (b.index_lt hx), if_pos h.symm]; rfl
  · rw [if_neg h, if_neg fun h' => h h'.symm]

theorem read_index (b : BitSet N) {x : Nat} (hx : x < N) :
    b.bitArr[x / 8]? = some (b.bitArr.getD (x / 8) 0) := by
  have h := b.index_lt hx
  simp [List.getD_eq_getElem?_getD, List.getElem?_eq_getElem h]

/-- The bits after a store of a character that was combined with the mask of `x`. -/
theorem bit_store_mask {b : BitSet N} {x : Nat} {c : BitVec 8} {count : BitVec 64} (hx : x < N)
    (f : Bool → Bool → Bool) (hf : ∀ p, f p false = p)
    (hc : ∀ j < 8, c.getLsbD j = f ((b.bitArr.getD (x / 8) 0).getLsbD j) (decide (j = x % 8)))
    (y : Nat) : (b.store (x / 8) c count).bit y = f (b.bit y) (decide (y = x)) := by
  rw [bit_store hx]
  by_cases h : y / 8 = x / 8
  · have hxy : y = x ↔ y % 8 = x % 8 := by omega
    rw [if_pos h, hc _ (Nat.mod_lt _ (by decide)), bit, h, decide_eq_decide.mpr hxy]
  · have hne : y ≠ x := fun e => h (by rw [e])
    rw [if_neg h, decide_eq_false hne, hf]

theorem set_spec (b : BitSet N) {x : Nat} (hx : x < N) :
    ∃ b', b.set x = .ret b' ∧ ∀ y, b'.bit y = (b.bit y || decide (y = x)) := by
  refine ⟨_, by rw [set, b.read_index hx]; rfl, ?_⟩
  exact bit_store_mask hx (· || ·) Bool.or_false fun j hj => getLsbD_or_mask hj

theorem reset_spec (b : BitSet N) {x : Nat} (hx : x < N) :
    ∃ b', b.reset x = .ret b' ∧ ∀ y, b'.bit y = (b.bit y && !decide (y = x)) := by
  refine ⟨_, by rw [reset, b.read_index hx]; rfl, ?_⟩
  exact bit_store_mask hx (fun p q => p && !q) Bool.and_true fun j hj => getLsbD_and_not_mask hj

theorem test_spec (b : BitSet N) {x : Nat} (hx : x < N) : b.test x = .ret (b.bit x) := by
  rw [test, b.read_index hx]
  simp only [Run.ofOption_some, Run.ret_bind]
  rw [and_mask_ne_zero (Nat.mod_lt _ (by decide))]
  rfl

end BitSet
end LinuxBase
