/-!
# Single bits of a signed `char`

C applies `|`, `&` and `~` to a `char` after its promotion to `int`, which copies the sign bit
into the upper 24 bits, and a store into the `char` drops these bits again. For a shift below `8`
the result is the same as on the eight bits alone: `b |= 1 << k` sets bit `k`, `b &= ~(1 << k)`
clears it, and `b & (1 << k)` tests it.
-/

namespace LinuxBase
namespace CharBits

/-- The promotion of a signed `char` to `int`. -/
def promote (b : BitVec 8) : BitVec 32 := b.signExtend 32

/-- The conversion of an `int` to a `char`. -/
def toChar (x : BitVec 32) : BitVec 8 := x.setWidth 8

/-- `1 << k`. -/
def mask (k : Nat) : BitVec 32 := 1#32 <<< k

@[simp] theorem getLsbD_promote {b : BitVec 8} {j : Nat} (hj : j < 8) :
    (promote b).getLsbD j = b.getLsbD j := by
  unfold promote
  rw [BitVec.getLsbD_signExtend, if_pos hj]
  simp [show j < 32 by omega]

@[simp] theorem getLsbD_toChar {x : BitVec 32} {j : Nat} (hj : j < 8) :
    (toChar x).getLsbD j = x.getLsbD j := by
  simp [toChar, hj]

@[simp] theorem getLsbD_mask {k j : Nat} (hj : j < 32) :
    (mask k).getLsbD j = decide (j = k) := by
  by_cases h : j < k
  · simp [mask, hj, h, show j ≠ k by omega]
  · simp [mask, hj, h, show (j - k = 0) ↔ j = k by omega]

/-- `b |= 1 << k`. -/
theorem getLsbD_or_mask {b : BitVec 8} {k j : Nat} (hj : j < 8) :
    (toChar (promote b ||| mask k)).getLsbD j = (b.getLsbD j || decide (j = k)) := by
  rw [getLsbD_toChar hj, BitVec.getLsbD_or, getLsbD_promote hj, getLsbD_mask (by omega)]

/-- `b &= ~(1 << k)`. -/
theorem getLsbD_and_not_mask {b : BitVec 8} {k j : Nat} (hj : j < 8) :
    (toChar (promote b &&& ~~~ mask k)).getLsbD j = (b.getLsbD j && !decide (j = k)) := by
  rw [getLsbD_toChar hj, BitVec.getLsbD_and, getLsbD_promote hj, BitVec.getLsbD_not,
    getLsbD_mask (by omega)]
  simp [show j < 32 by omega]

/-- `b & (1 << k)` as a condition. -/
theorem and_mask_ne_zero {b : BitVec 8} {k : Nat} (hk : k < 8) :
    (promote b &&& mask k != 0#32) = b.getLsbD k := by
  have key : promote b &&& mask k = 0#32 ↔ b.getLsbD k = false := by
    constructor
    · intro h
      have := congrArg (BitVec.getLsbD · k) h
      simpa [getLsbD_promote hk, getLsbD_mask (show k < 32 by omega)] using this
    · intro h
      apply BitVec.eq_of_getLsbD_eq
      intro j hj
      rw [BitVec.getLsbD_and, getLsbD_mask hj]
      by_cases hjk : j = k
      · subst hjk; simp [getLsbD_promote hk, h]
      · simp [hjk]
  by_cases h : b.getLsbD k = true
  · rw [h, bne_iff_ne]
    intro h0
    rw [key.mp h0] at h
    cases h
  · rw [Bool.not_eq_true] at h
    rw [h, key.mpr h]
    rfl

end CharBits
end LinuxBase
