import LinuxBase.BloomFilter.Hash
import LinuxBase.BloomFilter.Summary
import LinuxBase.Lib.Recurrence
import Mathlib.Data.Int.GCD

/-!
# The hash functors and the hashes of their names (`bloom-filter/bloomfilter.h`)

`bkdr`, `ap` and `djb` are the hashes that the functors are named for.

* `HashDJB` is `djb`.
* `HashBKDR` multiplies behind the addition, not before it, so it is `131 * bkdr` (`hashBKDR_eq`).
* `HashAP` asks for `i % 1 == 0`, which holds of all `i`, so it mixes all positions as `ap` mixes the
  even ones (`hashAPLoop_eq`). Both mixing steps are linear in exclusive or, apart from the complement
  of the odd one, so the difference to `ap` is linear in the characters (`hashAP_eq_iff`). Its index is
  an `int`, which has to be enough for the string (`hashAPInt_eq`).
-/

namespace LinuxBase

open BitSet (intMax)

/-- The loop of `HashAP::operator()` with its `int` index. -/
def hashAPIntLoop : List (BitVec 8) → Nat → BitVec 64 → Run (BitVec 64)
  | [], _, hash => .ret hash
  | c :: s, i, hash =>
    let ch := charToSize c
    let hash :=
      if i % 1 == 0 then hash ^^^ ((hash <<< 7) ^^^ ch ^^^ (hash >>> 3))
      else hash ^^^ (~~~(hash <<< 11) ^^^ ch ^^^ (hash >>> 5))
    if i < intMax then hashAPIntLoop s (i + 1) hash
    else .fault

/-- `HashAP::operator()` with its `int` index. -/
def hashAPInt (s : List (BitVec 8)) : Run (BitVec 64) := hashAPIntLoop s 0 0

/-- The BKDR hash. -/
def bkdr (s : List (BitVec 8)) : BitVec 64 := s.foldl (fun h c => h * 131 + charToSize c) 0

/-- The DJB hash. -/
def djb (s : List (BitVec 8)) : BitVec 64 := s.foldl (fun h c => h * 33 + charToSize c) 5381

/-- The AP hash from the index `i`. -/
def apLoop : List (BitVec 8) → Nat → BitVec 64 → BitVec 64
  | [], _, h => h
  | c :: s, i, h =>
    if i % 2 = 0 then apLoop s (i + 1) (h ^^^ ((h <<< 7) ^^^ charToSize c ^^^ (h >>> 3)))
    else apLoop s (i + 1) (h ^^^ ~~~((h <<< 11) ^^^ charToSize c ^^^ (h >>> 5)))

/-- The AP hash. -/
def ap (s : List (BitVec 8)) : BitVec 64 := apLoop s 0 0

/-! ## `HashDJB` -/

theorem hashDJB_eq (s : List (BitVec 8)) : hashDJB s = djb s := by
  unfold hashDJB djb
  congr 1
  funext h c
  bv_omega

/-! ## `HashBKDR` -/

/-- The sum of `c * 131 ^ n` over the characters, with `n` characters behind `c`. -/
def bkdrSum (s : List (BitVec 8)) : Int :=
  total (· + ·) 0 (fun _ n c => c * 131 ^ n) 0 (s.map BitVec.toInt)

theorem hashBKDR_eq (s : List (BitVec 8)) : hashBKDR s = bkdr s * 131 :=
  @List.foldl_hom _ _ _ (· * 131) (fun h c => h * 131 + charToSize c)
    (fun h c => (h + charToSize c) * 131) s 0 fun _ _ => rfl

theorem carry_mul (i n : Nat) (x : Int) : carry (fun _ h => h * 131) i n x = x * 131 ^ n := by
  induction n generalizing i x with
  | zero => simp [carry]
  | succ n ih => rw [carry, ih, Int.mul_assoc, ← Int.pow_succ']

theorem bkdr_eq (s : List (BitVec 8)) : bkdr s = BitVec.ofInt 64 (bkdrSum s) := by
  have hcarry : (fun i n => carry (fun _ h => h * 131) (i + 1) n) =
      fun _ n (x : Int) => x * 131 ^ n := by
    funext i n x
    exact carry_mul (i + 1) n x
  have hint : s.foldl (fun h c => h * 131 + c.toInt) 0 = bkdrSum s := by
    rw [← List.foldl_map (f := BitVec.toInt) (g := fun h c => h * 131 + c),
      @foldl_eq_recur Int (· + ·) (· * 131) 0, recur_eq (e := 0) fun _ x y => Int.add_mul x y 131,
      carry_mul, hcarry, Int.zero_mul, Int.zero_add]
    rfl
  rw [← hint]
  refine @List.foldl_hom _ _ _ (BitVec.ofInt 64) (fun h c => h * 131 + c.toInt)
    (fun h c => h * 131 + charToSize c) s 0 fun h c => ?_
  rw [BitVec.ofInt_add, BitVec.ofInt_mul]
  rfl

/-- Two integers with the same lower `n` bits. -/
theorem ofInt_eq_iff {n : Nat} {p q : Int} :
    BitVec.ofInt n p = BitVec.ofInt n q ↔ ((2 ^ n : Nat) : Int) ∣ p - q := by
  rw [← BitVec.toInt_inj, BitVec.toInt_ofInt, BitVec.toInt_ofInt,
    Int.bmod_eq_bmod_iff_bmod_sub_eq_zero, Int.dvd_iff_bmod_eq_zero]

theorem hashBKDR_eq_iff (s : List (BitVec 8)) :
    hashBKDR s = bkdr s ↔ 0x8000000000000000 ∣ bkdrSum s := by
  have h131 : (131 : BitVec 64) = BitVec.ofInt 64 131 := by decide
  have h64 : ((2 ^ 64 : Nat) : Int) = 0x8000000000000000 * 2 := by decide
  have hdiff : ∀ p : Int, p * 131 - p = p * 65 * 2 := by omega
  rw [hashBKDR_eq, bkdr_eq, h131, ← BitVec.ofInt_mul, ofInt_eq_iff, hdiff, h64,
    Int.mul_dvd_mul_iff_right (by decide)]
  constructor
  · intro h
    exact Int.dvd_of_dvd_mul_left_of_gcd_one h (by decide)
  · intro h
    exact Int.dvd_mul_of_dvd_left h

/-! ## `HashAP` -/

/-- The mixing of an even position, without the character. -/
def evenMix (h : BitVec 64) : BitVec 64 := h ^^^ (h <<< 7) ^^^ (h >>> 3)

/-- The mixing of an odd position, without the character and the complement. -/
def oddMix (h : BitVec 64) : BitVec 64 := h ^^^ (h <<< 11) ^^^ (h >>> 5)

/-- The mixing of the position `i` in `ap`. -/
def apMix (i : Nat) : BitVec 64 → BitVec 64 := if i % 2 = 0 then evenMix else oddMix

/-- The complements of the positions from `i` to `i + n - 1` in `ap`. -/
def complements (i n : Nat) : List (BitVec 64) :=
  (List.range' i n).map fun j => if j % 2 = 0 then 0#64 else BitVec.allOnes 64

theorem evenMix_xor (x y : BitVec 64) : evenMix (x ^^^ y) = evenMix x ^^^ evenMix y := by
  unfold evenMix
  rw [BitVec.shiftLeft_xor_distrib, BitVec.ushiftRight_xor_distrib]
  ac_rfl

theorem oddMix_xor (x y : BitVec 64) : oddMix (x ^^^ y) = oddMix x ^^^ oddMix y := by
  unfold oddMix
  rw [BitVec.shiftLeft_xor_distrib, BitVec.ushiftRight_xor_distrib]
  ac_rfl

theorem apMix_xor (i : Nat) (x y : BitVec 64) : apMix i (x ^^^ y) = apMix i x ^^^ apMix i y := by
  unfold apMix
  split
  · exact evenMix_xor x y
  · exact oddMix_xor x y

/-- The test of `HashAP` for an even position. -/
theorem mod_one (i : Nat) : (i % 1 == 0) = true := by
  rw [Nat.mod_one]
  rfl

/-- All positions are mixed as even ones. -/
theorem hashAPLoop_eq (s : List (BitVec 8)) (i : Nat) (h : BitVec 64) :
    hashAPLoop s i h = recur (· ^^^ ·) (fun _ => evenMix) i (s.map charToSize) h := by
  induction s generalizing i h with
  | nil => rfl
  | cons c s ih =>
    have hmix : h ^^^ ((h <<< 7) ^^^ charToSize c ^^^ (h >>> 3)) = evenMix h ^^^ charToSize c := by
      unfold evenMix
      ac_rfl
    rw [hashAPLoop, if_pos (mod_one i), hmix, ih]
    rfl

theorem apLoop_eq (s : List (BitVec 8)) (i : Nat) (h : BitVec 64) :
    apLoop s i h = recur (· ^^^ ·) apMix i
      (List.zipWith (· ^^^ ·) (s.map charToSize) (complements i s.length)) h := by
  induction s generalizing i h with
  | nil => rfl
  | cons c s ih =>
    have heven : h ^^^ ((h <<< 7) ^^^ charToSize c ^^^ (h >>> 3)) =
        evenMix h ^^^ (charToSize c ^^^ 0#64) := by
      rw [BitVec.xor_zero]
      unfold evenMix
      ac_rfl
    have hodd : h ^^^ ~~~((h <<< 11) ^^^ charToSize c ^^^ (h >>> 5)) =
        oddMix h ^^^ (charToSize c ^^^ BitVec.allOnes 64) := by
      rw [← BitVec.xor_allOnes]
      unfold oddMix
      ac_rfl
    rw [apLoop, ih, ih, heven, hodd]
    simp only [complements, List.length_cons, List.range'_succ, List.map_cons, List.zipWith_cons_cons,
      recur, apMix]
    split
    · rfl
    · rfl

/-- What a value at the position `i`, with `n` positions behind it, becomes in `ap`. -/
def apPart (i n : Nat) : BitVec 64 → BitVec 64 := carry apMix (i + 1) n

/-- What it becomes in `HashAP`, compared with that. -/
def apSlip (i n : Nat) (x : BitVec 64) : BitVec 64 :=
  carry (fun _ => evenMix) (i + 1) n x ^^^ apPart i n x

/-- What the characters make of the difference between `HashAP` and `ap`: each bit of `s` adds a
constant, in exclusive or. -/
def apDifference (s : List (BitVec 8)) : BitVec 64 :=
  total (· ^^^ ·) 0#64 apSlip 0 (s.map charToSize)

/-- What the complements make of it. -/
def apConstant (n : Nat) : BitVec 64 := total (· ^^^ ·) 0#64 apPart 0 (complements 0 n)

theorem hashAP_eq (s : List (BitVec 8)) :
    hashAP s = total (· ^^^ ·) 0#64 (fun i n => carry (fun _ => evenMix) (i + 1) n) 0
      (s.map charToSize) := by
  have hzero : ∀ _ : Nat, evenMix 0#64 = 0#64 := fun _ => by decide
  rw [hashAP, hashAPLoop_eq, recur_eq (e := 0#64) fun _ => evenMix_xor]
  exact (congrArg (· ^^^ _) (carry_id hzero _ _)).trans BitVec.zero_xor

theorem ap_eq (s : List (BitVec 8)) :
    ap s = total (· ^^^ ·) 0#64 apPart 0 (s.map charToSize) ^^^ apConstant s.length := by
  have hzero : ∀ i, apMix i 0#64 = 0#64 := by
    intro i
    unfold apMix
    split
    · decide
    · decide
  have hlen : (s.map charToSize).length = (complements 0 s.length).length := by simp [complements]
  rw [ap, apLoop_eq, recur_eq (e := 0#64) apMix_xor]
  refine (congrArg (· ^^^ _) (carry_id hzero _ _)).trans (BitVec.zero_xor.trans ?_)
  exact total_zipWith (fun i n x y => carry_op apMix_xor (i + 1) n x y) 0 hlen

/-- **`HashAP`, exactly.** It is the AP hash where the characters make up for the complements. -/
theorem hashAP_eq_iff (s : List (BitVec 8)) :
    hashAP s = ap s ↔ apDifference s = apConstant s.length := by
  have hsum : apDifference s = hashAP s ^^^ total (· ^^^ ·) 0#64 apPart 0 (s.map charToSize) := by
    rw [hashAP_eq]
    exact total_op 0 _
  rw [ap_eq, hsum]
  generalize total (· ^^^ ·) 0#64 apPart 0 (s.map charToSize) = p
  have hcancel : p ^^^ apConstant s.length ^^^ p = apConstant s.length := by
    rw [BitVec.xor_comm p, BitVec.xor_assoc, BitVec.xor_self, BitVec.xor_zero]
  rw [← BitVec.xor_left_inj p, hcancel]

-- Ten characters whose bits make up for the complements.
example : hashAP [49, 208, 103, 122, 155, 84, 86, 80, 0, 0] =
    ap [49, 208, 103, 122, 155, 84, 86, 80, 0, 0] := by decide

/-- A string of one character has no odd position. -/
theorem hashAP_eq_of_length_le_one {s : List (BitVec 8)} (hs : s.length ≤ 1) : hashAP s = ap s := by
  match s, hs with
  | [], _ => rfl
  | [c], _ => rfl

/-- In a string of two characters, no first character makes up for the complement. -/
theorem hashAP_ne_of_two (a b : BitVec 8) : hashAP [a, b] ≠ ap [a, b] := by
  have hfirst : ∀ c : BitVec 8,
      evenMix (charToSize c) ^^^ oddMix (charToSize c) ≠ BitVec.allOnes 64 := by decide
  have hconst : apConstant 2 = BitVec.allOnes 64 := by decide
  intro h
  refine hfirst a (Eq.trans ?_ (((hashAP_eq_iff [a, b]).mp h).trans hconst))
  simp [apDifference, total, apSlip, apPart, carry, apMix]

/-- The `int` index is enough for a string of at most `intMax` characters, and for no other one. -/
theorem hashAPIntLoop_eq (s : List (BitVec 8)) {i : Nat} (hi : i ≤ intMax) (h : BitVec 64) :
    hashAPIntLoop s i h = if i + s.length ≤ intMax then .ret (hashAPLoop s i h) else .fault := by
  induction s generalizing i h with
  | nil => exact (if_pos hi).symm
  | cons c s ih =>
    rw [hashAPIntLoop, hashAPLoop, List.length_cons, ← Nat.add_assoc, Nat.add_right_comm]
    simp only [if_pos (mod_one i)]
    by_cases hlt : i < intMax
    · rw [if_pos hlt]
      exact ih hlt _
    · rw [if_neg hlt, if_neg (by omega)]

theorem hashAPInt_eq (s : List (BitVec 8)) :
    hashAPInt s = if s.length ≤ intMax then .ret (hashAP s) else .fault := by
  rw [hashAPInt, hashAPIntLoop_eq s (Nat.zero_le _), Nat.zero_add]
  rfl

/-! ## All three -/

/-- **The functors, exactly.** All three are the hashes of their names exactly if `2 ^ 63` divides the sum
for BKDR, an `int` is enough for the string, and its characters make up for the complements of AP. -/
theorem hashes_eq_iff (s : List (BitVec 8)) :
    (hashBKDR s = bkdr s ∧ hashAPInt s = .ret (ap s) ∧ hashDJB s = djb s) ↔
      0x8000000000000000 ∣ bkdrSum s ∧ s.length ≤ intMax ∧ apDifference s = apConstant s.length := by
  rw [hashBKDR_eq_iff, hashAPInt_eq, and_iff_left (hashDJB_eq s), ← hashAP_eq_iff]
  apply and_congr_right
  intro _
  by_cases hlen : s.length ≤ intMax
  · rw [if_pos hlen, and_iff_right hlen, Run.ret.injEq]
  · rw [if_neg hlen]
    exact iff_of_false nofun fun h => hlen h.1

/-- The string `aa`. -/
theorem hashes_ne_aa :
    hashBKDR [97, 97] ≠ bkdr [97, 97] ∧ hashAPInt [97, 97] ≠ .ret (ap [97, 97]) := by
  decide

end LinuxBase
