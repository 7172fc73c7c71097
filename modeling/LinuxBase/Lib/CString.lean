import LinuxBase.Lib.Run
import Mathlib.Data.List.Lex

/-!
# NUL-terminated strings

A `char *` is the list of the bytes from it to the end of its object; a read past the end is a
`fault`. `cstr bs` are the bytes of the string up to and including its NUL, all of `bs` if there is
none.

`Block n` is an object of `n` bytes; a store outside of it is a `fault`.

`signedKey bs` is the string as a list of numbers for comparisons of plain `char`, which is signed.
With the terminator in it, the order of the strings is the lexicographic order of their keys, and it
is linear.

Two strings that are not equal have a `FirstDifference`, behind a common part without a NUL.
-/

namespace LinuxBase
namespace CString

/-- An object of `n` bytes. -/
structure Block (n : Nat) where
  bytes : List Byte
  size_eq : bytes.length = n
  deriving DecidableEq

/-- Store `bs` at `off`. -/
def Block.write {n : Nat} (b : Block n) (off : Nat) (bs : List Byte) : Run (Block n) :=
  if h : off + bs.length ≤ n then
    .ret ⟨b.bytes.take off ++ (bs ++ b.bytes.drop (off + bs.length)), by
      simp only [List.length_append, List.length_take, List.length_drop, b.size_eq]; omega⟩
  else .fault

/-- The bytes up to and including the first NUL. -/
def cstr : List Byte → List Byte
  | [] => []
  | b :: bs => if b = 0#8 then [0#8] else b :: cstr bs

/-- What a function that reads a string gets. -/
def readString (bs : List Byte) : Run (List Byte) :=
  if 0#8 ∈ bs then .ret (cstr bs) else .fault

/-- `strcmp` compares the bytes as `unsigned char`. -/
def strcmp : List Byte → List Byte → Run Int
  | a :: as, b :: bs =>
    if a ≠ b then .ret ((a.toNat : Int) - b.toNat)
    else if a = 0#8 then .ret 0
    else strcmp as bs
  | _, _ => .fault

/-- The string as signed numbers. -/
def signedKey (bs : List Byte) : List Int := (cstr bs).map BitVec.toInt

theorem cstr_cons_of_ne {b : Byte} {bs : List Byte} (h : b ≠ 0#8) : cstr (b :: bs) = b :: cstr bs := by
  simp [cstr, h]

@[simp] theorem cstr_zero (bs : List Byte) : cstr (0#8 :: bs) = [0#8] := by simp [cstr]

theorem mem_cstr_zero {bs : List Byte} : 0#8 ∈ cstr bs ↔ 0#8 ∈ bs := by
  induction bs with
  | nil => rfl
  | cons b bs ih =>
    by_cases h : b = 0#8
    · subst h; simp
    · rw [cstr_cons_of_ne h, List.mem_cons, List.mem_cons, ih]

theorem signedKey_inj {as bs : List Byte} : signedKey as = signedKey bs ↔ cstr as = cstr bs :=
  (List.map_injective_iff.mpr fun _ _ h => BitVec.eq_of_toInt_eq h).eq_iff

theorem signedKey_cons_of_ne {b : Byte} {bs : List Byte} (h : b ≠ 0#8) :
    signedKey (b :: bs) = b.toInt :: signedKey bs := by
  simp [signedKey, cstr_cons_of_ne h]

/-- Each key starts with the first byte of its string. -/
theorem signedKey_cons (b : Byte) (bs : List Byte) :
    ∃ k, signedKey (b :: bs) = b.toInt :: k := by
  by_cases h : b = 0#8
  · subst h; exact ⟨[], by simp [signedKey]⟩
  · exact ⟨_, signedKey_cons_of_ne h⟩

/-! ## `strcmp` -/

theorem strcmp_cons_self (a : Byte) (as bs : List Byte) :
    strcmp (a :: as) (a :: bs) = if a = 0#8 then .ret 0 else strcmp as bs := by
  rw [strcmp, if_neg (by simp)]

theorem strcmp_cons_of_ne {a b : Byte} (h : a ≠ b) (as bs : List Byte) :
    strcmp (a :: as) (b :: bs) = .ret ((a.toNat : Int) - b.toNat) := by
  rw [strcmp, if_pos h]

theorem cstr_head {b : Byte} {bs : List Byte} : ∃ cs, cstr (b :: bs) = b :: cs := by
  by_cases h : b = 0#8
  · subst h; exact ⟨[], cstr_zero bs⟩
  · exact ⟨_, cstr_cons_of_ne h⟩

/-- `strcmp` of equal strings: zero, or a read past the end if there is no NUL. -/
theorem strcmp_of_cstr_eq {as bs : List Byte} (h : cstr as = cstr bs) :
    strcmp as bs = if 0#8 ∈ as then .ret 0 else .fault := by
  induction as generalizing bs with
  | nil => simp [strcmp]
  | cons a as ih =>
    obtain ⟨k, hk⟩ := @cstr_head a as
    cases bs with
    | nil => rw [hk] at h; cases h
    | cons b bs =>
      obtain ⟨l, hl⟩ := @cstr_head b bs
      have hab : a = b := by rw [hk, hl] at h; exact (List.cons.inj h).1
      subst hab
      rw [strcmp_cons_self]
      by_cases ha : a = 0#8
      · simp [ha]
      · rw [cstr_cons_of_ne ha, cstr_cons_of_ne ha] at h
        rw [if_neg ha, ih (List.cons.inj h).2]
        simp [Ne.symm ha]

theorem cstr_eq_of_strcmp {as bs : List Byte} (h : strcmp as bs = .ret 0) : cstr as = cstr bs := by
  induction as generalizing bs with
  | nil => simp [strcmp] at h
  | cons a as ih =>
    cases bs with
    | nil => simp [strcmp] at h
    | cons b bs =>
      by_cases hab : a = b
      · subst hab
        rw [strcmp_cons_self] at h
        by_cases ha : a = 0#8
        · subst ha; simp
        · rw [if_neg ha] at h
          rw [cstr_cons_of_ne ha, cstr_cons_of_ne ha, ih h]
      · rw [strcmp_cons_of_ne hab] at h
        exact absurd (BitVec.eq_of_toNat_eq (by have := Run.ret.inj h; omega)) hab

/-- Where `strcmp` returns, it is zero exactly on equal strings. -/
theorem strcmp_ret {as bs : List Byte} {d : Int} (h : strcmp as bs = .ret d) :
    d = 0 ↔ cstr as = cstr bs := by
  constructor
  · rintro rfl
    exact cstr_eq_of_strcmp h
  · intro he
    rw [strcmp_of_cstr_eq he] at h
    split at h
    · cases h; rfl
    · cases h

/-- Two strings can be compared if one of them ends inside the other's object. -/
theorem strcmp_returns {as bs : List Byte}
    (h : 0#8 ∈ as ∧ as.length ≤ bs.length ∨ 0#8 ∈ bs ∧ bs.length ≤ as.length ∨ 0#8 ∈ as ∧ 0#8 ∈ bs) :
    ∃ c, strcmp as bs = .ret c := by
  induction as generalizing bs with
  | nil =>
    rcases h with ⟨h, -⟩ | ⟨h, hl⟩ | ⟨h, -⟩
    · cases h
    · rw [List.length_nil, Nat.le_zero, List.length_eq_zero_iff] at hl
      subst hl; cases h
    · cases h
  | cons a as ih =>
    cases bs with
    | nil => simp at h
    | cons b bs =>
      by_cases hab : a = b
      · subst hab
        rw [strcmp_cons_self]
        by_cases ha : a = 0#8
        · exact ⟨0, if_pos ha⟩
        · rw [if_neg ha]
          apply ih
          simpa [Ne.symm ha] using h
      · exact ⟨_, strcmp_cons_of_ne hab as bs⟩

/-- Two strings in objects of one size can be compared unless they are equal and have no NUL. -/
theorem strcmp_returns_of_length {as bs : List Byte} (hl : as.length = bs.length)
    (h : cstr as = cstr bs → 0#8 ∈ as) : ∃ c, strcmp as bs = .ret c := by
  induction as generalizing bs with
  | nil =>
    cases bs with
    | nil => exact absurd (h rfl) (by simp)
    | cons b bs => simp at hl
  | cons a as ih =>
    cases bs with
    | nil => simp at hl
    | cons b bs =>
      by_cases hab : a = b
      · subst hab
        rw [strcmp_cons_self]
        by_cases ha : a = 0#8
        · exact ⟨0, if_pos ha⟩
        · rw [if_neg ha]
          refine ih (by simpa using hl) fun hc => ?_
          simpa [Ne.symm ha] using h (by rw [cstr_cons_of_ne ha, cstr_cons_of_ne ha, hc])
      · exact ⟨_, strcmp_cons_of_ne hab as bs⟩

/-! ## Strings that end in the first part of their object -/

theorem cstr_append {as : List Byte} (h : 0#8 ∈ as) (xs : List Byte) : cstr (as ++ xs) = cstr as := by
  induction as with
  | nil => cases h
  | cons a as ih =>
    by_cases ha : a = 0#8
    · subst ha
      rw [List.cons_append, cstr_zero, cstr_zero]
    · rw [List.cons_append, cstr_cons_of_ne ha, cstr_cons_of_ne ha,
        ih (by simpa [Ne.symm ha] using h)]

/-- A string is read up to its NUL. -/
theorem readString_append {as : List Byte} (h : 0#8 ∈ as) (xs : List Byte) :
    readString (as ++ xs) = readString as := by
  rw [readString, readString, if_pos h, if_pos (List.mem_append_left xs h), cstr_append h]

/-- `strcmp` reads no more than the string up to its NUL. -/
theorem strcmp_append_right {bs : List Byte} (h : 0#8 ∈ bs) (as ys : List Byte) :
    strcmp as (bs ++ ys) = strcmp as bs := by
  induction bs generalizing as with
  | nil => cases h
  | cons b bs ih =>
    cases as with
    | nil => rfl
    | cons a as =>
      rw [List.cons_append]
      by_cases hab : a = b
      · subst hab
        rw [strcmp_cons_self, strcmp_cons_self]
        by_cases ha : a = 0#8
        · rw [if_pos ha, if_pos ha]
        · rw [if_neg ha, if_neg ha, ih (by simpa [Ne.symm ha] using h)]
      · rw [strcmp_cons_of_ne hab, strcmp_cons_of_ne hab]

theorem strcmp_append_left {as : List Byte} (h : 0#8 ∈ as) (bs xs : List Byte) :
    strcmp (as ++ xs) bs = strcmp as bs := by
  induction as generalizing bs with
  | nil => cases h
  | cons a as ih =>
    cases bs with
    | nil => rfl
    | cons b bs =>
      rw [List.cons_append]
      by_cases hab : a = b
      · subst hab
        rw [strcmp_cons_self, strcmp_cons_self]
        by_cases ha : a = 0#8
        · rw [if_pos ha, if_pos ha]
        · rw [if_neg ha, if_neg ha, ih (by simpa [Ne.symm ha] using h)]
      · rw [strcmp_cons_of_ne hab, strcmp_cons_of_ne hab]

/-! ## Where two strings differ -/

theorem cstr_cstr (bs : List Byte) : cstr (cstr bs) = cstr bs := by
  induction bs with
  | nil => rfl
  | cons b bs ih =>
    by_cases hb : b = 0#8
    · subst hb
      rw [cstr_zero, cstr_zero]
    · rw [cstr_cons_of_ne hb, cstr_cons_of_ne hb, ih]

/-- Two strings that first differ behind `p`, in the octets `a` and `b`. -/
structure FirstDifference (p : List Byte) (a b : Byte) (lhs rhs : List Byte) : Prop where
  noNul : 0#8 ∉ p
  ne : a ≠ b
  left : p ++ [a] <+: lhs
  right : p ++ [b] <+: rhs

/-- Strings without a first difference are equal. -/
theorem exists_firstDifference {lhs rhs : List Byte} (hl : 0#8 ∈ lhs) (hr : 0#8 ∈ rhs)
    (h : cstr lhs ≠ cstr rhs) : ∃ p a b, FirstDifference p a b lhs rhs := by
  induction lhs generalizing rhs with
  | nil => exact absurd hl List.not_mem_nil
  | cons l lhs ih =>
    cases rhs with
    | nil => exact absurd hr List.not_mem_nil
    | cons r rhs =>
      by_cases hlr : l = r
      · subst hlr
        by_cases h0 : l = 0#8
        · subst h0
          exact absurd (by rw [cstr_zero, cstr_zero]) h
        · rw [cstr_cons_of_ne h0, cstr_cons_of_ne h0, ne_eq, List.cons.injEq, and_iff_right rfl] at h
          obtain ⟨p, a, b, hd⟩ := ih (by simpa [Ne.symm h0] using hl) (by simpa [Ne.symm h0] using hr) h
          exact ⟨l :: p, a, b, by simp [Ne.symm h0, hd.noNul], hd.ne,
            List.prefix_cons_inj l |>.mpr hd.left, List.prefix_cons_inj l |>.mpr hd.right⟩
      · exact ⟨[], l, r, List.not_mem_nil, hlr, by simp, by simp⟩

namespace FirstDifference

variable {p : List Byte} {a b : Byte} {lhs rhs : List Byte}

theorem strcmp_eq (h : FirstDifference p a b lhs rhs) :
    strcmp lhs rhs = .ret ((a.toNat : Int) - b.toNat) := by
  obtain ⟨hp, hab, ⟨xs, rfl⟩, ⟨ys, rfl⟩⟩ := h
  induction p with
  | nil => exact strcmp_cons_of_ne hab xs ys
  | cons c p ih =>
    rw [List.mem_cons, not_or] at hp
    rw [List.cons_append, List.cons_append, List.cons_append, List.cons_append, strcmp_cons_self,
      if_neg (Ne.symm hp.1)]
    exact ih hp.2

/-- Without what is behind the first NUL, the first difference is the same. -/
theorem prefix_cstr (hp : 0#8 ∉ p) {as : List Byte} (h : p ++ [a] <+: as) : p ++ [a] <+: cstr as := by
  obtain ⟨xs, rfl⟩ := h
  induction p with
  | nil =>
    obtain ⟨cs, hcs⟩ := @cstr_head a xs
    exact ⟨cs, hcs.symm⟩
  | cons c p ih =>
    rw [List.mem_cons, not_or] at hp
    rw [List.cons_append, List.cons_append, cstr_cons_of_ne (Ne.symm hp.1)]
    exact (List.prefix_cons_inj c).mpr (ih hp.2)

theorem to_cstr (h : FirstDifference p a b lhs rhs) :
    FirstDifference p a b (cstr lhs) (cstr rhs) :=
  ⟨h.noNul, h.ne, prefix_cstr h.noNul h.left, prefix_cstr h.noNul h.right⟩

end FirstDifference

end CString
end LinuxBase
