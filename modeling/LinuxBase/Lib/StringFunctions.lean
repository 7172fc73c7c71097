import LinuxBase.Lib.CString
import LinuxBase.Lib.Layout
import Mathlib.Data.List.TakeWhile

/-!
# String functions on blocks of any size

A block is the list of its bytes. `text block` are the bytes in front of its NUL; a function that looks
for a NUL where there is none, or stores outside of a block, is a `fault`.

`Ends block` says that there is a NUL. Such a block is its text, a NUL, and the rest (`Ends.split`), and
a `strncat` to it appends to its text, if the block has room (`strncat_of_ends`).
-/

namespace LinuxBase
namespace CString

open Layout

/-- The bytes in front of the NUL. -/
def text (block : List Byte) : List Byte := block.takeWhile (· ≠ 0#8)

/-- The block has a NUL. -/
def Ends (block : List Byte) : Prop := 0#8 ∈ block

instance (block : List Byte) : Decidable (Ends block) := inferInstanceAs (Decidable (0#8 ∈ block))

def strlen (block : List Byte) : Run Nat :=
  if Ends block then .ret (text block).length else .fault

/-- Store `bs` at `p`. -/
def storeAt (block : List Byte) (p : Nat) (bs : List Byte) : Run (List Byte) :=
  if p + bs.length ≤ block.length then .ret (put block p bs) else .fault

/-- At most `n` bytes of a string, without its NUL. -/
def readUpTo : List Byte → Nat → Run (List Byte)
  | _, 0 => .ret []
  | [], _ + 1 => .fault
  | b :: bs, n + 1 =>
    if b = 0#8 then .ret []
    else do
      let rest ← readUpTo bs n
      .ret (b :: rest)

def strncat (dest src : List Byte) (n : Nat) : Run (List Byte) := do
  let len ← strlen dest
  let bs ← readUpTo src n
  storeAt dest len (bs ++ [0#8])

/-- `strncpy` stores `n` bytes: behind the string there are NULs. -/
def strncpy (dest src : List Byte) (n : Nat) : Run (List Byte) := do
  let bs ← readUpTo src n
  storeAt dest 0 (bs ++ List.replicate (n - bs.length) 0#8)

variable {block src xs ys : List Byte} {n p : Nat}

theorem zero_not_mem_text (block : List Byte) : 0#8 ∉ text block := by
  intro h
  have hne := List.mem_takeWhile_imp h
  simp at hne

theorem text_append_zero (h : 0#8 ∉ xs) (ys : List Byte) : text (xs ++ 0#8 :: ys) = xs := by
  induction xs with
  | nil => rfl
  | cons x xs ih =>
    rw [List.mem_cons, not_or] at h
    have hx : decide (x ≠ 0#8) = true := decide_eq_true (Ne.symm h.1)
    rw [List.cons_append, text, List.takeWhile_cons, if_pos hx]
    exact congrArg (x :: ·) (ih h.2)

theorem text_eq_self (h : 0#8 ∉ xs) : text xs = xs := by
  refine List.takeWhile_eq_self_iff.mpr fun x hx => decide_eq_true ?_
  rintro rfl
  exact h hx

/-- A block with a NUL: its text, the NUL, and the rest. -/
theorem Ends.split (h : Ends block) : ∃ xs rest, block = xs ++ 0#8 :: rest ∧ 0#8 ∉ xs :=
  List.eq_append_cons_of_mem h

theorem Ends.text_lt (h : Ends block) : (text block).length < block.length := by
  obtain ⟨xs, rest, rfl, hxs⟩ := h.split
  rw [text_append_zero hxs, List.length_append, List.length_cons]
  omega

/-- The text of a block stays if its end is cut off behind the NUL. -/
theorem Ends.take (h : Ends block) (hn : (text block).length < n) (ys : List Byte) :
    Ends (block.take n ++ ys) ∧ text (block.take n ++ ys) = text block := by
  obtain ⟨xs, rest, rfl, hxs⟩ := h.split
  rw [text_append_zero hxs] at hn ⊢
  obtain ⟨m, rfl⟩ := Nat.exists_eq_add_of_lt hn
  have htake : (xs ++ 0#8 :: rest).take (xs.length + m + 1) ++ ys =
      xs ++ 0#8 :: (rest.take m ++ ys) := by
    rw [Nat.add_assoc, List.take_length_add_append, List.take_succ_cons, List.append_assoc,
      List.cons_append]
  rw [htake]
  exact ⟨List.mem_append_right _ List.mem_cons_self, text_append_zero hxs _⟩

theorem strlen_of_ends (h : Ends block) : strlen block = .ret (text block).length := if_pos h

theorem strlen_of_not_ends (h : ¬ Ends block) : strlen block = .fault := if_neg h

theorem storeAt_of_le {block bs : List Byte} {p : Nat} (h : p + bs.length ≤ block.length) :
    storeAt block p bs = .ret (put block p bs) := if_pos h

theorem storeAt_of_lt {block bs : List Byte} {p : Nat} (h : block.length < p + bs.length) :
    storeAt block p bs = .fault := if_neg (Nat.not_le.mpr h)

theorem storeAt_eq_ret {bs block' : List Byte} (h : storeAt block p bs = .ret block') :
    p + bs.length ≤ block.length ∧ block' = put block p bs := by
  by_cases hroom : p + bs.length ≤ block.length
  · rw [storeAt_of_le hroom] at h
    cases h
    exact ⟨hroom, rfl⟩
  · rw [storeAt_of_lt (Nat.not_le.mp hroom)] at h
    cases h

theorem readUpTo_append (xs ys : List Byte) : readUpTo (xs ++ ys) xs.length = .ret (text xs) := by
  induction xs with
  | nil => exact readUpTo.eq_1 _
  | cons x xs ih =>
    rw [List.cons_append, List.length_cons, readUpTo, text, List.takeWhile_cons]
    by_cases hx : x = 0#8
    · rw [if_pos hx, if_neg (by simp [hx])]
    · rw [if_neg hx, if_pos (by simp [hx]), ih]
      rfl

/-- A read of a string ends in front of its NUL. -/
theorem readUpTo_cases (src : List Byte) (n : Nat) :
    readUpTo src n = .fault ∨ ∃ bs, readUpTo src n = .ret bs ∧ 0#8 ∉ bs ∧
      (0#8 ∉ src.take n → bs.length = n) := by
  induction n generalizing src with
  | zero => exact .inr ⟨[], readUpTo.eq_1 src, List.not_mem_nil, fun _ => rfl⟩
  | succ n ih =>
    cases src with
    | nil => exact .inl rfl
    | cons b src =>
      rw [readUpTo]
      by_cases hb : b = 0#8
      · rw [if_pos hb]
        refine .inr ⟨[], rfl, List.not_mem_nil, fun hno => absurd ?_ hno⟩
        rw [List.take_succ_cons, hb]
        exact List.mem_cons_self
      · rw [if_neg hb]
        rcases ih src with hfault | ⟨bs, hbs, hzero, hlen⟩
        · rw [hfault]
          exact .inl rfl
        · rw [hbs]
          refine .inr ⟨b :: bs, rfl, ?_, fun hno => ?_⟩
          · rw [List.mem_cons, not_or]
            exact ⟨Ne.symm hb, hzero⟩
          · rw [List.take_succ_cons, List.mem_cons, not_or] at hno
            rw [List.length_cons, hlen hno.2]

/-- **What `strncat` does** to a block with a NUL and room for what it reads. -/
theorem strncat_of_ends (h : Ends block) (hread : readUpTo src n = .ret xs) (hxs : 0#8 ∉ xs)
    (hroom : (text block).length + xs.length < block.length) :
    ∃ block', strncat block src n = .ret block' ∧ Ends block' ∧ text block' = text block ++ xs := by
  have hstore : (text block).length + (xs ++ [0#8]).length ≤ block.length := by
    rw [List.length_append, List.length_singleton]; omega
  refine ⟨put block (text block).length (xs ++ [0#8]), ?_, ?_⟩
  · rw [strncat, strlen_of_ends h, Run.ret_bind, hread, Run.ret_bind, storeAt, if_pos hstore]
  · obtain ⟨ts, rest, rfl, hts⟩ := h.split
    rw [text_append_zero hts]
    have hzero : 0#8 ∉ ts ++ xs := by
      rw [List.mem_append, not_or]
      exact ⟨hts, hxs⟩
    have hput : put (ts ++ 0#8 :: rest) ts.length (xs ++ [0#8]) = (ts ++ xs) ++ 0#8 ::
        (ts ++ 0#8 :: rest).drop (ts.length + (xs ++ [0#8]).length) := by
      rw [put, List.take_left]
      simp only [List.append_assoc, List.singleton_append]
    rw [hput, text_append_zero hzero]
    exact ⟨List.mem_append_right _ List.mem_cons_self, rfl⟩

theorem strncat_of_not_ends (h : ¬ Ends block) (src : List Byte) (n : Nat) :
    strncat block src n = .fault := by
  rw [strncat, strlen_of_not_ends h, Run.fault_bind]

end CString
end LinuxBase
