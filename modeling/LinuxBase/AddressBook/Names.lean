import LinuxBase.AddressBook.Basic
import LinuxBase.Lib.KeySort
import Mathlib.Data.Int.Order.Basic
import Mathlib.Data.List.Lex

/-!
# The order of `compare_name`

`compare_name` first asks `strcmp`, which compares as `unsigned char`, whether the names are equal,
and then looks for the first difference as plain (signed) `char`. Where it returns, it returns the
order of the names' keys (`compareName_agrees`), and it returns wherever `strcmp` does.

A name with a NUL in its field is `Terminated`. A longer one runs on into the phone.
-/

namespace LinuxBase
namespace AddressBook

open CString KeySort

namespace Person

/-- The key of the name. -/
def key (p : Person) : List Int := signedKey p.bytes

/-- The person has the name `name`. -/
def hasName (name : List Byte) (p : Person) : Bool := decide (cstr p.bytes = cstr name)

theorem hasName_eq (name : List Byte) : hasName name = hasKey key (signedKey name) := by
  funext p
  unfold hasName hasKey
  rw [decide_eq_decide]
  exact signedKey_inj.symm

end Person

/-- What `compare_name` returned, as an order of the keys. -/
def Agrees (c : Int) (k l : List Int) : Prop :=
  c = -1 ∧ k < l ∨ c = 0 ∧ k = l ∨ c = 1 ∧ l < k

theorem Agrees.cons {c : Int} {k l : List Int} (h : Agrees c k l) (x : Int) :
    Agrees c (x :: k) (x :: l) := by
  rcases h with ⟨hc, h⟩ | ⟨hc, h⟩ | ⟨hc, h⟩
  · exact .inl ⟨hc, List.cons_lt_cons_iff.mpr (.inr ⟨rfl, h⟩)⟩
  · exact .inr (.inl ⟨hc, by rw [h]⟩)
  · exact .inr (.inr ⟨hc, List.cons_lt_cons_iff.mpr (.inr ⟨rfl, h⟩)⟩)

theorem Agrees.le_iff {c : Int} {k l : List Int} (h : Agrees c k l) : c = -1 ∨ c = 0 ↔ k ≤ l := by
  rcases h with ⟨rfl, h⟩ | ⟨rfl, h⟩ | ⟨rfl, h⟩
  · simp [le_of_lt h]
  · simp [h]
  · simp [h]

theorem Agrees.eq_one {c : Int} {k l : List Int} (h : Agrees c k l) (hc : ¬ (c = -1 ∨ c = 0)) :
    c = 1 := by
  rcases h with ⟨h, -⟩ | ⟨h, -⟩ | ⟨h, -⟩
  · exact absurd (.inl h) hc
  · exact absurd (.inr h) hc
  · exact h

/-- The loop of `compare_name` on names that `strcmp` found different. -/
theorem compareLoop_of_strcmp {as bs : List Byte} {d : Int} (h : strcmp as bs = .ret d)
    (hd : d ≠ 0) : ∃ c, compareLoop as bs = .ret c ∧ Agrees c (signedKey as) (signedKey bs) := by
  induction as generalizing bs with
  | nil => simp [strcmp] at h
  | cons a as ih =>
    cases bs with
    | nil => simp [strcmp] at h
    | cons b bs =>
      rw [strcmp] at h
      rw [compareLoop]
      by_cases hab : a = b
      · subst hab
        by_cases ha : a = 0#8
        · simp only [ha, ne_eq, not_true_eq_false, if_false, if_true, Run.ret.injEq] at h
          exact absurd h.symm hd
        · simp only [ne_eq, not_true_eq_false, if_false, ha] at h
          obtain ⟨c, hc, hk⟩ := ih h
          refine ⟨c, by simpa using hc, ?_⟩
          rw [signedKey_cons_of_ne ha, signedKey_cons_of_ne ha]
          exact hk.cons _
      · obtain ⟨k, hk⟩ := signedKey_cons a as
        obtain ⟨l, hl⟩ := signedKey_cons b bs
        rw [hk, hl]
        have hne : a.toInt ≠ b.toInt := fun e => hab (BitVec.eq_of_toInt_eq e)
        rcases lt_or_gt_of_ne hne with hlt | hgt
        · exact ⟨-1, if_pos hlt, .inl ⟨rfl, List.cons_lt_cons_iff.mpr (.inl hlt)⟩⟩
        · refine ⟨1, ?_, .inr (.inr ⟨rfl, List.cons_lt_cons_iff.mpr (.inl hgt)⟩)⟩
          rw [if_neg (by omega), if_pos hgt]

/-- `compare_name` on names that `strcmp` can compare: it returns the order of their keys. -/
theorem compareName_of_strcmp {as bs : List Byte} {d : Int} (h : strcmp as bs = .ret d) :
    ∃ c, compareName as bs = .ret c ∧ Agrees c (signedKey as) (signedKey bs) := by
  simp only [compareName, h, Run.ret_bind]
  by_cases hd : d = 0
  · subst hd
    refine ⟨0, if_pos rfl, .inr (.inl ⟨rfl, ?_⟩)⟩
    exact signedKey_inj.mpr (cstr_eq_of_strcmp h)
  · rw [if_neg hd]
    exact compareLoop_of_strcmp h hd

theorem compareName_agrees {as bs : List Byte} {c : Int} (h : compareName as bs = .ret c) :
    Agrees c (signedKey as) (signedKey bs) := by
  obtain ⟨d, hd, -⟩ := Run.bind_eq_ret.mp h
  obtain ⟨c', hc', hk⟩ := compareName_of_strcmp hd
  rw [h] at hc'
  cases hc'
  exact hk

/-- The name ends inside its field. -/
def Person.Terminated (p : Person) : Prop := 0#8 ∈ p.name

instance (p : Person) : Decidable p.Terminated := inferInstanceAs (Decidable (0#8 ∈ p.name))

theorem Person.Terminated.mem_bytes {p : Person} (h : p.Terminated) : 0#8 ∈ p.bytes :=
  List.mem_of_mem_take h

/-- Two persons can be compared unless their names are equal and not terminated. -/
theorem compareName_returns {p q : Person}
    (h : signedKey p.bytes = signedKey q.bytes → 0#8 ∈ p.bytes) :
    ∃ c, compareName p.bytes q.bytes = .ret c := by
  obtain ⟨d, hd⟩ := strcmp_returns_of_length (p.size_eq.trans q.size_eq.symm)
    fun hc => h (signedKey_inj.mpr hc)
  obtain ⟨c, hc, -⟩ := compareName_of_strcmp hd
  exact ⟨c, hc⟩

end AddressBook
end LinuxBase
