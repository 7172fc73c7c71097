import LinuxBase.Lib.Trace
import Mathlib.Algebra.BigOperators.Group.Finset.Piecewise
import Mathlib.Data.Finset.Card
import Mathlib.Data.Fintype.Defs

/-!
# Counting threads, and what has a property

`tally p f` is the number of threads `w` of a finite type `ω` whose place `f w` satisfies `p`.
`tally_update` says how it changes when one thread moves, as a balance of sums; `tally_mono` and
`tally_lt` compare the counts before and after many threads moved at once. `sum_update` is the same
for a sum over the threads.

`Counts P n`: the number of all that has `P` is `n`, where the type need not be finite. There is at most
one such number (`Counts.unique`); `Counts.insert` and `Counts.erase` are for one more and one less.

`exec_spends`: a potential bounds what all steps of a run spend together.
-/

namespace LinuxBase

section Tally

variable {ω φ : Type} [Fintype ω]

/-- The number of threads at a place with `p`. -/
def tally (p : φ → Bool) (f : ω → φ) : Nat := (Finset.univ.filter fun w => p (f w) = true).card

variable {p : φ → Bool} {f g : ω → φ}

theorem tally_mono (h : ∀ w, p (f w) → p (g w)) : tally p f ≤ tally p g :=
  Finset.card_le_card fun w hw => by
    simp only [Finset.mem_filter, Finset.mem_univ, true_and] at hw ⊢
    exact h w hw

theorem tally_lt (h : ∀ w, p (f w) → p (g w)) {w : ω} (hf : ¬ p (f w)) (hg : p (g w)) :
    tally p f < tally p g := by
  refine Finset.card_lt_card (Finset.ssubset_iff_of_subset ?_ |>.mpr ⟨w, ?_, ?_⟩)
  · intro v hv
    simp only [Finset.mem_filter, Finset.mem_univ, true_and] at hv ⊢
    exact h v hv
  · simpa using hg
  · simpa using hf

variable [DecidableEq ω]

/-- **How a count changes when the thread `w` moves to `x`.** -/
theorem tally_update (p : φ → Bool) (f : ω → φ) (w : ω) (x : φ) :
    tally p (Function.update f w x) + (p (f w)).toNat = tally p f + (p x).toNat := by
  -- The count without `w` is the same before and after.
  have hrest : ∀ h : ω → φ, tally p h =
      ((Finset.univ.erase w).filter fun v => p (h v) = true).card + (p (h w)).toNat := by
    intro h
    rw [tally, ← Finset.insert_erase (Finset.mem_univ w), Finset.filter_insert]
    cases hp : p (h w) <;> simp
  have hsame : (Finset.univ.erase w).filter (fun v => p (Function.update f w x v) = true) =
      (Finset.univ.erase w).filter fun v => p (f v) = true := by
    refine Finset.filter_congr fun v hv => ?_
    rw [Function.update_of_ne (Finset.ne_of_mem_erase hv)]
  rw [hrest (Function.update f w x), hrest f, hsame, Function.update_self]
  omega

/-- **How a sum over the threads changes when the thread `w` moves to `x`.** -/
theorem sum_update (g : φ → Nat) (f : ω → φ) (w : ω) (x : φ) :
    ∑ v, g (Function.update f w x v) + g (f w) = ∑ v, g (f v) + g x := by
  have hcomp : (fun v => g (Function.update f w x v)) = Function.update (fun v => g (f v)) w (g x) :=
    Function.comp_update g f w x
  rw [hcomp, Finset.sum_update_of_mem (Finset.mem_univ w), Finset.sdiff_singleton_eq_erase,
    add_right_comm, add_comm (g x), add_comm, ← Finset.add_sum_erase _ _ (Finset.mem_univ w)]
  omega

end Tally

section Counts

variable {α : Type} {P Q : α → Prop} {n m : Int} {a : α}

/-- `n` is the number of all that has `P`. -/
def Counts (P : α → Prop) (n : Int) : Prop := ∃ t : Finset α, (∀ a, a ∈ t ↔ P a) ∧ n = t.card

theorem Counts.nonneg (h : Counts P n) : 0 ≤ n := by
  obtain ⟨t, -, rfl⟩ := h
  exact Int.natCast_nonneg _

theorem Counts.unique (h : Counts P n) (h' : Counts P m) : n = m := by
  obtain ⟨t, ht, rfl⟩ := h
  obtain ⟨u, hu, rfl⟩ := h'
  rw [Finset.ext fun a => (ht a).trans (hu a).symm]

theorem Counts.congr (h : Counts P n) (hPQ : ∀ a, Q a ↔ P a) : Counts Q n := by
  obtain ⟨t, ht, hn⟩ := h
  exact ⟨t, fun a => (ht a).trans (hPQ a).symm, hn⟩

theorem counts_zero (h : ∀ a, ¬ P a) : Counts P 0 :=
  ⟨∅, fun a => iff_of_false (Finset.notMem_empty a) (h a), rfl⟩

variable [DecidableEq α]

theorem Counts.insert (h : Counts P n) (ha : ¬ P a) (hQ : ∀ b, Q b ↔ b = a ∨ P b) :
    Counts Q (n + 1) := by
  obtain ⟨t, ht, rfl⟩ := h
  refine ⟨Insert.insert a t, fun b => ?_, ?_⟩
  · rw [Finset.mem_insert, ht, hQ]
  · rw [Finset.card_insert_of_notMem fun hmem => ha ((ht a).mp hmem)]
    rfl

theorem Counts.erase (h : Counts P n) (ha : P a) (hQ : ∀ b, Q b ↔ b ≠ a ∧ P b) :
    Counts Q (n - 1) := by
  obtain ⟨t, ht, rfl⟩ := h
  have hmem := (ht a).mpr ha
  refine ⟨t.erase a, fun b => ?_, ?_⟩
  · rw [Finset.mem_erase, ht, hQ]
  · have := Finset.card_erase_add_one hmem
    omega

end Counts

section Potential

variable {St Ev : Type} {step : Ev → St → Run St}

/-- The sum of `f` over the events of a run. -/
def totalOf (f : Ev → Nat) : List Ev → Nat
  | [] => 0
  | e :: es => f e + totalOf f es

/-- **Potentials.** If each step pays `spend` from the potential and what the event grants, a run has
spent no more than the potential at its start and all that was granted. -/
theorem exec_spends {P : St → Ev → Prop} {I : Nat → St → Prop} {spend grant : Ev → Nat}
    (hstep : ∀ n s e s', I n s → P s e → step e s = .ret s' →
      ∃ m, I m s' ∧ m + spend e ≤ n + grant e)
    {n : Nat} {s s' : St} {es : List Ev} (hi : I n s) (hp : Along step P s es)
    (h : exec step es s = .ret s') : totalOf spend es ≤ n + totalOf grant es := by
  induction es generalizing n s with
  | nil => exact Nat.zero_le _
  | cons e es ih =>
    obtain ⟨s₁, h1, h2⟩ := Run.bind_eq_ret.mp h
    obtain ⟨hpe, hps⟩ := along_cons.mp hp
    obtain ⟨m, hm, hle⟩ := hstep n s e s₁ hi hpe h1
    have hrest := ih hm (hps s₁ h1) h2
    simp only [totalOf]
    omega

end Potential

end LinuxBase
