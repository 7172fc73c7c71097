import LinuxBase.Lib.Run
import Mathlib.Computability.StateTransition
import Mathlib.Data.Fintype.Pigeonhole

/-!
# Walks through a memory

A loop or a tail recursion that goes from place to place, as a parser does that follows offsets: from
each place `next` leads to another one, ends the walk (`ret none`), or faults.

* `walk next fuel a` makes at most `fuel` steps; `stepOf next` is the step as a partial function, for
  the reachability of `StateTransition`.
* `walk_terminates_iff`: the walk ends exactly if it reaches a place that ends it.
* `halts_iff_acyclic`: among finitely many places, it ends exactly if no place that it reaches leads
  back to itself. `exists_backward`: such a cycle of numbers has a step that does not go forward.
* `Times R k`: `k` steps of `R`. `returns_loop` and `noFault_loop` describe a loop with a counter,
  which makes such steps, by what its body does.
-/

namespace LinuxBase
namespace Walk

open StateTransition Relation

section General

variable {σ : Type} {next : σ → Run (Option σ)} {f : σ → Option σ} {a b c : σ}

def walk (next : σ → Run (Option σ)) : Nat → σ → Run Unit
  | 0, _ => .more
  | fuel + 1, a => do
    match ← next a with
    | none => .ret ()
    | some b => walk next fuel b

def stepOf (next : σ → Run (Option σ)) (a : σ) : Option σ :=
  match next a with
  | .ret b => b
  | _ => none

theorem stepOf_eq_some : stepOf next a = some b ↔ next a = .ret (some b) := by
  unfold stepOf
  cases next a with
  | ret c => simp
  | fault => simp
  | more => simp

theorem walk_succ_of_some (h : next a = .ret (some b)) (fuel : Nat) :
    walk next (fuel + 1) a = walk next fuel b := by
  rw [walk, h]; rfl

/-- A walk that reached a place goes on as from there. -/
theorem exists_walk_eq (h : Reaches (stepOf next) a b) :
    ∃ k, ∀ fuel, walk next (fuel + k) a = walk next fuel b := by
  induction h using ReflTransGen.head_induction_on with
  | refl => exact ⟨0, fun _ => rfl⟩
  | head h _ ih =>
    obtain ⟨k, hk⟩ := ih
    exact ⟨k + 1, fun fuel => (walk_succ_of_some (stepOf_eq_some.mp h) _).trans (hk fuel)⟩

/-- The last place of a walk that ended. -/
theorem exists_reaches (hm : ∀ a, next a ≠ .more) {fuel : Nat} (h : walk next fuel a ≠ .more) :
    ∃ b, Reaches (stepOf next) a b ∧ stepOf next b = none := by
  induction fuel generalizing a with
  | zero => exact absurd rfl h
  | succ fuel ih =>
    cases hn : next a with
    | ret b =>
      cases b with
      | none => exact ⟨a, .refl, by rw [stepOf, hn]⟩
      | some b =>
        rw [walk_succ_of_some hn] at h
        obtain ⟨c, hbc, hc⟩ := ih h
        exact ⟨c, .head (stepOf_eq_some.mpr hn) hbc, hc⟩
    | fault => exact ⟨a, .refl, by rw [stepOf, hn]⟩
    | more => exact absurd hn (hm a)

theorem walk_terminates_iff (hm : ∀ a, next a ≠ .more) :
    Terminates (fun n => walk next n a) ↔
      ∃ b, Reaches (stepOf next) a b ∧ stepOf next b = none := by
  constructor
  · rintro ⟨n, hn⟩
    exact exists_reaches hm hn
  · rintro ⟨b, hb, h⟩
    obtain ⟨k, hk⟩ := exists_walk_eq hb
    refine ⟨1 + k, ?_⟩
    simp only [hk 1, walk]
    cases hn : next b with
    | ret c =>
      rw [stepOf, hn] at h
      simp only at h
      subst h
      simp
    | fault => simp
    | more => exact absurd hn (hm b)

/-- A walk faults exactly if it reaches a place that does. -/
theorem noFault_walk : NoFault (fun n => walk next n a) ↔
    ∀ b, Reaches (stepOf next) a b → next b ≠ .fault := by
  constructor
  · intro h b hb hn
    obtain ⟨k, hk⟩ := exists_walk_eq hb
    refine h (1 + k) ?_
    simp only [hk 1, walk, hn, Run.fault_bind]
  · intro h n hn
    induction n generalizing a with
    | zero => cases hn
    | succ n ih =>
      simp only at hn
      cases hna : next a with
      | ret b =>
        cases b with
        | none => rw [walk, hna] at hn; cases hn
        | some b =>
          rw [walk_succ_of_some hna] at hn
          exact ih (fun c hc => h c (.head (stepOf_eq_some.mpr hna) hc)) hn
      | fault => exact h a .refl hna
      | more => rw [walk, hna] at hn; cases hn

/-- A place from which the walk ends does not lead back to itself. -/
theorem not_reaches₁_self (h : b ∈ eval f a) : ¬ Reaches₁ f a a := by
  refine evalInduction h fun a _ ih hc => ?_
  obtain ⟨a', ha', -⟩ := TransGen.head'_iff.mp hc
  exact ih a' ha' (TransGen.tail' (reaches₁_fwd hc ha') ha')

end General

/-! ## Walks through numbers -/

section Numbers

variable {f : Nat → Option Nat} {a b : Nat}

/-- The place after `k` steps. -/
def after (f : Nat → Option Nat) (a : Nat) : Nat → Nat
  | 0 => a
  | k + 1 => (f (after f a k)).getD 0

theorem after_succ {k : Nat} (h : f (after f a k) ≠ none) :
    after f a (k + 1) ∈ f (after f a k) := by
  obtain ⟨c, hc⟩ := Option.ne_none_iff_exists'.mp h
  simp only [after, hc, Option.getD_some, Option.mem_def]

theorem reaches_after (h : ∀ b, Reaches f a b → f b ≠ none) (k : Nat) : Reaches f a (after f a k) := by
  induction k with
  | zero => exact .refl
  | succ k ih => exact ih.tail (after_succ (h _ ih))

theorem reaches₁_after (h : ∀ b, Reaches f a b → f b ≠ none) {i j : Nat} (hij : i < j) :
    Reaches₁ f (after f a i) (after f a j) := by
  induction hij with
  | refl => exact .single (after_succ (h _ (reaches_after h i)))
  | step _ ih => exact ih.tail (after_succ (h _ (reaches_after h _)))

/-- A walk below a bound ends exactly if no place that it reaches leads back to itself. -/
theorem halts_iff_acyclic {N : Nat} (hN : ∀ a b, f a = some b → a < N) (a : Nat) :
    (∃ b, Reaches f a b ∧ f b = none) ↔ ¬ ∃ b, Reaches f a b ∧ Reaches₁ f b b := by
  constructor
  · rintro ⟨b, hb⟩ ⟨c, hac, hcc⟩
    have he := mem_eval.mpr hb
    rw [reaches_eval hac] at he
    exact not_reaches₁_self he hcc
  · intro hac
    refine Classical.byContradiction fun hno => hac ?_
    have hsome : ∀ b, Reaches f a b → f b ≠ none := fun b hb hn => hno ⟨b, hb, hn⟩
    have hlt : ∀ k, after f a k < N := fun k => by
      obtain ⟨c, hc⟩ := Option.ne_none_iff_exists'.mp (hsome _ (reaches_after hsome k))
      exact hN _ _ hc
    -- Two of the places after 0, 1, 2, … steps are the same.
    obtain ⟨i, j, hij, he⟩ :=
      Finite.exists_ne_map_eq_of_infinite fun k => (⟨after f a k, hlt k⟩ : Fin N)
    have he' : after f a i = after f a j := congrArg Fin.val he
    rcases Nat.lt_or_gt_of_ne hij with h | h
    · exact ⟨_, reaches_after hsome i, by simpa only [← he'] using reaches₁_after hsome h⟩
    · exact ⟨_, reaches_after hsome j, by simpa only [he'] using reaches₁_after hsome h⟩

/-- A path goes forward, or has a step that does not. -/
theorem Reaches.le_or_backward (h : Reaches f a b) :
    a ≤ b ∨ ∃ c d, Reaches f a c ∧ f c = some d ∧ d ≤ c ∧ Reaches f d b := by
  induction h using ReflTransGen.head_induction_on with
  | refl => exact .inl (Nat.le_refl _)
  | @head a c hac hcb ih =>
    by_cases hca : c ≤ a
    · exact .inr ⟨a, c, .refl, hac, hca, hcb⟩
    · rcases ih with hle | ⟨d, e, hcd, hde, hed, heb⟩
      · exact .inl (by omega)
      · exact .inr ⟨d, e, .head hac hcd, hde, hed, heb⟩

/-- A cycle has a step that does not go forward. -/
theorem exists_backward (h : Reaches₁ f a a) :
    ∃ b c, Reaches f a b ∧ f b = some c ∧ c ≤ b ∧ Reaches₁ f b b := by
  obtain ⟨a', ha', hback⟩ := TransGen.head'_iff.mp h
  by_cases hle : a' ≤ a
  · exact ⟨a, a', .refl, ha', hle, h⟩
  · rcases Reaches.le_or_backward hback with hle' | ⟨b, c, hab, hbc, hcb, hca⟩
    · omega
    · refine ⟨b, c, .head ha' hab, hbc, hcb, TransGen.head' hbc ?_⟩
      exact hca.trans (.head ha' hab)

end Numbers

/-! ## Loops with a counter -/

section Counted

variable {σ α : Type} {R : α → α → Prop} {I : α → Prop} {view : σ → α} {s₀ : σ} {b : α} {k : Nat}
variable {loop : Nat → Nat → Run σ} {body : Nat → Nat → σ → Run σ}

/-- `k` steps of `R` lead from `a` to `b`. -/
def Times (R : α → α → Prop) : Nat → α → α → Prop
  | 0, a, b => b = a
  | k + 1, a, b => ∃ c, Times R k a c ∧ R c b

/-- What a loop returns, seen through `view`, if its body makes the step `R` there. -/
theorem returns_loop (hloop : ∀ k, Fueled fun n => loop n k)
    (hbody : ∀ i s, Fueled fun n => body n i s) (hzero : ∀ n, loop n 0 = .ret s₀)
    (hsucc : ∀ n k, loop n (k + 1) = loop n k >>= body n k)
    (hR : ∀ i s b, (∃ s', Returns (fun n => body n i s) s' ∧ view s' = b) ↔ R (view s) b) :
    (∃ s, Returns (fun n => loop n k) s ∧ view s = b) ↔ Times R k (view s₀) b := by
  induction k generalizing b with
  | zero =>
    simp only [hzero, Times]
    constructor
    · rintro ⟨s, ⟨_, hs⟩, rfl⟩
      rw [Run.ret.inj hs]
    · rintro rfl
      exact ⟨s₀, ⟨0, rfl⟩, rfl⟩
  | succ k ih =>
    simp only [hsucc, Times]
    constructor
    · rintro ⟨s', hs', rfl⟩
      obtain ⟨s, hs, hs'⟩ := (returns_bind (hloop k) (hbody k)).mp hs'
      exact ⟨view s, ih.mp ⟨s, hs, rfl⟩, (hR k s _).mp ⟨s', hs', rfl⟩⟩
    · rintro ⟨c, hc, hcb⟩
      obtain ⟨s, hs, rfl⟩ := ih.mpr hc
      obtain ⟨s', hs', rfl⟩ := (hR k s b).mpr hcb
      exact ⟨s', (returns_bind (hloop k) (hbody k)).mpr ⟨s, hs, hs'⟩, rfl⟩

/-- A loop faults exactly if its body does where an iteration starts. -/
theorem noFault_loop (hloop : ∀ k, Fueled fun n => loop n k)
    (hbody : ∀ i s, Fueled fun n => body n i s) (hzero : ∀ n, loop n 0 = .ret s₀)
    (hsucc : ∀ n k, loop n (k + 1) = loop n k >>= body n k)
    (hR : ∀ i s b, (∃ s', Returns (fun n => body n i s) s' ∧ view s' = b) ↔ R (view s) b)
    (hI : ∀ i s, NoFault (fun n => body n i s) ↔ I (view s)) :
    NoFault (fun n => loop n k) ↔ ∀ i < k, ∀ a, Times R i (view s₀) a → I a := by
  induction k with
  | zero =>
    simp only [hzero, noFault_const]
    exact iff_of_true nofun fun i hi => absurd hi (Nat.not_lt_zero i)
  | succ k ih =>
    simp only [hsucc]
    rw [noFault_bind (hloop k) (hbody k), ih]
    constructor
    · rintro ⟨hbefore, hlast⟩ i hi a ha
      rcases Nat.lt_succ_iff_lt_or_eq.mp hi with h | rfl
      · exact hbefore i h a ha
      · obtain ⟨s, hs, rfl⟩ := (returns_loop hloop hbody hzero hsucc hR).mpr ha
        exact (hI i s).mp (hlast s hs)
    · refine fun h => ⟨fun i hi => h i (Nat.lt_succ_of_lt hi), fun s hs => ?_⟩
      have hs := (returns_loop hloop hbody hzero hsucc hR).mp ⟨s, hs, rfl⟩
      exact (hI k s).mpr (h k (Nat.lt_succ_self k) _ hs)

end Counted

end Walk
end LinuxBase
