import LinuxBase.Lib.Run

/-!
# Runs under a monitor

A piece of code with checks that the code itself does not make is an `ExceptT ε Run α`: the first
check that fails stops it with an `ε`.

* `Quiet f`: no check fails, with any fuel. `quiet_bind` and `quiet_lift_bind` take it apart.
* `Follows x y`: the checks apart, `x` does what `y` does. So a quiet run has the results of the run
  without checks (`Follows.yields_iff`).
* `quiet_loop` is the rule for a loop with a counter.
-/

namespace LinuxBase

section Monitor

variable {ε α β : Type}

/-- No check of `f` fails. -/
def Quiet (f : Nat → ExceptT ε Run α) : Prop := ∀ fuel e, (f fuel).run ≠ .ret (.error e)

/-- Some fuel lets `f` return `a`. -/
def Yields (f : Nat → ExceptT ε Run α) (a : α) : Prop := Returns (fun n => (f n).run) (.ok a)

/-- `x` is `y` with checks. -/
inductive Follows : ExceptT ε Run α → Run α → Prop
  | ret (a : α) : Follows (pure a) (.ret a)
  | error (e : ε) (y : Run α) : Follows (throw e) y
  | fault : Follows (liftM (Run.fault : Run α)) .fault
  | more : Follows (liftM (Run.more : Run α)) .more

/-! ## Sequences -/

theorem lift_ret_bind (a : α) (g : α → ExceptT ε Run β) :
    ((liftM (Run.ret a) : ExceptT ε Run α) >>= g) = g a := rfl

theorem lift_fault_bind (g : α → ExceptT ε Run β) :
    ((liftM (Run.fault : Run α) : ExceptT ε Run α) >>= g) = liftM (Run.fault : Run β) := rfl

/-- A sequence that ended, after a change of what follows where that ended. -/
theorem run_bind_stable {x : ExceptT ε Run α} {f g : α → ExceptT ε Run β}
    (hn : (x >>= f).run ≠ .more) (h : ∀ a, (f a).run ≠ .more → (g a).run = (f a).run) :
    (x >>= g).run = (x >>= f).run :=
  Run.bind_stable (f := ExceptT.bindCont f) (g := ExceptT.bindCont g) hn fun a ha => by
    cases a with
    | ok a => exact h a ha
    | error e => rfl

/-- A choice that ended, after a change of both sides where they ended. -/
theorem run_ite_stable {P : Prop} [Decidable P] {x x' y y' : ExceptT ε Run α}
    (hn : (if P then x else y).run ≠ .more) (hx : x.run ≠ .more → x'.run = x.run)
    (hy : y.run ≠ .more → y'.run = y.run) :
    (if P then x' else y').run = (if P then x else y).run := by
  rw [apply_ite ExceptT.run] at hn ⊢
  rw [apply_ite ExceptT.run]
  exact Run.ite_stable hn hx hy

theorem fueled_monitor_bind {f : Nat → ExceptT ε Run α} {g : Nat → α → ExceptT ε Run β}
    (hf : Fueled fun n => (f n).run) (hg : ∀ a, Fueled fun n => (g n a).run) :
    Fueled fun n => (f n >>= g n).run := by
  have h := hf.bind (g := fun n => ExceptT.bindCont (g n)) fun a => by
    cases a with
    | ok a => exact hg a
    | error e => exact fueled_const _
  exact h

theorem fueled_lift {f : Nat → Run α} (hf : Fueled f) :
    Fueled fun n => (liftM (f n) : ExceptT ε Run α).run :=
  hf.bind fun _ => fueled_const _

theorem run_bind_eq_error {x : ExceptT ε Run α} {g : α → ExceptT ε Run β} {e : ε} :
    (x >>= g).run = .ret (.error e) ↔
      x.run = .ret (.error e) ∨ ∃ a, x.run = .ret (.ok a) ∧ (g a).run = .ret (.error e) := by
  refine Run.bind_eq_ret.trans ?_
  constructor
  · rintro ⟨a, ha, h⟩
    cases a with
    | ok a => exact .inr ⟨a, ha, h⟩
    | error e' => cases h; exact .inl ha
  · rintro (h | ⟨a, ha, h⟩)
    · exact ⟨_, h, rfl⟩
    · exact ⟨_, ha, h⟩

theorem run_lift_bind_eq_error {x : Run α} {g : α → ExceptT ε Run β} {e : ε} :
    ((liftM x : ExceptT ε Run α) >>= g).run = .ret (.error e) ↔
      ∃ a, x = .ret a ∧ (g a).run = .ret (.error e) := by
  cases x with
  | ret a => exact ⟨fun h => ⟨a, rfl, h⟩, fun ⟨_, hb, h⟩ => Run.ret.inj hb ▸ h⟩
  | fault => exact iff_of_false (fun h => nomatch h) (fun h => nomatch h)
  | more => exact iff_of_false (fun h => nomatch h) (fun h => nomatch h)

/-- A sequence is quiet exactly when its first part is, and so is the rest from what that returns. -/
theorem quiet_bind {f : Nat → ExceptT ε Run α} {g : Nat → α → ExceptT ε Run β}
    (hf : Fueled fun n => (f n).run) (hg : ∀ a, Fueled fun n => (g n a).run) :
    Quiet (fun n => f n >>= g n) ↔ Quiet f ∧ ∀ a, Yields f a → Quiet fun n => g n a := by
  constructor
  · refine fun h => ⟨fun n e hn => h n e (run_bind_eq_error.mpr (.inl hn)), ?_⟩
    rintro a ⟨n, hn⟩ m e hm
    -- With the greater fuel both parts do the same again.
    have h1 := hf.stable (m := max n m) (fun h => by cases hn.symm.trans h) (Nat.le_max_left _ _)
    have h2 := (hg a).stable (m := max n m) (fun h => by cases hm.symm.trans h)
      (Nat.le_max_right _ _)
    exact h (max n m) e (run_bind_eq_error.mpr (.inr ⟨a, h1.trans hn, h2.trans hm⟩))
  · rintro ⟨h1, h2⟩ n e hn
    rcases run_bind_eq_error.mp hn with hn | ⟨a, ha, hn⟩
    · exact h1 n e hn
    · exact h2 a ⟨n, ha⟩ n e hn

theorem quiet_lift (f : Nat → Run α) : Quiet fun n => (liftM (f n) : ExceptT ε Run α) := by
  intro n e hn
  obtain ⟨_, -, h⟩ := Run.bind_eq_ret.mp hn
  cases h

theorem yields_lift {f : Nat → Run α} {a : α} :
    Yields (fun n => (liftM (f n) : ExceptT ε Run α)) a ↔ Returns f a := by
  refine exists_congr fun n => ?_
  refine Run.bind_eq_ret.trans ?_
  simp

/-- Code that makes no check, and what follows it. -/
theorem quiet_lift_bind {f : Nat → Run α} {g : Nat → α → ExceptT ε Run β} (hf : Fueled f)
    (hg : ∀ a, Fueled fun n => (g n a).run) :
    Quiet (fun n => (liftM (f n) : ExceptT ε Run α) >>= g n) ↔
      ∀ a, Returns f a → Quiet fun n => g n a := by
  rw [quiet_bind (fueled_lift hf) hg]
  simp only [quiet_lift, true_and, yields_lift]

theorem quiet_const {x : ExceptT ε Run α} : Quiet (fun _ => x) ↔ ∀ e, x.run ≠ .ret (.error e) :=
  ⟨fun h => h 0, fun h _ => h⟩

theorem quiet_pure_bind {a : α} {g : Nat → α → ExceptT ε Run β} :
    Quiet (fun n => (pure a : ExceptT ε Run α) >>= g n) ↔ Quiet fun n => g n a := Iff.rfl

theorem not_quiet_throw_bind {e : ε} {g : Nat → α → ExceptT ε Run β} :
    ¬ Quiet fun n => (throw e : ExceptT ε Run α) >>= g n := fun h => h 0 e rfl

theorem quiet_map {f : Nat → ExceptT ε Run α} {g : α → β} :
    Quiet (fun n => f n >>= fun a => (pure (g a) : ExceptT ε Run β)) ↔ Quiet f := by
  refine forall_congr' fun n => forall_congr' fun e => not_congr ?_
  rw [run_bind_eq_error]
  refine or_iff_left ?_
  rintro ⟨a, -, h⟩
  cases h

/-! ## With and without the checks -/

theorem follows_lift (x : Run α) : Follows (liftM x : ExceptT ε Run α) x := by
  cases x with
  | ret a => exact .ret a
  | fault => exact .fault
  | more => exact .more

theorem Follows.bind {x : ExceptT ε Run α} {y : Run α} {f : α → ExceptT ε Run β} {g : α → Run β}
    (h : Follows x y) (hf : ∀ a, Follows (f a) (g a)) : Follows (x >>= f) (y >>= g) := by
  cases h with
  | ret a => exact hf a
  | error e => exact .error e _
  | fault => exact .fault
  | more => exact .more

/-- A check. -/
theorem Follows.check {x : ExceptT ε Run α} {a : α} {f : α → ExceptT ε Run β} {y : Run β}
    (h : Follows x (.ret a)) (hf : Follows (f a) y) : Follows (x >>= f) y := by
  cases h with
  | ret => exact hf
  | error e => exact .error e _

theorem Follows.eq_iff {x : ExceptT ε Run α} {y : Run α} {a : α} (h : Follows x y)
    (hq : ∀ e, x.run ≠ .ret (.error e)) : x.run = .ret (.ok a) ↔ y = .ret a := by
  cases h with
  | ret b =>
    show Run.ret (Except.ok b) = .ret (.ok a) ↔ _
    simp
  | error e => exact absurd rfl (hq e)
  | fault => exact iff_of_false (fun h => nomatch h) (fun h => nomatch h)
  | more => exact iff_of_false (fun h => nomatch h) (fun h => nomatch h)

theorem Follows.yields_iff {f : Nat → ExceptT ε Run α} {g : Nat → Run α}
    (h : ∀ n, Follows (f n) (g n)) (hq : Quiet f) {a : α} : Yields f a ↔ Returns g a :=
  exists_congr fun n => (h n).eq_iff (hq n)

/-- A loop is quiet exactly when its body is in each iteration to which the loop without checks
comes. -/
theorem quiet_loop {loop : Nat → Nat → ExceptT ε Run α} {body : Nat → Nat → α → ExceptT ε Run α}
    {plain : Nat → Nat → Run α} {s₀ : α} {k : Nat} (hloop : ∀ k, Fueled fun n => (loop n k).run)
    (hbody : ∀ i s, Fueled fun n => (body n i s).run) (hzero : ∀ n, loop n 0 = pure s₀)
    (hsucc : ∀ n k, loop n (k + 1) = loop n k >>= body n k)
    (hplain : ∀ k n, Follows (loop n k) (plain n k)) :
    Quiet (fun n => loop n k) ↔
      ∀ i < k, ∀ s, Returns (fun n => plain n i) s → Quiet fun n => body n i s := by
  induction k with
  | zero =>
    simp only [hzero, quiet_const]
    exact iff_of_true (fun e h => nomatch h) fun i hi => absurd hi (Nat.not_lt_zero i)
  | succ k ih =>
    simp only [hsucc]
    rw [quiet_bind (hloop k) (hbody k)]
    constructor
    · rintro ⟨hbefore, hlast⟩ i hi s hs
      rcases Nat.lt_succ_iff_lt_or_eq.mp hi with h | rfl
      · exact ih.mp hbefore i h s hs
      · exact hlast s ((Follows.yields_iff (hplain i) hbefore).mpr hs)
    · intro h
      have hbefore := ih.mpr fun i hi => h i (Nat.lt_succ_of_lt hi)
      refine ⟨hbefore, fun s hs => h k (Nat.lt_succ_self k) s ?_⟩
      exact (Follows.yields_iff (hplain k) hbefore).mp hs

end Monitor

end LinuxBase
