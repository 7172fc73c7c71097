import LinuxBase.Lib.Run

/-!
# Runs of a system under a list of events

A system is a function `step : Ev → St → Run St`. `exec step es s` applies the events `es` in
order and stops at the first that does not return.

* `Along P s es`: each event of the run satisfies `P` in the state in which it happens. A
  precondition of the events (the allocator returns dead blocks, a client gives back what it
  holds) is such a `P`, and so is a condition under which the steps do what they should.
* `exec_invariant`, `visits_invariant`, `exec_progress`, `exec_simulates`: an invariant, progress and
  a simulation, from one step to the whole run.
* `exec_rel`: two machines whose steps do the same have runs that do the same.
* `exec_ne_fault_iff`, `visits_iff`: a condition that is exact for one step is exact for the run.
* `along_iff`: two conditions that agree in the states of an invariant agree along a run.
* `exec_good_iff`: the same, where a step without the condition may also fault.
* `exec_sublist`: what a state keeps of the values that the events brought is in their order.
* `exec_or`: a run keeps its invariant, or a step without the condition has broken it for good.
* `exec_stores`: if each step stores at one place, the last event at a place says what is there.
* `Leads P s s'`: some run under `P` leads from `s` to `s'`; `Leads.trans` and `Leads.next` put such
  runs together.
* `gather`: what the steps of a run put out, in their order; `exec_gather` is the invariant of a state and
  of what was put out before it, `exec_conserves` the balance of a system that is a queue.
* `AlongGather`: each event satisfies a condition on what was put out before it; `alongGather_iff` turns
  it into a condition on the states.
-/

namespace LinuxBase

section Trace

variable {St Ev A : Type} {step : Ev → St → Run St}

/-- The run of the events `es` from `s`. -/
def exec (step : Ev → St → Run St) : List Ev → St → Run St
  | [], s => .ret s
  | e :: es, s => step e s >>= exec step es

/-- `P` holds of each event of the run from `s`, in the state in which it happens. -/
def Along (step : Ev → St → Run St) (P : St → Ev → Prop) : St → List Ev → Prop
  | _, [] => True
  | s, e :: es => P s e ∧
    match step e s with
    | .ret s' => Along step P s' es
    | _ => True

/-- The run of `es` from `s` passes through `s'`. -/
def Visits (step : Ev → St → Run St) (s : St) (es : List Ev) (s' : St) : Prop :=
  ∃ n, exec step (es.take n) s = .ret s'

/-- A run passes through its end. -/
theorem visits_end {s s' : St} {es : List Ev} (h : exec step es s = .ret s') :
    Visits step s es s' :=
  ⟨es.length, by rwa [List.take_length]⟩

instance Along.decidable {P : St → Ev → Prop} [∀ s e, Decidable (P s e)] :
    ∀ s es, Decidable (Along step P s es)
  | _, [] => .isTrue trivial
  | s, e :: es =>
    match h : step e s with
    | .ret s' =>
      have := Along.decidable (P := P) s' es
      decidable_of_iff (P s e ∧ Along step P s' es) (by simp only [Along, h])
    | .fault => decidable_of_iff (P s e) (by simp only [Along, h, and_true])
    | .more => decidable_of_iff (P s e) (by simp only [Along, h, and_true])

@[simp] theorem exec_nil (s : St) : exec step [] s = .ret s := rfl

theorem exec_cons (e : Ev) (es : List Ev) (s : St) :
    exec step (e :: es) s = step e s >>= exec step es := rfl

theorem exec_append (es fs : List Ev) (s : St) :
    exec step (es ++ fs) s = exec step es s >>= exec step fs := by
  induction es generalizing s with
  | nil => rfl
  | cons e es ih =>
    rw [List.cons_append, exec_cons, exec_cons, bind_assoc]
    exact congrArg (step e s >>= ·) (funext ih)

@[simp] theorem along_nil {P : St → Ev → Prop} (s : St) : Along step P s [] := trivial

theorem along_cons {P : St → Ev → Prop} {s : St} {e : Ev} {es : List Ev} :
    Along step P s (e :: es) ↔ P s e ∧ ∀ s', step e s = .ret s' → Along step P s' es := by
  simp only [Along]
  cases step e s <;> simp

theorem along_append {P : St → Ev → Prop} {s : St} {es fs : List Ev} :
    Along step P s (es ++ fs) ↔
      Along step P s es ∧ ∀ s', exec step es s = .ret s' → Along step P s' fs := by
  induction es generalizing s with
  | nil => simp
  | cons e es ih =>
    rw [List.cons_append, along_cons, along_cons, and_assoc, exec_cons]
    refine and_congr_right fun _ => ?_
    cases step e s with
    | ret s' => simpa using ih
    | fault => simp
    | more => simp

theorem Along.imp {P Q : St → Ev → Prop} {s : St} {es : List Ev} (hp : Along step P s es)
    (h : ∀ s e, P s e → Q s e) : Along step Q s es := by
  induction es generalizing s with
  | nil => trivial
  | cons e es ih =>
    obtain ⟨hpe, hps⟩ := along_cons.mp hp
    exact along_cons.mpr ⟨h s e hpe, fun s' hs' => ih (hps s' hs')⟩

theorem Along.and {P Q : St → Ev → Prop} {s : St} {es : List Ev} (hp : Along step P s es)
    (hq : Along step Q s es) : Along step (fun s e => P s e ∧ Q s e) s es := by
  induction es generalizing s with
  | nil => trivial
  | cons e es ih =>
    obtain ⟨hpe, hps⟩ := along_cons.mp hp
    obtain ⟨hqe, hqs⟩ := along_cons.mp hq
    exact along_cons.mpr ⟨⟨hpe, hqe⟩, fun s' hs' => ih (hps s' hs') (hqs s' hs')⟩

/-- A precondition of the events alone. -/
theorem along_of_mem {Q : Ev → Prop} {s : St} {es : List Ev} (hq : ∀ e ∈ es, Q e) :
    Along step (fun _ => Q) s es := by
  induction es generalizing s with
  | nil => trivial
  | cons e es ih =>
    obtain ⟨hqe, hqs⟩ := List.forall_mem_cons.mp hq
    exact along_cons.mpr ⟨hqe, fun _ _ => ih hqs⟩

/-- Two conditions that are the same in the states of an invariant are the same along a run. -/
theorem along_iff {P C D : St → Ev → Prop} {I : St → Prop}
    (hstep : ∀ s e s', I s → P s e → step e s = .ret s' → I s')
    (hiff : ∀ s e, I s → P s e → (C s e ↔ D s e)) {s : St} {es : List Ev} (hi : I s)
    (hp : Along step P s es) : Along step C s es ↔ Along step D s es := by
  induction es generalizing s with
  | nil => rfl
  | cons e es ih =>
    obtain ⟨hpe, hps⟩ := along_cons.mp hp
    rw [along_cons, along_cons, hiff s e hi hpe]
    refine and_congr_right fun _ => forall_congr' fun s' => ?_
    exact imp_congr_right fun h => ih (hstep s e s' hi hpe h) (hps s' h)

theorem Along.take {P : St → Ev → Prop} {s : St} {es : List Ev} (h : Along step P s es) (n : Nat) :
    Along step P s (es.take n) := by
  induction es generalizing s n with
  | nil => rw [List.take_nil]; trivial
  | cons e es ih =>
    cases n with
    | zero => trivial
    | succ n =>
      obtain ⟨hp, hs⟩ := along_cons.mp h
      exact along_cons.mpr ⟨hp, fun s' hs' => ih (hs s' hs') n⟩

/-- **Invariants.** A property that every step of the run keeps holds at its end. -/
theorem exec_invariant {P : St → Ev → Prop} {I : St → Prop}
    (hstep : ∀ s e s', I s → P s e → step e s = .ret s' → I s') {s s' : St} {es : List Ev}
    (hi : I s) (hp : Along step P s es) (h : exec step es s = .ret s') : I s' := by
  induction es generalizing s with
  | nil => cases h; exact hi
  | cons e es ih =>
    obtain ⟨s₁, h1, h2⟩ := Run.bind_eq_ret.mp h
    obtain ⟨hpe, hps⟩ := along_cons.mp hp
    exact ih (hstep s e s₁ hi hpe h1) (hps s₁ h1) h2

/-- **Histories.** If a step keeps nothing but what the state had and behind it what the event brings,
then the state at the end has some of what the events of the run brought, in their order. -/
theorem exec_sublist {β : Type} {f : St → List β} {g : Ev → List β}
    (hstep : ∀ s e s', step e s = .ret s' → (f s').Sublist (f s ++ g e)) {s s' : St} {es : List Ev}
    (h : exec step es s = .ret s') : (f s').Sublist (f s ++ es.flatMap g) := by
  induction es generalizing s with
  | nil => cases h; simp
  | cons e es ih =>
    obtain ⟨s₁, h1, h2⟩ := Run.bind_eq_ret.mp h
    have hs := (hstep s e s₁ h1).append_right (es.flatMap g)
    rw [List.append_assoc] at hs
    exact (ih h2).trans hs

/-- **Simulation.** The run returns and its state follows the abstract steps `astep`. The relation
may count the events that are still to come, so that a bound on them can pay for the fuel. -/
theorem exec_simulates {P : St → Ev → Prop} {R : Nat → St → A → Prop} {astep : Ev → A → A}
    (hstep : ∀ n s a e, R (n + 1) s a → P s e → ∃ s', step e s = .ret s' ∧ R n s' (astep e a))
    {s : St} {a : A} {es : List Ev} (hr : R es.length s a) (hp : Along step P s es) :
    ∃ s', exec step es s = .ret s' ∧ R 0 s' (es.foldl (fun a e => astep e a) a) := by
  induction es generalizing s a with
  | nil => exact ⟨s, rfl, hr⟩
  | cons e es ih =>
    obtain ⟨hpe, hps⟩ := along_cons.mp hp
    obtain ⟨s₁, h1, hr₁⟩ := hstep es.length s a e hr hpe
    obtain ⟨s', h', hr'⟩ := ih hr₁ (hps s₁ h1)
    exact ⟨s', by rw [exec_cons, h1]; exact h', hr'⟩

/-- **Two machines.** If the steps of two machines for one event do the same, up to `R` on their states,
so do their runs. -/
theorem exec_rel {P : St → Ev → Prop} {R : St → A → Prop} {astep : Ev → A → Run A}
    (hstep : ∀ s a e, R s a → P s e → Run.Rel R (step e s) (astep e a)) {s : St} {a : A}
    {es : List Ev} (hr : R s a) (hp : Along step P s es) :
    Run.Rel R (exec step es s) (exec astep es a) := by
  induction es generalizing s a with
  | nil => exact .ret hr
  | cons e es ih =>
    obtain ⟨hpe, hps⟩ := along_cons.mp hp
    have he := hstep s a e hr hpe
    rw [exec_cons, exec_cons]
    cases hs : step e s <;> cases ha : astep e a <;> rw [hs, ha] at he <;> cases he
    · rename_i s₁ a₁ hr₁
      exact ih hr₁ (hps s₁ hs)
    · exact .fault
    · exact .more

/-- **Progress.** If every step returns and keeps the invariant, the run returns. -/
theorem exec_progress {P : St → Ev → Prop} {I : St → Prop}
    (hstep : ∀ s e, I s → P s e → ∃ s', step e s = .ret s' ∧ I s') {s : St} {es : List Ev}
    (hi : I s) (hp : Along step P s es) : ∃ s', exec step es s = .ret s' ∧ I s' := by
  induction es generalizing s with
  | nil => exact ⟨s, rfl, hi⟩
  | cons e es ih =>
    obtain ⟨hpe, hps⟩ := along_cons.mp hp
    obtain ⟨s₁, h1, hi₁⟩ := hstep s e hi hpe
    rw [exec_cons, h1]
    exact ih hi₁ (hps s₁ h1)

/-- **Exact conditions, faults.** If a step from an invariant state does not fault exactly when
`C` holds, then a run does not fault exactly when all its steps satisfy `C`. -/
theorem exec_ne_fault_iff {P C : St → Ev → Prop} {I : St → Prop}
    (hstep : ∀ s e s', I s → P s e → step e s = .ret s' → I s')
    (hC : ∀ s e, I s → P s e → (step e s ≠ .fault ↔ C s e)) {s : St} {es : List Ev} (hi : I s)
    (hp : Along step P s es) : exec step es s ≠ .fault ↔ Along step C s es := by
  induction es generalizing s with
  | nil => simp
  | cons e es ih =>
    obtain ⟨hpe, hps⟩ := along_cons.mp hp
    have hCe := hC s e hi hpe
    rw [along_cons, exec_cons]
    cases h : step e s with
    | ret s₁ =>
      have hI := ih (hstep s e s₁ hi hpe h) (hps s₁ h)
      simp only [h, ne_eq, reduceCtorEq, not_false_eq_true, true_iff] at hCe
      simpa [hCe] using hI
    | fault => simp only [h, ne_eq, not_true_eq_false, false_iff] at hCe; simp [hCe]
    | more =>
      simp only [h, ne_eq, reduceCtorEq, not_false_eq_true, true_iff] at hCe
      simp [hCe]

/-- An invariant holds of all states of a run. -/
theorem visits_invariant {P : St → Ev → Prop} {I : St → Prop}
    (hstep : ∀ s e s', I s → P s e → step e s = .ret s' → I s') {s s' : St} {es : List Ev}
    (hi : I s) (hp : Along step P s es) (h : Visits step s es s') : I s' := by
  obtain ⟨n, hn⟩ := h
  exact exec_invariant hstep hi (hp.take n) hn

/-- **Exact conditions, states.** If the steps under `C` keep the invariant `I`, which makes a state
good, and a step without `C` returns a state that is not good, then all states of a run are good
exactly when all its steps satisfy `C`. -/
theorem visits_iff {P C : St → Ev → Prop} {I Good : St → Prop} (hgood : ∀ s, I s → Good s)
    (hstep : ∀ s e s', I s → P s e → C s e → step e s = .ret s' → I s')
    (hbad : ∀ s e, I s → P s e → ¬ C s e → ∃ s', step e s = .ret s' ∧ ¬ Good s') {s : St}
    {es : List Ev} (hi : I s) (hp : Along step P s es) :
    (∀ s', Visits step s es s' → Good s') ↔ Along step C s es := by
  refine ⟨fun hv => ?_, fun hc s' hs' => hgood s' ?_⟩
  · induction es generalizing s with
    | nil => trivial
    | cons e es ih =>
      obtain ⟨hpe, hps⟩ := along_cons.mp hp
      have hce : C s e := by
        refine Classical.byContradiction fun hne => ?_
        obtain ⟨s₁, h1, hb⟩ := hbad s e hi hpe hne
        exact hb (hv s₁ ⟨1, by simp [exec_cons, h1]⟩)
      refine along_cons.mpr ⟨hce, fun s₁ h1 => ih (hstep s e s₁ hi hpe hce h1) (hps s₁ h1) ?_⟩
      rintro s' ⟨n, hn⟩
      exact hv s' ⟨n + 1, by rw [List.take_succ_cons, exec_cons, h1]; exact hn⟩
  · exact visits_invariant (fun s e s' hi ⟨hpe, hce⟩ h => hstep s e s' hi hpe hce h) hi
      (hp.and hc) hs'

/-- **Exact conditions, states and faults.** If the steps under `C` return and keep the invariant `I`,
which makes a state good, and a step without `C` does not return a good state, then a run returns
through good states exactly when all its steps satisfy `C`. -/
theorem exec_good_iff {P C : St → Ev → Prop} {I Good : St → Prop} (hgood : ∀ s, I s → Good s)
    (hstep : ∀ s e, I s → P s e → C s e → ∃ s', step e s = .ret s' ∧ I s')
    (hbad : ∀ s e, I s → P s e → ¬ C s e → ∀ s', step e s = .ret s' → ¬ Good s') {s : St}
    {es : List Ev} (hi : I s) (hp : Along step P s es) :
    ((∃ s', exec step es s = .ret s') ∧ ∀ s', Visits step s es s' → Good s') ↔ Along step C s es := by
  constructor
  · rintro ⟨hret, hv⟩
    induction es generalizing s with
    | nil => trivial
    | cons e es ih =>
      obtain ⟨hpe, hps⟩ := along_cons.mp hp
      obtain ⟨s₂, h2⟩ := hret
      obtain ⟨s₁, h1, hrest⟩ := Run.bind_eq_ret.mp h2
      have hg : Good s₁ := hv s₁ ⟨1, by simp [exec_cons, h1]⟩
      have hce : C s e := Classical.byContradiction fun hne => hbad s e hi hpe hne s₁ h1 hg
      obtain ⟨s₁', h1', hi₁⟩ := hstep s e hi hpe hce
      rw [h1] at h1'
      cases h1'
      refine along_cons.mpr ⟨hce, fun s' hs' => ?_⟩
      rw [h1] at hs'
      cases hs'
      refine ih hi₁ (hps s₁ h1) ⟨s₂, hrest⟩ ?_
      rintro s' ⟨n, hn⟩
      exact hv s' ⟨n + 1, by rw [List.take_succ_cons, exec_cons, h1]; exact hn⟩
  · intro hc
    have hpc := hp.and hc
    refine ⟨?_, fun s' hs' => hgood s' ?_⟩
    · obtain ⟨s', hs', -⟩ := exec_progress (fun s e hi ⟨hpe, hce⟩ => hstep s e hi hpe hce) hi hpc
      exact ⟨s', hs'⟩
    · refine visits_invariant (fun s e s' hi ⟨hpe, hce⟩ h => ?_) hi hpc hs'
      obtain ⟨s₁, h1, hi₁⟩ := hstep s e hi hpe hce
      rw [h] at h1
      cases h1
      exact hi₁

/-- **Damage that stays.** If the steps under `C` keep `I`, a step without `C` leads from `I` to `B`,
and all steps keep `B`, then a run from `I` ends in `I` or in `B`, as all its steps satisfy `C` or
not. -/
theorem exec_or {C : St → Ev → Prop} {I B : St → Prop}
    (hI : ∀ s e s', I s → C s e → step e s = .ret s' → I s')
    (hIB : ∀ s e s', I s → ¬ C s e → step e s = .ret s' → B s')
    (hB : ∀ s e s', B s → step e s = .ret s' → B s') {s s' : St} {es : List Ev} (hi : I s)
    (h : exec step es s = .ret s') :
    I s' ∧ Along step C s es ∨ B s' ∧ ¬ Along step C s es := by
  induction es generalizing s with
  | nil => cases h; exact .inl ⟨hi, trivial⟩
  | cons e es ih =>
    obtain ⟨s₁, h1, h2⟩ := Run.bind_eq_ret.mp h
    by_cases hc : C s e
    · refine (ih (hI s e s₁ hi hc h1) h2).imp (fun ⟨hi', hs⟩ => ⟨hi', ?_⟩) fun ⟨hb, hs⟩ => ⟨hb, ?_⟩
      · exact along_cons.mpr ⟨hc, fun s₂ hs₂ => by cases h1.symm.trans hs₂; exact hs⟩
      · exact fun ha => hs ((along_cons.mp ha).2 s₁ h1)
    · have hb := exec_invariant (P := fun _ _ => True) (fun s e s' hb _ => hB s e s' hb)
        (hIB s e s₁ hi hc h1) (along_of_mem fun _ _ => trivial) h2
      exact .inr ⟨hb, fun ha => hc (along_cons.mp ha).1⟩

/-- Some run under `P` leads from `s` to `s'`. -/
def Leads (step : Ev → St → Run St) (P : St → Ev → Prop) (s s' : St) : Prop :=
  ∃ es, Along step P s es ∧ exec step es s = .ret s'

theorem Leads.refl (P : St → Ev → Prop) (s : St) : Leads step P s s := ⟨[], trivial, rfl⟩

theorem Leads.trans {P : St → Ev → Prop} {s s₁ s' : St} (h : Leads step P s s₁)
    (h' : Leads step P s₁ s') : Leads step P s s' := by
  obtain ⟨es, hp, hes⟩ := h
  obtain ⟨fs, hp', hfs⟩ := h'
  refine ⟨es ++ fs, along_append.mpr ⟨hp, fun s₂ hs₂ => ?_⟩, ?_⟩
  · rw [hes] at hs₂
    cases hs₂
    exact hp'
  · rw [exec_append, hes]
    exact hfs

theorem Leads.next {P : St → Ev → Prop} {s s₁ s' : St} {e : Ev} (h : Leads step P s s₁)
    (he : P s₁ e) (hr : step e s₁ = .ret s') : Leads step P s s' :=
  h.trans ⟨[e], along_cons.mpr ⟨he, fun _ _ => trivial⟩, by rw [exec_cons, hr]; rfl⟩

/-- A step that faults, at the end of a run. -/
theorem Leads.fault {P : St → Ev → Prop} {s s₁ : St} {e : Ev} (h : Leads step P s s₁)
    (he : P s₁ e) (hr : step e s₁ = .fault) :
    ∃ es, Along step P s es ∧ exec step es s = .fault := by
  obtain ⟨es, hp, hes⟩ := h
  refine ⟨es ++ [e], along_append.mpr ⟨hp, fun s₂ hs₂ => ?_⟩, ?_⟩
  · rw [hes] at hs₂
    cases hs₂
    exact along_cons.mpr ⟨he, fun _ _ => trivial⟩
  · rw [exec_append, hes, Run.ret_bind, exec_cons, hr]
    rfl

/-- What the steps of the run of `es` from `s` put out. -/
def gather {β : Type} (step : Ev → St → Run St) (g : Ev → St → List β) : List Ev → St → List β
  | [], _ => []
  | e :: es, s => g e s ++
    match step e s with
    | .ret s' => gather step g es s'
    | _ => []

theorem gather_cons {β : Type} {g : Ev → St → List β} {e : Ev} {es : List Ev} {s s' : St}
    (h : step e s = .ret s') : gather step g (e :: es) s = g e s ++ gather step g es s' := by
  rw [gather, h]

/-- **Records.** If each step keeps `I` of its state and of all that was put out so far, so does a
run. -/
theorem exec_gather {β : Type} {P : St → Ev → Prop} {g : Ev → St → List β}
    {I : List β → St → Prop}
    (hstep : ∀ k s e s', I k s → P s e → step e s = .ret s' → I (k ++ g e s) s')
    {k : List β} {s s' : St} {es : List Ev} (hi : I k s) (hp : Along step P s es)
    (h : exec step es s = .ret s') : I (k ++ gather step g es s) s' := by
  induction es generalizing k s with
  | nil =>
    cases h
    rwa [gather, List.append_nil]
  | cons e es ih =>
    obtain ⟨s₁, h1, h2⟩ := Run.bind_eq_ret.mp h
    obtain ⟨hpe, hps⟩ := along_cons.mp hp
    rw [gather_cons h1, ← List.append_assoc]
    exact ih (hstep k s e s₁ hi hpe h1) (hps s₁ h1) h2

/-- `C` holds of each event of the run from `s`, in the state in which it happens and behind all that was
put out before it, which is `out` at the start. -/
def AlongGather {β : Type} (step : Ev → St → Run St) (g : Ev → St → List β)
    (C : List β → St → Ev → Prop) : List β → St → List Ev → Prop
  | _, _, [] => True
  | out, s, e :: es => C out s e ∧
    match step e s with
    | .ret s' => AlongGather step g C (out ++ g e s) s' es
    | _ => True

theorem alongGather_cons {β : Type} {g : Ev → St → List β} {C : List β → St → Ev → Prop}
    {out : List β} {s : St} {e : Ev} {es : List Ev} : AlongGather step g C out s (e :: es) ↔
      C out s e ∧ ∀ s', step e s = .ret s' → AlongGather step g C (out ++ g e s) s' es := by
  simp only [AlongGather]
  cases step e s <;> simp

/-- **Histories and states.** A condition on what was put out, and one on the state, are the same along a
run if they are so wherever the state has what `R` says of it. -/
theorem alongGather_iff {β : Type} {g : Ev → St → List β} {P D : St → Ev → Prop}
    {C : List β → St → Ev → Prop} {R : List β → St → Prop}
    (hstep : ∀ out s e s', R out s → P s e → step e s = .ret s' → R (out ++ g e s) s')
    (hiff : ∀ out s e, R out s → (C out s e ↔ D s e)) {out : List β} {s : St} {es : List Ev}
    (hr : R out s) (hp : Along step P s es) : AlongGather step g C out s es ↔ Along step D s es := by
  induction es generalizing out s with
  | nil => rfl
  | cons e es ih =>
    obtain ⟨hpe, hps⟩ := along_cons.mp hp
    rw [alongGather_cons, along_cons, hiff out s e hr]
    refine and_congr_right fun _ => forall_congr' fun s' => ?_
    exact imp_congr_right fun h => ih (hstep out s e s' hr hpe h) (hps s' h)

/-- **Queues.** If each step takes its output from the front of `f s` and adds its input at the back,
then what the run has put out, with what is left, is what there was and what the run took in. -/
theorem exec_conserves {β : Type} {P : St → Ev → Prop} {I : St → Prop} {f : St → List β}
    {inp out : Ev → St → List β}
    (hI : ∀ s e s', I s → P s e → step e s = .ret s' → I s')
    (hstep : ∀ s e s', I s → P s e → step e s = .ret s' → f s ++ inp e s = out e s ++ f s')
    {s s' : St} {es : List Ev} (hi : I s) (hp : Along step P s es) (h : exec step es s = .ret s') :
    f s ++ gather step inp es s = gather step out es s ++ f s' := by
  induction es generalizing s with
  | nil => cases h; simp [gather]
  | cons e es ih =>
    obtain ⟨s₁, h1, h2⟩ := Run.bind_eq_ret.mp h
    obtain ⟨hpe, hps⟩ := along_cons.mp hp
    rw [gather_cons h1, gather_cons h1, ← List.append_assoc, hstep s e s₁ hi hpe h1,
      List.append_assoc, ih (hI s e s₁ hi hpe h1) (hps s₁ h1) h2, List.append_assoc]

end Trace

section Stores

variable {St Ev K V : Type} [DecidableEq K] {step : Ev → St → Run St}

/-- The last event of `es` at the place `y`. -/
def lastAt (key : Ev → K) (y : K) (es : List Ev) : Option Ev :=
  (es.filter fun e => decide (key e = y)).getLast?

theorem lastAt_cons (key : Ev → K) (y : K) (e : Ev) (es : List Ev) :
    lastAt key y (e :: es) = (lastAt key y es).or (if key e = y then some e else none) := by
  unfold lastAt
  rw [List.filter_cons]
  by_cases h : key e = y
  · rw [if_pos (decide_eq_true h), if_pos h, List.getLast?_cons]
    cases (es.filter fun e => decide (key e = y)).getLast? <;> rfl
  · rw [if_neg (by rwa [decide_eq_true_iff]), if_neg h, Option.or_none]

/-- **Stores.** If each step returns and stores one value, at the place of its event, then a run leaves
at each place what the last event there stored, or what the state had. -/
theorem exec_stores {P : St → Ev → Prop} {view : St → K → V} {key : Ev → K} {val : Ev → V}
    (hstep : ∀ s e, P s e →
      ∃ s', step e s = .ret s' ∧ ∀ y, view s' y = if y = key e then val e else view s y)
    {s : St} {es : List Ev} (hp : Along step P s es) :
    ∃ s', exec step es s = .ret s' ∧ ∀ y, view s' y = (lastAt key y es).elim (view s y) val := by
  induction es generalizing s with
  | nil => exact ⟨s, rfl, fun _ => rfl⟩
  | cons e es ih =>
    obtain ⟨hpe, hps⟩ := along_cons.mp hp
    obtain ⟨s₁, h1, hv₁⟩ := hstep s e hpe
    obtain ⟨s', h', hv'⟩ := ih (hps s₁ h1)
    refine ⟨s', by rw [exec_cons, h1]; exact h', fun y => ?_⟩
    rw [hv', hv₁, lastAt_cons]
    cases lastAt key y es with
    | some e' => rfl
    | none =>
      -- No later event stores at `y`.
      by_cases hy : y = key e
      · rw [if_pos hy, if_pos hy.symm]
        rfl
      · rw [if_neg hy, if_neg (Ne.symm hy)]
        rfl

end Stores

end LinuxBase
