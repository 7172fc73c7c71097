import LinuxBase.ThreadPool.Tasks

/-!
# Tasks and the shutdown

A pushed task is kept if it is in the list, with a worker, called or freed (`State.Kept`). Workers
keep every task, and so does a push, also one after a shutdown. `destroyThreadPool` does not: its
`task = NULL` drops the list without a `free`. So all pushed tasks are kept exactly as long as each
`task = NULL` finds an empty list (`kept_iff`).
-/

namespace LinuxBase
namespace ThreadPool

open DList

variable {ω α τ : Type}

/-- The task `t` is in the list. -/
def State.Queued (s : State ω α τ) (t : τ) : Prop := ∃ l, IsList s.mem s.task l ∧ ∃ x ∈ l, x.2 = t

/-- The task `t` is with a worker. -/
def State.Held (s : State ω α τ) (t : τ) : Prop :=
  ∃ w a, (s.place w = .call a ∨ s.place w = .free a) ∧ s.job a = some t

/-- The task `t` is in the list or with a worker, or it was called or freed. -/
def State.Reached (s : State ω α τ) (t : τ) : Prop :=
  s.Queued t ∨ s.Held t ∨ (∃ w, .call w t ∈ s.log) ∨ ∃ w, .free w t ∈ s.log

/-- No pushed task is lost. -/
def State.Kept (s : State ω α τ) : Prop := ∀ t, .push t ∈ s.log → s.Reached t

/-- A `task = NULL` finds an empty list. -/
def ClearsEmpty (s : State ω α τ) : Event ω α τ → Prop
  | .destroy d => s.destroy d = .broadcasted → s.task = none
  | _ => True

instance [DecidableEq α] (s : State ω α τ) : DecidablePred (ClearsEmpty s)
  | .destroy d => inferInstanceAs (Decidable (s.destroy d = .broadcasted → s.task = none))
  | .push .. | .worker _ | .wakeUp _ => .isTrue trivial

variable {s s' : State ω α τ}

theorem kept_created (worker : List ω) : (created worker : State ω α τ).Kept := by
  intro t ht
  cases ht

/-- A step that leaves the tasks with those who have them. -/
theorem State.Kept.frame (h : s.Kept) (hmem : s'.mem = s.mem) (htask : s'.task = s.task)
    (hlog : s'.log = s.log) (hcall : ∀ w a, s.place w = .call a → s'.place w = .call a)
    (hfree : ∀ w a, s.place w = .free a → s'.place w = .free a) : s'.Kept := by
  intro t ht
  rw [hlog] at ht
  rcases h t ht with ⟨l, hl, hx⟩ | ⟨w, a, hp, ha⟩ | hdone
  · exact .inl ⟨l, by rw [hmem, htask]; exact hl, hx⟩
  · refine .inr (.inl ⟨w, a, hp.imp (hcall w a) (hfree w a), ?_⟩)
    rw [State.job, hmem]
    exact ha
  · exact .inr (.inr (by rw [hlog]; exact hdone))

/-- A step that does `x` to a task and loses none of the list and of the workers. -/
theorem State.Kept.act {x : Action ω τ} (h : s.Kept) (hlog : s'.log = x :: s.log)
    (hpush : ∀ t, x = .push t → s'.Reached t) (hqueued : ∀ t, s.Queued t → s'.Reached t)
    (hheld : ∀ t, s.Held t → s'.Reached t) : s'.Kept := by
  intro t ht
  rw [hlog] at ht
  rcases List.mem_cons.mp ht with e | ht
  · exact hpush t e.symm
  rcases h t ht with hq | hh | ⟨w, hw⟩ | ⟨w, hw⟩
  · exact hqueued t hq
  · exact hheld t hh
  · exact .inr (.inr (.inl ⟨w, by rw [hlog]; exact List.mem_cons_of_mem _ hw⟩))
  · exact .inr (.inr (.inr ⟨w, by rw [hlog]; exact List.mem_cons_of_mem _ hw⟩))

section Steps

/-- A worker that runs its callback leaves the other tasks alone. -/
theorem State.Kept.call [DecidableEq ω] {w : ω} {a : α} {c : Cell α τ} (h : s.Kept)
    (hp : s.place w = .call a) (hc : s.mem a = some c) :
    ({ s with log := .call w c.val :: s.log }.move w (.free a)).Kept := by
  refine h.act rfl (fun t e => by cases e) (fun t hq => .inl hq) ?_
  rintro t ⟨v, b, hv, hb⟩
  by_cases hvw : v = w
  · subst hvw
    obtain rfl : a = b := by simpa [hp] using hv
    obtain rfl : c.val = t := by simpa [State.job, hc] using hb
    exact .inr (.inr (.inl ⟨v, List.mem_cons_self⟩))
  · exact .inr (.inl ⟨v, b, by simpa [hvw] using hv, hb⟩)

variable [DecidableEq α] [DecidableEq τ]

/-- A push keeps the old tasks and puts the new one into the list. -/
theorem State.Kept.push {item : α} {u : τ} {ws : ω → Bool} {m : Mem α τ} (h : s.Kept)
    (hi : Inv s) (hfree : s.mem item = none)
    (hm : insertList (Function.update s.mem item (some ⟨none, none, u⟩)) item s.task =
      .ret (m, some item)) :
    ({ s with mem := m, task := some item, log := .push u :: s.log }.wake ws).Kept := by
  obtain ⟨l, hl, -⟩ := hi.list
  obtain ⟨m', hm', hl', hjob⟩ := insertTask_spec hl hfree u
  rw [hm'] at hm
  cases hm
  refine h.act rfl ?_ ?_ ?_
  · rintro t e
    cases e
    exact .inl ⟨_, hl', (item, u), List.mem_cons_self, rfl⟩
  · rintro t ⟨l₀, hl₀, x, hx, hxt⟩
    obtain rfl := hl.unique hl₀
    exact .inl ⟨_, hl', x, List.mem_cons_of_mem _ hx, hxt⟩
  · rintro t ⟨w, a, hp, ha⟩
    have hne : a ≠ item := by
      rintro rfl
      rw [State.job, hfree] at ha
      cases ha
    exact .inr (.inl ⟨w, a, by grind, (hjob a).trans ((if_neg hne).trans ha)⟩)

variable [DecidableEq ω]

/-- A worker that takes the first task has it. -/
theorem State.Kept.take {w : ω} {a : α} {c : Cell α τ} {m : Mem α τ} {task : Option α}
    (h : s.Kept) (hi : Inv s) (hp : s.place w = .take) (ha : s.task = some a)
    (hm : deleteList s.mem a (some a) = .ret (m, task)) :
    ({ s with mem := m, task, log := .take w c.val :: s.log }.unlock.move w (.call a)).Kept := by
  obtain ⟨l, hl, -⟩ := hi.list
  rw [ha] at hl
  rcases l with - | ⟨x, l⟩
  · cases hl.head_eq
  obtain rfl : a = x.1 := Option.some.inj hl.head_eq
  obtain ⟨m', hm', hl', hval⟩ := deleteList_spec hl
  rw [hm'] at hm
  cases hm
  refine h.act rfl (fun t e => by cases e) ?_ ?_
  · rintro _ ⟨l₀, hl₀, y, hy, rfl⟩
    rw [ha] at hl₀
    obtain rfl := hl.unique hl₀
    rcases List.mem_cons.mp hy with rfl | hy
    · exact .inr (.inl ⟨w, y.1, .inl (by simp), (hval y.1).trans (hl.val_eq List.mem_cons_self)⟩)
    · exact .inl ⟨l, hl', y, hy, rfl⟩
  · rintro t ⟨v, b, hv, hb⟩
    have hvw : v ≠ w := by
      rintro rfl
      simp [hp] at hv
    exact .inr (.inl ⟨v, b, by simpa [hvw] using hv, (hval b).trans hb⟩)

/-- A worker that frees its task leaves the other tasks alone. -/
theorem State.Kept.free {w : ω} {a : α} {c : Cell α τ} (h : s.Kept) (hi : Inv s)
    (hp : s.place w = .free a) (hc : s.mem a = some c) :
    ({ s with mem := Function.update s.mem a none, log := .free w c.val :: s.log }.move w
      .lock).Kept := by
  refine h.act rfl (fun t e => by cases e) ?_ ?_
  · rintro t ⟨l, hl, hx⟩
    exact .inl ⟨l, hl.congr fun x hx => Function.update_of_ne (hi.ne_of_free hp hl x hx) _ _, hx⟩
  · rintro t ⟨v, b, hv, hb⟩
    by_cases hba : b = a
    · subst hba
      obtain rfl : c.val = t := by simpa [State.job, hc] using hb
      exact .inr (.inr (.inr ⟨w, List.mem_cons_self⟩))
    · have hvw : v ≠ w := by
        rintro rfl
        simp [hp, Ne.symm hba] at hv
      refine .inr (.inl ⟨v, b, by simpa [hvw] using hv, ?_⟩)
      show (Function.update s.mem a none b).map Cell.val = some t
      rw [Function.update_of_ne hba]
      exact hb

/-- Every step but a `task = NULL` with tasks in the list keeps the tasks. -/
theorem State.Kept.step {e : Event ω α τ} (h : s.Kept) (hi : Inv s) (hc : ClearsEmpty s e)
    (hm : Move s e s') : s'.Kept := by
  cases hm with
  | push hmutex hfree hnew hws hwake hm => exact h.push hi hfree hm
  | take hp ha hcell hm => exact h.take hi hp ha hm
  | call hp hcell => exact h.call hp hcell
  | free hp hcell => exact h.free hi hp hcell
  | clearTask hd => exact h.frame rfl (hc hd).symm rfl (fun _ _ => id) fun _ _ => id
  | lock | found | leave | sleep | go | wakeUp | empty | block | exit | terminate | broadcast
  | clearWorker => exact h.frame rfl rfl rfl (by grind) (by grind)

end Steps

/-! ## The lost tasks -/

variable [DecidableEq τ]

/-- A `task = NULL` with tasks in the list loses the first of them. -/
theorem not_kept_clearTask {d : Nat} (hi : Inv s) (ht : s.task ≠ none) :
    ¬ State.Kept { s with task := none, destroy := Function.update s.destroy d .taskCleared } := by
  intro h
  obtain ⟨l, hl, hstory⟩ := hi.list
  rcases l with - | ⟨x, l⟩
  · exact ht hl.head_eq
  have hs := hstory x List.mem_cons_self
  -- Nothing but the push is in the log about this task.
  have hlog : ∀ y, y.task = x.2 → y ∈ s.log → y = .push x.2 := by
    intro y hy hm
    have hm' : y ∈ story s.log x.2 := hy ▸ mem_story.mpr hm
    simpa [hs] using hm'
  have hpush : Action.push x.2 ∈ s.log := mem_story.mp (by simp [Action.task, hs])
  rcases h x.2 hpush with ⟨l', hl', y, hy, -⟩ | ⟨w, a, hp | hp, ha⟩ | ⟨w, hw⟩ | ⟨w, hw⟩
  · rw [hl'.eq_nil] at hy
    cases hy
  · simpa [hs] using hi.story_of_call hp ha
  · simpa [hs] using hi.story_of_free hp ha
  · cases hlog _ rfl hw
  · cases hlog _ rfl hw

variable [DecidableEq ω] [DecidableEq α]

/-- **No task is lost, exactly if every shutdown finds an empty list.** -/
theorem kept_iff {worker : List ω} {es : List (Event ω α τ)}
    (hes : Along step Enabled (created worker) es) :
    (∀ s, Visits step (created worker) es s → s.Kept) ↔
      Along step ClearsEmpty (created worker) es := by
  refine visits_iff (I := fun s => Inv s ∧ s.Kept) (fun s h => h.2) ?_ ?_
    ⟨inv_created worker, kept_created worker⟩ hes
  · exact fun s e s' ⟨hi, hk⟩ he hc hr => ⟨hi.step he hr, hk.step hi hc (step_move he hr)⟩
  · intro s e ⟨hi, _⟩ _ hc
    cases e with
    | destroy d =>
      simp only [ClearsEmpty, Classical.not_imp] at hc
      refine ⟨_, rfl, ?_⟩
      simp only [destroyThreadPool, hc.1]
      exact not_kept_clearTask hi hc.2
    | push | worker | wakeUp => exact absurd trivial hc

/-- A worker takes the only task before the shutdown. -/
theorem kept_iff_taken :
    let es := [Event.push 5 7 [], .worker 0, .worker 0, .worker 0, .worker 0, .destroy 0,
      .destroy 0, .destroy 0]
    (∀ s, Visits step (created [0] : State (Fin 1) Nat Nat) es s → s.Kept) ↔
      Along step ClearsEmpty (created [0]) es :=
  kept_iff (by decide)

/-- A task is pushed, and `destroyThreadPool` comes before the worker. -/
def lostRun : List (Event (Fin 1) Nat Nat) := [.push 5 7 [], .destroy 0, .destroy 0, .destroy 0]

theorem not_kept_lostRun : Along step Enabled (created [0]) lostRun ∧
    ¬ ∀ s, Visits step (created [0]) lostRun s → s.Kept := by
  refine ⟨by decide, fun h => ?_⟩
  have hes : Along step Enabled (created [0]) (lostRun.take 3) := by decide
  obtain ⟨s, hs, hi⟩ := exec_created hes
  cases hs
  exact not_kept_clearTask (d := 0) hi (by decide) (h _ ⟨4, rfl⟩)

end ThreadPool
end LinuxBase
