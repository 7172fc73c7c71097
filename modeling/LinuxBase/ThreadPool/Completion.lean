import LinuxBase.ThreadPool.Shutdown
import LinuxBase.ThreadPool.WakeUp
import Mathlib.Algebra.Order.BigOperators.Group.Finset

/-!
# The pool comes to an end of its work

* **No livelock**: a worker at a place has at most `Place.cost` steps before it blocks or takes the
  next task, and a task in the list is good for 7 of them. So the number of steps that the workers take
  is bounded by what the pushes, the wake-ups and the broadcasts have granted (`worker_steps_le`).
* **No deadlock**: when no worker can take a step, all of them are blocked or have left. Without a
  `destroyThreadPool` then every task that was pushed was taken, called once and freed by one
  worker, the list is empty and no task is left in the memory; behind the broadcast of a
  `destroyThreadPool` all workers have left (`all_done`).
-/

namespace LinuxBase
namespace ThreadPool

open DList Finset

variable {ω α τ : Type}

/-! ## How much the workers do -/

/-- A bound on the steps of a worker up to its next wait or its next task. -/
@[grind] def Place.cost : Place α → Nat
  | .call _ => 7
  | .free _ => 6
  | .lock | .woken => 5
  | .test => 4
  | .testTerminate => 3
  | .testExit => 2
  | .take | .wait => 1
  | .blocked | .exited => 0

/-- The steps of the workers. -/
def Event.spend : Event ω α τ → Nat
  | .worker _ => 1
  | .push .. | .wakeUp _ | .destroy _ => 0

section Work

variable [Fintype ω]

/-- What an event lets the workers do: a new task, and workers that wake up. -/
def Event.grant : Event ω α τ → Nat
  | .push _ _ ws => 7 + 5 * ws.length
  | .worker _ => 0
  | .wakeUp _ => 5
  | .destroy _ => 5 * Fintype.card ω

/-- What the workers can do from where they are, with the tasks in the list. -/
def Budget (n : Nat) (s : State ω α τ) : Prop :=
  ∃ l, IsList s.mem s.task l ∧ n = ∑ w, (s.place w).cost + 7 * l.length

section Costs

variable {s s' : State ω α τ}

/-- A step of one worker. -/
theorem cost_move [DecidableEq ω] (s : State ω α τ) (w : ω) (p : Place α) :
    ∑ v, (Function.update s.place w p v).cost + (s.place w).cost =
      ∑ v, (s.place v).cost + p.cost :=
  sum_update Place.cost s.place w p

/-- Each worker that wakes up costs 5. -/
theorem cost_wake [DecidableEq α] (s : State ω α τ) (ws : ω → Bool) :
    ∑ v, ((s.wake ws).place v).cost ≤
      ∑ v, (s.place v).cost + 5 * (univ.filter fun v => ws v = true).card := by
  have hfive : ∑ v, (if ws v = true then 5 else 0) = (univ.filter fun v => ws v = true).card * 5 := by
    rw [← sum_filter]
    exact sum_const_nat fun _ _ => rfl
  rw [Nat.mul_comm, ← hfive, ← sum_add_distrib]
  refine sum_le_sum fun v _ => ?_
  rw [State.wake_place]
  by_cases h : s.place v = .blocked ∧ ws v
  · rw [if_pos h, if_pos h.2, h.1]
    simp [Place.cost]
  · rw [if_neg h]
    exact Nat.le_add_right _ _

/-- A step of a worker that leaves the list alone and goes to a cheaper place. -/
theorem Budget.worker [DecidableEq ω] {n : Nat} {w : ω} {p : Place α} (h : Budget n s) (hmem : s'.mem = s.mem)
    (htask : s'.task = s.task) (hplace : s'.place = Function.update s.place w p)
    (hp : p.cost < (s.place w).cost) : ∃ m, Budget m s' ∧ m + 1 ≤ n + 0 := by
  obtain ⟨l, hl, hn⟩ := h
  have hcost := cost_move s w p
  refine ⟨_, ⟨l, by rw [hmem, htask]; exact hl, rfl⟩, ?_⟩
  rw [hplace]
  omega

/-- The workers among `ws` wake up, and the list stays. -/
theorem Budget.wake [DecidableEq α] {n k : Nat} {ws : ω → Bool} (h : Budget n s)
    (hk : (univ.filter fun v => ws v = true).card ≤ k) :
    ∃ m, Budget m (s.wake ws) ∧ m + 0 ≤ n + 5 * k := by
  obtain ⟨l, hl, hn⟩ := h
  have hcost := cost_wake s ws
  refine ⟨_, ⟨l, hl, rfl⟩, ?_⟩
  omega

end Costs

variable [DecidableEq ω] [DecidableEq α] [DecidableEq τ] {s s' : State ω α τ}

theorem Budget.step {n : Nat} {e : Event ω α τ} (h : Budget n s) (hi : Inv s) (hm : Move s e s') :
    ∃ m, Budget m s' ∧ m + e.spend ≤ n + e.grant := by
  cases hm with
  | @push item t ws m hmutex hfree hnew hws hwake hm =>
    obtain ⟨l, hl, hn⟩ := h
    obtain ⟨m', hm', hl', -⟩ := insertTask_spec hl hfree t
    rw [hm'] at hm
    cases hm
    have hcard : (univ.filter fun v => decide (v ∈ ws) = true).card ≤ ws.length := by
      have hsub : (univ.filter fun v => decide (v ∈ ws) = true) ⊆ ws.toFinset := by
        intro v hv
        simpa using hv
      exact (card_le_card hsub).trans (List.toFinset_card_le ws)
    have hcost := cost_wake s fun v => v ∈ ws
    refine ⟨_, ⟨_, hl', rfl⟩, ?_⟩
    simp only [Event.spend, Event.grant, List.length_cons]
    show ∑ v, ((s.wake fun v => v ∈ ws).place v).cost + _ + 0 ≤ _
    omega
  | @take w a c m task hp ha hc hm =>
    obtain ⟨l, hl, hn⟩ := h
    rw [ha] at hl
    rcases l with - | ⟨x, l⟩
    · cases hl.head_eq
    obtain rfl : a = x.1 := Option.some.inj hl.head_eq
    obtain ⟨m', hm', hl', -⟩ := deleteList_spec hl
    rw [hm'] at hm
    cases hm
    have hcost : ∑ v, (Function.update s.place w (.call x.1) v).cost + 1 =
        ∑ v, (s.place v).cost + 7 := by
      have h := cost_move s w (.call x.1)
      rw [hp] at h
      exact h
    refine ⟨_, ⟨l, hl', rfl⟩, ?_⟩
    simp only [List.length_cons, Event.spend, Event.grant] at hn ⊢
    show ∑ v, (Function.update s.place w (.call x.1) v).cost + _ + 1 ≤ _
    omega
  | @free w a c hp hc =>
    obtain ⟨l, hl, hn⟩ := h
    have hcost : ∑ v, (Function.update s.place w .lock v).cost + 6 = ∑ v, (s.place v).cost + 5 := by
      have h := cost_move s w .lock
      rw [hp] at h
      exact h
    refine ⟨_, ⟨l, hl.congr fun x hx => Function.update_of_ne (hi.ne_of_free hp hl x hx) _ _, rfl⟩, ?_⟩
    simp only [Event.spend, Event.grant]
    show ∑ v, (Function.update s.place w .lock v).cost + _ + 1 ≤ _
    omega
  | @clearTask d hd =>
    obtain ⟨l, hl, hn⟩ := h
    refine ⟨_, ⟨[], ⟨rfl, List.nodup_nil, trivial⟩, rfl⟩, ?_⟩
    show ∑ v, (s.place v).cost + 7 * 0 + 0 ≤ _
    omega
  | lock hp | empty hp | found hp | leave hp | sleep hp | block hp | exit hp | go hp | call hp =>
    exact h.worker rfl rfl rfl (by grind)
  | @wakeUp w hp => exact h.wake (k := 1) (by simp [filter_eq'])
  | @broadcast d hd hmutex => exact h.wake (card_le_univ _)
  | terminate hd | clearWorker hd =>
    obtain ⟨l, hl, hn⟩ := h
    exact ⟨n, ⟨l, hl, hn⟩, Nat.le_add_right _ _⟩

/-- **No livelock.** For any number of workers and every interleaving: the workers take no more steps
than 5 for each of them, 7 for each task, 5 for each worker that a signal or a wake-up without a
reason has woken, and 5 for all workers at each step of a `destroyThreadPool`. -/
theorem worker_steps_le {worker : List ω} {es : List (Event ω α τ)}
    (hes : Along step Enabled (created worker) es) :
    totalOf Event.spend es ≤ 5 * Fintype.card ω + totalOf Event.grant es := by
  obtain ⟨s, hs, -⟩ := exec_created hes
  have hstart : Budget (5 * Fintype.card ω) (created worker : State ω α τ) ∧
      Inv (created worker : State ω α τ) := by
    refine ⟨⟨[], ⟨rfl, List.nodup_nil, trivial⟩, ?_⟩, inv_created worker⟩
    have hcost : ∑ w, ((created worker : State ω α τ).place w).cost = Fintype.card ω * 5 :=
      sum_const_nat fun _ _ => rfl
    rw [hcost, List.length_nil]
    omega
  refine exec_spends (I := fun n s => Budget n s ∧ Inv s) (fun n s e s' h he hr => ?_) hstart hes hs
  obtain ⟨hb, hi⟩ := h
  obtain ⟨m, hm, hle⟩ := hb.step hi (step_move he hr)
  exact ⟨m, ⟨hm, hi.step he hr⟩, hle⟩

/-- A worker blocks, and a task wakes it. -/
theorem worker_steps_le_sample :
    let es : List (Event (Fin 1) Nat Nat) :=
      [.worker 0, .worker 0, .worker 0, .worker 0, .push 5 7 [0], .worker 0]
    totalOf Event.spend es ≤ 5 * Fintype.card (Fin 1) + totalOf Event.grant es :=
  @worker_steps_le _ _ _ _ _ _ _ [0] _ (by decide)

end Work

/-! ## What is done when the workers stop -/

/-- A worker that has left found `terminate`, a called task is with the worker that called it until it
frees it, and a freed task is nowhere. -/
structure Settled (s : State ω α τ) : Prop where
  exited : ∀ w, s.place w = .exited → s.terminate = true
  called : ∀ w t, .call w t ∈ s.log →
    (∃ a, s.place w = .free a ∧ s.job a = some t) ∨ .free w t ∈ s.log
  freed : ∀ w t a, .free w t ∈ s.log → s.job a ≠ some t

theorem settled_created (worker : List ω) :
    Settled (created worker : State ω α τ) where
  exited _ h := nomatch h
  called _ _ h := nomatch h
  freed _ _ _ h := nomatch h

variable {s s' : State ω α τ}

/-- A step that leaves the tasks with those who have them. -/
theorem Settled.frame (h : Settled s) (hmem : s'.mem = s.mem) (hlog : s'.log = s.log)
    (hterm : s.terminate = true → s'.terminate = true)
    (hexit : ∀ w, s'.place w = .exited → s.place w = .exited ∨ s.terminate = true)
    (hfree : ∀ w a, s.place w = .free a → s'.place w = .free a) : Settled s' where
  exited w hw := (hexit w hw).elim (fun hw => hterm (h.exited w hw)) hterm
  called w t ht := by
    rw [hlog] at ht ⊢
    exact (h.called w t ht).imp_left fun ⟨a, hp, ha⟩ =>
      ⟨a, hfree w a hp, by rw [State.job, hmem]; exact ha⟩
  freed w t a ht := by
    rw [hlog] at ht
    rw [State.job, hmem]
    exact h.freed w t a ht

variable [DecidableEq ω] [DecidableEq α]

/-- A call of `destroyThreadPool` that has begun stays so. -/
theorem running_of_move {e : Event ω α τ} (hm : Move s e s') (h : s'.Running) :
    s.Running ∧ ClearsEmpty s e := by
  cases hm with
  | @terminate d hd | @broadcast d hd hmutex | @clearTask d hd | @clearWorker d hd =>
    exact absurd (h d) (by simp)
  | _ => exact ⟨h, trivial⟩

variable [DecidableEq τ]

theorem Settled.move {e : Event ω α τ} (h : Settled s) (hi : Inv s) (hm : Move s e s') :
    Settled s' := by
  cases hm with
  | @push item t ws m hmutex hfree hnew hws hwake hm =>
    obtain ⟨l, hl, -⟩ := hi.list
    obtain ⟨m', hm', -, hjob⟩ := insertTask_spec hl hfree t
    rw [hm'] at hm
    cases hm
    have hnone : s.job item = none := by rw [State.job, hfree]; rfl
    refine ⟨fun w hw => h.exited w (by grind), fun w u hu => ?_, fun w u a hu => ?_⟩
    · have hu : .call w u ∈ s.log := by simpa using hu
      rcases h.called w u hu with ⟨a, hp, ha⟩ | hf
      · refine .inl ⟨a, by simp [hp], ?_⟩
        have hne : a ≠ item := by rintro rfl; rw [hnone] at ha; cases ha
        exact ((hjob a).trans (if_neg hne)).trans ha
      · exact .inr (List.mem_cons_of_mem _ hf)
    · have hu : .free w u ∈ s.log := by simpa using hu
      intro ha
      have ha := (hjob a).symm.trans ha
      by_cases hai : a = item
      · -- The new task was not pushed before, so it was not freed.
        rw [if_pos hai] at ha
        cases ha
        have hnil := (hi.lives t).eq_nil hnew
        exact List.ne_nil_of_mem (mem_story.mpr hu) hnil
      · rw [if_neg hai] at ha
        exact h.freed w u a hu ha
  | @take w a c m task hp ha hc hm =>
    obtain ⟨l, hl, -⟩ := hi.list
    rw [ha] at hl
    rcases l with - | ⟨x, l⟩
    · cases hl.head_eq
    obtain rfl : a = x.1 := Option.some.inj hl.head_eq
    obtain ⟨m', hm', -, hval⟩ := deleteList_spec hl
    rw [hm'] at hm
    cases hm
    refine ⟨fun v hv => h.exited v (by grind), fun v u hu => ?_, fun v u b hu hb => ?_⟩
    · have hu : .call v u ∈ s.log := by simpa using hu
      rcases h.called v u hu with ⟨b, hb, hu⟩ | hf
      · exact .inl ⟨b, by grind, (hval b).trans hu⟩
      · exact .inr (List.mem_cons_of_mem _ hf)
    · exact h.freed v u b (by simpa using hu) ((hval b).symm.trans hb)
  | @call w a c hp hc =>
    refine ⟨fun v hv => h.exited v (by grind), fun v u hu => ?_, fun v u b hu => ?_⟩
    · rcases List.mem_cons.mp hu with hu | hu
      · cases hu
        exact .inl ⟨a, by simp, by rw [State.job]; simp [hc]⟩
      · rcases h.called v u hu with ⟨b, hb, hu⟩ | hf
        · exact .inl ⟨b, by grind, hu⟩
        · exact .inr (List.mem_cons_of_mem _ hf)
    · exact h.freed v u b (by simpa using hu)
  | @free w a c hp hc =>
    have hat : s.job a = some c.val := by rw [State.job, hc]; rfl
    have hother : ∀ b u, State.job { s with mem := Function.update s.mem a none } b = some u →
        b ≠ a ∧ s.job b = some u := by
      intro b u hb
      by_cases hba : b = a
      · subst hba
        simp [State.job] at hb
      · exact ⟨hba, by simpa [State.job, hba] using hb⟩
    refine ⟨fun v hv => h.exited v (by grind), fun v u hu => ?_, fun v u b hu hb => ?_⟩
    · have hu : .call v u ∈ s.log := by simpa using hu
      rcases h.called v u hu with ⟨b, hb, hu⟩ | hf
      · by_cases hv : v = w
        · subst hv
          rw [hp] at hb
          cases hb
          rw [hat] at hu
          cases hu
          exact .inr List.mem_cons_self
        · -- Another worker has another task.
          have hne : b ≠ a := by
            rintro rfl
            have h1 := hi.story_of_free hb hat
            rw [hi.story_of_free hp hat] at h1
            simp [Ne.symm hv] at h1
          exact .inl ⟨b, by simpa [hv] using hb, by simpa [State.job, hne] using hu⟩
      · exact .inr (List.mem_cons_of_mem _ hf)
    · obtain ⟨hne, hb⟩ := hother b u hb
      rcases List.mem_cons.mp hu with hu | hu
      · cases hu
        exact hne (hi.inj b a _ hb hat)
      · exact h.freed v u b hu hb
  | terminate hd => exact h.frame rfl rfl (fun _ => rfl) (fun _ => .inl) fun _ _ => id
  | exit hp ht => exact h.frame rfl rfl id (by grind) (by grind)
  | lock | empty | found | leave | sleep | block | go | wakeUp | broadcast | clearTask
  | clearWorker => exact h.frame rfl rfl id (by grind) (by grind)

/-- A worker that cannot take a step is asleep or has left. -/
theorem Placed.place_of_stuck {ω α τ : Type} {s : State ω α τ} (h : Placed s)
    (hq : ∀ w, ¬ (s.place w).ready s.mutex.isNone = true) (w : ω) :
    s.place w = .blocked ∨ s.place w = .exited := by
  have hmutex : s.mutex = none := by
    cases hm : s.mutex with
    | none => rfl
    | some v =>
      have hv := (h.holder v).mpr hm
      have := hq v
      cases hp : s.place v <;> simp_all [Place.holds, Place.ready]
  have := hq w
  cases hp : s.place w <;> simp_all [Place.ready]

/-- A task that was freed has its whole story behind it. -/
theorem Life.of_free {ω τ : Type} {t : τ} {l : List (Action ω τ)} {w : ω} (h : Life t l)
    (hw : .free w t ∈ l) : l = [.free w t, .call w t, .take w t, .push t] := by
  cases h <;> simp_all

variable [Fintype ω] [Nonempty ω]

/-- **No deadlock, and no task left.** For any positive number of workers and every interleaving, when
no worker can take a step: without a call of `destroyThreadPool` every task that was pushed was taken,
called and freed by one worker, once each, the list is empty and no task is left in the memory; behind
the broadcast of a `destroyThreadPool` all workers have left. -/
theorem all_done {worker : List ω} {es : List (Event ω α τ)}
    (hes : Along step Enabled (created worker) es) :
    ∃ s, exec step es (created worker) = .ret s ∧
      ((∀ w, ¬ Enabled s (.worker w)) →
        (s.Running → s.task = none ∧ (∀ a, s.mem a = none) ∧ ∀ t, .push t ∈ s.log →
          ∃ w, story s.log t = [.free w t, .call w t, .take w t, .push t]) ∧
        (s.Broadcasted → ∀ w, s.place w = .exited)) := by
  have hrun : ∃ s, exec step es (created worker) = .ret s ∧
      (Inv s ∧ Awake s ∧ Settled s ∧ (s.Running → s.Kept)) := by
    refine exec_progress (fun s e h he => ?_)
      ⟨inv_created worker, awake_created worker, settled_created worker,
        fun _ => kept_created worker⟩ hes
    obtain ⟨hi, ha, hs, hk⟩ := h
    obtain ⟨s', hs'⟩ := hi.step_ret he
    have hm := step_move he hs'
    refine ⟨s', hs', hi.step he hs', ha.move hi hm, hs.move hi hm, fun hr => ?_⟩
    obtain ⟨hr', hc⟩ := running_of_move hm hr
    exact (hk hr').step hi hc hm
  obtain ⟨s, hs, hi, ⟨l, hl, hawake⟩, hsettled, hkept⟩ := hrun
  refine ⟨s, hs, fun hq => ⟨fun hr => ?_, fun hb w => ?_⟩⟩
  · have hplace : ∀ w, s.place w = .blocked := by
      intro w
      refine (hi.place_of_stuck hq w).resolve_right fun hw => ?_
      obtain ⟨d, hd⟩ := hi.stopping (hsettled.exited w hw)
      exact hd (hr d)
    have hnone : tally Place.examines s.place = 0 := by
      rw [tally, card_eq_zero, filter_eq_empty_iff]
      intro w _
      simp [hplace w, Place.examines]
    have hnil : l = [] := by
      refine List.eq_nil_of_length_eq_zero (Nat.le_zero.mp ?_)
      rw [← hnone]
      exact hawake hr ⟨Classical.arbitrary ω, hplace _⟩
    subst hnil
    have hfreed : ∀ t, .push t ∈ s.log → ∃ w, .free w t ∈ s.log := by
      intro t ht
      rcases hkept hr t ht with ⟨l', hl', x, hx, -⟩ | ⟨w, a, hp, -⟩ | ⟨w, hw⟩ | hw
      · rw [hl'.unique hl] at hx
        cases hx
      · rcases hp with hp | hp <;> rw [hplace w] at hp <;> cases hp
      · rcases hsettled.called w t hw with ⟨a, hp, -⟩ | hw
        · rw [hplace w] at hp
          cases hp
        · exact ⟨w, hw⟩
      · exact hw
    refine ⟨hl.head_eq, fun a => ?_, fun t ht => ?_⟩
    · -- A task that is left was pushed, and so freed.
      cases hc : s.mem a with
      | none => rfl
      | some c =>
        have hat : s.job a = some c.val := by rw [State.job, hc]; rfl
        obtain ⟨w, hw⟩ := hfreed c.val (hi.pushed a _ hat)
        exact absurd hat (hsettled.freed w _ a hw)
    · obtain ⟨w, hw⟩ := hfreed t ht
      exact ⟨w, (hi.lives t).of_free (mem_story.mpr hw)⟩
  · obtain ⟨d, hd⟩ := hb
    exact (hi.place_of_stuck hq w).resolve_left (hi.released d w hd).1

/-- A task is done, and the worker blocks again. -/
theorem all_done_sample :
    let es := [Event.push 5 7 [], .worker 0, .worker 0, .worker 0, .worker 0, .worker 0, .worker 0,
      .worker 0, .worker 0, .worker 0, .worker 0]
    ∃ s : State (Fin 1) Nat Nat, exec step es (created [0]) = .ret s ∧
      ((∀ w, ¬ Enabled s (.worker w)) →
        (s.Running → s.task = none ∧ (∀ a, s.mem a = none) ∧ ∀ t, .push t ∈ s.log →
          ∃ w, story s.log t = [.free w t, .call w t, .take w t, .push t]) ∧
        (s.Broadcasted → ∀ w, s.place w = .exited)) :=
  all_done (by decide)

end ThreadPool
end LinuxBase
