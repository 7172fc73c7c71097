import LinuxBase.Lib.Tally
import LinuxBase.ThreadPool.Tasks

/-!
# No missed wake-up

`Place.examines`: the worker will look at the list before it can block. While no call of
`destroyThreadPool` has begun, a blocked worker means that there is such a worker for each task in
the list (`Awake`): the signal of a push makes one of a blocked worker, a worker that takes a task
is at its callback and the list is shorter by this task, and a worker gives up only in front of an
empty list, with the mutex in its hands up to the wait.

Behind a broadcast nobody is in the wait (`Placed.released`).
-/

namespace LinuxBase
namespace ThreadPool

open DList

variable {ω α τ : Type}

/-- The worker will examine the list before it can block. -/
@[grind] def Place.examines : Place α → Bool
  | .lock | .woken | .test | .testExit | .take | .free _ => true
  | .testTerminate | .wait | .blocked | .call _ | .exited => false

/-- Each task in the list has a worker that will examine the list, or no worker is blocked. -/
def Awake [Fintype ω] (s : State ω α τ) : Prop :=
  ∃ l, IsList s.mem s.task l ∧
    (s.Running → (∃ w, s.place w = .blocked) → l.length ≤ tally Place.examines s.place)

variable [Fintype ω] {s s' : State ω α τ}

theorem awake_created (worker : List ω) : Awake (created worker : State ω α τ) :=
  ⟨[], ⟨rfl, List.nodup_nil, trivial⟩, fun _ _ => Nat.zero_le _⟩

/-- A step that leaves the list alone, and after which no more workers are blocked and no fewer
examine the list. -/
theorem Awake.mono (h : Awake s) (hmem : s'.mem = s.mem) (htask : s'.task = s.task)
    (hrun : s'.Running → s.Running) (hblocked : ∀ w, s'.place w = .blocked → s.place w = .blocked)
    (hexamines : ∀ w, (s.place w).examines → (s'.place w).examines) : Awake s' := by
  obtain ⟨l, hl, hle⟩ := h
  refine ⟨l, by rw [hmem, htask]; exact hl, fun hr ⟨w, hw⟩ => ?_⟩
  exact (hle (hrun hr) ⟨w, hblocked w hw⟩).trans (tally_mono hexamines)

/-- An empty list needs no worker. -/
theorem awake_nil (h : s.task = none) : Awake s :=
  ⟨[], ⟨h, List.nodup_nil, trivial⟩, fun _ _ => Nat.zero_le _⟩

/-- A call of `destroyThreadPool` has begun. -/
theorem Awake.of_not_running (h : Awake s) (hmem : s'.mem = s.mem) (htask : s'.task = s.task)
    {d : Nat} (hd : s'.destroy d ≠ .start) : Awake s' := by
  obtain ⟨l, hl, -⟩ := h
  exact ⟨l, by rw [hmem, htask]; exact hl, fun hr => absurd (hr d) hd⟩

variable [DecidableEq ω] [DecidableEq α]

/-- The signal of a push wakes a worker, and this one examines the list now. -/
theorem Awake.push {item : α} {t : τ} {ws : List ω} {m : Mem α τ} (h : Awake s)
    (hfree : s.mem item = none) (hws : ∀ w ∈ ws, s.place w = .blocked)
    (hwake : (∃ w, s.place w = .blocked) → ws ≠ [])
    (hm : insertList (Function.update s.mem item (some ⟨none, none, t⟩)) item s.task =
      .ret (m, some item)) :
    Awake ({ s with mem := m, task := some item, log := .push t :: s.log }.wake fun w => w ∈ ws) := by
  obtain ⟨l, hl, hle⟩ := h
  obtain ⟨m', hm', hl', -⟩ := insertTask_spec hl hfree t
  rw [hm'] at hm
  cases hm
  refine ⟨_, hl', ?_⟩
  rintro hr ⟨w, hw⟩
  have hw' : s.place w = .blocked := by grind
  obtain ⟨v, hv⟩ := List.exists_mem_of_ne_nil ws (hwake ⟨w, hw'⟩)
  have hlt := hle hr ⟨w, hw'⟩
  have hmore := tally_lt (p := Place.examines) (f := s.place)
    (g := (s.wake fun w => w ∈ ws).place) (fun u hu => by grind) (w := v)
    (by rw [hws v hv]; simp [Place.examines]) (by simp [hws v hv, hv, Place.examines])
  show l.length + 1 ≤ tally Place.examines (s.wake fun w => w ∈ ws).place
  omega

/-- A worker that takes a task does not examine the list any more, which is shorter by this task. -/
theorem Awake.take {w : ω} {a : α} {c : Cell α τ} {m : Mem α τ} {task : Option α} (h : Awake s)
    (hp : s.place w = .take) (ha : s.task = some a)
    (hm : deleteList s.mem a (some a) = .ret (m, task)) :
    Awake ({ s with mem := m, task, log := .take w c.val :: s.log }.unlock.move w (.call a)) := by
  obtain ⟨l, hl, hle⟩ := h
  rw [ha] at hl
  rcases l with - | ⟨x, l⟩
  · cases hl.head_eq
  obtain rfl : a = x.1 := Option.some.inj hl.head_eq
  obtain ⟨m', hm', hl', -⟩ := deleteList_spec hl
  rw [hm'] at hm
  cases hm
  refine ⟨l, hl', ?_⟩
  rintro hr ⟨v, hv⟩
  have hlt := hle hr ⟨v, by grind⟩
  have hone := tally_update Place.examines s.place w (.call x.1)
  rw [hp] at hone
  simp only [Place.examines, Bool.toNat_true, Bool.toNat_false, List.length_cons] at hone hlt
  show l.length ≤ tally Place.examines (Function.update s.place w (.call x.1))
  omega

variable [DecidableEq τ]

theorem Awake.free {w : ω} {a : α} {c : Cell α τ} (h : Awake s) (hi : Inv s)
    (hp : s.place w = .free a) :
    Awake ({ s with
      mem := Function.update s.mem a none, log := .free w c.val :: s.log }.move w .lock) := by
  obtain ⟨l, hl, hle⟩ := h
  refine ⟨l, hl.congr fun x hx => Function.update_of_ne (hi.ne_of_free hp hl x hx) _ _, ?_⟩
  rintro hr ⟨v, hv⟩
  exact (hle hr ⟨v, by grind⟩).trans (tally_mono fun v hv => by grind)

/-- Every step keeps enough workers awake. -/
theorem Awake.move {e : Event ω α τ} (h : Awake s) (hi : Inv s) (hm : Move s e s') : Awake s' := by
  cases hm with
  | push hmutex hfree hnew hws hwake hm => exact h.push hfree hws hwake hm
  | take hp ha hc hm => exact h.take hp ha hm
  | free hp hc => exact h.free hi hp
  | empty hp ht => exact awake_nil ht
  | block hp => exact awake_nil (hi.parked _ (.inr hp))
  | clearTask hd => exact awake_nil rfl
  | exit hp ht =>
    obtain ⟨d, hd⟩ := hi.stopping ht
    exact h.of_not_running rfl rfl hd
  | @terminate d hd => exact h.of_not_running (d := d) rfl rfl (by simp)
  | @broadcast d hd hmutex => exact h.of_not_running (d := d) rfl rfl (by simp)
  | @clearWorker d hd => exact h.of_not_running (d := d) rfl rfl (by simp)
  | lock hp | found hp | leave hp | sleep hp | go hp | call hp | wakeUp hp =>
    exact h.mono rfl rfl id (by grind) (by grind)

/-- **No missed wake-up.** For any number of workers and every interleaving: before a call of
`destroyThreadPool` begins, no worker is blocked or each task in the list has a worker that will
examine the list before it can block; behind the broadcast of such a call no worker is blocked or
about to block. -/
theorem no_missed_wakeUp {worker : List ω} {es : List (Event ω α τ)}
    (hes : Along step Enabled (created worker) es) :
    ∃ s l, exec step es (created worker) = .ret s ∧ IsList s.mem s.task l ∧
      (s.Running → (∀ w, s.place w ≠ .blocked) ∨ l.length ≤ tally Place.examines s.place) ∧
      (s.Broadcasted → ∀ w, s.place w ≠ .blocked ∧ s.place w ≠ .wait) := by
  have hrun : ∃ s, exec step es (created worker) = .ret s ∧ Inv s ∧ Awake s := by
    refine exec_progress (fun s e ⟨hi, ha⟩ he => ?_) ⟨inv_created worker, awake_created worker⟩ hes
    obtain ⟨s', hs'⟩ := hi.step_ret he
    exact ⟨s', hs', hi.step he hs', ha.move hi (step_move he hs')⟩
  obtain ⟨s, hs, hi, l, hl, hle⟩ := hrun
  refine ⟨s, l, hs, hl, fun hr => ?_, fun ⟨d, hd⟩ w => ?_⟩
  · by_cases hb : ∃ w, s.place w = .blocked
    · exact .inr (hle hr hb)
    · exact .inl fun w hw => hb ⟨w, hw⟩
  · obtain ⟨h1, h2, -⟩ := hi.released d w hd
    exact ⟨h1, h2⟩

/-- The worker blocks, a push wakes it, and a shutdown begins. -/
theorem no_missed_wakeUp_sample :
    let es := [Event.worker 0, .worker 0, .worker 0, .worker 0, .push 5 7 [0], .destroy 0,
      .destroy 0]
    ∃ (s : State (Fin 1) Nat Nat) (l : _), exec step es (created [0]) = .ret s ∧
      IsList s.mem s.task l ∧
      (s.Running → (∀ w, s.place w ≠ .blocked) ∨ l.length ≤ tally Place.examines s.place) ∧
      (s.Broadcasted → ∀ w, s.place w ≠ .blocked ∧ s.place w ≠ .wait) :=
  no_missed_wakeUp (by decide)

end ThreadPool
end LinuxBase
