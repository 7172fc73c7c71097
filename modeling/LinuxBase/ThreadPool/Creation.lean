import LinuxBase.ThreadPool.Places

/-!
# The creation of a pool

`createThreadPoll` beside the threads that it has started. A failed `malloc` or `pthread_create`
leads to `free(threadPool)`, and to nothing else: `terminate` is not set, nobody is woken up or
joined, and a `struct Worker` is freed by its own thread only, at the end of `threadCallback`. So a
failed call leaves nothing behind exactly if none of its calls of `pthread_create` succeeded
(`leavesNothing_iff`). Otherwise a thread goes on with the freed pool (`uses_freed`).

* The `malloc`s and each `pthread_create` are steps of their own. The `INSERT_LIST` behind
  `pthread_create` is one step with it: no thread reads the list of workers.
* The threads take the steps of `threadCallback`, with the `free(worker)` behind the loop. An access
  to the freed `struct ThreadPool` is a `fault`.
-/

namespace LinuxBase
namespace ThreadPool

/-- Where `createThreadPoll` is. -/
inductive Main where
  /-- At the `malloc` of the pool. -/
  | mallocPool
  /-- At the loop condition, with the `malloc` of the `i`-th worker behind it. -/
  | mallocWorker (i : Nat)
  | pthreadCreate (i : Nat)
  /-- It has returned the pool, or `NULL`. -/
  | returned (threadPool : Bool)
  deriving DecidableEq, Repr

def Main.running : Main → Bool
  | .returned _ => false
  | _ => true

/-- The pool is allocated there. -/
def Main.hasPool : Main → Bool
  | .mallocPool => false
  | .mallocWorker _ | .pthreadCreate _ => true
  | .returned threadPool => threadPool

/-- A call of `createThreadPoll` with its threads. -/
structure Creation (α τ : Type) where
  threadNum : Int
  main : Main := .mallocPool
  /-- What is in the `struct ThreadPool`, and the places of the threads. -/
  pool : State Nat α τ := {}
  /-- The `struct ThreadPool` is allocated. -/
  live : Bool := false
  /-- Each allocated `struct Worker`. -/
  workers : List Nat := []
  /-- The number of threads that were started. -/
  started : Nat := 0
  /-- What `perror` printed. -/
  error : Option String := none

/-- The step of a thread at this place uses the `struct ThreadPool`. -/
def Place.usesPool {α : Type} : Place α → Bool
  | .call _ | .free _ | .exited => false
  | _ => true

/-- The places of a thread while there is no task and nobody terminates the pool. -/
def Place.waits {α : Type} : Place α → Bool
  | .lock | .test | .testTerminate | .wait | .blocked | .woken => true
  | _ => false

namespace Creation

variable {α τ : Type}

/-- The next step of `createThreadPoll`; `ok` says that its `malloc` or its `pthread_create`
succeeds. -/
def createThreadPoll (ok : Bool) (s : Creation α τ) : Creation α τ :=
  match s.main with
  | .mallocPool =>
    if !ok then { s with main := .returned false }
    else
      { s with threadNum := if s.threadNum < 1 then 1 else s.threadNum
               pool := {}, live := true, main := .mallocWorker 0 }
  | .mallocWorker i =>
    if i < s.threadNum then
      if !ok then { s with error := "worker 创建错误", live := false, main := .returned false }
      else { s with workers := i :: s.workers, main := .pthreadCreate i }
    else { s with main := .returned true }
  | .pthreadCreate i =>
    if !ok then
      { s with error := "线程创建错误", live := false, workers := s.workers.erase i
               main := .returned false }
    else
      { s with pool := { s.pool with worker := i :: s.pool.worker }, started := i + 1
               main := .mallocWorker (i + 1) }
  | .returned _ => s

/-- The next step of `threadCallback` in the thread `w`. -/
def threadCallback [DecidableEq α] (w : Nat) (s : Creation α τ) : Run (Creation α τ) :=
  if s.pool.place w = .exited then .ret { s with workers := s.workers.erase w }
  else if (s.pool.place w).usesPool && !s.live then .fault
  else do
    let pool ← ThreadPool.threadCallback w s.pool
    .ret { s with pool }

/-- The thread `w` wakes up in `pthread_cond_wait`. -/
def wakeUp [DecidableEq α] (w : Nat) (s : Creation α τ) : Run (Creation α τ) :=
  if s.live then .ret { s with pool := s.pool.wake fun v => v = w } else .fault

inductive Event where
  | createThreadPoll (ok : Bool)
  | worker (w : Nat)
  | wakeUp (w : Nat)

def step [DecidableEq α] : Event → Creation α τ → Run (Creation α τ)
  | .createThreadPoll ok, s => .ret (s.createThreadPoll ok)
  | .worker w, s => s.threadCallback w
  | .wakeUp w, s => s.wakeUp w

/-- What can happen next. A thread ends with the `free` of its `struct Worker`. -/
def Enabled [DecidableEq α] (s : Creation α τ) : Event → Prop
  | .createThreadPoll _ => s.main.running
  | .worker w => w < s.started ∧
      if s.pool.place w = .exited then w ∈ s.workers
      else (s.pool.place w).ready s.pool.mutex.isNone
  | .wakeUp w => w < s.started ∧ s.pool.place w = .blocked

instance [DecidableEq α] (s : Creation α τ) : DecidablePred (Enabled s)
  | .createThreadPoll _ => inferInstanceAs (Decidable (s.main.running = true))
  | .worker w => inferInstanceAs (Decidable (w < s.started ∧
      if s.pool.place w = .exited then w ∈ s.workers
      else (s.pool.place w).ready s.pool.mutex.isNone = true))
  | .wakeUp w => inferInstanceAs (Decidable (w < s.started ∧ s.pool.place w = .blocked))

/-- No thread of the call can take another step on the pool, as all have stopped, and each
`struct Worker` is freed. -/
structure LeavesNothing [DecidableEq α] (s : Creation α τ) : Prop where
  untouched : ∀ e, Enabled s e → step e s ≠ .fault
  stopped : ∀ w < s.started, s.pool.place w = .exited
  released : s.workers = []

/-- The step is a `pthread_create` that succeeds. -/
def Starts (s : Creation α τ) : Event → Prop
  | .createThreadPoll ok => ok = true ∧ ∃ i, s.main = .pthreadCreate i
  | _ => False

/-! ## What a step does -/

/-- The steps of `createThreadPoll`, one constructor for each branch. -/
inductive Create (s : Creation α τ) : Bool → Creation α τ → Prop
  | noPool (hm : s.main = .mallocPool) : Create s false { s with main := .returned false }
  | pool (hm : s.main = .mallocPool) :
      Create s true { s with threadNum := if s.threadNum < 1 then 1 else s.threadNum
                             pool := {}, live := true, main := .mallocWorker 0 }
  | done {i : Nat} {ok : Bool} (hm : s.main = .mallocWorker i) (hi : ¬ i < s.threadNum) :
      Create s ok { s with main := .returned true }
  | noWorker {i : Nat} (hm : s.main = .mallocWorker i) (hi : i < s.threadNum) :
      Create s false { s with error := "worker 创建错误", live := false, main := .returned false }
  | worker {i : Nat} (hm : s.main = .mallocWorker i) (hi : i < s.threadNum) :
      Create s true { s with workers := i :: s.workers, main := .pthreadCreate i }
  | noThread {i : Nat} (hm : s.main = .pthreadCreate i) :
      Create s false { s with error := "线程创建错误", live := false, workers := s.workers.erase i
                              main := .returned false }
  | thread {i : Nat} (hm : s.main = .pthreadCreate i) :
      Create s true
        { s with pool := { s.pool with worker := i :: s.pool.worker }, started := i + 1
                 main := .mallocWorker (i + 1) }
  | returned {b ok : Bool} (hm : s.main = .returned b) : Create s ok s

variable {s s' : Creation α τ} {e : Event}

theorem create_of_createThreadPoll (s : Creation α τ) (ok : Bool) :
    Create s ok (s.createThreadPoll ok) := by
  unfold Creation.createThreadPoll
  cases hm : s.main with
  | mallocPool =>
    cases ok with
    | false => exact .noPool hm
    | true => exact .pool hm
  | mallocWorker i =>
    simp only
    split
    · cases ok with
      | false => exact .noWorker hm ‹_›
      | true => exact .worker hm ‹_›
    · exact .done hm ‹_›
  | pthreadCreate i =>
    cases ok with
    | false => exact .noThread hm
    | true => exact .thread hm
  | returned b => exact .returned hm

/-! ## The threads wait -/

/-- The structs of the workers of the call, the newest first. -/
def allocated (s : Creation α τ) : List Nat :=
  match s.main with
  | .pthreadCreate i => i :: (List.range s.started).reverse
  | _ => (List.range s.started).reverse

/-- The call counts the threads that it has started. -/
def Counts (s : Creation α τ) : Prop :=
  match s.main with
  | .mallocPool => s.started = 0
  | .mallocWorker i | .pthreadCreate i => s.started = i
  | .returned _ => True

/-- The invariant of the call: its threads wait, and no `struct Worker` of theirs is freed. -/
structure Creating (s : Creation α τ) : Prop where
  task : s.pool.task = none
  terminate : s.pool.terminate = false
  waits : ∀ w, (s.pool.place w).waits
  workers : s.workers = s.allocated
  counts : s.Counts
  live : s.live = s.main.hasPool

theorem creating_start (threadNum : Int) : Creating ({ threadNum } : Creation α τ) :=
  ⟨rfl, rfl, fun _ => rfl, rfl, rfl, rfl⟩

theorem Creating.create {ok : Bool} (h : Creating s) (hm : Create s ok s') : Creating s' := by
  obtain ⟨htask, hterminate, hwaits, hworkers, hcounts, hlive⟩ := h
  cases hm with
  | noPool hm =>
    simp only [allocated, hm] at hworkers
    exact ⟨htask, hterminate, hwaits, hworkers, trivial, by rw [hlive, hm]; rfl⟩
  | pool hm =>
    simp only [allocated, Counts, hm] at hworkers hcounts
    exact ⟨rfl, rfl, fun _ => rfl, hworkers, hcounts, rfl⟩
  | done hm =>
    simp only [allocated, hm] at hworkers
    exact ⟨htask, hterminate, hwaits, hworkers, trivial, by rw [hlive, hm]; rfl⟩
  | noWorker hm =>
    simp only [allocated, hm] at hworkers
    exact ⟨htask, hterminate, hwaits, hworkers, trivial, rfl⟩
  | worker hm =>
    simp only [allocated, Counts, hm] at hworkers hcounts
    exact ⟨htask, hterminate, hwaits, congrArg _ hworkers, hcounts, by rw [hlive, hm]; rfl⟩
  | noThread hm =>
    simp only [allocated, hm] at hworkers
    refine ⟨htask, hterminate, hwaits, ?_, trivial, rfl⟩
    rw [hworkers]
    exact List.erase_cons_head _ _
  | thread hm =>
    simp only [allocated, Counts, hm] at hworkers hcounts
    refine ⟨htask, hterminate, hwaits, ?_, rfl, by rw [hlive, hm]; rfl⟩
    rw [hworkers, hcounts]
    simp [allocated, List.range_succ]
  | returned hm => exact ⟨htask, hterminate, hwaits, hworkers, hcounts, hlive⟩

/-- The invariant of a run in which only what can happen does. -/
structure Running (s : Creation α τ) : Prop extends Creating s where
  placed : Placed s.pool
  unstarted : ∀ w, s.started ≤ w → s.pool.place w = .lock

theorem running_start (threadNum : Int) : Running ({ threadNum } : Creation α τ) where
  toCreating := creating_start threadNum
  placed := placed_created []
  unstarted _ _ := rfl

theorem Running.create {ok : Bool} (h : Running s) (hm : Create s ok s') : Running s' := by
  refine { toCreating := h.toCreating.create hm, placed := ?_, unstarted := ?_ }
  · cases hm with
    | pool => exact placed_created []
    | thread => exact { h.placed with }
    | _ => exact h.placed
  · cases hm with
    | pool => exact fun _ _ => rfl
    | @thread i hm =>
      have hcounts := h.counts
      simp only [Counts, hm] at hcounts
      exact fun w hw => h.unstarted w (hcounts ▸ Nat.le_of_succ_le hw)
    | _ => exact h.unstarted

theorem started_create {ok : Bool} (hm : Create s ok s') :
    (Starts s (.createThreadPoll ok) → 0 < s'.started) ∧
      (¬ Starts s (.createThreadPoll ok) → s'.started = s.started) := by
  cases hm with
  | thread hm => exact ⟨fun _ => Nat.succ_pos _, fun hn => absurd ⟨rfl, _, hm⟩ hn⟩
  | noPool | noWorker | noThread => exact ⟨fun hs => absurd hs.1 (by simp), fun _ => rfl⟩
  | pool hm | done hm | worker hm | returned hm =>
    refine ⟨?_, fun _ => rfl⟩
    rintro ⟨-, i, hi⟩
    cases hm.symm.trans hi

/-- What changes in the places only. -/
theorem Creating.of_waits {pool : State Nat α τ} (h : Creating s) (htask : pool.task = none)
    (hterminate : pool.terminate = false) (hwaits : ∀ w, (pool.place w).waits) :
    Creating { s with pool } :=
  ⟨htask, hterminate, hwaits, h.workers, h.counts, h.live⟩

variable [DecidableEq α]

/-- A thread that waits and finds no task and no `terminate` goes on to wait. -/
theorem waits_threadCallback {s s' : State Nat α τ} {w : Nat} (htask : s.task = none)
    (hterminate : s.terminate = false) (hw : (s.place w).waits)
    (hr : ThreadPool.threadCallback w s = .ret s') :
    s'.task = none ∧ s'.terminate = false ∧ (s'.place w).waits ∧
      ∀ v, v ≠ w → s'.place v = s.place v := by
  unfold ThreadPool.threadCallback at hr
  cases hp : s.place w with
  | lock | woken | test | testTerminate | wait =>
    rw [hp] at hr
    cases hr
    simp_all [Place.waits, Function.update_of_ne]
  | blocked => rw [hp] at hr; cases hr; exact ⟨htask, hterminate, hw, fun _ _ => rfl⟩
  | testExit | take | call | free | exited => rw [hp] at hw; cases hw

/-- What a step does. A thread that has not left its loop takes a step of `threadCallback`. -/
inductive Moves (s : Creation α τ) : Event → Creation α τ → Prop
  | create {ok : Bool} {s' : Creation α τ} (hm : Create s ok s') : Moves s (.createThreadPoll ok) s'
  | exit {w : Nat} (hp : s.pool.place w = .exited) :
      Moves s (.worker w) { s with workers := s.workers.erase w }
  | run {w : Nat} {pool : State Nat α τ} (hp : s.pool.place w ≠ .exited)
      (hpool : ThreadPool.threadCallback w s.pool = .ret pool) : Moves s (.worker w) { s with pool }
  | wakeUp {w : Nat} (hlive : s.live = true) :
      Moves s (.wakeUp w) { s with pool := s.pool.wake fun v => v = w }

theorem moves_of_step (hr : step e s = .ret s') : Moves s e s' := by
  cases e with
  | createThreadPoll ok => cases hr; exact .create (create_of_createThreadPoll s ok)
  | worker w =>
    simp only [Creation.step, Creation.threadCallback] at hr
    split at hr
    · cases hr; exact .exit ‹_›
    split at hr
    · cases hr
    · obtain ⟨pool, hpool, hr⟩ := Run.bind_eq_ret.mp hr
      cases hr
      exact .run ‹_› hpool
  | wakeUp w =>
    simp only [Creation.step, Creation.wakeUp] at hr
    split at hr
    · cases hr; exact .wakeUp ‹_›
    · cases hr

theorem Creating.step (h : Creating s) (hr : step e s = .ret s') : Creating s' := by
  cases moves_of_step hr with
  | create hm => exact h.create hm
  | @exit w hp =>
    have hw := h.waits w
    rw [hp] at hw
    cases hw
  | @run w pool hp hpool =>
    obtain ⟨htask, hterminate, hw, hother⟩ :=
      waits_threadCallback h.task h.terminate (h.waits w) hpool
    refine h.of_waits htask hterminate fun v => ?_
    by_cases hv : v = w
    · rw [hv]
      exact hw
    · rw [hother v hv]
      exact h.waits v
  | wakeUp hlive =>
    refine h.of_waits h.task h.terminate fun v => ?_
    simp only [State.wake_place]
    split
    · rfl
    · exact h.waits v

/-- A step starts a thread if it is a `pthread_create` that succeeds. -/
theorem started_step (hr : step e s = .ret s') :
    (Starts s e → 0 < s'.started) ∧ (¬ Starts s e → s'.started = s.started) := by
  cases moves_of_step hr with
  | create hm => exact started_create hm
  | exit | run | wakeUp => exact ⟨False.elim, fun _ => rfl⟩

/-- Without a thread, the struct of the worker that could not be started is freed as well. -/
theorem Creating.leavesNothing (h : Creating s) (hnull : s.main = .returned false)
    (hstarted : s.started = 0) : LeavesNothing s where
  untouched e he := by
    cases e with
    | createThreadPoll ok =>
      intro hfault
      cases hfault
    | worker w => exact absurd he.1 (by omega)
    | wakeUp w => exact absurd he.1 (by omega)
  stopped w hw := by omega
  released := by
    rw [h.workers, allocated, hnull, hstarted]
    rfl

/-- **Failed creations, exactly.** For every number of threads and every interleaving of a call of
`createThreadPoll` with the threads that it starts: if it has returned `NULL`, it leaves nothing behind
exactly if none of its calls of `pthread_create` succeeded. -/
theorem leavesNothing_iff {threadNum : Int} {es : List Event} {s : Creation α τ}
    (h : exec step es ({ threadNum } : Creation α τ) = .ret s) (hnull : s.main = .returned false) :
    LeavesNothing s ↔
      Along step (fun s e => ¬ Starts s e) ({ threadNum } : Creation α τ) es := by
  have hrun := exec_or (C := fun s e => ¬ Starts s e) (I := fun s => Creating s ∧ s.started = 0)
    (B := fun s => Creating s ∧ 0 < s.started) ?_ ?_ ?_ ⟨creating_start threadNum, rfl⟩ h
  · rcases hrun with ⟨⟨hs, hstarted⟩, hes⟩ | ⟨⟨hs, hstarted⟩, hes⟩
    · exact iff_of_true (hs.leavesNothing hnull hstarted) hes
    · refine iff_of_false (fun hl => ?_) hes
      -- The first thread has not stopped.
      have hw := hs.waits 0
      rw [hl.stopped 0 hstarted] at hw
      cases hw
  · rintro s e s' ⟨hs, hstarted⟩ hn hr
    exact ⟨hs.step hr, ((started_step hr).2 hn).trans hstarted⟩
  · rintro s e s' ⟨hs, -⟩ hn hr
    exact ⟨hs.step hr, (started_step hr).1 (Classical.not_not.mp hn)⟩
  · rintro s e s' ⟨hs, hstarted⟩ hr
    refine ⟨hs.step hr, ?_⟩
    by_cases hn : Starts s e
    · exact (started_step hr).1 hn
    · rwa [(started_step hr).2 hn]

/-- No thread of the pool of the witness is started. -/
theorem leavesNothing_iff_first :
    let es := [Event.createThreadPoll true, .createThreadPoll true, .createThreadPoll false]
    let s : Creation Nat Nat :=
      { threadNum := 2, main := .returned false, error := "线程创建错误" }
    LeavesNothing s ↔
      Along step (fun s e => ¬ Starts s e) ({ threadNum := 2 } : Creation Nat Nat) es :=
  leavesNothing_iff rfl rfl

/-- The second `pthread_create` fails while the first thread is in its section. -/
def secondFails : List Event :=
  [.createThreadPoll true, .createThreadPoll true, .createThreadPoll true, .worker 0,
    .createThreadPoll true, .createThreadPoll false]

/-- The call has returned `NULL`, the first thread has not stopped, and its next step is one on the
freed pool. -/
theorem not_leavesNothing_second :
    Along step Enabled ({ threadNum := 2 } : Creation Nat Nat) (secondFails ++ [.worker 0]) ∧
    (∃ s, exec step secondFails ({ threadNum := 2 } : Creation Nat Nat) = .ret s ∧
      s.main = .returned false ∧ ¬ LeavesNothing s) ∧
    exec step (secondFails ++ [.worker 0]) ({ threadNum := 2 } : Creation Nat Nat) = .fault :=
  ⟨by decide, ⟨_, rfl, rfl, fun h => absurd (h.stopped 0 (by decide)) (by decide)⟩, rfl⟩

/-! ## The freed pool -/

theorem Running.step (h : Running s) (he : Enabled s e) (hr : step e s = .ret s') : Running s' := by
  have hcreating := h.toCreating.step hr
  cases moves_of_step hr with
  | create hm => exact h.create hm
  | @exit w hp =>
    have hw := h.waits w
    rw [hp] at hw
    cases hw
  | @run w pool hp hpool =>
    obtain ⟨hw, hready⟩ := he
    rw [if_neg hp] at hready
    refine { toCreating := hcreating, placed := ?_, unstarted := fun v hv => ?_ }
    · exact h.placed.move (move_of_worker hready hpool)
    · have hother := (waits_threadCallback h.task h.terminate (h.waits w) hpool).2.2.2
      have hne : v ≠ w := Nat.ne_of_gt (Nat.lt_of_lt_of_le hw hv)
      exact (hother v hne).trans (h.unstarted v hv)
  | wakeUp hlive =>
    refine { toCreating := hcreating, placed := ?_, unstarted := fun v hv => ?_ }
    · exact h.placed.move (.wakeUp he.2)
    · have hlock := h.unstarted v hv
      simp [hlock]

/-- A thread that waits can go on, and uses the pool. -/
theorem Running.fault (h : Running s) {w : Nat} (hw : w < s.started) (hlive : s.live = false)
    (hready : s.pool.place w = .blocked ∨ (s.pool.place w).ready s.pool.mutex.isNone) :
    ∃ e, Enabled s e ∧ Creation.step e s = .fault := by
  rcases hready with hblocked | hready
  · refine ⟨.wakeUp w, ⟨hw, hblocked⟩, ?_⟩
    simp [Creation.step, Creation.wakeUp, hlive]
  · have hwaits := h.waits w
    have hne : s.pool.place w ≠ .exited := fun hp => by rw [hp] at hwaits; cases hwaits
    have huses : (s.pool.place w).usesPool = true := by
      cases hp : s.pool.place w <;> simp_all [Place.waits, Place.usesPool]
    refine ⟨.worker w, ⟨hw, by rwa [if_neg hne]⟩, ?_⟩
    simp [Creation.step, Creation.threadCallback, hne, huses, hlive]

/-- **The freed pool is used.** If a call that has started a thread has returned `NULL`, a thread can
take a step on the pool that was freed. -/
theorem uses_freed {threadNum : Int} {es : List Event} {s : Creation α τ}
    (hes : Along step Enabled ({ threadNum } : Creation α τ) es)
    (h : exec step es ({ threadNum } : Creation α τ) = .ret s) (hnull : s.main = .returned false)
    (hstarted : 0 < s.started) : ∃ e, Enabled s e ∧ step e s = .fault := by
  have hs := exec_invariant (fun _ _ _ h he hr => Running.step h he hr) (running_start threadNum)
    hes h
  have hlive : s.live = false := by rw [hs.live, hnull]; rfl
  cases hm : s.pool.mutex with
  | none =>
    -- The mutex is free, so that the first thread can go on.
    refine hs.fault hstarted hlive ?_
    have hwaits := hs.waits 0
    cases hp : s.pool.place 0 <;> simp_all [Place.waits, Place.ready]
  | some w =>
    have hholds := (hs.placed.holder w).mpr hm
    have hw : w < s.started := by
      refine Nat.lt_of_not_le fun hle => ?_
      rw [hs.unstarted w hle] at hholds
      cases hholds
    refine hs.fault hw hlive (.inr ?_)
    cases hp : s.pool.place w <;> simp_all [Place.holds, Place.ready]

end Creation
end ThreadPool
end LinuxBase
