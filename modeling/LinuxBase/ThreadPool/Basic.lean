import LinuxBase.Lib.DList
import LinuxBase.Lib.Trace
import Mathlib.Data.Fintype.Basic
import Mathlib.Tactic.Simps.Basic

/-!
# The thread pool (`thread-poll.c`)

A pool with its workers `ω`, the calls of `destroyThreadPool` and the clients that push tasks. An
access to a dead `struct Task` is a `fault`.

* `State`: the fields of `struct ThreadPool`, the memory of the tasks, the place of each thread in
  its code, and a log of what was done to the tasks. A task has its callback and argument as its
  identity (`τ`): its address may come back after the `free`, the task does not.
* A worker's section under the mutex is not one step here but one for each test, so that the writes
  of `destroyThreadPool`, which hold no mutex, can fall between them. A run in which each section is
  one step is a run of these steps. `pushTaskThreadPool` is one step.
* `pthread_cond_wait` is two places: `blocked`, and `woken`, where the thread has to get the mutex
  back. `pthread_cond_signal` wakes at least one blocked thread if there is one, a broadcast wakes
  all of them, and a thread may wake up for no reason.
* `step_move` says once what a step does: all invariants are proved from it.
-/

namespace LinuxBase
namespace ThreadPool

open DList

/-- Where a worker is in `threadCallback`. From `test` to `take` it holds the mutex. -/
inductive Place (α : Type) where
  /-- At `pthread_mutex_lock`. -/
  | lock
  /-- At `while (task == NULL)`. -/
  | test
  /-- At the `if (terminate)` inside the loop. -/
  | testTerminate
  /-- At `pthread_cond_wait`. -/
  | wait
  /-- In `pthread_cond_wait`, asleep. -/
  | blocked
  /-- In `pthread_cond_wait`, on its way back to the mutex. -/
  | woken
  /-- At the `if (terminate)` behind the loop. -/
  | testExit
  /-- At the `DELETE_LIST` of the first task. -/
  | take
  /-- At the callback of the task, or in it. -/
  | call (task : α)
  /-- At the `free` of the task. -/
  | free (task : α)
  /-- Behind the outer loop. -/
  | exited
  deriving DecidableEq, Repr

/-- Where a call of `destroyThreadPool` is. -/
inductive Destroy where
  /-- The call has not begun. -/
  | start
  /-- `terminate` is written. -/
  | terminated
  /-- The broadcast is done, and the mutex is free again. -/
  | broadcasted
  /-- `task = NULL` is written. -/
  | taskCleared
  /-- `worker = NULL` is written. -/
  | finished
  deriving DecidableEq, Repr

/-- What happened to a task. -/
inductive Action (ω τ : Type) where
  | push (t : τ)
  | take (w : ω) (t : τ)
  | call (w : ω) (t : τ)
  | free (w : ω) (t : τ)
  deriving DecidableEq, Repr

/-- The task of an action. -/
def Action.task {ω τ : Type} : Action ω τ → τ
  | .push t | .take _ t | .call _ t | .free _ t => t

/-- The state of a pool and its threads (module doc). -/
structure State (ω α τ : Type) where
  task : Option α := none
  worker : List ω := []
  terminate : Bool := false
  /-- The worker that holds the mutex; the other holders hold it only within a step. -/
  mutex : Option ω := none
  mem : Mem α τ := fun _ => none
  place : ω → Place α := fun _ => .lock
  destroy : Nat → Destroy := fun _ => .start
  /-- The newest action first. -/
  log : List (Action ω τ) := []

/-- What `createThreadPoll` returns, with its list of workers. -/
def created {ω α τ : Type} (worker : List ω) : State ω α τ := { worker }

variable {ω α τ : Type} [DecidableEq ω] [DecidableEq α]

/-! ## The lists -/

/-- `INSERT_LIST(item, list)`: the memory, and the new head. -/
def insertList (m : Mem α τ) (item : α) (list : Option α) : Run (Mem α τ × Option α) := do
  let _ ← Run.ofOption (m item)
  let m := setNext m item list
  match list with
  | some head =>
    let _ ← Run.ofOption (m head)
    .ret (setPrev m head (some item), some item)
  | none => .ret (m, some item)

/-- `DELETE_LIST(item, list)`. -/
def deleteList (m : Mem α τ) (item : α) (list : Option α) : Run (Mem α τ × Option α) := do
  let it ← Run.ofOption (m item)
  let m ← match it.prev with
    | some p => do
      let _ ← Run.ofOption (m p)
      .ret (setNext m p it.next)
    | none => .ret m
  let it ← Run.ofOption (m item)
  let m ← match it.next with
    | some n => do
      let _ ← Run.ofOption (m n)
      .ret (setPrev m n it.prev)
    | none => .ret m
  let it ← Run.ofOption (m item)
  let list := if list = some item then it.next else list
  .ret (setPrev (setNext m item none) item none, list)

namespace State

/-- The thread `w` goes to `p`. -/
@[simps] def move (s : State ω α τ) (w : ω) (p : Place α) : State ω α τ :=
  { s with place := Function.update s.place w p }

@[simps] def lock (s : State ω α τ) (w : ω) : State ω α τ := { s with mutex := some w }

@[simps] def unlock (s : State ω α τ) : State ω α τ := { s with mutex := none }

/-- The blocked threads among `ws` wake up. -/
@[simps] def wake (s : State ω α τ) (ws : ω → Bool) : State ω α τ :=
  { s with place := fun w => if s.place w = .blocked ∧ ws w then .woken else s.place w }

attribute [grind =] move_place move_mutex move_task move_terminate move_destroy lock_place
  lock_mutex lock_task lock_terminate lock_destroy unlock_place unlock_mutex unlock_task
  unlock_terminate unlock_destroy wake_place wake_mutex wake_task wake_terminate wake_destroy
  move_mem move_log lock_mem lock_log unlock_mem unlock_log wake_mem wake_log

/-- The task at `a`. -/
def job (s : State ω α τ) (a : α) : Option τ := (s.mem a).map Cell.val

end State

/-! ## The steps -/

/-- `pushTaskThreadPool` of the zero-initialised task `t` at `item`; the signal wakes `ws`. -/
def pushTaskThreadPool (item : α) (t : τ) (ws : List ω) (s : State ω α τ) : Run (State ω α τ) := do
  let m := Function.update s.mem item (some ⟨none, none, t⟩)
  let (m, task) ← insertList m item s.task
  .ret ({ s with mem := m, task, log := .push t :: s.log }.wake fun w => w ∈ ws)

/-- The next step of `threadCallback` in the thread `w`. -/
def threadCallback (w : ω) (s : State ω α τ) : Run (State ω α τ) :=
  match s.place w with
  | .lock | .woken => .ret ((s.lock w).move w .test)
  | .test => .ret (s.move w (if s.task = none then .testTerminate else .testExit))
  | .testTerminate => .ret (s.move w (if s.terminate then .testExit else .wait))
  | .wait => .ret (s.unlock.move w .blocked)
  | .testExit => .ret (if s.terminate then s.unlock.move w .exited else s.move w .take)
  | .take => do
    let a ← Run.ofOption s.task
    let c ← Run.ofOption (s.mem a)
    let (m, task) ← deleteList s.mem a s.task
    .ret ({ s with mem := m, task, log := .take w c.val :: s.log }.unlock.move w (.call a))
  | .call a => do
    let c ← Run.ofOption (s.mem a)
    .ret ({ s with log := .call w c.val :: s.log }.move w (.free a))
  | .free a => do
    let c ← Run.ofOption (s.mem a)
    .ret ({ s with
      mem := Function.update s.mem a none, log := .free w c.val :: s.log }.move w .lock)
  | .blocked | .exited => .ret s

/-- The next step of the `d`-th call of `destroyThreadPool`. -/
def destroyThreadPool (d : Nat) (s : State ω α τ) : State ω α τ :=
  match s.destroy d with
  | .start => { s with terminate := true, destroy := Function.update s.destroy d .terminated }
  | .terminated =>
    { s.wake fun _ => true with destroy := Function.update s.destroy d .broadcasted }
  | .broadcasted => { s with task := none, destroy := Function.update s.destroy d .taskCleared }
  | .taskCleared => { s with worker := [], destroy := Function.update s.destroy d .finished }
  | .finished => s

inductive Event (ω α τ : Type) where
  | push (item : α) (t : τ) (ws : List ω)
  | worker (w : ω)
  | wakeUp (w : ω)
  | destroy (d : Nat)

def step : Event ω α τ → State ω α τ → Run (State ω α τ)
  | .push item t ws, s => pushTaskThreadPool item t ws s
  | .worker w, s => threadCallback w s
  | .wakeUp w, s => .ret (s.wake fun v => v = w)
  | .destroy d, s => .ret (destroyThreadPool d s)

/-- The thread can take its next step; `free` says that the mutex is. -/
def Place.ready (free : Bool) : Place α → Bool
  | .lock | .woken => free
  | .blocked | .exited => false
  | _ => true

def Destroy.ready (free : Bool) : Destroy → Bool
  | .terminated => free
  | .finished => false
  | _ => true

/-- What the mutex, the condition variable and the clients promise: a thread gets the mutex when it
is free, a signal wakes a blocked thread if there is one, and each pushed task is a new one. -/
def Enabled (s : State ω α τ) : Event ω α τ → Prop
  | .push item t ws => s.mutex = none ∧ s.mem item = none ∧ .push t ∉ s.log ∧
      (∀ w ∈ ws, s.place w = .blocked) ∧ ((∃ w, s.place w = .blocked) → ws ≠ [])
  | .worker w => (s.place w).ready s.mutex.isNone
  | .wakeUp w => s.place w = .blocked
  | .destroy d => (s.destroy d).ready s.mutex.isNone

instance [Fintype ω] [DecidableEq τ] (s : State ω α τ) : DecidablePred (Enabled s)
  | .push item t ws => inferInstanceAs (Decidable (s.mutex = none ∧ s.mem item = none ∧
      .push t ∉ s.log ∧ (∀ w ∈ ws, s.place w = .blocked) ∧
      ((∃ w, s.place w = .blocked) → ws ≠ [])))
  | .worker w => inferInstanceAs (Decidable ((s.place w).ready s.mutex.isNone = true))
  | .wakeUp w => inferInstanceAs (Decidable (s.place w = .blocked))
  | .destroy d => inferInstanceAs (Decidable ((s.destroy d).ready s.mutex.isNone = true))

/-! ## What a step does -/

/-- The steps, one constructor for each branch of the code, with what the branch found. -/
inductive Move (s : State ω α τ) : Event ω α τ → State ω α τ → Prop
  | push {item : α} {t : τ} {ws : List ω} {m : Mem α τ} (hmutex : s.mutex = none)
      (hfree : s.mem item = none) (hnew : .push t ∉ s.log)
      (hws : ∀ w ∈ ws, s.place w = .blocked) (hwake : (∃ w, s.place w = .blocked) → ws ≠ [])
      (hm : insertList (Function.update s.mem item (some ⟨none, none, t⟩)) item s.task =
        .ret (m, some item)) :
      Move s (.push item t ws)
        ({ s with mem := m, task := some item, log := .push t :: s.log }.wake fun w => w ∈ ws)
  | lock {w : ω} (hp : s.place w = .lock ∨ s.place w = .woken) (hmutex : s.mutex = none) :
      Move s (.worker w) ((s.lock w).move w .test)
  | empty {w : ω} (hp : s.place w = .test) (ht : s.task = none) :
      Move s (.worker w) (s.move w .testTerminate)
  | found {w : ω} (hp : s.place w = .test) (ht : s.task ≠ none) :
      Move s (.worker w) (s.move w .testExit)
  | leave {w : ω} (hp : s.place w = .testTerminate) (ht : s.terminate = true) :
      Move s (.worker w) (s.move w .testExit)
  | sleep {w : ω} (hp : s.place w = .testTerminate) (ht : s.terminate = false) :
      Move s (.worker w) (s.move w .wait)
  | block {w : ω} (hp : s.place w = .wait) : Move s (.worker w) (s.unlock.move w .blocked)
  | exit {w : ω} (hp : s.place w = .testExit) (ht : s.terminate = true) :
      Move s (.worker w) (s.unlock.move w .exited)
  | go {w : ω} (hp : s.place w = .testExit) (ht : s.terminate = false) :
      Move s (.worker w) (s.move w .take)
  | take {w : ω} {a : α} {c : Cell α τ} {m : Mem α τ} {task : Option α} (hp : s.place w = .take)
      (ha : s.task = some a) (hc : s.mem a = some c)
      (hm : deleteList s.mem a (some a) = .ret (m, task)) :
      Move s (.worker w)
        ({ s with mem := m, task, log := .take w c.val :: s.log }.unlock.move w (.call a))
  | call {w : ω} {a : α} {c : Cell α τ} (hp : s.place w = .call a) (hc : s.mem a = some c) :
      Move s (.worker w) ({ s with log := .call w c.val :: s.log }.move w (.free a))
  | free {w : ω} {a : α} {c : Cell α τ} (hp : s.place w = .free a) (hc : s.mem a = some c) :
      Move s (.worker w) ({ s with
        mem := Function.update s.mem a none, log := .free w c.val :: s.log }.move w .lock)
  | wakeUp {w : ω} (hp : s.place w = .blocked) : Move s (.wakeUp w) (s.wake fun v => v = w)
  | terminate {d : Nat} (hd : s.destroy d = .start) :
      Move s (.destroy d)
        { s with terminate := true, destroy := Function.update s.destroy d .terminated }
  | broadcast {d : Nat} (hd : s.destroy d = .terminated) (hmutex : s.mutex = none) :
      Move s (.destroy d)
        { s.wake fun _ => true with destroy := Function.update s.destroy d .broadcasted }
  | clearTask {d : Nat} (hd : s.destroy d = .broadcasted) :
      Move s (.destroy d)
        { s with task := none, destroy := Function.update s.destroy d .taskCleared }
  | clearWorker {d : Nat} (hd : s.destroy d = .taskCleared) :
      Move s (.destroy d)
        { s with worker := [], destroy := Function.update s.destroy d .finished }

theorem insertList_head {m m' : Mem α τ} {item : α} {list list' : Option α}
    (h : insertList m item list = .ret (m', list')) : list' = some item := by
  obtain ⟨_, -, h⟩ := Run.bind_eq_ret.mp h
  cases list with
  | none => cases h; rfl
  | some head =>
    obtain ⟨_, -, h⟩ := Run.bind_eq_ret.mp h
    cases h; rfl

theorem move_of_worker {s s' : State ω α τ} {w : ω} (he : Enabled s (.worker w))
    (h : threadCallback w s = .ret s') : Move s (.worker w) s' := by
  have hready : (s.place w).ready s.mutex.isNone = true := he
  unfold threadCallback at h
  cases hp : s.place w with
  | lock | woken =>
    rw [hp] at h hready
    cases h
    exact .lock (by simp [hp]) (by simpa [Place.ready] using hready)
  | test =>
    rw [hp] at h
    cases h
    split
    · exact .empty hp ‹_›
    · exact .found hp ‹_›
  | testTerminate =>
    rw [hp] at h
    cases h
    split
    · exact .leave hp ‹_›
    · exact .sleep hp (Bool.eq_false_iff.mpr ‹_›)
  | wait => rw [hp] at h; cases h; exact .block hp
  | testExit =>
    rw [hp] at h
    cases h
    split
    · exact .exit hp ‹_›
    · exact .go hp (Bool.eq_false_iff.mpr ‹_›)
  | take =>
    rw [hp] at h
    obtain ⟨a, ha, h⟩ := Run.bind_eq_ret.mp h
    obtain ⟨c, hc, h⟩ := Run.bind_eq_ret.mp h
    obtain ⟨⟨m, task⟩, hm, h⟩ := Run.bind_eq_ret.mp h
    cases h
    have ha' := Run.ofOption_eq_ret.mp ha
    exact .take hp ha' (Run.ofOption_eq_ret.mp hc) (ha' ▸ hm)
  | call a =>
    rw [hp] at h
    obtain ⟨c, hc, h⟩ := Run.bind_eq_ret.mp h
    cases h
    exact .call hp (Run.ofOption_eq_ret.mp hc)
  | free a =>
    rw [hp] at h
    obtain ⟨c, hc, h⟩ := Run.bind_eq_ret.mp h
    cases h
    exact .free hp (Run.ofOption_eq_ret.mp hc)
  | blocked | exited => rw [hp] at hready; cases hready

theorem move_of_destroy {s : State ω α τ} {d : Nat} (he : Enabled s (.destroy d)) :
    Move s (.destroy d) (destroyThreadPool d s) := by
  have hready : (s.destroy d).ready s.mutex.isNone = true := he
  unfold destroyThreadPool
  cases hd : s.destroy d with
  | start => exact .terminate hd
  | terminated =>
    rw [hd] at hready
    exact .broadcast hd (by simpa [Destroy.ready] using hready)
  | broadcasted => exact .clearTask hd
  | taskCleared => exact .clearWorker hd
  | finished => rw [hd] at hready; cases hready

/-- **What a step does.** -/
theorem step_move {s s' : State ω α τ} {e : Event ω α τ} (he : Enabled s e)
    (h : step e s = .ret s') : Move s e s' := by
  cases e with
  | push item t ws =>
    obtain ⟨hmutex, hfree, hnew, hws, hwake⟩ := he
    obtain ⟨⟨m, task⟩, hm, h⟩ := Run.bind_eq_ret.mp h
    cases h
    cases insertList_head hm
    exact .push hmutex hfree hnew hws hwake hm
  | worker w => exact move_of_worker he h
  | wakeUp w => cases h; exact .wakeUp he
  | destroy d => cases h; exact move_of_destroy he

end ThreadPool
end LinuxBase
