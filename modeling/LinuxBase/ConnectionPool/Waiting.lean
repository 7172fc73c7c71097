import LinuxBase.ConnectionPool.Ownership
import Mathlib.Logic.Function.Basic

/-!
# Waiting for a connection

The pool with its condition variable. The clients wait on it for a connection and the producer waits
for an empty queue; `notify_all` wakes all of them. A critical section is one step, from the wake-up
of its thread to its release of the mutex or to its next wait.

A client waits with a timeout, and both kinds of threads may wake up for no reason, so a `wakeUp` is
possible whether the thread was notified or not.

The clients wait while the queue is empty. A client that takes a connection notifies, and so does the
producer that made one; the deleter of the `shared_ptr`, which gives a connection back, does not. So
a client is left waiting beside a non-empty queue as soon as a connection comes back while a client
waits, and never otherwise (`notified_iff`).
-/

namespace LinuxBase
namespace Pool

/-- Where a thread is. -/
inductive Wait where
  /-- Outside of the wait. -/
  | running
  /-- In the wait, and not notified yet. -/
  | blocked
  /-- In the wait and notified, on its way back to the mutex. -/
  | notified
  deriving DecidableEq, Repr

/-- The pool with its threads. -/
structure Threads where
  pool : Pool
  client : Client → Wait := fun _ => .running
  producer : Wait := .running

namespace Threads

/-- `notify_all` for a thread. -/
def notify : Wait → Wait
  | .blocked => .notified
  | w => w

def notifyAll (s : Threads) : Threads :=
  { s with client := fun c => notify (s.client c), producer := notify s.producer }

def setClient (s : Threads) (client : Client) (w : Wait) : Threads :=
  { s with client := Function.update s.client client w }

/-- `getConnection`, from its start or from a wake-up in the wait; `timeout` is what the wait
returned. A client that gets a connection notifies the others. -/
def getConnection (client : Client) (timeout : Bool) (s : Threads) : Run Threads :=
  if s.pool.connectionQueue.isEmpty && !timeout then .ret (s.setClient client .blocked)
  else do
    let (connection, pool) ← s.pool.getConnection client
    let s := { s with pool }.setClient client .running
    .ret (if connection.isSome then s.notifyAll else s)

/-- An iteration of `produceConnectionTask`, from its start or from a wake-up. -/
def produceConnectionTask (connected : Bool) (now : Int) (s : Threads) : Threads :=
  if !s.pool.connectionQueue.isEmpty then { s with producer := .blocked }
  else
    let s := { s with pool := s.pool.produceConnectionTask connected now, producer := .running }
    if !s.pool.connectionQueue.isEmpty then s.notifyAll else s

inductive Event where
  /-- A client calls `getConnection`. -/
  | getConnection (client : Client)
  /-- A client wakes up in the wait. -/
  | wakeUp (client : Client) (timeout : Bool)
  | release (client : Client) (connection : Connection) (now : Int)
  | produceConnectionTask (connected : Bool) (now : Int)
  | scannerConnectionTask (clock : Nat → Int)

def step : Event → Threads → Run Threads
  | .getConnection client, s => s.getConnection client false
  | .wakeUp client timeout, s => s.getConnection client timeout
  | .release client connection now, s =>
    .ret { s with pool := s.pool.release client connection now }
  | .produceConnectionTask connected now, s => .ret (s.produceConnectionTask connected now)
  | .scannerConnectionTask clock, s => do
    let pool ← s.pool.scannerConnectionTask clock
    .ret { s with pool }

/-- A client that waits makes no other call, and a client gives back only what it holds. -/
def Enabled (s : Threads) : Event → Prop
  | .getConnection client => s.client client = .running
  | .wakeUp client _ => s.client client ≠ .running
  | .release client connection _ =>
    s.client client = .running ∧ (client, connection) ∈ s.pool.borrowed
  | _ => True

instance (s : Threads) : DecidablePred (Enabled s)
  | .getConnection client => inferInstanceAs (Decidable (s.client client = .running))
  | .wakeUp client _ => inferInstanceAs (Decidable (s.client client ≠ .running))
  | .release client connection _ => inferInstanceAs (Decidable
      (s.client client = .running ∧ (client, connection) ∈ s.pool.borrowed))
  | .produceConnectionTask .. | .scannerConnectionTask _ => .isTrue trivial

/-- Beside a non-empty queue every client in the wait was notified. -/
def Notified (s : Threads) : Prop :=
  s.pool.connectionQueue ≠ [] → ∀ client, s.client client ≠ .blocked

/-- A connection comes back only while no client waits for a notification. -/
def NoneBlocked (s : Threads) : Event → Prop
  | .release .. => ∀ client, s.client client ≠ .blocked
  | _ => True

variable {s s' : Threads}

/-- After a `notify_all` nobody is left. -/
theorem notifyAll_ne_blocked (s : Threads) (client : Client) :
    s.notifyAll.client client ≠ .blocked := by
  simp only [notifyAll]
  cases s.client client <;> simp [notify]

/-- A client waits beside an empty queue only, and one that takes a connection notifies. -/
theorem notified_getConnection {client : Client} {timeout : Bool}
    (hr : s.getConnection client timeout = .ret s') : Notified s' := by
  unfold Threads.getConnection at hr
  split at hr
  · -- The client waits, and the queue is empty.
    rename_i hq
    cases hr
    intro hne
    simp only [setClient] at hne
    simp_all
  · obtain ⟨⟨connection, pool⟩, hget, hr⟩ := Run.bind_eq_ret.mp hr
    cases hq : s.pool.connectionQueue with
    | nil =>
      rw [getConnection_nil hq] at hget
      cases hget
      cases hr
      exact fun hne => absurd hq hne
    | cons c q =>
      rw [getConnection_cons hq] at hget
      cases hget
      cases hr
      exact fun _ => notifyAll_ne_blocked _

/-- The producer notifies whenever it leaves a connection. -/
theorem Notified.produceConnectionTask (h : Notified s) (connected : Bool) (now : Int) :
    Notified (s.produceConnectionTask connected now) := by
  unfold Threads.produceConnectionTask
  split
  · exact h
  · simp only
    split
    · exact fun _ => notifyAll_ne_blocked _
    · rename_i hq
      exact fun hne => absurd (by simpa using hq) hne

theorem Notified.step {e : Event} (h : Notified s) (hn : NoneBlocked s e)
    (hr : Threads.step e s = .ret s') : Notified s' := by
  cases e with
  | getConnection client => exact notified_getConnection hr
  | wakeUp client timeout => exact notified_getConnection hr
  | release client connection now => cases hr; exact fun _ => hn
  | produceConnectionTask connected now => cases hr; exact h.produceConnectionTask connected now
  | scannerConnectionTask clock =>
    obtain ⟨pool, hp, hr⟩ := Run.bind_eq_ret.mp hr
    cases hr
    obtain ⟨⟨q, hq⟩, -⟩ := scannerLoop_suffix rfl hp
    refine fun hne => h ?_
    rw [← hq]
    exact List.append_ne_nil_of_right_ne_nil q hne

/-- **No missed wake-up, exactly.** From any pool that `run` may leave, in every interleaving of
clients, producer and scanner: no client is left in the wait without a notification beside a
non-empty queue, exactly if a connection comes back only while no client waits. -/
theorem notified_iff {pool : Pool} {es : List Event} (hes : Along step Enabled { pool } es) :
    (∀ s, Visits step { pool } es s → Notified s) ↔ Along step NoneBlocked { pool } es := by
  have hstart : Notified { pool } := fun _ client => by simp
  refine visits_iff (I := Notified) (fun _ h => h) ?_ ?_ hstart hes
  · exact fun s e s' h _ hn hr => h.step hn hr
  · intro s e _ _ hn
    cases e with
    | release client connection now =>
      simp only [NoneBlocked, not_forall, not_not] at hn
      obtain ⟨c, hc⟩ := hn
      refine ⟨_, rfl, fun h => h ?_ c hc⟩
      simp [release, push]
    | getConnection | wakeUp | produceConnectionTask | scannerConnectionTask =>
      exact absurd trivial hn

/-- Client `1` waits until the producer makes a connection, and client `0` gives its own back behind
that. -/
theorem notified_iff_small :
    let es := [Event.getConnection 0, .getConnection 1, .produceConnectionTask true 5, .wakeUp 1 false,
      .release 0 ⟨0, true, 0⟩ 9]
    ∀ s, Visits step { pool := smallStart } es s → Notified s := by
  refine (notified_iff (by decide)).mpr ⟨trivial, trivial, trivial, trivial, ?_, trivial⟩
  exact notifyAll_ne_blocked _

/-- Client `1` waits for the connection of client `0`. -/
def unnotified : List Event := [.getConnection 0, .getConnection 1, .release 0 ⟨0, true, 0⟩ 5]

/-- The connection comes back without a notification. -/
theorem not_notified_return :
    (new small).run (fun _ => true) (fun _ => 0) = (true, smallStart) ∧
    Along step Enabled { pool := smallStart } unnotified ∧
    ¬ ∀ s, Visits step { pool := smallStart } unnotified s → Notified s := by
  refine ⟨rfl, by decide, fun h => ?_⟩
  exact h _ ⟨3, rfl⟩ (by decide) 1 (by decide)

end Threads
end Pool
end LinuxBase
