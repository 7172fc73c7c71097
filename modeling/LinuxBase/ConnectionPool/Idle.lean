import LinuxBase.ConnectionPool.Ownership
import Mathlib.Logic.Function.Basic

/-!
# Idle connections

The scanner looks at the head of the queue only and stops at the first connection that has not
expired. Both paths into the queue stamp the connection under the mutex, right before the `push`, so
the stamps are in the order of the readings of the clock (`aliveTimes_sublist`), and behind an
unexpired head nothing has expired (`headScan_complete`).

`clock()` counts `CLOCKS_PER_SEC` ticks a second, `maxIdleTime` counts milliseconds, and the scanner
compares the one with the other. `Timed` is the pool with what the code does not store: when each
connection was created or given back last. A pass deletes only connections that have been idle for
longer than `maxIdleTime` exactly if no reading of the clock in it is more than `maxIdleTime` and at most
`1000 * maxIdleTime` ticks behind the stamp that it is compared with (`longIdle_iff`).
-/

namespace LinuxBase
namespace Pool

variable {p p' : Pool} {clock : Nat → Int}

/-! ## The order of the queue -/

/-- The stamps of the queue, from its front. -/
def aliveTimes (p : Pool) : List Int := p.connectionQueue.map (·.aliveTime)

/-- What `clock()` gives to `refreshAliveTime` in a step, or would give if the producer makes no
connection. -/
def Event.stamps : Event → List Int
  | .release _ _ now => [now]
  | .produceConnectionTask _ now => [now]
  | .getConnection _ | .scannerConnectionTask _ | .destroy => []

/-- A step takes stamps away, and a new one comes in at the back. -/
theorem aliveTimes_sublist {e : Event} (hr : step e p = .ret p') :
    p'.aliveTimes.Sublist (p.aliveTimes ++ e.stamps) := by
  cases moves_of_step hr with
  | empty hq => exact List.sublist_append_left _ _
  | take hq =>
    simp only [aliveTimes, hq, List.map_cons, Event.stamps, List.append_nil]
    exact List.sublist_cons_self _ _
  | release => simp [aliveTimes, release, push, Event.stamps, Connection.refreshAliveTime]
  | wait => exact List.sublist_append_left _ _
  | create hq hlt =>
    simp [aliveTimes, createConnection, push, Event.stamps, Connection.refreshAliveTime]
  | scan hr =>
    obtain ⟨hsuffix, -⟩ := scannerLoop_suffix rfl hr
    simp only [Event.stamps, List.append_nil]
    exact hsuffix.sublist.map _

theorem aliveTimes_run {s : Settings} {connected : Nat → Bool}
    (hrun : (new s).run connected clock = (true, p)) :
    p.aliveTimes = (List.range s.initSize.toNat).map clock := by
  rw [run_eq hrun]
  simp [aliveTimes, Function.comp_def]

/-- If the scanner stops with more than `initSize` connections, it has looked at the head. -/
theorem scannerLoop_head {queue : List Connection} {i : Nat} (hq : p.connectionQueue = queue)
    (hr : scannerLoop clock queue i p = .ret p') (hgt : p'.connectionCount > p'.initSize) :
    ∃ c q, p'.connectionQueue = c :: q ∧
      c.getAliveTime (clock (i + (queue.length - p'.connectionQueue.length))) ≤
        p'.maxIdleTime := by
  induction queue generalizing i p with
  | nil =>
    rw [scannerLoop_nil] at hr
    split at hr
    · cases hr
    · cases hr; contradiction
  | cons c q ih =>
    rw [scannerLoop_cons] at hr
    split at hr
    · obtain ⟨d, rest, hd, hle⟩ := ih rfl hr
      have hlen := (scannerLoop_suffix (by rfl) hr).1.length_le
      refine ⟨d, rest, hd, ?_⟩
      simp only [drop] at hlen
      rw [List.length_cons, show i + (q.length + 1 - p'.connectionQueue.length) =
        i + 1 + (q.length - p'.connectionQueue.length) by omega]
      exact hle
    · rename_i hdel
      cases hr
      refine ⟨c, q, hq, ?_⟩
      rw [hq, Nat.sub_self]
      exact Int.not_lt.mp fun hold => hdel ⟨hgt, hold⟩

/-- **The scan of the head is a full scan.** After `run`, in every interleaving in which the clock
does not go back: the stamps of the queue are in order, and if a pass of the scanner ends with more
than `initSize` connections, because the head has not expired, no connection of the queue has expired
at that reading of the clock. -/
theorem headScan_complete {s : Settings} {connected : Nat → Bool} {clock : Nat → Int}
    {p₀ p : Pool} {es : List Event} (hrun : (new s).run connected clock = (true, p₀))
    (hclock : ((List.range s.initSize.toNat).map clock ++
      es.flatMap Event.stamps).Pairwise (· ≤ ·))
    (hp : exec step es p₀ = .ret p) :
    p.aliveTimes.Pairwise (· ≤ ·) ∧
    ∀ (clock : Nat → Int) (p' : Pool), p.scannerConnectionTask clock = .ret p' →
      p'.connectionCount > p'.initSize → ∀ c ∈ p'.connectionQueue,
        ¬ c.getAliveTime (clock (p.connectionQueue.length - p'.connectionQueue.length)) >
          p'.maxIdleTime := by
  have hsub := exec_sublist (f := aliveTimes) (fun _ _ _ h => aliveTimes_sublist h) hp
  rw [aliveTimes_run hrun] at hsub
  have hsorted := hclock.sublist hsub
  refine ⟨hsorted, fun clock p' hr hgt c hc => ?_⟩
  obtain ⟨d, q, hq, hd⟩ := scannerLoop_head rfl hr hgt
  have hsorted' : p'.aliveTimes.Pairwise (· ≤ ·) :=
    hsorted.sublist ((scannerLoop_suffix rfl hr).1.sublist.map _)
  -- The stamp of `c` is not before that of the head.
  have hle : d.aliveTime ≤ c.aliveTime := by
    rw [aliveTimes, hq, List.map_cons, List.pairwise_cons] at hsorted'
    rw [hq] at hc
    rcases List.mem_cons.mp hc with rfl | hc
    · exact Int.le_refl _
    · exact hsorted'.1 _ (List.mem_map_of_mem hc)
  rw [Nat.zero_add] at hd
  simp only [Connection.getAliveTime] at hd ⊢
  omega

/-- Both connections of the small pool come back, the first one first. -/
def returns : List Event :=
  [.getConnection 0, .produceConnectionTask true 5, .getConnection 1, .release 0 ⟨0, true, 0⟩ 9,
    .release 1 ⟨1, true, 5⟩ 12]

/-- The small pool after `returns`. -/
def returned : Pool :=
  { toSettings := small, connectionCount := 2, connectionQueue := [⟨0, true, 9⟩, ⟨1, true, 12⟩],
    created := 2 }

theorem headScan_complete_small :
    returned.aliveTimes.Pairwise (· ≤ ·) ∧
    ∀ (clock : Nat → Int) (p' : Pool), returned.scannerConnectionTask clock = .ret p' →
      p'.connectionCount > p'.initSize → ∀ c ∈ p'.connectionQueue,
        ¬ c.getAliveTime (clock (returned.connectionQueue.length - p'.connectionQueue.length)) >
          p'.maxIdleTime :=
  @headScan_complete small (fun _ => true) (fun _ => 0) smallStart returned returns rfl (by decide)
    (by decide)

/-! ## What a pass deletes -/

/-- The connections that the scanner's loop deletes, each with the reading of the clock for it. -/
def scannerDeletions (clock : Nat → Int) : List Connection → Nat → Pool → List (Connection × Int)
  | [], _, _ => []
  | connection :: rest, i, p =>
    if p.connectionCount > p.initSize ∧ connection.getAliveTime (clock i) > p.maxIdleTime then
      (connection, clock i) ::
        scannerDeletions clock rest (i + 1) ({ p with connectionQueue := rest }.drop connection)
    else []

/-- A pass that returns has deleted them from the front of the queue; one that faults has deleted the
whole queue before. -/
theorem scannerLoop_deletions (clock : Nat → Int) (queue : List Connection) (i : Nat) (p : Pool)
    (hq : p.connectionQueue = queue) :
    let deletions := (scannerDeletions clock queue i p).map Prod.fst
    match scannerLoop clock queue i p with
    | .ret p' => queue = deletions ++ p'.connectionQueue ∧
        p'.deleted = (deletions.map Connection.id).reverse ++ p.deleted
    | .fault => queue = deletions
    | .more => False := by
  induction queue generalizing i p with
  | nil =>
    rw [scannerLoop_nil, scannerDeletions]
    by_cases hgt : p.connectionCount > p.initSize
    · rw [if_pos hgt]
      rfl
    · rw [if_neg hgt]
      exact ⟨hq.symm, rfl⟩
  | cons c q ih =>
    rw [scannerLoop_cons, scannerDeletions]
    by_cases hdel : p.connectionCount > p.initSize ∧ c.getAliveTime (clock i) > p.maxIdleTime
    swap
    · rw [if_neg hdel, if_neg hdel]
      exact ⟨hq.symm, rfl⟩
    have hrest := ih (i + 1) ({ p with connectionQueue := q }.drop c) rfl
    rw [if_pos hdel, if_pos hdel]
    cases hr : scannerLoop clock q (i + 1) ({ p with connectionQueue := q }.drop c) with
    | ret p' =>
      rw [hr] at hrest
      obtain ⟨h1, h2⟩ := hrest
      refine ⟨congrArg (c :: ·) h1, ?_⟩
      rw [h2]
      simp [drop]
    | fault =>
      rw [hr] at hrest
      exact congrArg (c :: ·) hrest
    | more =>
      rw [hr] at hrest
      exact hrest

/-- The pass comes to the `k`-th connection of the queue: the counter allows it, and those in front
of it have expired. -/
def Reaches (clock : Nat → Int) (p : Pool) (k : Nat) : Prop :=
  p.initSize + k < p.connectionCount ∧
    ∀ j < k, ∀ c, p.connectionQueue[j]? = some c → p.maxIdleTime < clock j - c.aliveTime

theorem mem_scannerDeletions {clock : Nat → Int} {queue : List Connection} {i : Nat} {p : Pool}
    {x : Connection × Int} :
    x ∈ scannerDeletions clock queue i p ↔ ∃ k, queue[k]? = some x.1 ∧ x.2 = clock (i + k) ∧
      p.initSize + k < p.connectionCount ∧ ∀ j ≤ k, ∀ c, queue[j]? = some c →
        c.getAliveTime (clock (i + j)) > p.maxIdleTime := by
  induction queue generalizing i p with
  | nil => simp [scannerDeletions]
  | cons c q ih =>
    rw [scannerDeletions]
    split
    · rename_i h
      obtain ⟨hgt, hold⟩ := h
      rw [List.mem_cons, ih]
      constructor
      · rintro (rfl | ⟨k, hk, hx, hlt, hall⟩)
        · refine ⟨0, rfl, rfl, by simpa using hgt, fun j hj d hd => ?_⟩
          cases Nat.le_zero.mp hj
          cases hd
          exact hold
        · refine ⟨k + 1, hk, by rw [hx]; congr 1; omega, ?_, fun j hj d hd => ?_⟩
          · simp only [drop] at hlt
            omega
          · cases j with
            | zero => cases hd; exact hold
            | succ j =>
              have := hall j (by omega) d hd
              rwa [show i + (j + 1) = i + 1 + j by omega]
      · rintro ⟨k, hk, hx, hlt, hall⟩
        cases k with
        | zero =>
          cases hk
          exact .inl (Prod.ext rfl hx)
        | succ k =>
          refine .inr ⟨k, hk, by rw [hx]; congr 1; omega, ?_, fun j hj d hd => ?_⟩
          · simp only [drop]
            omega
          · have := hall (j + 1) (by omega) d hd
            rwa [show i + 1 + j = i + (j + 1) by omega]
    · rename_i h
      simp only [List.not_mem_nil, false_iff, not_exists, not_and]
      rintro k - - hlt hall
      exact h ⟨by omega, hall 0 (Nat.zero_le k) c rfl⟩

/-! ## The time that passes -/

/-- `CLOCKS_PER_SEC`. -/
def clocksPerSec : Int := 1000000

/-- So many ticks of the clock are more than so many milliseconds. -/
def LongerThan (ticks milliseconds : Int) : Prop := milliseconds * clocksPerSec < ticks * 1000

instance (ticks milliseconds : Int) : Decidable (LongerThan ticks milliseconds) :=
  inferInstanceAs (Decidable (_ < _))

/-- A millisecond has 1000 ticks. -/
theorem longerThan_iff {ticks milliseconds : Int} :
    LongerThan ticks milliseconds ↔ 1000 * milliseconds < ticks := by
  unfold LongerThan clocksPerSec
  omega

def setMaxIdleTime (milliseconds : Int) (p : Pool) : Pool := { p with maxIdleTime := milliseconds }

/-- The pool, and when each connection was created or given back last. -/
structure Timed where
  pool : Pool
  idleSince : Nat → Int

namespace Timed

inductive Event where
  | pool (e : Pool.Event)
  | setMaxIdleTime (milliseconds : Int)

/-- The times after a step. A connection that the producer makes has the next number. -/
def mark (s : Timed) : Pool.Event → Nat → Int
  | .release _ connection now => Function.update s.idleSince connection.id now
  | .produceConnectionTask _ now => Function.update s.idleSince s.pool.created now
  | .getConnection _ | .scannerConnectionTask _ | .destroy => s.idleSince

def step : Event → Timed → Run Timed
  | .pool e, s => do
    let pool ← s.pool.step e
    .ret { pool, idleSince := s.mark e }
  | .setMaxIdleTime milliseconds, s => .ret { s with pool := s.pool.setMaxIdleTime milliseconds }

def Enabled (s : Timed) : Event → Prop
  | .pool e => Pool.Enabled s.pool e
  | .setMaxIdleTime _ => True

instance (s : Timed) : DecidablePred (Enabled s)
  | .pool e => inferInstanceAs (Decidable (Pool.Enabled s.pool e))
  | .setMaxIdleTime _ => .isTrue trivial

/-- A pass deletes only what was created or given back more than `maxIdleTime` milliseconds before. -/
def LongIdle (s : Timed) : Event → Prop
  | .pool (.scannerConnectionTask clock) =>
    ∀ x ∈ scannerDeletions clock s.pool.connectionQueue 0 s.pool,
      LongerThan (x.2 - s.idleSince x.1.id) s.pool.maxIdleTime
  | _ => True

instance (s : Timed) : DecidablePred (LongIdle s)
  | .pool (.scannerConnectionTask clock) => inferInstanceAs (Decidable
      (∀ x ∈ scannerDeletions clock s.pool.connectionQueue 0 s.pool,
        LongerThan (x.2 - s.idleSince x.1.id) s.pool.maxIdleTime))
  | .pool (.getConnection _) | .pool (.release ..) | .pool (.produceConnectionTask ..)
  | .pool .destroy | .setMaxIdleTime _ => .isTrue trivial

/-- Where the pass comes to a connection, the clock is not between `maxIdleTime` and
`1000 * maxIdleTime` ticks behind its stamp. -/
def NoneEarly (s : Timed) : Event → Prop
  | .pool (.scannerConnectionTask clock) =>
    ∀ k c, s.pool.connectionQueue[k]? = some c → Reaches clock s.pool k →
      ¬ (s.pool.maxIdleTime < clock k - c.aliveTime ∧
        clock k - c.aliveTime ≤ 1000 * s.pool.maxIdleTime)
  | _ => True

/-- A queued connection has the time of its creation or its return as its stamp. -/
structure Marked (s : Timed) : Prop extends Owned s.pool where
  since : ∀ c ∈ s.pool.connectionQueue, s.idleSince c.id = c.aliveTime

variable {s s' : Timed}

theorem Marked.step {e : Event} (h : Marked s) (he : Enabled s e) (hr : Timed.step e s = .ret s') :
    Marked s' := by
  cases e with
  | setMaxIdleTime milliseconds => cases hr; exact { h with }
  | pool e =>
    obtain ⟨pool, hpool, hr⟩ := Run.bind_eq_ret.mp hr
    cases hr
    refine { toOwned := h.toOwned.step he hpool, since := fun c hc => ?_ }
    cases moves_of_step hpool with
    | empty hq => exact h.since c hc
    | take hq => exact h.since c (hq ▸ List.mem_cons_of_mem _ hc)
    | release =>
      simp only [release, push, List.mem_append, List.mem_singleton] at hc
      rcases hc with hc | rfl
      · have hne := h.toOwned.queue_ne_borrowed hc he
        exact (Function.update_of_ne hne _ _).trans (h.since c hc)
      · exact Function.update_self _ _ _
    | wait =>
      have hne := Nat.ne_of_lt (h.toOwned.queue_lt_created hc)
      exact (Function.update_of_ne hne _ _).trans (h.since c hc)
    | create hq hlt =>
      simp only [createConnection, push, hq, List.nil_append, List.mem_singleton] at hc
      rw [hc]
      exact Function.update_self _ _ _
    | scan hr => exact h.since c ((scannerLoop_suffix rfl hr).1.subset hc)

/-- The condition is exact for one pass. -/
theorem longIdle_step_iff (h : Marked s) (e : Event) : LongIdle s e ↔ NoneEarly s e := by
  cases e with
  | setMaxIdleTime milliseconds => exact Iff.rfl
  | pool e =>
    cases e with
    | scannerConnectionTask clock =>
      simp only [LongIdle, NoneEarly, longerThan_iff]
      constructor
      · rintro hlong k c hc ⟨hlt, hreach⟩ ⟨hold, hshort⟩
        have hall : ∀ j ≤ k, ∀ d, s.pool.connectionQueue[j]? = some d →
            d.getAliveTime (clock (0 + j)) > s.pool.maxIdleTime := by
          intro j hj d hd
          rw [Nat.zero_add]
          rcases Nat.lt_or_eq_of_le hj with hj | rfl
          · exact hreach j hj d hd
          · cases hc.symm.trans hd
            exact hold
        have hlong := hlong (c, clock (0 + k)) (mem_scannerDeletions.mpr ⟨k, hc, rfl, hlt, hall⟩)
        rw [Nat.zero_add, h.since c (List.mem_of_getElem? hc)] at hlong
        exact absurd hlong (Int.not_lt.mpr hshort)
      · rintro hnone ⟨c, now⟩ hmem
        obtain ⟨k, hc, rfl, hlt, hall⟩ := mem_scannerDeletions.mp hmem
        simp only [Nat.zero_add] at hc hall ⊢
        rw [h.since c (List.mem_of_getElem? hc)]
        refine Int.not_le.mp fun hshort => hnone k c hc ⟨hlt, ?_⟩ ⟨?_, hshort⟩
        · exact fun j hj => hall j (Nat.le_of_lt hj)
        · exact hall k (Nat.le_refl k) c hc
    | getConnection | release | produceConnectionTask | destroy => exact Iff.rfl

/-- Without a positive limit a connection has always been idle for longer than that. -/
theorem noneEarly_of_nonpos (h : s.pool.maxIdleTime ≤ 0) (e : Event) : NoneEarly s e := by
  cases e with
  | setMaxIdleTime milliseconds => trivial
  | pool e =>
    cases e with
    | scannerConnectionTask clock =>
      rintro k c - - ⟨hold, hshort⟩
      omega
    | getConnection | release | produceConnectionTask | destroy => trivial

/-- **The limit, exactly.** After `run`, in every interleaving in which `maxIdleTime` may be set at
any time: the scanner deletes only connections that have been idle for more than `maxIdleTime`
milliseconds exactly if no pass reads the clock more than `maxIdleTime` and at most `1000 * maxIdleTime`
ticks behind the stamp of a connection that it comes to. -/
theorem longIdle_iff {s : Settings} {connected : Nat → Bool} {clock : Nat → Int} {p₀ : Pool}
    {es : List Event} (hrun : (new s).run connected clock = (true, p₀))
    (hes : Along step Enabled { pool := p₀, idleSince := clock } es) :
    Along step LongIdle { pool := p₀, idleSince := clock } es ↔
      Along step NoneEarly { pool := p₀, idleSince := clock } es := by
  refine along_iff (I := Marked) (fun _ _ _ h he hr => h.step he hr)
    (fun _ e h _ => longIdle_step_iff h e) { toOwned := owned_run hrun, since := ?_ } hes
  intro c hc
  rw [run_eq hrun] at hc
  obtain ⟨i, -, rfl⟩ := List.mem_map.mp hc
  rfl

/-- The small pool with a limit of 50 milliseconds deletes a connection after 69.991. -/
theorem longIdle_iff_small :
    let es := .setMaxIdleTime 50 :: smallRun.map .pool
    Along step LongIdle { pool := smallStart, idleSince := fun _ => 0 } es ↔
      Along step NoneEarly { pool := smallStart, idleSince := fun _ => 0 } es :=
  @longIdle_iff small (fun _ => true) (fun _ => 0) smallStart
    (.setMaxIdleTime 50 :: smallRun.map .pool) rfl (by decide)

/-- With the default of 60 seconds it does the same. -/
theorem not_longIdle_small :
    (new small).run (fun _ => true) (fun _ => 0) = (true, smallStart) ∧
    Along step Enabled { pool := smallStart, idleSince := fun _ => 0 } (smallRun.map .pool) ∧
    ¬ Along step LongIdle { pool := smallStart, idleSince := fun _ => 0 } (smallRun.map .pool) :=
  ⟨rfl, by decide, by decide⟩

end Timed

end Pool
end LinuxBase
