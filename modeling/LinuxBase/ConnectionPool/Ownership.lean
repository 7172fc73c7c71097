import LinuxBase.ConnectionPool.Basic
import Mathlib.Data.List.Perm.Basic
import Mathlib.Data.List.Nodup

/-!
# Ownership of the pool's connections

`Owned`: the connections in the queue, the borrowed ones and the deleted ones are together the
created ones, each once (a permutation of `0, 1, ..., created - 1`), and the counter counts the
first two. Every step keeps it (`Owned.step`).

`Sized`: the bounds of the counter. `run` establishes them, and the guards of the producer and of
the scanner keep them. `Inv` is both; `connections_owned` reads it off for every run.
-/

namespace LinuxBase
namespace Pool

def queueIds (p : Pool) : List Nat := p.connectionQueue.map (·.id)

def borrowedIds (p : Pool) : List Nat := p.borrowed.map (·.2.id)

/-- Each created connection is in one place, and the counter counts the ones that are not deleted
(module doc). -/
structure Owned (p : Pool) : Prop where
  places : (p.queueIds ++ p.borrowedIds ++ p.deleted).Perm (List.range p.created)
  count : p.connectionCount = p.connectionQueue.length + p.borrowed.length

/-- The bounds of the counter, for the sizes that were set before `run`. -/
structure Sized (s : Settings) (p : Pool) : Prop where
  settings : p.toSettings = s
  initSize_le : s.initSize ≤ p.connectionCount
  le_maxSize : p.connectionCount ≤ s.maxSize

/-- The invariant of the running pool. -/
structure Inv (s : Settings) (p : Pool) : Prop extends Owned p, Sized s p

/-! ## The invariant, operation by operation -/

theorem Owned.createConnection {p : Pool} (h : Owned p) (connected : Bool) (now : Int) :
    Owned (p.createConnection connected now) where
  places := by
    have hp := h.places
    simp only [queueIds, borrowedIds, Pool.createConnection, push, List.map_append, List.map_cons,
      List.map_nil, List.range_succ, Connection.refreshAliveTime] at hp ⊢
    -- The new id moves from the end of the queue to the end of the range.
    refine List.Perm.trans ?_ (hp.append_right [p.created])
    simp only [List.append_assoc]
    exact List.Perm.append_left _ (List.perm_append_comm.trans (by simp))
  count := by
    have := h.count
    simp only [Pool.createConnection, push, List.length_append, List.length_cons, List.length_nil]
    omega

theorem Owned.getConnection {p : Pool} (h : Owned p) {client : Client} {c : Connection}
    {q : List Connection} (hq : p.connectionQueue = c :: q) :
    Owned { p with connectionQueue := q, borrowed := (client, c) :: p.borrowed } where
  places := by
    have hp := h.places
    simp only [queueIds, borrowedIds, hq, List.map_cons, List.cons_append] at hp ⊢
    refine List.Perm.trans ?_ hp
    simp only [List.append_assoc, List.cons_append]
    exact List.perm_middle
  count := by
    have := h.count
    simp only [hq, List.length_cons] at this ⊢
    omega

theorem Owned.release {p : Pool} (h : Owned p) {client : Client} {c : Connection} {now : Int}
    (hc : (client, c) ∈ p.borrowed) : Owned (p.release client c now) where
  places := by
    have hp := h.places
    have hb := (List.perm_cons_erase hc).map (·.2.id)
    simp only [queueIds, borrowedIds, Pool.release, push, List.map_append, List.map_cons,
      List.map_nil, Connection.refreshAliveTime] at hp hb ⊢
    refine List.Perm.trans ?_ hp
    refine List.Perm.append_right _ ?_
    rw [List.append_assoc]
    exact List.Perm.append_left _ hb.symm
  count := by
    have := h.count
    have hl := List.length_erase_of_mem hc
    have hpos := List.length_pos_of_mem hc
    simp only [Pool.release, push, List.length_append, List.length_cons, List.length_nil, hl]
    omega

theorem Owned.drop {p : Pool} (h : Owned p) {c : Connection} {q : List Connection}
    (hq : p.connectionQueue = c :: q) : Owned ({ p with connectionQueue := q }.drop c) where
  places := by
    have hp := h.places
    simp only [queueIds, borrowedIds, hq, Pool.drop, List.map_cons, List.cons_append] at hp ⊢
    exact List.Perm.trans List.perm_middle hp
  count := by
    have := h.count
    simp only [hq, Pool.drop, List.length_cons] at this ⊢
    omega

theorem Owned.step {p p' : Pool} {e : Event} (h : Owned p) (he : Enabled p e)
    (hr : Pool.step e p = .ret p') : Owned p' := by
  cases moves_of_step hr with
  | empty hq => exact { h with }
  | take hq => exact h.getConnection hq
  | release => exact h.release he
  | wait => exact h
  | create hq hlt => exact h.createConnection _ _
  | scan hr => exact scannerLoop_invariant (fun _ _ _ h hq _ => h.drop hq) h rfl hr

/-- The producer makes a connection below `maxSize`, and the scanner deletes only while the counter
is above `initSize`. -/
theorem Sized.step {s : Settings} {p p' : Pool} {e : Event} (h : Sized s p)
    (hr : Pool.step e p = .ret p') : Sized s p' := by
  have hs := h.settings
  subst hs
  cases moves_of_step hr with
  | empty hq => exact { h with }
  | take hq => exact { h with }
  | release => exact { h with }
  | wait => exact h
  | create hq hlt =>
    have hle := h.initSize_le
    refine ⟨rfl, ?_, ?_⟩ <;> simp only [Pool.createConnection, push] <;> omega
  | scan hr =>
    refine scannerLoop_invariant (I := Sized p.toSettings) ?_ h rfl hr
    rintro q c rest ⟨hset, hmin, hmax⟩ - hgt
    have hinit : q.initSize = p.initSize := congrArg Settings.initSize hset
    refine ⟨hset, ?_, ?_⟩ <;> simp only [Pool.drop] <;> omega

/-- Every step of every thread keeps the invariant. -/
theorem Inv.step {s : Settings} {p p' : Pool} {e : Event} (h : Inv s p) (he : Enabled p e)
    (hr : Pool.step e p = .ret p') : Inv s p' :=
  { toOwned := h.toOwned.step he hr, toSized := h.toSized.step hr }

/-! ## The invariant after `run` -/

theorem owned_run {s : Settings} {connected : Nat → Bool} {clock : Nat → Int} {p : Pool}
    (hrun : (new s).run connected clock = (true, p)) : Owned p := by
  rw [run_eq hrun]
  refine ⟨?_, ?_⟩
  · simp [queueIds, borrowedIds, new, Function.comp_def]
  · simp [new]

theorem inv_run {s : Settings} {connected : Nat → Bool} {clock : Nat → Int} {p : Pool}
    (h0 : 0 ≤ s.initSize) (hle : s.initSize ≤ s.maxSize)
    (hrun : (new s).run connected clock = (true, p)) : Inv s p := by
  have hn : (s.initSize.toNat : Int) = s.initSize := Int.toNat_of_nonneg h0
  refine { toOwned := owned_run hrun, toSized := ?_ }
  rw [run_eq hrun]
  refine ⟨rfl, ?_, ?_⟩ <;> simp only [hn] <;> omega

theorem inv_exec {s : Settings} {connected : Nat → Bool} {clock : Nat → Int} {p₀ p : Pool}
    {es : List Event} (h0 : 0 ≤ s.initSize) (hle : s.initSize ≤ s.maxSize)
    (hrun : (new s).run connected clock = (true, p₀)) (hes : Along step Enabled p₀ es)
    (hp : exec step es p₀ = .ret p) : Inv s p :=
  exec_invariant (fun _ _ _ => Inv.step) (inv_run h0 hle hrun) hes hp

/-! ## Ownership in every reachable state -/

theorem Owned.count_eq_one {p : Pool} (h : Owned p) {i : Nat} (hi : i < p.created) :
    p.queueIds.count i + p.borrowedIds.count i + p.deleted.count i = 1 := by
  have hc := h.places.count_eq i
  rw [List.count_append, List.count_append] at hc
  rw [hc]
  exact List.count_eq_one_of_mem List.nodup_range (List.mem_range.mpr hi)

theorem Owned.lt_created {p : Pool} (h : Owned p) {i : Nat}
    (hi : i ∈ p.queueIds ++ p.borrowedIds ++ p.deleted) : i < p.created :=
  List.mem_range.mp (h.places.mem_iff.mp hi)

theorem Owned.queue_lt_created {p : Pool} (h : Owned p) {c : Connection}
    (hc : c ∈ p.connectionQueue) : c.id < p.created :=
  h.lt_created (List.mem_append_left _ (List.mem_append_left _ (List.mem_map_of_mem hc)))

/-- A queued connection is not a borrowed one. -/
theorem Owned.queue_ne_borrowed {p : Pool} (h : Owned p) {c : Connection}
    (hc : c ∈ p.connectionQueue) {x : Client × Connection} (hx : x ∈ p.borrowed) :
    c.id ≠ x.2.id := by
  intro heq
  have hcount := h.count_eq_one (h.queue_lt_created hc)
  have hqueue := List.count_pos_iff.mpr (List.mem_map_of_mem (f := (·.id)) hc)
  have hborrowed := List.count_pos_iff.mpr (List.mem_map_of_mem (f := (·.2.id)) hx)
  rw [← heq] at hborrowed
  simp only [queueIds, borrowedIds] at hcount
  omega

/-- A queued connection is not deleted. -/
theorem Owned.not_deleted {p : Pool} (h : Owned p) {c : Connection} (hc : c ∈ p.connectionQueue) :
    c.id ∉ p.deleted := by
  intro hdel
  have hcount := h.count_eq_one (h.queue_lt_created hc)
  have hqueue := List.count_pos_iff.mpr (List.mem_map_of_mem (f := (·.id)) hc)
  have hdeleted := List.count_pos_iff.mpr hdel
  simp only [queueIds] at hcount
  omega

/-- **Ownership.** After a successful `run` with `0 ≤ initSize ≤ maxSize`, in every state of every
interleaving: a connection that was created and not deleted is once in the queue or once with one
client, a deleted one is in neither, the counter counts exactly the former, and it stays between
`initSize` and `maxSize`. -/
theorem connections_owned {s : Settings} {connected : Nat → Bool} {clock : Nat → Int}
    {p₀ p : Pool} {es : List Event} (h0 : 0 ≤ s.initSize) (hle : s.initSize ≤ s.maxSize)
    (hrun : (new s).run connected clock = (true, p₀)) (hes : Along step Enabled p₀ es)
    (hp : exec step es p₀ = .ret p) :
    (∀ i, i < p.created → i ∉ p.deleted → p.queueIds.count i + p.borrowedIds.count i = 1) ∧
    (∀ i ∈ p.queueIds ++ p.borrowedIds, i < p.created ∧ i ∉ p.deleted) ∧
    p.connectionCount = p.connectionQueue.length + p.borrowed.length ∧
    s.initSize ≤ p.connectionCount ∧ p.connectionCount ≤ s.maxSize := by
  have h := inv_exec h0 hle hrun hes hp
  refine ⟨fun i hi hd => ?_, fun i hi => ?_, h.count, h.initSize_le, h.le_maxSize⟩
  · have hc := h.toOwned.count_eq_one hi
    rw [List.count_eq_zero_of_not_mem hd] at hc
    exact hc
  · have hlt := h.toOwned.lt_created (List.mem_append_left _ hi)
    refine ⟨hlt, fun hd => ?_⟩
    -- A deleted connection in the queue or with a client would be in two places.
    have hc := h.toOwned.count_eq_one hlt
    have h1 := List.count_pos_iff.mpr hi
    have h2 := List.count_pos_iff.mpr hd
    rw [List.count_append] at h1
    omega

/-- A pool of one or two connections. -/
def small : Settings :=
  { ip := "host", username := "user", password := "pw", dbname := "db", initSize := 1, maxSize := 2 }

/-- The small pool when its producer and its scanner start. -/
def smallStart : Pool := ((new small).run (fun _ => true) fun _ => 0).2

/-- Client `0` takes the first connection, the producer makes a second one for client `1`, and the
scanner deletes the first one after its return. -/
def smallRun : List Event :=
  [.getConnection 0, .produceConnectionTask true 5, .getConnection 1, .release 0 ⟨0, true, 0⟩ 9,
    .scannerConnectionTask fun _ => 70000]

def smallEnd : Pool :=
  { toSettings := small, connectionCount := 1, borrowed := [(1, ⟨1, true, 5⟩)], created := 2,
    deleted := [0] }

theorem connections_owned_small :
    (∀ i, i < smallEnd.created → i ∉ smallEnd.deleted →
      smallEnd.queueIds.count i + smallEnd.borrowedIds.count i = 1) ∧
    (∀ i ∈ smallEnd.queueIds ++ smallEnd.borrowedIds,
      i < smallEnd.created ∧ i ∉ smallEnd.deleted) ∧
    smallEnd.connectionCount = smallEnd.connectionQueue.length + smallEnd.borrowed.length ∧
    small.initSize ≤ smallEnd.connectionCount ∧ smallEnd.connectionCount ≤ small.maxSize :=
  @connections_owned small (fun _ => true) (fun _ => 0) smallStart smallEnd smallRun (by decide)
    (by decide) rfl (by decide) (by decide)

end Pool
end LinuxBase
