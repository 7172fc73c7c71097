import LinuxBase.ConnectionPool.EmptyQueue
import Mathlib.Data.List.Perm.Subperm
import Mathlib.Logic.Function.Basic

/-!
# Clients that run `mysqlInsert` (`test-connection-poll.cpp`)

The loop of `mysqlInsert` takes a connection, reads its handle `db`, and queries it. The
`shared_ptr` `connect` lives in the block of the `if` only, so its deleter gives the connection back
before `mysql_real_query` uses `db`.

* `Clients`: the pool and, for each client, its place in the loop (`Place`) with the counter `i`. A
  step of a client is what it does up to its next place; `connect->db()` on the null `shared_ptr`
  and a query on a handle that the scanner has deleted are a `fault`.
* The producer and the scanner take their steps at any time. The clock and the results of
  `mysql_real_connect` are arguments of the events, and `rounds` is the bound of the loop (10000).

`clients_safe_iff` says for which sizes and numbers of clients no interleaving faults. In `main`
there is one client, and then one connection is enough. `shared_iff` says when two clients can
be in a query on one connection.
-/

namespace LinuxBase
namespace Pool

/-- Where a client is in the loop of `mysqlInsert`. -/
inductive Place where
  /-- Before `getConnection`. -/
  | start
  /-- In the block in which `connect` lives. -/
  | connected (c : Connection)
  /-- Behind this block: `db` is what is left of `c`. -/
  | returned (c : Connection)
  /-- In `mysql_real_query` on the handle of `c`. -/
  | querying (c : Connection)
  deriving DecidableEq, Repr

/-- A client: its place and its loop counter. -/
structure Inserter where
  place : Place := .start
  i : Nat := 0
  deriving DecidableEq, Repr

/-- The pool and its clients. -/
structure Clients where
  pool : Pool
  thread : Client → Inserter := fun _ => {}

namespace Clients

def place (s : Clients) (t : Client) : Place := (s.thread t).place

/-- The client `t` goes on to `x`. -/
def move (s : Clients) (t : Client) (x : Place) : Clients :=
  { s with thread := Function.update s.thread t { s.thread t with place := x } }

/-- The client `t` goes on to the next iteration. -/
def next (s : Clients) (t : Client) : Clients :=
  { s with thread := Function.update s.thread t { i := (s.thread t).i + 1 } }

/-- One step of the client `t` in the loop of `mysqlInsert`; `now` is for the deleter. -/
def mysqlInsert (t : Client) (now : Int) (s : Clients) : Run Clients :=
  match s.place t with
  | .start => do
    let (connect, pool) ← s.pool.getConnection t
    let connect ← .ofOption connect
    .ret ({ s with pool }.move t (.connected connect))
  | .connected c => .ret ({ s with pool := s.pool.release t c now }.move t (.returned c))
  | .returned c => if c.id ∈ s.pool.deleted then .fault else .ret (s.move t (.querying c))
  | .querying c => if c.id ∈ s.pool.deleted then .fault else .ret (s.next t)

inductive Event where
  | mysqlInsert (client : Client) (now : Int)
  | produceConnectionTask (connected : Bool) (now : Int)
  | scannerConnectionTask (clock : Nat → Int)

def step : Event → Clients → Run Clients
  | .mysqlInsert t now, s => s.mysqlInsert t now
  | .produceConnectionTask connected now, s =>
    .ret { s with pool := s.pool.produceConnectionTask connected now }
  | .scannerConnectionTask clock, s => do
    let pool ← s.pool.scannerConnectionTask clock
    .ret { s with pool }

/-- There are `k` clients, and each of them has `rounds` iterations. -/
def Enabled (k rounds : Nat) (s : Clients) : Event → Prop
  | .mysqlInsert t _ => t < k ∧ (s.thread t).i < rounds
  | _ => True

instance (k rounds : Nat) (s : Clients) : ∀ e, Decidable (Enabled k rounds s e)
  | .mysqlInsert t _ => inferInstanceAs (Decidable (t < k ∧ (s.thread t).i < rounds))
  | .produceConnectionTask .. | .scannerConnectionTask _ => .isTrue trivial

@[simp] theorem move_pool (s : Clients) (t : Client) (x : Place) : (s.move t x).pool = s.pool := rfl

@[simp] theorem next_pool (s : Clients) (t : Client) : (s.next t).pool = s.pool := rfl

theorem move_place (s : Clients) (t u : Client) (x : Place) :
    (s.move t x).place u = if u = t then x else s.place u := by
  unfold place move
  by_cases h : u = t
  · subst h; simp
  · simp [h]

theorem next_place (s : Clients) (t u : Client) :
    (s.next t).place u = if u = t then .start else s.place u := by
  unfold place next
  by_cases h : u = t
  · subst h; simp
  · simp [h]

/-! ## What a step does -/

variable {s s' : Clients} {t : Client} {now : Int}

theorem mysqlInsert_nil (hp : s.place t = .start) (hq : s.pool.connectionQueue = []) :
    s.mysqlInsert t now = .fault := by
  simp only [mysqlInsert, hp, getConnection_nil hq, Run.ret_bind]
  rfl

theorem mysqlInsert_cons {c : Connection} {q : List Connection} (hp : s.place t = .start)
    (hq : s.pool.connectionQueue = c :: q) :
    s.mysqlInsert t now = .ret ({ s with
      pool := { s.pool with connectionQueue := q, borrowed := (t, c) :: s.pool.borrowed } }.move t
        (.connected c)) := by
  simp only [mysqlInsert, hp, getConnection_cons hq, Run.ret_bind, Run.ofOption_some]

theorem mysqlInsert_connected {c : Connection} (hp : s.place t = .connected c) :
    s.mysqlInsert t now =
      .ret ({ s with pool := s.pool.release t c now }.move t (.returned c)) := by
  simp only [mysqlInsert, hp]

theorem mysqlInsert_returned {c : Connection} (hp : s.place t = .returned c) :
    s.mysqlInsert t now =
      if c.id ∈ s.pool.deleted then .fault else .ret (s.move t (.querying c)) := by
  simp only [mysqlInsert, hp]

theorem mysqlInsert_querying {c : Connection} (hp : s.place t = .querying c) :
    s.mysqlInsert t now = if c.id ∈ s.pool.deleted then .fault else .ret (s.next t) := by
  simp only [mysqlInsert, hp]

/-- What a step does, with what it found. -/
inductive Moves (s : Clients) : Event → Clients → Prop
  | take {t : Client} {now : Int} {c : Connection} {q : List Connection}
      (hp : s.place t = .start) (hq : s.pool.connectionQueue = c :: q) :
      Moves s (.mysqlInsert t now) ({ s with
        pool := { s.pool with connectionQueue := q, borrowed := (t, c) :: s.pool.borrowed } }.move t
          (.connected c))
  | release {t : Client} {now : Int} {c : Connection} (hp : s.place t = .connected c) :
      Moves s (.mysqlInsert t now)
        ({ s with pool := s.pool.release t c now }.move t (.returned c))
  | query {t : Client} {now : Int} {c : Connection} (hp : s.place t = .returned c) :
      Moves s (.mysqlInsert t now) (s.move t (.querying c))
  | done {t : Client} {now : Int} {c : Connection} (hp : s.place t = .querying c) :
      Moves s (.mysqlInsert t now) (s.next t)
  | wait {connected : Bool} {now : Int} : Moves s (.produceConnectionTask connected now) s
  | create {connected : Bool} {now : Int} (hq : s.pool.connectionQueue = [])
      (hlt : s.pool.connectionCount < s.pool.maxSize) :
      Moves s (.produceConnectionTask connected now)
        { s with pool := s.pool.createConnection connected now }
  | scan {clock : Nat → Int} {p' : Pool}
      (hr : scannerLoop clock s.pool.connectionQueue 0 s.pool = .ret p') :
      Moves s (.scannerConnectionTask clock) { s with pool := p' }

theorem moves_of_step {e : Event} (hr : step e s = .ret s') : Moves s e s' := by
  cases e with
  | mysqlInsert t now =>
    change s.mysqlInsert t now = .ret s' at hr
    cases hp : s.place t with
    | start =>
      cases hq : s.pool.connectionQueue with
      | nil => rw [mysqlInsert_nil hp hq] at hr; cases hr
      | cons c q =>
        rw [mysqlInsert_cons hp hq] at hr
        cases hr
        exact .take hp hq
    | connected c =>
      rw [mysqlInsert_connected hp] at hr
      cases hr
      exact .release hp
    | returned c =>
      rw [mysqlInsert_returned hp] at hr
      split at hr
      · cases hr
      · cases hr; exact .query hp
    | querying c =>
      rw [mysqlInsert_querying hp] at hr
      split at hr
      · cases hr
      · cases hr; exact .done hp
  | produceConnectionTask connected now =>
    cases hr
    rcases produceConnectionTask_cases connected now s.pool with heq | ⟨hq, hlt, heq⟩ <;> rw [heq]
    · exact .wait
    · exact .create hq hlt
  | scannerConnectionTask clock =>
    obtain ⟨p', hp', hs'⟩ := Run.bind_eq_ret.mp hr
    cases hs'
    exact .scan hp'

/-- With no more than `initSize` connections a pass does nothing. -/
theorem scannerLoop_of_le {clock : Nat → Int} {queue : List Connection} {i : Nat} {p : Pool}
    (h : ¬ p.connectionCount > p.initSize) : scannerLoop clock queue i p = .ret p := by
  cases queue with
  | nil => rw [scannerLoop_nil, if_neg h]
  | cons c q => rw [scannerLoop_cons, if_neg fun hdel => h hdel.1]

/-- A pass of the scanner ends with the queue. -/
theorem scannerLoop_ne_more (clock : Nat → Int) (queue : List Connection) (i : Nat) (p : Pool) :
    scannerLoop clock queue i p ≠ .more := by
  induction queue generalizing i p with
  | nil => rw [scannerLoop_nil]; split <;> simp
  | cons c q ih =>
    rw [scannerLoop_cons]
    split
    · exact ih _ _
    · simp

/-! ## The connections of the clients -/

/-- A client owns a connection in the block of `connect` only. There are `k` clients. -/
structure Inv (S : Settings) (k : Nat) (s : Clients) : Prop where
  pool : Pool.Inv S s.pool
  held : ∀ t c, (t, c) ∈ s.pool.borrowed ↔ s.place t = .connected c
  once : (s.pool.borrowed.map Prod.fst).Nodup
  active : ∀ t, s.place t ≠ .start → t < k

variable {S : Settings} {k rounds : Nat} {e : Event}

theorem produceConnectionTask_nil {p : Pool} {connected : Bool} {now : Int}
    (hq : p.connectionQueue = []) (hlt : p.connectionCount < p.maxSize) :
    p.produceConnectionTask connected now = p.createConnection connected now := by
  simp [produceConnectionTask, hq, hlt]

/-- A step of a client, the producer or the scanner is a step of the pool, or the pool stays. -/
theorem Inv.pool_step (h : Inv S k s) (hr : step e s = .ret s') :
    s'.pool = s.pool ∨ ∃ e', Pool.Enabled s.pool e' ∧ Pool.step e' s.pool = .ret s'.pool := by
  cases moves_of_step hr with
  | @take t now c q hp hq =>
    refine .inr ⟨.getConnection t, trivial, ?_⟩
    simp only [Pool.step, getConnection_cons hq, Run.ret_bind, move_pool]
  | @release t now c hp => exact .inr ⟨.release t c now, (h.held t c).mpr hp, rfl⟩
  | query => exact .inl rfl
  | done => exact .inl rfl
  | wait => exact .inl rfl
  | @create connected now hq hlt =>
    refine .inr ⟨.produceConnectionTask connected now, trivial, ?_⟩
    rw [Pool.step, produceConnectionTask_nil hq hlt]
  | @scan clock p' hscan => exact .inr ⟨.scannerConnectionTask clock, trivial, hscan⟩

theorem Inv.not_borrowed (h : Inv S k s) (hp : ∀ c, s.place t ≠ .connected c) :
    t ∉ s.pool.borrowed.map Prod.fst := by
  intro hmem
  obtain ⟨⟨u, c⟩, hx, rfl⟩ := List.mem_map.mp hmem
  exact hp c ((h.held u c).mp hx)

/-- A step of a client that takes no connection and gives none back. -/
theorem Inv.move (h : Inv S k s) (ht : t < k) {x : Inserter} (hp : ∀ c, s.place t ≠ .connected c)
    (hx : ∀ c, x.place ≠ .connected c) :
    Inv S k { s with thread := Function.update s.thread t x } where
  pool := h.pool
  held u c := by
    rw [h.held u c]
    show s.place u = .connected c ↔ (Function.update s.thread t x u).place = .connected c
    by_cases hu : u = t
    · subst hu
      rw [Function.update_self]
      exact iff_of_false (hp c) (hx c)
    · rw [Function.update_of_ne hu]
      rfl
  once := h.once
  active u hu := by
    by_cases hut : u = t
    · subst hut; exact ht
    · change (Function.update s.thread t x u).place ≠ .start at hu
      rw [Function.update_of_ne hut] at hu
      exact h.active u hu

theorem Inv.step (h : Inv S k s) (he : Enabled k rounds s e) (hr : step e s = .ret s') :
    Inv S k s' := by
  have hpool : Pool.Inv S s'.pool := by
    rcases h.pool_step hr with heq | ⟨e', he', hr'⟩
    · rw [heq]; exact h.pool
    · exact h.pool.step he' hr'
  cases moves_of_step hr with
  | @take t now c q hp hq =>
    have hnot := h.not_borrowed (t := t) (by simp [hp])
    refine ⟨hpool, fun u d => ?_, ?_, fun u hu => ?_⟩
    · rw [move_pool, move_place, List.mem_cons, h.held u d]
      by_cases hu : u = t
      · subst hu
        simp [hp, eq_comm]
      · simp [hu, place]
    · simpa [h.once] using hnot
    · rw [move_place] at hu
      split at hu
      · rename_i hut; subst hut; exact he.1
      · exact h.active u hu
  | @release t now c hp =>
    have hnd : s.pool.borrowed.Nodup := h.once.of_map
    refine ⟨hpool, fun u d => ?_, ?_, fun u hu => ?_⟩
    · rw [move_pool, move_place]
      simp only [release, push]
      rw [hnd.mem_erase_iff, h.held u d]
      by_cases hu : u = t
      · subst hu
        simp [hp, eq_comm]
      · simp [hu, place]
    · exact h.once.sublist (List.erase_sublist.map _)
    · rw [move_place] at hu
      split at hu
      · rename_i hut; subst hut; exact he.1
      · exact h.active u hu
  | @query t now c hp => exact h.move he.1 (by simp [hp]) (by simp)
  | @done t now c hp => exact h.move he.1 (by simp [hp]) (by simp)
  | wait => exact h
  | create hq hlt => exact ⟨hpool, h.held, h.once, h.active⟩
  | scan hscan =>
    have hb := (scannerLoop_suffix rfl hscan).2
    exact ⟨hpool, by rw [hb]; exact h.held, by rw [hb]; exact h.once, h.active⟩

theorem inv_run {connected : Nat → Bool} {clock : Nat → Int} {p : Pool} (h0 : 0 ≤ S.initSize)
    (hle : S.initSize ≤ S.maxSize) (hrun : (new S).run connected clock = (true, p)) :
    Inv S k { pool := p } := by
  have hp := run_eq hrun
  refine ⟨Pool.inv_run h0 hle hrun, fun t c => ?_, ?_, fun t ht => absurd rfl ht⟩
  · rw [hp]
    simp [new, place]
  · rw [hp]
    simp [new]

/-- A client that owns no connection leaves room for its own. -/
theorem Inv.borrowed_lt (h : Inv S k s) (ht : t < k) (hp : ∀ c, s.place t ≠ .connected c) :
    s.pool.borrowed.length < k := by
  have hnd : (t :: s.pool.borrowed.map Prod.fst).Nodup :=
    List.nodup_cons.mpr ⟨h.not_borrowed hp, h.once⟩
  have hsub : t :: s.pool.borrowed.map Prod.fst ⊆ List.range k := by
    refine List.cons_subset.mpr ⟨List.mem_range.mpr ht, fun u hu => ?_⟩
    obtain ⟨⟨u, c⟩, hx, rfl⟩ := List.mem_map.mp hu
    exact List.mem_range.mpr (h.active u (by simp [(h.held u c).mp hx]))
  have hlen := (List.subperm_of_subset hnd hsub).length_le
  rw [List.length_cons, List.length_map, List.length_range] at hlen
  omega

theorem Inv.borrowed_le (h : Inv S k s) : s.pool.borrowed.length ≤ k := by
  have hsub : s.pool.borrowed.map Prod.fst ⊆ List.range k := by
    intro u hu
    obtain ⟨⟨u, c⟩, hx, rfl⟩ := List.mem_map.mp hu
    exact List.mem_range.mpr (h.active u (by simp [(h.held u c).mp hx]))
  simpa using (List.subperm_of_subset h.once hsub).length_le

/-! ## When no interleaving faults -/

/-- No connection was deleted, and none was made behind the first ones. -/
structure Steady (S : Settings) (s : Clients) : Prop where
  deleted : s.pool.deleted = []
  count : s.pool.connectionCount = S.initSize

/-- The connection that client `0` uses without owning it is the last one of the queue. -/
def Last (s : Clients) : Prop :=
  ∀ c, s.place 0 = .returned c ∨ s.place 0 = .querying c →
    ∃ q d, s.pool.connectionQueue = q ++ [d] ∧ d.id = c.id

/-- With more first connections than clients the queue is never empty; with no room for another one
the producer makes none. -/
theorem Steady.step (hst : Steady S s) (h : Inv S k s) (hfit : k < S.initSize ∨ S.maxSize = S.initSize)
    (hr : step e s = .ret s') : Steady S s' := by
  obtain ⟨hdel, hcount⟩ := hst
  have hset := h.pool.settings
  cases moves_of_step hr with
  | take hp hq => exact ⟨hdel, hcount⟩
  | release hp => exact ⟨hdel, hcount⟩
  | query hp => exact ⟨hdel, hcount⟩
  | done hp => exact ⟨hdel, hcount⟩
  | wait => exact ⟨hdel, hcount⟩
  | create hq hlt =>
    have hlen := h.pool.count
    have hle := h.borrowed_le
    rw [hq, List.length_nil] at hlen
    rw [hset] at hlt
    omega
  | scan hscan =>
    -- The counter is not above `initSize`, so the pass ends at once.
    have hstop : ¬ s.pool.connectionCount > s.pool.initSize := by rw [hset]; omega
    rw [scannerLoop_of_le hstop] at hscan
    cases hscan
    exact ⟨hdel, hcount⟩

theorem Last.step (hl : Last s) (h : Inv S 1 s) (h1 : 1 ≤ S.initSize) (he : Enabled 1 rounds s e)
    (hr : step e s = .ret s') : Last s' := by
  have h' := h.step he hr
  intro c hc
  cases moves_of_step hr with
  | @take t now d q hp hq =>
    have ht : t = 0 := Nat.lt_one_iff.mp he.1
    rw [move_place, ht, if_pos rfl] at hc
    rcases hc with hc | hc <;> cases hc
  | @release t now d hp =>
    have ht : t = 0 := Nat.lt_one_iff.mp he.1
    rw [move_place, ht, if_pos rfl] at hc
    rcases hc with hc | hc
    · cases hc
      exact ⟨s.pool.connectionQueue, c.refreshAliveTime now, rfl, rfl⟩
    · cases hc
  | @query t now d hp =>
    have ht : t = 0 := Nat.lt_one_iff.mp he.1
    rw [move_place, ht, if_pos rfl] at hc
    rcases hc with hc | hc
    · cases hc
    · cases hc
      exact hl c (.inl (ht ▸ hp))
  | @done t now d hp =>
    have ht : t = 0 := Nat.lt_one_iff.mp he.1
    rw [next_place, ht, if_pos rfl] at hc
    rcases hc with hc | hc <;> cases hc
  | wait => exact hl c hc
  | create hq hlt =>
    obtain ⟨q, d, hqd, -⟩ := hl c hc
    rw [hq] at hqd
    simp at hqd
  | @scan clock p' hscan =>
    obtain ⟨q, d, hqd, hid⟩ := hl c hc
    obtain ⟨hsuffix, -⟩ := scannerLoop_suffix rfl hscan
    -- The client owns nothing, so the connections that the scanner leaves are all in the queue.
    have hnil : p'.borrowed = [] := by
      refine List.eq_nil_iff_forall_not_mem.mpr fun ⟨u, d⟩ hu => ?_
      have hplace := (h'.held u d).mp hu
      have hu0 : u = 0 := Nat.lt_one_iff.mp (h'.active u (by simp [hplace]))
      subst hu0
      rcases hc with hc | hc <;> rw [hplace] at hc <;> cases hc
    have hlen := h'.pool.count
    have hmin := h'.pool.initSize_le
    simp only [hnil, List.length_nil] at hlen hmin
    rw [hqd] at hsuffix
    rcases List.suffix_concat_iff.mp hsuffix with hempty | ⟨q', hq', -⟩
    · rw [hempty, List.length_nil] at hlen
      omega
    · exact ⟨q', d, hq', hid⟩

/-- A client that uses a connection which is not deleted goes on. -/
theorem Inv.step_returns (h : Inv S k s) (hk : (k : Int) ≤ S.initSize)
    (hdb : ∀ t < k, ∀ c, s.place t = .returned c ∨ s.place t = .querying c →
      c.id ∉ s.pool.deleted)
    (he : Enabled k rounds s e) : ∃ s', Clients.step e s = .ret s' := by
  have hlen := h.pool.count
  have hmin := h.pool.initSize_le
  cases e with
  | mysqlInsert t now =>
    show ∃ s', s.mysqlInsert t now = .ret s'
    cases hp : s.place t with
    | start =>
      have hlt := h.borrowed_lt he.1 (by simp [hp])
      cases hq : s.pool.connectionQueue with
      | nil => rw [hq, List.length_nil] at hlen; omega
      | cons c q => exact ⟨_, mysqlInsert_cons hp hq⟩
    | connected c => exact ⟨_, mysqlInsert_connected hp⟩
    | returned c => exact ⟨_, by rw [mysqlInsert_returned hp, if_neg (hdb t he.1 c (.inl hp))]⟩
    | querying c => exact ⟨_, by rw [mysqlInsert_querying hp, if_neg (hdb t he.1 c (.inr hp))]⟩
  | produceConnectionTask connected now => exact ⟨_, rfl⟩
  | scannerConnectionTask clock =>
    have hle := h.borrowed_le
    have hsafe : FrontSafe s.pool (.scannerConnectionTask clock) :=
      .inl (by rw [h.pool.settings]; omega)
    have hne : s.pool.scannerConnectionTask clock ≠ .fault := (step_ne_fault_iff h.pool.toOwned).mpr hsafe
    cases hr : s.pool.scannerConnectionTask clock with
    | ret p' => exact ⟨_, by rw [Clients.step, hr]; rfl⟩
    | fault => exact absurd hr hne
    | more => exact absurd hr (scannerLoop_ne_more clock _ _ _)

/-! ## Runs that fault -/

@[simp] theorem move_i (s : Clients) (t u : Client) (x : Place) :
    ((s.move t x).thread u).i = (s.thread u).i := by
  unfold move
  by_cases h : u = t
  · subst h; simp
  · simp [h]

/-- What some run of `k` clients leads to. -/
abbrev Reaches (k rounds : Nat) : Clients → Clients → Prop := Leads step (Enabled k rounds)

variable {s₁ s₂ : Clients} {connected : Bool} {clock : Nat → Int} {p : Pool}

theorem Reaches.client (h : Reaches k rounds s s₁) (ht : t < k) (hi : (s₁.thread t).i < rounds)
    (hr : s₁.mysqlInsert t now = .ret s₂) : Reaches k rounds s s₂ :=
  @Leads.next _ _ step _ _ _ _ (.mysqlInsert t now) h ⟨ht, hi⟩ hr

theorem Reaches.client_fault (h : Reaches k rounds s s₁) (ht : t < k)
    (hi : (s₁.thread t).i < rounds) (hr : s₁.mysqlInsert t now = .fault) :
    ∃ es, Along step (Enabled k rounds) s es ∧ exec step es s = .fault :=
  @Leads.fault _ _ step _ _ _ (.mysqlInsert t now) h ⟨ht, hi⟩ hr

theorem Reaches.create (h : Reaches k rounds s s₁) (hq : s₁.pool.connectionQueue = [])
    (hlt : s₁.pool.connectionCount < s₁.pool.maxSize) (connected : Bool) (now : Int) :
    Reaches k rounds s { s₁ with pool := s₁.pool.createConnection connected now } := by
  apply @Leads.next _ _ step _ _ _ _ (.produceConnectionTask connected now) h trivial
  rw [step, produceConnectionTask_nil hq hlt]

theorem Reaches.scan (h : Reaches k rounds s s₁) (hr : s₁.pool.scannerConnectionTask clock = .ret p) :
    Reaches k rounds s { s₁ with pool := p } := by
  apply @Leads.next _ _ step _ _ _ _ (.scannerConnectionTask clock) h trivial
  rw [step, hr]
  rfl

/-- The clients below `j` have taken a connection each, from a pool `p` that was not used before. -/
structure Taken (p : Pool) (j : Nat) (s : Clients) : Prop where
  queue : s.pool.connectionQueue = p.connectionQueue.drop j
  count : s.pool.connectionCount = p.connectionCount
  settings : s.pool.toSettings = p.toSettings
  deleted : s.pool.deleted = p.deleted
  owns : ∀ t < j, ∃ c, s.place t = .connected c
  rest : ∀ t, j ≤ t → s.place t = .start
  i : ∀ t, (s.thread t).i = 0

theorem reaches_taken {j : Nat} (hk : j ≤ k) (hj : j ≤ p.connectionQueue.length)
    (hr : 0 < rounds) : ∃ s', Reaches k rounds { pool := p } s' ∧ Taken p j s' := by
  induction j with
  | zero =>
    refine ⟨_, Leads.refl _ _, rfl, rfl, rfl, rfl, fun t ht => absurd ht (Nat.not_lt_zero t), ?_, ?_⟩
    · intro t _; rfl
    · intro t; rfl
  | succ j ih =>
    obtain ⟨s, hs, h⟩ := ih (by omega) (by omega)
    have hq : s.pool.connectionQueue = p.connectionQueue[j] :: p.connectionQueue.drop (j + 1) := by
      rw [h.queue, List.drop_eq_getElem_cons]
    have hplace : s.place j = .start := h.rest j (Nat.le_refl j)
    have htake := @mysqlInsert_cons s j 0 _ _ hplace hq
    refine ⟨_, hs.client hk (by rw [h.i j]; exact hr) htake, rfl, h.count, h.settings, h.deleted,
      fun t ht => ?_, fun t ht => ?_, fun t => ?_⟩
    · rw [move_place]
      by_cases htj : t = j
      · exact ⟨_, if_pos htj⟩
      · rw [if_neg htj]
        exact h.owns t (by omega)
    · rw [move_place, if_neg (show t ≠ j by omega)]
      exact h.rest t (by omega)
    · rw [move_i]
      exact h.i t

/-- With more clients than connections the last client finds the queue empty. -/
theorem faults_of_lt (hlt : p.connectionQueue.length < k) (hr : 0 < rounds) :
    ∃ es, Along step (Enabled k rounds) { pool := p } es ∧ exec step es { pool := p } = .fault := by
  obtain ⟨s, hs, h⟩ := reaches_taken (Nat.le_of_lt hlt) (Nat.le_refl _) hr
  apply @Reaches.client_fault _ _ 0 _ _ _ hs hlt (by rw [h.i]; exact hr)
  exact mysqlInsert_nil (h.rest _ (Nat.le_refl _)) (by rw [h.queue, List.drop_length])

/-- A connection of client `0` that is back in the queue comes to its front, and behind it that of
client `1`; the scanner deletes it before client `0` queries it. -/
theorem faults_of_returned {c d : Connection} (hk : 2 ≤ k) (h0 : s.place 0 = .connected c)
    (h1 : s.place 1 = .connected d) (hq : s.pool.connectionQueue = [])
    (hcount : s.pool.connectionCount = s.pool.initSize)
    (hroom : s.pool.initSize < s.pool.maxSize) (hdel : s.pool.deleted = [])
    (hi : ∀ t, (s.thread t).i = 0) (hr : 2 ≤ rounds) :
    ∃ s', Reaches k rounds s s' ∧ s'.place 0 = .returned c ∧ c.id ∈ s'.pool.deleted ∧
      (s'.thread 0).i = 0 := by
  let new : Connection := { id := s.pool.created, connected := true, aliveTime := 0 }
  -- The producer makes `new` for the queue that the clients have emptied, and both come back.
  let s₁ : Clients := { s with pool := s.pool.createConnection true 0 }
  let s₂ : Clients := { s₁ with pool := s₁.pool.release 0 c 0 }.move 0 (.returned c)
  let s₃ : Clients := { s₂ with pool := s₂.pool.release 1 d 0 }.move 1 (.returned d)
  have hk0 : 0 < k := by omega
  have hrun₀ : Reaches k rounds s s := Leads.refl _ s
  have hrun₁ : Reaches k rounds s s₁ := hrun₀.create hq (by omega) true 0
  have hrun₂ : Reaches k rounds s s₂ :=
    hrun₁.client hk0 (by rw [hi 0]; omega) (mysqlInsert_connected h0)
  have hrun₃ : Reaches k rounds s s₃ := by
    refine hrun₂.client hk (by rw [move_i, hi 1]; omega) (mysqlInsert_connected ?_)
    rw [move_place]
    exact h1
  have hq₃ : s₃.pool.connectionQueue = [new, c.refreshAliveTime 0, d.refreshAliveTime 0] := by
    simp [s₃, s₂, s₁, createConnection, release, push, hq, new, Connection.refreshAliveTime]
  have hdel₃ : s₃.pool.deleted = [] := hdel
  -- Client `1` takes `new` in its next iteration.
  let s₄ : Clients := s₃.move 1 (.querying d)
  let s₅ : Clients := s₄.next 1
  let s₆ : Clients := { s₅ with
    pool := { s₅.pool with
      connectionQueue := [c.refreshAliveTime 0, d.refreshAliveTime 0]
      borrowed := (1, new) :: s₅.pool.borrowed } }.move 1 (.connected new)
  have hp₃ : s₃.place 1 = .returned d := by rw [move_place, if_pos rfl]
  have hp₄ : s₄.place 1 = .querying d := by rw [move_place, if_pos rfl]
  have hp₅ : s₅.place 1 = .start := by rw [next_place, if_pos rfl]
  have hi₃ : (s₃.thread 1).i = 0 := by rw [move_i, move_i, hi 1]
  have hi₅ : (s₅.thread 1).i = 1 := by simp [s₅, s₄, next, hi₃]
  have hrun₄ : Reaches k rounds s s₄ := by
    apply @Reaches.client _ _ 0 _ _ _ _ hrun₃ hk (by omega)
    rw [mysqlInsert_returned hp₃, hdel₃, if_neg List.not_mem_nil]
  have hrun₅ : Reaches k rounds s s₅ := by
    apply @Reaches.client _ _ 0 _ _ _ _ hrun₄ hk (by rw [move_i]; omega)
    rw [mysqlInsert_querying hp₄, move_pool, hdel₃, if_neg List.not_mem_nil]
  have hrun₆ : Reaches k rounds s s₆ :=
    @Reaches.client _ _ 0 _ _ _ _ hrun₅ hk (by omega) (mysqlInsert_cons hp₅ hq₃)
  -- The scanner finds the first connection of the queue expired, and then the counter at `initSize`.
  let late (_ : Nat) : Int := s.pool.maxIdleTime + 1
  have hscan : s₆.pool.scannerConnectionTask late = .ret ({ s₆.pool with
      connectionQueue := [d.refreshAliveTime 0] }.drop (c.refreshAliveTime 0)) := by
    have hcount₆ : s₆.pool.connectionCount = s.pool.initSize + 1 := by rw [← hcount]; rfl
    rw [scannerConnectionTask]
    show scannerLoop late [c.refreshAliveTime 0, d.refreshAliveTime 0] 0 s₆.pool = _
    rw [scannerLoop_cons, if_pos, scannerLoop_of_le]
    · show ¬ s₆.pool.connectionCount - 1 > s.pool.initSize
      omega
    · refine ⟨?_, ?_⟩
      · show s₆.pool.connectionCount > s.pool.initSize
        omega
      · show s.pool.maxIdleTime + 1 - 0 > s.pool.maxIdleTime
        omega
  refine ⟨_, hrun₆.scan hscan, ?_, List.mem_cons_self, ?_⟩
  · show s₆.place 0 = .returned c
    rw [move_place, if_neg (by decide)]
    show (s₄.next 1).place 0 = .returned c
    rw [next_place, if_neg (by decide), move_place, if_neg (by decide), move_place,
      if_neg (by decide)]
    show s₂.place 0 = .returned c
    rw [move_place, if_pos rfl]
  · show (s₆.thread 0).i = 0
    simp [s₆, s₅, s₄, s₃, s₂, s₁, next, hi]

/-- **When no interleaving faults.** After a successful `run` with `0 ≤ initSize ≤ maxSize`, no run
of `k` clients dereferences a null `shared_ptr`, reads an empty queue or queries a deleted handle,
exactly when there are first connections for all clients and, unless there is one client only, the
pool never grows: they leave one over, or there is no room for another one. -/
theorem clients_safe_iff {S : Settings} {connected : Nat → Bool} {clock : Nat → Int} {p : Pool}
    {k rounds : Nat} (h0 : 0 ≤ S.initSize) (hle : S.initSize ≤ S.maxSize) (hk : 1 ≤ k)
    (hr : 2 ≤ rounds) (hrun : (new S).run connected clock = (true, p)) :
    (∀ es, Along step (Enabled k rounds) { pool := p } es → exec step es { pool := p } ≠ .fault) ↔
      k ≤ S.initSize ∧ (k < S.initSize ∨ k = 1 ∨ S.maxSize = S.initSize) := by
  have hinv : Inv S k { pool := p } := inv_run h0 hle hrun
  have hp := run_eq hrun
  have hlen : (p.connectionQueue.length : Int) = S.initSize := by
    rw [hp, List.length_map, List.length_range]
    exact Int.toNat_of_nonneg h0
  have hcount : p.connectionCount = S.initSize := by
    rw [hp]
    exact Int.toNat_of_nonneg h0
  have hdel : p.deleted = [] := by rw [hp]; rfl
  constructor
  · intro hsafe
    have hkn : k ≤ S.initSize := by
      refine Int.not_lt.mp fun hlt => ?_
      obtain ⟨es, hes, hfault⟩ := @faults_of_lt k rounds p (by omega) (by omega)
      exact hsafe es hes hfault
    refine ⟨hkn, ?_⟩
    refine Classical.byContradiction fun hnot => ?_
    obtain ⟨s, hs, h⟩ := @reaches_taken k rounds p k (Nat.le_refl k) (by omega) (by omega)
    obtain ⟨c, hc⟩ := h.owns 0 (by omega)
    obtain ⟨d, hd⟩ := h.owns 1 (by omega)
    have hset : s.pool.toSettings = S := h.settings.trans hinv.pool.settings
    obtain ⟨s', hs', h0', hc', hi'⟩ := @faults_of_returned s k rounds c d (by omega) hc hd
      (by rw [h.queue]; exact List.drop_eq_nil_of_le (by omega))
      (by rw [h.count, hset, hcount]) (by rw [hset]; omega) (by rw [h.deleted, hdel]) h.i hr
    obtain ⟨es, hes, hfault⟩ := @Reaches.client_fault _ 0 0 _ _ _ (hs.trans hs')
      hk (by rw [hi']; omega) (by rw [mysqlInsert_returned h0', if_pos hc'])
    exact hsafe es hes hfault
  · rintro ⟨hkn, hfit⟩ es hes
    by_cases h1 : k = 1
    · subst h1
      have hlast : Last { pool := p } := by rintro c (hc | hc) <;> cases hc
      have hstep : ∀ s e, Inv S 1 s ∧ Last s → Enabled 1 rounds s e →
          ∃ s', step e s = .ret s' ∧ (Inv S 1 s' ∧ Last s') := by
        rintro s e ⟨hi, hl⟩ he
        -- What the client uses is in the queue, so it is not deleted.
        have hdb : ∀ t < 1, ∀ c, s.place t = .returned c ∨ s.place t = .querying c →
            c.id ∉ s.pool.deleted := by
          intro t ht c hc hmem
          rw [Nat.lt_one_iff.mp ht] at hc
          obtain ⟨q, d, hq, hid⟩ := hl c hc
          have hd : d ∈ s.pool.connectionQueue := by rw [hq]; simp
          exact hi.pool.not_deleted hd (hid ▸ hmem)
        obtain ⟨s', hs'⟩ := hi.step_returns hkn hdb he
        exact ⟨s', hs', hi.step he hs', hl.step hi (by omega) he hs'⟩
      obtain ⟨s', hs', -⟩ := exec_progress hstep ⟨hinv, hlast⟩ hes
      simp [hs']
    · have hfit' : k < S.initSize ∨ S.maxSize = S.initSize := by omega
      have hstep : ∀ s e, Inv S k s ∧ Steady S s → Enabled k rounds s e →
          ∃ s', step e s = .ret s' ∧ (Inv S k s' ∧ Steady S s') := by
        rintro s e ⟨hi, hst⟩ he
        obtain ⟨s', hs'⟩ := hi.step_returns hkn (fun t _ c _ => by simp [hst.deleted]) he
        exact ⟨s', hs', hi.step he hs', hst.step hi hfit' hs'⟩
      obtain ⟨s', hs', -⟩ := exec_progress hstep ⟨hinv, hdel, hcount⟩ hes
      simp [hs']

/-- The pool of `main`. -/
def mainSettings : Settings :=
  { ip := "192.168.19.128", username := "root", password := "jianv4as", dbname := "YOSHIKI_DB" }

def mainStart : Pool := ((new mainSettings).run (fun _ => true) fun _ => 0).2

theorem clients_safe_iff_main :
    (∀ es, Along step (Enabled 1 10000) { pool := mainStart } es →
      exec step es { pool := mainStart } ≠ .fault) ↔
      ((1 : Nat) : Int) ≤ mainSettings.initSize ∧ (((1 : Nat) : Int) < mainSettings.initSize ∨
        1 = 1 ∨ mainSettings.maxSize = mainSettings.initSize) :=
  @clients_safe_iff mainSettings (fun _ => true) (fun _ => 0) mainStart 1 10000 (by decide)
    (by decide) (by decide) (by decide) rfl

/-! ## Two clients on one connection -/

/-- Two clients are in `mysql_real_query` on the handle of one connection. -/
def Shared (s : Clients) : Prop :=
  ∃ t u c d, t ≠ u ∧ s.place t = .querying c ∧ s.place u = .querying d ∧ c.id = d.id

theorem move_thread_ne {u : Client} (h : u ≠ t) (x : Place) :
    (s.move t x).thread u = s.thread u := by
  unfold move
  exact Function.update_of_ne h _ _

/-- An iteration up to its query: the connection has gone from the front of the queue to its back. -/
theorem reaches_querying {c : Connection} {q : List Connection} (ht : t < k)
    (hi : (s.thread t).i < rounds) (hp : s.place t = .start)
    (hq : s.pool.connectionQueue = c :: q) (hc : c.id ∉ s.pool.deleted) :
    ∃ s', Reaches k rounds s s' ∧ s'.place t = .querying c ∧
      (∀ u, u ≠ t → s'.thread u = s.thread u) ∧ (s'.thread t).i = (s.thread t).i ∧
      s'.pool.connectionQueue = q ++ [c.refreshAliveTime 0] ∧
      s'.pool.deleted = s.pool.deleted := by
  let s₁ : Clients := { s with
    pool := { s.pool with connectionQueue := q, borrowed := (t, c) :: s.pool.borrowed } }.move t
      (.connected c)
  let s₂ : Clients := { s₁ with pool := s₁.pool.release t c 0 }.move t (.returned c)
  have hp₁ : s₁.place t = .connected c := by rw [move_place, if_pos rfl]
  have hp₂ : s₂.place t = .returned c := by rw [move_place, if_pos rfl]
  have hi₁ : (s₁.thread t).i = (s.thread t).i := by rw [move_i]
  have hi₂ : (s₂.thread t).i = (s.thread t).i := by rw [move_i]; exact hi₁
  have hrun₀ : Reaches k rounds s s := Leads.refl _ s
  have hrun₁ : Reaches k rounds s s₁ := @Reaches.client _ _ 0 _ _ _ _ hrun₀ ht hi
    (mysqlInsert_cons hp hq)
  have hrun₂ : Reaches k rounds s s₂ := hrun₁.client ht (by omega) (mysqlInsert_connected hp₁)
  have hrun₃ : Reaches k rounds s (s₂.move t (.querying c)) := by
    apply @Reaches.client _ _ 0 _ _ _ _ hrun₂ ht (by omega)
    rw [mysqlInsert_returned hp₂]
    exact if_neg hc
  refine ⟨_, hrun₃, by rw [move_place, if_pos rfl], fun u hu => ?_, by rw [move_i, hi₂], rfl, rfl⟩
  rw [move_thread_ne hu, move_thread_ne hu]
  exact move_thread_ne hu _

/-- Client `1` works through the queue until it comes to the connection that client `0` queries. -/
theorem reaches_shared_of_querying {b c : Connection} {q r : List Connection} (hk : 1 < k)
    (h0 : s.place 0 = .querying b) (h1 : s.place 1 = .start) (hid : c.id = b.id)
    (hq : s.pool.connectionQueue = q ++ c :: r)
    (hdel : ∀ d ∈ s.pool.connectionQueue, d.id ∉ s.pool.deleted)
    (hi : (s.thread 1).i + q.length < rounds) :
    ∃ s', Reaches k rounds s s' ∧ Shared s' := by
  induction q generalizing s r with
  | nil =>
    obtain ⟨s', hs', hp, hthread, -⟩ := @reaches_querying s 1 k rounds _ _ hk (by simpa using hi)
      h1 hq (hdel c (by rw [hq]; simp))
    refine ⟨s', hs', 0, 1, b, c, by decide, ?_, hp, hid.symm⟩
    unfold place
    rw [hthread 0 (by decide)]
    exact h0
  | cons d q ih =>
    rw [List.length_cons] at hi
    obtain ⟨s₁, hs₁, hp₁, hthread, hi₁, hq₁, hdel₁⟩ := @reaches_querying s 1 k rounds _ _ hk
      (by omega) h1 hq (hdel d (by rw [hq]; simp))
    have hnot : d.id ∉ s₁.pool.deleted := by rw [hdel₁]; exact hdel d (by rw [hq]; simp)
    have hs₂ : Reaches k rounds s (s₁.next 1) := by
      apply @Reaches.client _ _ 0 _ _ _ _ hs₁ hk (by omega)
      rw [mysqlInsert_querying hp₁, if_neg hnot]
    obtain ⟨s', hs', hshared⟩ := @ih (s₁.next 1) (r ++ [d.refreshAliveTime 0])
      (by rw [next_place, if_neg (by decide), place, hthread 0 (by decide)]; exact h0)
      (by rw [next_place, if_pos rfl])
      (by rw [next_pool, hq₁]; simp)
      (by
        rw [next_pool, hdel₁, hq₁]
        intro x hx
        rcases List.mem_append.mp hx with hx | hx
        · exact hdel x (by rw [hq]; exact List.mem_cons_of_mem d hx)
        · rw [List.mem_singleton.mp hx]
          exact hdel d (by rw [hq]; simp))
      (by simp only [next, Function.update_self]; omega)
    exact ⟨s', hs₂.trans hs', hshared⟩

/-- Two clients come into a query on the first connection of the queue. -/
theorem reaches_shared {c : Connection} {q : List Connection} (hk : 1 < k)
    (hp : ∀ t, s.place t = .start) (hi : ∀ t, (s.thread t).i = 0)
    (hq : s.pool.connectionQueue = c :: q) (hdel : s.pool.deleted = [])
    (hr : q.length < rounds) : ∃ s', Reaches k rounds s s' ∧ Shared s' := by
  have hk0 : 0 < k := by omega
  obtain ⟨s₁, hs₁, hp₁, hthread, -, hq₁, hdel₁⟩ := @reaches_querying s 0 k rounds _ _ hk0
    (by rw [hi]; omega) (hp 0) hq (by simp [hdel])
  obtain ⟨s', hs', hshared⟩ := @reaches_shared_of_querying s₁ k rounds c
    (c.refreshAliveTime 0) q [] hk hp₁
    (by rw [place, hthread 1 (by decide)]; exact hp 1) rfl hq₁ (by simp [hdel₁, hdel])
    (by rw [hthread 1 (by decide), hi]; omega)
  exact ⟨s', hs₁.trans hs', hshared⟩

/-- Without room for a connection no client comes away from the start. -/
theorem Inv.start_step (h : Inv S k s) (hmax : S.maxSize < 1) (hp : ∀ t, s.place t = .start)
    (hr : Clients.step e s = .ret s') : ∀ t, s'.place t = .start := by
  cases moves_of_step hr with
  | take ht hq =>
    have hlen := h.pool.count
    have hle := h.pool.le_maxSize
    rw [hq, List.length_cons] at hlen
    omega
  | @release t now c ht => rw [hp t] at ht; cases ht
  | @query t now c ht => rw [hp t] at ht; cases ht
  | @done t now c ht => rw [hp t] at ht; cases ht
  | wait => exact hp
  | create hq hlt => exact hp
  | scan hscan => exact hp

/-- **Queries on one handle.** After a successful `run` with `0 ≤ initSize ≤ maxSize`, in no state of
any run does a client own the connection that it queries; and if each client has at least `initSize`
iterations, some run brings two clients into a query on one connection exactly when there are two
clients and the pool may hold a connection. -/
theorem shared_iff {S : Settings} {connected : Nat → Bool} {clock : Nat → Int} {p : Pool}
    {k rounds : Nat} (h0 : 0 ≤ S.initSize) (hle : S.initSize ≤ S.maxSize) (hr : 1 ≤ rounds)
    (hrounds : S.initSize ≤ rounds) (hrun : (new S).run connected clock = (true, p)) :
    (∀ s, Reaches k rounds { pool := p } s → ∀ t c d, s.place t = .querying c →
      (t, d) ∉ s.pool.borrowed) ∧
    ((∃ s, Reaches k rounds { pool := p } s ∧ Shared s) ↔ 2 ≤ k ∧ 1 ≤ S.maxSize) := by
  have hinv : Inv S k { pool := p } := inv_run h0 hle hrun
  have hreach : ∀ s, Reaches k rounds { pool := p } s → Inv S k s := by
    rintro s ⟨es, hes, hs⟩
    exact exec_invariant (fun _ _ _ hi he hr => Inv.step hi he hr) hinv hes hs
  refine ⟨fun s hs t c d hc hd => ?_, ⟨?_, ?_⟩⟩
  · rw [(hreach s hs).held t d, hc] at hd
    cases hd
  · rintro ⟨s, hs, t, u, c, d, htu, hc, hd, -⟩
    have ht := (hreach s hs).active t (by simp [hc])
    have hu := (hreach s hs).active u (by simp [hd])
    refine ⟨?_, Int.not_lt.mp fun hmax => ?_⟩
    · rcases Nat.lt_or_gt_of_ne htu with hlt | hlt
      · exact Nat.lt_of_le_of_lt (Nat.one_le_of_lt hlt) hu
      · exact Nat.lt_of_le_of_lt (Nat.one_le_of_lt hlt) ht
    · obtain ⟨es, hes, hs⟩ := hs
      have hstart := exec_invariant (I := fun s => Inv S k s ∧ ∀ t, s.place t = .start)
        (fun _ _ _ hi he hr => ⟨hi.1.step he hr, hi.1.start_step hmax hi.2 hr⟩)
        ⟨hinv, fun _ => rfl⟩ hes hs
      rw [hstart.2 t] at hc
      cases hc
  · rintro ⟨hk, hmax⟩
    have hp := run_eq hrun
    have hrun₀ : Reaches k rounds { pool := p } { pool := p } := Leads.refl _ _
    cases hq : p.connectionQueue with
    | nil =>
      -- The producer makes the first connection.
      have hcount := hinv.pool.count
      have hset := hinv.pool.settings
      have hborrowed : p.borrowed = [] := by rw [hp]; rfl
      simp only [hq, hborrowed, List.length_nil] at hcount
      have hlt : p.connectionCount < p.maxSize := by
        rw [show p.maxSize = S.maxSize from congrArg Settings.maxSize hset]
        omega
      have hcreate := hrun₀.create hq hlt true 0
      obtain ⟨s', hs', hshared⟩ := @reaches_shared
        { pool := p.createConnection true 0 } k rounds _ [] hk (fun _ => rfl) (fun _ => rfl)
        (by simp [createConnection, push, hq]; rfl) (by rw [hp]; rfl) hr
      exact ⟨s', hcreate.trans hs', hshared⟩
    | cons c q =>
      have hlen := congrArg List.length hq
      rw [hp, List.length_map, List.length_range, List.length_cons] at hlen
      obtain ⟨s', hs', hshared⟩ := @reaches_shared { pool := p } k rounds c q hk (fun _ => rfl)
        (fun _ => rfl) hq (by rw [hp]; rfl) (by omega)
      exact ⟨s', hs', hshared⟩

theorem shared_iff_main :
    (∀ s, Reaches 2 10000 { pool := mainStart } s → ∀ t c d, s.place t = .querying c →
      (t, d) ∉ s.pool.borrowed) ∧
    ((∃ s, Reaches 2 10000 { pool := mainStart } s ∧ Shared s) ↔
      2 ≤ 2 ∧ 1 ≤ mainSettings.maxSize) :=
  @shared_iff mainSettings (fun _ => true) (fun _ => 0) mainStart 2 10000 (by decide)
    (by decide) (by decide) (by decide) rfl

end Clients
end Pool
end LinuxBase
