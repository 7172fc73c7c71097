import LinuxBase.Lib.Trace

/-!
# The MySQL connection pool (`mysql-connection-poll/connectionpool.cpp`)

The pool with its critical sections as atomic steps: each of them runs from the last wake-up of its
thread to its release of the mutex. A step that reads the front of an empty `std::queue` is a
`fault`.

* `Pool`: the fields of `ConnectionPoolPrivate` that the setters set (`Settings`), the counter and
  the queue; and what the code does not store: the connections that clients hold (`borrowed`), how
  many were created and which were deleted.
* A `Connection` has the number of its creation as its identity: the address of a deleted object
  may come back, the object does not.
* The environment of a step is its argument: whether `mysql_real_connect` succeeded, and what
  `clock()` gave. The scanner reads the clock once for each connection that it looks at.
* `moves_of_step` says once what a step does, `run_eq` what `run` leaves, and `scannerLoop_invariant`
  is the rule for what a pass of the scanner keeps.
-/

namespace LinuxBase

abbrev Client := Nat

/-- A `Connection` object: the number of its creation, what `connect` returned, and the start of
its idle time. -/
structure Connection where
  id : Nat
  connected : Bool
  aliveTime : Int
  deriving DecidableEq, Repr

namespace Connection

def refreshAliveTime (c : Connection) (now : Int) : Connection := { c with aliveTime := now }

def getAliveTime (c : Connection) (now : Int) : Int := now - c.aliveTime

end Connection

/-- What the setters of `ConnectionPool` set, with the defaults of `ConnectionPoolPrivate`. -/
structure Settings where
  ip : String := ""
  username : String := ""
  password : String := ""
  dbname : String := ""
  initSize : Int := 10
  maxSize : Int := 1024
  maxIdleTime : Int := 1000 * 60
  deriving DecidableEq, Repr

/-- The state of the pool (module doc). -/
structure Pool extends Settings where
  connectionCount : Int := 0
  connectionQueue : List Connection := []
  error : String := ""
  /-- Each `shared_ptr` that a client holds. -/
  borrowed : List (Client × Connection) := []
  /-- The number of `Connection` objects made so far. -/
  created : Nat := 0
  /-- The objects that were deleted. -/
  deleted : List Nat := []
  deriving DecidableEq, Repr

namespace Pool

/-- The pool before `run`: its constructor and the setters. -/
def new (s : Settings) : Pool := { toSettings := s }

/-! ## `std::queue` -/

def front (p : Pool) : Run Connection := .ofOption p.connectionQueue.head?

def pop (p : Pool) : Run Pool :=
  match p.connectionQueue with
  | [] => .fault
  | _ :: q => .ret { p with connectionQueue := q }

def push (p : Pool) (c : Connection) : Pool :=
  { p with connectionQueue := p.connectionQueue ++ [c] }

/-- `delete connection` and the decrement of the counter after it. -/
def drop (p : Pool) (c : Connection) : Pool :=
  { p with deleted := c.id :: p.deleted, connectionCount := p.connectionCount - 1 }

/-! ## The functions of the pool -/

/-- `createConnection` pushes the new object whatever `connect` returned. -/
def createConnection (connected : Bool) (now : Int) (p : Pool) : Pool :=
  let connection := { id := p.created, connected, aliveTime := 0 : Connection }.refreshAliveTime now
  { p.push connection with created := p.created + 1, connectionCount := p.connectionCount + 1 }

/-- `run`: its result, and the pool when the producer and the scanner start. -/
def run (connected : Nat → Bool) (clock : Nat → Int) (p : Pool) : Bool × Pool :=
  if p.ip.isEmpty || p.username.isEmpty || p.password.isEmpty || p.dbname.isEmpty then
    (false, { p with error := "init info error,please check ip,username,password,dbname,port" })
  else
    (true, (List.range p.initSize.toNat).foldl
      (fun p i => p.createConnection (connected i) (clock i)) p)

/-- `testConnectionPoolHasConnection` after its last wake-up: with an empty queue that was a
timeout. -/
def testConnectionPoolHasConnection (p : Pool) : Bool × Pool :=
  if p.connectionQueue.isEmpty then (false, { p with error := "获取连接超时，无可用连接" })
  else (true, p)

/-- `getConnection` after its last wake-up; no connection is the null `shared_ptr`. -/
def getConnection (client : Client) (p : Pool) : Run (Option Connection × Pool) :=
  match p.testConnectionPoolHasConnection with
  | (false, p) => .ret (none, p)
  | (true, p) => do
    let connection ← p.front
    let p ← p.pop
    .ret (some connection, { p with borrowed := (client, connection) :: p.borrowed })

/-- The deleter of the `shared_ptr`: the connection goes back into the queue. -/
def release (client : Client) (connection : Connection) (now : Int) (p : Pool) : Pool :=
  { p.push (connection.refreshAliveTime now) with
    borrowed := p.borrowed.erase (client, connection) }

/-- One iteration of `produceConnectionTask`. With a non-empty queue its thread waits on. -/
def produceConnectionTask (connected : Bool) (now : Int) (p : Pool) : Pool :=
  if !p.connectionQueue.isEmpty then p
  else if p.connectionCount < p.maxSize then p.createConnection connected now
  else p

/-- The loop of `scannerConnectionTask`, at the `i`-th connection of its pass; the first argument
is the queue. -/
def scannerLoop (clock : Nat → Int) : List Connection → Nat → Pool → Run Pool
  | queue, i, p =>
    if p.connectionCount > p.initSize then
      match queue with
      | [] => .fault
      | connection :: rest =>
        if connection.getAliveTime (clock i) > p.maxIdleTime then
          scannerLoop clock rest (i + 1) ({ p with connectionQueue := rest }.drop connection)
        else .ret p
    else .ret p

/-- One pass of `scannerConnectionTask`. -/
def scannerConnectionTask (clock : Nat → Int) (p : Pool) : Run Pool :=
  scannerLoop clock p.connectionQueue 0 p

/-- The loop of `~ConnectionPool`, with the queue and the connection that was read last. -/
def destroyLoop : List Connection → Connection → Pool → Run Pool
  | [], _, p => .ret p
  | _ :: rest, connection, p => do
    let p := { p with connectionQueue := rest }.drop connection
    let connection ← p.front
    destroyLoop rest connection p

/-- `~ConnectionPool`. -/
def destroy (p : Pool) : Run Pool := do
  let connection ← p.front
  destroyLoop p.connectionQueue connection p

/-! ## Steps -/

/-- The atomic steps of the clients, the producer, the scanner and the destructor. -/
inductive Event where
  | getConnection (client : Client)
  | release (client : Client) (connection : Connection) (now : Int)
  | produceConnectionTask (connected : Bool) (now : Int)
  | scannerConnectionTask (clock : Nat → Int)
  | destroy

def step : Event → Pool → Run Pool
  | .getConnection client, p => do
    let (_, p) ← p.getConnection client
    .ret p
  | .release client connection now, p => .ret (p.release client connection now)
  | .produceConnectionTask connected now, p => .ret (p.produceConnectionTask connected now)
  | .scannerConnectionTask clock, p => p.scannerConnectionTask clock
  | .destroy, p => p.destroy

/-- A client gives back only what it holds. -/
def Enabled (p : Pool) : Event → Prop
  | .release client connection _ => (client, connection) ∈ p.borrowed
  | _ => True

instance (p : Pool) : ∀ e, Decidable (Enabled p e)
  | .release client connection _ =>
    inferInstanceAs (Decidable ((client, connection) ∈ p.borrowed))
  | .getConnection _ | .produceConnectionTask .. | .scannerConnectionTask _ | .destroy =>
    .isTrue trivial

/-! ## What a step does -/

theorem getConnection_nil {client : Client} {p : Pool} (hq : p.connectionQueue = []) :
    p.getConnection client = .ret (none, { p with error := "获取连接超时，无可用连接" }) := by
  simp [getConnection, testConnectionPoolHasConnection, hq]

theorem getConnection_cons {client : Client} {p : Pool} {c : Connection} {q : List Connection}
    (hq : p.connectionQueue = c :: q) :
    p.getConnection client = .ret (some c,
      { p with connectionQueue := q, borrowed := (client, c) :: p.borrowed }) := by
  simp [getConnection, testConnectionPoolHasConnection, front, pop, hq]

/-- A client's `getConnection` returns: it finds the queue as its test left it. -/
theorem getConnection_returns (client : Client) (p : Pool) :
    ∃ r, p.getConnection client = .ret r := by
  cases hq : p.connectionQueue with
  | nil => exact ⟨_, getConnection_nil hq⟩
  | cons c q => exact ⟨_, getConnection_cons hq⟩

theorem produceConnectionTask_cases (connected : Bool) (now : Int) (p : Pool) :
    p.produceConnectionTask connected now = p ∨
      p.connectionQueue = [] ∧ p.connectionCount < p.maxSize ∧
        p.produceConnectionTask connected now = p.createConnection connected now := by
  unfold produceConnectionTask
  split
  · exact .inl rfl
  · rename_i hq
    split
    · exact .inr ⟨by simpa using hq, ‹_›, rfl⟩
    · exact .inl rfl

theorem scannerLoop_nil {clock : Nat → Int} {i : Nat} {p : Pool} :
    scannerLoop clock [] i p = if p.connectionCount > p.initSize then .fault else .ret p := by
  rw [scannerLoop]

/-- The scanner deletes the head, or its pass ends. -/
theorem scannerLoop_cons {clock : Nat → Int} {c : Connection} {q : List Connection} {i : Nat}
    {p : Pool} : scannerLoop clock (c :: q) i p =
      if p.connectionCount > p.initSize ∧ c.getAliveTime (clock i) > p.maxIdleTime then
        scannerLoop clock q (i + 1) ({ p with connectionQueue := q }.drop c)
      else .ret p := by
  rw [scannerLoop]
  by_cases hgt : p.connectionCount > p.initSize
  · simp only [hgt, if_true, true_and]
  · rw [if_neg hgt, if_neg fun h => hgt h.1]

/-- What each `drop` of the scanner keeps, a pass keeps. -/
theorem scannerLoop_invariant {I : Pool → Prop}
    (hdrop : ∀ p c q, I p → p.connectionQueue = c :: q → p.connectionCount > p.initSize →
      I ({ p with connectionQueue := q }.drop c))
    {clock : Nat → Int} {queue : List Connection} {i : Nat} {p p' : Pool} (hi : I p)
    (hq : p.connectionQueue = queue) (hr : scannerLoop clock queue i p = .ret p') : I p' := by
  induction queue generalizing i p with
  | nil =>
    rw [scannerLoop_nil] at hr
    split at hr
    · cases hr
    · cases hr; exact hi
  | cons c q ih =>
    rw [scannerLoop_cons] at hr
    split at hr
    · rename_i hdel
      exact ih (hdrop p c q hi hq hdel.1) rfl hr
    · cases hr; exact hi

/-- The scanner takes connections from the front of the queue only. -/
theorem scannerLoop_suffix {clock : Nat → Int} {queue : List Connection} {i : Nat} {p p' : Pool}
    (hq : p.connectionQueue = queue) (hr : scannerLoop clock queue i p = .ret p') :
    p'.connectionQueue <:+ p.connectionQueue ∧ p'.borrowed = p.borrowed := by
  refine scannerLoop_invariant
    (I := fun s => s.connectionQueue <:+ p.connectionQueue ∧ s.borrowed = p.borrowed) ?_
    ⟨List.suffix_rfl, rfl⟩ hq hr
  rintro s c q ⟨hs, hb⟩ hsq -
  rw [hsq] at hs
  exact ⟨(List.suffix_cons c q).trans hs, hb⟩

/-- `run` makes `initSize` connections. -/
theorem createLoop_eq (s : Settings) (connected : Nat → Bool) (clock : Nat → Int) (n : Nat) :
    (List.range n).foldl (fun p i => p.createConnection (connected i) (clock i)) (new s) =
      { new s with
        connectionQueue := (List.range n).map fun i => ⟨i, connected i, clock i⟩
        connectionCount := n
        created := n } := by
  induction n with
  | zero => rfl
  | succ n ih =>
    rw [List.range_succ, List.foldl_append, ih, List.map_append]
    rfl

theorem run_eq {s : Settings} {connected : Nat → Bool} {clock : Nat → Int} {p : Pool}
    (hrun : (new s).run connected clock = (true, p)) :
    p = { new s with
      connectionQueue := (List.range s.initSize.toNat).map fun i => ⟨i, connected i, clock i⟩
      connectionCount := s.initSize.toNat
      created := s.initSize.toNat } := by
  unfold run at hrun
  split at hrun
  · cases hrun
  · simp only [Prod.mk.injEq, true_and] at hrun
    rw [← hrun]
    exact createLoop_eq s connected clock s.initSize.toNat

/-- **The destructor always reads an empty queue**: at its start, or after its last `pop`. -/
theorem destroyLoop_cons (c : Connection) (q : List Connection) (connection : Connection)
    (p : Pool) : destroyLoop (c :: q) connection p = .fault := by
  induction q generalizing c connection p with
  | nil => rfl
  | cons d q ih =>
    rw [destroyLoop]
    simp only [front, drop, List.head?_cons, Run.ofOption_some, Run.ret_bind]
    exact ih d d _

theorem destroy_eq_fault (p : Pool) : p.destroy = .fault := by
  unfold destroy front
  cases p.connectionQueue with
  | nil => rfl
  | cons c q => exact destroyLoop_cons c q c p

/-- What a step does, with what it found. The destructor never returns. -/
inductive Moves (p : Pool) : Event → Pool → Prop
  | empty {client : Client} (hq : p.connectionQueue = []) :
      Moves p (.getConnection client) { p with error := "获取连接超时，无可用连接" }
  | take {client : Client} {c : Connection} {q : List Connection} (hq : p.connectionQueue = c :: q) :
      Moves p (.getConnection client)
        { p with connectionQueue := q, borrowed := (client, c) :: p.borrowed }
  | release {client : Client} {c : Connection} {now : Int} :
      Moves p (.release client c now) (p.release client c now)
  | wait {connected : Bool} {now : Int} : Moves p (.produceConnectionTask connected now) p
  | create {connected : Bool} {now : Int} (hq : p.connectionQueue = [])
      (hlt : p.connectionCount < p.maxSize) :
      Moves p (.produceConnectionTask connected now) (p.createConnection connected now)
  | scan {clock : Nat → Int} {p' : Pool} (hr : scannerLoop clock p.connectionQueue 0 p = .ret p') :
      Moves p (.scannerConnectionTask clock) p'

theorem moves_of_step {p p' : Pool} {e : Event} (hr : step e p = .ret p') : Moves p e p' := by
  cases e with
  | getConnection client =>
    cases hq : p.connectionQueue with
    | nil =>
      simp only [step, getConnection_nil hq, Run.ret_bind] at hr
      cases hr
      exact .empty hq
    | cons c q =>
      simp only [step, getConnection_cons hq, Run.ret_bind] at hr
      cases hr
      exact .take hq
  | release client connection now => cases hr; exact .release
  | produceConnectionTask connected now =>
    cases hr
    rcases produceConnectionTask_cases connected now p with heq | ⟨hq, hlt, heq⟩ <;> rw [heq]
    · exact .wait
    · exact .create hq hlt
  | scannerConnectionTask clock => exact .scan hr
  | destroy => rw [step, destroy_eq_fault] at hr; cases hr

end Pool

end LinuxBase
