import LinuxBase.Lib.Trace
import Mathlib.Data.List.Basic
import Mathlib.Logic.Function.Basic
import Mathlib.Tactic.Simps.Basic

/-!
# The epoll server (`tcp-server.c`)

The loop of `tcpCreateServer` over its listening sockets `fds`, with the kernel and the clients around
it. An overflow of `realLen`, and a `strncat` behind the end of `message`, are a `fault`.

* A connection has a number of its own, as its descriptor may come back after a `close`. `State` has
  what arrived on each connection, the descriptors of the accepted ones, what epoll keeps about them,
  the rest of `epollEvent`, and the place of the server in its code. Connections, data, ends of stream
  and errors may come between any two steps of the server, so between any two calls of `recv`.
* epoll is edge-triggered for clients: an arrival makes an event pending, and so does the registration
  of a socket with something to read. `epoll_wait` takes pending events away, also without a report
  if there is nothing to read. For listening sockets it is level-triggered.
* `Enabled` says what the kernel promises. `accept` succeeds, and gives a descriptor that is not in
  use; `epoll_ctl` may fail.
* `received` and the client of a `Line` are no data of the code: they say what `recv` returned for a
  connection, and for which one a message was printed.
* `step_move` says once what a step does. `exists_exec` says that `strncat` stays inside its block, so
  that only an `int` that is too small ends a run.
-/

namespace LinuxBase
namespace TcpServer

/-- `EAGAIN`. -/
def eagain : Nat := 11

/-- The greatest `int`. -/
def intMax : Nat := 0x7FFFFFFF

/-- What arrived on a connection and was not read. -/
structure Socket where
  unread : List Byte := []
  /-- The client has closed its end. -/
  eos : Bool := false

/-- `recv` would not say `EAGAIN`. -/
def Socket.Readable (k : Socket) : Prop := k.unread ≠ [] ∨ k.eos = true

instance (k : Socket) : Decidable k.Readable :=
  inferInstanceAs (Decidable (k.unread ≠ [] ∨ k.eos = true))

/-- What the code has while it handles an event of a client. -/
structure Handler where
  clientfd : Nat
  message : List Byte := []
  realLen : Nat := 0

/-- Where the server is. -/
inductive Place where
  /-- At `epoll_wait`, or between two events. -/
  | loop
  /-- Behind an `accept`, in front of the `EPOLL_CTL_ADD`. -/
  | accepted (clientfd : Nat)
  /-- At `recv`. -/
  | reading (h : Handler)
  /-- Behind the `while` loop, which `len` and `errno` ended. -/
  | ended (h : Handler) (len : Int) (errno : Nat)

/-- What a `recv` finds. -/
inductive Received where
  | bytes (len : Nat)
  | endOfStream
  | error (errno : Nat)

/-- A message that was printed, with the number in front of it. -/
structure Line where
  client : Option Nat
  count : Int
  message : List Byte

/-- The state of the server, its sockets and its epoll (module doc). -/
structure State where
  /-- The connections at a listening socket, for `accept`. -/
  queue : Nat → List Nat := fun _ => []
  /-- How many connections there were. -/
  conns : Nat := 0
  socket : Nat → Socket := fun _ => {}
  /-- The connection of a client's descriptor. -/
  file : Nat → Option Nat := fun _ => none
  registered : Nat → Bool := fun _ => false
  pending : Nat → Bool := fun _ => false
  batch : List Nat := []
  place : Place := .loop
  count : Int := 0
  output : List Line := []
  received : Nat → List Byte := fun _ => []

def isListenFd (fd : Nat) : List Nat → Nat
  | [] => 0
  | listenFd :: fds => if fd = listenFd then fd else isListenFd fd fds

/-- `a + b` as an `int`. -/
def intAdd (a b : Nat) : Run Nat := if a + b ≤ intMax then .ret (a + b) else .fault

/-- `strncat(message, buffer, len)` of the `len` octets of `buffer`, in a block of `size` octets. -/
def strncat (message buffer : List Byte) (size : Nat) : Run (List Byte) :=
  let text := message ++ buffer.takeWhile (· ≠ 0#8)
  if text.length < size then .ret text else .fault

namespace State

/-- The connection `c` makes an event pending where it is registered. -/
@[simps] def notify (s : State) (c : Nat) : State :=
  { s with pending := fun fd => s.pending fd || (s.registered fd && s.file fd == some c) }

/-- What arrives on the connection `c`. -/
@[simps] def arrive (s : State) (c : Nat) (bytes : List Byte) (eos : Bool) : State :=
  let k := s.socket c
  { s with socket := Function.update s.socket c ⟨k.unread ++ bytes, k.eos || eos⟩ }

/-- The head of `epollEvent`; `clientfd` is what an `accept` returns. -/
def next (s : State) (fds : List Nat) (clientfd : Nat) : State :=
  match s.batch with
  | [] => s
  | fd :: batch =>
    let sockfd := isListenFd fd fds
    if sockfd ≠ 0 then
      match s.queue sockfd with
      | [] => s
      | c :: queue =>
        { s with
          batch
          queue := Function.update s.queue sockfd queue
          file := Function.update s.file clientfd (some c)
          place := .accepted clientfd }
    else { s with batch, place := .reading { clientfd := fd } }

/-- The `EPOLL_CTL_ADD` of a client, with its success. -/
@[simps] def add (s : State) (clientfd : Nat) (ok : Bool) : State :=
  { s with
    registered := Function.update s.registered clientfd ok
    pending := Function.update s.pending clientfd
      (ok && (s.file clientfd).any fun c => (s.socket c).Readable)
    place := .loop }

/-- `len` octets of the connection `c` go to `recv`. -/
@[simps] def take (s : State) (c len : Nat) : State :=
  let k := s.socket c
  { s with
    socket := Function.update s.socket c { k with unread := k.unread.drop len }
    received := Function.update s.received c (s.received c ++ k.unread.take len) }

/-- A call of `recv`, and the body of the loop if it returns octets. -/
def recv (s : State) (h : Handler) : Received → Run State
  | .bytes len => do
    let c ← Run.ofOption (s.file h.clientfd)
    let buffer := (s.socket c).unread.take len
    let realLen ← intAdd h.realLen len
    let size ← intAdd realLen 1
    let message ← strncat h.message buffer size
    .ret { s.take c len with place := .reading { h with message, realLen } }
  | .endOfStream => .ret { s with place := .ended h 0 0 }
  | .error errno => .ret { s with place := .ended h (-1) errno }

/-- The `close` of a client, with the `EPOLL_CTL_DEL` and the `count--`. -/
@[simps] def close (s : State) (clientfd : Nat) : State :=
  { s with
    file := Function.update s.file clientfd none
    registered := Function.update s.registered clientfd false
    pending := Function.update s.pending clientfd false
    count := s.count - 1
    place := .loop }

/-- The `printf` of a message, with the `count++`. -/
@[simps] def print (s : State) (h : Handler) : State :=
  { s with
    output := s.output ++ [⟨s.file h.clientfd, s.count, h.message⟩]
    count := s.count + 1
    place := .loop }

attribute [grind =] notify_queue notify_socket notify_file notify_registered notify_pending
  notify_batch notify_place arrive_queue arrive_socket arrive_file arrive_registered arrive_pending
  arrive_batch arrive_place add_socket add_file add_registered add_pending add_batch add_place
  take_socket take_file take_registered take_pending take_batch close_socket close_file
  close_registered close_pending close_batch close_place print_socket print_file print_registered
  print_pending print_batch print_place

/-- What follows the loop. -/
def finish (s : State) (h : Handler) (len : Int) (errno : Nat) : State :=
  if len = 0 ∨ (len = -1 ∧ errno ≠ eagain) then s.close h.clientfd else s.print h

end State

inductive Event where
  /-- A client connects to the listening socket `fd`. -/
  | connect (fd : Nat)
  | arrive (c : Nat) (bytes : List Byte)
  /-- The client `c` closes its end. -/
  | shutdown (c : Nat)
  /-- An error on the connection `c`. -/
  | hangUp (c : Nat)
  /-- `epoll_wait` reports `batch`, and takes `dropped` away without a report. -/
  | wait (batch dropped : List Nat)
  /-- `epoll_wait` returns -1. -/
  | waitError
  | next (clientfd : Nat)
  | add (ok : Bool)
  | recv (r : Received)
  | finish

def step (fds : List Nat) : Event → State → Run State
  | .connect fd, s => .ret { s with
      queue := Function.update s.queue fd (s.queue fd ++ [s.conns]), conns := s.conns + 1 }
  | .arrive c bytes, s => .ret ((s.arrive c bytes false).notify c)
  | .shutdown c, s => .ret ((s.arrive c [] true).notify c)
  | .hangUp c, s => .ret (s.notify c)
  | .wait batch dropped, s => .ret { s with
      batch, pending := fun fd => s.pending fd && !decide (fd ∈ batch) && !decide (fd ∈ dropped) }
  | .waitError, s => .ret s
  | .next clientfd, s => .ret (s.next fds clientfd)
  | .add ok, s =>
    match s.place with
    | .accepted clientfd => .ret (s.add clientfd ok)
    | _ => .ret s
  | .recv r, s =>
    match s.place with
    | .reading h => s.recv h r
    | _ => .ret s
  | .finish, s =>
    match s.place with
    | .ended h len errno => .ret (s.finish h len errno)
    | _ => .ret s

/-- The descriptor `fd` is that of a connection with something to read. -/
def State.Readable (s : State) (fd : Nat) : Prop := ∃ c ∈ s.file fd, (s.socket c).Readable

instance (s : State) (fd : Nat) : Decidable (s.Readable fd) :=
  inferInstanceAs (Decidable (∃ c ∈ s.file fd, (s.socket c).Readable))

/-- What `recv` may find: `EAGAIN` only on an open connection with nothing to read, and the end of
the stream only behind the last octet. -/
def State.MayReceive (s : State) (fd : Nat) : Received → Prop
  | .bytes len => ∃ c ∈ s.file fd, 1 ≤ len ∧ len ≤ 1024 ∧ len ≤ (s.socket c).unread.length
  | .endOfStream => ∃ c ∈ s.file fd, (s.socket c).unread = [] ∧ (s.socket c).eos = true
  | .error errno => errno = eagain → ∃ c ∈ s.file fd, ¬ (s.socket c).Readable

instance (s : State) (fd : Nat) : DecidablePred (s.MayReceive fd)
  | .bytes len => inferInstanceAs (Decidable
      (∃ c ∈ s.file fd, 1 ≤ len ∧ len ≤ 1024 ∧ len ≤ (s.socket c).unread.length))
  | .endOfStream => inferInstanceAs (Decidable
      (∃ c ∈ s.file fd, (s.socket c).unread = [] ∧ (s.socket c).eos = true))
  | .error errno => inferInstanceAs (Decidable
      (errno = eagain → ∃ c ∈ s.file fd, ¬ (s.socket c).Readable))

namespace Place

def isLoop : Place → Bool
  | .loop => true
  | _ => false

def isAccepted : Place → Bool
  | .accepted _ => true
  | _ => false

def isEnded : Place → Bool
  | .ended .. => true
  | _ => false

/-- The handler at a `recv`. -/
def handler? : Place → Option Handler
  | .reading h => some h
  | _ => none

end Place

/-- What the kernel and the clients promise (module doc), and where the server makes a step. -/
def Enabled (fds : List Nat) (s : State) : Event → Prop
  | .connect fd => fd ∈ fds
  | .arrive c _ => c < s.conns ∧ (s.socket c).eos = false
  | .shutdown c | .hangUp c => c < s.conns
  | .wait batch dropped => s.place.isLoop ∧ s.batch = [] ∧ batch.Nodup ∧ batch.length ≤ 1024 ∧
      (∀ fd ∈ batch, s.pending fd ∨ fd ∈ fds ∧ s.queue fd ≠ []) ∧
      ∀ fd ∈ dropped, ¬ s.Readable fd
  | .waitError => s.place.isLoop ∧ s.batch = []
  | .next clientfd => s.place.isLoop ∧ s.batch ≠ [] ∧ ∀ fd ∈ s.batch.head?, isListenFd fd fds ≠ 0 →
      s.queue fd ≠ [] ∧ s.file clientfd = none ∧ clientfd ∉ fds
  | .add _ => s.place.isAccepted
  | .recv r => ∃ h ∈ s.place.handler?, s.MayReceive h.clientfd r
  | .finish => s.place.isEnded

instance (fds : List Nat) (s : State) : DecidablePred (Enabled fds s)
  | .connect fd => inferInstanceAs (Decidable (fd ∈ fds))
  | .arrive c _ => inferInstanceAs (Decidable (c < s.conns ∧ (s.socket c).eos = false))
  | .shutdown c | .hangUp c => inferInstanceAs (Decidable (c < s.conns))
  | .wait batch dropped => inferInstanceAs (Decidable (s.place.isLoop ∧ s.batch = [] ∧
      batch.Nodup ∧ batch.length ≤ 1024 ∧
      (∀ fd ∈ batch, s.pending fd ∨ fd ∈ fds ∧ s.queue fd ≠ []) ∧
      ∀ fd ∈ dropped, ¬ s.Readable fd))
  | .waitError => inferInstanceAs (Decidable (s.place.isLoop ∧ s.batch = []))
  | .next clientfd => inferInstanceAs (Decidable (s.place.isLoop ∧ s.batch ≠ [] ∧
      ∀ fd ∈ s.batch.head?, isListenFd fd fds ≠ 0 →
        s.queue fd ≠ [] ∧ s.file clientfd = none ∧ clientfd ∉ fds))
  | .add _ => inferInstanceAs (Decidable (s.place.isAccepted = true))
  | .recv r => inferInstanceAs (Decidable (∃ h ∈ s.place.handler?, s.MayReceive h.clientfd r))
  | .finish => inferInstanceAs (Decidable (s.place.isEnded = true))

/-! ## What a step does -/

/-- The steps, one constructor for each branch of the code and for each act of the others. -/
inductive Move (fds : List Nat) (s : State) : Event → State → Prop
  | connect {fd : Nat} (hfd : fd ∈ fds) :
      Move fds s (.connect fd) { s with
        queue := Function.update s.queue fd (s.queue fd ++ [s.conns]), conns := s.conns + 1 }
  | arrive {c : Nat} {bytes : List Byte} (hc : c < s.conns) (heos : (s.socket c).eos = false) :
      Move fds s (.arrive c bytes) ((s.arrive c bytes false).notify c)
  | shutdown {c : Nat} (hc : c < s.conns) :
      Move fds s (.shutdown c) ((s.arrive c [] true).notify c)
  | hangUp {c : Nat} (hc : c < s.conns) : Move fds s (.hangUp c) (s.notify c)
  | wait {batch dropped : List Nat} (hp : s.place = .loop) (hb : s.batch = [])
      (hnodup : batch.Nodup)
      (hbatch : ∀ fd ∈ batch, s.pending fd ∨ fd ∈ fds ∧ s.queue fd ≠ [])
      (hdropped : ∀ fd ∈ dropped, ¬ s.Readable fd) :
      Move fds s (.wait batch dropped) { s with
        batch, pending := fun fd => s.pending fd && !decide (fd ∈ batch) && !decide (fd ∈ dropped) }
  | waitError (hp : s.place = .loop) (hb : s.batch = []) : Move fds s .waitError s
  | accept {clientfd sockfd c : Nat} {queue batch : List Nat} (hp : s.place = .loop)
      (hb : s.batch = sockfd :: batch) (hfd : sockfd ∈ fds) (hq : s.queue sockfd = c :: queue)
      (hfree : s.file clientfd = none) (hnew : clientfd ∉ fds) :
      Move fds s (.next clientfd) { s with
        batch
        queue := Function.update s.queue sockfd queue
        file := Function.update s.file clientfd (some c)
        place := .accepted clientfd }
  | handle {clientfd fd : Nat} {batch : List Nat} (hp : s.place = .loop)
      (hb : s.batch = fd :: batch) (hfd : isListenFd fd fds = 0) :
      Move fds s (.next clientfd) { s with batch, place := .reading { clientfd := fd } }
  | add {clientfd : Nat} {ok : Bool} (hp : s.place = .accepted clientfd) :
      Move fds s (.add ok) (s.add clientfd ok)
  | bytes {h : Handler} {c len : Nat} (hp : s.place = .reading h) (hc : s.file h.clientfd = some c)
      (hpos : 1 ≤ len) (hlen : len ≤ (s.socket c).unread.length)
      (hint : h.realLen + len + 1 ≤ intMax) :
      Move fds s (.recv (.bytes len)) { s.take c len with
        place := .reading { h with
          message := h.message ++ ((s.socket c).unread.take len).takeWhile (· ≠ 0#8)
          realLen := h.realLen + len } }
  | endOfStream {h : Handler} (hp : s.place = .reading h)
      (he : ∃ c ∈ s.file h.clientfd, (s.socket c).unread = [] ∧ (s.socket c).eos = true) :
      Move fds s (.recv .endOfStream) { s with place := .ended h 0 0 }
  | error {h : Handler} {errno : Nat} (hp : s.place = .reading h)
      (he : errno = eagain → ∃ c ∈ s.file h.clientfd, ¬ (s.socket c).Readable) :
      Move fds s (.recv (.error errno)) { s with place := .ended h (-1) errno }
  | close {h : Handler} {len : Int} {errno : Nat} (hp : s.place = .ended h len errno)
      (hend : len = 0 ∨ (len = -1 ∧ errno ≠ eagain)) : Move fds s .finish (s.close h.clientfd)
  | print {h : Handler} {len : Int} {errno : Nat} (hp : s.place = .ended h len errno)
      (hend : ¬ (len = 0 ∨ (len = -1 ∧ errno ≠ eagain))) : Move fds s .finish (s.print h)

variable {fds : List Nat} {s s' : State}

theorem Place.eq_loop {p : Place} (h : p.isLoop) : p = .loop := by
  cases p with
  | loop => rfl
  | _ => cases h

theorem intAdd_eq_ret {a b n : Nat} : intAdd a b = .ret n ↔ a + b ≤ intMax ∧ n = a + b := by
  unfold intAdd
  by_cases hle : a + b ≤ intMax
  · simp [hle, eq_comm]
  · simp [hle]

theorem strncat_eq_ret {message buffer text : List Byte} {size : Nat}
    (h : strncat message buffer size = .ret text) :
    text = message ++ buffer.takeWhile (· ≠ 0#8) := by
  simp only [strncat] at h
  split at h
  · exact (Run.ret.inj h).symm
  · cases h

/-- `isListenFd` finds what is among the listening sockets. -/
theorem isListenFd_eq {fd : Nat} (h : isListenFd fd fds ≠ 0) : isListenFd fd fds = fd ∧ fd ∈ fds := by
  induction fds with
  | nil => exact absurd rfl h
  | cons listenFd fds ih =>
    unfold isListenFd at h ⊢
    by_cases he : fd = listenFd
    · rw [if_pos he]
      exact ⟨rfl, he ▸ List.mem_cons_self⟩
    · rw [if_neg he] at h ⊢
      exact ⟨(ih h).1, List.mem_cons_of_mem _ (ih h).2⟩

theorem move_of_next {clientfd : Nat} (he : Enabled fds s (.next clientfd)) :
    Move fds s (.next clientfd) (s.next fds clientfd) := by
  obtain ⟨hloop, hne, hkernel⟩ := he
  have hp := Place.eq_loop hloop
  unfold State.next
  cases hb : s.batch with
  | nil => exact absurd hb hne
  | cons fd batch =>
    simp only
    by_cases hfd : isListenFd fd fds ≠ 0
    · obtain ⟨hsame, hmem⟩ := isListenFd_eq hfd
      obtain ⟨hq, hfree, hnew⟩ := hkernel fd (by rw [hb]; rfl) hfd
      rw [if_pos hfd, hsame]
      cases hqueue : s.queue fd with
      | nil => exact absurd hqueue hq
      | cons c queue => exact .accept hp hb hmem hqueue hfree hnew
    · rw [if_neg hfd]
      exact .handle hp hb (not_not.mp hfd)

theorem move_of_recv {h : Handler} {r : Received} (hp : s.place = .reading h)
    (he : s.MayReceive h.clientfd r) (hr : s.recv h r = .ret s') : Move fds s (.recv r) s' := by
  cases r with
  | bytes len =>
    obtain ⟨c, hc, hpos, -, hlen⟩ := he
    obtain ⟨c', hc', hr⟩ := Run.bind_eq_ret.mp hr
    obtain ⟨realLen, hreal, hr⟩ := Run.bind_eq_ret.mp hr
    obtain ⟨size, hsize, hr⟩ := Run.bind_eq_ret.mp hr
    obtain ⟨message, hmessage, hr⟩ := Run.bind_eq_ret.mp hr
    obtain rfl : c' = c := Option.some.inj ((Run.ofOption_eq_ret.mp hc').symm.trans hc)
    obtain ⟨-, rfl⟩ := intAdd_eq_ret.mp hreal
    obtain ⟨hint, -⟩ := intAdd_eq_ret.mp hsize
    obtain rfl := strncat_eq_ret hmessage
    cases hr
    exact .bytes hp hc hpos hlen hint
  | endOfStream =>
    cases hr
    exact .endOfStream hp he
  | error errno =>
    cases hr
    exact .error hp he

/-- **What a step does.** -/
theorem step_move {e : Event} (he : Enabled fds s e) (h : step fds e s = .ret s') :
    Move fds s e s' := by
  cases e with
  | connect fd => cases h; exact .connect he
  | arrive c bytes => cases h; exact .arrive he.1 he.2
  | shutdown c => cases h; exact .shutdown he
  | hangUp c => cases h; exact .hangUp he
  | wait batch dropped =>
    obtain ⟨hloop, hb, hnodup, -, hbatch, hdropped⟩ := he
    cases h
    exact .wait (Place.eq_loop hloop) hb hnodup hbatch hdropped
  | waitError => cases h; exact .waitError (Place.eq_loop he.1) he.2
  | next clientfd => cases h; exact move_of_next he
  | add ok =>
    cases hp : s.place with
    | accepted clientfd =>
      simp only [step, hp] at h
      cases h
      exact .add hp
    | loop | reading | ended => rw [Enabled, hp] at he; cases he
  | recv r =>
    obtain ⟨h', hp, hmay⟩ := he
    cases hplace : s.place with
    | reading h'' =>
      simp only [step, hplace] at h
      rw [hplace] at hp
      cases hp
      exact move_of_recv hplace hmay h
    | loop | accepted | ended => rw [hplace] at hp; cases hp
  | finish =>
    cases hp : s.place with
    | ended h' len errno =>
      simp only [step, hp] at h
      cases h
      unfold State.finish
      split
      · exact .close hp ‹_›
      · exact .print hp ‹_›
    | loop | accepted | reading => rw [Enabled, hp] at he; cases he

/-! ## The message -/

/-- The block of `message` has room for what `realLen` counts. -/
def Fits (s : State) : Prop := ∀ h, s.place = .reading h → h.message.length ≤ h.realLen

/-- The octets of an event do not exceed an `int`, with the NUL behind them. -/
def IntEnough (s : State) : Event → Prop
  | .recv (.bytes len) => ∀ h ∈ s.place.handler?, h.realLen + len + 1 ≤ intMax
  | _ => True

theorem length_takeWhile_take_le (bytes : List Byte) (len : Nat) :
    ((bytes.take len).takeWhile (· ≠ 0#8)).length ≤ len :=
  Nat.le_trans (List.takeWhile_prefix _).length_le (List.length_take_le _ _)

theorem Fits.move {e : Event} (hf : Fits s) (hm : Move fds s e s') : Fits s' := by
  cases hm with
  | handle =>
    rintro _ ⟨⟩
    exact Nat.le_refl 0
  | @bytes h c len hp hc hpos hlen hint =>
    rintro _ ⟨⟩
    have hroom := hf h hp
    have htext := length_takeWhile_take_le (s.socket c).unread len
    simp only [List.length_append]
    omega
  | accept | add | endOfStream | error | close | print => nofun
  | connect | arrive | shutdown | hangUp | wait | waitError => exact hf

/-- A step returns, unless a sum of its octets is no `int`. -/
theorem exists_step {e : Event} (hf : Fits s) (he : Enabled fds s e) (hint : IntEnough s e) :
    ∃ s', step fds e s = .ret s' := by
  cases e with
  | recv r =>
    obtain ⟨h, hh, hmay⟩ := he
    cases hp : s.place with
    | reading k =>
      rw [hp] at hh
      cases hh
      cases r with
      | bytes len =>
        obtain ⟨c, hc, -⟩ := hmay
        have hsum : h.realLen + len + 1 ≤ intMax := hint h (by rw [hp]; rfl)
        have hroom := hf h hp
        have htext := length_takeWhile_take_le (s.socket c).unread len
        have hreal : intAdd h.realLen len = .ret (h.realLen + len) :=
          intAdd_eq_ret.mpr ⟨by omega, rfl⟩
        have hsize : intAdd (h.realLen + len) 1 = .ret (h.realLen + len + 1) :=
          intAdd_eq_ret.mpr ⟨hsum, rfl⟩
        have hcat : ∃ text, strncat h.message ((s.socket c).unread.take len)
            (h.realLen + len + 1) = .ret text :=
          ⟨_, if_pos (by rw [List.length_append]; omega)⟩
        obtain ⟨text, hcat⟩ := hcat
        simp only [step, hp, State.recv, show s.file h.clientfd = some c from hc,
          Run.ofOption_some, Run.ret_bind, hreal, hsize, hcat]
        exact ⟨_, rfl⟩
      | endOfStream | error =>
        simp only [step, hp]
        exact ⟨_, rfl⟩
    | loop | accepted | ended => rw [hp] at hh; cases hh
  | add | finish =>
    simp only [step]
    split <;> exact ⟨_, rfl⟩
  | connect | arrive | shutdown | hangUp | wait | waitError | next => exact ⟨_, rfl⟩

/-- A run returns, unless the octets of one event exceed an `int`. -/
theorem exists_exec {es : List Event} (hes : Along (step fds) (Enabled fds) {} es)
    (hint : Along (step fds) IntEnough {} es) : ∃ s, exec (step fds) es {} = .ret s := by
  have hstart : Fits {} := nofun
  obtain ⟨s, hs, -⟩ := exec_progress (fun s e hf ⟨he, hi⟩ => by
    obtain ⟨s', hs'⟩ := exists_step hf he hi
    exact ⟨s', hs', hf.move (step_move he hs')⟩) hstart (hes.and hint)
  exact ⟨s, hs⟩

end TcpServer
end LinuxBase
