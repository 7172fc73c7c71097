import LinuxBase.Lib.StringFunctions
import LinuxBase.Lib.Tally
import LinuxBase.Lib.Trace

/-!
# The load client (`tcp-connect.c`)

The loop of `main`: an iteration connects one more socket, and if it is time to, `epoll_wait` reports
ready events, which are handled one after the other. What the kernel and the peer do are the arguments
of an `Event`; `Enabled` says what the kernel promises. A `printf` behind the end of `rBuffer` is a
`fault`.

`isOpen` and `log` are no data of the code: the client sockets that were opened and not closed, and the
ready events that were handled, with the `send` or `recv` for each.

The handler uses `sockfd`, the socket that this iteration has opened, in place of `clientfd`, writes
to a socket that is also readable, and counts down only for the end of a stream. So the bookkeeping is
right in all states of a run exactly if each ready event is of the new socket, is either readable or
writable, and has no error but `EINTR` (`bookkeeping_iff`).
-/

namespace LinuxBase
namespace TcpConnect

open CString

/-- `EINTR`. -/
def eintr : Nat := 4

def maxBuffer : Nat := 128

def maxPort : Nat := 100

/-- The text `quit`. -/
def quit : List Byte := [113, 117, 105, 116]

/-- An event of `epoll_wait`: its descriptor, and two of its bits. -/
structure Ready where
  fd : Nat
  epollin : Bool
  epollout : Bool
  deriving DecidableEq

/-- What `recv` returns. -/
inductive Received where
  | bytes (bytes : List Byte)
  | endOfStream
  | error (errno : Nat)
  deriving DecidableEq

inductive Op where
  | send
  | recv
  deriving DecidableEq

/-- A `send` or a `recv`, and its descriptor. -/
structure Access where
  op : Op
  fd : Nat
  deriving DecidableEq

/-- A ready event, and what was done for it. -/
structure Handled where
  event : Ready
  access : Option Access
  deriving DecidableEq

/-- Where the client is. -/
inductive Place where
  /-- At the head of the `while` loop. -/
  | top
  /-- At `epoll_wait`. -/
  | waiting
  /-- At the event `ev`, with `rest` behind it. -/
  | ready (ev : Ready) (rest : List Ready)
  /-- Behind the `recv` for `ev`. -/
  | received (ev : Ready) (rest : List Ready) (r : Received)
  /-- At `err`. -/
  | err

structure State where
  index : Nat := 0
  isContinue : Int := 0
  connections : Int := 0
  sockfd : Nat := 0
  place : Place := .top
  isOpen : Nat → Bool := fun _ => false
  log : List Handled := []

/-- The next iteration of the `for` loop, or of the `while` loop behind the last event. -/
def Place.next : List Ready → Place
  | [] => .top
  | ev :: rest => .ready ev rest

namespace State

/-- Whether this iteration calls `epoll_wait`. -/
def check (s : State) : State :=
  { s with place :=
      if s.connections.tmod 1000 = 999 ∨ 340000 ≤ s.connections then .waiting else .top }

/-- An iteration up to `epoll_wait`: what `socket` and `connect` return. -/
def top (s : State) (socket : Option Nat) (connected : Bool) : State :=
  let s : State := { s with index := if maxPort ≤ s.index + 1 then 0 else s.index + 1, sockfd := 0 }
  if s.connections < 340000 ∧ s.isContinue = 0 then
    match socket with
    | none => { s with place := .err }
    | some sockfd =>
      let s : State := { s with sockfd, isOpen := Function.update s.isOpen sockfd true }
      if connected then { s with connections := s.connections + 1 }.check
      else { s with place := .err }
  else s.check

/-- The `close` of the socket of an event. -/
def close (s : State) (fd : Nat) : State := { s with isOpen := Function.update s.isOpen fd false }

/-- The branches of the handler up to `recv`. -/
def handle (s : State) (ev : Ready) (rest : List Ready) (r : Received) : State :=
  if ev.epollout then
    { s with log := s.log ++ [⟨ev, some ⟨.send, s.sockfd⟩⟩], place := .next rest }
  else if ev.epollin then
    { s with log := s.log ++ [⟨ev, some ⟨.recv, s.sockfd⟩⟩], place := .received ev rest r }
  else { s.close ev.fd with log := s.log ++ [⟨ev, none⟩], place := .next rest }

/-- What follows a `recv`. -/
def finish (s : State) (ev : Ready) (rest : List Ready) : Received → Run State
  | .bytes bytes => do
    let rBuffer := bytes ++ List.replicate (maxBuffer - bytes.length) 0#8
    let _ ← strlen rBuffer
    .ret { s with
      isContinue := if text rBuffer = quit then 0 else s.isContinue, place := .next rest }
  | .endOfStream => .ret { s.close ev.fd with connections := s.connections - 1, place := .next rest }
  | .error errno =>
    if errno = eintr then .ret { s with place := .next rest }
    else .ret { s.close ev.fd with place := .next rest }

end State

inductive Event where
  | top (socket : Option Nat) (connected : Bool)
  /-- `epoll_wait` reports `ready`; nothing if it fails. -/
  | wait (ready : List Ready)
  /-- `r` is for a `recv`. -/
  | handle (r : Received)
  | finish

def step : Event → State → Run State
  | .top socket connected, s => .ret (s.top socket connected)
  | .wait ready, s => .ret { s with place := .next ready }
  | .handle r, s =>
    match s.place with
    | .ready ev rest => .ret (s.handle ev rest r)
    | _ => .ret s
  | .finish, s =>
    match s.place with
    | .received ev rest r => s.finish ev rest r
    | _ => .ret s

/-- A `recv` gets from 1 to `MAX_BUFFER` octets. -/
def Received.Valid : Received → Prop
  | .bytes bs => 1 ≤ bs.length ∧ bs.length ≤ maxBuffer
  | .endOfStream | .error _ => True

/-- What the kernel promises: a new socket has a descriptor that is not in use, and `epoll_wait` reports
open sockets, each once, and not more than it has room for. -/
def Enabled (s : State) : Event → Prop
  | .top socket _ => s.place = .top ∧ ∀ fd ∈ socket, s.isOpen fd = false
  | .wait ready => s.place = .waiting ∧ (ready.map Ready.fd).Nodup ∧
      (∀ ev ∈ ready, s.isOpen ev.fd = true) ∧ ready.length ≤ s.connections
  | .handle r => (∃ ev rest, s.place = .ready ev rest) ∧ r.Valid
  | .finish => ∃ ev rest r, s.place = .received ev rest r

/-! ## The bookkeeping -/

/-- The access for a ready event is one of its own descriptor, and a `recv` if it is readable. -/
def Handled.Right (h : Handled) : Prop :=
  (∀ a ∈ h.access, a.fd = h.event.fd) ∧ (h.event.epollin = true → ∃ a ∈ h.access, a.op = .recv)

/-- `connections` is the number of the open sockets, and the accesses for ready events are right. -/
structure State.Kept (s : State) : Prop where
  connections : Counts (fun fd => s.isOpen fd = true) s.connections
  log : ∀ h ∈ s.log, h.Right

/-- A ready event is of the new socket, and is either readable or writable. An error is `EINTR`. -/
def Harmless (s : State) : Event → Prop
  | .handle _ => ∀ ev rest, s.place = .ready ev rest →
      ev.fd = s.sockfd ∧ (ev.epollout = true ↔ ev.epollin = false)
  | .finish => ∀ ev rest errno, s.place = .received ev rest (.error errno) → errno = eintr
  | .top .. | .wait _ => True

/-- The events that are not handled yet. -/
def Place.events : Place → List Ready
  | .ready ev rest | .received ev rest _ => ev :: rest
  | .top | .waiting | .err => []

/-- The events that are not handled yet are of open sockets, each of another one. -/
structure State.Batch (s : State) : Prop where
  nodup : (s.place.events.map Ready.fd).Nodup
  isOpen : ∀ ev ∈ s.place.events, s.isOpen ev.fd = true

variable {s s' : State} {ev : Ready} {rest : List Ready}

/-! ## An iteration -/

@[simp] theorem events_next (rest : List Ready) : (Place.next rest).events = rest := by
  cases rest <;> rfl

theorem check_place (s : State) : s.check.place = .waiting ∨ s.check.place = .top := by
  unfold State.check
  split
  · exact .inl rfl
  · exact .inr rfl

theorem check_events (s : State) : s.check.place.events = [] := by
  rcases check_place s with hp | hp <;> rw [hp] <;> rfl

theorem top_events (s : State) (socket : Option Nat) (connected : Bool) :
    (s.top socket connected).place.events = [] := by
  unfold State.top
  simp only
  split
  · cases socket with
    | none => rfl
    | some fd =>
      cases connected with
      | false => rfl
      | true => exact check_events _
  · exact check_events _

/-- A connected socket is counted. -/
theorem State.Kept.top (h : s.Kept) {socket : Option Nat} (hfree : ∀ fd ∈ socket, s.isOpen fd = false)
    (connected : Bool) (hp : (s.top socket connected).place ≠ .err) :
    (s.top socket connected).Kept := by
  unfold State.top at hp ⊢
  simp only at hp ⊢
  split at hp
  · rw [if_pos ‹_›]
    cases socket with
    | none => exact absurd rfl hp
    | some fd =>
      cases connected with
      | false => exact absurd rfl hp
      | true =>
        have hfd := hfree fd rfl
        refine ⟨h.connections.insert (a := fd) (by simp [hfd]) fun fd' => ?_, h.log⟩
        simp only [State.check, if_true]
        by_cases he : fd' = fd
        · simp [he]
        · simp [he]
  · rw [if_neg ‹_›]
    exact ⟨h.connections, h.log⟩

/-! ## A ready event -/

theorem counts_close {n : Int} (h : Counts (fun fd => s.isOpen fd = true) n) {fd : Nat}
    (hfd : s.isOpen fd = true) : Counts (fun fd' => (s.close fd).isOpen fd' = true) (n - 1) := by
  refine h.erase hfd fun fd' => ?_
  rw [State.close]
  by_cases he : fd' = fd
  · simp [he]
  · simp [he]

/-- A close that is not counted. -/
theorem not_counts_close {n : Int} (h : Counts (fun fd => s.isOpen fd = true) n) {fd : Nat}
    (hfd : s.isOpen fd = true) : ¬ Counts (fun fd' => (s.close fd).isOpen fd' = true) n := by
  intro h'
  have := h'.unique (counts_close h hfd)
  omega

/-- The socket of the event may be closed. -/
theorem State.Batch.next (hb : s.Batch) (hp : s.place.events = ev :: rest)
    (hp' : s'.place = .next rest)
    (hopen : ∀ fd, fd ≠ ev.fd → s.isOpen fd = true → s'.isOpen fd = true) : s'.Batch := by
  obtain ⟨hnodup, hall⟩ := hb
  rw [hp] at hnodup hall
  rw [List.map_cons, List.nodup_cons] at hnodup
  refine ⟨by rw [hp', events_next]; exact hnodup.2, fun e he => ?_⟩
  rw [hp', events_next] at he
  refine hopen e.fd (fun hfd => hnodup.1 ?_) (hall e (List.mem_cons_of_mem _ he))
  rw [← hfd]
  exact List.mem_map_of_mem he

theorem isOpen_close {fd fd' : Nat} (hne : fd' ≠ fd) (h : s.isOpen fd' = true) :
    (s.close fd).isOpen fd' = true := by
  rw [State.close]
  simpa [hne] using h

theorem State.Batch.handle (hb : s.Batch) (hp : s.place = .ready ev rest) (r : Received) :
    (s.handle ev rest r).Batch := by
  have hevents : s.place.events = ev :: rest := by rw [hp]; rfl
  unfold State.handle
  split
  · exact hb.next hevents rfl fun _ _ h => h
  · split
    · refine ⟨?_, ?_⟩
      · have hnodup := hb.nodup
        rwa [hevents] at hnodup
      · have hall := hb.isOpen
        rwa [hevents] at hall
    · exact hb.next hevents rfl fun _ hne h => isOpen_close hne h

theorem State.Batch.finish (hb : s.Batch) {r : Received} (hp : s.place = .received ev rest r)
    (h : s.finish ev rest r = .ret s') : s'.Batch := by
  have hevents : s.place.events = ev :: rest := by rw [hp]; rfl
  cases r with
  | bytes bytes =>
    obtain ⟨-, -, hret⟩ := Run.bind_eq_ret.mp h
    cases hret
    exact hb.next hevents rfl fun _ _ h => h
  | endOfStream =>
    cases h
    exact hb.next hevents rfl fun _ hne h => isOpen_close hne h
  | error errno =>
    simp only [State.finish] at h
    split at h
    · cases h
      exact hb.next hevents rfl fun _ _ h => h
    · cases h
      exact hb.next hevents rfl fun _ hne h => isOpen_close hne h

theorem next_place (rest : List Ready) : Place.next rest ≠ .err := by
  cases rest <;> exact nofun

theorem handle_place (s : State) (ev : Ready) (rest : List Ready) (r : Received) :
    (s.handle ev rest r).place ≠ .err := by
  unfold State.handle
  split
  · exact next_place rest
  · split
    · exact nofun
    · exact next_place rest

/-- An event of the new socket that is either readable or writable. -/
theorem State.Kept.handle (h : s.Kept) (hfd : ev.fd = s.sockfd)
    (hone : ev.epollout = true ↔ ev.epollin = false) (rest : List Ready) (r : Received) :
    (s.handle ev rest r).Kept := by
  have hlog (k : Handled) (hk : k.Right) : ∀ k' ∈ s.log ++ [k], k'.Right := by
    rw [List.forall_mem_append, List.forall_mem_singleton]
    exact ⟨h.log, hk⟩
  unfold State.handle
  cases hout : ev.epollout with
  | true =>
    refine ⟨h.connections, hlog _ ⟨?_, fun hin => ?_⟩⟩
    · rintro _ ⟨⟩
      exact hfd.symm
    · exact absurd (hin.symm.trans (hone.mp hout)) nofun
  | false =>
    have hin : ev.epollin = true := by
      rw [← Bool.not_eq_false, ← hone, hout]
      exact nofun
    rw [if_neg nofun, if_pos hin]
    refine ⟨h.connections, hlog _ ⟨?_, fun _ => ⟨_, rfl, rfl⟩⟩⟩
    rintro _ ⟨⟩
    exact hfd.symm

/-- Another event is handled with the wrong access, or its socket is closed without a count. -/
theorem not_kept_handle (h : s.Kept) (hopen : s.isOpen ev.fd = true)
    (hbad : ¬ (ev.fd = s.sockfd ∧ (ev.epollout = true ↔ ev.epollin = false))) (rest : List Ready)
    (r : Received) : ¬ (s.handle ev rest r).Kept := by
  unfold State.handle
  cases hout : ev.epollout with
  | true =>
    rintro ⟨-, hlog⟩
    obtain ⟨hfd, hrecv⟩ := hlog _ (List.mem_append_right _ List.mem_cons_self)
    refine hbad ⟨(hfd _ rfl).symm, iff_of_true hout ?_⟩
    -- A readable event would have been read.
    refine Bool.eq_false_iff.mpr fun hin => ?_
    obtain ⟨a, ha, hop⟩ := hrecv hin
    cases ha
    cases hop
  | false =>
    cases hin : ev.epollin with
    | true =>
      rintro ⟨-, hlog⟩
      obtain ⟨hfd, -⟩ := hlog _ (List.mem_append_right _ List.mem_cons_self)
      exact hbad ⟨(hfd _ rfl).symm, iff_of_false (by simp [hout]) (by simp [hin])⟩
    | false => exact fun h' => not_counts_close h.connections hopen h'.connections

/-- The end of a stream is counted, and `EINTR` changes nothing. -/
theorem State.Kept.finish (h : s.Kept) (hopen : s.isOpen ev.fd = true) {r : Received}
    (hintr : ∀ errno, r = .error errno → errno = eintr) (hs' : s.finish ev rest r = .ret s') :
    s'.Kept := by
  cases r with
  | bytes bytes =>
    obtain ⟨-, -, hret⟩ := Run.bind_eq_ret.mp hs'
    cases hret
    exact ⟨h.connections, h.log⟩
  | endOfStream =>
    cases hs'
    exact ⟨counts_close h.connections hopen, h.log⟩
  | error errno =>
    simp only [State.finish, if_pos (hintr errno rfl)] at hs'
    cases hs'
    exact ⟨h.connections, h.log⟩

/-- Another error closes the socket without a count. -/
theorem not_kept_finish (rest : List Ready) (h : s.Kept) (hopen : s.isOpen ev.fd = true) {errno : Nat}
    (hintr : errno ≠ eintr) :
    ∃ s', s.finish ev rest (.error errno) = .ret s' ∧ s'.place ≠ .err ∧ ¬ s'.Kept := by
  exact ⟨_, if_neg hintr, next_place rest,
    fun h' => not_counts_close h.connections hopen h'.connections⟩

/-! ## The runs -/

/-- The bookkeeping is right unless the client has left the loop, and its events are of open sockets. -/
structure Inv (s : State) : Prop where
  kept : s.place ≠ .err → s.Kept
  batch : s.Batch

theorem inv_init : Inv {} where
  kept _ := ⟨counts_zero fun _ => nofun, nofun⟩
  batch := ⟨List.nodup_nil, nofun⟩

/-- At a ready event, the bookkeeping is right and the socket is open. -/
theorem Inv.current (hi : Inv s) (hp : s.place.events = ev :: rest) :
    s.Kept ∧ s.isOpen ev.fd = true := by
  refine ⟨hi.kept fun herr => ?_, hi.batch.isOpen ev (by rw [hp]; exact List.mem_cons_self)⟩
  rw [herr] at hp
  cases hp

theorem Inv.step {e : Event} (hi : Inv s) (he : Enabled s e) (hc : Harmless s e)
    (h : TcpConnect.step e s = .ret s') : Inv s' := by
  cases e with
  | top socket connected =>
    cases h
    obtain ⟨hp, hfree⟩ := he
    have hkept := hi.kept (by rw [hp]; exact nofun)
    refine ⟨hkept.top hfree connected, ?_⟩
    have hevents := top_events s socket connected
    exact ⟨by rw [hevents]; exact List.nodup_nil, by rw [hevents]; exact nofun⟩
  | wait ready =>
    cases h
    obtain ⟨hp, hnodup, hall, -⟩ := he
    have hkept := hi.kept (by rw [hp]; exact nofun)
    refine ⟨fun _ => ⟨hkept.connections, hkept.log⟩, ?_, ?_⟩
    · rwa [events_next]
    · rwa [events_next]
  | handle r =>
    obtain ⟨⟨ev, rest, hp⟩, -⟩ := he
    obtain ⟨hkept, -⟩ := hi.current (by rw [hp]; rfl)
    obtain ⟨hfd, hone⟩ := hc ev rest hp
    simp only [TcpConnect.step, hp] at h
    cases h
    exact ⟨fun _ => hkept.handle hfd hone rest r, hi.batch.handle hp r⟩
  | finish =>
    obtain ⟨ev, rest, r, hp⟩ := he
    obtain ⟨hkept, hopen⟩ := hi.current (by rw [hp]; rfl)
    simp only [TcpConnect.step, hp] at h
    refine ⟨fun _ => hkept.finish hopen (fun errno hr => ?_) h, hi.batch.finish hp h⟩
    exact hc ev rest errno (by rw [hp, hr])

theorem not_kept_step {e : Event} (hi : Inv s) (he : Enabled s e) (hc : ¬ Harmless s e) :
    ∃ s', step e s = .ret s' ∧ ¬ (s'.place ≠ .err → s'.Kept) := by
  cases e with
  | top | wait => exact absurd trivial hc
  | handle r =>
    obtain ⟨⟨ev, rest, hp⟩, -⟩ := he
    obtain ⟨hkept, hopen⟩ := hi.current (by rw [hp]; rfl)
    have hbad : ¬ (ev.fd = s.sockfd ∧ (ev.epollout = true ↔ ev.epollin = false)) := by
      intro hgood
      refine hc fun ev' rest' hp' => ?_
      rw [hp] at hp'
      cases hp'
      exact hgood
    refine ⟨s.handle ev rest r, by rw [step, hp], fun hgood => ?_⟩
    exact not_kept_handle hkept hopen hbad rest r (hgood (handle_place s ev rest r))
  | finish =>
    simp only [Harmless, Classical.not_forall] at hc
    obtain ⟨ev, rest, errno, hp, hintr⟩ := hc
    obtain ⟨hkept, hopen⟩ := hi.current (by rw [hp]; rfl)
    obtain ⟨s', hs', hplace, hbad⟩ := not_kept_finish rest hkept hopen hintr
    exact ⟨s', by rw [step, hp]; exact hs', fun hgood => hbad (hgood hplace)⟩

/-- **The bookkeeping.** In every state of a run in the loop, `connections` is the number of the open
sockets and each access for a ready event was one of its descriptor, and a `recv` if it is readable,
exactly if each ready event is of the new socket, is either readable or writable, and has no error but
`EINTR`. -/
theorem bookkeeping_iff {es : List Event} (hes : Along step Enabled {} es) :
    (∀ s, Visits step {} es s → s.place ≠ .err → s.Kept) ↔ Along step Harmless {} es := by
  refine visits_iff (I := Inv) (fun s hi => hi.kept) ?_ ?_ inv_init hes
  · exact fun s e s' hi he hc h => hi.step he hc h
  · exact fun s e hi he hc => not_kept_step hi he hc

/-! ## The first thousand iterations -/

/-- `n` iterations that connect the descriptors from 5 on. Irreducible, as a run of 999 of them is not
to be evaluated: `exec_connects` says what they leave. -/
@[irreducible] def connects (n : Nat) : List Event :=
  (List.range n).map fun i => .top (some (i + 5)) true

/-- What they leave. -/
structure Connected (n : Nat) (s : State) : Prop where
  isContinue : s.isContinue = 0
  connections : s.connections = n
  sockfd : 0 < n → s.sockfd = n + 4
  isOpen : ∀ fd, s.isOpen fd = true ↔ 5 ≤ fd ∧ fd < n + 5
  place : s.place = if n = 999 then .waiting else .top

theorem connects_zero : connects 0 = [] := by
  rw [connects]
  rfl

theorem connects_succ (n : Nat) : connects (n + 1) = connects n ++ [.top (some (n + 5)) true] := by
  rw [connects, connects, List.range_succ, List.map_append]
  rfl

theorem connected_succ {n : Nat} (h : Connected n s) (hn : n < 999) :
    Connected (n + 1) (s.top (some (n + 5)) true) := by
  obtain ⟨hcontinue, hcount, -, hopen, -⟩ := h
  have hgo : s.connections < 340000 ∧ s.isContinue = 0 := ⟨by omega, hcontinue⟩
  simp only [State.top, if_pos hgo, if_true]
  refine ⟨hcontinue, by simp [State.check, hcount], fun _ => rfl, fun fd => ?_, ?_⟩
  · show Function.update s.isOpen (n + 5) true fd = true ↔ _
    by_cases he : fd = n + 5
    · simp [he]
    · rw [Function.update_of_ne he, hopen]
      omega
  · have hmod : (s.connections + 1).tmod 1000 = n + 1 := by
      rw [hcount, Int.tmod_eq_emod_of_nonneg (by omega)]
      omega
    simp only [State.check, hmod]
    by_cases h999 : n + 1 = 999
    · rw [if_pos (by omega), if_pos h999]
    · rw [if_neg (by omega), if_neg h999]

theorem exec_connects {n : Nat} (hn : n ≤ 999) : Along step Enabled {} (connects n) ∧
    Along step Harmless {} (connects n) ∧
    ∃ s, exec step (connects n) {} = .ret s ∧ Connected n s := by
  induction n with
  | zero =>
    rw [connects_zero]
    refine ⟨trivial, trivial, {}, rfl, rfl, rfl, nofun, fun fd => ?_, rfl⟩
    exact iff_of_false nofun (by omega)
  | succ n ih =>
    obtain ⟨he, hc, s, hs, hconnected⟩ := ih (Nat.le_of_succ_le hn)
    rw [connects_succ, along_append, along_append, exec_append, hs]
    refine ⟨⟨he, ?_⟩, ⟨hc, fun _ _ => ⟨trivial, trivial⟩⟩, _, rfl, connected_succ hconnected hn⟩
    rintro _ ⟨⟩
    refine along_cons.mpr ⟨⟨?_, ?_⟩, fun _ _ => trivial⟩
    · rw [hconnected.place, if_neg (by omega)]
    · rintro _ ⟨⟩
      rw [← Bool.not_eq_true, hconnected.isOpen]
      omega

variable {n : Nat} {r : Received}

/-- One event in the first batch, of any of the sockets. -/
theorem enabled_first (h : Connected n s) (hn : n = 999) (hlow : 5 ≤ ev.fd) (hhigh : ev.fd < 1004)
    (hr : r.Valid) : Along step Enabled s [.wait [ev], .handle r] := by
  subst hn
  refine ⟨⟨h.place, List.nodup_singleton _, ?_, ?_⟩, ⟨⟨ev, [], rfl⟩, hr⟩, trivial⟩
  · rw [List.forall_mem_singleton, h.isOpen]
    exact ⟨hlow, hhigh⟩
  · rw [h.connections, List.length_singleton]
    decide

/-- An event of one of the sockets that is not harmless. -/
theorem not_kept_first (hn : n = 999) (hlow : 5 ≤ ev.fd) (hhigh : ev.fd < 1004) (hr : r.Valid)
    (hbad : ¬ (ev.fd = 1003 ∧ (ev.epollout = true ↔ ev.epollin = false))) :
    let es := connects n ++ [.wait [ev], .handle r]
    Along step Enabled {} es ∧ ∃ s, Visits step {} es s ∧ s.place ≠ .err ∧ ¬ s.Kept := by
  intro es
  obtain ⟨he, hc, s, hs, hconnected⟩ := exec_connects (Nat.le_of_eq hn)
  have hi : Inv s := exec_invariant (P := fun s e => Enabled s e ∧ Harmless s e)
    (fun _ _ _ hi he h => hi.step he.1 he.2 h) inv_init (he.and hc) hs
  have hkept := hi.kept (by rw [hconnected.place, if_pos hn]; exact nofun)
  have hopen : s.isOpen ev.fd = true := (hconnected.isOpen _).mpr ⟨hlow, by omega⟩
  refine ⟨along_append.mpr ⟨he, ?_⟩, { s with place := .ready ev [] }.handle ev [] r,
    visits_end ?_, handle_place _ ev [] r, ?_⟩
  · intro s' hs'
    rw [hs] at hs'
    cases hs'
    exact enabled_first hconnected hn hlow hhigh hr
  · rw [exec_append, hs]
    rfl
  · have hkept' : State.Kept { s with place := .ready ev [] } := ⟨hkept.connections, hkept.log⟩
    refine not_kept_handle hkept' hopen (fun hgood => hbad ⟨?_, hgood.2⟩) [] r
    have hsockfd := hconnected.sockfd (by omega)
    rw [hgood.1]
    show s.sockfd = 1003
    omega

/-- The run in which the new socket is readable, and the server says `quit`. -/
theorem harmless_quit (hn : n = 999) :
    let es := connects n ++ [.wait [⟨1003, true, false⟩], .handle (.bytes quit), .finish]
    Along step Enabled {} es ∧ Along step Harmless {} es := by
  intro es
  obtain ⟨he, hc, s, hs, hconnected⟩ := exec_connects (Nat.le_of_eq hn)
  refine ⟨along_append.mpr ⟨he, fun s' hs' => ?_⟩, along_append.mpr ⟨hc, fun s' hs' => ?_⟩⟩ <;>
    rw [hs] at hs' <;> cases hs'
  · let ev : Ready := ⟨1003, true, false⟩
    have hlow : 5 ≤ ev.fd := by decide
    have hhigh : ev.fd < 1004 := by decide
    have hquit : (Received.bytes quit).Valid := ⟨by decide, by decide⟩
    obtain ⟨hwait, hhandle, -⟩ := enabled_first hconnected hn hlow hhigh hquit
    exact ⟨hwait, hhandle, ⟨_, _, _, rfl⟩, trivial⟩
  · have hsockfd := hconnected.sockfd (by omega)
    refine ⟨trivial, ?_, ?_, trivial⟩
    · rintro _ _ ⟨⟩
      exact ⟨by show 1003 = s.sockfd; omega, by decide⟩
    · rintro _ _ _ ⟨⟩

theorem bookkeeping_iff_quit :
    let es := connects 999 ++ [.wait [⟨1003, true, false⟩], .handle (.bytes quit), .finish]
    Along step Enabled {} es ∧ ∀ s, Visits step {} es s → s.place ≠ .err → s.Kept := by
  have hquit := harmless_quit (n := 999) rfl
  exact ⟨hquit.1, (bookkeeping_iff hquit.1).mpr hquit.2⟩

/-- Another socket is writable, or the new one is also readable, or it has an error. -/
theorem not_kept_writable :
    let other := connects 999 ++ [.wait [⟨5, false, true⟩], .handle .endOfStream]
    let both := connects 999 ++ [.wait [⟨1003, true, true⟩], .handle .endOfStream]
    let error := connects 999 ++ [.wait [⟨1003, false, false⟩], .handle .endOfStream]
    (Along step Enabled {} other ∧ ∃ s, Visits step {} other s ∧ s.place ≠ .err ∧ ¬ s.Kept) ∧
    (Along step Enabled {} both ∧ ∃ s, Visits step {} both s ∧ s.place ≠ .err ∧ ¬ s.Kept) ∧
    Along step Enabled {} error ∧ ∃ s, Visits step {} error s ∧ s.place ≠ .err ∧ ¬ s.Kept :=
  ⟨not_kept_first rfl (by decide) (by decide) trivial (by decide),
    not_kept_first rfl (by decide) (by decide) trivial (by decide),
    not_kept_first rfl (by decide) (by decide) trivial (by decide)⟩

end TcpConnect
end LinuxBase
