import LinuxBase.TcpServer.Basic

/-!
# No lost wake-up

An edge-triggered event comes once. So a client with something to read needs one that is still to
come, in epoll or in the rest of the batch, unless its handler is at work (`Inv.awaited`): the handler
takes the event, and leaves its loop with the connection closed, or with nothing to read.

A descriptor that was closed may come back with a new client, but no event in the rest of the batch
is older than the registration of its descriptor (`Inv.current`).
-/

namespace LinuxBase
namespace TcpServer

/-- The server handles an event of `fd`. -/
def Place.Handles : Place → Nat → Prop
  | .reading h, fd | .ended h _ _, fd => h.clientfd = fd
  | .loop, _ | .accepted _, _ => False

/-- The server has not read everything from `fd` yet, or it is about to close it. -/
def Place.Busy : Place → Nat → Prop
  | .reading h, fd => h.clientfd = fd
  | .ended h len errno, fd => h.clientfd = fd ∧ (len = 0 ∨ (len = -1 ∧ errno ≠ eagain))
  | .loop, _ | .accepted _, _ => False

theorem Place.Busy.handles {p : Place} {fd : Nat} (h : p.Busy fd) : p.Handles fd := by
  cases p with
  | reading => exact h
  | ended => exact h.1
  | loop | accepted => exact h

structure Inv (fds : List Nat) (s : State) : Prop where
  client : ∀ fd, s.file fd ≠ none → fd ∉ fds
  registered : ∀ fd, s.registered fd → s.file fd ≠ none
  accepted : ∀ fd, s.place = .accepted fd → s.file fd ≠ none ∧ ¬ s.registered fd
  pending : ∀ fd, s.pending fd → s.registered fd
  nodup : s.batch.Nodup
  handled : ∀ fd, s.place.Handles fd → fd ∉ s.batch
  current : ∀ fd ∈ s.batch, fd ∈ fds ∨ s.registered fd
  awaited : ∀ fd c, s.file fd = some c → s.registered fd → ¬ s.place.Busy fd →
    (s.socket c).Readable → s.pending fd ∨ fd ∈ s.batch

variable {fds : List Nat} {s s' : State}

theorem inv_init : Inv fds {} where
  client _ h := absurd rfl h
  registered _ h := nomatch h
  accepted _ h := nomatch h
  pending _ h := nomatch h
  nodup := List.nodup_nil
  handled _ h := h.elim
  current _ h := nomatch h
  awaited _ _ h := nomatch h

/-- A read leaves no more to read. -/
theorem readable_of_take {c d len : Nat} (h : ((s.take c len).socket d).Readable) :
    (s.socket d).Readable := by
  unfold Socket.Readable at h ⊢
  rw [State.take_socket] at h
  by_cases hd : d = c
  · subst hd
    rw [Function.update_self] at h
    refine h.imp_left fun hdrop hnil => hdrop ?_
    show (s.socket d).unread.drop len = []
    rw [hnil, List.drop_nil]
  · rwa [Function.update_of_ne hd] at h

/-- Whatever comes on the connection `c` makes an event pending. -/
theorem Inv.arrive (hi : Inv fds s) (c : Nat) (bytes : List Byte) (eos : Bool) :
    Inv fds ((s.arrive c bytes eos).notify c) := by
  refine ⟨hi.client, hi.registered, hi.accepted, fun fd h => ?_, hi.nodup, hi.handled, hi.current,
    fun fd d hfile hreg hbusy hread => ?_⟩
  · have := hi.pending fd
    grind
  · have := hi.awaited fd d hfile hreg hbusy
    grind

/-- `epoll_wait` moves events into the batch, and drops those of clients with nothing to read. -/
theorem Inv.wait (hi : Inv fds s) {batch dropped : List Nat} (hp : s.place = .loop)
    (hb : s.batch = []) (hnodup : batch.Nodup)
    (hbatch : ∀ fd ∈ batch, s.pending fd ∨ fd ∈ fds ∧ s.queue fd ≠ [])
    (hdropped : ∀ fd ∈ dropped, ¬ s.Readable fd) :
    Inv fds { s with
      batch
      pending := fun fd => s.pending fd && !decide (fd ∈ batch) && !decide (fd ∈ dropped) } := by
  refine ⟨hi.client, hi.registered, hi.accepted, fun fd h => ?_, hnodup, fun fd h => ?_,
    fun fd h => ?_, fun fd c hfile hreg hbusy hread => ?_⟩
  · have := hi.pending fd
    grind
  · rw [hp] at h
    exact h.elim
  · have := hi.pending fd
    grind
  · have hevent := hi.awaited fd c hfile hreg hbusy hread
    have hkeep : fd ∉ dropped := fun hfd => hdropped fd hfd ⟨c, hfile, hread⟩
    grind

/-- The descriptor of a new client was not in use, so no event in the batch is of this descriptor. -/
theorem Inv.accept (hi : Inv fds s) {clientfd sockfd c : Nat} {queue batch : List Nat}
    (hp : s.place = .loop) (hb : s.batch = sockfd :: batch) (hfd : sockfd ∈ fds)
    (hfree : s.file clientfd = none) (hnew : clientfd ∉ fds) :
    Inv fds { s with
      batch
      queue := Function.update s.queue sockfd queue
      file := Function.update s.file clientfd (some c)
      place := .accepted clientfd } := by
  refine ⟨fun fd h => ?_, fun fd h => ?_, fun fd h => ?_, hi.pending, ?_, fun fd h => h.elim,
    fun fd h => ?_, fun fd d hfile hreg hbusy hread => ?_⟩
  · have := hi.client fd
    grind
  · have := hi.registered fd
    grind
  · have := hi.registered fd
    grind
  · have := hi.nodup
    grind
  · have := hi.current fd
    grind
  · have hevent := hi.awaited fd d
    have hfile' := hi.registered fd
    have hclient := hi.client fd
    grind [Place.Busy]

/-- The handler of `fd` takes its event, and this was the only one in the batch. -/
theorem Inv.handle (hi : Inv fds s) {fd : Nat} {batch : List Nat} (hp : s.place = .loop)
    (hb : s.batch = fd :: batch) :
    Inv fds { s with batch, place := .reading { clientfd := fd } } := by
  refine ⟨hi.client, hi.registered, nofun, hi.pending, ?_, fun fd h => ?_, fun fd h => ?_,
    fun fd c hfile hreg hbusy hread => ?_⟩
  · have := hi.nodup
    grind
  · have := hi.nodup
    grind [Place.Handles]
  · have := hi.current fd
    grind
  · have := hi.awaited fd c
    grind [Place.Busy]

/-- A client that is registered with something to read has an event. -/
theorem Inv.add (hi : Inv fds s) {clientfd : Nat} (ok : Bool) (hp : s.place = .accepted clientfd) :
    Inv fds (s.add clientfd ok) := by
  obtain ⟨hfile, hfresh⟩ := hi.accepted clientfd hp
  refine ⟨hi.client, fun fd h => ?_, nofun, fun fd h => ?_, hi.nodup, fun fd h => h.elim,
    fun fd h => ?_, fun fd c hfile hreg hbusy hread => ?_⟩
  · have := hi.registered fd
    grind
  · have := hi.pending fd
    grind
  · have := hi.current fd h
    grind
  · have := hi.awaited fd c
    grind [Place.Busy]

theorem Inv.bytes (hi : Inv fds s) {h h' : Handler} (c len : Nat) (hp : s.place = .reading h)
    (hfd : h'.clientfd = h.clientfd) : Inv fds { s.take c len with place := .reading h' } := by
  refine ⟨hi.client, hi.registered, nofun, hi.pending, hi.nodup, fun fd h => ?_, hi.current,
    fun fd d hfile hreg hbusy hread => ?_⟩
  · have := hi.handled fd
    grind [Place.Handles]
  · have hevent := hi.awaited fd d hfile hreg
    have hbefore := readable_of_take hread
    grind [Place.Busy]

/-- The handler leaves its loop: it will close the client, or the client has nothing to read. -/
theorem Inv.ended (hi : Inv fds s) {h : Handler} {len : Int} {errno : Nat}
    (hp : s.place = .reading h) (he : ¬ (len = 0 ∨ (len = -1 ∧ errno ≠ eagain)) →
      ∃ c ∈ s.file h.clientfd, ¬ (s.socket c).Readable) :
    Inv fds { s with place := .ended h len errno } := by
  refine ⟨hi.client, hi.registered, nofun, hi.pending, hi.nodup, fun fd h => ?_, hi.current,
    fun fd c hfile hreg hbusy hread => ?_⟩
  · have := hi.handled fd
    grind [Place.Handles]
  · have := hi.awaited fd c hfile hreg
    grind [Place.Busy]

theorem Inv.close (hi : Inv fds s) {h : Handler} {len : Int} {errno : Nat}
    (hp : s.place = .ended h len errno) : Inv fds (s.close h.clientfd) := by
  refine ⟨fun fd h => ?_, fun fd h => ?_, nofun, fun fd h => ?_, hi.nodup, fun fd h => h.elim,
    fun fd h => ?_, fun fd c hfile hreg hbusy hread => ?_⟩
  · have := hi.client fd
    grind
  · have := hi.registered fd
    grind
  · have := hi.pending fd
    grind
  · have hcurrent := hi.current fd h
    have hhandled := hi.handled fd
    grind [Place.Handles]
  · have := hi.awaited fd c
    grind [Place.Busy]

theorem Inv.print (hi : Inv fds s) {h : Handler} {len : Int} {errno : Nat}
    (hp : s.place = .ended h len errno) (hend : ¬ (len = 0 ∨ (len = -1 ∧ errno ≠ eagain))) :
    Inv fds (s.print h) := by
  refine ⟨hi.client, hi.registered, nofun, hi.pending, hi.nodup, fun fd h => h.elim, hi.current,
    fun fd c hfile hreg hbusy hread => ?_⟩
  have := hi.awaited fd c hfile hreg
  grind [Place.Busy]

/-- Every step keeps the invariant. -/
theorem Inv.move {e : Event} (hi : Inv fds s) (hm : Move fds s e s') : Inv fds s' := by
  cases hm with
  | connect => exact { hi with }
  | arrive | shutdown => exact hi.arrive ..
  | @hangUp c =>
    have h := hi.arrive c [] false
    rwa [show s.arrive c [] false = s by simp [State.arrive]] at h
  | wait hp hb hnodup hbatch hdropped => exact hi.wait hp hb hnodup hbatch hdropped
  | waitError => exact hi
  | accept hp hb hfd hq hfree hnew => exact hi.accept hp hb hfd hfree hnew
  | handle hp hb => exact hi.handle hp hb
  | add hp => exact hi.add _ hp
  | bytes hp => exact hi.bytes _ _ hp rfl
  | endOfStream hp => exact hi.ended hp fun hne => absurd (.inl rfl) hne
  | error hp he => exact hi.ended hp fun hne => he (by_contra fun h => hne (.inr ⟨rfl, h⟩))
  | close hp => exact hi.close hp
  | print hp hend => exact hi.print hp hend

theorem inv_of_visits {es : List Event} (hes : Along (step fds) (Enabled fds) {} es)
    (hv : Visits (step fds) {} es s) : Inv fds s :=
  visits_invariant (fun _ _ _ hi he h => hi.move (step_move he h)) inv_init hes hv

/-- **No lost wake-up.** For any number of clients and any order of what they, the kernel and the
server do: a registered client with octets or an end of stream to read has an event in epoll or in
the rest of the batch, unless the server is in the handler of this client. -/
theorem no_lost_wakeUp {es : List Event} {fd c : Nat}
    (hes : Along (step fds) (Enabled fds) {} es) (hv : Visits (step fds) {} es s)
    (hfile : s.file fd = some c) (hreg : s.registered fd = true) (hp : ¬ s.place.Handles fd)
    (hread : (s.socket c).unread ≠ [] ∨ (s.socket c).eos = true) :
    s.pending fd = true ∨ fd ∈ s.batch :=
  (inv_of_visits hes hv).awaited fd c hfile hreg (fun hbusy => hp hbusy.handles) hread

/-- A client connects and sends twice; what comes behind the `EAGAIN` is still announced. -/
theorem no_lost_wakeUp_sample :
    let es := [Event.connect 3, .wait [3] [], .next 7, .add true, .arrive 0 [104#8], .wait [7] [],
      .next 0, .recv (.bytes 1), .recv (.error eagain), .arrive 0 [105#8], .finish]
    ∃ s, exec (step [3]) es {} = .ret s ∧ (s.pending 7 = true ∨ 7 ∈ s.batch) := by
  intro es
  have hes : Along (step [3]) (Enabled [3]) {} es := by decide
  exact ⟨_, rfl, no_lost_wakeUp hes ⟨es.length, rfl⟩ rfl rfl id (.inl (by decide))⟩

end TcpServer
end LinuxBase
