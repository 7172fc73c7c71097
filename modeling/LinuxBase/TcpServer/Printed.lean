import LinuxBase.Lib.StringFunctions
import LinuxBase.TcpServer.Basic

/-!
# What the server prints

The text of a client is collected in `message` during an event. If the event ends with `EAGAIN`, it is
printed; if it ends with a `close`, it is freed. So, for a client that sends no NUL, what was printed
between two events is what was received, exactly as long as each event that ends with a `close` of
this client brought no octets (`text_eq_iff`).
-/

namespace LinuxBase
namespace TcpServer

/-- What was printed for the client `c`. -/
def State.text (s : State) (c : Nat) : List Byte :=
  s.output.flatMap fun l => if l.client = some c then l.message else []

/-- What the handler has of the text of the client `c`. -/
def State.inHand (s : State) (c : Nat) : List Byte :=
  match s.place with
  | .reading h | .ended h _ _ => if s.file h.clientfd = some c then h.message else []
  | .loop | .accepted _ => []

/-- The handler that is about to close its client. -/
def Place.closing? : Place → Option Handler
  | .ended h len errno => if len = 0 ∨ (len = -1 ∧ errno ≠ eagain) then some h else none
  | _ => none

/-- An event of the client `c` that ends with a `close` brought no octets. -/
def ClosesEmpty (c : Nat) (s : State) : Event → Prop
  | .finish => ∀ h ∈ s.place.closing?, s.file h.clientfd = some c → h.realLen = 0
  | _ => True

/-- The client `c` sends no NUL. -/
def NulFree (c : Nat) : Event → Prop
  | .arrive d bytes => d = c → 0#8 ∉ bytes
  | _ => True

instance (c : Nat) (s : State) : DecidablePred (ClosesEmpty c s)
  | .finish => inferInstanceAs (Decidable
      (∀ h ∈ s.place.closing?, s.file h.clientfd = some c → h.realLen = 0))
  | .connect _ | .arrive .. | .shutdown _ | .hangUp _ | .wait .. | .waitError | .next _ | .add _
  | .recv _ => .isTrue trivial

instance (c : Nat) : DecidablePred (NulFree c)
  | .arrive d bytes => inferInstanceAs (Decidable (d = c → 0#8 ∉ bytes))
  | .connect _ | .shutdown _ | .hangUp _ | .wait .. | .waitError | .next _ | .add _ | .recv _
  | .finish => .isTrue trivial

/-- What is known about the text of the client `c`. -/
structure Told (c : Nat) (s : State) : Prop where
  text : s.text c ++ s.inHand c = s.received c
  nulFree : 0#8 ∉ (s.socket c).unread
  realLen : ∀ h, s.place = .reading h ∨ (∃ len errno, s.place = .ended h len errno) →
    s.file h.clientfd = some c → h.realLen = h.message.length

variable {fds : List Nat} {s s' : State} {c : Nat}

theorem told_init : Told c {} where
  text := rfl
  nulFree := nofun
  realLen _ h := by simp at h

theorem inHand_reading {h : Handler} (hp : s.place = .reading h) :
    s.inHand c = if s.file h.clientfd = some c then h.message else [] := by
  rw [State.inHand, hp]

theorem inHand_ended {h : Handler} {len : Int} {errno : Nat} (hp : s.place = .ended h len errno) :
    s.inHand c = if s.file h.clientfd = some c then h.message else [] := by
  rw [State.inHand, hp]

theorem inHand_loop (hp : s.place = .loop) : s.inHand c = [] := by
  rw [State.inHand, hp]

theorem text_print (h : Handler) :
    (s.print h).text c = s.text c ++ if s.file h.clientfd = some c then h.message else [] := by
  simp only [State.text, State.print_output, List.flatMap_append, List.flatMap_singleton]

/-- Between two events the handler has nothing. -/
theorem Told.text_eq (h : Told c s) (hp : s.place = .loop) : s.text c = s.received c := by
  have htext := h.text
  rwa [inHand_loop hp, List.append_nil] at htext

/-- With nothing in the hands of a handler. -/
theorem told_of_text (htext : s.text c = s.received c) (hnul : 0#8 ∉ (s.socket c).unread)
    (hp : s.place = .loop ∨ ∃ fd, s.place = .accepted fd ∨ s.place = .reading { clientfd := fd }) :
    Told c s := by
  have hand : s.inHand c = [] := by
    rcases hp with hp | ⟨fd, hp | hp⟩ <;> simp [State.inHand, hp]
  refine ⟨by rw [hand, List.append_nil, htext], hnul, fun h hh => ?_⟩
  rcases hp with hp | ⟨fd, hp | hp⟩ <;> grind

theorem closing?_eq_some {p : Place} {h : Handler} (hp : p.closing? = some h) :
    ∃ len errno, p = .ended h len errno ∧ (len = 0 ∨ (len = -1 ∧ errno ≠ eagain)) := by
  cases p with
  | ended k len errno =>
    simp only [Place.closing?] at hp
    split at hp
    · exact ⟨len, errno, by rw [Option.some.inj hp], ‹_›⟩
    · cases hp
  | loop | accepted | reading => cases hp

/-- Octets without a NUL arrive. -/
theorem Told.arrive (h : Told c s) {d : Nat} {bytes : List Byte} (eos : Bool)
    (hbytes : d = c → 0#8 ∉ bytes) : Told c ((s.arrive d bytes eos).notify d) := by
  refine ⟨h.text, ?_, h.realLen⟩
  have := h.nulFree
  grind

/-- The handler goes on with the octets that it got. -/
theorem Told.bytes (h : Told c s) {k : Handler} {d len : Nat} (hp : s.place = .reading k)
    (hd : s.file k.clientfd = some d) (hlen : len ≤ (s.socket d).unread.length) :
    Told c { s.take d len with
      place := .reading { k with
        message := k.message ++ ((s.socket d).unread.take len).takeWhile (· ≠ 0#8)
        realLen := k.realLen + len } } := by
  have htext := h.text
  rw [inHand_reading hp] at htext
  by_cases hdc : d = c
  · subst hdc
    have hbuffer : 0#8 ∉ (s.socket d).unread.take len := fun hm =>
      h.nulFree (List.mem_of_mem_take hm)
    have hwhole : ((s.socket d).unread.take len).takeWhile (· ≠ 0#8) = (s.socket d).unread.take len :=
      CString.text_eq_self hbuffer
    rw [hwhole]
    refine ⟨?_, ?_, ?_⟩
    · rw [if_pos hd] at htext
      rw [inHand_reading rfl]
      show s.text d ++ (if s.file k.clientfd = some d then _ else []) = (s.take d len).received d
      rw [if_pos hd, State.take_received, Function.update_self, ← htext, List.append_assoc]
    · simp only [State.take_socket, Function.update_self]
      exact fun hm => h.nulFree (List.mem_of_mem_drop hm)
    · have hreal := h.realLen k (.inl hp) hd
      simp_all
  · have hne : s.file k.clientfd ≠ some c := by
      rw [hd]
      exact fun e => hdc (Option.some.inj e)
    refine ⟨?_, ?_, ?_⟩
    · rw [if_neg hne] at htext
      rw [inHand_reading rfl]
      show s.text c ++ (if s.file k.clientfd = some c then _ else []) = (s.take d len).received c
      rw [if_neg hne, State.take_received, Function.update_of_ne (Ne.symm hdc), htext]
    · simp only [State.take_socket, Function.update_of_ne (Ne.symm hdc)]
      exact h.nulFree
    · simp [hne]

/-- The handler leaves its loop. -/
theorem Told.ended (h : Told c s) {k : Handler} (hp : s.place = .reading k) (len : Int)
    (errno : Nat) : Told c { s with place := .ended k len errno } := by
  have htext := h.text
  rw [inHand_reading hp] at htext
  refine ⟨?_, h.nulFree, ?_⟩
  · rw [inHand_ended rfl]
    exact htext
  · simp only [reduceCtorEq, false_or, Place.ended.injEq]
    rintro _ ⟨_, _, rfl, -, -⟩
    exact h.realLen k (.inl hp)

theorem Told.move {e : Event} (h : Told c s) (hnul : NulFree c e) (hc : ClosesEmpty c s e)
    (hm : Move fds s e s') : Told c s' := by
  cases hm with
  | connect hfd => exact ⟨h.text, h.nulFree, h.realLen⟩
  | arrive hc heos => exact h.arrive false hnul
  | shutdown hc => exact h.arrive true fun _ => nofun
  | hangUp hc => exact ⟨h.text, h.nulFree, h.realLen⟩
  | wait hp hb hnodup hbatch hdropped => exact ⟨h.text, h.nulFree, h.realLen⟩
  | waitError hp hb => exact h
  | accept hp hb hfd hq hfree hnew =>
    exact told_of_text (h.text_eq hp) h.nulFree (.inr ⟨_, .inl rfl⟩)
  | handle hp hb hfd => exact told_of_text (h.text_eq hp) h.nulFree (.inr ⟨_, .inr rfl⟩)
  | add hp =>
    have htext := h.text
    rw [State.inHand, hp, List.append_nil] at htext
    exact told_of_text htext h.nulFree (.inl rfl)
  | bytes hp hd hpos hlen hint => exact h.bytes hp hd hlen
  | endOfStream hp he => exact h.ended hp 0 0
  | error hp he => exact h.ended hp (-1) _
  | @close k len errno hp hend =>
    refine told_of_text ?_ h.nulFree (.inl rfl)
    have htext := h.text
    rw [inHand_ended hp] at htext
    split at htext
    · -- The event brought no octets.
      have hreal := hc k (by simp only [Place.closing?, hp, if_pos hend, Option.mem_def]) ‹_›
      have hlen := h.realLen k (.inr ⟨_, _, hp⟩) ‹_›
      rwa [List.eq_nil_of_length_eq_zero (hlen.symm.trans hreal), List.append_nil] at htext
    · rwa [List.append_nil] at htext
  | @print k len errno hp hend =>
    refine told_of_text ?_ h.nulFree (.inl rfl)
    have htext := h.text
    rwa [inHand_ended hp, ← text_print] at htext

/-- A `close` frees the text that its event brought. -/
theorem not_text_close (h : Told c s) {e : Event} (hc : ¬ ClosesEmpty c s e) :
    ∃ s', step fds e s = .ret s' ∧ ¬ (s'.place = .loop → s'.text c = s'.received c) := by
  cases e with
  | finish =>
    simp only [ClosesEmpty, Classical.not_forall] at hc
    obtain ⟨k, hk, hfile, hreal⟩ := hc
    obtain ⟨len, errno, hp, hend⟩ := closing?_eq_some hk
    refine ⟨s.close k.clientfd, ?_, fun hgood => hreal ?_⟩
    · simp only [step, hp, State.finish, if_pos hend]
    · have htext := h.text
      rw [inHand_ended hp, if_pos hfile] at htext
      have hnil : k.message = [] := List.append_right_eq_self.mp (htext.trans (hgood rfl).symm)
      rw [h.realLen k (.inr ⟨_, _, hp⟩) hfile, hnil, List.length_nil]
  | _ => exact absurd trivial hc

/-- **The printed text.** Between any two events, what was printed for a client that sends no NUL is
what was received from it, exactly if each event that ends with a `close` of this client brought no
octets. -/
theorem text_eq_iff {es : List Event} (hes : Along (step fds) (Enabled fds) {} es)
    (hnul : ∀ e ∈ es, NulFree c e) :
    (∀ s, Visits (step fds) {} es s → s.place = .loop → s.text c = s.received c) ↔
      Along (step fds) (ClosesEmpty c) {} es := by
  refine visits_iff (P := fun s e => Enabled fds s e ∧ NulFree c e) (fun s h => h.text_eq) ?_ ?_
    told_init (hes.and (along_of_mem hnul))
  · exact fun s e s' h ⟨he, hn⟩ hc hstep => h.move hn hc (step_move he hstep)
  · exact fun s e h _ hc => not_text_close h hc

/-- A client connects, and sends `hi` in two parts. -/
def talk : List Event :=
  [.connect 3, .wait [3] [], .next 7, .add true, .arrive 0 [104#8], .wait [7] [], .next 0,
    .recv (.bytes 1), .arrive 0 [105#8], .recv (.bytes 1)]

/-- It closes its end when the server has printed the text. -/
theorem text_eq_iff_talk :
    let es := talk ++ [.recv (.error eagain), .finish, .shutdown 0, .wait [7] [], .next 0,
      .recv .endOfStream, .finish]
    Along (step [3]) (Enabled [3]) {} es ∧
      ∀ s, Visits (step [3]) {} es s → s.place = .loop → s.text 0 = s.received 0 := by
  intro es
  have hes : Along (step [3]) (Enabled [3]) {} es := by decide
  exact ⟨hes, (text_eq_iff hes (by decide)).mpr (by decide)⟩

/-- It closes its end before the server has seen an `EAGAIN`. -/
theorem text_ne_shutdown :
    let es := talk ++ [.shutdown 0, .recv .endOfStream, .finish]
    Along (step [3]) (Enabled [3]) {} es ∧ (∀ e ∈ es, NulFree 0 e) ∧
      ∃ s, Visits (step [3]) {} es s ∧ s.place = .loop ∧ s.text 0 = [] ∧
        s.received 0 = [104#8, 105#8] :=
  ⟨by decide, by decide, _, ⟨13, rfl⟩, rfl, rfl, rfl⟩

end TcpServer
end LinuxBase
