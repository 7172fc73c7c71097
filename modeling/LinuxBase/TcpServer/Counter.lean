import LinuxBase.Lib.Tally
import LinuxBase.TcpServer.Basic

/-!
# The number in front of a message

The server prints the number `count++` in front of each message, and does `count--` at each `close`. So
`count` goes up with each message of a client, also with an empty one, and goes down with the `close` of
a client that never sent anything. A client that closes its end also frees a number in the middle, and
the next client gets the number of one that is still there.

So, between two events, `count` is the number of the open connections with a printed message, and their
numbers differ, exactly if each event that prints has a first message, each one that closes is of a
connection with a message, and no open connection sees as many `close`s as messages since its own
(`count_iff`). The `Mark`s of a run are the messages and the `close`s; what `count` is and which numbers
were printed can be read off them (`Numbered`).
-/

namespace LinuxBase
namespace TcpServer

/-- The connection `c` is accepted, and was not closed. -/
def State.Open (s : State) (c : Nat) : Prop := ∃ fd, s.file fd = some c

/-- A message was printed for the connection `c`. -/
def State.Announced (s : State) (c : Nat) : Prop :=
  ∃ l ∈ s.output, l.client = some c ∧ l.message ≠ []

/-- The connection `c` is open, and has a message. -/
def State.Live (s : State) (c : Nat) : Prop := s.Open c ∧ s.Announced c

/-- `count` is the number of the open connections with a message, and two of them never have one
number. -/
structure State.Counted (s : State) : Prop where
  count : Counts s.Live s.count
  nonneg : 0 ≤ s.count
  ordinals : ∀ l ∈ s.output, ∀ l' ∈ s.output, ∀ c ∈ l.client, ∀ d ∈ l'.client, s.Open c → s.Open d →
    c ≠ d → l.count ≠ l'.count

/-- What happens at the end of an event of a client: a message is printed, or its connection is closed. -/
inductive Mark where
  | message (client : Option Nat)
  | close
  deriving DecidableEq

def marks : Event → State → List Mark
  | .finish, s =>
    match s.place with
    | .ended h len errno =>
      if len = 0 ∨ (len = -1 ∧ errno ≠ eagain) then [.close] else [.message (s.file h.clientfd)]
    | _ => []
  | _, _ => []

/-- How many more messages than `close`s there are. -/
def balance : List Mark → Int
  | [] => 0
  | .message _ :: ms => balance ms + 1
  | .close :: ms => balance ms - 1

/-- The message of the handler is the first one of its connection. Since the message of another open
connection, that one included, there were not as many `close`s as messages. -/
def State.First (ms : List Mark) (s : State) (h : Handler) : Prop :=
  ∃ c ∈ s.file h.clientfd, h.message ≠ [] ∧ ¬ s.Announced c ∧
    ∀ early d late, ms = early ++ .message (some d) :: late → s.Open d → d ≠ c →
      balance (.message (some d) :: late) ≠ 0

/-- The connection of the handler has a message. -/
def State.Known (s : State) (h : Handler) : Prop := ∃ c ∈ s.file h.clientfd, s.Announced c

/-- An event that prints has a first message, and one that closes is of a connection with a message. -/
def CountsOnce (ms : List Mark) (s : State) : Event → Prop
  | .finish => ∀ h len errno, s.place = .ended h len errno →
      if len = 0 ∨ (len = -1 ∧ errno ≠ eagain) then s.Known h else s.First ms h
  | _ => True

/-- The message of the handler is the first one of its connection, and no other open connection has its
number. -/
def State.NewNumber (s : State) (h : Handler) : Prop :=
  ∃ c ∈ s.file h.clientfd, h.message ≠ [] ∧ ¬ s.Announced c ∧
    ∀ l ∈ s.output, ∀ d ∈ l.client, s.Open d → d ≠ c → l.count ≠ s.count

/-- An event that prints has a message with a new number, and one that closes is of a connection with a
message. -/
def KeepsNumbers (s : State) : Event → Prop
  | .finish => ∀ h len errno, s.place = .ended h len errno →
      if len = 0 ∨ (len = -1 ∧ errno ≠ eagain) then s.Known h else s.NewNumber h
  | _ => True

/-- The clients of the messages with their numbers, the first of which is `n`. -/
def numbers : Int → List Mark → List (Option Nat × Int)
  | _, [] => []
  | n, .message client :: ms => (client, n) :: numbers (n + 1) ms
  | n, .close :: ms => numbers (n - 1) ms

/-- The state behind the marks `ms`. -/
structure Numbered (ms : List Mark) (s : State) : Prop where
  output : s.output.map (fun l => (l.client, l.count)) = numbers 0 ms
  count : s.count = balance ms

/-- The descriptors and the queues have each connection once, and those in a queue have printed
nothing. -/
structure Distinct (s : State) : Prop where
  file_lt : ∀ fd c, s.file fd = some c → c < s.conns
  queue_lt : ∀ fd, ∀ c ∈ s.queue fd, c < s.conns
  output_lt : ∀ l ∈ s.output, ∀ c ∈ l.client, c < s.conns
  nodup : ∀ fd, (s.queue fd).Nodup
  queue : ∀ fd fd' c, c ∈ s.queue fd → c ∈ s.queue fd' → fd = fd'
  file : ∀ fd fd' c, s.file fd = some c → s.file fd' = some c → fd = fd'
  fresh : ∀ fd fd' c, c ∈ s.queue fd → s.file fd' ≠ some c
  silent : ∀ fd c, c ∈ s.queue fd → ∀ l ∈ s.output, l.client ≠ some c

variable {fds : List Nat} {s s' : State} {c : Nat}

theorem distinct_init : Distinct {} where
  file_lt := nofun
  queue_lt := nofun
  output_lt := nofun
  nodup _ := List.nodup_nil
  queue := nofun
  file := nofun
  fresh := nofun
  silent := nofun

theorem mem_queue_connect {fd fd' new : Nat} :
    c ∈ Function.update s.queue fd (s.queue fd ++ [new]) fd' ↔
      c ∈ s.queue fd' ∨ fd' = fd ∧ c = new := by
  by_cases he : fd' = fd
  · subst he
    simp
  · simp [he]

/-- A new connection in a queue. -/
theorem Distinct.connect (hd : Distinct s) (fd : Nat) : Distinct { s with
    queue := Function.update s.queue fd (s.queue fd ++ [s.conns]), conns := s.conns + 1 } := by
  refine ⟨fun fd' c h => ?_, fun fd' c h => ?_, fun l hl c hc => ?_, fun fd' => ?_,
    fun fd' fd'' c h h' => ?_, hd.file, fun fd' fd'' c h => ?_, fun fd' c h l hl hc => ?_⟩
  · exact Nat.lt_succ_of_lt (hd.file_lt fd' c h)
  · rcases mem_queue_connect.mp h with h | ⟨-, rfl⟩
    · exact Nat.lt_succ_of_lt (hd.queue_lt fd' c h)
    · exact Nat.lt_succ_self _
  · exact Nat.lt_succ_of_lt (hd.output_lt l hl c hc)
  · have hnew : s.conns ∉ s.queue fd := fun h => absurd (hd.queue_lt fd _ h) (Nat.lt_irrefl _)
    by_cases he : fd' = fd
    · subst he
      simpa [List.nodup_append, hd.nodup fd'] using fun c hc => ne_of_mem_of_not_mem hc hnew
    · simpa [he] using hd.nodup fd'
  · have hlt := hd.queue_lt
    rcases mem_queue_connect.mp h with hq | ⟨rfl, rfl⟩
    · rcases mem_queue_connect.mp h' with hq' | ⟨rfl, rfl⟩
      · exact hd.queue fd' fd'' c hq hq'
      · exact absurd (hlt fd' _ hq) (Nat.lt_irrefl _)
    · rcases mem_queue_connect.mp h' with hq' | ⟨rfl, -⟩
      · exact absurd (hlt fd'' _ hq') (Nat.lt_irrefl _)
      · rfl
  · rcases mem_queue_connect.mp h with h | ⟨-, rfl⟩
    · exact hd.fresh fd' fd'' c h
    · exact fun hfile => absurd (hd.file_lt fd'' _ hfile) (Nat.lt_irrefl _)
  · rcases mem_queue_connect.mp h with h | ⟨-, rfl⟩
    · exact hd.silent fd' c h l hl hc
    · exact absurd (hd.output_lt l hl _ hc) (Nat.lt_irrefl _)

/-- A connection with a descriptor had it before, or is the new one. -/
theorem file_accept {clientfd fd d : Nat}
    (h : Function.update s.file clientfd (some c) fd = some d) :
    s.file fd = some d ∨ fd = clientfd ∧ d = c := by
  by_cases he : fd = clientfd
  · subst he
    rw [Function.update_self] at h
    exact .inr ⟨rfl, (Option.some.inj h).symm⟩
  · rw [Function.update_of_ne he] at h
    exact .inl h

section Accept

variable {clientfd sockfd : Nat} {queue : List Nat}

/-- What is left in the queues. -/
theorem Distinct.queue_accept (hd : Distinct s) (hq : s.queue sockfd = c :: queue) {fd d : Nat}
    (h : d ∈ Function.update s.queue sockfd queue fd) : d ∈ s.queue fd ∧ d ≠ c := by
  by_cases he : fd = sockfd
  · subst he
    have hnodup := hd.nodup fd
    rw [hq, List.nodup_cons] at hnodup
    rw [Function.update_self] at h
    exact ⟨hq ▸ List.mem_cons_of_mem c h, ne_of_mem_of_not_mem h hnodup.1⟩
  · rw [Function.update_of_ne he] at h
    refine ⟨h, ?_⟩
    rintro rfl
    exact he (hd.queue fd sockfd d h (hq ▸ List.mem_cons_self))

/-- The descriptors are of other connections, but for the new one. -/
theorem Distinct.file_accept (hd : Distinct s) (hq : s.queue sockfd = c :: queue) {fd d : Nat}
    (h : Function.update s.file clientfd (some c) fd = some d) :
    s.file fd = some d ∧ d ≠ c ∨ fd = clientfd ∧ d = c := by
  refine (TcpServer.file_accept h).imp_left fun hold => ⟨hold, ?_⟩
  rintro rfl
  exact hd.fresh sockfd fd d (hq ▸ List.mem_cons_self) hold

/-- The first connection of a queue gets a descriptor. -/
theorem Distinct.accept (hd : Distinct s) {batch : List Nat} (hq : s.queue sockfd = c :: queue) :
    Distinct { s with
      batch
      queue := Function.update s.queue sockfd queue
      file := Function.update s.file clientfd (some c)
      place := .accepted clientfd } := by
  refine ⟨fun fd d h => ?_, fun fd d h => ?_, hd.output_lt, fun fd => ?_, fun fd fd' d h h' => ?_,
    fun fd fd' d h h' => ?_, fun fd fd' d h h' => ?_, fun fd d h => ?_⟩
  · rcases hd.file_accept hq h with hold | ⟨-, rfl⟩
    · exact hd.file_lt fd d hold.1
    · exact hd.queue_lt sockfd d (hq ▸ List.mem_cons_self)
  · exact hd.queue_lt fd d (hd.queue_accept hq h).1
  · have hnodup := hd.nodup fd
    by_cases he : fd = sockfd
    · subst he
      rw [hq, List.nodup_cons] at hnodup
      simpa using hnodup.2
    · simpa [he] using hnodup
  · exact hd.queue fd fd' d (hd.queue_accept hq h).1 (hd.queue_accept hq h').1
  · rcases hd.file_accept hq h with hold | ⟨rfl, rfl⟩
    · rcases hd.file_accept hq h' with hold' | ⟨-, rfl⟩
      · exact hd.file fd fd' d hold.1 hold'.1
      · exact absurd rfl hold.2
    · rcases hd.file_accept hq h' with hold' | ⟨rfl, -⟩
      · exact absurd rfl hold'.2
      · rfl
  · obtain ⟨hd', hne⟩ := hd.queue_accept hq h
    rcases hd.file_accept hq h' with hold | ⟨-, rfl⟩
    · exact hd.fresh fd fd' d hd' hold.1
    · exact hne rfl
  · exact hd.silent fd d (hd.queue_accept hq h).1

end Accept

/-- What is left of the descriptors behind a `close`. -/
theorem file_close {clientfd fd : Nat} (h : (s.close clientfd).file fd = some c) :
    s.file fd = some c ∧ fd ≠ clientfd := by
  rw [State.close_file] at h
  by_cases he : fd = clientfd
  · subst he
    rw [Function.update_self] at h
    cases h
  · rw [Function.update_of_ne he] at h
    exact ⟨h, he⟩

theorem Distinct.close (hd : Distinct s) (clientfd : Nat) : Distinct (s.close clientfd) :=
  { hd with
    file_lt := fun fd c h => hd.file_lt fd c (file_close h).1
    file := fun fd fd' c h h' => hd.file fd fd' c (file_close h).1 (file_close h').1
    fresh := fun fd fd' c h h' => hd.fresh fd fd' c h (file_close h').1 }

theorem Distinct.print (hd : Distinct s) (h : Handler) : Distinct (s.print h) := by
  have hline (l : Line) (hl : l ∈ (s.print h).output) :
      l ∈ s.output ∨ l.client = s.file h.clientfd := by
    rw [State.print_output, List.mem_append, List.mem_singleton] at hl
    exact hl.imp_right fun hl => by rw [hl]
  refine { hd with output_lt := fun l hl c hc => ?_, silent := fun fd c hc l hl hclient => ?_ }
  · rcases hline l hl with hl | hfile
    · exact hd.output_lt l hl c hc
    · exact hd.file_lt h.clientfd c (hfile ▸ hc)
  · rcases hline l hl with hl | hfile
    · exact hd.silent fd c hc l hl hclient
    · exact hd.fresh fd h.clientfd c hc (hfile ▸ hclient)

theorem Distinct.move {e : Event} (hd : Distinct s) (hm : Move fds s e s') : Distinct s' := by
  cases hm with
  | connect hfd => exact hd.connect _
  | arrive | shutdown | hangUp | wait | waitError | handle | add | bytes | endOfStream | error =>
    exact { hd with }
  | accept hp hb hfd hq => exact hd.accept hq
  | close => exact hd.close _
  | print => exact hd.print _

/-! ## The numbers -/

section Numbers

variable {ms : List Mark} {n : Int}

theorem balance_append (ms ms' : List Mark) : balance (ms ++ ms') = balance ms + balance ms' := by
  induction ms with
  | nil => exact (Int.zero_add _).symm
  | cons m ms ih =>
    cases m with
    | message client => simp only [List.cons_append, balance, ih]; omega
    | close => simp only [List.cons_append, balance, ih]; omega

theorem numbers_append (ms ms' : List Mark) (n : Int) :
    numbers n (ms ++ ms') = numbers n ms ++ numbers (n + balance ms) ms' := by
  induction ms generalizing n with
  | nil => rw [balance, Int.add_zero]; rfl
  | cons m ms ih =>
    cases m with
    | message client =>
      simp only [List.cons_append, numbers, balance, ih]
      rw [Int.add_assoc, Int.add_comm 1]
    | close =>
      simp only [List.cons_append, numbers, balance, ih]
      rw [show n - 1 + balance ms = n + (balance ms - 1) by omega]

/-- A number is the balance in front of its message. -/
theorem mem_numbers {client : Option Nat} {k : Int} : (client, k) ∈ numbers n ms ↔
    ∃ early late, ms = early ++ .message client :: late ∧ k = n + balance early := by
  constructor
  · intro h
    induction ms generalizing n with
    | nil => cases h
    | cons m ms ih =>
      cases m with
      | message client' =>
        rw [numbers, List.mem_cons] at h
        rcases h with h | h
        · cases h
          exact ⟨[], ms, rfl, (Int.add_zero _).symm⟩
        · obtain ⟨early, late, rfl, rfl⟩ := ih h
          exact ⟨.message client' :: early, late, rfl, by simp only [balance]; omega⟩
      | close =>
        obtain ⟨early, late, rfl, rfl⟩ := ih h
        exact ⟨.close :: early, late, rfl, by simp only [balance]; omega⟩
  · rintro ⟨early, late, rfl, rfl⟩
    rw [numbers_append, numbers]
    exact List.mem_append_right _ List.mem_cons_self

/-- The marks say which numbers were printed, and which one is next. -/
theorem Numbered.move {e : Event} (hn : Numbered ms s) (hm : Move fds s e s') :
    Numbered (ms ++ marks e s) s' := by
  obtain ⟨houtput, hcount⟩ := hn
  cases hm with
  | connect | arrive | shutdown | hangUp | wait | waitError | accept | handle | add | bytes
  | endOfStream | error =>
    show Numbered (ms ++ []) _
    rw [List.append_nil]
    exact ⟨houtput, hcount⟩
  | close hp hend =>
    simp only [marks, hp, if_pos hend]
    refine ⟨?_, ?_⟩
    · rw [numbers_append, numbers, numbers, List.append_nil]
      exact houtput
    · rw [balance_append, State.close_count, hcount]
      rfl
  | print hp hend =>
    simp only [marks, hp, if_neg hend]
    refine ⟨?_, ?_⟩
    · rw [numbers_append, State.print_output, List.map_append, houtput, numbers, numbers, Int.zero_add,
        hcount]
      rfl
    · rw [balance_append, State.print_count, hcount]
      rfl

/-- An open connection has the next number if there were as many `close`s as messages since its own. -/
theorem Numbered.first_iff (hn : Numbered ms s) (h : Handler) : s.First ms h ↔ s.NewNumber h := by
  have hmem {l : Line} (hl : l ∈ s.output) : (l.client, l.count) ∈ numbers 0 ms := by
    rw [← hn.output]
    exact List.mem_map_of_mem hl
  refine exists_congr fun c => and_congr_right fun _ => and_congr_right fun _ =>
    and_congr_right fun _ => ?_
  constructor
  · intro hsince l hl d hd hopen hne hnumber
    obtain ⟨early, late, hsplit, hearly⟩ := mem_numbers.mp (hmem hl)
    rw [hd] at hsplit
    refine hsince early d late hsplit hopen hne ?_
    have hcount := hn.count
    rw [hsplit, balance_append] at hcount
    omega
  · intro hnew early d late hsplit hopen hne hzero
    have hd : (some d, balance early) ∈ numbers 0 ms :=
      mem_numbers.mpr ⟨early, late, hsplit, (Int.zero_add _).symm⟩
    rw [← hn.output] at hd
    obtain ⟨l, hl, hline⟩ := List.mem_map.mp hd
    obtain ⟨hclient, hnumber⟩ := Prod.mk.inj hline
    refine hnew l hl d hclient hopen hne ?_
    rw [hnumber, hn.count, hsplit, balance_append, hzero, Int.add_zero]

theorem Numbered.countsOnce_iff (hn : Numbered ms s) (e : Event) :
    CountsOnce ms s e ↔ KeepsNumbers s e := by
  cases e with
  | finish => simp only [CountsOnce, KeepsNumbers, hn.first_iff]
  | _ => exact Iff.rfl

end Numbers

/-! ## The counter -/

/-- A step that neither prints nor closes, and opens only connections without a line. -/
theorem State.Counted.of_open (h : s.Counted) (hcount : s'.count = s.count)
    (houtput : s'.output = s.output)
    (hopen : ∀ l ∈ s.output, ∀ c ∈ l.client, s'.Open c ↔ s.Open c) : s'.Counted := by
  refine ⟨?_, by rw [hcount]; exact h.nonneg, ?_⟩
  · rw [hcount]
    refine h.count.congr fun c => ?_
    rw [State.Live, State.Announced, houtput]
    refine and_congr_left fun hannounced => ?_
    obtain ⟨l, hl, hclient, -⟩ := hannounced
    exact hopen l hl c hclient
  · rw [houtput]
    intro l hl l' hl' c hc d hd hoc hod
    exact h.ordinals l hl l' hl' c hc d hd ((hopen l hl c hc).mp hoc) ((hopen l' hl' d hd).mp hod)

theorem open_close (hd : Distinct s) {fd : Nat} (hfd : s.file fd = some c) (d : Nat) :
    (s.close fd).Open d ↔ d ≠ c ∧ s.Open d := by
  constructor
  · rintro ⟨fd', h⟩
    obtain ⟨hfile, hne⟩ := file_close h
    refine ⟨?_, fd', hfile⟩
    rintro rfl
    exact hne (hd.file fd' fd _ hfile hfd)
  · rintro ⟨hne, fd', hfile⟩
    refine ⟨fd', ?_⟩
    have hfd' : fd' ≠ fd := by
      rintro rfl
      exact hne (Option.some.inj (hfile.symm.trans hfd))
    rw [State.close_file, Function.update_of_ne hfd']
    exact hfile

theorem announced_print {h : Handler} (d : Nat) : (s.print h).Announced d ↔
    s.Announced d ∨ s.file h.clientfd = some d ∧ h.message ≠ [] := by
  simp only [State.Announced, State.print_output, List.mem_append, List.mem_singleton, or_and_right,
    exists_or, exists_eq_left]

/-- A `close` of a connection with a message. -/
theorem State.Counted.close (hs : s.Counted) (hd : Distinct s) {h : Handler} (hknown : s.Known h) :
    (s.close h.clientfd).Counted := by
  obtain ⟨c, hc, hannounced⟩ := hknown
  have hopen := open_close hd hc
  have hcount : Counts (s.close h.clientfd).Live (s.count - 1) := by
    refine hs.count.erase (a := c) ⟨⟨_, hc⟩, hannounced⟩ fun d => ?_
    rw [State.Live, hopen, and_assoc]
    rfl
  refine ⟨hcount, hcount.nonneg, fun l hl l' hl' d hdl e hel hod hoe => ?_⟩
  exact hs.ordinals l hl l' hl' d hdl e hel ((hopen d).mp hod).2 ((hopen e).mp hoe).2

/-- The first message of a connection, with a number of its own. -/
theorem State.Counted.print (hs : s.Counted) {h : Handler} (hfirst : s.NewNumber h) :
    (s.print h).Counted := by
  obtain ⟨c, hc, hmessage, hnew, hnumber⟩ := hfirst
  have hcount : Counts (s.print h).Live (s.count + 1) := by
    refine hs.count.insert (a := c) (fun hold => hnew hold.2) fun d => ?_
    rw [State.Live, announced_print, show s.file h.clientfd = some c from hc, Option.some.injEq]
    have hopen : (s.print h).Open c := ⟨_, hc⟩
    constructor
    · rintro ⟨ho, ha | ⟨rfl, -⟩⟩
      · exact .inr ⟨ho, ha⟩
      · exact .inl rfl
    · rintro (rfl | ⟨ho, ha⟩)
      · exact ⟨hopen, .inr ⟨rfl, hmessage⟩⟩
      · exact ⟨ho, .inl ha⟩
  refine ⟨hcount, hcount.nonneg, fun l hl l' hl' d hdl e hel hod hoe hne => ?_⟩
  rw [State.print_output, List.mem_append, List.mem_singleton] at hl hl'
  -- Two old lines, or the new one and one of another connection.
  have hline {l : Line} {d : Nat} (hl : l = ⟨s.file h.clientfd, s.count, h.message⟩)
      (hdl : d ∈ l.client) : d = c ∧ l.count = s.count := by
    subst hl
    exact ⟨Option.some.inj (Option.mem_unique hdl hc ▸ rfl), rfl⟩
  rcases hl with hl | hl <;> rcases hl' with hl' | hl'
  · exact hs.ordinals l hl l' hl' d hdl e hel hod hoe hne
  · obtain ⟨rfl, hnum⟩ := hline hl' hel
    rw [hnum]
    exact hnumber l hl d hdl hod hne
  · obtain ⟨rfl, hnum⟩ := hline hl hdl
    rw [hnum]
    exact (hnumber l' hl' e hel hoe (Ne.symm hne)).symm
  · exact absurd ((hline hl hdl).1.trans (hline hl' hel).1.symm) hne

/-- The counter moved, but the connections with a message are the same. -/
theorem State.Counted.count_eq (hs : s.Counted) (hs' : s'.Counted)
    (hlive : ∀ c, s'.Live c ↔ s.Live c) : s'.count = s.count :=
  hs'.count.unique (hs.count.congr hlive)

/-- A `close` of a connection without a message. -/
theorem not_counted_close (hs : s.Counted) {h : Handler} (hknown : ¬ s.Known h) :
    ¬ (s.close h.clientfd).Counted := by
  intro hs'
  have hlive (d : Nat) : (s.close h.clientfd).Live d ↔ s.Live d := by
    refine and_congr_left fun hannounced => ?_
    constructor
    · rintro ⟨fd, hfile⟩
      exact ⟨fd, (file_close hfile).1⟩
    · rintro ⟨fd, hfile⟩
      refine ⟨fd, ?_⟩
      have hfd : fd ≠ h.clientfd := by
        rintro rfl
        exact hknown ⟨d, hfile, hannounced⟩
      rw [State.close_file, Function.update_of_ne hfd]
      exact hfile
  have hcount := hs.count_eq hs' hlive
  rw [State.close_count] at hcount
  omega

/-- A message that is not the first one, or with the number of an open connection. -/
theorem not_counted_print (hs : s.Counted) {h : Handler} (hfirst : ¬ s.NewNumber h) :
    ¬ (s.print h).Counted := by
  intro hs'
  by_cases hnew : ∃ c, s.file h.clientfd = some c ∧ h.message ≠ [] ∧ ¬ s.Announced c
  · obtain ⟨c, hc, hmessage, hnew⟩ := hnew
    refine hfirst ⟨c, hc, hmessage, hnew, fun l hl d hdl hopen hne => ?_⟩
    refine hs'.ordinals l ?_ ⟨s.file h.clientfd, s.count, h.message⟩ ?_ d hdl c hc hopen ⟨_, hc⟩ hne
    · exact List.mem_append_left _ hl
    · exact List.mem_append_right _ List.mem_cons_self
  · have hlive (d : Nat) : (s.print h).Live d ↔ s.Live d := by
      refine and_congr_right fun _ => ?_
      rw [announced_print]
      refine or_iff_left_of_imp fun ⟨hfile, hmessage⟩ => ?_
      exact by_contra fun hno => hnew ⟨d, hfile, hmessage, hno⟩
    have hcount := hs.count_eq hs' hlive
    rw [State.print_count] at hcount
    omega

/-- What is known in front of an event: the connections are distinct, and the counter is right. -/
theorem counted_move {e : Event} (hd : Distinct s) (hs : s.Counted) (hc : KeepsNumbers s e)
    (hm : Move fds s e s') : s'.Counted := by
  cases hm with
  | connect | arrive | shutdown | hangUp | wait | waitError | handle | add | bytes | endOfStream
  | error => exact hs.of_open rfl rfl fun _ _ _ _ => Iff.rfl
  | @accept clientfd sockfd c queue batch hp hb hfd hq hfree hnew =>
    refine hs.of_open rfl rfl fun l hl d hdl => ?_
    have hne : d ≠ c := by
      rintro rfl
      exact hd.silent sockfd d (hq ▸ List.mem_cons_self) l hl hdl
    constructor
    · rintro ⟨fd, hfile⟩
      exact ⟨fd, (file_accept hfile).resolve_right fun hnew => hne hnew.2⟩
    · rintro ⟨fd, hfile⟩
      refine ⟨fd, ?_⟩
      have he : fd ≠ clientfd := by
        rintro rfl
        exact absurd (hfree.symm.trans hfile) nofun
      show Function.update s.file clientfd (some c) fd = some d
      rw [Function.update_of_ne he, hfile]
  | close hp hend =>
    have hknown := hc _ _ _ hp
    rw [if_pos hend] at hknown
    exact hs.close hd hknown
  | print hp hend =>
    have hfirst := hc _ _ _ hp
    rw [if_neg hend] at hfirst
    exact hs.print hfirst

/-- An event that counts wrongly. -/
theorem not_counted_step {e : Event} (hs : s.Counted) (hc : ¬ KeepsNumbers s e) :
    ∃ s', step fds e s = .ret s' ∧ ¬ (s'.place = .loop → s'.Counted) := by
  cases e with
  | finish =>
    simp only [KeepsNumbers, Classical.not_forall] at hc
    obtain ⟨h, len, errno, hp, hbad⟩ := hc
    refine ⟨s.finish h len errno, by rw [step, hp], fun hgood => ?_⟩
    unfold State.finish at hgood
    split at hbad
    · rw [if_pos ‹_›] at hgood
      exact not_counted_close hs hbad (hgood rfl)
    · rw [if_neg ‹_›] at hgood
      exact not_counted_print hs hbad (hgood rfl)
  | _ => exact absurd trivial hc

theorem counted_init : State.Counted {} where
  count := counts_zero fun _ hlive => by
    obtain ⟨fd, hfile⟩ := hlive.1
    cases hfile
  nonneg := Int.le_refl 0
  ordinals := nofun

/-- The condition on the numbers is exact, too. -/
theorem counted_iff_keepsNumbers {es : List Event} (hes : Along (step fds) (Enabled fds) {} es) :
    (∀ s, Visits (step fds) {} es s → s.place = .loop → s.Counted) ↔
      Along (step fds) KeepsNumbers {} es := by
  have hgood (s : State) (h : Distinct s ∧ s.Counted) : s.place = .loop → s.Counted := fun _ => h.2
  refine visits_iff hgood ?_ ?_ ⟨distinct_init, counted_init⟩ hes
  · rintro s e s' ⟨hd, hs⟩ he hc hstep
    have hm := step_move he hstep
    exact ⟨hd.move hm, counted_move hd hs hc hm⟩
  · exact fun s e ⟨_, hs⟩ _ hc => not_counted_step hs hc

/-- **The counter.** Between any two events, `count` is the number of the open connections with a
printed message, and no two of them have one number, exactly if each event that prints has the first
message of its connection, each one that closes is of a connection with a message, and no event prints
where another open connection has seen as many `close`s as messages since its own. -/
theorem count_iff {es : List Event} (hes : Along (step fds) (Enabled fds) {} es) :
    (∀ s, Visits (step fds) {} es s → s.place = .loop → s.Counted) ↔
      AlongGather (step fds) marks CountsOnce [] {} es := by
  rw [counted_iff_keepsNumbers hes]
  have hstart : Numbered [] {} := ⟨rfl, rfl⟩
  exact (alongGather_iff (R := Numbered) (fun _ _ _ _ hn he hstep => hn.move (step_move he hstep))
    (fun _ _ e hn => hn.countsOnce_iff e) hstart hes).symm

/-- Before all other messages, there is nothing to clash with. -/
theorem first_of_output {h : Handler} (houtput : s.output = []) (hc : s.file h.clientfd = some c)
    (hmessage : h.message ≠ []) : s.First [] h := by
  refine ⟨c, hc, hmessage, ?_, fun early d late hsplit => ?_⟩
  · rintro ⟨l, hl, -⟩
    rw [houtput] at hl
    cases hl
  · simp at hsplit

/-- The client `c` connects, gets the descriptor `fd`, and sends one message. -/
def hello (c fd : Nat) : List Event :=
  [.connect 3, .wait [3] [], .next fd, .add true, .arrive c [104#8], .wait [fd] [], .next 0,
    .recv (.bytes 1), .recv (.error eagain), .finish]

/-- It closes its end. -/
def bye (c fd : Nat) : List Event :=
  [.shutdown c, .wait [fd] [], .next 0, .recv .endOfStream, .finish]

/-- A client that sends one message and closes its end. -/
theorem count_iff_hello :
    let es := hello 0 7 ++ bye 0 7
    Along (step [3]) (Enabled [3]) {} es ∧
      ∀ s, Visits (step [3]) {} es s → s.place = .loop → s.Counted := by
  intro es
  have hes : Along (step [3]) (Enabled [3]) {} es := by decide
  refine ⟨hes, (count_iff hes).mpr ?_⟩
  refine ⟨trivial, trivial, trivial, trivial, trivial, trivial, trivial, trivial, trivial, ?_, trivial,
    trivial, trivial, trivial, ?_, trivial⟩
  · rintro _ _ _ ⟨⟩
    exact first_of_output rfl rfl (by decide)
  · rintro _ _ _ ⟨⟩
    exact ⟨0, rfl, _, List.mem_cons_self, rfl, by decide⟩

/-- A client that closes its end at once makes the counter negative. And when the first of two clients
has closed its end, the third one gets the number of the second. -/
theorem not_counted_bye :
    let fds := [3]
    let early := [Event.connect 3, .wait [3] [], .next 7, .add true] ++ bye 0 7
    let late := hello 0 7 ++ hello 1 8 ++ bye 0 7 ++ hello 2 7
    (Along (step fds) (Enabled fds) {} early ∧ ∃ s, Visits (step fds) {} early s ∧
      s.place = .loop ∧ s.count = -1 ∧ ¬ s.Counted) ∧
    Along (step fds) (Enabled fds) {} late ∧ ∃ s, Visits (step fds) {} late s ∧
      s.place = .loop ∧ ¬ s.Counted := by
  refine ⟨⟨by decide, _, ⟨9, rfl⟩, rfl, rfl, fun h => absurd h.nonneg (by decide)⟩,
    by decide, _, ⟨35, rfl⟩, rfl, fun h => ?_⟩
  refine h.ordinals ⟨some 1, 1, [104#8]⟩ ?_ ⟨some 2, 1, [104#8]⟩ ?_ 1 rfl 2 rfl ⟨8, rfl⟩ ⟨7, rfl⟩
    (by decide) rfl
  · exact .tail _ (.head _)
  · exact .tail _ (.tail _ (.head _))

end TcpServer
end LinuxBase
