import LinuxBase.TcpConnect

/-!
# What the load client counts

A socket with an event that is neither readable nor writable, or with an error other than `EINTR`, is
closed without a `connections--`. So `connections` is the number of the open sockets and of those that
were closed so (`leaked`), in every run and for all lists of events (`ledger`). It is never
negative and never more than 340000, so what `epoll_wait` may store has room in `events`.

`isContinue` is never anything but 0: no command of the server stops the client. The only step that
may leave the defined behaviour is the `printf` of a chunk that fills `rBuffer` without a NUL.
-/

namespace LinuxBase
namespace TcpConnect

open CString

def maxEpollSize : Nat := 384 * 1024

/-- The sockets that a step closes without a count. -/
def leaked : Event → State → List Nat
  | .handle _, s =>
    match s.place with
    | .ready ev _ => if ev.epollout = true ∨ ev.epollin = true then [] else [ev.fd]
    | _ => []
  | .finish, s =>
    match s.place with
    | .received ev _ (.error errno) => if errno = eintr then [] else [ev.fd]
    | _ => []
  | .top .., _ | .wait _, _ => []

/-- What `recv` has stored has a NUL in `rBuffer`. -/
def EndsInBuffer (s : State) : Event → Prop
  | .finish => ∀ ev rest bytes, s.place = .received ev rest (.bytes bytes) →
      0#8 ∈ bytes ∨ bytes.length < maxBuffer
  | .top .. | .wait _ | .handle _ => True

/-- The state, if the sockets `ls` were closed without a count. -/
structure Balanced (ls : List Nat) (s : State) : Prop where
  isContinue : s.isContinue = 0
  counts : s.place ≠ .err → Counts (fun fd => s.isOpen fd = true) (s.connections - ls.length)
  le : s.connections ≤ 340000
  room : s.place = .waiting → 999 ≤ s.connections ∧ s.connections ≤ maxEpollSize
  batch : s.Batch

variable {s s' : State} {ls : List Nat} {ev : Ready} {rest : List Ready} {r : Received}

theorem balanced_init : Balanced [] {} where
  isContinue := rfl
  counts _ := counts_zero fun _ => nofun
  le := by decide
  room := nofun
  batch := ⟨List.nodup_nil, nofun⟩

theorem batch_of_nil (h : s.place.events = []) : s.Batch :=
  ⟨by rw [h]; exact List.nodup_nil, by rw [h]; exact nofun⟩

/-! ## An iteration -/

theorem balanced_check (hcontinue : s.isContinue = 0)
    (hcounts : Counts (fun fd => s.isOpen fd = true) (s.connections - ls.length))
    (hle : s.connections ≤ 340000) : Balanced ls s.check where
  isContinue := hcontinue
  counts _ := hcounts
  le := hle
  room hp := by
    have hnonneg := hcounts.nonneg
    have hmod := Int.tmod_eq_emod_of_nonneg (a := s.connections) (b := 1000) (by omega)
    unfold State.check at hp ⊢
    simp only at hp ⊢
    split at hp
    · rw [maxEpollSize]
      omega
    · cases hp
  batch := batch_of_nil (check_events s)

/-- The client goes to `err`. -/
theorem balanced_err (hcontinue : s.isContinue = 0) (hle : s.connections ≤ 340000)
    (hp : s.place = .err) : Balanced ls s where
  isContinue := hcontinue
  counts hne := absurd hp hne
  le := hle
  room hw := by rw [hp] at hw; cases hw
  batch := batch_of_nil (by rw [hp]; rfl)

theorem Balanced.top (h : Balanced ls s) (hp : s.place = .top) {socket : Option Nat}
    (hfree : ∀ fd ∈ socket, s.isOpen fd = false) (connected : Bool) :
    Balanced ls (s.top socket connected) := by
  have hcounts := h.counts (by rw [hp]; exact nofun)
  unfold State.top
  simp only
  split
  · rename_i hgo
    cases socket with
    | none => exact balanced_err h.isContinue h.le rfl
    | some fd =>
      cases connected with
      | false => exact balanced_err h.isContinue h.le rfl
      | true =>
        have hfd := hfree fd rfl
        have hinsert := hcounts.insert (a := fd)
          (Q := fun fd' => Function.update s.isOpen fd true fd' = true) (by simp [hfd]) fun fd' => by
            by_cases he : fd' = fd
            · simp [he]
            · simp [he]
        refine balanced_check h.isContinue ?_ ?_
        · show Counts _ (s.connections + 1 - ls.length)
          rwa [sub_add_eq_add_sub] at hinsert
        · show s.connections + 1 ≤ 340000
          omega
  · exact balanced_check h.isContinue hcounts h.le

/-! ## A ready event -/

/-- A step behind `epoll_wait` that closes nothing. -/
theorem Balanced.keeps (h : Balanced ls s) (hp : s.place ≠ .err) (hb : s'.Batch)
    (hp' : s'.place ≠ .waiting) (hcontinue : s'.isContinue = 0)
    (hconnections : s'.connections = s.connections) (hopen : s'.isOpen = s.isOpen) :
    Balanced ls s' where
  isContinue := hcontinue
  counts _ := by rw [hconnections, hopen]; exact h.counts hp
  le := by rw [hconnections]; exact h.le
  room hw := absurd hw hp'
  batch := hb

/-- A `close` of an open socket: it is counted, or it is leaked. -/
theorem Balanced.closes (h : Balanced ls s) (hp : s.place ≠ .err) {fd : Nat}
    (hopen : s.isOpen fd = true) (hb : s'.Batch) (hp' : s'.place ≠ .waiting)
    (hcontinue : s'.isContinue = s.isContinue) (hopen' : s'.isOpen = (s.close fd).isOpen)
    {ls' : List Nat} (hle : s'.connections ≤ s.connections)
    (hcount : s'.connections - ls'.length = s.connections - ls.length - 1) : Balanced ls' s' where
  isContinue := hcontinue.trans h.isContinue
  counts _ := by
    rw [hcount, hopen']
    exact counts_close (h.counts hp) hopen
  le := hle.trans h.le
  room hw := absurd hw hp'
  batch := hb

theorem next_ne_waiting (rest : List Ready) : Place.next rest ≠ .waiting := by
  cases rest <;> exact nofun

theorem Balanced.handle (h : Balanced ls s) (hp : s.place = .ready ev rest) (r : Received) :
    Balanced (ls ++ leaked (.handle r) s) (s.handle ev rest r) := by
  have hne : s.place ≠ .err := by rw [hp]; exact nofun
  have hopen : s.isOpen ev.fd = true := h.batch.isOpen ev (by rw [hp]; exact List.mem_cons_self)
  have hleak : leaked (.handle r) s =
      if ev.epollout = true ∨ ev.epollin = true then [] else [ev.fd] := by
    simp only [leaked, hp]
  have hb := h.batch.handle hp r
  unfold State.handle at hb ⊢
  cases hout : ev.epollout with
  | true =>
    rw [hout, if_pos rfl] at hb
    rw [if_pos rfl, hleak, if_pos (.inl hout), List.append_nil]
    exact h.keeps hne hb (next_ne_waiting rest) h.isContinue rfl rfl
  | false =>
    cases hin : ev.epollin with
    | true =>
      rw [hout, hin, if_neg nofun, if_pos rfl] at hb
      rw [if_neg nofun, if_pos rfl, hleak, if_pos (.inr hin), List.append_nil]
      exact h.keeps hne hb nofun h.isContinue rfl rfl
    | false =>
      rw [hout, hin, if_neg nofun, if_neg nofun] at hb
      rw [if_neg nofun, if_neg nofun, hleak, if_neg (by simp [hout, hin])]
      apply h.closes hne hopen hb (next_ne_waiting rest) rfl rfl le_rfl
      rw [List.length_append, List.length_singleton]
      show s.connections - _ = _
      omega

theorem Balanced.finish (h : Balanced ls s) (hp : s.place = .received ev rest r)
    (hs' : s.finish ev rest r = .ret s') : Balanced (ls ++ leaked .finish s) s' := by
  have hne : s.place ≠ .err := by rw [hp]; exact nofun
  have hopen : s.isOpen ev.fd = true := h.batch.isOpen ev (by rw [hp]; exact List.mem_cons_self)
  have hb := h.batch.finish hp hs'
  cases r with
  | bytes bytes =>
    obtain ⟨-, -, hret⟩ := Run.bind_eq_ret.mp hs'
    cases hret
    simp only [leaked, hp, List.append_nil]
    refine h.keeps hne hb (next_ne_waiting rest) ?_ rfl rfl
    -- `quit` sets it to what it is.
    simp only [h.isContinue, ite_self]
  | endOfStream =>
    cases hs'
    simp only [leaked, hp, List.append_nil]
    refine h.closes hne hopen hb (next_ne_waiting rest) rfl rfl ?_ ?_
    · show s.connections - 1 ≤ s.connections
      omega
    · show s.connections - 1 - _ = _
      omega
  | error errno =>
    simp only [leaked, hp]
    simp only [State.finish] at hs'
    split at hs'
    · rename_i hintr
      cases hs'
      rw [if_pos hintr, List.append_nil]
      exact h.keeps hne hb (next_ne_waiting rest) h.isContinue rfl rfl
    · rename_i hintr
      cases hs'
      rw [if_neg hintr]
      apply h.closes hne hopen hb (next_ne_waiting rest) rfl rfl le_rfl
      rw [List.length_append, List.length_singleton]
      show s.connections - _ = _
      omega

/-! ## The runs -/

theorem Balanced.step {e : Event} (h : Balanced ls s) (he : Enabled s e)
    (hs' : TcpConnect.step e s = .ret s') : Balanced (ls ++ leaked e s) s' := by
  cases e with
  | top socket connected =>
    cases hs'
    rw [leaked, List.append_nil]
    exact h.top he.1 he.2 connected
  | wait ready =>
    cases hs'
    obtain ⟨hp, hnodup, hall, -⟩ := he
    rw [leaked, List.append_nil]
    refine h.keeps (by rw [hp]; exact nofun) ⟨?_, ?_⟩ (next_ne_waiting ready) h.isContinue rfl rfl
    · rwa [events_next]
    · rwa [events_next]
  | handle r =>
    obtain ⟨⟨ev, rest, hp⟩, -⟩ := he
    simp only [TcpConnect.step, hp] at hs'
    cases hs'
    exact h.handle hp r
  | finish =>
    obtain ⟨ev, rest, r, hp⟩ := he
    simp only [TcpConnect.step, hp] at hs'
    exact h.finish hp hs'

/-- `printf` stays inside `rBuffer` if there is a NUL. -/
theorem finish_bytes_iff {bytes : List Byte} (hlen : bytes.length ≤ maxBuffer) :
    s.finish ev rest (.bytes bytes) ≠ .fault ↔ 0#8 ∈ bytes ∨ bytes.length < maxBuffer := by
  have hends : Ends (bytes ++ List.replicate (maxBuffer - bytes.length) 0#8) ↔
      0#8 ∈ bytes ∨ bytes.length < maxBuffer := by
    rw [Ends, List.mem_append, List.mem_replicate]
    exact or_congr_right ⟨fun h => by omega, fun h => ⟨by omega, rfl⟩⟩
  rw [← hends, State.finish]
  by_cases h : Ends (bytes ++ List.replicate (maxBuffer - bytes.length) 0#8)
  · rw [strlen_of_ends h]
    exact iff_of_true (Run.ret_ne_fault _) h
  · rw [strlen_of_not_ends h]
    exact iff_of_false (fun hne => hne rfl) h

/-- A `recv` has returned no more than it was asked for. -/
def Bounded (s : State) : Prop := ∀ ev rest r, s.place = .received ev rest r → r.Valid

theorem bounded_next (hp : s.place = .next rest) : Bounded s := by
  intro ev rest' r h
  rw [hp] at h
  cases rest <;> cases h

theorem Bounded.step {e : Event} (he : Enabled s e) (hs' : TcpConnect.step e s = .ret s') :
    Bounded s' := by
  cases e with
  | top socket connected =>
    cases hs'
    intro ev rest r h
    have hevents := top_events s socket connected
    rw [h] at hevents
    cases hevents
  | wait ready =>
    cases hs'
    exact bounded_next rfl
  | handle r =>
    obtain ⟨⟨ev, rest, hp⟩, hr⟩ := he
    simp only [TcpConnect.step, hp] at hs'
    cases hs'
    unfold State.handle
    split
    · exact bounded_next rfl
    · split
      · rintro _ _ _ ⟨⟩
        exact hr
      · exact bounded_next rfl
  | finish =>
    obtain ⟨ev, rest, r, hp⟩ := he
    simp only [TcpConnect.step, hp] at hs'
    cases r with
    | bytes bytes =>
      obtain ⟨-, -, hret⟩ := Run.bind_eq_ret.mp hs'
      cases hret
      exact bounded_next rfl
    | endOfStream =>
      cases hs'
      exact bounded_next rfl
    | error errno =>
      simp only [State.finish] at hs'
      split at hs' <;> cases hs' <;> exact bounded_next rfl

theorem step_ne_fault_iff {e : Event} (hb : Bounded s) (he : Enabled s e) :
    step e s ≠ .fault ↔ EndsInBuffer s e := by
  cases e with
  | top | wait => exact iff_of_true (Run.ret_ne_fault _) trivial
  | handle r =>
    obtain ⟨⟨ev, rest, hp⟩, -⟩ := he
    rw [step, hp]
    exact iff_of_true (Run.ret_ne_fault _) trivial
  | finish =>
    obtain ⟨ev, rest, r, hp⟩ := he
    simp only [step, hp, EndsInBuffer]
    cases r with
    | bytes bytes =>
      rw [finish_bytes_iff (hb ev rest _ hp).2]
      refine ⟨?_, fun h => h ev rest bytes rfl⟩
      rintro h _ _ _ ⟨⟩
      exact h
    | endOfStream => exact iff_of_true (Run.ret_ne_fault _) fun _ _ _ h => by cases h
    | error errno =>
      refine iff_of_true ?_ fun _ _ _ h => by cases h
      rw [State.finish]
      split <;> exact Run.ret_ne_fault _

/-- **The ledger.** A run leaves the defined behaviour exactly if a chunk fills `rBuffer` without a NUL.
In every other one, `connections` is at its end the number of the open sockets and of those that were
closed without a count, `isContinue` is 0, and `epoll_wait` has room for what it may store. -/
theorem ledger {es : List Event} (hes : Along step Enabled {} es) :
    (exec step es {} ≠ .fault ↔ Along step EndsInBuffer {} es) ∧
      ∀ s, exec step es {} = .ret s → Balanced (gather step leaked es {}) s := by
  constructor
  · exact exec_ne_fault_iff (I := Bounded) (fun _ _ _ _ he h => Bounded.step he h)
      (fun _ _ hb he => step_ne_fault_iff hb he) nofun hes
  · intro s hs
    have hend := exec_gather (fun _ _ _ _ hb he h => Balanced.step hb he h) balanced_init hes hs
    rwa [List.nil_append] at hend

/-- One of 999 sockets has an error: 998 are open, and `connections` stays 999. -/
theorem ledger_hangUp :
    let es := connects 999 ++ [.wait [⟨5, false, false⟩], .handle .endOfStream]
    exec step es {} ≠ .fault ∧
      ∀ s, exec step es {} = .ret s → Balanced (gather step leaked es {}) s := by
  intro es
  obtain ⟨he, -, s, hs, hconnected⟩ := exec_connects (Nat.le_refl 999)
  have hes : Along step Enabled {} es := by
    refine along_append.mpr ⟨he, fun s' hs' => ?_⟩
    cases hs.symm.trans hs'
    exact enabled_first hconnected rfl (by decide) (by decide) trivial
  have hends : Along step EndsInBuffer {} es := by
    refine (along_of_mem (Q := fun e => e ≠ .finish) fun e hmem => ?_).imp fun s e he => ?_
    · rcases List.mem_append.mp hmem with hmem | hmem
      · rw [connects] at hmem
        obtain ⟨i, -, rfl⟩ := List.mem_map.mp hmem
        rintro ⟨⟩
      · rw [List.mem_cons, List.mem_singleton] at hmem
        rcases hmem with rfl | rfl <;> rintro ⟨⟩
    · cases e with
      | finish => exact absurd rfl he
      | top | wait | handle => trivial
  exact ⟨(ledger hes).1.mpr hends, (ledger hes).2⟩

end TcpConnect
end LinuxBase
