import LinuxBase.AddressBook.Main
import LinuxBase.HttpConnect.Collect
import LinuxBase.HttpConnect.Save

/-!
# The HTTP client as a whole

`main` reads its arguments, and gives what `httpSendRequest` returns to `saveHttp`. The results of the
resolver, of the sockets, of `fopen` and of the `malloc` of `saveHttp` are a `World`; the `malloc` and the
`realloc` of `httpSendRequest` succeed for positive sizes, as in `Basic`. `atoi` reads an integer as
`scanf` does, and is 0 if there is none.

`main` never gets to its `return 0`. With arguments that it refuses, it fails; with a request that it
can send, it waits for the peer; and when the peer is done, it leaves the defined behaviour
(`main_outcome`).
-/

namespace LinuxBase
namespace HttpConnect

open CString
open AddressBook (scanInt)

/-- What `main` gets from outside. -/
structure World where
  gethostbyname : Str → Option (List IpText)
  socket : Int
  /-- `connect`, for a socket, an address and a port. -/
  connect : Int → List Byte → BitVec 16 → Int
  its : List Iteration
  /-- The address of `result`, if it is a block. -/
  base : Nat
  /-- The `malloc` of `saveHttp` fails. -/
  fails : Bool
  junk : Nat → Byte
  opens : Bool

inductive Exit where
  | failure
  | success
  deriving DecidableEq

def atoi (s : Str) : Int := (scanInt s.val).1.getD 0

namespace World

def httpCreateSocket (w : World) (ip : Option (List Byte)) (port : BitVec 16) : Int :=
  match ip with
  | none => -1
  | some ip => if w.connect w.socket ip port ≠ 0 then -2 else w.socket

/-- `httpSendRequest` with its resolver and its socket. -/
def httpSendRequest (w : World) (hostname path : Option Str) (port : BitVec 16) :
    Run (Option (List Byte)) := do
  let hostEntry := hostname.bind w.gethostbyname
  match ← buildRequest hostname path hostEntry with
  | none => .ret none
  | some (ips, _) =>
    let ip := ips.take inetAddrStrLen
    HttpConnect.httpSendRequest hostname path hostEntry (w.httpCreateSocket (some ip) port) w.its

/-- `saveHttp` of `result`. There is no block at another address. -/
def saveHttp (w : World) (result : Option (List Byte)) : Run (List Byte) := do
  let block ← .ofOption result
  if h : Ends block ∧ 4096 ≤ w.base ∧ w.base + block.length ≤ 4611686018427387904 then
    HttpConnect.saveHttp ⟨w.base, block, h.1, h.2⟩ w.fails w.junk w.opens
  else .fault

end World

/-- The hostname, the port and the path, if `main` goes on with its arguments. -/
def arguments : List Str → Option (Str × BitVec 16 × Str)
  | _ :: hostname :: port :: path :: _ =>
    if atoi port < 0 then none else some (hostname, BitVec.ofInt 16 (atoi port), path)
  | _ => none

def main (w : World) (argc : List Str) : Run Exit :=
  match arguments argc with
  | none => .ret .failure
  | some (hostname, port, path) => do
    let result ← w.httpSendRequest (some hostname) (some path) port
    let _ ← w.saveHttp result
    .ret .success

/-- A request that fits, for a host with the first address `t`. -/
structure Fits (w : World) (hostname path : Str) (t : IpText) : Prop where
  addrs : ∃ ts, w.gethostbyname hostname = some (t :: ts) ∧ ts.length ≤ 4
  size : path.val.length + hostname.val.length ≤ 981

/-- The request is sent, and the loop goes on. -/
structure Waits (w : World) (hostname : Str) (port : BitVec 16) (path : Str) : Prop where
  connected : ∃ t, Fits w hostname path t ∧ w.connect w.socket (padded t) port = 0
  select : 0 ≤ w.socket ∧ w.socket < 1024
  defined : collected (received w.its) ≠ .fault
  goesOn : leaves w.its = false

variable {w : World} {hostname path : Str} {port : BitVec 16}

/-- What `saveHttp` gets is of no use. -/
theorem saveHttp_eq_fault (w : World) (result : Option (List Byte)) : w.saveHttp result = .fault := by
  cases result with
  | none => rfl
  | some block =>
    unfold World.saveHttp
    rw [Run.ofOption_some, Run.ret_bind]
    split
    · exact saveHttp_fault _ _ _ _
    · rfl

/-- Behind `httpSendRequest`, there is nothing but a fault. -/
theorem send_saveHttp (x : Run (Option (List Byte))) :
    (x >>= fun result => w.saveHttp result >>= fun _ => Run.ret Exit.success) =
      if x = .more then .more else .fault := by
  cases x with
  | ret result => rw [Run.ret_bind, saveHttp_eq_fault]; rfl
  | fault => rfl
  | more => rfl

/-- A request that does not fit, or has no address. -/
theorem buildRequest_of_not_fits (hno : ∀ t, ¬ Fits w hostname path t) :
    buildRequest (some hostname) (some path) (w.gethostbyname hostname) = .fault ∨
      buildRequest (some hostname) (some path) (w.gethostbyname hostname) = .ret none := by
  cases hentry : w.gethostbyname hostname with
  | none => exact .inl rfl
  | some addrs =>
    cases addrs with
    | nil => exact .inr rfl
    | cons t ts =>
      refine .inl (Classical.byContradiction fun hne => hno t ⟨⟨ts, hentry, ?_⟩, ?_⟩)
      · exact Nat.le_of_succ_le_succ (staysInside_some_iff.mp hne).1
      · exact (staysInside_some_iff.mp hne).2 (List.cons_ne_nil t ts)

/-- A request that fits goes to the first address. -/
theorem httpSendRequest_of_fits {t : IpText} (h : Fits w hostname path t) (port : BitVec 16) :
    ∃ b, buildRequest (some hostname) (some path) (w.gethostbyname hostname) = .ret (some b) ∧
      w.httpSendRequest (some hostname) (some path) port =
        HttpConnect.httpSendRequest (some hostname) (some path) (w.gethostbyname hostname)
          (w.httpCreateSocket (some (padded t)) port) w.its := by
  obtain ⟨⟨ts, hentry, hlen⟩, hsize⟩ := h
  obtain ⟨ips, buffer, hbuild, hip⟩ := @exists_build hostname path t ts hlen hsize
  rw [← hentry] at hbuild
  refine ⟨_, hbuild, ?_⟩
  simp only [World.httpSendRequest, Option.bind_some, hbuild, Run.ret_bind, hip]

theorem Fits.unique {t t' : IpText} (h : Fits w hostname path t) (h' : Fits w hostname path t') :
    t = t' := by
  obtain ⟨⟨ts, hentry, -⟩, -⟩ := h
  obtain ⟨⟨ts', hentry', -⟩, -⟩ := h'
  rw [hentry] at hentry'
  cases hentry'
  rfl

/-- `select` takes the socket if it is connected. -/
theorem httpCreateSocket_iff (ip : List Byte) :
    (0 ≤ w.httpCreateSocket (some ip) port ∧ w.httpCreateSocket (some ip) port < 1024) ↔
      w.connect w.socket ip port = 0 ∧ 0 ≤ w.socket ∧ w.socket < 1024 := by
  simp only [World.httpCreateSocket]
  by_cases hconnect : w.connect w.socket ip port = 0
  · rw [if_neg (not_not.mpr hconnect), and_iff_right hconnect]
  · rw [if_pos hconnect]
    exact iff_of_false (by decide) fun h => hconnect h.1

theorem send_more_iff (hv : ∀ it ∈ w.its, it.Valid) :
    w.httpSendRequest (some hostname) (some path) port = .more ↔ Waits w hostname port path := by
  by_cases hfits : ∃ t, Fits w hostname path t
  · obtain ⟨t, hfits⟩ := hfits
    obtain ⟨b, hbuild, hsend⟩ := httpSendRequest_of_fits hfits port
    have hsocket := @httpCreateSocket_iff w port (padded t)
    rw [hsend]
    by_cases hfd : 0 ≤ w.httpCreateSocket (some (padded t)) port ∧
        w.httpCreateSocket (some (padded t)) port < 1024
    · obtain ⟨hconnect, hselect⟩ := hsocket.mp hfd
      rw [httpSendRequest_more_iff hbuild hfd hv]
      exact ⟨fun h => ⟨⟨t, hfits, hconnect⟩, hselect, h.1, h.2⟩, fun h => ⟨h.defined, h.goesOn⟩⟩
    · rw [httpSendRequest_fault hbuild hfd]
      refine iff_of_false nofun fun h => hfd (hsocket.mpr ?_)
      obtain ⟨t', hfits', hconnect⟩ := h.connected
      cases hfits.unique hfits'
      exact ⟨hconnect, h.select⟩
  · have hwaits : ¬ Waits w hostname port path := fun h =>
      hfits (h.connected.imp fun _ ht => ht.1)
    refine iff_of_false ?_ hwaits
    unfold World.httpSendRequest
    rcases buildRequest_of_not_fits (not_exists.mp hfits) with hbuild | hbuild <;>
      simp [hbuild]

/-- **The program.** `main` fails with arguments that it refuses, waits for a peer that has not ended
its response, and leaves the defined behaviour in all other cases: it never returns 0. -/
theorem main_outcome (w : World) (hv : ∀ it ∈ w.its, it.Valid) (argc : List Str) :
    (arguments argc = none → main w argc = .ret .failure) ∧
    ∀ hostname port path, arguments argc = some (hostname, port, path) →
      (main w argc = .more ↔ Waits w hostname port path) ∧
      (main w argc = .fault ↔ ¬ Waits w hostname port path) := by
  constructor
  · intro hargs
    rw [main, hargs]
  · intro hostname port path hargs
    have hmain : main w argc =
        if w.httpSendRequest (some hostname) (some path) port = .more then .more else .fault := by
      rw [main, hargs]
      exact send_saveHttp _
    rw [hmain, ← send_more_iff hv]
    split
    · exact ⟨iff_of_true rfl ‹_›, iff_of_false nofun (not_not.mpr ‹_›)⟩
    · exact ⟨iff_of_false nofun ‹_›, iff_of_true rfl ‹_›⟩

/-- A host with an address, and a peer that sends `its`. -/
def localhost (its : List Iteration) : World where
  gethostbyname _ := some [⟨octets "127.0.0.1", by decide⟩]
  socket := 3
  connect _ _ _ := 0
  its := its
  base := 4096
  fails := false
  junk _ := 0xff
  opens := true

/-- A response that has begun, one that has ended, and a port that is negative. -/
theorem main_outcome_localhost :
    let h : Str := ⟨octets "h", by decide⟩
    let port (s : String) (hs : 0#8 ∉ octets s) : List Str := [h, h, ⟨octets s, hs⟩, h]
    let chunk := Iteration.ready (.chunk (octets "HTTP")) fun _ => 0xff
    main (localhost [chunk]) (port "80" (by decide)) = .more ∧
      main (localhost [chunk, .notReady]) (port "80" (by decide)) = .fault ∧
      main (localhost [chunk]) (port "-1" (by decide)) = .ret .failure := by
  intro h port chunk
  have hfits (its : List Iteration) : Fits (localhost its) h h ⟨octets "127.0.0.1", by decide⟩ :=
    ⟨⟨[], rfl, by decide⟩, by decide⟩
  refine ⟨((main_outcome _ (by decide) _).2 h 80 h rfl).1.mpr ?_,
    ((main_outcome _ (by decide) _).2 h 80 h rfl).2.mpr ?_, (main_outcome _ (by decide) _).1 rfl⟩
  · exact ⟨⟨_, hfits _, rfl⟩, by decide, by decide, by decide⟩
  · exact fun hwaits => nomatch hwaits.goesOn

end HttpConnect
end LinuxBase
