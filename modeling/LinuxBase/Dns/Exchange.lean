import LinuxBase.Dns.Contents
import LinuxBase.Dns.Question
import LinuxBase.Dns.Free

/-!
# The exchange with the server (`dns.c`)

`dnsConnection` and `main`. What the system gives to a call is a parameter (`System`): the socket, the
memory of the arrays and of `malloc`, and the outcomes of `sendto` and `recvfrom`. The outcome of
`connect` is not used. Each `malloc` before the answers may fail, and `strdup`. That the blocks of the
answers are there (lines 305 to 333) is taken from `Response`; behind an answer `main` has no end anyway.

* `response` has room for 1024 pointers, which are 8192 octets; `recvfrom` puts at most 1024 octets at
  its beginning, and the others keep what they held. So the parser leaves the array only behind 8192.
* `main` passes the same block to `freeDnsAnswer` whatever `dnsConnection` returned. If that did not
  come to an answer, the pointers in the block are what `malloc` left there.
* The datagram leaves before the response is parsed, so `dnsRequest` is `dnsConnection` up to `sendto`.
  Its octets are those of a well-formed message (`sent_eq_query`).
* `main` comes to its end only behind a response without an answer (`main_ends_iff`).
-/

namespace LinuxBase
namespace Dns

open Layout Walk

/-! ## The code -/

def dnsCreateHeader (dnsHeader : Option DnsHeader) (random : Nat) : Int × Option DnsHeader :=
  match dnsHeader with
  | none => (-1, none)
  | some _ =>
    let dnsHeader : DnsHeader := ⟨0, 0, 0, 0, 0, 0⟩
    (0, some { dnsHeader with
                 transactionId := htons (.ofNat 16 random)
                 flags := dnsHeader.flags ||| htons 0x0100
                 questions := htons 1 })

/-- `htonl` on a little-endian machine. -/
def htonl (x : BitVec 32) : BitVec 32 :=
  x.extractLsb' 0 8 ++ x.extractLsb' 8 8 ++ x.extractLsb' 16 8 ++ x.extractLsb' 24 8

/-- The memory of an `in_addr_t` on a little-endian machine. -/
def bytes32 (x : BitVec 32) : List Byte :=
  [x.extractLsb' 0 8, x.extractLsb' 8 8, x.extractLsb' 16 8, x.extractLsb' 24 8]

/-- `inet_addr("a.b.c.d")`, which is in network order. -/
def inetAddr (a b c d : Byte) : BitVec 32 := d ++ c ++ b ++ a

structure SockAddr where
  sin_port : BitVec 16
  sin_addr : BitVec 32
  deriving DecidableEq

/-- `DNS_HOST` and `DNS_PORT`. -/
def sockaddr : SockAddr where
  sin_port := htons 53
  sin_addr := htonl (inetAddr 114 114 114 114)

/-- What the system gives to a run; `old` is for the parser, as in `dnsResponseParse`. -/
structure System where
  /-- `main` gets a block for the answer. -/
  dnsAnswer : Bool
  socket : Int
  random : Nat
  request : Nat → Byte
  qName : Option (Nat → Byte)
  /-- `strdup` gets a block. -/
  hostnameTemp : Bool
  sendto : Bool
  response : Nat → Byte
  recvfrom : Option (List Byte)
  /-- `dnsResponseParse` gets a block for the header. -/
  dnsHeader : Bool
  old : Nat → Nat → Byte

/-- What a call of `dnsConnection` has taken and not given back. -/
inductive Held where
  | fd
  | qName
  | header
  deriving DecidableEq

/-- What a call of `dnsConnection` did: its value, the datagram that it sent, what it left in
`*dnsAnswer` if it wrote there, and what nobody can give back after it. -/
structure Exchange where
  ret : Int
  sent : Option (SockAddr × List Byte) := none
  answer : Option DnsAnswer := none
  held : List Held := []

/-- `dnsCreateBody`, where `strdup` may fail as well: `strtok` gets a null pointer then, and has no string
of an earlier call. -/
def createBody (fuel : Nat) (dnsBody : Option DnsBody) (hostname : List Byte) (sys : System) :
    Run (Int × Option DnsBody) :=
  match dnsBody, sys.qName, sys.hostnameTemp with
  | some _, some _, false => .fault
  | _, _, _ => dnsCreateBody fuel dnsBody hostname sys.qName

/-- `dnsConnection` up to `sendto`: what it returns before, or what it passes to `sendto`. -/
def dnsRequest (fuel : Nat) (hostname : Option (List Byte)) (sys : System) :
    Run (Int ⊕ SockAddr × List Byte) :=
  match hostname with
  | none => .ret (.inl (-1))
  | some hostname =>
    if sys.socket < 0 then .ret (.inl (-2))
    else do
      let (_, dnsHeader) := dnsCreateHeader (some ⟨0, 0, 0, 0, 0, 0⟩) sys.random
      let (_, dnsBody) ← createBody fuel (some {}) hostname sys
      let request := (List.range 1024).map sys.request
      let (size, request) ← dnsMergeRequest dnsHeader dnsBody (some request) 1024
      let request ← .ofOption request
      .ret (.inr (sockaddr, request.take size.toNat))

/-- The array `response` behind `recvfrom`. -/
def System.received (sys : System) (datagram : List Byte) : List Byte :=
  put ((List.range 8192).map sys.response) 0 (datagram.take 1024)

/-- `dnsResponseParse`, where `malloc` may fail for the header, and `dnsAnswer` may be a null pointer.
The code stores through both of them. -/
def parseInto (fuel : Nat) (dnsAnswer : Bool) (sys : System) (response : List Byte) : Run Parsed :=
  if sys.dnsHeader = false then .fault
  else if dnsAnswer then dnsResponseParse fuel (some response) sys.old
  else do
    let header ← parseHeader response
    if header.rcode ≠ 0 then dnsResponseParse fuel (some response) sys.old
    else
      -- The questions, and the `memset` behind them.
      let _ ← skipQuestions fuel response 12 header.questions.toNat
      .fault

/-- `dnsConnection` from `sendto` on. -/
def transact (fuel : Nat) (dnsAnswer : Bool) (sys : System) (call : SockAddr × List Byte) :
    Run Exchange :=
  if sys.sendto = false then .ret { ret := -3, held := [.fd, .qName] }
  else
    let sent := some call
    match sys.recvfrom with
    | none => .ret { ret := -4, sent, held := [.fd, .qName] }
    | some datagram => do
      let parsed ← parseInto fuel dnsAnswer sys (sys.received datagram)
      if parsed.ret ≠ 0 then .ret { ret := -5, sent, held := [.fd, .qName, .header] }
      else .ret { ret := (datagram.take 1024).length, sent, answer := parsed.answer, held := [.fd] }

/-- `dnsConnection`; `dnsAnswer` says whether its pointer is not null. -/
def dnsConnection (fuel : Nat) (hostname : Option (List Byte)) (dnsAnswer : Bool) (sys : System) :
    Run Exchange := do
  match ← dnsRequest fuel hostname sys with
  | .inl ret => .ret { ret }
  | .inr call => transact fuel dnsAnswer sys call

/-- What `freeDnsAnswer` finds in the block of `main`, which held `fresh` pointers before. -/
def memOf (fresh : Ptr) : Option DnsAnswer → AnswerMem
  | some answer => insertAll answer.body
  | none => { header := fresh, body := fresh, nodes := fun _ => none }

/-- The pointers in a new block: null if `malloc` gave cleared memory. -/
def freshPtr (cleared : Bool) : Ptr := if cleared then .null else .unset

def host : List Byte := "www.baidu.com".toList.map fun c => .ofNat 8 c.toNat

/-- `main`; it returns what it gave to `free`. Without a block, `freeDnsAnswer` reads through a null
pointer. -/
def main (fuel : Nat) (sys : System) (cleared : Bool) : Run (List Block) := do
  let exchange ← dnsConnection fuel (some host) sys.dnsAnswer sys
  if sys.dnsAnswer then freeDnsAnswer fuel (memOf (freshPtr cleared) exchange.answer) else .fault

variable {sys : System} {h : List Byte} {e : Exchange} {call : SockAddr × List Byte}
  {datagram resp : List Byte} {parsed : Parsed} {cleared dnsAnswer : Bool}

/-! ## Fuel -/

theorem fueled_dnsResponseParse {old : Nat → Nat → Byte} :
    Fueled fun n => dnsResponseParse n (some resp) old := by
  refine (fueled_const _).bind fun header => ?_
  by_cases hrcode : header.rcode ≠ 0
  · simp only [if_pos hrcode]
    exact fueled_const _
  · simp only [if_neg hrcode]
    exact (fueled_skipQuestions _).bind fun _ => (fueled_answerLoop _).bind fun _ => fueled_const _

theorem fueled_parseInto : Fueled fun n => parseInto n dnsAnswer sys resp := by
  unfold parseInto
  by_cases hheader : sys.dnsHeader = false
  · simp only [if_pos hheader]
    exact fueled_const _
  simp only [if_neg hheader]
  cases dnsAnswer with
  | true => exact fueled_dnsResponseParse
  | false =>
    refine (fueled_const _).bind fun header => ?_
    by_cases hrcode : header.rcode ≠ 0
    · simp only [if_pos hrcode]
      exact fueled_dnsResponseParse
    · simp only [if_neg hrcode]
      exact (fueled_skipQuestions _).bind fun _ => fueled_const _

theorem fueled_transact : Fueled fun n => transact n dnsAnswer sys call := by
  unfold transact
  by_cases hsend : sys.sendto = false
  · simp only [if_pos hsend]
    exact fueled_const _
  simp only [if_neg hsend]
  cases sys.recvfrom with
  | none => exact fueled_const _
  | some datagram => exact fueled_parseInto.bind fun _ => fueled_const _

theorem fueled_createBody : Fueled fun n => createBody n (some {}) h sys := by
  unfold createBody
  cases sys.qName with
  | none => exact fueled_dnsCreateBody
  | some old =>
    cases sys.hostnameTemp with
    | false => exact fueled_const _
    | true => exact fueled_dnsCreateBody

theorem fueled_dnsRequest : Fueled fun n => dnsRequest n (some h) sys := by
  unfold dnsRequest
  by_cases hsocket : sys.socket < 0
  · simp only [if_pos hsocket]
    exact fueled_const _
  · simp only [if_neg hsocket]
    exact fueled_createBody.bind fun _ => fueled_const _

theorem fueled_answered (r : Int ⊕ SockAddr × List Byte) :
    Fueled fun n => match r with
      | .inl ret => .ret { ret }
      | .inr call => transact n dnsAnswer sys call := by
  cases r with
  | inl ret => exact fueled_const _
  | inr call => exact fueled_transact

theorem fueled_dnsConnection : Fueled fun n => dnsConnection n (some h) dnsAnswer sys :=
  fueled_dnsRequest.bind fueled_answered

theorem fueled_freeLoop {mem : AnswerMem} {i : Ptr} {freed : List Block} :
    Fueled fun n => freeLoop mem n i freed := by
  intro n hn
  induction n generalizing i freed with
  | zero => exact absurd rfl hn
  | succ n ih =>
    simp only at hn ⊢
    rw [freeLoop] at hn
    rw [freeLoop, freeLoop]
    refine Run.ite_stable hn (fun _ => rfl) fun hn => ?_
    refine Run.bind_stable hn fun _ hn => Run.bind_stable hn fun _ hn => ?_
    refine Run.bind_stable hn fun _ hn => Run.bind_stable hn fun _ hn => ?_
    exact Run.bind_stable hn fun _ hn => ih hn

theorem fueled_freeDnsAnswer {mem : AnswerMem} : Fueled fun n => freeDnsAnswer n mem :=
  fueled_freeLoop.bind fun _ => (fueled_const _).bind fun _ => fueled_const _

/-! ## The request -/

/-- The header that is sent, in the order of a host. -/
def queryHeader (random : Nat) : DnsHeader := ⟨.ofNat 16 random, 0x0100, 1, 0, 0, 0⟩

/-- The header in memory has the octets of a header on the wire. -/
theorem dnsCreateHeader_some (header : DnsHeader) (random : Nat) :
    ∃ header', dnsCreateHeader (some header) random = (0, some header') ∧
      header'.bytes = (queryHeader random).encode := by
  refine ⟨_, rfl, ?_⟩
  simp only [DnsHeader.bytes, DnsHeader.encode, queryHeader, List.append_assoc]
  rw [bytes16_htons, bytes16_htons]
  congr 1

/-- What is sent for the name `qName`. -/
def queryOctets (random : Nat) (qName : List Byte) : List Byte :=
  (queryHeader random).encode ++ (qName ++ (encode16 1 ++ encode16 1))

/-- `dnsMergeRequest` fills the first octets of the array, if there is room for the name. -/
theorem merge_createdBody {header : DnsHeader} {random : Nat} {old : Nat → Byte}
    {array qName : List Byte} (hbytes : header.bytes = (queryHeader random).encode)
    (harray : array.length = 1024) (hread : (createdBody h old).read = .ret qName) :
    ∃ request, dnsMergeRequest (some header) (some (createdBody h old)) (some array) 1024 =
        (if 12 + qName.length + 4 ≤ 1024 then
          .ret (12 + (createdBody h old).length + 4, some request) else .fault) ∧
      (createdBody h old).length = qName.length ∧
      (12 + qName.length + 4 ≤ 1024 →
        request.take (12 + qName.length + 4) = queryOctets random qName) := by
  have hlen : (createdBody h old).length = qName.length := by
    have h := createdBody_read h old
    split at h
    · obtain ⟨qName', hread', hlen, -⟩ := h
      rw [hread] at hread'
      rwa [Run.ret.inj hread']
    · exact nomatch hread.symm.trans h
  have hmerge := dnsMergeRequest_eq header (show 1 ≤ array.length by omega) hread hlen
  rw [harray] at hmerge
  refine ⟨_, hmerge, hlen, fun hfit => ?_⟩
  have hoctets : header.bytes ++ qName ++ bytes16 (createdBody h old).qType ++
      bytes16 (createdBody h old).qClass = queryOctets random qName := by
    simp only [createdBody, bytes16_htons, hbytes, queryOctets, List.append_assoc]
  have hcount : 12 + qName.length + 4 = (queryOctets random qName).length := by
    rw [← hoctets]
    simp only [List.length_append, length_bytes16, DnsHeader.length_bytes]
  rw [requestOf, hoctets, hcount]
  exact List.take_left

theorem returns_createBody_iff {r : Int × Option DnsBody} :
    Returns (fun n => createBody n (some {}) h sys) r ↔
      sys.qName = none ∧ r = (-2, some {}) ∨
        ∃ old, sys.qName = some old ∧ sys.hostnameTemp = true ∧ r = (0, some (createdBody h old)) := by
  unfold createBody
  cases sys.qName with
  | none =>
    have hfail : Returns (fun n => dnsCreateBody n (some {}) h none) (-2, some {}) := ⟨0, rfl⟩
    simp only [true_and, reduceCtorEq, false_and, exists_false, or_false]
    exact ⟨fun hr => fueled_dnsCreateBody.returns_unique hr hfail, fun hr => hr ▸ hfail⟩
  | some old =>
    have hbody := returns_dnsCreateBody {} h old
    simp only [reduceCtorEq, false_and, false_or, Option.some.injEq, exists_eq_left']
    cases sys.hostnameTemp with
    | false => exact iff_of_false (by rintro ⟨n, hn⟩; cases hn) fun hr => Bool.false_ne_true hr.1
    | true =>
      rw [eq_self_iff_true, true_and]
      exact ⟨fun hr => fueled_dnsCreateBody.returns_unique hr hbody, fun hr => hr ▸ hbody⟩

/-- What comes to an end of `dnsRequest`. -/
theorem returns_dnsRequest_iff {r : Int ⊕ SockAddr × List Byte} :
    Returns (fun n => dnsRequest n (some h) sys) r ↔
      sys.socket < 0 ∧ r = .inl (-2) ∨ 0 ≤ sys.socket ∧ sys.hostnameTemp = true ∧
        ∃ old qName, sys.qName = some old ∧ (createdBody h old).read = .ret qName ∧
          12 + qName.length + 4 ≤ 1024 ∧ r = .inr (sockaddr, queryOctets sys.random qName) := by
  unfold dnsRequest
  by_cases hsocket : sys.socket < 0
  · simp only [if_pos hsocket]
    constructor
    · rintro ⟨_, hn⟩
      exact .inl ⟨hsocket, (Run.ret.inj hn).symm⟩
    · rintro (⟨-, rfl⟩ | ⟨hpos, -⟩)
      · exact ⟨0, rfl⟩
      · omega
  have hpos : 0 ≤ sys.socket := Int.not_lt.mp hsocket
  obtain ⟨header, hheader, hbytes⟩ := dnsCreateHeader_some ⟨0, 0, 0, 0, 0, 0⟩ sys.random
  have harray : ((List.range 1024).map sys.request).length = 1024 := by simp
  simp only [if_neg hsocket, hheader]
  rw [returns_bind fueled_createBody ?fueled, or_iff_right fun h => hsocket h.1, and_iff_right hpos]
  case fueled => exact fun _ => fueled_const _
  generalize (List.range 1024).map sys.request = array at harray ⊢
  constructor
  · rintro ⟨out, hbody, n, hn⟩
    obtain ⟨-, rfl⟩ | ⟨old, hq, htemp, rfl⟩ := returns_createBody_iff.mp hbody
    · -- Without a block there is no name to copy.
      obtain ⟨⟨size, request⟩, hmerge, -⟩ := Run.bind_eq_ret.mp hn
      apply absurd hmerge
      rw [← harray]
      exact dnsMergeRequest_ne_ret (by omega) rfl
    obtain ⟨⟨size, request⟩, hmerge, hn⟩ := Run.bind_eq_ret.mp hn
    have hread := createdBody_read h old
    split at hread
    swap
    · apply absurd hmerge
      rw [← harray]
      exact dnsMergeRequest_ne_ret (by omega) hread
    obtain ⟨qName, hread, -, -⟩ := hread
    obtain ⟨request', hmerge', hlen, htake⟩ := merge_createdBody hbytes harray hread
    rw [hmerge'] at hmerge
    split at hmerge
    · rename_i hfit
      cases hmerge
      have hsize : (12 + (createdBody h old).length + 4).toNat = 12 + qName.length + 4 := by omega
      simp only [Run.ofOption_some, Run.ret_bind, hsize, htake hfit] at hn
      exact ⟨htemp, old, qName, hq, hread, hfit, (Run.ret.inj hn).symm⟩
    · cases hmerge
  · rintro ⟨htemp, old, qName, hq, hread, hfit, rfl⟩
    obtain ⟨request', hmerge', hlen, htake⟩ := merge_createdBody hbytes harray hread
    have hsize : (12 + (createdBody h old).length + 4).toNat = 12 + qName.length + 4 := by omega
    rw [if_pos hfit] at hmerge'
    refine ⟨_, returns_createBody_iff.mpr (.inr ⟨old, hq, htemp, rfl⟩), 0, ?_⟩
    simp only [hmerge', Run.ofOption_some, Run.ret_bind, hsize, htake hfit]

/-- What comes to an end of `dnsConnection`. -/
theorem returns_dnsConnection_iff :
    Returns (fun n => dnsConnection n (some h) dnsAnswer sys) e ↔
      (∃ ret, Returns (fun n => dnsRequest n (some h) sys) (.inl ret) ∧ e = { ret }) ∨
        ∃ call, Returns (fun n => dnsRequest n (some h) sys) (.inr call) ∧
          Returns (fun n => transact n dnsAnswer sys call) e := by
  unfold dnsConnection
  rw [returns_bind fueled_dnsRequest fueled_answered, Sum.exists]
  apply or_congr_left
  refine exists_congr fun ret => and_congr_right fun _ => ?_
  exact ⟨fun ⟨_, hn⟩ => (Run.ret.inj hn).symm, fun he => ⟨0, he ▸ rfl⟩⟩

/-! ## From `sendto` on -/

theorem length_received (sys : System) (datagram : List Byte) :
    (sys.received datagram).length = 8192 := by
  have hfit : 0 + (datagram.take 1024).length ≤ ((List.range 8192).map sys.response).length := by
    rw [List.length_map, List.length_range, List.length_take]
    omega
  rw [System.received, length_put hfit, List.length_map, List.length_range]

theorem le_length_received (sys : System) (datagram : List Byte) :
    12 ≤ (sys.received datagram).length := by
  rw [length_received]
  decide

/-- A call of the parser that comes to its end had all that it stores to. -/
theorem parseInto_eq_ret_iff {n : Nat} (hle : 12 ≤ resp.length) :
    parseInto n dnsAnswer sys resp = .ret parsed ↔
      sys.dnsHeader = true ∧ (dnsAnswer = true ∨ (headerOf resp).rcode ≠ 0) ∧
        dnsResponseParse n (some resp) sys.old = .ret parsed := by
  unfold parseInto
  cases sys.dnsHeader with
  | false => simp
  | true =>
    cases dnsAnswer with
    | true => simp
    | false =>
      rw [if_neg Bool.false_ne_true.symm, if_neg Bool.false_ne_true, parseHeader_eq hle, Run.ret_bind]
      by_cases hrcode : (headerOf resp).rcode = 0
      · rw [if_neg (not_not.mpr hrcode)]
        refine iff_of_false (fun hn => ?_) fun hn => by simp [hrcode] at hn
        obtain ⟨_, -, hn⟩ := Run.bind_eq_ret.mp hn
        cases hn
      · rw [if_pos hrcode, and_iff_right rfl, and_iff_right (Or.inr hrcode)]

/-- What `dnsConnection` does from `sendto` on, by what the system gives to it. -/
inductive Transacts (dnsAnswer : Bool) (sys : System) (call : SockAddr × List Byte) : Exchange → Prop
  | unsent (hsend : sys.sendto = false) :
      Transacts dnsAnswer sys call { ret := -3, held := [.fd, .qName] }
  | silent (hsend : sys.sendto = true) (hrecv : sys.recvfrom = none) :
      Transacts dnsAnswer sys call { ret := -4, sent := some call, held := [.fd, .qName] }
  | refused {datagram : List Byte} (hsend : sys.sendto = true) (hrecv : sys.recvfrom = some datagram)
      (hheader : sys.dnsHeader = true) (hrcode : (headerOf (sys.received datagram)).rcode ≠ 0) :
      Transacts dnsAnswer sys call { ret := -5, sent := some call, held := [.fd, .qName, .header] }
  | answered {datagram : List Byte} {parsed : Parsed} (hsend : sys.sendto = true)
      (hrecv : sys.recvfrom = some datagram) (hheader : sys.dnsHeader = true)
      (hanswer : dnsAnswer = true)
      (hparsed : Returns (fun n => dnsResponseParse n (some (sys.received datagram)) sys.old) parsed)
      (hret : parsed.ret = 0) :
      Transacts dnsAnswer sys call
        { ret := (datagram.take 1024).length, sent := some call, answer := parsed.answer, held := [.fd] }

theorem returns_transact_iff :
    Returns (fun n => transact n dnsAnswer sys call) e ↔ Transacts dnsAnswer sys call e := by
  constructor
  · rintro ⟨n, hn⟩
    unfold transact at hn
    cases hsend : sys.sendto with
    | false =>
      simp only [if_pos hsend] at hn
      cases hn
      exact .unsent hsend
    | true =>
      simp only [hsend, Bool.true_eq_false, if_false] at hn
      cases hrecv : sys.recvfrom with
      | none =>
        rw [hrecv] at hn
        cases hn
        exact .silent hsend hrecv
      | some datagram =>
        rw [hrecv] at hn
        have hle := le_length_received sys datagram
        obtain ⟨parsed, hparsed, hn⟩ := Run.bind_eq_ret.mp hn
        obtain ⟨hheader, hanswer, hparsed⟩ := (parseInto_eq_ret_iff hle).mp hparsed
        by_cases hret : parsed.ret = 0
        · have hrcode : ¬ (headerOf (sys.received datagram)).rcode ≠ 0 := fun hrcode => by
            obtain ⟨parsed', hparsed', hne⟩ := dnsResponseParse_of_rcode sys.old hle hrcode n
            cases hparsed.symm.trans hparsed'
            exact hne hret
          rw [if_neg (not_not.mpr hret)] at hn
          cases hn
          exact .answered hsend hrecv hheader (hanswer.resolve_right hrcode) ⟨n, hparsed⟩ hret
        · rw [if_pos hret] at hn
          cases hn
          exact .refused hsend hrecv hheader fun hrcode => hret (ret_eq_zero hle hrcode hparsed)
  · intro ht
    cases ht with
    | unsent hsend => exact ⟨0, if_pos hsend⟩
    | silent hsend hrecv => exact ⟨0, by simp only [transact, hsend, hrecv]; rfl⟩
    | @refused datagram hsend hrecv hheader hrcode =>
      have hle := le_length_received sys datagram
      obtain ⟨parsed, hparsed, hret⟩ := dnsResponseParse_of_rcode sys.old hle hrcode 0
      have hinto : parseInto 0 dnsAnswer sys (sys.received datagram) = .ret parsed :=
        (parseInto_eq_ret_iff hle).mpr ⟨hheader, .inr hrcode, hparsed⟩
      refine ⟨0, ?_⟩
      simp only [transact, hsend, hrecv, Bool.true_eq_false, if_false, hinto, Run.ret_bind,
        if_pos hret]
    | @answered datagram parsed hsend hrecv hheader hanswer hparsed hret =>
      obtain ⟨n, hn⟩ := hparsed
      have hinto : parseInto n dnsAnswer sys (sys.received datagram) = .ret parsed :=
        (parseInto_eq_ret_iff (le_length_received sys datagram)).mpr ⟨hheader, .inl hanswer, hn⟩
      refine ⟨n, ?_⟩
      simp only [transact, hsend, hrecv, Bool.true_eq_false, if_false, hinto, Run.ret_bind,
        if_neg (not_not.mpr hret)]

/-! ## What is sent -/

/-- The query for the labels, as a message. -/
def query (random : Nat) (l : HostLabel) (ls : List HostLabel) : Message where
  transactionId := .ofNat 16 random
  flags := 0x0100
  rcode := by decide
  questions := [⟨(l :: ls).map HostLabel.toLabel, 1, 1⟩]
  questions_lt := Nat.one_lt_two_pow (by decide)
  answers := []
  answers_lt := by decide
  authority := 0
  additional := 0

theorem encode_query (random : Nat) (l : HostLabel) (ls : List HostLabel) :
    (query random l ls).encode = queryOctets random (encodeLabels (l :: ls) ++ [0]) := by
  rw [Message.encode, queryOctets]
  simp only [query, Message.header, queryHeader, List.flatMap_cons, List.flatMap_nil,
    List.append_nil, Question.encode, encodeLabels]
  rfl

theorem createdBody_hostname (l : HostLabel) (ls : List HostLabel)
    (hint : (hostname (l :: ls)).length + 2 < 2 ^ 31) (old : Nat → Byte) :
    createdBody (hostname (l :: ls)) old = bodyOf l ls := by
  have h := fueled_dnsCreateBody.returns_unique (returns_dnsCreateBody {} (hostname (l :: ls)) old)
    (dnsCreateBody_hostname {} l ls hint old)
  exact Option.some.inj (Prod.mk.inj h).2

/-- `dnsConnection` sends the datagram: it comes to `sendto`, which succeeds. -/
def Sends (hostname : List Byte) (sys : System) (datagram : SockAddr × List Byte) : Prop :=
  sys.sendto = true ∧ Returns (fun n => dnsRequest n (some hostname) sys) (.inr datagram)

theorem sent_of_transact (ht : Returns (fun n => transact n dnsAnswer sys call) e) :
    e.sent = if sys.sendto then some call else none := by
  cases returns_transact_iff.mp ht with
  | unsent hsend => rw [hsend]; rfl
  | silent hsend => rw [hsend]; rfl
  | refused hsend => rw [hsend]; rfl
  | answered hsend => rw [hsend]; rfl

/-- What a call that comes to its end has sent. -/
theorem sent_iff (he : Returns (fun n => dnsConnection n (some h) dnsAnswer sys) e) :
    e.sent = some call ↔ Sends h sys call := by
  obtain ⟨ret, hret, rfl⟩ | ⟨call', hcall, ht⟩ := returns_dnsConnection_iff.mp he
  · refine iff_of_false nofun fun ⟨_, hsent⟩ => ?_
    cases fueled_dnsRequest.returns_unique hret hsent
  rw [sent_of_transact ht]
  constructor
  · intro hsent
    split at hsent
    · cases hsent
      exact ⟨‹_›, hcall⟩
    · cases hsent
  · rintro ⟨hsend, hsent⟩
    cases fueled_dnsRequest.returns_unique hcall hsent
    rw [if_pos hsend]

/-- A message without answers is parsed to its header. -/
theorem dnsResponseParse_of_nil {m : Message} (hm : m.answers = []) (rest : List Byte)
    (old : Nat → Nat → Byte) : Returns (fun n => dnsResponseParse n (some (m.encode ++ rest)) old)
      { ret := 0, answer := some { header := m.header, body := [] } } := by
  apply returns_dnsResponseParse_iff.mpr
  refine ⟨{ ptr := m.answerOffset 0, body := [] }, ⟨0, ?_⟩, rfl⟩
  rw [hm]
  rfl

theorem read_bodyOf (l : HostLabel) (ls : List HostLabel) :
    (bodyOf l ls).read = .ret (encodeLabels (l :: ls) ++ [0]) := by
  have hlen : (bodyOf l ls).length = (encodeLabels (l :: ls) ++ [0]).length := by
    rw [length_qName l ls]
    rfl
  exact DnsBody.read_eq rfl hlen

/-- The datagram of a hostname of valid labels, and when it is sent. -/
theorem sends_iff (l : HostLabel) (ls : List HostLabel) (hlen : (hostname (l :: ls)).length ≤ 1006) :
    Sends (hostname (l :: ls)) sys call ↔ sys.sendto = true ∧ 0 ≤ sys.socket ∧ sys.qName.isSome ∧
      sys.hostnameTemp = true ∧ call = (sockaddr, (query sys.random l ls).encode) := by
  have hname := length_qName l ls
  have hfit : 12 + (encodeLabels (l :: ls) ++ [0]).length + 4 ≤ 1024 := by omega
  have hbody : ∀ old, (createdBody (hostname (l :: ls)) old).read =
      .ret (encodeLabels (l :: ls) ++ [0]) := fun old => by
    rw [createdBody_hostname l ls (by omega), read_bodyOf]
  refine and_congr_right fun _ => returns_dnsRequest_iff.trans ?_
  rw [or_iff_right (by rintro ⟨-, h⟩; cases h), encode_query]
  refine and_congr_right fun _ => ?_
  constructor
  · rintro ⟨htemp, old, qName, hq, hread, -, hcall⟩
    cases (hbody old).symm.trans hread
    exact ⟨by rw [hq]; rfl, htemp, Sum.inr.inj hcall⟩
  · rintro ⟨hq, htemp, rfl⟩
    obtain ⟨old, hq⟩ := Option.isSome_iff_exists.mp hq
    exact ⟨htemp, old, _, hq, hbody old, hfit, rfl⟩

/-- **Queries.** For a hostname of valid labels, with at most 1006 characters, `dnsConnection` sends a
datagram exactly if it gets its socket and its blocks, and `sendto` succeeds; whatever comes after. It
goes to port 53 of the server and is a well-formed message, and the parser of responses reads the same
header from it and the hostname behind that. -/
theorem sent_eq_query (l : HostLabel) (ls : List HostLabel)
    (hlen : (hostname (l :: ls)).length ≤ 1006) (sys : System) :
    let octets := (query sys.random l ls).encode
    (∀ datagram, Sends (hostname (l :: ls)) sys datagram ↔ sys.sendto = true ∧ 0 ≤ sys.socket ∧
      sys.qName.isSome ∧ sys.hostnameTemp = true ∧ datagram = (sockaddr, octets)) ∧
    bytes16 sockaddr.sin_port = [0, 53] ∧ bytes32 sockaddr.sin_addr = [114, 114, 114, 114] ∧
    octets.length = 12 + (hostname (l :: ls)).length + 6 ∧
    ∀ (rest : List Byte) (out : Out) (old : Nat → Nat → Byte),
      Returns (fun n => dnsResponseParse n (some (octets ++ rest)) old)
        { ret := 0, answer := some { header := queryHeader sys.random, body := [] } } ∧
      Returns (fun n => dnsParseName n (octets ++ rest) 12 out 0)
        (out.write 0 (hostname (l :: ls)), (hostname (l :: ls)).length) := by
  intro octets
  have hname := length_qName l ls
  have hencode : octets = queryOctets sys.random (encodeLabels (l :: ls) ++ [0]) :=
    encode_query sys.random l ls
  refine ⟨fun _ => sends_iff l ls hlen, by decide, by decide, ?_, fun rest out old => ⟨?_, ?_⟩⟩
  · rw [hencode]
    simp only [queryOctets, List.length_append, hname]
    simp only [DnsHeader.encode, List.length_append, length_encode16]
    omega
  · exact dnsResponseParse_of_nil rfl rest old
  · have hat : At (octets ++ rest) 12 (encodeLabels (l :: ls) ++ [0]) := by
      rw [hencode]
      exact ⟨(queryHeader sys.random).encode, encode16 1 ++ encode16 1 ++ rest, by
        simp only [queryOctets, List.append_assoc], rfl⟩
    have h := (dnsParseName_returns_iff (Nat.zero_le out.top)).mpr ⟨_, spells_of_at hat, rfl⟩
    rwa [Nat.zero_add] at h

/-- A system whose `sendto` succeeds, and which gives no response. -/
def silent : System where
  dnsAnswer := true
  socket := 3
  random := 258
  request := fun _ => 7
  qName := some fun _ => 7
  hostnameTemp := true
  sendto := true
  response := fun _ => 7
  recvfrom := none
  dnsHeader := true
  old := fun _ _ => 7

/-- The hostname `a.bc`. -/
theorem sent_eq_query_sample :
    let l : HostLabel := ⟨⟨[97], by decide, by decide⟩, by decide, by decide⟩
    let m : HostLabel := ⟨⟨[98, 99], by decide, by decide⟩, by decide, by decide⟩
    ∃ octets, Sends (hostname [l, m]) silent (sockaddr, octets) ∧ octets.length = 22 ∧
      Returns (fun n => dnsResponseParse n (some (octets ++ [])) fun _ _ => 0)
        { ret := 0, answer := some { header := queryHeader 258, body := [] } } := by
  intro l m
  obtain ⟨hsends, -, -, hlen, hparse⟩ := sent_eq_query l [m] (by decide) silent
  have hsent := (hsends _).mpr ⟨rfl, by decide, rfl, rfl, rfl⟩
  exact ⟨_, hsent, hlen, (hparse [] ⟨fun _ => 0, 0⟩ fun _ _ => 0).1⟩

theorem bytes32_append (a b c d : Byte) : bytes32 (d ++ c ++ b ++ a) = [a, b, c, d] := by
  have ha : (d ++ c ++ b ++ a).extractLsb' 0 8 = a := BitVec.extractLsb'_append_eq_right
  have hb : (d ++ c ++ b ++ a).extractLsb' 8 8 = b :=
    (BitVec.extractLsb'_append_eq_of_le (by decide)).trans BitVec.extractLsb'_append_eq_right
  have hc : (d ++ c ++ b ++ a).extractLsb' 16 8 = c := by
    rw [BitVec.extractLsb'_append_eq_of_le (by decide), BitVec.extractLsb'_append_eq_of_le (by decide)]
    exact BitVec.extractLsb'_append_eq_right
  have hd : (d ++ c ++ b ++ a).extractLsb' 24 8 = d := by
    rw [BitVec.extractLsb'_append_eq_of_le (by decide), BitVec.extractLsb'_append_eq_of_le (by decide)]
    exact BitVec.extractLsb'_append_eq_left
  unfold bytes32
  rw [ha, hb, hc, hd]

/-- `inet_addr` gives the address in network order, and `htonl` reverses it. So the datagrams go to
the server only because its address reads the same backwards. -/
theorem htonl_address_iff (a b c d : Byte) :
    bytes32 (htonl (inetAddr a b c d)) = [a, b, c, d] ↔ a = d ∧ b = c := by
  have hparts := bytes32_append a b c d
  have hreverse : htonl (inetAddr a b c d) = a ++ b ++ c ++ d := by
    unfold bytes32 at hparts
    obtain ⟨ha, hb, hc, hd⟩ : _ ∧ _ ∧ _ ∧ _ := by
      simpa only [List.cons.injEq, and_true] using hparts
    unfold htonl inetAddr
    rw [ha, hb, hc, hd]
  rw [hreverse, bytes32_append]
  simp only [List.cons.injEq, and_true]
  constructor
  · rintro ⟨hda, hcb, -, -⟩
    exact ⟨hda.symm, hcb.symm⟩
  · rintro ⟨rfl, rfl⟩
    exact ⟨rfl, rfl, rfl, rfl⟩

/-! ## The end of `main` -/

/-- The response announces no answer, and its questions end in the array. -/
structure Answerless (resp : List Byte) : Prop where
  rcode : (headerOf resp).rcode = 0
  questions : ∃ p, Times (QuestionEnd resp) (headerOf resp).questions.toNat 12 p
  answer : (headerOf resp).answer = 0

/-- The parser comes to an answer without records. -/
theorem parses_nil_iff {resp : List Byte} {old : Nat → Nat → Byte} (hle : 12 ≤ resp.length) :
    (∃ parsed answer, Returns (fun n => dnsResponseParse n (some resp) old) parsed ∧
      parsed.ret = 0 ∧ parsed.answer = some answer ∧ answer.body = []) ↔ Answerless resp := by
  constructor
  · rintro ⟨parsed, answer, ⟨n, hn⟩, hret, hanswer, hbody⟩
    simp only at hn
    have hrcode : (headerOf resp).rcode = 0 := by
      by_contra hrcode
      obtain ⟨parsed', hparsed, hne⟩ := dnsResponseParse_of_rcode old hle hrcode n
      rw [hparsed] at hn
      cases hn
      exact hne hret
    obtain ⟨answer', hanswer', hlen⟩ := exists_answer hn hret
    cases hanswer.symm.trans hanswer'
    rw [hbody, List.length_nil] at hlen
    refine ⟨hrcode, ?_, BitVec.eq_of_toNat_eq hlen.symm⟩
    have hn0 : ¬ (headerOf resp).rcode ≠ 0 := not_not.mpr hrcode
    simp only [dnsResponseParse, parseHeader_eq hle, Run.ret_bind, if_neg hn0] at hn
    obtain ⟨p, hp, -⟩ := Run.bind_eq_ret.mp hn
    exact ⟨p, returns_skipQuestions.mp ⟨n, hp⟩⟩
  · rintro ⟨hrcode, ⟨p, hp⟩, hanswer⟩
    obtain ⟨n, hn⟩ := returns_skipQuestions.mpr hp
    refine ⟨{ ret := 0, answer := some { header := headerOf resp, body := [] } }, _, ⟨n, ?_⟩,
      rfl, rfl, rfl⟩
    have hn0 : ¬ (headerOf resp).rcode ≠ 0 := not_not.mpr hrcode
    simp only at hn
    simp only [dnsResponseParse, parseHeader_eq hle, Run.ret_bind, if_neg hn0, hn, hanswer]
    rfl

/-- The block of `main` can be freed. -/
def Freeable (cleared : Bool) : Option DnsAnswer → Prop
  | some answer => answer.body = []
  | none => cleared = true

theorem returns_freeDnsAnswer_iff (answer : Option DnsAnswer) :
    (∃ freed, Returns (fun n => freeDnsAnswer n (memOf (freshPtr cleared) answer)) freed) ↔
      Freeable cleared answer := by
  cases answer with
  | some answer =>
    constructor
    · rintro ⟨freed, n, hn⟩
      by_contra hne
      obtain ⟨item, body, hbody⟩ := List.exists_cons_of_ne_nil hne
      obtain ⟨_, hloop, -⟩ := Run.bind_eq_ret.mp hn
      rw [memOf, hbody] at hloop
      exact freeLoop_ne_ret (by rw [insertAll]; simp) hloop
    · intro hnil
      obtain ⟨freed, hfreed, -⟩ := balanced_of_nil hnil
      exact ⟨freed, hfreed⟩
  | none =>
    cases cleared with
    | false =>
      refine iff_of_false ?_ Bool.false_ne_true
      rintro ⟨freed, n, hn⟩
      obtain ⟨_, hloop, -⟩ := Run.bind_eq_ret.mp hn
      exact freeLoop_ne_ret (by simp [memOf, freshPtr]) hloop
    | true => exact iff_of_true ⟨_, 1, rfl⟩ rfl

/-- No response comes, or one with a response code. -/
def Refused (sys : System) : Prop :=
  sys.sendto = false ∨ sys.recvfrom = none ∨ sys.dnsHeader = true ∧
    ∃ datagram, sys.recvfrom = some datagram ∧ (headerOf (sys.received datagram)).rcode ≠ 0

/-- A response comes, and announces no answer. -/
def Unanswered (sys : System) : Prop :=
  sys.sendto = true ∧ ∃ datagram, sys.recvfrom = some datagram ∧
    Answerless (sys.received datagram)

/-- `malloc` and `strdup` give all the blocks that `main` needs before an answer. -/
structure System.Allocates (sys : System) : Prop where
  dnsAnswer : sys.dnsAnswer = true
  qName : sys.qName.isSome
  hostnameTemp : sys.hostnameTemp = true
  dnsHeader : sys.dnsHeader = true

/-- From `sendto` on. -/
theorem freeable_transact_iff :
    (∃ e, Returns (fun n => transact n true sys call) e ∧ Freeable cleared e.answer) ↔
      sys.dnsHeader = true ∧ Unanswered sys ∨ cleared = true ∧ Refused sys := by
  constructor
  · rintro ⟨e, ht, hfree⟩
    cases returns_transact_iff.mp ht with
    | unsent hsend => exact .inr ⟨hfree, .inl hsend⟩
    | silent hsend hrecv => exact .inr ⟨hfree, .inr (.inl hrecv)⟩
    | refused hsend hrecv hheader hrcode =>
      exact .inr ⟨hfree, .inr (.inr ⟨hheader, _, hrecv, hrcode⟩)⟩
    | @answered datagram parsed hsend hrecv hheader _ hparsed hret =>
      obtain ⟨n, hn⟩ := hparsed
      obtain ⟨answer, hanswer, -⟩ := exists_answer hn hret
      rw [hanswer] at hfree
      have hless := (parses_nil_iff (le_length_received sys datagram)).mp
        ⟨parsed, answer, ⟨n, hn⟩, hret, hanswer, hfree⟩
      exact .inl ⟨hheader, hsend, datagram, hrecv, hless⟩
  · rintro (⟨hheader, hsend, datagram, hrecv, hless⟩ | ⟨hcleared, hrefused⟩)
    · have hparses : ∃ parsed answer,
          Returns (fun n => dnsResponseParse n (some (sys.received datagram)) sys.old) parsed ∧
            parsed.ret = 0 ∧ parsed.answer = some answer ∧ answer.body = [] :=
        (parses_nil_iff (le_length_received sys datagram)).mpr hless
      obtain ⟨parsed, answer, hparsed, hret, hanswer, hbody⟩ := hparses
      refine ⟨_, returns_transact_iff.mpr (.answered hsend hrecv hheader rfl hparsed hret), ?_⟩
      rw [hanswer]
      exact hbody
    · cases hsend : sys.sendto with
      | false => exact ⟨_, returns_transact_iff.mpr (.unsent hsend), hcleared⟩
      | true =>
        obtain hfalse | hrecv | ⟨hheader, datagram, hrecv, hrcode⟩ := hrefused
        · cases hsend.symm.trans hfalse
        · exact ⟨_, returns_transact_iff.mpr (.silent hsend hrecv), hcleared⟩
        · exact ⟨_, returns_transact_iff.mpr (.refused hsend hrecv hheader hrcode), hcleared⟩

theorem exists_main_iff : (∃ freed, Returns (fun n => main n sys cleared) freed) ↔
    sys.dnsAnswer = true ∧
      ∃ e, Returns (fun n => dnsConnection n (some host) true sys) e ∧ Freeable cleared e.answer := by
  unfold main
  cases sys.dnsAnswer with
  | false =>
    refine iff_of_false ?_ fun h => Bool.false_ne_true h.1
    rintro ⟨freed, n, hn⟩
    obtain ⟨e, -, hn⟩ := Run.bind_eq_ret.mp hn
    cases hn
  | true =>
    simp only [if_true, returns_bind fueled_dnsConnection fun _ => fueled_freeDnsAnswer, true_and]
    rw [exists_comm]
    apply exists_congr
    intro e
    rw [exists_and_left, returns_freeDnsAnswer_iff]

/-- The name of `main` fits into the request. -/
theorem returns_dnsRequest_host_iff : Returns (fun n => dnsRequest n (some host) sys) (.inr call) ↔
    0 ≤ sys.socket ∧ sys.hostnameTemp = true ∧ ∃ old qName, sys.qName = some old ∧
      (createdBody host old).read = .ret qName ∧ call = (sockaddr, queryOctets sys.random qName) := by
  rw [returns_dnsRequest_iff, or_iff_right (by rintro ⟨-, h⟩; cases h)]
  refine and_congr_right fun _ => and_congr_right fun _ => ?_
  refine exists_congr fun old => exists_congr fun qName => and_congr_right fun _ =>
    and_congr_right fun hread => ?_
  have hfit : 12 + qName.length + 4 ≤ 1024 := by
    have h := createdBody_read host old
    rw [if_pos (by decide)] at h
    obtain ⟨qName', hread', -, hlen⟩ := h
    cases hread.symm.trans hread'
    rw [hlen]
    decide
  rw [and_iff_right hfit, Sum.inr.injEq]

/-- `main` comes to its end exactly if a response announces no answer, or, in cleared memory, if there
is no socket or no response that is read. -/
theorem main_returns_iff : (∃ freed, Returns (fun n => main n sys cleared) freed) ↔
    sys.dnsAnswer = true ∧ (sys.socket < 0 ∧ cleared = true ∨
      0 ≤ sys.socket ∧ sys.qName.isSome ∧ sys.hostnameTemp = true ∧
        (sys.dnsHeader = true ∧ Unanswered sys ∨ cleared = true ∧ Refused sys)) := by
  rw [exists_main_iff]
  refine and_congr_right fun _ => ?_
  constructor
  · rintro ⟨e, he, hfree⟩
    obtain ⟨ret, hret, rfl⟩ | ⟨call, hcall, ht⟩ := returns_dnsConnection_iff.mp he
    · obtain ⟨hneg, -⟩ | ⟨-, -, _, _, -, -, -, hcall⟩ := returns_dnsRequest_iff.mp hret
      · exact .inl ⟨hneg, hfree⟩
      · cases hcall
    · obtain ⟨hpos, htemp, old, qName, hq, -, -⟩ := returns_dnsRequest_host_iff.mp hcall
      exact .inr ⟨hpos, by rw [hq]; rfl, htemp, freeable_transact_iff.mp ⟨e, ht, hfree⟩⟩
  · rintro (⟨hneg, hcleared⟩ | ⟨hpos, hq, htemp, h⟩)
    · have hret : Returns (fun n => dnsRequest n (some host) sys) (.inl (-2)) :=
        returns_dnsRequest_iff.mpr (.inl ⟨hneg, rfl⟩)
      exact ⟨_, returns_dnsConnection_iff.mpr (.inl ⟨_, hret, rfl⟩), hcleared⟩
    · obtain ⟨old, hq⟩ := Option.isSome_iff_exists.mp hq
      have hread := createdBody_read host old
      rw [if_pos (by decide)] at hread
      obtain ⟨qName, hread, -, -⟩ := hread
      have hcall := returns_dnsRequest_host_iff.mpr ⟨hpos, htemp, old, qName, hq, hread, rfl⟩
      obtain ⟨e, ht, hfree⟩ := freeable_transact_iff.mpr h
      exact ⟨e, returns_dnsConnection_iff.mpr (.inr ⟨_, hcall, ht⟩), hfree⟩

/-- **The end.** Whatever `malloc` leaves in the block of the answer, `main` comes to its end in
defined behaviour if and only if it gets its socket and its blocks, and a response comes that announces
no answer, and whose questions end in the array. So it does not after a failure, and not after an
answer. -/
theorem main_ends_iff (sys : System) :
    (∀ cleared, ∃ freed, Returns (fun n => main n sys cleared) freed) ↔
      0 ≤ sys.socket ∧ sys.Allocates ∧ Unanswered sys := by
  simp only [main_returns_iff]
  constructor
  · intro h
    obtain ⟨hanswer, ⟨-, hcleared⟩ | ⟨hpos, hq, htemp, ⟨hheader, hunanswered⟩ | ⟨hcleared, -⟩⟩⟩ :=
      h false
    · cases hcleared
    · exact ⟨hpos, ⟨hanswer, hq, htemp, hheader⟩, hunanswered⟩
    · cases hcleared
  · rintro ⟨hpos, ⟨hanswer, hq, htemp, hheader⟩, hunanswered⟩ cleared
    exact ⟨hanswer, .inr ⟨hpos, hq, htemp, .inl ⟨hheader, hunanswered⟩⟩⟩

/-! ## What is not given back -/

/-- What a call holds at its end, by what it returns. -/
structure Accounted (e : Exchange) : Prop where
  fd : .fd ∈ e.held ↔ e.ret ≠ -2
  qName : .qName ∈ e.held ↔ e.ret < -2
  header : .header ∈ e.held ↔ e.ret = -5
  answer : e.answer.isSome ↔ 0 ≤ e.ret

theorem accounted_transact (ht : Returns (fun n => transact n dnsAnswer sys call) e) :
    Accounted e := by
  cases returns_transact_iff.mp ht with
  | unsent => constructor <;> simp
  | silent => constructor <;> simp
  | refused => constructor <;> simp
  | @answered datagram parsed _ _ _ _ hparsed hret =>
    obtain ⟨n, hn⟩ := hparsed
    obtain ⟨answer, hanswer, -⟩ := exists_answer hn hret
    have hpos : (0 : Int) ≤ (datagram.take 1024).length := Int.natCast_nonneg _
    generalize ((datagram.take 1024).length : Int) = ret at hpos
    constructor <;> simp [hanswer] <;> omega

/-- **Descriptors and blocks.** For every hostname and every pattern of failures, a call that has
opened its socket never closes it, and gives the block of the name back only if it succeeds; the block
of the header is lost with a response code. An answer is there exactly if the call succeeds. -/
theorem dnsConnection_accounted (sys : System) (dnsAnswer : Bool) (h : List Byte) (e : Exchange)
    (he : Returns (fun n => dnsConnection n (some h) dnsAnswer sys) e) : Accounted e := by
  obtain ⟨ret, hret, rfl⟩ | ⟨call, -, ht⟩ := returns_dnsConnection_iff.mp he
  · obtain ⟨-, hret⟩ | ⟨-, -, _, _, -, -, -, hcall⟩ := returns_dnsRequest_iff.mp hret
    · cases hret
      constructor <;> simp
    · cases hcall
  · exact accounted_transact ht

end Dns
end LinuxBase
