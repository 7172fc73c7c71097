import LinuxBase.Dns.Name

/-!
# Parsing a DNS response (`dns.c`)

`dnsResponseParse`: the header, the questions, which are skipped, and the answers. As in
`LinuxBase.Dns.Name`, a read past the end of the response is a `fault`, a block that is written to is
an `Out`, and `ptr` is an offset. `malloc` does not fail.

* `old k` is what a block held when `malloc` gave it: block `2 * i` is for the name of answer `i`,
  block `2 * i + 1` for its data.
* `answerLoop` is the loop over the answers, as the state before the iteration `i`, and `answerPtr`
  is `ptr` there. `dnsResponseParse` returns 0 exactly if it comes to the end of this loop
  (`dnsResponseParse_ret_iff`).
* `NextAnswer` is what one iteration does to `ptr` (`returns_answerStep`). `answerStep_iff` says from
  which octets it moves `ptr` by a given width.
-/

namespace LinuxBase
namespace Dns

/-- `ntohs(*(unsigned short *)ptr)`. -/
def read16 (resp : List Byte) (ptr : Nat) : Run (BitVec 16) := do
  let hi ← readByte resp ptr
  let lo ← readByte resp (ptr + 1)
  .ret (hi ++ lo)

structure DnsHeader where
  transactionId : BitVec 16
  flags : BitVec 16
  questions : BitVec 16
  answer : BitVec 16
  authority : BitVec 16
  additional : BitVec 16
  deriving DecidableEq

def parseHeader (resp : List Byte) : Run DnsHeader := do
  let transactionId ← read16 resp 0
  let flags ← read16 resp 2
  let questions ← read16 resp 4
  let answer ← read16 resp 6
  let authority ← read16 resp 8
  let additional ← read16 resp 10
  .ret { transactionId, flags, questions, answer, authority, additional }

def DnsHeader.rcode (h : DnsHeader) : BitVec 16 := (h.flags >>> 4 <<< 4) ^^^ h.flags

/-- The `while (1)` that skips the name of a question. -/
def skipName (resp : List Byte) : Nat → Nat → Run Nat
  | 0, _ => .more
  | fuel + 1, ptr => do
    let flag ← readByte resp ptr
    let ptr := ptr + (flag.toNat + 1)
    if flag.toNat = 0 then .ret ptr else skipName resp fuel ptr

/-- The loop over the questions, as `ptr` before the iteration `i`. -/
def skipQuestions (fuel : Nat) (resp : List Byte) (ptr : Nat) : Nat → Run Nat
  | 0 => .ret ptr
  | i + 1 => do
    let ptr ← skipQuestions fuel resp ptr i
    let ptr ← skipName resp fuel ptr
    .ret (ptr + 4)

/-- `inet_ntop(AF_INET, ..)`: the numbers with dots between them, and the NUL. -/
def inetNtop (bs : List Byte) : List Byte :=
  List.intercalate [46#8] (bs.map fun b => (Nat.toDigits 10 b.toNat).map fun c => .ofNat 8 c.toNat)
    ++ [0#8]

/-- What `data` points to; nothing sets it for other records. -/
inductive AnswerData where
  | unset
  | cname (out : Out)
  | host (out : Out)

structure DnsAnswerBody where
  name : Out
  qType : BitVec 16
  qClass : BitVec 16
  ttl : BitVec 16
  dataLen : BitVec 16
  data : AnswerData

/-- The `switch` on the type of the record, with `ptr` at its data. -/
def parseData (fuel : Nat) (resp : List Byte) (old : Nat → Byte) (ptr : Nat)
    (qType dataLen : BitVec 16) : Run AnswerData :=
  if qType = 0x05 then do
    let (out, _) ← dnsParseName fuel resp ptr { data := old } 0
    .ret (.cname out)
  else if qType = 0x01 then
    if dataLen = 4 then do
      let bs ← readBytes resp ptr dataLen.toNat
      let out := Out.write { data := old } 0 bs
      .ret (.host (out.write 0 (inetNtop bs)))
    else .ret .unset
  else .ret .unset

/-- `ptr` and `dnsAnswer->body`, the last answer first. -/
structure AnswerState where
  ptr : Nat
  body : List DnsAnswerBody

/-- The body of the loop over the answers. -/
def answerStep (fuel : Nat) (resp : List Byte) (old : Nat → Nat → Byte) (i : Nat)
    (st : AnswerState) : Run AnswerState := do
  let (name, _) ← dnsParseName fuel resp st.ptr { data := old (2 * i) } 0
  let ptr := st.ptr + 2
  let qType ← read16 resp ptr
  let ptr := ptr + 2
  let qClass ← read16 resp ptr
  let ptr := ptr + 2
  let ttl ← read16 resp ptr
  let ptr := ptr + 4
  let dataLen ← read16 resp ptr
  let ptr := ptr + 2
  let data ← parseData fuel resp (old (2 * i + 1)) ptr qType dataLen
  .ret { ptr := ptr + dataLen.toNat, body := { name, qType, qClass, ttl, dataLen, data } :: st.body }

def answerLoop (fuel : Nat) (resp : List Byte) (old : Nat → Nat → Byte) (ptr : Nat) :
    Nat → Run AnswerState
  | 0 => .ret { ptr, body := [] }
  | i + 1 => do
    let st ← answerLoop fuel resp old ptr i
    answerStep fuel resp old i st

structure DnsAnswer where
  header : DnsHeader
  body : List DnsAnswerBody

/-- What a call of `dnsResponseParse` does: its value, the text it gives to `perror`, and what it
leaves in `*dnsAnswer` if it writes there. -/
structure Parsed where
  ret : Int
  perror : Option String := none
  answer : Option DnsAnswer := none

def dnsResponseParse (fuel : Nat) (response : Option (List Byte)) (old : Nat → Nat → Byte) :
    Run Parsed :=
  match response with
  | none => .ret { ret := -1 }
  | some resp => do
    let header ← parseHeader resp
    if header.rcode ≠ 0 then
      if header.rcode = 2 then .ret { ret := -2, perror := some "name error" }
      else if header.rcode = 3 then .ret { ret := -2, perror := some "server error" }
      else .ret { ret := -2 }
    else
      let ptr ← skipQuestions fuel resp 12 header.questions.toNat
      let st ← answerLoop fuel resp old ptr header.answer.toNat
      .ret { ret := 0, answer := some { header, body := st.body } }

/-- `ptr` before the iteration `i` of the loop over the answers of `dnsResponseParse`, or after the
last one; none if the call does not come there. -/
def answerPtr (fuel : Nat) (resp : List Byte) (old : Nat → Nat → Byte) (i : Nat) :
    Run (Option Nat) := do
  let header ← parseHeader resp
  if header.rcode ≠ 0 ∨ header.answer.toNat < i then .ret none
  else
    let ptr ← skipQuestions fuel resp 12 header.questions.toNat
    let st ← answerLoop fuel resp old ptr i
    .ret (some st.ptr)

variable {resp : List Byte} {old : Nat → Nat → Byte} {ptr i : Nat} {st st' : AnswerState}

/-- A call returns 0 exactly if it comes to the end of its loop over the answers. -/
theorem dnsResponseParse_ret_iff {fuel : Nat} {header : DnsHeader}
    (hheader : parseHeader resp = .ret header) :
    (∃ parsed, dnsResponseParse fuel (some resp) old = .ret parsed ∧ parsed.ret = 0) ↔
      ∃ p, answerPtr fuel resp old header.answer.toNat = .ret (some p) := by
  simp only [dnsResponseParse, answerPtr, hheader, Run.ret_bind, Nat.lt_irrefl, or_false]
  by_cases hrcode : header.rcode ≠ 0
  · rw [if_pos hrcode, if_pos hrcode]
    split
    · simp
    · split <;> simp
  · rw [if_neg hrcode, if_neg hrcode]
    cases skipQuestions fuel resp 12 header.questions.toNat with
    | ret ptr => cases h : answerLoop fuel resp old ptr header.answer.toNat <;> simp [h]
    | fault => simp
    | more => simp

/-! ## Fuel -/

theorem fueled_dnsParseName {out : Out} {len : Nat} :
    Fueled fun n => dnsParseName n resp ptr out len := fueled_nameLoop

theorem fueled_skipName : Fueled fun n => skipName resp n ptr := by
  intro n hn
  induction n generalizing ptr with
  | zero => exact absurd rfl hn
  | succ n ih =>
    simp only at hn ⊢
    rw [skipName] at hn
    rw [skipName, skipName]
    refine Run.bind_stable hn fun flag hn => ?_
    exact Run.ite_stable hn (fun _ => rfl) fun hn => ih hn

theorem fueled_skipQuestions (k : Nat) : Fueled fun n => skipQuestions n resp ptr k := by
  induction k with
  | zero => exact fueled_const _
  | succ k ih => exact ih.bind fun _ => fueled_skipName.bind fun _ => fueled_const _

theorem fueled_parseData {old : Nat → Byte} {qType dataLen : BitVec 16} :
    Fueled fun n => parseData n resp old ptr qType dataLen := by
  by_cases h5 : qType = 0x05
  · simp only [parseData, if_pos h5]
    exact fueled_dnsParseName.bind fun _ => fueled_const _
  · simp only [parseData, if_neg h5]
    exact fueled_const _

theorem fueled_answerStep : Fueled fun n => answerStep n resp old i st :=
  fueled_dnsParseName.bind fun _ => (fueled_const _).bind fun _ => (fueled_const _).bind fun _ =>
    (fueled_const _).bind fun _ => (fueled_const _).bind fun _ => fueled_parseData.bind fun _ =>
      fueled_const _

theorem fueled_answerLoop (k : Nat) : Fueled fun n => answerLoop n resp old ptr k := by
  induction k with
  | zero => exact fueled_const _
  | succ k ih => exact ih.bind fun _ => fueled_answerStep

theorem fueled_answerPtr : Fueled fun n => answerPtr n resp old i := by
  refine (fueled_const _).bind fun header => ?_
  by_cases h : header.rcode ≠ 0 ∨ header.answer.toNat < i
  · simp only [if_pos h]
    exact fueled_const _
  · simp only [if_neg h]
    exact (fueled_skipQuestions _).bind fun _ => (fueled_answerLoop _).bind fun _ => fueled_const _

/-! ## One iteration -/

variable {p q : Nat}

theorem readByte_of_lt (h : p < resp.length) : readByte resp p = .ret resp[p] :=
  readByte_eq_ret.mpr (List.getElem?_eq_getElem h)

/-- The two octets at `p` as a number; it is used where they exist. -/
def word (resp : List Byte) (p : Nat) : BitVec 16 := resp[p]?.getD 0 ++ resp[p + 1]?.getD 0

theorem read16_eq_word (h : p + 2 ≤ resp.length) : read16 resp p = .ret (word resp p) := by
  have h0 : p < resp.length := by omega
  have h1 : p + 1 < resp.length := by omega
  rw [read16, readByte_of_lt h0, Run.ret_bind, readByte_of_lt h1, Run.ret_bind, word,
    List.getElem?_eq_getElem h0, List.getElem?_eq_getElem h1]
  rfl

theorem read16_eq_fault (h : ¬ p + 2 ≤ resp.length) : read16 resp p = .fault := by
  unfold read16 readByte
  cases h0 : resp[p]? with
  | none => rfl
  | some hi =>
    have hlt := (List.getElem?_eq_some_iff.mp h0).1
    rw [List.getElem?_eq_none (by omega)]
    rfl

theorem returns_read16_bind {β : Type} {g : Nat → BitVec 16 → Run β} {b : β} :
    Returns (fun n => read16 resp p >>= g n) b ↔
      p + 2 ≤ resp.length ∧ Returns (fun n => g n (word resp p)) b := by
  by_cases h : p + 2 ≤ resp.length
  · simp only [read16_eq_word h, Run.ret_bind, h, true_and]
  · simp only [read16_eq_fault h, Run.fault_bind, h, false_and, iff_false]
    rintro ⟨_, hn⟩
    cases hn

theorem le_of_read16 {x : BitVec 16} (h : read16 resp p = .ret x) :
    p + 2 ≤ resp.length := by
  obtain ⟨_, -, h⟩ := Run.bind_eq_ret.mp h
  obtain ⟨_, hlo, -⟩ := Run.bind_eq_ret.mp h
  have hlt := (List.getElem?_eq_some_iff.mp (readByte_eq_ret.mp hlo)).1
  omega

/-- The name at `p` ends within the response. -/
def NameEnds (resp : List Byte) (p : Nat) : Prop := ∃ text, Spells resp p text

/-- An iteration at `p` ends, and the next one is at `q`. -/
structure NextAnswer (resp : List Byte) (p q : Nat) : Prop where
  owner : NameEnds resp p
  inside : p + 12 ≤ resp.length
  target : word resp (p + 2) = 5 → NameEnds resp (p + 12)
  address : word resp (p + 2) = 1 → word resp (p + 10) = 4 → p + 16 ≤ resp.length
  next : q = p + 12 + (word resp (p + 10)).toNat

/-- An iteration from `ptr` on moves it by `width`: the name there ends, the number ten octets on is
that of the octets from twelve octets on, and the name there ends if the record is a `CNAME`. -/
structure Framed (resp : List Byte) (ptr width : Nat) : Prop where
  owner : NameEnds resp ptr
  width : ∃ dataLen, read16 resp (ptr + 10) = .ret dataLen ∧ 12 + dataLen.toNat = width
  target : read16 resp (ptr + 2) = .ret 5 → NameEnds resp (ptr + 12)

theorem returns_dnsParseName (data : Nat → Byte) :
    (∃ r, Returns (fun n => dnsParseName n resp p { data } 0) r) ↔ NameEnds resp p := by
  constructor
  · rintro ⟨_, _, hn⟩
    exact exists_spells hn (Nat.zero_le _)
  · rintro ⟨text, htext⟩
    exact ⟨_, nameLoop_of_spells htext (Nat.zero_le _)⟩

/-- A record that is no `CNAME` needs no fuel: it is read if its address, if it is one, is there. -/
theorem parseData_of_ne (resp : List Byte) (p : Nat) (data : Nat → Byte) {qType : BitVec 16}
    (dataLen : BitVec 16) (h5 : qType ≠ 5) :
    ∃ r, ∀ n, parseData n resp data p qType dataLen =
      if qType = 1 → dataLen = 4 → p + 4 ≤ resp.length then .ret r else .fault := by
  by_cases h1 : qType = 0x01
  · by_cases h4 : dataLen = 4
    · have hfour : (4 : BitVec 16).toNat = 4 := rfl
      by_cases hle : p + 4 ≤ resp.length
      · let bs := (resp.drop p).take 4
        refine ⟨.host ((Out.write { data } 0 bs).write 0 (inetNtop bs)), fun n => ?_⟩
        rw [if_pos fun _ _ => hle, parseData, if_neg h5, if_pos h1, if_pos h4, readBytes, h4, hfour,
          if_pos hle]
        rfl
      · refine ⟨.unset, fun n => ?_⟩
        rw [if_neg fun h => hle (h h1 h4), parseData, if_neg h5, if_pos h1, if_pos h4, readBytes, h4,
          hfour, if_neg hle]
        rfl
    · refine ⟨.unset, fun n => ?_⟩
      rw [if_pos fun _ h => absurd h h4, parseData, if_neg h5, if_pos h1, if_neg h4]
  · refine ⟨.unset, fun n => ?_⟩
    rw [if_pos fun h => absurd h h1, parseData, if_neg h5, if_neg h1]

theorem returns_parseData {data : Nat → Byte} {qType dataLen : BitVec 16} :
    (∃ r, Returns (fun n => parseData n resp data p qType dataLen) r) ↔
      (qType = 5 → NameEnds resp p) ∧ (qType = 1 → dataLen = 4 → p + 4 ≤ resp.length) := by
  by_cases h5 : qType = 0x05
  · simp only [parseData, if_pos h5, returns_map]
    rw [exists_comm]
    simp only [exists_and_left, exists_eq', and_true]
    rw [returns_dnsParseName]
    simp [h5]
  · obtain ⟨r, hr⟩ := parseData_of_ne resp p data dataLen h5
    simp only [hr]
    by_cases hc : qType = 1 → dataLen = 4 → p + 4 ≤ resp.length
    · exact iff_of_true ⟨r, 0, if_pos hc⟩ ⟨fun h => absurd h h5, hc⟩
    · refine iff_of_false ?_ fun h => hc h.2
      rintro ⟨_, _, hn⟩
      rw [if_neg hc] at hn
      cases hn

theorem returns_answerStep :
    (∃ st', Returns (fun n => answerStep n resp old i st) st' ∧ st'.ptr = q) ↔
      NextAnswer resp st.ptr q := by
  have hstep : ∀ st', Returns (fun n => answerStep n resp old i st) st' ↔ _ := fun st' => by
    unfold answerStep
    rw [returns_bind fueled_dnsParseName ?fueled]
    case fueled =>
      exact fun _ => (fueled_const _).bind fun _ => (fueled_const _).bind fun _ =>
        (fueled_const _).bind fun _ => (fueled_const _).bind fun _ =>
          fueled_parseData.bind fun _ => fueled_const _
  simp only [hstep, returns_read16_bind, returns_map, Nat.add_assoc, Nat.reduceAdd]
  constructor
  · rintro ⟨_, ⟨name, hname, -, -, -, hle, data, hdata, rfl⟩, rfl⟩
    obtain ⟨htarget, haddress⟩ := returns_parseData.mp ⟨data, hdata⟩
    exact ⟨(returns_dnsParseName _).mp ⟨name, hname⟩, hle, htarget, haddress,
      (Nat.add_assoc _ _ _).symm⟩
  · rintro ⟨howner, hle, htarget, haddress, hnext⟩
    obtain ⟨name, hname⟩ := (returns_dnsParseName _).mpr howner
    obtain ⟨data, hdata⟩ := returns_parseData.mpr ⟨htarget, haddress⟩
    exact ⟨_, ⟨name, hname, by omega, by omega, by omega, hle, data, hdata, rfl⟩,
      (hnext.trans (Nat.add_assoc _ _ _)).symm⟩

theorem answerStep_iff {width : Nat} (hw : st.ptr + width ≤ resp.length) :
    (∃ st', Returns (fun n => answerStep n resp old i st) st' ∧ st'.ptr = st.ptr + width) ↔
      Framed resp st.ptr width := by
  rw [returns_answerStep]
  constructor
  · rintro ⟨howner, hle, htarget, -, hnext⟩
    refine ⟨howner, ⟨_, read16_eq_word (by omega), by omega⟩, fun h5 => htarget ?_⟩
    rw [read16_eq_word (by omega)] at h5
    exact Run.ret.inj h5
  · rintro ⟨howner, ⟨dataLen, hdataLen, hwidth⟩, htarget⟩
    have hle := le_of_read16 hdataLen
    rw [read16_eq_word hle] at hdataLen
    obtain rfl := Run.ret.inj hdataLen
    refine ⟨howner, by omega, fun h5 => htarget ?_, fun _ h4 => ?_, by omega⟩
    · rw [read16_eq_word (by omega), h5]
    · have hfour : (4 : BitVec 16).toNat = 4 := rfl
      rw [h4, hfour] at hwidth
      omega

end Dns
end LinuxBase
