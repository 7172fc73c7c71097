import LinuxBase.Dns.Response

/-!
# Where the response parser reads (`dns.c`)

`dnsResponseParse` is not told how long the response is. This file says from the octets alone when
it stays inside (`ReadsInside`), and when a message holds what its counts announce (`Complete`):

* `NameInside`, `LengthsEnd`: what the walk through the name of an answer, and the one over the name
  of a question, finds inside the response.
* `NextAnswer` leads from an answer to the next one as the code does, which takes two octets for the
  name; `AnswerInside` says that an iteration reads only octets of the response.
* `NameSpan`, `QuestionSpan` and `AnswerSpan` are the same for the message as it is meant.

A message that is not complete is rejected only by its response code. So the parser reads no octet
behind the end and rejects the incomplete messages exactly if the message has a header and either a
response code, or it is complete and the reads stay inside (`bounded_iff`).
-/

namespace LinuxBase
namespace Dns

open Walk StateTransition Relation

variable {resp : List Byte} {old : Nat → Nat → Byte} {p q e i k : Nat} {st : AnswerState}

/-- A read of two octets, and what follows it. -/
theorem noFault_read16_bind {β : Type} {g : Nat → BitVec 16 → Run β} :
    NoFault (fun n => read16 resp p >>= g n) ↔
      p + 2 ≤ resp.length ∧ NoFault fun n => g n (word resp p) := by
  by_cases h : p + 2 ≤ resp.length
  · simp only [read16_eq_word h, Run.ret_bind, h, true_and]
  · simp only [read16_eq_fault h, Run.fault_bind, h, false_and, iff_false]
    exact fun hn => hn 0 rfl

/-! ## Names -/

/-- One hop of a name: along a pointer, or over a label. -/
inductive NameStep (resp : List Byte) : Nat → Nat → Prop
  | pointer {p : Nat} {flag n : Byte} : resp[p]? = some flag → isPointer flag.toNat = true →
      resp[p + 1]? = some n → NameStep resp p n.toNat
  | label {p : Nat} {flag : Byte} : resp[p]? = some flag → flag.toNat ≠ 0 →
      ¬ isPointer flag.toNat = true → NameStep resp p (p + 1 + flag.toNat)

/-- The place `p` of a name is inside, with the second octet of a pointer. -/
def PlaceInside (resp : List Byte) (p : Nat) : Prop :=
  ∃ flag, resp[p]? = some flag ∧ (isPointer flag.toNat = true → p + 1 < resp.length)

/-- Every place that the name at `p` leads to is inside. -/
def NameInside (resp : List Byte) (p : Nat) : Prop :=
  ∀ q, ReflTransGen (NameStep resp) p q → PlaceInside resp q

/-- `nameNext` makes the hops of the name. -/
theorem nameStep_of_nameNext (h : nameNext resp p = .ret (some q)) : NameStep resp p q := by
  obtain ⟨flag, hflag, h⟩ := Run.bind_eq_ret.mp h
  have hget := readByte_eq_ret.mp hflag
  by_cases h0 : flag.toNat = 0
  · rw [if_pos h0] at h
    cases h
  rw [if_neg h0] at h
  by_cases hp : isPointer flag.toNat = true
  · rw [if_pos hp] at h
    obtain ⟨n, hn, h⟩ := Run.bind_eq_ret.mp h
    cases h
    exact .pointer hget hp (readByte_eq_ret.mp hn)
  · rw [if_neg hp] at h
    obtain ⟨_, -, h⟩ := Run.bind_eq_ret.mp h
    obtain ⟨_, -, h⟩ := Run.bind_eq_ret.mp h
    cases h
    exact .label hget h0 hp

/-- A place from which the reads stay inside takes each of its hops. -/
theorem nameNext_of_nameStep (h : NameStep resp p q) (hne : nameNext resp p ≠ .fault) :
    nameNext resp p = .ret (some q) := by
  unfold nameNext at hne ⊢
  cases h with
  | @pointer flag n hflag hp hn =>
    have h0 : flag.toNat ≠ 0 := fun h0 => by rw [h0] at hp; cases hp
    rw [readByte_eq_ret.mpr hflag, Run.ret_bind, if_neg h0, if_pos hp, readByte_eq_ret.mpr hn]
    rfl
  | @label flag hflag h0 hp =>
    rw [readByte_eq_ret.mpr hflag, Run.ret_bind, if_neg h0, if_neg hp] at hne ⊢
    cases hnext : resp[p + 1 + flag.toNat]? with
    | none =>
      rw [readByte, hnext, Run.ofOption_none, Run.fault_bind] at hne
      refine absurd ?_ hne
      unfold readBytes
      split <;> rfl
    | some next =>
      rw [readBytes_of_lt hnext, Run.ret_bind, readByte_eq_ret.mpr hnext]
      rfl

/-- The reads at a place stay inside if the place and the next one do. -/
theorem nameNext_ne_fault (hp : PlaceInside resp p)
    (hq : ∀ q, NameStep resp p q → PlaceInside resp q) : nameNext resp p ≠ .fault := by
  obtain ⟨flag, hflag, hlt⟩ := hp
  unfold nameNext
  rw [readByte_eq_ret.mpr hflag, Run.ret_bind]
  by_cases h0 : flag.toNat = 0
  · rw [if_pos h0]
    nofun
  rw [if_neg h0]
  by_cases hp : isPointer flag.toNat = true
  · rw [if_pos hp, readByte_of_lt (hlt hp)]
    nofun
  · obtain ⟨next, hnext, -⟩ := hq _ (.label hflag h0 hp)
    rw [if_neg hp, readBytes_of_lt hnext, Run.ret_bind, readByte_eq_ret.mpr hnext]
    nofun

theorem placeInside_of_ne_fault (h : nameNext resp p ≠ .fault) : PlaceInside resp p := by
  unfold nameNext at h
  cases hflag : resp[p]? with
  | none => exact absurd (by rw [readByte, hflag]; rfl) h
  | some flag =>
    refine ⟨flag, hflag, fun hp => ?_⟩
    have h0 : flag.toNat ≠ 0 := fun h0 => by rw [h0] at hp; cases hp
    rw [readByte_eq_ret.mpr hflag, Run.ret_bind, if_neg h0, if_pos hp] at h
    by_contra hlt
    exact h (by rw [readByte, List.getElem?_eq_none (by omega)]; rfl)

/-- `dnsParseName` reads inside exactly if every place of the name is inside. -/
theorem noFault_dnsParseName {out : Out} {len : Nat} :
    NoFault (fun n => dnsParseName n resp p out len) ↔ NameInside resp p := by
  have hwalk : NoFault (fun n => dnsParseName n resp p out len) ↔
      NoFault fun n => walk (nameNext resp) n p := by
    refine forall_congr' fun n => not_congr ?_
    have h : (nameLoop resp n p len out len >>= fun _ => .ret ()) = _ := nameLoop_walk
    simp only [← h, dnsParseName]
    cases nameLoop resp n p len out len <;> simp
  rw [hwalk, noFault_walk]
  constructor
  · intro h q hq
    have hreach : Reaches (stepOf (nameNext resp)) p q := by
      induction hq with
      | refl => exact .refl
      | tail _ hstep ih =>
        exact ih.tail (stepOf_eq_some.mpr (nameNext_of_nameStep hstep (h _ ih)))
    exact placeInside_of_ne_fault (h q hreach)
  · intro h q hq
    have hname : ReflTransGen (NameStep resp) p q := by
      induction hq with
      | refl => exact .refl
      | tail _ hstep ih => exact ih.tail (nameStep_of_nameNext (stepOf_eq_some.mp hstep))
    exact nameNext_ne_fault (h q hname) fun r hr => h r (hname.tail hr)

/-! ## Questions -/

/-- The name of a question at `p`, as a chain of length octets, ends before `e`. -/
inductive LengthsEnd (resp : List Byte) : Nat → Nat → Prop
  | root {p : Nat} : resp[p]? = some 0#8 → LengthsEnd resp p (p + 1)
  | label {p e : Nat} {flag : Byte} : resp[p]? = some flag → flag.toNat ≠ 0 →
      LengthsEnd resp (p + (flag.toNat + 1)) e → LengthsEnd resp p e

/-- The question at `p` ends before `e`. -/
def QuestionEnd (resp : List Byte) (p e : Nat) : Prop := ∃ e', LengthsEnd resp p e' ∧ e = e' + 4

theorem returns_skipName : Returns (fun n => skipName resp n p) e ↔ LengthsEnd resp p e := by
  constructor
  · rintro ⟨n, hn⟩
    induction n generalizing p with
    | zero => cases hn
    | succ n ih =>
      obtain ⟨flag, hflag, hn⟩ := Run.bind_eq_ret.mp hn
      have hget := readByte_eq_ret.mp hflag
      by_cases h0 : flag.toNat = 0
      · simp only [h0, Nat.zero_add, if_true, Run.ret.injEq] at hn
        obtain rfl := hn
        have hflag0 : flag = 0#8 := BitVec.eq_of_toNat_eq h0
        exact .root (hflag0 ▸ hget)
      · simp only [if_neg h0] at hn
        exact .label hget h0 (ih hn)
  · intro h
    induction h with
    | root hflag =>
      refine ⟨1, ?_⟩
      simp only [skipName, readByte_eq_ret.mpr hflag, Run.ret_bind]
      rfl
    | label hflag h0 _ ih =>
      obtain ⟨n, hn⟩ := ih
      refine ⟨n + 1, ?_⟩
      simp only at hn
      simp only [skipName, readByte_eq_ret.mpr hflag, Run.ret_bind, if_neg h0, hn]

/-- The loop over the name of a question faults or ends: it always goes forward. -/
theorem noFault_skipName :
    NoFault (fun n => skipName resp n p) ↔ ∃ e, LengthsEnd resp p e := by
  constructor
  · intro h
    induction hk : resp.length - p using Nat.strongRecOn generalizing p with
    | ind k ih =>
      cases hflag : resp[p]? with
      | none =>
        refine absurd ?_ (h 1)
        simp only [skipName, readByte, hflag, Run.ofOption_none, Run.fault_bind]
      | some flag =>
        have hlt := (List.getElem?_eq_some_iff.mp hflag).1
        by_cases h0 : flag.toNat = 0
        · have hflag0 : flag = 0#8 := BitVec.eq_of_toNat_eq h0
          exact ⟨_, .root (hflag0 ▸ hflag)⟩
        · obtain ⟨e, he⟩ := ih _ (by omega) (p := p + (flag.toNat + 1)) (fun n hn => h (n + 1) (by
            simp only at hn
            simp only [skipName, readByte_eq_ret.mpr hflag, Run.ret_bind, if_neg h0, hn])) rfl
          exact ⟨e, .label hflag h0 he⟩
  · rintro ⟨e, he⟩ n hn
    exact fueled_skipName.not_returns hn (by simp) (by simp) (returns_skipName.mpr he)

theorem fueled_question : Fueled fun n => skipName resp n p >>= fun ptr => .ret (ptr + 4) :=
  fueled_skipName.bind fun _ => fueled_const _

theorem returns_question :
    (∃ q, Returns (fun n => skipName resp n p >>= fun ptr => .ret (ptr + 4)) q ∧ q = e) ↔
      QuestionEnd resp p e := by
  rw [exists_eq_right, returns_map]
  simp only [returns_skipName, QuestionEnd, eq_comm]

theorem returns_skipQuestions :
    Returns (fun n => skipQuestions n resp p k) e ↔ Times (QuestionEnd resp) k p e := by
  refine Iff.trans ?_ (returns_loop fueled_skipQuestions (fun _ _ => fueled_question)
    (fun _ => rfl) (fun _ _ => rfl) fun _ _ _ => returns_question)
  simp

theorem noFault_skipQuestions : NoFault (fun n => skipQuestions n resp p k) ↔
    ∀ i < k, ∀ q, Times (QuestionEnd resp) i p q → ∃ e, LengthsEnd resp q e :=
  noFault_loop fueled_skipQuestions (fun _ _ => fueled_question) (fun _ => rfl) (fun _ _ => rfl)
    (fun _ _ _ => returns_question) fun _ _ => noFault_map.trans noFault_skipName

/-! ## Answers -/

/-- What an iteration at `p` reads is inside: the name, and if that ends the fields behind two
octets, and the data of a `CNAME` or an address. -/
def AnswerInside (resp : List Byte) (p : Nat) : Prop :=
  NameInside resp p ∧ (NameEnds resp p → p + 12 ≤ resp.length ∧
    (word resp (p + 2) = 5 → NameInside resp (p + 12)) ∧
    (word resp (p + 2) = 1 → word resp (p + 10) = 4 → p + 16 ≤ resp.length))

theorem noFault_parseData {data : Nat → Byte} {qType dataLen : BitVec 16} :
    NoFault (fun n => parseData n resp data p qType dataLen) ↔
      (qType = 5 → NameInside resp p) ∧
        (qType = 1 → dataLen = 4 → p + 4 ≤ resp.length) := by
  by_cases h5 : qType = 0x05
  · simp only [parseData, if_pos h5]
    rw [noFault_map, noFault_dnsParseName]
    simp [h5]
  · obtain ⟨r, hr⟩ := parseData_of_ne resp p data dataLen h5
    simp only [hr]
    rw [noFault_const]
    by_cases hc : qType = 1 → dataLen = 4 → p + 4 ≤ resp.length
    · rw [if_pos hc]
      exact iff_of_true (by simp) ⟨fun h => absurd h h5, hc⟩
    · rw [if_neg hc]
      exact iff_of_false (by simp) fun h => hc h.2

theorem noFault_answerStep :
    NoFault (fun n => answerStep n resp old i st) ↔ AnswerInside resp st.ptr := by
  unfold answerStep
  rw [noFault_bind fueled_dnsParseName ?fueled, noFault_dnsParseName]
  case fueled =>
    exact fun _ => (fueled_const _).bind fun _ => (fueled_const _).bind fun _ =>
      (fueled_const _).bind fun _ => (fueled_const _).bind fun _ =>
        fueled_parseData.bind fun _ => fueled_const _
  refine and_congr_right fun _ => ?_
  simp only [noFault_read16_bind, noFault_map, noFault_parseData, Nat.add_assoc, Nat.reduceAdd,
    ← returns_dnsParseName (old (2 * i))]
  constructor
  · rintro h ⟨r, hr⟩
    exact (h r hr).2.2.2
  · intro h r hr
    have hrest := h ⟨r, hr⟩
    exact ⟨by omega, by omega, by omega, hrest⟩

theorem noFault_answerLoop : NoFault (fun n => answerLoop n resp old p k) ↔
    ∀ i < k, ∀ q, Times (NextAnswer resp) i p q → AnswerInside resp q :=
  noFault_loop fueled_answerLoop (fun _ _ => fueled_answerStep) (fun _ => rfl) (fun _ _ => rfl)
    (fun _ _ _ => returns_answerStep) fun _ _ => noFault_answerStep

/-! ## The response -/

/-- The header that twelve octets hold. -/
def headerOf (resp : List Byte) : DnsHeader where
  transactionId := word resp 0
  flags := word resp 2
  questions := word resp 4
  answer := word resp 6
  authority := word resp 8
  additional := word resp 10

/-- The parser reads the header, and goes on. -/
theorem noFault_parseHeader_bind {β : Type} {g : Nat → DnsHeader → Run β} :
    NoFault (fun n => parseHeader resp >>= g n) ↔
      12 ≤ resp.length ∧ NoFault fun n => g n (headerOf resp) := by
  simp only [parseHeader, bind_assoc, noFault_read16_bind, Run.ret_bind]
  constructor
  · rintro ⟨-, -, -, -, -, hle, h⟩
    exact ⟨hle, h⟩
  · rintro ⟨hle, h⟩
    exact ⟨by omega, by omega, by omega, by omega, by omega, hle, h⟩

theorem parseHeader_eq (h : 12 ≤ resp.length) : parseHeader resp = .ret (headerOf resp) := by
  simp (disch := omega) only [parseHeader, read16_eq_word, Run.ret_bind, headerOf]

theorem le_of_parseHeader {header : DnsHeader} (h : parseHeader resp = .ret header) :
    12 ≤ resp.length := by
  obtain ⟨_, -, h⟩ := Run.bind_eq_ret.mp h
  obtain ⟨_, -, h⟩ := Run.bind_eq_ret.mp h
  obtain ⟨_, -, h⟩ := Run.bind_eq_ret.mp h
  obtain ⟨_, -, h⟩ := Run.bind_eq_ret.mp h
  obtain ⟨_, -, h⟩ := Run.bind_eq_ret.mp h
  obtain ⟨_, hlast, -⟩ := Run.bind_eq_ret.mp h
  exact le_of_read16 hlast

/-- The parser reads inside behind the header: in each question and each answer that it comes to. -/
structure ReadsInside (resp : List Byte) : Prop where
  questions : ∀ i < (headerOf resp).questions.toNat, ∀ q,
    Times (QuestionEnd resp) i 12 q → ∃ e, LengthsEnd resp q e
  answers : ∀ p, Times (QuestionEnd resp) (headerOf resp).questions.toNat 12 p →
    ∀ i < (headerOf resp).answer.toNat, ∀ q, Times (NextAnswer resp) i p q → AnswerInside resp q

/-- The octets of a name from `p` on end before `e`, with a root or behind a pointer. -/
inductive NameSpan (resp : List Byte) : Nat → Nat → Prop
  | root {p : Nat} : resp[p]? = some 0#8 → NameSpan resp p (p + 1)
  | pointer {p : Nat} {flag : Byte} : resp[p]? = some flag → isPointer flag.toNat = true →
      NameSpan resp p (p + 2)
  | label {p e : Nat} {flag : Byte} : resp[p]? = some flag → flag.toNat ≠ 0 →
      ¬ isPointer flag.toNat = true → NameSpan resp (p + 1 + flag.toNat) e → NameSpan resp p e

def QuestionSpan (resp : List Byte) (p e : Nat) : Prop :=
  ∃ m, NameSpan resp p m ∧ e = m + 4 ∧ e ≤ resp.length

def AnswerSpan (resp : List Byte) (p e : Nat) : Prop :=
  ∃ m, NameSpan resp p m ∧ m + 10 ≤ resp.length ∧ e = m + 10 + (word resp (m + 8)).toNat ∧
    e ≤ resp.length

/-- The response holds the questions and answers that its header announces. -/
def Complete (resp : List Byte) : Prop :=
  12 ≤ resp.length ∧ ∃ m e, Times (QuestionSpan resp) (headerOf resp).questions.toNat 12 m ∧
    Times (AnswerSpan resp) (headerOf resp).answer.toNat m e

/-- The parser reads no octet behind the end of the response, and a response that is not complete is
rejected. -/
def Bounded (resp : List Byte) (old : Nat → Nat → Byte) : Prop :=
  NoFault (fun n => dnsResponseParse n (some resp) old) ∧
    (¬ Complete resp → ∃ parsed, Returns (fun n => dnsResponseParse n (some resp) old) parsed ∧
      parsed.ret ≠ 0)

/-- Without a response code the parser comes to the questions and the answers, and does not reject. -/
theorem noFault_dnsResponseParse (h : (headerOf resp).rcode = 0) :
    NoFault (fun n => dnsResponseParse n (some resp) old) ↔
      12 ≤ resp.length ∧ ReadsInside resp := by
  simp only [dnsResponseParse]
  rw [noFault_parseHeader_bind]
  refine and_congr_right fun _ => ?_
  have hrcode : ¬ (headerOf resp).rcode ≠ 0 := not_not.mpr h
  simp only [if_neg hrcode]
  rw [noFault_bind (fueled_skipQuestions _) ?fueled, noFault_skipQuestions]
  case fueled => exact fun _ => (fueled_answerLoop _).bind fun _ => fueled_const _
  constructor
  · rintro ⟨hquestions, hanswers⟩
    exact ⟨hquestions, fun p hp =>
      noFault_answerLoop.mp (noFault_map.mp (hanswers p (returns_skipQuestions.mpr hp)))⟩
  · rintro ⟨hquestions, hanswers⟩
    exact ⟨hquestions, fun p hp =>
      noFault_map.mpr (noFault_answerLoop.mpr (hanswers p (returns_skipQuestions.mp hp)))⟩

theorem ret_eq_zero {n : Nat} {parsed : Parsed} (hle : 12 ≤ resp.length)
    (h : (headerOf resp).rcode = 0) (hn : dnsResponseParse n (some resp) old = .ret parsed) :
    parsed.ret = 0 := by
  have hrcode : ¬ (headerOf resp).rcode ≠ 0 := not_not.mpr h
  simp only [dnsResponseParse, parseHeader_eq hle, Run.ret_bind, if_neg hrcode] at hn
  obtain ⟨_, -, hn⟩ := Run.bind_eq_ret.mp hn
  obtain ⟨_, -, hn⟩ := Run.bind_eq_ret.mp hn
  cases hn
  rfl

/-- A response with a response code is rejected behind its header. -/
theorem dnsResponseParse_of_rcode (old : Nat → Nat → Byte) (hle : 12 ≤ resp.length)
    (h : (headerOf resp).rcode ≠ 0) (n : Nat) :
    ∃ parsed, dnsResponseParse n (some resp) old = .ret parsed ∧ parsed.ret ≠ 0 := by
  simp only [dnsResponseParse, parseHeader_eq hle, Run.ret_bind, if_pos h]
  by_cases h2 : (headerOf resp).rcode = 2
  · exact ⟨_, if_pos h2, by decide⟩
  by_cases h3 : (headerOf resp).rcode = 3
  · exact ⟨_, (if_neg h2).trans (if_pos h3), by decide⟩
  · exact ⟨_, (if_neg h2).trans (if_neg h3), by decide⟩

theorem bounded_iff (resp : List Byte) (old : Nat → Nat → Byte) : Bounded resp old ↔
    12 ≤ resp.length ∧ ((headerOf resp).rcode ≠ 0 ∨ ReadsInside resp ∧ Complete resp) := by
  constructor
  · rintro ⟨hinside, hreject⟩
    have hle : 12 ≤ resp.length := (noFault_parseHeader_bind.mp hinside).1
    refine ⟨hle, or_iff_not_imp_left.mpr fun hrcode => ?_⟩
    have hrcode := not_not.mp hrcode
    refine ⟨((noFault_dnsResponseParse hrcode).mp hinside).2, ?_⟩
    by_contra hcomplete
    obtain ⟨parsed, ⟨n, hn⟩, hret⟩ := hreject hcomplete
    exact hret (ret_eq_zero hle hrcode hn)
  · rintro ⟨hle, h⟩
    by_cases hrcode : (headerOf resp).rcode = 0
    · obtain ⟨hinside, hcomplete⟩ := h.resolve_left (not_not.mpr hrcode)
      exact ⟨(noFault_dnsResponseParse hrcode).mpr ⟨hle, hinside⟩, fun hn => absurd hcomplete hn⟩
    · refine ⟨fun n hn => ?_, fun _ => ?_⟩
      · obtain ⟨parsed, hparsed, -⟩ := dnsResponseParse_of_rcode old hle hrcode n
        exact nomatch hparsed.symm.trans hn
      · obtain ⟨parsed, hparsed, hret⟩ := dnsResponseParse_of_rcode old hle hrcode 0
        exact ⟨parsed, ⟨0, hparsed⟩, hret⟩

/-- A header alone that announces an answer: the parser reads on behind its twelve octets. -/
theorem not_bounded_header :
    ¬ Bounded [0x12, 0x34, 0x81, 0x80, 0, 0, 0, 1, 0, 0, 0, 0] fun _ _ => 0 :=
  fun h => h.1 1 rfl

end Dns
end LinuxBase
