import LinuxBase.Dns.Expand

/-!
# What the parser makes of the answers (`dns.c`)

`Decoded`: `dnsResponseParse` returns the answers of a message in reverse order, each with what the
message says about it (`Carries`). The owner names are pointers to uncompressed names below 256, and
the targets of `CNAME` records expand.

The field `ttl` of the code is an `unsigned short`, read from the first two of the four octets, so it
is the time to live only if that is 0.
-/

namespace LinuxBase
namespace Dns

open Layout

/-- The names in a message: `owner i` that of its answer `i`, and `target i` what the data is if the
answer is a `CNAME`. -/
structure Names (resp : List Byte) (m : Message) (owner target : Nat → List Label) : Prop where
  owner : ∀ i (h : i < m.answers.length), ∃ offset : BitVec 14,
    m.answers[i].owner = ⟨[], .pointer offset⟩ ∧ offset.toNat < 256 ∧
      At resp offset.toNat ((owner i).flatMap Label.encode ++ [0])
  target : ∀ i (h : i < m.answers.length), m.answers[i].type = 5 →
    Expands resp (m.answerOffset i + 12) (target i)

/-- The node `b` has what the answer `a` with the number `i` says; the blocks were new. -/
structure Carries (old : Nat → Nat → Byte) (owner target : Nat → List Label) (i : Nat) (a : Answer)
    (b : DnsAnswerBody) : Prop where
  name : b.name = Out.write { data := old (2 * i) } 0 (dotted (owner i))
  qType : b.qType = a.type
  qClass : b.qClass = a.cls
  ttl : b.ttl.toNat = a.ttl.toNat
  dataLen : b.dataLen.toNat = a.data.length
  address : a.type = 1 → a.data.length = 4 →
    b.data = .host (Out.write { data := old (2 * i + 1) } 0 (inetNtop a.data))
  target : a.type = 5 →
    b.data = .cname (Out.write { data := old (2 * i + 1) } 0 (dotted (target i)))

/-- `dnsResponseParse` returns the answers of `m`, the last one first. -/
def Decoded (resp : List Byte) (old : Nat → Nat → Byte) (m : Message)
    (owner target : Nat → List Label) : Prop :=
  ∃ parsed answer, Returns (fun n => dnsResponseParse n (some resp) old) parsed ∧
    parsed.ret = 0 ∧ parsed.answer = some answer ∧ answer.body.length = m.answers.length ∧
    ∀ i (h : i < m.answers.length), ∃ b, answer.body.reverse[i]? = some b ∧
      Carries old owner target i m.answers[i] b

variable {m : Message} {rest resp : List Byte} {old : Nat → Nat → Byte}
  {owner target : Nat → List Label} {i p : Nat} {a : Answer} {st st' : AnswerState}
  {parsed : Parsed}

/-- The answers of a message are what the loop over them returns. -/
theorem returns_dnsResponseParse_iff :
    Returns (fun n => dnsResponseParse n (some (m.encode ++ rest)) old) parsed ↔
      ∃ st, Returns (fun n => answerLoop n (m.encode ++ rest) old (m.answerOffset 0)
          m.answers.length) st ∧
        { ret := 0, answer := some { header := m.header, body := st.body } } = parsed := by
  have hheader := parseHeader_of_at (m.at_zero rest).left
  simp only [dnsResponseParse, hheader, Run.ret_bind, m.rcode_header, ne_eq, not_true_eq_false,
    if_false, m.toNat_questions, m.toNat_answer]
  have hloop : ∀ q, Fueled fun n => answerLoop n (m.encode ++ rest) old q m.answers.length >>=
      fun st => .ret { ret := 0, answer := some { header := m.header, body := st.body } : Parsed } :=
    fun q => (fueled_answerLoop _).bind fun _ => fueled_const _
  rw [returns_bind (fueled_skipQuestions _) hloop]
  constructor
  · rintro ⟨q, hq, h⟩
    rwa [(fueled_skipQuestions _).returns_unique hq (m.returns_skipQuestions rest),
      returns_map] at h
  · exact fun h => ⟨_, m.returns_skipQuestions rest, returns_map.mpr h⟩

/-! ## One answer -/

theorem length_inetNtop {bs : List Byte} (h : bs.length = 4) : 8 ≤ (inetNtop bs).length := by
  obtain ⟨a, b, c, d, rfl⟩ := List.length_eq_four.mp h
  have hpos : ∀ x : Byte, 0 < (Nat.toDigits 10 x.toNat).length := fun x => Nat.length_toDigits_pos
  have := hpos a
  have := hpos b
  have := hpos c
  have := hpos d
  simp [inetNtop, List.intercalate]
  omega

/-- A store over a shorter one. -/
theorem Out.write_write (out : Out) (pos : Nat) {as bs : List Byte} (h : as.length ≤ bs.length) :
    (out.write pos as).write pos bs = out.write pos bs := by
  simp only [Out.write, Out.mk.injEq]
  refine ⟨?_, by omega⟩
  funext i
  by_cases hi : i < pos
  · rw [if_pos hi, if_pos hi, if_pos hi]
  · rw [if_neg hi, if_neg hi, if_neg hi]
    by_cases hb : i - pos < bs.length
    · rw [List.getElem?_eq_getElem hb]; rfl
    · rw [List.getElem?_eq_none (l := as) (by omega)]; rfl

theorem toNat_length_data (a : Answer) :
    (BitVec.ofNat 16 a.data.length).toNat = a.data.length := by
  rw [BitVec.toNat_ofNat, Nat.mod_eq_of_lt a.length_lt]

/-- What `data` points to behind the `switch`. -/
theorem returns_parseData_iff {old : Nat → Byte} {d : AnswerData} (hdata : At resp p a.data) :
    Returns (fun n => parseData n resp old p a.type (.ofNat 16 a.data.length)) d ↔
      if a.type = 5 then ∃ text, Spells resp p text ∧ .cname (Out.write { data := old } 0 text) = d
      else (if a.type = 1 ∧ a.data.length = 4 then
        .host (Out.write { data := old } 0 (inetNtop a.data)) else .unset) = d := by
  have hfour : BitVec.ofNat 16 a.data.length = 4 ↔ a.data.length = 4 := by
    rw [BitVec.toNat_eq, toNat_length_data]
    rfl
  have hconst : ∀ d' : AnswerData, Returns (fun _ => Run.ret d') d ↔ d' = d := fun d' =>
    ⟨fun ⟨_, h⟩ => Run.ret.inj h, fun h => ⟨0, congrArg Run.ret h⟩⟩
  by_cases h5 : a.type = 5
  · simp only [parseData, if_pos h5, returns_map, dnsParseName_returns_iff (Nat.zero_le _)]
    constructor
    · rintro ⟨r, ⟨text, htext, rfl⟩, rfl⟩
      exact ⟨text, htext, rfl⟩
    · rintro ⟨text, htext, rfl⟩
      exact ⟨_, ⟨text, htext, rfl⟩, rfl⟩
  simp only [parseData, if_neg h5]
  by_cases h1 : a.type = 1
  · by_cases h4 : a.data.length = 4
    · have hbytes : readBytes resp p (BitVec.ofNat 16 a.data.length).toNat = .ret a.data := by
        rw [toNat_length_data, readBytes, if_pos hdata.le_length, hdata.take_drop]
      have hlen := length_inetNtop h4
      have hover := Out.write_write { data := old } 0
        (show a.data.length ≤ (inetNtop a.data).length by omega)
      rw [if_pos (And.intro h1 h4)]
      simp only [if_pos h1, if_pos (hfour.mpr h4), hbytes, Run.ret_bind, hover, hconst]
    · simp only [if_pos h1, if_neg (mt hfour.mp h4), h4, and_false, if_false, hconst]
  · simp only [h1, false_and, if_false, hconst]

/-- The node that the parser makes of the answer `a`, if its name spells `text` and its data is `d`. -/
def nodeOf (old : Nat → Nat → Byte) (i : Nat) (a : Answer) (text : List Byte) (d : AnswerData) :
    DnsAnswerBody where
  name := Out.write { data := old (2 * i) } 0 text
  qType := a.type
  qClass := a.cls
  ttl := a.ttl.extractLsb' 16 16
  dataLen := .ofNat 16 a.data.length
  data := d

/-- An iteration reads the fields of its answer, if the name is only a pointer. -/
theorem returns_answerStep_of_at {offset : BitVec 14} {text : List Byte}
    (hat : At resp st.ptr a.encode) (howner : a.owner = ⟨[], .pointer offset⟩)
    (hname : Spells resp st.ptr text) :
    Returns (fun n => answerStep n resp old i st) st' ↔
      ∃ d, Returns (fun n => parseData n resp (old (2 * i + 1)) (st.ptr + 12) a.type
          (.ofNat 16 a.data.length)) d ∧
        { ptr := st.ptr + a.encode.length, body := nodeOf old i a text d :: st.body } = st' := by
  have hwidth : a.encode.length = 12 + a.data.length := by
    rw [Answer.encode, howner]
    simp [Name.encode, NameEnd.encode]
    omega
  unfold Answer.encode at hat
  rw [howner] at hat
  have htype : read16 resp (st.ptr + 2) = .ret a.type := read16_of_at hat.right.left
  have hcls : read16 resp (st.ptr + 4) = .ret a.cls := read16_of_at hat.right.right.left
  have httl : read16 resp (st.ptr + 6) = .ret (a.ttl.extractLsb' 16 16) :=
    read16_of_at hat.right.right.right.left
  have hlen : read16 resp (st.ptr + 10) = .ret (.ofNat 16 a.data.length) :=
    read16_of_at hat.right.right.right.right.right.left
  unfold answerStep
  rw [returns_bind fueled_dnsParseName ?fueled]
  case fueled =>
    exact fun _ => (fueled_const _).bind fun _ => (fueled_const _).bind fun _ =>
      (fueled_const _).bind fun _ => (fueled_const _).bind fun _ =>
        fueled_parseData.bind fun _ => fueled_const _
  simp only [Nat.add_assoc, Nat.reduceAdd, htype, hcls, httl, hlen, Run.ret_bind, returns_map,
    dnsParseName_returns_iff (Nat.zero_le _), toNat_length_data, hwidth, nodeOf]
  constructor
  · rintro ⟨_, ⟨text', htext, rfl⟩, d, hd, rfl⟩
    cases hname.unique htext
    exact ⟨d, hd, rfl⟩
  · rintro ⟨d, hd, rfl⟩
    exact ⟨_, ⟨text, hname, rfl⟩, d, hd, rfl⟩

/-! ## All answers -/

/-- `d` is what the parser finds as the data of the answer `i`. -/
def Message.DataOf (m : Message) (resp : List Byte) (old : Nat → Nat → Byte) (i : Nat)
    (h : i < m.answers.length) (d : AnswerData) : Prop :=
  Returns (fun n => parseData n resp (old (2 * i + 1)) (m.answerOffset i + 12) m.answers[i].type
    (.ofNat 16 m.answers[i].data.length)) d

/-- The owner name of an answer is spelled where the answer begins. -/
theorem Names.spells (hn : Names (m.encode ++ rest) m owner target) (hi : i < m.answers.length) :
    Spells (m.encode ++ rest) (m.answerOffset i) (dotted (owner i)) := by
  obtain ⟨offset, howner, hlow, hat⟩ := hn.owner i hi
  have hanswer := Message.at_answer rest hi
  rw [Answer.encode, howner] at hanswer
  rw [spells_pointer_of_at hanswer.left, Nat.mod_eq_of_lt hlow]
  exact spells_of_at hat

/-- The loop over the answers, one answer on. -/
theorem returns_answerLoop_succ (hn : Names (m.encode ++ rest) m owner target)
    (hi : i < m.answers.length)
    (hst : Returns (fun n => answerLoop n (m.encode ++ rest) old (m.answerOffset 0) i) st)
    (hptr : st.ptr = m.answerOffset i) :
    Returns (fun n => answerLoop n (m.encode ++ rest) old (m.answerOffset 0) (i + 1)) st' ↔
      ∃ d, m.DataOf (m.encode ++ rest) old i hi d ∧
        { ptr := m.answerOffset (i + 1)
          body := nodeOf old i m.answers[i] (dotted (owner i)) d :: st.body } = st' := by
  obtain ⟨offset, howner, -⟩ := hn.owner i hi
  have hat := Message.at_answer rest hi
  have hname := hn.spells hi
  rw [← hptr] at hat hname
  have hstep : Returns (fun n => answerStep n (m.encode ++ rest) old i st) st' ↔ _ :=
    returns_answerStep_of_at hat howner hname
  rw [hptr, ← Message.answerOffset_succ hi] at hstep
  refine Iff.trans (returns_bind (fueled_answerLoop i) fun _ => fueled_answerStep) ?_
  constructor
  · rintro ⟨st₁, hst₁, h⟩
    rw [(fueled_answerLoop i).returns_unique hst₁ hst] at h
    exact hstep.mp h
  · exact fun h => ⟨st, hst, hstep.mpr h⟩

/-- What the loop has when it comes to the answer `i`. -/
structure Built (resp : List Byte) (old : Nat → Nat → Byte) (m : Message)
    (owner : Nat → List Label) (i : Nat) (st : AnswerState) : Prop where
  ptr : st.ptr = m.answerOffset i
  length : st.body.length = i
  node : ∀ j (h : j < m.answers.length), j < i → ∃ d, m.DataOf resp old j h d ∧
    st.body.reverse[j]? = some (nodeOf old j m.answers[j] (dotted (owner j)) d)

theorem built_of_returns (hn : Names (m.encode ++ rest) m owner target)
    (hi : i ≤ m.answers.length)
    (hst : Returns (fun n => answerLoop n (m.encode ++ rest) old (m.answerOffset 0) i) st) :
    Built (m.encode ++ rest) old m owner i st := by
  induction i generalizing st with
  | zero =>
    obtain ⟨n, h⟩ := hst
    cases h
    exact ⟨rfl, rfl, nofun⟩
  | succ i ih =>
    obtain ⟨st₁, hst₁, -⟩ :=
      (returns_bind (fueled_answerLoop i) fun _ => fueled_answerStep).mp hst
    have hb := ih (by omega) hst₁
    obtain ⟨d, hd, rfl⟩ := (returns_answerLoop_succ hn (by omega) hst₁ hb.ptr).mp hst
    refine ⟨rfl, by simp [hb.length], fun j hj hlt => ?_⟩
    simp only [List.reverse_cons]
    by_cases hji : j < i
    · obtain ⟨d', hd', hget⟩ := hb.node j hj hji
      exact ⟨d', hd', by rw [List.getElem?_append_left (by simpa [hb.length] using hji), hget]⟩
    · obtain rfl : j = i := by omega
      refine ⟨d, hd, ?_⟩
      rw [List.getElem?_append_right (by simp [hb.length])]
      simp [hb.length]

theorem exists_returns (hn : Names (m.encode ++ rest) m owner target) (hi : i ≤ m.answers.length)
    (hdata : ∀ j (h : j < m.answers.length), ∃ d, m.DataOf (m.encode ++ rest) old j h d) :
    ∃ st, Returns (fun n => answerLoop n (m.encode ++ rest) old (m.answerOffset 0) i) st := by
  induction i with
  | zero => exact ⟨_, 0, rfl⟩
  | succ i ih =>
    obtain ⟨st, hst⟩ := ih (by omega)
    obtain ⟨d, hd⟩ := hdata i (by omega)
    have hptr := (built_of_returns hn (by omega) hst).ptr
    exact ⟨_, (returns_answerLoop_succ hn (by omega) hst hptr).mpr ⟨d, hd, rfl⟩⟩

/-! ## The contents -/

/-- The first half of the time to live is all of it only if that is 0. -/
theorem ttl_eq_iff (x : BitVec 32) : (x.extractLsb' 16 16).toNat = x.toNat ↔ x = 0 := by
  rw [BitVec.extractLsb'_toNat, Nat.shiftRight_eq_div_pow, BitVec.toNat_eq]
  have := x.isLt
  show x.toNat / 65536 % 65536 = x.toNat ↔ x.toNat = 0
  omega

/-- A `CNAME` gets its target exactly if that is `Near`. -/
theorem dataOf_target (hn : Names resp m owner target) (hi : i < m.answers.length)
    (hdata : At resp (m.answerOffset i + 12) m.answers[i].data) (h5 : m.answers[i].type = 5) :
    m.DataOf resp old i hi (.cname (Out.write { data := old (2 * i + 1) } 0 (dotted (target i)))) ↔
      Near resp (m.answerOffset i + 12) (target i) := by
  rw [Message.DataOf, returns_parseData_iff hdata, if_pos h5,
    ← spells_iff_near (hn.target i hi h5)]
  constructor
  · rintro ⟨text, htext, h⟩
    have hout := AnswerData.cname.inj h
    have htop := congrArg Out.top hout
    simp only [Out.write, Nat.zero_add, Nat.zero_max] at htop
    rwa [Out.write_injective hout htop] at htext
  · exact fun h => ⟨_, h, rfl⟩

theorem Names.at_data (hn : Names (m.encode ++ rest) m owner target) (hi : i < m.answers.length) :
    At (m.encode ++ rest) (m.answerOffset i + 12) m.answers[i].data := by
  obtain ⟨offset, howner, -⟩ := hn.owner i hi
  have h := Message.at_answer rest hi
  rw [Answer.encode, howner] at h
  exact h.right.right.right.right.right.right

/-- What the node of an answer says is what the message says: then no bit of its time to live is set. -/
theorem Decoded.answer (hn : Names (m.encode ++ rest) m owner target)
    (h : Decoded (m.encode ++ rest) old m owner target) (hi : i < m.answers.length) :
    m.answers[i].ttl = 0 ∧ (m.answers[i].type = 5 →
      Near (m.encode ++ rest) (m.answerOffset i + 12) (target i)) := by
  obtain ⟨parsed, answer, hparsed, -, hanswer, -, hcarries⟩ := h
  obtain ⟨st, hst, rfl⟩ := returns_dnsResponseParse_iff.mp hparsed
  cases hanswer
  obtain ⟨b, hb, hc⟩ := hcarries i hi
  obtain ⟨d, hd, hget⟩ := (built_of_returns hn (Nat.le_refl _) hst).node i hi hi
  cases hb.symm.trans hget
  refine ⟨(ttl_eq_iff _).mp hc.ttl, fun h5 => ?_⟩
  rw [← dataOf_target hn hi (hn.at_data hi) h5, ← hc.target h5]
  exact hd

/-- **Contents.** `dnsResponseParse` returns the answers of a message, in reverse order and with what
the message says about each, if and only if every time to live is 0 and the target of every `CNAME`
is `Near`. -/
theorem decoded_iff (rest : List Byte) (old : Nat → Nat → Byte)
    (hn : Names (m.encode ++ rest) m owner target) :
    Decoded (m.encode ++ rest) old m owner target ↔
      ∀ i (h : i < m.answers.length), m.answers[i].ttl = 0 ∧
        (m.answers[i].type = 5 → Near (m.encode ++ rest) (m.answerOffset i + 12) (target i)) := by
  constructor
  · exact fun h i hi => h.answer hn hi
  · intro h
    have hdata : ∀ j (hj : j < m.answers.length), ∃ d, m.DataOf (m.encode ++ rest) old j hj d := by
      intro j hj
      by_cases h5 : m.answers[j].type = 5
      · exact ⟨_, (dataOf_target hn hj (hn.at_data hj) h5).mpr ((h j hj).2 h5)⟩
      · exact ⟨_, (returns_parseData_iff (hn.at_data hj)).mpr (by rw [if_neg h5])⟩
    obtain ⟨st, hst⟩ := exists_returns hn (Nat.le_refl _) hdata
    have hbuilt := built_of_returns hn (Nat.le_refl _) hst
    refine ⟨_, _, returns_dnsResponseParse_iff.mpr ⟨st, hst, rfl⟩, rfl, rfl, hbuilt.length,
      fun i hi => ?_⟩
    obtain ⟨d, hd, hget⟩ := hbuilt.node i hi hi
    refine ⟨_, hget, rfl, rfl, rfl, (ttl_eq_iff _).mpr (h i hi).1, toNat_length_data _,
      fun h1 h4 => ?_, fun h5 => ?_⟩
    · rw [Message.DataOf, returns_parseData_iff (hn.at_data hi), h1, if_neg (by decide),
        if_pos ⟨rfl, h4⟩] at hd
      exact hd.symm
    · exact fueled_parseData.returns_unique hd
        ((dataOf_target hn hi (hn.at_data hi) h5).mpr ((h i hi).2 h5))

/-- A response about the host `c`: a `CNAME` for it, with the time to live `ttl`, and the address of
its target `b`. -/
def aliased (ttl : BitVec 32) : Message where
  transactionId := 0x1234
  flags := 0x8580
  rcode := by decide
  questions := [⟨[labelC], 1, 1⟩]
  questions_lt := by decide
  answers := [⟨⟨[], .pointer 12⟩, 5, 1, ttl, [1, 98, 0], by decide⟩,
    ⟨⟨[], .pointer 31⟩, 1, 1, 0, [192, 0, 2, 2], by decide⟩]
  answers_lt := by simp
  authority := 0
  additional := 0

/-- The label `b`. -/
def labelB : Label := ⟨[98], by decide, by decide⟩

def aliasedOwner (i : Nat) : List Label := if i = 0 then [labelC] else [labelB]

theorem length_aliased (ttl : BitVec 32) : ((aliased ttl).encode ++ []).length = 50 := rfl

theorem expands_aliased (ttl : BitVec 32) : Expands ((aliased ttl).encode ++ []) 31 [labelB] := by
  have hlabel : At ((aliased ttl).encode ++ []) 31 labelB.encode :=
    at_of_take_drop rfl (by rw [length_aliased]; decide)
  exact .label hlabel (.root (at_of_take_drop rfl (by rw [length_aliased]; decide)))

theorem names_aliased (ttl : BitVec 32) :
    Names ((aliased ttl).encode ++ []) (aliased ttl) aliasedOwner fun _ => [labelB] where
  owner i hi := by
    obtain rfl | rfl : i = 0 ∨ i = 1 := by have : i < 2 := hi; omega
    · exact ⟨12, rfl, by decide, at_of_take_drop rfl (by rw [length_aliased]; decide)⟩
    · exact ⟨31, rfl, by decide, at_of_take_drop rfl (by rw [length_aliased]; decide)⟩
  target i hi h5 := by
    obtain rfl | rfl : i = 0 ∨ i = 1 := by have : i < 2 := hi; omega
    · exact expands_aliased ttl
    · cases h5

theorem decoded_aliased :
    Decoded ((aliased 0).encode ++ []) (fun _ _ => 7) (aliased 0) aliasedOwner fun _ => [labelB] := by
  refine (decoded_iff [] _ (names_aliased 0)).mpr fun i hi => ?_
  obtain rfl | rfl : i = 0 ∨ i = 1 := by have : i < 2 := hi; omega
  · exact ⟨rfl, fun _ => .label (at_of_take_drop rfl (by decide)) (fun _ => rfl)
      (.root (at_of_take_drop rfl (by decide)))⟩
  · exact ⟨rfl, fun h5 => by cases h5⟩

/-- A time to live of one minute becomes 0. -/
theorem not_decoded_aliased :
    Names ((aliased 60).encode ++ []) (aliased 60) aliasedOwner (fun _ => [labelB]) ∧
      ¬ Decoded ((aliased 60).encode ++ []) (fun _ _ => 7) (aliased 60) aliasedOwner
        fun _ => [labelB] := by
  refine ⟨names_aliased 60, fun h => ?_⟩
  have httl := (h.answer (names_aliased 60) (i := 0) (by decide)).1
  exact absurd httl (by decide)

end Dns
end LinuxBase
