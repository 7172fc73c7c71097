import LinuxBase.Lib.Layout
import LinuxBase.Dns.Response

/-!
# Well-formed responses

A DNS response as it is meant: a `Message` of questions and answers, and the octets that carry it
(`Message.encode`). The names of questions are uncompressed; the name of an answer ends with the root
or with a pointer.

`dnsResponseParse` takes two octets for the name of each answer. `answerPtr_iff` says for which
messages it finds the answers where they are; where every one of these names is only a pointer, it is
enough that the names end (`framed_iff_of_pointer`).
-/

namespace LinuxBase
namespace Dns

open Layout

def encode16 (x : BitVec 16) : List Byte := [x.extractLsb' 8 8, x.extractLsb' 0 8]

structure Label where
  octets : List Byte
  ne_nil : octets ≠ []
  length_le : octets.length ≤ 63

def Label.encode (l : Label) : List Byte := .ofNat 8 l.octets.length :: l.octets

/-- What follows the last label of a name. -/
inductive NameEnd where
  | root
  | pointer (offset : BitVec 14)

def NameEnd.encode : NameEnd → List Byte
  | root => [0]
  | pointer offset => [0b11#2 ++ offset.extractLsb' 8 6, offset.extractLsb' 0 8]

structure Name where
  labels : List Label
  ending : NameEnd

def Name.encode (n : Name) : List Byte := n.labels.flatMap Label.encode ++ n.ending.encode

structure Question where
  labels : List Label
  qType : BitVec 16
  qClass : BitVec 16

def Question.encode (q : Question) : List Byte :=
  q.labels.flatMap Label.encode ++ [0] ++ (encode16 q.qType ++ encode16 q.qClass)

structure Answer where
  owner : Name
  type : BitVec 16
  cls : BitVec 16
  ttl : BitVec 32
  data : List Byte
  length_lt : data.length < 2 ^ 16

def Answer.encode (a : Answer) : List Byte :=
  a.owner.encode ++ (encode16 a.type ++ (encode16 a.cls ++
    (encode16 (a.ttl.extractLsb' 16 16) ++ (encode16 (a.ttl.extractLsb' 0 16) ++
      (encode16 (.ofNat 16 a.data.length) ++ a.data)))))

structure Message where
  transactionId : BitVec 16
  flags : BitVec 16
  rcode : flags &&& 0xF = 0
  questions : List Question
  questions_lt : questions.length < 2 ^ 16
  answers : List Answer
  answers_lt : answers.length < 2 ^ 16
  authority : BitVec 16
  additional : BitVec 16

def Message.header (m : Message) : DnsHeader where
  transactionId := m.transactionId
  flags := m.flags
  questions := .ofNat 16 m.questions.length
  answer := .ofNat 16 m.answers.length
  authority := m.authority
  additional := m.additional

def DnsHeader.encode (h : DnsHeader) : List Byte :=
  encode16 h.transactionId ++ (encode16 h.flags ++ (encode16 h.questions ++ (encode16 h.answer ++
    (encode16 h.authority ++ encode16 h.additional))))

/-- The octets of a message up to the end of its answers. -/
def Message.encode (m : Message) : List Byte :=
  m.header.encode ++ (m.questions.flatMap Question.encode ++ m.answers.flatMap Answer.encode)

/-- Where the answer `i` begins; for the number of answers, where the last one ends. -/
def Message.answerOffset (m : Message) (i : Nat) : Nat :=
  12 + (m.questions.flatMap Question.encode).length +
    ((m.answers.take i).flatMap Answer.encode).length

variable {resp rest : List Byte} {p i : Nat} {old : Nat → Nat → Byte}

/-! ## Reading it -/

@[simp] theorem length_encode16 (x : BitVec 16) : (encode16 x).length = 2 := rfl

theorem read16_of_at {x : BitVec 16} (h : At resp p (encode16 x)) : read16 resp p = .ret x := by
  rw [read16, readByte_eq_ret.mpr h.head, Run.ret_bind, readByte_eq_ret.mpr h.tail.head,
    Run.ret_bind]
  exact congrArg Run.ret (@BitVec.extractLsb'_append_extractLsb' 8 8 x)

theorem rcode_eq (h : DnsHeader) : h.rcode = h.flags &&& 0xF := by
  have hmask : ∀ i : Fin 16, (0xF : BitVec 16)[i.val] = decide (i.val < 4) := by decide
  unfold DnsHeader.rcode
  ext i hi
  simp only [BitVec.getElem_xor, BitVec.getElem_and, BitVec.getElem_shiftLeft,
    BitVec.getElem_ushiftRight, hmask ⟨i, hi⟩]
  by_cases h4 : i < 4
  · simp only [h4, decide_true, Bool.not_true, Bool.false_and, Bool.false_xor, Bool.and_true]
  · have hget : h.flags.getLsbD (4 + (i - 4)) = h.flags[i] := by
      rw [show 4 + (i - 4) = i by omega, BitVec.getLsbD_eq_getElem hi]
    simp only [h4, decide_false, Bool.not_false, Bool.true_and, hget, Bool.xor_self, Bool.and_false]

theorem parseHeader_of_at {h : DnsHeader} (hat : At resp 0 h.encode) :
    parseHeader resp = .ret h := by
  have hflags : read16 resp 2 = .ret h.flags := read16_of_at hat.right.left
  have hquestions : read16 resp 4 = .ret h.questions := read16_of_at hat.right.right.left
  have hanswer : read16 resp 6 = .ret h.answer := read16_of_at hat.right.right.right.left
  have hauthority : read16 resp 8 = .ret h.authority :=
    read16_of_at hat.right.right.right.right.left
  have hadditional : read16 resp 10 = .ret h.additional :=
    read16_of_at hat.right.right.right.right.right
  simp only [parseHeader, read16_of_at hat.left, hflags, hquestions, hanswer, hauthority,
    hadditional, Run.ret_bind]

theorem Label.toNat_length (l : Label) :
    (BitVec.ofNat 8 l.octets.length).toNat = l.octets.length := by
  have := l.length_le
  rw [BitVec.toNat_ofNat]
  omega

theorem Label.length_ne_zero (l : Label) : l.octets.length ≠ 0 :=
  fun h => l.ne_nil (List.length_eq_zero_iff.mp h)

theorem skipName_of_at {labels : List Label}
    (h : At resp p (labels.flatMap Label.encode ++ [0])) :
    Returns (fun n => skipName resp n p)
      (p + (labels.flatMap Label.encode ++ [0]).length) := by
  induction labels generalizing p with
  | nil =>
    refine ⟨1, ?_⟩
    simp only [skipName, readByte_eq_ret.mpr h.head, Run.ret_bind]
    rfl
  | cons l ls ih =>
    rw [List.flatMap_cons, List.append_assoc] at h ⊢
    obtain ⟨n, hn⟩ := ih h.right
    refine ⟨n + 1, ?_⟩
    simp only at hn ⊢
    rw [skipName, readByte_eq_ret.mpr h.left.head, Run.ret_bind, l.toNat_length,
      if_neg l.length_ne_zero]
    rw [List.length_append, ← Nat.add_assoc p l.encode.length]
    exact hn

/-! ## Names in full -/

/-- The labels with dots between them. -/
def dotted (labels : List Label) : List Byte := List.intercalate [46#8] (labels.map Label.octets)

theorem dotted_cons (l : Label) (ls : List Label) :
    dotted (l :: ls) = l.octets ++ if ls = [] then [] else 46#8 :: dotted ls := by
  cases ls with
  | nil => simp [dotted]
  | cons m ls => simp [dotted]

theorem not_isPointer {n : Nat} (h : n ≤ 63) : ¬ isPointer n = true := by
  have hall : ∀ i : Fin 64, ¬ isPointer i.val = true := by decide
  exact hall ⟨n, by omega⟩

/-- A label spells its octets, with a dot unless the name ends in front of the next octet. -/
theorem spells_label_of_at {l : Label} {next : Byte} {text : List Byte} (h : At resp p l.encode)
    (hnext : resp[p + l.encode.length]? = some next) :
    Spells resp p text ↔ ∃ t, Spells resp (p + l.encode.length) t ∧
      text = l.octets ++ (if next ≠ 0#8 then [46#8] else []) ++ t := by
  have hflag : resp[p]? = some (.ofNat 8 l.octets.length) := h.head
  have hlen := l.toNat_length
  have hend : p + l.encode.length = p + 1 + (BitVec.ofNat 8 l.octets.length).toNat := by
    rw [hlen, Label.encode, List.length_cons]
    omega
  have hoctets : (resp.drop (p + 1)).take (BitVec.ofNat 8 l.octets.length).toNat = l.octets := by
    rw [hlen]
    exact h.tail.take_drop
  have hzero : next.toNat ≠ 0 ↔ next ≠ 0#8 := by simp [BitVec.toNat_eq]
  rw [hend] at hnext
  rw [spells_label_iff hflag (by rw [hlen]; exact l.length_ne_zero)
    (not_isPointer (by rw [hlen]; exact l.length_le)) hnext, hend, labelText, hoctets]
  simp only [hzero]

/-- An uncompressed name spells its labels with dots between them. -/
theorem spells_of_at {labels : List Label} (h : At resp p (labels.flatMap Label.encode ++ [0])) :
    Spells resp p (dotted labels) := by
  induction labels generalizing p with
  | nil => exact .root h.head
  | cons l ls ih =>
    rw [List.flatMap_cons, List.append_assoc] at h
    -- The octet behind the label: the end of the name, or the length of the next label.
    obtain ⟨next, hnext, hzero⟩ : ∃ next, resp[p + l.encode.length]? = some next ∧
        (next = 0#8 ↔ ls = []) := by
      cases ls with
      | nil => exact ⟨_, h.right.head, by simp⟩
      | cons m ls =>
        refine ⟨_, h.right.head, ?_⟩
        simp [BitVec.toNat_eq, m.toNat_length, m.length_ne_zero]
    rw [spells_label_of_at h.left hnext]
    refine ⟨_, ih h.right, ?_⟩
    rw [dotted_cons, List.append_assoc]
    by_cases hls : ls = []
    · rw [if_neg (not_not.mpr (hzero.mpr hls)), if_pos hls, hls]
      rfl
    · rw [if_pos (mt hzero.mp hls), if_neg hls]
      rfl

theorem length_encode_question (q : Question) :
    q.encode.length = (q.labels.flatMap Label.encode ++ [0]).length + 4 := by
  unfold Question.encode
  rw [List.length_append]
  rfl

theorem skipQuestions_of_at {qs : List Question} (h : At resp p (qs.flatMap Question.encode))
    (hi : i ≤ qs.length) :
    Returns (fun n => skipQuestions n resp p i)
      (p + ((qs.take i).flatMap Question.encode).length) := by
  induction i with
  | zero => exact ⟨0, rfl⟩
  | succ i ih =>
    have hname := skipName_of_at (h.flatMap hi).left
    obtain ⟨n, hn, hm⟩ := (ih (by omega)).both (fueled_skipQuestions i) fueled_skipName hname
    refine ⟨n, ?_⟩
    simp only [skipQuestions, hn, hm, Run.ret_bind]
    rw [List.take_succ_eq_append_getElem hi, List.flatMap_append, List.flatMap_singleton]
    simp only [List.length_append, length_encode_question, Nat.add_assoc]

/-! ## Framing -/

variable {m : Message}

theorem Message.rcode_header (m : Message) : m.header.rcode = 0 := by
  rw [rcode_eq]
  exact m.rcode

theorem Message.toNat_answer (m : Message) : m.header.answer.toNat = m.answers.length :=
  (BitVec.toNat_ofNat _ _).trans (Nat.mod_eq_of_lt m.answers_lt)

theorem Message.toNat_questions (m : Message) :
    m.header.questions.toNat = m.questions.length :=
  (BitVec.toNat_ofNat _ _).trans (Nat.mod_eq_of_lt m.questions_lt)

theorem Message.at_zero (m : Message) (rest : List Byte) : At (m.encode ++ rest) 0 m.encode :=
  ⟨[], rest, rfl, rfl⟩

theorem Message.at_answer (rest : List Byte) (hi : i < m.answers.length) :
    At (m.encode ++ rest) (m.answerOffset i) (m.answers[i].encode) := by
  have h := (m.at_zero rest).right.right.flatMap hi
  rwa [Nat.zero_add] at h

theorem Message.answerOffset_succ (hi : i < m.answers.length) :
    m.answerOffset (i + 1) = m.answerOffset i + (m.answers[i].encode).length := by
  rw [answerOffset, List.take_succ_eq_append_getElem hi, List.flatMap_append,
    List.flatMap_singleton, List.length_append, ← Nat.add_assoc]
  rfl

/-- Behind the questions of a message is its first answer. -/
theorem Message.returns_skipQuestions (m : Message) (rest : List Byte) :
    Returns (fun n => skipQuestions n (m.encode ++ rest) 12 m.questions.length)
      (m.answerOffset 0) := by
  have h := skipQuestions_of_at (m.at_zero rest).right.left (Nat.le_refl _)
  rwa [List.take_length] at h

/-- The header and the questions of a message lead the loop to its first answer. -/
theorem returns_answerPtr_iff (hi : i ≤ m.answers.length) :
    Returns (fun n => answerPtr n (m.encode ++ rest) old i) (some p) ↔
      ∃ st, Returns (fun n => answerLoop n (m.encode ++ rest) old (m.answerOffset 0) i) st ∧
        st.ptr = p := by
  have hheader := parseHeader_of_at (m.at_zero rest).left
  have hskip := m.returns_skipQuestions rest
  have hreached : ¬ (m.header.rcode ≠ 0 ∨ m.header.answer.toNat < i) := by
    rw [m.rcode_header, m.toNat_answer, not_or]
    exact ⟨fun h => h rfl, by omega⟩
  have hloop : ∀ q, Fueled fun n =>
      answerLoop n (m.encode ++ rest) old q i >>= fun st => .ret (some st.ptr) :=
    fun q => (fueled_answerLoop i).bind fun _ => fueled_const _
  simp only [answerPtr, hheader, Run.ret_bind, if_neg hreached, m.toNat_questions]
  rw [returns_bind (fueled_skipQuestions _) hloop]
  constructor
  · rintro ⟨q, hq, h⟩
    rw [(fueled_skipQuestions _).returns_unique hq hskip, returns_map] at h
    obtain ⟨st, hst, hp⟩ := h
    exact ⟨st, hst, Option.some.inj hp⟩
  · rintro ⟨st, hst, rfl⟩
    exact ⟨_, hskip, returns_map.mpr ⟨st, hst, rfl⟩⟩

/-- `dnsResponseParse` comes to the answers of a message where they are exactly if each of them is
framed as one iteration expects it. -/
theorem answerPtr_iff (m : Message) (rest : List Byte) (old : Nat → Nat → Byte) :
    (∀ i ≤ m.answers.length,
      Returns (fun n => answerPtr n (m.encode ++ rest) old i) (some (m.answerOffset i))) ↔
    ∀ i (h : i < m.answers.length),
      Framed (m.encode ++ rest) (m.answerOffset i) (m.answers[i].encode).length := by
  constructor
  · intro h i hi
    obtain ⟨st, hst, hptr⟩ := (returns_answerPtr_iff (by omega)).mp (h i (by omega))
    obtain ⟨st', hst', hptr'⟩ := (returns_answerPtr_iff hi).mp (h (i + 1) hi)
    obtain ⟨st₁, hst₁, hstep⟩ :=
      (returns_bind (fueled_answerLoop i) fun _ => fueled_answerStep).mp hst'
    rw [(fueled_answerLoop i).returns_unique hst₁ hst] at hstep
    have hle := (Message.at_answer rest hi).le_length
    rw [Message.answerOffset_succ hi] at hptr'
    rw [← hptr] at hle hptr' ⊢
    exact (answerStep_iff hle).mp ⟨st', hstep, hptr'⟩
  · intro h i hi
    rw [returns_answerPtr_iff hi]
    induction i with
    | zero => exact ⟨⟨m.answerOffset 0, []⟩, ⟨0, rfl⟩, rfl⟩
    | succ i ih =>
      obtain ⟨st, hst, hptr⟩ := ih (by omega)
      have hle := (Message.at_answer rest hi).le_length
      have hframed := h i hi
      rw [← hptr] at hle hframed
      obtain ⟨st', hstep, hptr'⟩ := (answerStep_iff hle).mpr hframed
      refine ⟨st', (returns_bind (fueled_answerLoop i) fun _ => fueled_answerStep).mpr
        ⟨st, hst, hstep⟩, ?_⟩
      rw [hptr', hptr, Message.answerOffset_succ hi]

/-- A response about the host `a` whose answer has the name in full. -/
def fullOwner : Message where
  transactionId := 0x1234
  flags := 0x8180
  rcode := by decide
  questions := [⟨[⟨[97], by decide, by decide⟩], 1, 1⟩]
  questions_lt := by decide
  answers := [⟨⟨[⟨[97], by decide, by decide⟩], .root⟩, 1, 1, 60, [192, 0, 2, 1], by decide⟩]
  answers_lt := by decide
  authority := 0
  additional := 0

theorem answerPtr_fullOwner :
    ¬ ∀ i ≤ fullOwner.answers.length,
      Returns (fun n => answerPtr n (fullOwner.encode ++ []) (fun _ _ => 0) i)
        (some (fullOwner.answerOffset i)) := by
  intro h
  have hptr : answerPtr 4 (fullOwner.encode ++ []) (fun _ _ => 0) 1 = .ret (some 15391) := by decide
  exact fueled_answerPtr.not_returns hptr (by simp) (by decide) (h 1 (by decide))

/-- An answer whose name is only a pointer is framed if the names in it end. -/
theorem framed_iff_of_pointer {a : Answer} {offset : BitVec 14}
    (hat : At resp p a.encode) (howner : a.owner = ⟨[], .pointer offset⟩) :
    Framed resp p a.encode.length ↔
      NameEnds resp p ∧ (a.type = 5 → NameEnds resp (p + 12)) := by
  unfold Answer.encode at hat
  rw [howner] at hat
  have htype : read16 resp (p + 2) = .ret a.type := read16_of_at hat.right.left
  have hlen : read16 resp (p + 10) = .ret (.ofNat 16 a.data.length) :=
    read16_of_at hat.right.right.right.right.right.left
  have hwidth : 12 + (BitVec.ofNat 16 a.data.length).toNat = a.encode.length := by
    rw [BitVec.toNat_ofNat, Nat.mod_eq_of_lt a.length_lt, Answer.encode, howner]
    simp [Name.encode, NameEnd.encode]
    omega
  constructor
  · rintro ⟨h, -, htarget⟩
    exact ⟨h, fun h5 => htarget (h5 ▸ htype)⟩
  · rintro ⟨h, htarget⟩
    exact ⟨h, ⟨_, hlen, hwidth⟩, fun h5 => htarget (Run.ret.inj (htype.symm.trans h5))⟩

end Dns
end LinuxBase
