import LinuxBase.Dns.Bounds

/-!
# Freeing an answer (`dns.c`)

`freeDnsAnswer` on what `dnsResponseParse` built. A pointer is null, at an element of a block, or not
set; `free` of anything but the start of a live block, and a read of a node that is not there, are a
`fault`.

The loop goes on with `++i` in place of `i->next`. From a node it comes to the end of the node's own
block, and never to null. So the blocks are freed as they should be exactly if the response announces
no answer (`balanced_iff`).
-/

namespace LinuxBase
namespace Dns

/-- The blocks of an answer; `i` is the number of the record. -/
inductive Block where
  | dnsAnswer
  | header
  | node (i : Nat)
  | name (i : Nat)
  | data (i : Nat)
  deriving DecidableEq

/-- `elem b k` is at the element `k` of the block `b`, which starts with the element 0. -/
inductive Ptr where
  | null
  | elem (block : Block) (k : Nat)
  | unset
  deriving DecidableEq

/-- `++i`. -/
def Ptr.succ : Ptr → Ptr
  | elem b k => elem b (k + 1)
  | p => p

/-- The pointers of a `struct DnsAnswerBody`. -/
structure Node where
  name : Ptr
  data : Ptr
  next : Ptr

/-- What `freeDnsAnswer` reads: `dnsAnswer->header`, `dnsAnswer->body` and the nodes. -/
structure AnswerMem where
  header : Ptr
  body : Ptr
  nodes : Nat → Option Node

/-- `dnsAnswerBody->data`, and the block that the parser allocated for it. -/
def AnswerData.ptr (i : Nat) : AnswerData → Ptr
  | unset => .unset
  | cname _ | host _ => .elem (.data i) 0

def AnswerData.blocks (i : Nat) : AnswerData → List Block
  | unset => []
  | cname _ | host _ => [.data i]

/-- The list as `INSERT_LIST` built it, from the first answer to the last one. -/
def insertAll : List DnsAnswerBody → AnswerMem
  | [] => { header := .elem .header 0, body := .null, nodes := fun _ => none }
  | item :: rest =>
    let i := rest.length
    let mem := insertAll rest
    { mem with
      body := .elem (.node i) 0
      nodes := Function.update mem.nodes i
        (some { name := .elem (.name i) 0, data := item.data.ptr i, next := mem.body }) }

def bodyBlocks : List DnsAnswerBody → List Block
  | [] => []
  | item :: rest =>
    .node rest.length :: .name rest.length :: item.data.blocks rest.length ++ bodyBlocks rest

/-- What the parser allocated, and the `struct DnsAnswer`. -/
def DnsAnswer.blocks (answer : DnsAnswer) : List Block :=
  .dnsAnswer :: .header :: bodyBlocks answer.body

/-- `free`, with the blocks that were freed before. -/
def free (freed : List Block) : Ptr → Run (List Block)
  | .null => .ret freed
  | .elem b 0 => if b ∈ freed then .fault else .ret (b :: freed)
  | .elem _ (_ + 1) | .unset => .fault

/-- The node that `i` points to. -/
def AnswerMem.node (mem : AnswerMem) (freed : List Block) : Ptr → Run Node
  | .elem (.node i) 0 => if .node i ∈ freed then .fault else .ofOption (mem.nodes i)
  | _ => .fault

/-- The loop of `freeDnsAnswer`. -/
def freeLoop (mem : AnswerMem) : Nat → Ptr → List Block → Run (List Block)
  | 0, _, _ => .more
  | fuel + 1, i, freed =>
    if i = .null then .ret freed
    else do
      let node ← mem.node freed i
      let freed ← free freed node.name
      let node ← mem.node freed i
      let freed ← free freed node.data
      let freed ← free freed i
      freeLoop mem fuel i.succ freed

/-- `freeDnsAnswer`; it returns what it gave to `free`. -/
def freeDnsAnswer (fuel : Nat) (mem : AnswerMem) : Run (List Block) := do
  let freed ← freeLoop mem fuel mem.body []
  let freed ← free freed mem.header
  free freed (.elem .dnsAnswer 0)

/-- `freeDnsAnswer` frees each block of the answer once and nothing else, and returns. -/
def Balanced (answer : DnsAnswer) : Prop :=
  ∃ freed, Returns (fun n => freeDnsAnswer n (insertAll answer.body)) freed ∧ freed.Nodup ∧
    ∀ b, b ∈ freed ↔ b ∈ answer.blocks

variable {resp : List Byte} {old : Nat → Nat → Byte} {mem : AnswerMem} {answer : DnsAnswer}
variable {body : List DnsAnswerBody} {item : DnsAnswerBody} {i : Ptr} {freed : List Block}

/-! ## The loop -/

theorem Ptr.succ_ne_null (h : i ≠ .null) : i.succ ≠ .null := by
  cases i with
  | null => exact h
  | elem b k => nofun
  | unset => exact h

/-- A loop that starts at a node does not come to its end. -/
theorem freeLoop_ne_ret {fuel : Nat} {freed' : List Block} (h : i ≠ .null) :
    freeLoop mem fuel i freed ≠ .ret freed' := by
  induction fuel generalizing i freed with
  | zero => nofun
  | succ fuel ih =>
    intro hn
    rw [freeLoop, if_neg h] at hn
    obtain ⟨_, -, hn⟩ := Run.bind_eq_ret.mp hn
    obtain ⟨_, -, hn⟩ := Run.bind_eq_ret.mp hn
    obtain ⟨_, -, hn⟩ := Run.bind_eq_ret.mp hn
    obtain ⟨_, -, hn⟩ := Run.bind_eq_ret.mp hn
    obtain ⟨_, -, hn⟩ := Run.bind_eq_ret.mp hn
    exact ih (Ptr.succ_ne_null h) hn

/-- Where there is an answer, the second iteration at the latest leaves the defined behaviour: it
reads a node behind the first one. -/
theorem freeDnsAnswer_fault : freeDnsAnswer 2 (insertAll (item :: body)) = .fault := by
  obtain ⟨name, qType, qClass, ttl, dataLen, data⟩ := item
  cases data <;>
    simp [freeDnsAnswer, freeLoop, insertAll, AnswerMem.node, free, AnswerData.ptr, Ptr.succ]

theorem not_balanced (h : answer.body ≠ []) : ¬ Balanced answer := by
  rintro ⟨freed, ⟨n, hn⟩, -⟩
  obtain ⟨item, body, hbody⟩ := List.exists_cons_of_ne_nil h
  obtain ⟨_, hloop, -⟩ := Run.bind_eq_ret.mp hn
  rw [hbody] at hloop
  exact freeLoop_ne_ret (by rw [insertAll]; nofun) hloop

theorem balanced_of_nil (h : answer.body = []) : Balanced answer := by
  refine ⟨[.dnsAnswer, .header], ⟨1, ?_⟩, by decide, fun b => ?_⟩
  · simp only [h]
    rfl
  · rw [DnsAnswer.blocks, h, bodyBlocks]

/-! ## The response -/

/-- The parser builds one node for each answer. -/
theorem length_body {n k p : Nat} {st : AnswerState} (h : answerLoop n resp old p k = .ret st) :
    st.body.length = k := by
  induction k generalizing st with
  | zero =>
    cases h
    rfl
  | succ k ih =>
    obtain ⟨st₀, hloop, hstep⟩ := Run.bind_eq_ret.mp h
    obtain ⟨_, -, hstep⟩ := Run.bind_eq_ret.mp hstep
    obtain ⟨_, -, hstep⟩ := Run.bind_eq_ret.mp hstep
    obtain ⟨_, -, hstep⟩ := Run.bind_eq_ret.mp hstep
    obtain ⟨_, -, hstep⟩ := Run.bind_eq_ret.mp hstep
    obtain ⟨_, -, hstep⟩ := Run.bind_eq_ret.mp hstep
    obtain ⟨_, -, hstep⟩ := Run.bind_eq_ret.mp hstep
    cases hstep
    rw [List.length_cons, ih hloop]

/-- What a parse that returns 0 leaves in `*dnsAnswer`. -/
theorem exists_answer {n : Nat} {parsed : Parsed}
    (h : dnsResponseParse n (some resp) old = .ret parsed) (hret : parsed.ret = 0) :
    ∃ answer, parsed.answer = some answer ∧
      answer.body.length = (headerOf resp).answer.toNat := by
  have hle : 12 ≤ resp.length := by
    obtain ⟨_, hheader, -⟩ := Run.bind_eq_ret.mp h
    exact le_of_parseHeader hheader
  by_cases hrcode : (headerOf resp).rcode ≠ 0
  · obtain ⟨parsed', hparsed, hne⟩ := dnsResponseParse_of_rcode old hle hrcode n
    rw [hparsed] at h
    cases h
    exact absurd hret hne
  simp only [dnsResponseParse, parseHeader_eq hle, Run.ret_bind, if_neg hrcode] at h
  obtain ⟨_, -, h⟩ := Run.bind_eq_ret.mp h
  obtain ⟨st, hloop, h⟩ := Run.bind_eq_ret.mp h
  cases h
  exact ⟨_, rfl, length_body hloop⟩

/-- The blocks of a response that was parsed are freed as they should be exactly if it announces no
answer. -/
theorem balanced_iff {parsed : Parsed}
    (h : Returns (fun n => dnsResponseParse n (some resp) old) parsed) (hret : parsed.ret = 0) :
    ∃ answer, parsed.answer = some answer ∧
      (Balanced answer ↔ (headerOf resp).answer = 0) := by
  obtain ⟨n, hn⟩ := h
  obtain ⟨answer, hanswer, hlen⟩ := exists_answer hn hret
  refine ⟨answer, hanswer, ?_⟩
  have hnil : (headerOf resp).answer = 0 ↔ answer.body = [] := by
    rw [← List.length_eq_zero_iff, hlen]
    exact ⟨fun h => by rw [h]; rfl, fun h => BitVec.eq_of_toNat_eq h⟩
  rw [hnil]
  exact ⟨fun hb => by_contra fun hne => not_balanced hne hb, balanced_of_nil⟩

/-- A header alone, with no answer, and one with an alias and the address of it. -/
theorem balanced_iff_header :
    let empty : List Byte := [0x12, 0x34, 0x81, 0x80, 0, 0, 0, 0, 0, 0, 0, 0]
    let two : List Byte := [0x12, 0x34, 0x81, 0x80, 0, 1, 0, 2, 0, 0, 0, 0,
      1, 0x61, 0, 0, 1, 0, 1,
      0xC0, 12, 0, 5, 0, 1, 0, 0, 0, 60, 0, 3, 1, 0x62, 0,
      0xC0, 31, 0, 1, 0, 1, 0, 0, 0, 60, 0, 4, 127, 0, 0, 1]
    (∃ answer, (dnsResponseParse 1 (some empty) fun _ _ => 0) =
      .ret { ret := 0, answer := some answer } ∧ Balanced answer) ∧
    ∃ answer, (dnsResponseParse 4 (some two) fun _ _ => 0) =
      .ret { ret := 0, answer := some answer } ∧ answer.body.length = 2 ∧ ¬ Balanced answer := by
  intro empty two
  have hempty : ∃ body, (dnsResponseParse 1 (some empty) fun _ _ => 0) =
      .ret { ret := 0, answer := some { header := headerOf empty, body } } := ⟨[], rfl⟩
  have htwo : ∃ body, (dnsResponseParse 4 (some two) fun _ _ => 0) =
      .ret { ret := 0, answer := some { header := headerOf two, body } } ∧ body.length = 2 :=
    ⟨_, rfl, rfl⟩
  obtain ⟨body, hempty⟩ := hempty
  obtain ⟨body', htwo, hlen⟩ := htwo
  obtain ⟨answer, hanswer, hiff⟩ := balanced_iff ⟨1, hempty⟩ rfl
  obtain ⟨answer', hanswer', hiff'⟩ := balanced_iff ⟨4, htwo⟩ rfl
  cases hanswer
  cases hanswer'
  exact ⟨⟨_, hempty, hiff.mpr (by decide)⟩, _, htwo, hlen, hiff'.not.mpr (by decide)⟩

/-- The answer to a request for the address of `a`. -/
theorem not_balanced_address :
    let resp : List Byte := [0x12, 0x34, 0x81, 0x80, 0, 1, 0, 1, 0, 0, 0, 0,
      1, 0x61, 0, 0, 1, 0, 1,
      0xC0, 12, 0, 1, 0, 1, 0, 0, 0, 60, 0, 4, 127, 0, 0, 1]
    ∃ parsed answer, (dnsResponseParse 3 (some resp) fun _ _ => 0) = .ret parsed ∧
      parsed.ret = 0 ∧ parsed.answer = some answer ∧ ¬ Balanced answer :=
  ⟨_, _, rfl, rfl, rfl, not_balanced nofun⟩

end Dns
end LinuxBase
