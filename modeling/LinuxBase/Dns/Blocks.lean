import LinuxBase.Lib.Monitor
import LinuxBase.Dns.Bounds
import LinuxBase.Dns.Contents

/-!
# The blocks of an answer (`dns.c`)

`dnsResponseParse` and `dnsParseName` with checks of the blocks that they write to. `writeIn` checks
that a write is inside its block, and `filled` that a block that was written has a NUL in it. A block
has 128 octets for a name, 255 for the target of a `CNAME`, and `sizeof(int)` for an address.

* The checks apart, this is the parser of `LinuxBase.Dns.Response` (`follows_dnsResponseParseIn`); a
  read behind the end of the response ends the run there, too.
* `Overflows` and `NameFits` say from the octets when `dnsParseName` passes the checks. The text of an
  address never fits.
* An answer fits if its name and data do (`AnswerFits`), and the parser passes the checks if each
  answer that it comes to fits (`quiet_iff`).
-/

namespace LinuxBase
namespace Dns

open Walk

/-- What a check finds. -/
inductive Misuse where
  /-- A write that leaves its block. -/
  | outside
  /-- A block without a NUL in it. -/
  | unterminated
  deriving DecidableEq

/-- A write into a block of `size` octets. -/
def Out.writeIn (size : Nat) (out : Out) (pos : Nat) (bs : List Byte) : ExceptT Misuse Run Out :=
  if pos + bs.length ≤ size then pure (out.write pos bs) else throw .outside

/-- A block of `size` octets, behind the last write to it. -/
def Out.filled (size : Nat) (out : Out) : ExceptT Misuse Run Out :=
  if ∃ i < size, out.data i = 0#8 then pure out else throw .unterminated

/-- The `while (1)` of `dnsParseName`. -/
def nameLoopIn (size : Nat) (resp : List Byte) :
    Nat → Nat → Nat → Out → Nat → ExceptT Misuse Run (Out × Nat)
  | 0, _, _, _, _ => liftM (Run.more : Run (Out × Nat))
  | fuel + 1, ptr, pos, out, len => do
    let flag ← readByte resp ptr
    if flag.toNat = 0 then pure (out, len)
    else if isPointer flag.toNat then
      let n ← readByte resp (ptr + 1)
      nameLoopIn size resp fuel n.toNat len out len
    else
      let label ← readBytes resp (ptr + 1) flag.toNat
      let out ← out.writeIn size pos label
      let pos := pos + flag.toNat
      let ptr := ptr + 1 + flag.toNat
      let len := len + flag.toNat
      let next ← readByte resp ptr
      if next.toNat ≠ 0 then
        let out ← out.writeIn size pos [46#8]
        nameLoopIn size resp fuel ptr (pos + 1) out (len + 1)
      else nameLoopIn size resp fuel ptr pos out len

/-- `dnsParseName` into a block of `size` octets. -/
def dnsParseNameIn (size fuel : Nat) (resp : List Byte) (ptr : Nat) (out : Out) (len : Nat) :
    ExceptT Misuse Run (Out × Nat) :=
  nameLoopIn size resp fuel ptr len out len

/-- The `switch` on the type of the record, with the `malloc` of each case. -/
def parseDataIn (fuel : Nat) (resp : List Byte) (old : Nat → Byte) (ptr : Nat)
    (qType dataLen : BitVec 16) : ExceptT Misuse Run AnswerData :=
  if qType = 0x05 then do
    let (out, _) ← dnsParseNameIn 255 fuel resp ptr { data := old } 0
    let out ← out.filled 255
    pure (.cname out)
  else if qType = 0x01 then
    if dataLen = 4 then do
      let bs ← readBytes resp ptr dataLen.toNat
      let out ← Out.writeIn 4 { data := old } 0 bs
      let out ← out.writeIn 4 0 (inetNtop bs)
      let out ← out.filled 4
      pure (.host out)
    else pure .unset
  else pure .unset

/-- The body of the loop over the answers. -/
def answerStepIn (fuel : Nat) (resp : List Byte) (old : Nat → Nat → Byte) (i : Nat)
    (st : AnswerState) : ExceptT Misuse Run AnswerState := do
  let (name, _) ← dnsParseNameIn 128 fuel resp st.ptr { data := old (2 * i) } 0
  let name ← name.filled 128
  let ptr := st.ptr + 2
  let qType ← read16 resp ptr
  let ptr := ptr + 2
  let qClass ← read16 resp ptr
  let ptr := ptr + 2
  let ttl ← read16 resp ptr
  let ptr := ptr + 4
  let dataLen ← read16 resp ptr
  let ptr := ptr + 2
  let data ← parseDataIn fuel resp (old (2 * i + 1)) ptr qType dataLen
  pure { ptr := ptr + dataLen.toNat, body := { name, qType, qClass, ttl, dataLen, data } :: st.body }

def answerLoopIn (fuel : Nat) (resp : List Byte) (old : Nat → Nat → Byte) (ptr : Nat) :
    Nat → ExceptT Misuse Run AnswerState
  | 0 => pure { ptr, body := [] }
  | i + 1 => do
    let st ← answerLoopIn fuel resp old ptr i
    answerStepIn fuel resp old i st

def dnsResponseParseIn (fuel : Nat) (response : Option (List Byte)) (old : Nat → Nat → Byte) :
    ExceptT Misuse Run Parsed :=
  match response with
  | none => pure { ret := -1 }
  | some resp => do
    let header ← parseHeader resp
    if header.rcode ≠ 0 then
      if header.rcode = 2 then pure { ret := -2, perror := some "name error" }
      else if header.rcode = 3 then pure { ret := -2, perror := some "server error" }
      else pure { ret := -2 }
    else
      let ptr ← skipQuestions fuel resp 12 header.questions.toNat
      let st ← answerLoopIn fuel resp old ptr header.answer.toNat
      pure { ret := 0, answer := some { header, body := st.body } }

variable {resp : List Byte} {old : Nat → Nat → Byte} {size fuel ptr pos len p q i k : Nat}
  {out : Out} {st : AnswerState} {bs text : List Byte}

/-! ## With and without the checks -/

theorem follows_writeIn : Follows (out.writeIn size pos bs) (.ret (out.write pos bs)) := by
  unfold Out.writeIn
  split
  · exact .ret _
  · exact .error _ _

theorem follows_filled : Follows (out.filled size) (.ret out) := by
  unfold Out.filled
  split
  · exact .ret _
  · exact .error _ _

theorem follows_nameLoopIn :
    Follows (nameLoopIn size resp fuel ptr pos out len) (nameLoop resp fuel ptr pos out len) := by
  induction fuel generalizing ptr pos out len with
  | zero => exact .more
  | succ fuel ih =>
    rw [nameLoopIn, nameLoop]
    refine (follows_lift _).bind fun flag => ?_
    by_cases h0 : flag.toNat = 0
    · rw [if_pos h0, if_pos h0]
      exact .ret _
    rw [if_neg h0, if_neg h0]
    by_cases hp : isPointer flag.toNat = true
    · rw [if_pos hp, if_pos hp]
      exact (follows_lift _).bind fun n => ih
    rw [if_neg hp, if_neg hp]
    refine (follows_lift _).bind fun label => follows_writeIn.check ?_
    refine (follows_lift _).bind fun next => ?_
    by_cases hn : next.toNat ≠ 0
    · rw [if_pos hn, if_pos hn]
      exact follows_writeIn.check ih
    · rw [if_neg hn, if_neg hn]
      exact ih

theorem follows_parseDataIn {old : Nat → Byte} {qType dataLen : BitVec 16} :
    Follows (parseDataIn fuel resp old ptr qType dataLen)
      (parseData fuel resp old ptr qType dataLen) := by
  unfold parseDataIn parseData
  by_cases h5 : qType = 0x05
  · rw [if_pos h5, if_pos h5]
    exact follows_nameLoopIn.bind fun r => follows_filled.check (.ret _)
  rw [if_neg h5, if_neg h5]
  by_cases h1 : qType = 0x01
  · rw [if_pos h1, if_pos h1]
    by_cases h4 : dataLen = 4
    · rw [if_pos h4, if_pos h4]
      exact (follows_lift _).bind fun bs =>
        follows_writeIn.check (follows_writeIn.check (follows_filled.check (.ret _)))
    · rw [if_neg h4, if_neg h4]
      exact .ret _
  · rw [if_neg h1, if_neg h1]
    exact .ret _

theorem follows_answerStepIn :
    Follows (answerStepIn fuel resp old i st) (answerStep fuel resp old i st) :=
  follows_nameLoopIn.bind fun _ => follows_filled.check <| (follows_lift _).bind fun _ =>
    (follows_lift _).bind fun _ => (follows_lift _).bind fun _ => (follows_lift _).bind fun _ =>
      follows_parseDataIn.bind fun _ => .ret _

theorem follows_answerLoopIn (k : Nat) :
    Follows (answerLoopIn fuel resp old ptr k) (answerLoop fuel resp old ptr k) := by
  induction k with
  | zero => exact .ret _
  | succ k ih => exact ih.bind fun _ => follows_answerStepIn

/-- The checks apart, the parser with checks is the parser. -/
theorem follows_dnsResponseParseIn (fuel : Nat) (response : Option (List Byte))
    (old : Nat → Nat → Byte) :
    Follows (dnsResponseParseIn fuel response old) (dnsResponseParse fuel response old) := by
  cases response with
  | none => exact .ret _
  | some resp =>
    refine (follows_lift _).bind fun header => ?_
    by_cases hrcode : header.rcode ≠ 0
    · rw [if_pos hrcode, if_pos hrcode]
      by_cases h2 : header.rcode = 2
      · rw [if_pos h2, if_pos h2]
        exact .ret _
      rw [if_neg h2, if_neg h2]
      by_cases h3 : header.rcode = 3
      · rw [if_pos h3, if_pos h3]
        exact .ret _
      · rw [if_neg h3, if_neg h3]
        exact .ret _
    · rw [if_neg hrcode, if_neg hrcode]
      exact (follows_lift _).bind fun _ => (follows_answerLoopIn _).bind fun _ => .ret _

/-! ## Fuel -/

theorem fueled_nameLoopIn : Fueled fun n => (nameLoopIn size resp n ptr pos out len).run := by
  intro n hn
  induction n generalizing ptr pos out len with
  | zero => exact absurd rfl hn
  | succ n ih =>
    simp only at hn ⊢
    rw [nameLoopIn] at hn
    rw [nameLoopIn, nameLoopIn]
    refine run_bind_stable hn fun flag hn => ?_
    refine run_ite_stable hn (fun _ => rfl) fun hn => ?_
    refine run_ite_stable hn (fun hn => run_bind_stable hn fun n hn => ih hn) fun hn => ?_
    refine run_bind_stable hn fun label hn => run_bind_stable hn fun out hn =>
      run_bind_stable hn fun next hn => ?_
    exact run_ite_stable hn (fun hn => run_bind_stable hn fun out hn => ih hn) fun hn => ih hn

theorem fueled_dnsParseNameIn : Fueled fun n => (dnsParseNameIn size n resp ptr out len).run :=
  fueled_nameLoopIn

theorem fueled_parseDataIn {old : Nat → Byte} {qType dataLen : BitVec 16} :
    Fueled fun n => (parseDataIn n resp old ptr qType dataLen).run := by
  by_cases h5 : qType = 0x05
  · simp only [parseDataIn, if_pos h5]
    exact fueled_monitor_bind fueled_nameLoopIn fun _ => fueled_const _
  · simp only [parseDataIn, if_neg h5]
    exact fueled_const _

theorem fueled_answerStepIn : Fueled fun n => (answerStepIn n resp old i st).run :=
  fueled_monitor_bind fueled_nameLoopIn fun _ => fueled_monitor_bind (fueled_const _) fun _ =>
    fueled_monitor_bind (fueled_const _) fun _ => fueled_monitor_bind (fueled_const _) fun _ =>
      fueled_monitor_bind (fueled_const _) fun _ => fueled_monitor_bind (fueled_const _) fun _ =>
        fueled_monitor_bind fueled_parseDataIn fun _ => fueled_const _

theorem fueled_answerLoopIn (k : Nat) : Fueled fun n => (answerLoopIn n resp old ptr k).run := by
  induction k with
  | zero => exact fueled_const _
  | succ k ih => exact fueled_monitor_bind ih fun _ => fueled_answerStepIn

/-! ## Names -/

/-- From the octets at `p` on, with `k` octets written before, a write leaves the block. -/
inductive Overflows (resp : List Byte) (size : Nat) : Nat → Nat → Prop
  | octets {p k : Nat} {flag : Byte} (hflag : resp[p]? = some flag) (h0 : flag.toNat ≠ 0)
      (hp : ¬ isPointer flag.toNat = true) (hle : p + 1 + flag.toNat ≤ resp.length)
      (h : size < k + flag.toNat) : Overflows resp size p k
  | dot {p k : Nat} {flag next : Byte} (hflag : resp[p]? = some flag) (h0 : flag.toNat ≠ 0)
      (hp : ¬ isPointer flag.toNat = true) (hnext : resp[p + 1 + flag.toNat]? = some next)
      (hn : next.toNat ≠ 0) (h : size < k + flag.toNat + 1) : Overflows resp size p k
  | pointer {p k : Nat} {flag n : Byte} (hflag : resp[p]? = some flag)
      (hp : isPointer flag.toNat = true) (hn : resp[p + 1]? = some n)
      (h : Overflows resp size n.toNat k) : Overflows resp size p k
  | label {p k : Nat} {flag next : Byte} (hflag : resp[p]? = some flag) (h0 : flag.toNat ≠ 0)
      (hp : ¬ isPointer flag.toNat = true) (hnext : resp[p + 1 + flag.toNat]? = some next)
      (h : Overflows resp size (p + 1 + flag.toNat) (k + (labelText resp p flag next).length)) :
      Overflows resp size p k

theorem writeIn_bind_eq_error {β : Type} {g : Out → ExceptT Misuse Run β} {e : Misuse} :
    (out.writeIn size pos bs >>= g).run = .ret (.error e) ↔
      if pos + bs.length ≤ size then (g (out.write pos bs)).run = .ret (.error e)
      else e = .outside := by
  unfold Out.writeIn
  by_cases h : pos + bs.length ≤ size
  · rw [if_pos h, if_pos h]
    rfl
  · rw [if_neg h, if_neg h]
    exact ⟨fun h => by cases h; rfl, fun h => by rw [h]; rfl⟩

theorem readBytes_eq_ret {n : Nat} (h : readBytes resp p n = .ret bs) :
    p + n ≤ resp.length ∧ bs = (resp.drop p).take n ∧ bs.length = n := by
  unfold readBytes at h
  split at h
  · cases h
    refine ⟨‹_›, rfl, ?_⟩
    rw [List.length_take, List.length_drop]
    omega
  · cases h

theorem length_labelText {flag next : Byte} (hnext : resp[p + 1 + flag.toNat]? = some next) :
    (labelText resp p flag next).length = flag.toNat + if next.toNat ≠ 0 then 1 else 0 := by
  rw [labelText, List.length_append, length_take_drop hnext]
  split <;> rfl

theorem overflows_of_error {e : Misuse}
    (h : (nameLoopIn size resp fuel ptr pos out pos).run = .ret (.error e)) :
    Overflows resp size ptr pos := by
  induction fuel generalizing ptr pos out with
  | zero => cases h
  | succ fuel ih =>
    rw [nameLoopIn] at h
    obtain ⟨flag, hflag, h⟩ := run_lift_bind_eq_error.mp h
    have hflag := readByte_eq_ret.mp hflag
    by_cases h0 : flag.toNat = 0
    · rw [if_pos h0] at h
      cases h
    rw [if_neg h0] at h
    by_cases hp : isPointer flag.toNat = true
    · rw [if_pos hp] at h
      obtain ⟨n, hn, h⟩ := run_lift_bind_eq_error.mp h
      exact .pointer hflag hp (readByte_eq_ret.mp hn) (ih h)
    rw [if_neg hp] at h
    obtain ⟨label, hlabel, h⟩ := run_lift_bind_eq_error.mp h
    obtain ⟨hle, -, hlen⟩ := readBytes_eq_ret hlabel
    rw [writeIn_bind_eq_error, hlen] at h
    by_cases hfit : pos + flag.toNat ≤ size
    swap
    · exact .octets hflag h0 hp hle (by omega)
    rw [if_pos hfit] at h
    obtain ⟨next, hnext, h⟩ := run_lift_bind_eq_error.mp h
    have hnext := readByte_eq_ret.mp hnext
    have htext := length_labelText hnext
    by_cases hn : next.toNat ≠ 0
    · rw [if_pos hn, writeIn_bind_eq_error, List.length_singleton] at h
      by_cases hdot : pos + flag.toNat + 1 ≤ size
      · rw [if_pos hdot] at h
        rw [if_pos hn] at htext
        refine .label hflag h0 hp hnext ?_
        rw [htext, ← Nat.add_assoc]
        exact ih h
      · exact .dot hflag h0 hp hnext hn (by omega)
    · rw [if_neg hn] at h htext
      refine .label hflag h0 hp hnext ?_
      rw [htext]
      exact ih h

/-- One round of the loop at a label. -/
theorem nameLoopIn_label {flag next : Byte} (hflag : resp[ptr]? = some flag) (h0 : flag.toNat ≠ 0)
    (hp : ¬ isPointer flag.toNat = true) (hnext : resp[ptr + 1 + flag.toNat]? = some next) :
    nameLoopIn size resp (fuel + 1) ptr pos out pos =
      if pos + (labelText resp ptr flag next).length ≤ size then
        nameLoopIn size resp fuel (ptr + 1 + flag.toNat)
          (pos + (labelText resp ptr flag next).length)
          (out.write pos (labelText resp ptr flag next))
          (pos + (labelText resp ptr flag next).length)
      else throw .outside := by
  have hlen := length_take_drop hnext
  have htext := length_labelText hnext
  rw [nameLoopIn, readByte_eq_ret.mpr hflag, lift_ret_bind, if_neg h0, if_neg hp,
    readBytes_of_lt hnext, lift_ret_bind]
  simp only [readByte_eq_ret.mpr hnext, lift_ret_bind, Out.writeIn, hlen, List.length_singleton]
  by_cases hn : next.toNat ≠ 0
  · have hdot := out.write_append pos ((resp.drop (ptr + 1)).take flag.toNat) [46#8]
    rw [hlen] at hdot
    have hwrite : out.write pos (labelText resp ptr flag next) =
        (out.write pos ((resp.drop (ptr + 1)).take flag.toNat)).write (pos + flag.toNat) [46#8] := by
      rw [labelText, if_pos hn, ← hdot]
    have hend : pos + (labelText resp ptr flag next).length = pos + flag.toNat + 1 := by
      rw [htext, if_pos hn, Nat.add_assoc]
    simp only [hwrite, hend, if_pos hn]
    by_cases hfit : pos + flag.toNat + 1 ≤ size
    · simp only [if_pos (show pos + flag.toNat ≤ size by omega), if_pos hfit]
      rfl
    · simp only [if_neg hfit]
      split <;> rfl
  · simp only [labelText, if_neg hn, List.append_nil, hlen]
    split <;> rfl

theorem error_of_overflows (h : Overflows resp size ptr pos) (out : Out) :
    ∃ n, (nameLoopIn size resp n ptr pos out pos).run = .ret (.error .outside) := by
  induction h generalizing out with
  | @octets p k flag hflag h0 hp hle h =>
    refine ⟨1, ?_⟩
    rw [nameLoopIn, readByte_eq_ret.mpr hflag, lift_ret_bind, if_neg h0, if_neg hp, readBytes,
      if_pos hle, lift_ret_bind, writeIn_bind_eq_error, if_neg]
    rw [List.length_take, List.length_drop]
    omega
  | @dot p k flag next hflag h0 hp hnext hn h =>
    refine ⟨1, ?_⟩
    rw [nameLoopIn_label hflag h0 hp hnext, length_labelText hnext, if_pos hn, if_neg (by omega)]
    rfl
  | @pointer p k flag n hflag hp hn _ ih =>
    obtain ⟨fuel, h⟩ := ih out
    have h0 : flag.toNat ≠ 0 := fun h0 => by rw [h0] at hp; cases hp
    refine ⟨fuel + 1, ?_⟩
    rw [nameLoopIn, readByte_eq_ret.mpr hflag, lift_ret_bind, if_neg h0, if_pos hp,
      readByte_eq_ret.mpr hn, lift_ret_bind]
    exact h
  | @label p k flag next hflag h0 hp hnext _ ih =>
    obtain ⟨fuel, h⟩ := ih (out.write k (labelText resp p flag next))
    refine ⟨fuel + 1, ?_⟩
    rw [nameLoopIn_label hflag h0 hp hnext]
    split
    · exact h
    · rfl

theorem quiet_nameLoopIn : Quiet (fun n => nameLoopIn size resp n ptr pos out pos) ↔
    ¬ Overflows resp size ptr pos := by
  constructor
  · intro h ho
    obtain ⟨n, hn⟩ := error_of_overflows ho out
    exact h n _ hn
  · exact fun h n e hn => h (overflows_of_error hn)

/-- The name at `p` stays inside a block of `size` octets and puts a NUL into it. -/
structure NameFits (resp : List Byte) (size p : Nat) : Prop where
  inside : ¬ Overflows resp size p 0
  nul : ∀ text, Spells resp p text → 0#8 ∈ text

/-- A name that does not overflow is no longer than its block. -/
theorem length_le_of_spells (h : Spells resp p text) (hk : ¬ Overflows resp size p k)
    (hle : k ≤ size) : k + text.length ≤ size := by
  induction h generalizing k with
  | root => exact hle
  | pointer hflag hp hn _ ih => exact ih (fun ho => hk (.pointer hflag hp hn ho)) hle
  | @label p flag next text hflag h0 hp hnext _ ih =>
    have hlt := (List.getElem?_eq_some_iff.mp hnext).1
    have htext := length_labelText hnext
    have hfit : k + (labelText resp p flag next).length ≤ size := by
      by_contra hlong
      by_cases hn : next.toNat ≠ 0
      · rw [if_pos hn] at htext
        exact hk (.dot hflag h0 hp hnext hn (by omega))
      · rw [if_neg hn] at htext
        exact hk (.octets hflag h0 hp (by omega) (by omega))
    have h := ih (fun ho => hk (.label hflag h0 hp hnext ho)) hfit
    rwa [List.length_append, ← Nat.add_assoc]

/-! ## Answers -/

/-- There is a NUL in a new block of `size` octets behind the write of `text`. -/
def HasNul (size : Nat) (old : Nat → Byte) (text : List Byte) : Prop :=
  ∃ i < size, (Out.write { data := old } 0 text).data i = 0#8

/-- Only the text can be relied on for a NUL. -/
theorem hasNul_of_mem {old : Nat → Byte} (hle : text.length ≤ size) (h : 0#8 ∈ text) :
    HasNul size old text := by
  obtain ⟨i, hi, hget⟩ := List.mem_iff_getElem.mp h
  refine ⟨i, by omega, ?_⟩
  simp [Out.write, List.getElem?_eq_getElem hi, hget]

theorem mem_of_hasNul (h : HasNul size (fun _ => 1) text) : 0#8 ∈ text := by
  obtain ⟨i, -, h⟩ := h
  by_cases hi : i < text.length
  · rw [List.mem_iff_getElem]
    refine ⟨i, hi, ?_⟩
    simpa [Out.write, List.getElem?_eq_getElem hi] using h
  · simp [Out.write, List.getElem?_eq_none (Nat.le_of_not_lt hi)] at h

theorem quiet_filled_bind {β : Type} {g : Nat → Out → ExceptT Misuse Run β} :
    Quiet (fun n => out.filled size >>= g n) ↔
      (∃ i < size, out.data i = 0#8) ∧ Quiet fun n => g n out := by
  by_cases h : ∃ i < size, out.data i = 0#8
  · have hout : out.filled size = pure out := if_pos h
    simp only [hout, quiet_pure_bind]
    exact (and_iff_right h).symm
  · have hout : out.filled size = throw .unterminated := if_neg h
    simp only [hout]
    exact iff_of_false not_quiet_throw_bind fun hq => h hq.1

/-- The call for a name in a new block, the check of the block, and what follows. -/
theorem quiet_name_bind {β : Type} {old : Nat → Byte} {g : Nat → Out → ExceptT Misuse Run β}
    (hg : ∀ a, Fueled fun n => (g n a).run) :
    Quiet (fun n => dnsParseNameIn size n resp p { data := old } 0 >>= fun r =>
        r.1.filled size >>= g n) ↔
      ¬ Overflows resp size p 0 ∧ ∀ text, Spells resp p text →
        HasNul size old text ∧ Quiet fun n => g n (Out.write { data := old } 0 text) := by
  have hfilled : ∀ r : Out × Nat, Fueled fun n => (r.1.filled size >>= g n).run := fun r =>
    fueled_monitor_bind (fueled_const _) hg
  rw [quiet_bind fueled_dnsParseNameIn hfilled]
  refine (and_congr_left' quiet_nameLoopIn).trans (and_congr_right fun ho => ?_)
  have hyields : ∀ r, Yields (fun n => dnsParseNameIn size n resp p { data := old } 0) r ↔
      ∃ text, Spells resp p text ∧ r = (Out.write { data := old } 0 text, 0 + text.length) := by
    intro r
    rw [← dnsParseName_returns_iff (Nat.zero_le _)]
    exact Follows.yields_iff (fun n => follows_nameLoopIn) (quiet_nameLoopIn.mpr ho)
  simp only [hyields, quiet_filled_bind]
  constructor
  · exact fun h text htext => h _ ⟨text, htext, rfl⟩
  · rintro h r ⟨text, htext, rfl⟩
    exact h text htext

/-- The text of an address is longer than its block. -/
theorem quiet_address {old : Nat → Byte} :
    Quiet (fun n => parseDataIn n resp old p 1 4) ↔ ¬ p + 4 ≤ resp.length := by
  have hparse : ∀ n, parseDataIn n resp old p 1 4 = (do
      let bs ← readBytes resp p 4
      let out ← Out.writeIn 4 { data := old } 0 bs
      let out ← out.writeIn 4 0 (inetNtop bs)
      let out ← out.filled 4
      pure (.host out)) := fun _ => rfl
  simp only [hparse]
  by_cases hle : p + 4 ≤ resp.length
  · have hbytes : readBytes resp p 4 = .ret ((resp.drop p).take 4) := if_pos hle
    have hfour : ((resp.drop p).take 4).length = 4 := by
      rw [List.length_take, List.length_drop]
      omega
    have hlong := length_inetNtop hfour
    refine iff_of_false (fun hq => hq 0 .outside ?_) fun h => h hle
    simp only [hbytes, lift_ret_bind]
    rw [writeIn_bind_eq_error, if_pos (by omega), writeIn_bind_eq_error, if_neg (by omega)]
  · have hbytes : readBytes resp p 4 = .fault := if_neg hle
    simp only [hbytes, lift_fault_bind]
    exact iff_of_true (fun _ _ h => nomatch h) hle

theorem quiet_parseDataIn {old : Nat → Byte} {qType dataLen : BitVec 16} :
    Quiet (fun n => parseDataIn n resp old p qType dataLen) ↔
      (qType = 5 → ¬ Overflows resp 255 p 0 ∧ ∀ text, Spells resp p text → HasNul 255 old text) ∧
      (qType = 1 → dataLen = 4 → ¬ p + 4 ≤ resp.length) := by
  by_cases h5 : qType = 0x05
  · simp only [parseDataIn, if_pos h5]
    refine (quiet_name_bind (g := fun _ out => pure (AnswerData.cname out))
      fun _ => fueled_const _).trans ?_
    have hpure : ∀ d : AnswerData, Quiet fun _ => (pure d : ExceptT Misuse Run AnswerData) :=
      fun d _ _ h => nomatch h
    simp [h5, hpure]
  by_cases h1 : qType = 0x01
  · by_cases h4 : dataLen = 4
    · subst h1 h4
      refine quiet_address.trans ?_
      simp
    · simp only [parseDataIn, if_neg h5, if_pos h1, if_neg h4, quiet_const]
      exact iff_of_true (fun _ h => nomatch h) ⟨fun h => absurd h h5, fun _ h => absurd h h4⟩
  · simp only [parseDataIn, if_neg h5, if_neg h1, quiet_const]
    exact iff_of_true (fun _ h => nomatch h) ⟨fun h => absurd h h5, fun h => absurd h h1⟩

/-- An iteration behind its name. -/
def fieldsIn (fuel : Nat) (resp : List Byte) (old : Nat → Byte) (st : AnswerState) (name : Out) :
    ExceptT Misuse Run AnswerState := do
  let qType ← read16 resp (st.ptr + 2)
  let qClass ← read16 resp (st.ptr + 4)
  let ttl ← read16 resp (st.ptr + 6)
  let dataLen ← read16 resp (st.ptr + 10)
  let data ← parseDataIn fuel resp old (st.ptr + 12) qType dataLen
  pure { ptr := st.ptr + 12 + dataLen.toNat
         body := { name, qType, qClass, ttl, dataLen, data } :: st.body }

theorem answerStepIn_eq : answerStepIn fuel resp old i st =
    dnsParseNameIn 128 fuel resp st.ptr { data := old (2 * i) } 0 >>= fun r =>
      r.1.filled 128 >>= fieldsIn fuel resp (old (2 * i + 1)) st := rfl

theorem fueled_fieldsIn {old : Nat → Byte} : Fueled fun n => (fieldsIn n resp old st out).run :=
  fueled_monitor_bind (fueled_const _) fun _ => fueled_monitor_bind (fueled_const _) fun _ =>
    fueled_monitor_bind (fueled_const _) fun _ => fueled_monitor_bind (fueled_const _) fun _ =>
      fueled_monitor_bind fueled_parseDataIn fun _ => fueled_const _

theorem quiet_fieldsIn {old : Nat → Byte} :
    Quiet (fun n => fieldsIn n resp old st out) ↔ (st.ptr + 12 ≤ resp.length →
      (word resp (st.ptr + 2) = 5 → ¬ Overflows resp 255 (st.ptr + 12) 0 ∧
        ∀ text, Spells resp (st.ptr + 12) text → HasNul 255 old text) ∧
      (word resp (st.ptr + 2) = 1 → word resp (st.ptr + 10) = 4 →
        ¬ st.ptr + 16 ≤ resp.length)) := by
  by_cases hle : st.ptr + 12 ≤ resp.length
  · simp (disch := omega) only [fieldsIn, read16_eq_word, lift_ret_bind]
    rw [quiet_map, quiet_parseDataIn]
    exact ⟨fun h _ => h, fun h => h hle⟩
  · refine iff_of_true (fun n e h => ?_) fun h => absurd h hle
    obtain ⟨_, -, h⟩ := run_lift_bind_eq_error.mp h
    obtain ⟨_, -, h⟩ := run_lift_bind_eq_error.mp h
    obtain ⟨_, -, h⟩ := run_lift_bind_eq_error.mp h
    obtain ⟨_, hlen, -⟩ := run_lift_bind_eq_error.mp h
    exact hle (le_of_read16 hlen)

theorem quiet_answerStepIn :
    Quiet (fun n => answerStepIn n resp old i st) ↔
      ¬ Overflows resp 128 st.ptr 0 ∧ ∀ text, Spells resp st.ptr text →
        HasNul 128 (old (2 * i)) text ∧ (st.ptr + 12 ≤ resp.length →
          (word resp (st.ptr + 2) = 5 → ¬ Overflows resp 255 (st.ptr + 12) 0 ∧
            ∀ text, Spells resp (st.ptr + 12) text → HasNul 255 (old (2 * i + 1)) text) ∧
          (word resp (st.ptr + 2) = 1 → word resp (st.ptr + 10) = 4 →
            ¬ st.ptr + 16 ≤ resp.length)) := by
  simp only [answerStepIn_eq]
  rw [quiet_name_bind fun _ => fueled_fieldsIn]
  simp only [quiet_fieldsIn]

/-- The name of the answer at `p` fits, and its data if the parser comes there. -/
structure AnswerFits (resp : List Byte) (p : Nat) : Prop where
  owner : NameFits resp 128 p
  target : NameEnds resp p → p + 12 ≤ resp.length → word resp (p + 2) = 5 →
    NameFits resp 255 (p + 12)
  address : NameEnds resp p → p + 16 ≤ resp.length → word resp (p + 2) = 1 →
    word resp (p + 10) ≠ 4

theorem NameFits.hasNul (h : NameFits resp size p) (hs : Spells resp p text) (old : Nat → Byte) :
    HasNul size old text := by
  have hle := length_le_of_spells hs h.inside (Nat.zero_le _)
  exact hasNul_of_mem (by omega) (h.nul text hs)

theorem quiet_of_answerFits (h : AnswerFits resp st.ptr) :
    Quiet fun n => answerStepIn n resp old i st := by
  refine quiet_answerStepIn.mpr ⟨h.owner.inside, fun text htext =>
    ⟨h.owner.hasNul htext _, fun hle => ⟨fun h5 => ?_, fun h1 h4 hlt => ?_⟩⟩⟩
  · have ht := h.target ⟨text, htext⟩ hle h5
    exact ⟨ht.inside, fun text' htext' => ht.hasNul htext' _⟩
  · exact h.address ⟨text, htext⟩ hlt h1 h4

/-- With blocks that have no NUL in them before. -/
theorem answerFits_of_quiet (h : Quiet fun n => answerStepIn n resp (fun _ _ => 1) i st) :
    AnswerFits resp st.ptr := by
  obtain ⟨ho, h⟩ := quiet_answerStepIn.mp h
  refine ⟨⟨ho, fun text htext => mem_of_hasNul (h text htext).1⟩, ?_, ?_⟩
  · rintro ⟨text, htext⟩ hle h5
    obtain ⟨ho', h'⟩ := ((h text htext).2 hle).1 h5
    exact ⟨ho', fun text' htext' => mem_of_hasNul (h' text' htext')⟩
  · rintro ⟨text, htext⟩ hle h1 h4
    exact ((h text htext).2 (by omega)).2 h1 h4 hle

/-! ## The response -/

/-- Each answer to which the parser comes fits. -/
def BlocksFit (resp : List Byte) : Prop :=
  12 ≤ resp.length → (headerOf resp).rcode = 0 →
    ∀ p, Times (QuestionEnd resp) (headerOf resp).questions.toNat 12 p →
      ∀ i < (headerOf resp).answer.toNat, ∀ q, Times (NextAnswer resp) i p q → AnswerFits resp q

theorem returns_answerLoop :
    (∃ st, Returns (fun n => answerLoop n resp old p k) st ∧ st.ptr = q) ↔
      Times (NextAnswer resp) k p q :=
  returns_loop fueled_answerLoop (fun _ _ => fueled_answerStep) (fun _ => rfl) (fun _ _ => rfl)
    fun _ _ _ => returns_answerStep

theorem quiet_answerLoopIn :
    Quiet (fun n => answerLoopIn n resp old p k) ↔
      ∀ i < k, ∀ st, Returns (fun n => answerLoop n resp old p i) st →
        Quiet fun n => answerStepIn n resp old i st :=
  quiet_loop fueled_answerLoopIn
    (fun _ _ => fueled_answerStepIn) (fun _ => rfl) (fun _ _ => rfl)
    fun k _ => follows_answerLoopIn k

/-- The checks of the parser are those of the loop over the answers. -/
theorem quiet_dnsResponseParseIn :
    Quiet (fun n => dnsResponseParseIn n (some resp) old) ↔
      (12 ≤ resp.length → (headerOf resp).rcode = 0 →
        ∀ p, Times (QuestionEnd resp) (headerOf resp).questions.toNat 12 p →
          Quiet fun n => answerLoopIn n resp old p (headerOf resp).answer.toNat) := by
  by_cases hle : 12 ≤ resp.length
  swap
  · refine iff_of_true (fun n e h => ?_) fun h => absurd h hle
    obtain ⟨header, hheader, -⟩ := run_lift_bind_eq_error.mp h
    exact hle (le_of_parseHeader hheader)
  rw [forall_prop_of_true hle]
  simp only [dnsResponseParseIn, parseHeader_eq hle, lift_ret_bind]
  by_cases hrcode : (headerOf resp).rcode = 0
  · have hn : ¬ (headerOf resp).rcode ≠ 0 := not_not.mpr hrcode
    simp only [if_neg hn]
    rw [forall_prop_of_true hrcode, quiet_lift_bind (fueled_skipQuestions _) ?fueled]
    case fueled =>
      exact fun _ => fueled_monitor_bind (fueled_answerLoopIn _) fun _ => fueled_const _
    simp only [returns_skipQuestions, quiet_map]
  · simp only [if_pos hrcode, hrcode, false_implies, iff_true]
    intro n e h
    split at h
    · cases h
    · split at h <;> cases h

/-- **Blocks.** Every write of `dnsResponseParse` and its calls of `dnsParseName` stays inside its
block, and every block that was filled has a NUL in it whatever was in it before, if and only if each
answer to which the parser comes fits. -/
theorem quiet_iff (response : Option (List Byte)) :
    (∀ old, Quiet fun n => dnsResponseParseIn n response old) ↔
      ∀ resp ∈ response, BlocksFit resp := by
  cases response with
  | none => exact iff_of_true (fun _ _ _ h => nomatch h) (fun _ h => nomatch h)
  | some resp =>
    simp only [Option.mem_def, Option.some.injEq, forall_eq', quiet_dnsResponseParseIn,
      quiet_answerLoopIn]
    constructor
    · intro h hle hrcode p hp i hi q hq
      obtain ⟨st, hst, rfl⟩ : ∃ st, Returns (fun n => answerLoop n resp (fun _ _ => 1) p i) st ∧
          st.ptr = q := returns_answerLoop.mpr hq
      exact answerFits_of_quiet (h _ hle hrcode p hp i hi st hst)
    · intro h old hle hrcode p hp i hi st hst
      exact quiet_of_answerFits (h hle hrcode p hp i hi _ (returns_answerLoop.mp ⟨st, hst, rfl⟩))

/-- In the response about `c` the owner name of the first answer gets no NUL. -/
theorem not_quiet_aliased :
    ¬ ∀ old, Quiet fun n => dnsResponseParseIn n (some ((aliased 0).encode ++ [])) old := by
  intro h
  have hname : Spells ((aliased 0).encode ++ []) 19 [99#8] :=
    (names_aliased 0).spells (i := 0) (by decide)
  have hflag : ((aliased 0).encode ++ [])[12]? = some (1 : Byte) := rfl
  have hquestion : QuestionEnd ((aliased 0).encode ++ []) 12 19 :=
    ⟨15, .label hflag (by decide) (.root rfl), rfl⟩
  have hloop := quiet_dnsResponseParseIn.mp (h fun _ _ => 1) (by decide) (by decide) 19
    ⟨12, rfl, hquestion⟩
  have hstep := quiet_answerLoopIn.mp hloop 0 (by decide) ⟨19, []⟩ ⟨0, rfl⟩
  exact absurd ((answerFits_of_quiet hstep).owner.nul _ hname) (by decide)

end Dns
end LinuxBase
