import LinuxBase.Lib.Walk

/-!
# Names in a DNS response (`dns.c`)

`dnsParseName` follows a name through the response: labels, and compression pointers, of which it
uses only the second octet. The response is the list of the bytes from `chunk` on; a read past its
end is a `fault`. A pointer into the response is an offset.

* The block `out` is as large as the writes need it; `Out.top` is how far they went.
* The loop and the recursion share the fuel: the recursive call is the last thing that a call does.
* `nameNext` is one step of `ptr`, which does not depend on what is written. `dnsParseName` ends
  exactly if the walk of its steps does, that is, if no compression pointer on the way leads back to
  itself (`dnsParseName_terminates_iff`).
* `Spells resp p text`: the name at `p` ends, and `text` is what is written for it
  (`dnsParseName_returns_iff`).
-/

namespace LinuxBase
namespace Dns

open Walk StateTransition

def readByte (resp : List Byte) (p : Nat) : Run Byte := .ofOption resp[p]?

/-- The bytes that `memcpy` reads. -/
def readBytes (resp : List Byte) (p n : Nat) : Run (List Byte) :=
  if p + n ≤ resp.length then .ret ((resp.drop p).take n) else .fault

/-- A block that a name is written to: its bytes, and the end of the written part. -/
structure Out where
  data : Nat → Byte
  top : Nat := 0

def Out.write (o : Out) (pos : Nat) (bs : List Byte) : Out where
  data i := if i < pos then o.data i else bs[i - pos]?.getD (o.data i)
  top := max o.top (pos + bs.length)

/-- `is_pointer`. -/
def isPointer (inp : Nat) : Bool := inp &&& 0xC0 == 0xC0

/-- The `while (1)` of `dnsParseName`. -/
def nameLoop (resp : List Byte) : Nat → Nat → Nat → Out → Nat → Run (Out × Nat)
  | 0, _, _, _, _ => .more
  | fuel + 1, ptr, pos, out, len => do
    let flag ← readByte resp ptr
    if flag.toNat = 0 then .ret (out, len)
    else if isPointer flag.toNat then
      let n ← readByte resp (ptr + 1)
      -- The recursive call, which writes from `out + *len` on.
      nameLoop resp fuel n.toNat len out len
    else
      let label ← readBytes resp (ptr + 1) flag.toNat
      let out := out.write pos label
      let pos := pos + flag.toNat
      let ptr := ptr + 1 + flag.toNat
      let len := len + flag.toNat
      let next ← readByte resp ptr
      if next.toNat ≠ 0 then nameLoop resp fuel ptr (pos + 1) (out.write pos [46#8]) (len + 1)
      else nameLoop resp fuel ptr pos out len

/-- `dnsParseName`; the result is the block and `*len`. -/
def dnsParseName (fuel : Nat) (resp : List Byte) (ptr : Nat) (out : Out) (len : Nat) :
    Run (Out × Nat) :=
  nameLoop resp fuel ptr len out len

/-! ## Where `ptr` goes -/

/-- The next place of `ptr`, or none at the end of the name. -/
def nameNext (resp : List Byte) (ptr : Nat) : Run (Option Nat) := do
  let flag ← readByte resp ptr
  if flag.toNat = 0 then .ret none
  else if isPointer flag.toNat then
    let n ← readByte resp (ptr + 1)
    .ret (some n.toNat)
  else
    let _ ← readBytes resp (ptr + 1) flag.toNat
    let _ ← readByte resp (ptr + 1 + flag.toNat)
    .ret (some (ptr + 1 + flag.toNat))

variable {resp : List Byte} {fuel ptr pos len : Nat} {out : Out}

theorem nameLoop_walk :
    (nameLoop resp fuel ptr pos out len >>= fun _ => .ret ()) = walk (nameNext resp) fuel ptr := by
  induction fuel generalizing ptr pos out len with
  | zero => rfl
  | succ fuel ih =>
    rw [nameLoop, walk, nameNext, bind_assoc, bind_assoc]
    congr 1
    funext flag
    by_cases h0 : flag.toNat = 0
    · rw [if_pos h0, if_pos h0]; rfl
    rw [if_neg h0, if_neg h0]
    by_cases hp : isPointer flag.toNat = true
    · rw [if_pos hp, if_pos hp, bind_assoc, bind_assoc]
      congr 1
      funext n
      exact ih
    rw [if_neg hp, if_neg hp, bind_assoc, bind_assoc]
    congr 1
    funext label
    rw [bind_assoc, bind_assoc]
    congr 1
    funext next
    by_cases hn : next.toNat ≠ 0
    · rw [if_pos hn]; exact ih
    · rw [if_neg hn]; exact ih

theorem readByte_ne_more (p : Nat) : readByte resp p ≠ .more := by
  unfold readByte
  cases resp[p]? <;> simp

theorem readBytes_ne_more (p n : Nat) : readBytes resp p n ≠ .more := by
  unfold readBytes
  split <;> simp

theorem nameNext_ne_more (ptr : Nat) : nameNext resp ptr ≠ .more := by
  unfold nameNext
  refine Run.bind_ne_more (readByte_ne_more _) fun flag => ?_
  by_cases h0 : flag.toNat = 0
  · rw [if_pos h0]; nofun
  rw [if_neg h0]
  by_cases hp : isPointer flag.toNat = true
  · rw [if_pos hp]
    exact Run.bind_ne_more (readByte_ne_more _) nofun
  · rw [if_neg hp]
    exact Run.bind_ne_more (readBytes_ne_more _ _) fun _ =>
      Run.bind_ne_more (readByte_ne_more _) nofun

theorem fueled_nameLoop : Fueled fun n => nameLoop resp n ptr pos out len := by
  intro n hn
  induction n generalizing ptr pos out len with
  | zero => exact absurd rfl hn
  | succ n ih =>
    simp only at hn ⊢
    rw [nameLoop] at hn
    rw [nameLoop, nameLoop]
    refine Run.bind_stable hn fun flag hn => ?_
    refine Run.ite_stable hn (fun _ => rfl) fun hn => ?_
    refine Run.ite_stable hn (fun hn => Run.bind_stable hn fun n hn => ih hn) fun hn => ?_
    refine Run.bind_stable hn fun label hn => Run.bind_stable hn fun next hn => ?_
    exact Run.ite_stable hn (fun hn => ih hn) fun hn => ih hn

/-! ## Termination -/

/-- The octets at `p` are a compression pointer. -/
def IsPointerAt (resp : List Byte) (p : Nat) : Prop :=
  ∃ flag, resp[p]? = some flag ∧ isPointer flag.toNat = true

theorem readByte_eq_ret {p : Nat} {b : Byte} : readByte resp p = .ret b ↔ resp[p]? = some b :=
  Run.ofOption_eq_ret

/-- A step of `ptr` reads the octet there, and goes forward unless that is a pointer. -/
theorem nameNext_cases {p q : Nat} (h : nameNext resp p = .ret (some q)) :
    p < resp.length ∧ (IsPointerAt resp p ∨ p < q) := by
  obtain ⟨flag, hflag, h⟩ := Run.bind_eq_ret.mp h
  have hget := readByte_eq_ret.mp hflag
  refine ⟨(List.getElem?_eq_some_iff.mp hget).1, ?_⟩
  by_cases h0 : flag.toNat = 0
  · rw [if_pos h0] at h
    cases h
  rw [if_neg h0] at h
  by_cases hp : isPointer flag.toNat = true
  · exact .inl ⟨flag, hget, hp⟩
  rw [if_neg hp] at h
  obtain ⟨_, -, h⟩ := Run.bind_eq_ret.mp h
  obtain ⟨_, -, h⟩ := Run.bind_eq_ret.mp h
  have hq : p + 1 + flag.toNat = q := Option.some.inj (Run.ret.inj h)
  exact .inr (by omega)

theorem terminates_nameLoop_iff :
    Terminates (fun n => nameLoop resp n ptr pos out len) ↔
      Terminates (fun n => walk (nameNext resp) n ptr) := by
  have hmore : ∀ n, nameLoop resp n ptr pos out len ≠ .more ↔ walk (nameNext resp) n ptr ≠ .more :=
    fun n => by
      have hwalk : (nameLoop resp n ptr pos out len >>= fun _ => .ret ()) = _ := nameLoop_walk
      simp only [← hwalk, ne_eq, Run.bind_eq_more, reduceCtorEq, and_false, exists_false, or_false]
  exact exists_congr hmore

/-- `dnsParseName` ends exactly if no compression pointer that it comes to leads back to itself. -/
theorem dnsParseName_terminates_iff (resp : List Byte) (ptr : Nat) (out : Out) (len : Nat) :
    Terminates (fun n => dnsParseName n resp ptr out len) ↔
      ¬ ∃ p, IsPointerAt resp p ∧ Reaches (stepOf (nameNext resp)) ptr p ∧
        Reaches₁ (stepOf (nameNext resp)) p p := by
  have hbound : ∀ p q, stepOf (nameNext resp) p = some q → p < resp.length := fun p q h =>
    (nameNext_cases (stepOf_eq_some.mp h)).1
  unfold dnsParseName
  rw [terminates_nameLoop_iff, walk_terminates_iff nameNext_ne_more, halts_iff_acyclic hbound]
  refine not_congr ⟨?_, ?_⟩
  · rintro ⟨p, hp, hcycle⟩
    obtain ⟨q, r, hpq, hqr, hle, hcycle⟩ := exists_backward hcycle
    have hq := (nameNext_cases (stepOf_eq_some.mp hqr)).2.resolve_right (by omega)
    exact ⟨q, hq, hp.trans hpq, hcycle⟩
  · rintro ⟨p, -, hp, hcycle⟩
    exact ⟨p, hp, hcycle⟩

/-- A response with one record, whose owner name is a pointer to itself. -/
def selfPointer : List Byte :=
  [0x12, 0x34, 0x81, 0x80, 0, 0, 0, 1, 0, 0, 0, 0,
   0xC0, 0x0C, 0, 1, 0, 1, 0, 0, 0, 60, 0, 4, 192, 0, 2, 1]

theorem dnsParseName_selfPointer :
    ¬ Terminates fun n => dnsParseName n selfPointer 12 ⟨fun _ => 0#8, 0⟩ 0 := by
  rintro ⟨n, hn⟩
  refine hn ?_
  clear hn
  induction n with
  | zero => rfl
  | succ n ih => exact ih

/-! ## What it writes -/

/-- What is written for a label at `p`: its octets, and a dot unless the name ends after it. -/
def labelText (resp : List Byte) (p : Nat) (flag next : Byte) : List Byte :=
  (resp.drop (p + 1)).take flag.toNat ++ if next.toNat ≠ 0 then [46#8] else []

/-- The name at `p` ends, and `text` is what `dnsParseName` writes for it. -/
inductive Spells (resp : List Byte) : Nat → List Byte → Prop
  | root {p : Nat} : resp[p]? = some 0#8 → Spells resp p []
  | pointer {p : Nat} {flag n : Byte} {text : List Byte} : resp[p]? = some flag →
      isPointer flag.toNat = true → resp[p + 1]? = some n → Spells resp n.toNat text →
      Spells resp p text
  | label {p : Nat} {flag next : Byte} {text : List Byte} : resp[p]? = some flag →
      flag.toNat ≠ 0 → ¬ isPointer flag.toNat = true → resp[p + 1 + flag.toNat]? = some next →
      Spells resp (p + 1 + flag.toNat) text →
      Spells resp p (labelText resp p flag next ++ text)

theorem spells_root_iff {p : Nat} {text : List Byte} (h : resp[p]? = some 0#8) :
    Spells resp p text ↔ text = [] := by
  refine ⟨fun hs => ?_, fun ht => ht ▸ .root h⟩
  cases hs with
  | root => rfl
  | pointer hflag hp => cases h.symm.trans hflag; cases hp
  | label hflag h0 => cases h.symm.trans hflag; exact absurd rfl h0

theorem spells_pointer_iff {p : Nat} {flag n : Byte} {text : List Byte}
    (hflag : resp[p]? = some flag) (hp : isPointer flag.toNat = true) (hn : resp[p + 1]? = some n) :
    Spells resp p text ↔ Spells resp n.toNat text := by
  refine ⟨fun hs => ?_, .pointer hflag hp hn⟩
  cases hs with
  | root h => cases h.symm.trans hflag; cases hp
  | pointer _ _ hn' h => cases hn.symm.trans hn'; exact h
  | label hflag' _ hp' => cases hflag.symm.trans hflag'; exact absurd hp hp'

theorem spells_label_iff {p : Nat} {flag next : Byte} {text : List Byte}
    (hflag : resp[p]? = some flag) (h0 : flag.toNat ≠ 0) (hp : ¬ isPointer flag.toNat = true)
    (hnext : resp[p + 1 + flag.toNat]? = some next) :
    Spells resp p text ↔
      ∃ t, Spells resp (p + 1 + flag.toNat) t ∧ text = labelText resp p flag next ++ t := by
  constructor
  · intro hs
    cases hs with
    | root h => cases h.symm.trans hflag; exact absurd rfl h0
    | pointer hflag' hp' => cases hflag.symm.trans hflag'; exact absurd hp' hp
    | label hflag' _ _ hnext' h =>
      cases hflag.symm.trans hflag'
      cases hnext.symm.trans hnext'
      exact ⟨_, h, rfl⟩
  · rintro ⟨t, h, rfl⟩
    exact .label hflag h0 hp hnext h

theorem Spells.unique {p : Nat} {text text' : List Byte} (h : Spells resp p text)
    (h' : Spells resp p text') : text = text' := by
  induction h generalizing text' with
  | root h => exact ((spells_root_iff h).mp h').symm
  | pointer hflag hp hn _ ih => exact ih ((spells_pointer_iff hflag hp hn).mp h')
  | label hflag h0 hp hnext _ ih =>
    obtain ⟨t, ht, rfl⟩ := (spells_label_iff hflag h0 hp hnext).mp h'
    rw [ih ht]

theorem Out.write_nil (h : pos ≤ out.top) : out.write pos [] = out := by
  cases out with
  | mk data top =>
    simp only at h
    simp only [Out.write, List.length_nil, Nat.add_zero, Out.mk.injEq]
    refine ⟨?_, by omega⟩
    funext i
    simp

theorem Out.write_append (out : Out) (pos : Nat) (as bs : List Byte) :
    (out.write pos as).write (pos + as.length) bs = out.write pos (as ++ bs) := by
  simp only [Out.write, List.length_append, Out.mk.injEq]
  refine ⟨?_, by omega⟩
  funext i
  by_cases h1 : i < pos
  · rw [if_pos (by omega), if_pos h1, if_pos h1]
  by_cases h2 : i < pos + as.length
  · rw [if_pos h2, if_neg h1, if_neg h1, List.getElem?_append_left (by omega)]
  · rw [if_neg h2, if_neg h1, if_neg h1, List.getElem?_append_right (by omega),
      List.getElem?_eq_none (l := as) (by omega), Nat.sub_sub]
    rfl

/-- The written part shows the text. -/
theorem Out.write_injective {out : Out} {pos : Nat} {as bs : List Byte}
    (h : out.write pos as = out.write pos bs) (hlen : as.length = bs.length) : as = bs := by
  refine List.ext_getElem hlen fun i ha hb => ?_
  have hi := congrFun (congrArg Out.data h) (pos + i)
  simpa [Out.write, List.getElem?_eq_getElem ha, List.getElem?_eq_getElem hb] using hi

theorem Out.le_top_write (out : Out) (pos : Nat) (bs : List Byte) :
    pos + bs.length ≤ (out.write pos bs).top :=
  Nat.le_max_right _ _

theorem readBytes_of_lt {p n : Nat} {b : Byte} (h : resp[p + n]? = some b) :
    readBytes resp p n = .ret ((resp.drop p).take n) := by
  have hlt := (List.getElem?_eq_some_iff.mp h).1
  unfold readBytes
  rw [if_pos (by omega)]

theorem length_take_drop {p n : Nat} {b : Byte} (h : resp[p + n]? = some b) :
    ((resp.drop p).take n).length = n := by
  have hlt := (List.getElem?_eq_some_iff.mp h).1
  rw [List.length_take, List.length_drop]
  omega

/-- One round of the loop at a label. -/
theorem nameLoop_label {flag next : Byte} (hflag : resp[ptr]? = some flag) (h0 : flag.toNat ≠ 0)
    (hp : ¬ isPointer flag.toNat = true) (hnext : resp[ptr + 1 + flag.toNat]? = some next) :
    nameLoop resp (fuel + 1) ptr pos out pos =
      nameLoop resp fuel (ptr + 1 + flag.toNat) (pos + (labelText resp ptr flag next).length)
        (out.write pos (labelText resp ptr flag next))
        (pos + (labelText resp ptr flag next).length) := by
  have hlen := length_take_drop hnext
  rw [nameLoop, readByte_eq_ret.mpr hflag, Run.ret_bind, if_neg h0, if_neg hp,
    readBytes_of_lt hnext, Run.ret_bind]
  simp only [readByte_eq_ret.mpr hnext, Run.ret_bind]
  by_cases hn : next.toNat ≠ 0
  · have hdot := out.write_append pos ((resp.drop (ptr + 1)).take flag.toNat) [46#8]
    rw [hlen] at hdot
    rw [if_pos hn, labelText, if_pos hn, ← hdot, List.length_append, hlen, List.length_singleton,
      ← Nat.add_assoc]
  · rw [if_neg hn, labelText, if_neg hn, List.append_nil, hlen]

theorem nameLoop_of_spells {text : List Byte} (h : Spells resp ptr text) (hpos : pos ≤ out.top) :
    Returns (fun n => nameLoop resp n ptr pos out pos)
      (out.write pos text, pos + text.length) := by
  induction h generalizing pos out with
  | root hflag =>
    refine ⟨1, ?_⟩
    simp only
    rw [Out.write_nil hpos, nameLoop, readByte_eq_ret.mpr hflag]
    rfl
  | @pointer p flag n text hflag hp hn _ ih =>
    obtain ⟨fuel, h⟩ := ih hpos
    have h0 : flag.toNat ≠ 0 := fun h0 => by rw [h0] at hp; cases hp
    refine ⟨fuel + 1, ?_⟩
    simp only
    rw [nameLoop, readByte_eq_ret.mpr hflag, Run.ret_bind, if_neg h0, if_pos hp,
      readByte_eq_ret.mpr hn, Run.ret_bind]
    exact h
  | @label p flag next text hflag h0 hp hnext _ ih =>
    obtain ⟨fuel, h⟩ := ih (out.le_top_write pos (labelText resp p flag next))
    refine ⟨fuel + 1, ?_⟩
    simp only at h ⊢
    rw [Out.write_append] at h
    rw [nameLoop_label hflag h0 hp hnext, h, List.length_append, Nat.add_assoc]

theorem exists_spells {r : Out × Nat} (h : nameLoop resp fuel ptr pos out pos = .ret r)
    (hpos : pos ≤ out.top) : ∃ text, Spells resp ptr text := by
  induction fuel generalizing ptr pos out with
  | zero => cases h
  | succ fuel ih =>
    have hloop := h
    rw [nameLoop] at h
    obtain ⟨flag, hflag, h⟩ := Run.bind_eq_ret.mp h
    have hget := readByte_eq_ret.mp hflag
    by_cases h0 : flag.toNat = 0
    · have hflag0 : flag = 0#8 := BitVec.eq_of_toNat_eq h0
      exact ⟨[], .root (hflag0 ▸ hget)⟩
    rw [if_neg h0] at h
    by_cases hp : isPointer flag.toNat = true
    · rw [if_pos hp] at h
      obtain ⟨n, hn, h⟩ := Run.bind_eq_ret.mp h
      obtain ⟨text, htext⟩ := ih h hpos
      exact ⟨text, .pointer hget hp (readByte_eq_ret.mp hn) htext⟩
    · rw [if_neg hp] at h
      obtain ⟨_, -, h⟩ := Run.bind_eq_ret.mp h
      obtain ⟨next, hnext, -⟩ := Run.bind_eq_ret.mp h
      have hnext := readByte_eq_ret.mp hnext
      rw [nameLoop_label hget h0 hp hnext] at hloop
      obtain ⟨text, htext⟩ := ih hloop (Out.le_top_write _ _ _)
      exact ⟨_, .label hget h0 hp hnext htext⟩

/-- `dnsParseName` returns exactly if the name ends within the response, and then it has written
the text of the name after the first `*len` bytes. -/
theorem dnsParseName_returns_iff (hlen : len ≤ out.top) {r : Out × Nat} :
    Returns (fun n => dnsParseName n resp ptr out len) r ↔
      ∃ text, Spells resp ptr text ∧ r = (out.write len text, len + text.length) := by
  constructor
  · rintro ⟨n, h⟩
    obtain ⟨text, htext⟩ := exists_spells h hlen
    exact ⟨text, htext, fueled_nameLoop.returns_unique ⟨n, h⟩ (nameLoop_of_spells htext hlen)⟩
  · rintro ⟨text, htext, rfl⟩
    exact nameLoop_of_spells htext hlen

/-- A call writes exactly `text` if and only if that is what the name at `ptr` spells. -/
theorem dnsParseName_writes_iff (hlen : len ≤ out.top) {text : List Byte} :
    Returns (fun n => dnsParseName n resp ptr out len) (out.write len text, len + text.length) ↔
      Spells resp ptr text := by
  rw [dnsParseName_returns_iff hlen]
  constructor
  · rintro ⟨text', htext, h⟩
    obtain ⟨hout, htop⟩ := Prod.mk.inj h
    rwa [Out.write_injective hout (by omega)]
  · exact fun h => ⟨text, h, rfl⟩

end Dns
end LinuxBase
