import LinuxBase.AddressBook.Compare
import LinuxBase.AddressBook.Ownership
import Mathlib.Algebra.Group.Nat.Defs

/-!
# The contact list is a directory

What the menu does, without memory: a `Directory` has the contacts as pairs of strings, sorted by name,
and what the file and the output have. A `Request` is a selection of the menu with the strings that the
user typed, and `Directory.handle` is the meaning of a request.

`session_represents`: a session of the menu returns, and at its end the memory, the file and the output
are those of the directory that its requests make. It assumes of each operation what `Served` says: the
words fit into their fields, and `malloc` returns dead blocks (with null links for the first node). The
heap then is the list and nothing else (`Holds`), so no block is lost.

A directory has no addresses, no contents of new blocks and no bytes behind a NUL. So none of these can
be seen in the output (`output_eq`).
-/

namespace LinuxBase
namespace AddressBook

open CString KeySort

/-! ## The directory -/

/-- A contact: its name and its phone, each up to its NUL. -/
structure Contact where
  name : List Byte
  phone : List Byte
  deriving DecidableEq

namespace Contact

def key (c : Contact) : List Int := signedKey c.name

def hasName (name : List Byte) (c : Contact) : Bool := decide (c.name = name)

def shown (c : Contact) : Output := .contact c.name c.phone

end Contact

/-- A selection of the menu, with the strings that were read. -/
inductive Request where
  | insert (c : Contact)
  | print
  | delete (name : List Byte)
  | search (name : List Byte)
  | save (opens : Bool)
  | load (opens : Bool)
  deriving DecidableEq

/-- The contacts in the order of their names, the counter, the contacts in the file `person` if there
is one, and the output, newest first. -/
structure Directory where
  contacts : List Contact
  sorted : KeySorted Contact.key contacts
  size : Nat := 0
  file : Option (List Contact) := none
  output : List Output := []

namespace Directory

/-- The directory at the start of the program. -/
def start (file : Option (List Contact)) : Directory :=
  { contacts := [], sorted := List.Pairwise.nil, file := file }

def say (d : Directory) (s : String) : Directory := { d with output := .text s :: d.output }

/-- The contacts are printed in their order. -/
def print (d : Directory) (cs : List Contact) : Directory :=
  { d with output := (cs.map Contact.shown).reverse ++ d.output }

/-- A new contact goes before the first one whose name is not smaller. -/
def insert (d : Directory) (c : Contact) : Directory :=
  { d with
    contacts := d.contacts.orderedInsert (KeyLE Contact.key) c
    sorted := d.sorted.orderedInsert c
    size := d.size + 1 }

/-- The first contact with the name goes. -/
def delete (d : Directory) (name : List Byte) : Directory :=
  { d with
    contacts := d.contacts.eraseP (Contact.hasName name)
    sorted := d.sorted.eraseP _
    size := d.size - 1 }

/-- The contacts of a file are inserted one by one, and not counted. -/
def load (d : Directory) (cs : List Contact) : Directory :=
  { d with contacts := reinsert Contact.key d.contacts cs, sorted := d.sorted.reinsert cs }

/-- The meaning of a request. -/
def handle (d : Directory) : Request → Directory
  | .insert c => (((d.say "请输入你的姓名：").say "请输入你的手机号：").insert c).say "添加成功\n"
  | .print => d.print d.contacts
  | .delete name =>
    if d.size = 0 then d.say "暂无数据\n"
    else if d.contacts.any (Contact.hasName name) then
      ((d.say "请输入要删除的姓名：").delete name).say "删除成功\n"
    else (d.say "请输入要删除的姓名：").say "删除失败\n"
  | .search name =>
    match d.contacts.find? (Contact.hasName name) with
    | some c => (d.say "请输入要删除的姓名：").print [c]
    | none => (d.say "请输入要删除的姓名：").say "查无此人\n"
  | .save opens =>
    if d.contacts = [] then d.say "写入文件失败（没有数据）"
    else if opens then { d with file := some d.contacts }
    else d.say "写入文件失败（打开文件失败）"
  | .load opens =>
    match (if opens then d.file else none) with
    | some cs => (d.load cs).say "读取成功\n"
    | none => d.say "读取文件失败（打开文件失败）"

/-- The directory after the requests. -/
def run (d : Directory) (rs : List Request) : Directory := rs.foldl handle d

/-- A bound on the lists that a loop may meet. -/
def room (d : Directory) : Nat := max (d.contacts.length + 1) (d.file.getD []).length

theorem room_insert_le (d : Directory) (c : Contact) : (d.insert c).room ≤ 2 * d.room := by
  simp only [room, insert, List.orderedInsert_length]
  omega

theorem room_delete_le (d : Directory) (name : List Byte) : (d.delete name).room ≤ d.room := by
  have hsub : (d.contacts.eraseP (Contact.hasName name)).Sublist d.contacts := List.eraseP_sublist
  have hlen := hsub.length_le
  simp only [room, delete]
  omega

theorem room_load_le {d : Directory} {cs : List Contact} (hfile : d.file = some cs) :
    (d.load cs).room ≤ 2 * d.room := by
  simp only [room, load, length_reinsert, hfile, Option.getD_some]
  omega

/-- A request at most doubles the bound: `load` adds the file to the contacts. -/
theorem room_handle_le (d : Directory) (r : Request) : (d.handle r).room ≤ 2 * d.room := by
  have hle : d.room ≤ 2 * d.room := Nat.le_mul_of_pos_left _ (by decide)
  cases r with
  | insert c => exact room_insert_le _ c
  | print => exact hle
  | delete name =>
    simp only [handle]
    split
    · exact hle
    · split
      · exact (room_delete_le _ name).trans hle
      · exact hle
  | search name =>
    simp only [handle]
    split <;> exact hle
  | save opens =>
    simp only [handle]
    split
    · exact hle
    · split
      · simp only [room, Option.getD_some]
        omega
      · exact hle
  | load opens =>
    simp only [handle]
    cases hfile : (if opens then d.file else none) with
    | none => exact hle
    | some cs =>
      rw [Option.ite_none_right_eq_some] at hfile
      exact room_load_le hfile.2

/-- A request adds one to the counter at most. -/
theorem size_handle_le (d : Directory) (r : Request) : (d.handle r).size ≤ d.size + 1 := by
  have hle : d.size ≤ d.size + 1 := Nat.le_succ _
  cases r with
  | insert c => exact Nat.le_refl _
  | print => exact hle
  | delete name =>
    simp only [handle]
    split
    · exact hle
    · split
      · exact (Nat.sub_le _ _).trans hle
      · exact hle
  | search name =>
    simp only [handle]
    split <;> exact hle
  | save opens =>
    simp only [handle]
    split
    · exact hle
    · split <;> exact hle
  | load opens =>
    simp only [handle]
    split <;> exact hle

end Directory

/-! ## What a session has of it -/

def Person.contact (p : Person) : Contact := ⟨cstr p.bytes, cstr p.phone⟩

def Record.contact (r : Record) : Contact := r.data.contact

/-- The string that `scanf` leaves in a field that had `junk`. -/
def stored (junk : List Byte) : Option Token → List Byte
  | none => cstr junk
  | some word => cstr (word ++ [0#8])

/-- What an operation asks for. -/
def Operator.request : Operator → Request
  | .insert _ _ junk name phone => .insert ⟨stored junk.bytes name, stored junk.phone phone⟩
  | .print => .print
  | .delete junk name => .delete (stored junk.bytes name)
  | .search junk name => .search (stored junk.bytes name)
  | .save opens => .save opens
  | .load opens _ _ => .load opens

/-- The file has the contacts as records, and behind them less than a record. -/
inductive FileHas : Option (List Byte) → Option (List Contact) → Prop
  | none : FileHas none none
  | some (ps : List Person) (part : List Byte)
      (hpart : part.length < personNameLength + personPhoneLength)
      (hends : ∀ p ∈ ps, p.FieldsEnd) : FileHas (some (saved ps ++ part)) (some (ps.map Person.contact))

/-- The contacts `c` have the list `rs`, and together with the file and the output these are `d`. -/
structure Shows (c : Contacts) (rs : List Record) (e : Env) (d : Directory) : Prop where
  holds : Holds e.heap c.front rs
  contacts : rs.map Record.contact = d.contacts
  size : c.size = d.size
  file : FileHas e.file d.file
  output : e.output = d.output

/-- The state of the program represents the directory. -/
def Represents (w : World) (d : Directory) : Prop :=
  ∃ c rs, w.contacts = some c ∧ Shows c rs w.env d

/-- A field that keeps its old contents has a NUL in it. -/
def Operator.JunkEnds : Operator → Prop
  | .insert _ _ junk name phone =>
    (name = none → 0#8 ∈ junk.name) ∧ (phone = none → 0#8 ∈ junk.phone)
  | .print | .delete .. | .search .. | .save _ | .load .. => True

/-- What an operation relies on. -/
structure Served (w : World) (op : Operator) : Prop where
  fresh : FreshOp w op
  null : NullFirstOp w op
  short : ShortWords w op
  junk : op.JunkEnds

/-- The function returned, and its state represents the directory. -/
def Done (x : Run Result) (d : Directory) : Prop :=
  ∃ res, x = .ret res ∧ Represents ⟨res.2.1, res.2.2⟩ d

/-! ## Fields and files -/

section Fields

variable {n fuel i : Nat} {p q junk : Person} {ps qs : List Person} {part : List Byte}

theorem Person.Terminated.cstr_bytes (hp : p.Terminated) : cstr p.bytes = cstr p.name := by
  rw [p.name_append_phone]
  exact cstr_append hp _

/-- What `scanf` leaves at the start of a block. -/
theorem cstr_scanf {b b' : Block n} {word : Option Token} (h : scanf b 0 word = .ret b') :
    cstr b'.bytes = stored b.bytes word := by
  cases word with
  | none =>
    cases h
    rfl
  | some t =>
    have hzero : 0#8 ∈ t ++ [0#8] := by simp
    rw [scanf_some h, List.take_zero, List.nil_append, cstr_append hzero]
    rfl

/-- What `scanf` leaves in a phone. -/
theorem cstr_scanf_phone {word : Option Token} (h : scanf p personNameLength word = .ret q) :
    cstr q.phone = stored p.phone word := by
  cases word with
  | none =>
    cases h
    rfl
  | some t =>
    have hname : (p.bytes.take personNameLength).length = personNameLength := by
      rw [List.length_take, p.size_eq]
      rfl
    have hzero : 0#8 ∈ t ++ [0#8] := by simp
    rw [Person.phone, scanf_some h, List.drop_left' hname, cstr_append hzero]
    rfl

theorem fread_short (hpart : part.length < personNameLength + personPhoneLength) :
    fread part = .eof part := dif_neg (Nat.not_le.mpr hpart)

theorem fread_record (p : Person) (rest : List Byte) : fread (p.bytes ++ rest) = .item p := by
  have hlen : personNameLength + personPhoneLength ≤ (p.bytes ++ rest).length := by
    rw [List.length_append, p.size_eq]
    exact Nat.le_add_right _ _
  unfold fread
  rw [dif_pos hlen]
  simp only [List.take_left' p.size_eq]

theorem length_saved (ps : List Person) :
    (saved ps).length = (personNameLength + personPhoneLength) * ps.length := by
  induction ps with
  | nil => rfl
  | cons p ps ih => rw [saved_cons, List.length_append, p.size_eq, ih, List.length_cons, Nat.mul_succ,
    Nat.add_comm]

/-- A read of a file of records, with less than a record behind them. -/
theorem freads_append (ps : List Person) (part : List Byte) (hi : i ≤ ps.length) :
    freads (saved ps ++ part) i = fread (saved (ps.drop i) ++ part) := by
  have hlen : (personNameLength + personPhoneLength) * i ≤ (saved ps).length := by
    rw [length_saved]
    exact Nat.mul_le_mul_left _ hi
  unfold freads
  rw [List.drop_append_of_le_length hlen, saved_drop]

/-- The persons that `load_entry` passes to `person_insert` from the `i`-th on are those of the file. -/
theorem passed_saved (hpart : part.length < personNameLength + personPhoneLength)
    (hqs : ps.drop i = qs) (hi : i ≤ ps.length) (hfuel : qs.length < fuel) (person : Person) :
    ((freads (saved ps ++ part) i).into person >>= fun next =>
      passed (freads (saved ps ++ part)) fuel i next.1 next.2) = .ret qs := by
  rw [freads_append ps part hi, hqs]
  induction qs generalizing i fuel person with
  | nil =>
    obtain ⟨next, hnext⟩ := into_returns (r := .eof part) hpart person
    have heof := into_isEof hnext
    cases fuel with
    | zero => cases hfuel
    | succ fuel =>
      rw [saved_nil, List.nil_append, fread_short hpart, hnext, Run.ret_bind, passed, heof]
      rfl
  | cons q qs ih =>
    cases fuel with
    | zero => cases hfuel
    | succ fuel =>
      have hqs' : ps.drop (i + 1) = qs := by rw [← List.drop_drop, hqs]; rfl
      have hi' : i + 1 ≤ ps.length := by
        by_contra hlt
        rw [List.drop_eq_nil_of_le (by omega)] at hqs
        cases hqs
      have hrest := ih hqs' hi' (Nat.lt_of_succ_lt_succ hfuel) q
      obtain ⟨next, hnext, hrest⟩ := Run.bind_eq_ret.mp hrest
      have hitem : (Fread.item q).into person = .ret (q, false) := rfl
      rw [saved_cons, List.append_assoc, fread_record, hitem, Run.ret_bind, passed]
      simp only [Bool.false_eq_true, if_false, freads_append ps part hi', hqs', hnext, Run.ret_bind,
        hrest]

/-- `load_entry` of a file of records inserts them one by one. -/
theorem loadEntry_saved (hpart : part.length < personNameLength + personPhoneLength)
    (hfuel : ps.length < fuel) (junk : Person) (mem : Supply) (c : Contacts) (e : Env) :
    loadEntry fuel (some (freads (saved ps ++ part))) junk mem (some c) e =
      insertAll fuel mem 0 ps c.front e.heap >>= fun out =>
        .ret (some 0, some { c with front := out.1 }, { e with heap := out.2 }.say "读取成功\n") :=
  loadEntry_eq_insertAll (passed_saved hpart List.drop_zero (Nat.zero_le _) hfuel junk) mem c e

end Fields

/-! ## The operations -/

section Operations

variable {fuel : Nat} {c : Contacts} {rs : List Record} {e : Env} {d : Directory}

theorem Shows.say (h : Shows c rs e d) (s : String) : Shows c rs (e.say s) (d.say s) :=
  { h with output := congrArg (Output.text s :: ·) h.output }

theorem Shows.print (h : Shows c rs e d) (cs : List Contact) :
    Shows c rs { e with output := (cs.map Contact.shown).reverse ++ e.output } (d.print cs) :=
  { h with output := congrArg ((cs.map Contact.shown).reverse ++ ·) h.output }

/-- The state of a function that returned. -/
theorem Shows.done (h : Shows c rs e d) {x : Run Result} {r : Option Int}
    (hx : x = .ret (r, some c, e)) : Done x d :=
  ⟨_, hx, c, rs, rfl, h⟩

theorem Shows.length (h : Shows c rs e d) : rs.length = d.contacts.length := by
  rw [← h.contacts, List.length_map]

theorem Shows.length_lt (h : Shows c rs e d) (hroom : 2 * d.room ≤ fuel) : rs.length < fuel := by
  rw [h.length]
  unfold Directory.room at hroom
  omega

theorem Shows.listed (h : Shows c rs e d) : Listed ⟨some c, e⟩ c rs where
  contacts := rfl
  repr := h.holds.repr
  sorted := h.holds.sorted
  comparable := List.pairwise_of_forall_mem_list fun x hx _ _ _ => (h.holds.ends x hx).mem_bytes

theorem Record.key_eq : Record.key = Contact.key ∘ Record.contact := by
  funext r
  have hname : cstr (cstr r.data.bytes) = cstr r.data.bytes := cstr_cstr _
  exact congrArg (List.map BitVec.toInt) hname.symm

theorem Record.hasName_eq (name : List Byte) :
    Record.hasName name = Contact.hasName (cstr name) ∘ Record.contact := rfl

/-- The contacts after insertions. -/
theorem contacts_reinsert (rs rs' : List Record) :
    (reinsert Record.key rs rs').map Record.contact =
      reinsert Contact.key (rs.map Record.contact) (rs'.map Record.contact) := by
  rw [Record.key_eq]
  exact map_reinsert Record.contact rs rs'

theorem supplied_contact (mem : Supply) (i : Nat) (ps : List Person) :
    (supplied mem i ps).map Record.contact = ps.map Person.contact := by
  have h := congrArg (List.map Person.contact) (supplied_data mem i ps)
  rwa [List.map_map] at h

/-- The two reads of `insert_entry`. -/
theorem scanf_contact {w : World} {a : Alloc} {addr : Addr} {junk : Person} {name phone : Option Token}
    (hop : Served w (.insert a addr junk name phone)) :
    ∃ p₁ p₂ : Person, scanf junk 0 name = .ret p₁ ∧ scanf p₁ personNameLength phone = .ret p₂ ∧
      p₂.FieldsEnd ∧ p₂.contact = ⟨stored junk.bytes name, stored junk.phone phone⟩ := by
  obtain ⟨-, -, hshort, hjunk⟩ := hop
  obtain ⟨hin, hin'⟩ := storedInside_of_shortWords hshort
  obtain ⟨p₁, h1⟩ : ∃ p₁ : Person, scanf junk 0 name = .ret p₁ := (hin junk).imp fun _ h => h.1
  obtain ⟨p₂, h2⟩ : ∃ p₂ : Person, scanf p₁ personNameLength phone = .ret p₂ :=
    (hin' p₁).imp fun _ h => h.1
  obtain ⟨hname, hphone⟩ := scanf_name h1 (fun t ht => hshort (personNameLength, t) (by
    simpa [Operator.words] using .inl ht)) hjunk.1
  obtain ⟨hphone', hname'⟩ := scanf_phone h2 (fun t ht => hshort (personPhoneLength, t) (by
    simpa [Operator.words] using .inr ht)) (by rw [hphone]; exact hjunk.2)
  have hends : p₂.FieldsEnd := ⟨hname' ▸ hname, hphone'⟩
  refine ⟨p₁, p₂, h1, h2, hends, ?_⟩
  -- The phone is stored behind the name.
  have hread : cstr p₂.bytes = stored junk.bytes name := by
    rw [Person.Terminated.cstr_bytes hends.name, hname', ← Person.Terminated.cstr_bytes hname]
    exact cstr_scanf h1
  have hread' : cstr p₂.phone = stored junk.phone phone := by
    rw [cstr_scanf_phone h2, hphone]
  rw [Person.contact, hread, hread']

theorem insertEntry_done (h : Shows c rs e d) {a : Alloc} {addr : Addr} {junk : Person}
    {name phone : Option Token} (hop : Served ⟨some c, e⟩ (.insert a addr junk name phone))
    (hroom : 2 * d.room ≤ fuel) (hsize : d.size < intMax) :
    Done (insertEntry fuel a addr junk name phone (some c) e)
      (d.handle (.insert ⟨stored junk.bytes name, stored junk.phone phone⟩)) := by
  obtain ⟨p₁, p₂, h1, h2, hends, hcontact⟩ := scanf_contact hop
  obtain ⟨hnode, hper⟩ := h.holds.repr.fresh hop.fresh.1 hop.fresh.2
  have hlinks : LinksNull rs a := fun hrs => hop.null c rfl (by rw [h.holds.repr.front_eq, hrs]; rfl)
  obtain ⟨l, h', hins, hh'⟩ := h.holds.insert hnode hper hlinks hends (h.length_lt hroom).le
  have hinc : increment c.size = .ret (c.size + 1) := by
    apply if_pos
    rw [h.size]
    unfold intMax at hsize
    omega
  rw [← hcontact]
  let e' : Env := { (e.say "请输入你的姓名：").say "请输入你的手机号：" with heap := h' }
  have hnew : Shows ⟨l, c.size + 1⟩ _ e'
      (((d.say "请输入你的姓名：").say "请输入你的手机号：").insert p₂.contact) :=
    { holds := hh'
      contacts := (contacts_reinsert rs [_]).trans (by rw [h.contacts]; rfl)
      size := by rw [h.size]; rfl
      file := h.file
      output := ((h.say _).say _).output }
  apply (hnew.say "添加成功\n").done (r := none)
  simp only [insertEntry, h1, h2, Env.say, hins, hinc, Run.ret_bind, Option.getD_some, if_true, e']

theorem printEntry_done (h : Shows c rs e d) (hroom : 2 * d.room ≤ fuel) :
    Done (printEntry fuel (some c) e) (d.handle .print) := by
  have htraverse := h.holds.traverse (h.length_lt hroom)
  have houtput : rs.map (fun r => Output.contact (cstr r.data.bytes) (cstr r.data.phone)) =
      d.contacts.map Contact.shown := by
    rw [← h.contacts, List.map_map]
    rfl
  rw [houtput] at htraverse
  apply (h.print d.contacts).done (r := none)
  simp only [printEntry, htraverse, Run.ret_bind]

theorem deleteEntry_done (h : Shows c rs e d) {junk : Block personNameLength} {name : Option Token}
    (hop : Served ⟨some c, e⟩ (.delete junk name)) (hroom : 2 * d.room ≤ fuel) :
    Done (deleteEntry fuel junk name (some c) e)
      (d.handle (.delete (stored junk.bytes name))) := by
  by_cases hzero : c.size = 0
  · have hzero' : d.size = 0 := by rw [h.size] at hzero; omega
    rw [deleteEntry, if_pos hzero, Directory.handle, if_pos hzero']
    exact (h.say _).done rfl
  have hzero' : d.size ≠ 0 := by rw [h.size] at hzero; omega
  have hin := storedInside_of_shortWords hop.short (by simpa using hzero)
  obtain ⟨block, hscan, -⟩ := hin junk
  have hread := cstr_scanf hscan
  obtain ⟨l, h', hdel, hh'⟩ := h.holds.delete block (h.length_lt hroom)
  have hany : rs.any (Record.hasName block.bytes) =
      d.contacts.any (Contact.hasName (stored junk.bytes name)) := by
    rw [Record.hasName_eq, hread, ← h.contacts, List.any_map]
  have hdec : decrement c.size = .ret (c.size - 1) := by
    apply if_pos
    rw [h.size]
    omega
  rw [deleteEntry, if_neg hzero, Directory.handle, if_neg hzero', ← hany]
  let e' : Env := { e.say "请输入要删除的姓名：" with heap := h' }
  cases hfound : rs.any (Record.hasName block.bytes) with
  | false =>
    have hsame : rs.eraseP (Record.hasName block.bytes) = rs :=
      List.eraseP_of_forall_not fun x hx => by simpa using List.any_eq_false.mp hfound x hx
    rw [hsame] at hh'
    have hnew : Shows { c with front := l } rs e' (d.say "请输入要删除的姓名：") :=
      { h.say "请输入要删除的姓名：" with holds := hh' }
    apply (hnew.say "删除失败\n").done (r := none)
    simp only [hscan, Env.say, hdel, hfound, Run.ret_bind, Option.getD_some, e']
    rfl
  | true =>
    have hnew : Shows ⟨l, c.size - 1⟩ (rs.eraseP (Record.hasName block.bytes)) e'
        ((d.say "请输入要删除的姓名：").delete (stored junk.bytes name)) :=
      { holds := hh'
        contacts := by
          rw [Record.hasName_eq, hread, ← List.eraseP_map, h.contacts]
          rfl
        size := by
          rw [h.size]
          simp only [Directory.delete, Directory.say]
          omega
        file := h.file
        output := (h.say _).output }
    apply (hnew.say "删除成功\n").done (r := none)
    simp only [hscan, Env.say, hdel, hfound, hdec, Run.ret_bind, Option.getD_some, if_true, e']

theorem searchEntry_done (h : Shows c rs e d) {junk : Block personNameLength} {name : Option Token}
    (hop : Served ⟨some c, e⟩ (.search junk name)) (hroom : 2 * d.room ≤ fuel) :
    Done (searchEntry fuel junk name (some c) e)
      (d.handle (.search (stored junk.bytes name))) := by
  have hin := storedInside_of_shortWords hop.short
  obtain ⟨block, hscan, -⟩ := hin junk
  have hread := cstr_scanf hscan
  have hsearch := h.holds.search block (h.length_lt hroom)
  have hfind : d.contacts.find? (Contact.hasName (stored junk.bytes name)) =
      (rs.find? (Record.hasName block.bytes)).map Record.contact := by
    rw [Record.hasName_eq, hread, ← h.contacts, List.find?_map]
  rw [Directory.handle, hfind]
  cases hx : rs.find? (Record.hasName block.bytes) with
  | none =>
    rw [hx] at hsearch
    apply ((h.say _).say "查无此人\n").done (r := none)
    simp only [searchEntry, hscan, Env.say, hsearch, Run.ret_bind, Option.map_none]
  | some x =>
    rw [hx] at hsearch
    have hmem : x ∈ rs := List.mem_of_find?_eq_some hx
    have hperson : e.heap.person x.person = .ret x.data :=
      Run.ofOption_eq_ret.mpr (h.holds.repr.persons x hmem)
    apply ((h.say _).print [x.contact]).done (r := none)
    simp only [searchEntry, hscan, Env.say, hsearch, hperson, logPerson_eq (h.holds.ends x hmem),
      Run.ret_bind, Option.map_some]
    rfl

theorem saveEntry_done (h : Shows c rs e d) (opens : Bool) (hroom : 2 * d.room ≤ fuel) :
    Done (saveEntry fuel opens (some c) e) (d.handle (.save opens)) := by
  have hfront : c.front = none ↔ d.contacts = [] := by
    rw [h.holds.repr.front_eq, ← h.contacts, List.map_eq_nil_iff]
    cases rs <;> simp
  have hsave := h.holds.saveLoop (h.length_lt hroom)
  rw [saveEntry, Directory.handle]
  by_cases hnil : d.contacts = []
  · rw [if_pos (hfront.mpr hnil), if_pos hnil]
    exact (h.say _).done rfl
  rw [if_neg (mt hfront.mp hnil), if_neg hnil]
  cases opens with
  | false => exact (h.say _).done rfl
  | true =>
    have hends : ∀ p ∈ rs.map Record.data, p.FieldsEnd := by
      intro p hp
      obtain ⟨r, hr, rfl⟩ := List.mem_map.mp hp
      exact h.holds.ends r hr
    have hfile : FileHas (some (saved (rs.map Record.data))) (some d.contacts) := by
      have hsaved := FileHas.some (rs.map Record.data) [] (by decide) hends
      rw [List.append_nil, List.map_map] at hsaved
      rw [← h.contacts]
      exact hsaved
    have hnew : Shows c rs { e with file := some (saved (rs.map Record.data)) }
        { d with file := some d.contacts } :=
      { h with file := hfile }
    apply hnew.done (r := some 0)
    simp only [Bool.not_true, Bool.false_eq_true, if_false, hsave, Run.ret_bind]

theorem loadEntry_done (h : Shows c rs e d) {opens : Bool} {junk : Person} {mem : Supply}
    (hop : Served ⟨some c, e⟩ (.load opens junk mem)) (hroom : 2 * d.room ≤ fuel) :
    Done (loadEntry fuel (if opens then e.file.map freads else none) junk mem (some c) e)
      (d.handle (.load opens)) := by
  rw [Directory.handle]
  cases opens with
  | false => exact (h.say _).done rfl
  | true =>
    have hfile := h.file
    simp only [if_true]
    generalize hbytes : e.file = file at hfile ⊢
    generalize hcs : d.file = cs at hfile ⊢
    cases hfile with
    | none => exact (h.say _).done rfl
    | some ps part hpart hends =>
      have hroom' : rs.length + ps.length ≤ fuel ∧ ps.length < fuel := by
        unfold Directory.room at hroom
        rw [hcs, Option.getD_some, List.length_map] at hroom
        have hlen := h.length
        omega
      have hlinks : ps ≠ [] → LinksNull rs (mem 0).1 := by
        intro hps hrs
        refine hop.null (fun hadds => ?_) c rfl (by rw [h.holds.repr.front_eq, hrs]; rfl)
        have hshort := hadds rfl _ hbytes
        rw [List.length_append, length_saved] at hshort
        have hrecord : personNameLength + personPhoneLength ≤
            (personNameLength + personPhoneLength) * ps.length :=
          Nat.le_mul_of_pos_right _ (List.length_pos_of_ne_nil hps)
        omega
      have hfresh := h.listed.fresh_load hop.fresh
      obtain ⟨l, h', hins, hh'⟩ := h.holds.insertAll hfresh hlinks hends hroom'.1
      let e' : Env := { e with heap := h' }
      have hnew : Shows { c with front := l } _ e' (d.load (ps.map Person.contact)) :=
        { holds := hh'
          contacts := by rw [contacts_reinsert, supplied_contact, h.contacts]; rfl
          size := h.size
          file := h.file
          output := h.output }
      apply (hnew.say "读取成功\n").done (r := some 0)
      rw [Option.map_some, loadEntry_saved hpart hroom'.2, hins, Run.ret_bind]

end Operations

/-! ## Sessions -/

section Sessions

variable {fuel : Nat} {w w' : World} {d : Directory} {op : Operator}

/-- **One selection.** It returns, and its state represents what the request makes. -/
theorem select_represents (h : Represents w d) (hop : Served w op) (hroom : 2 * d.room ≤ fuel)
    (hsize : d.size < intMax) :
    ∃ w', select fuel op w = .ret w' ∧ Represents w' (d.handle op.request) := by
  obtain ⟨contacts, e⟩ := w
  obtain ⟨c, rs, hc, h⟩ := h
  cases hc
  have hdone : Done (entry fuel op (some c) e) (d.handle op.request) := by
    cases op with
    | insert a addr junk name phone => exact insertEntry_done h hop hroom hsize
    | print => exact printEntry_done h hroom
    | delete junk name => exact deleteEntry_done h hop hroom
    | search junk name => exact searchEntry_done h hop hroom
    | save opens => exact saveEntry_done h opens hroom
    | load opens junk mem => exact loadEntry_done h hop hroom
  obtain ⟨res, hres, hr⟩ := hdone
  refine ⟨_, ?_, hr⟩
  simp only [select, hres, Run.ret_bind]

/-- The directory that the operations make of a file. -/
def directory (file : Option (List Contact)) (ops : List Operator) : Directory :=
  (Directory.start file).run (ops.map Operator.request)

theorem represents_start {file : Option (List Byte)} {cs : Option (List Contact)}
    (hfile : FileHas file cs) : Represents { env := { file := file } } (.start cs) :=
  ⟨{}, [], rfl, ⟨holds_nil, rfl, rfl, hfile, rfl⟩⟩

/-- The fuel is for the loops over the list, which each operation may double. -/
theorem exec_represents {w : World} {d : Directory} {ops : List Operator} (hr : Represents w d)
    (hsize : d.size + ops.length ≤ intMax) (hfuel : d.room * 2 ^ (ops.length + 1) ≤ fuel)
    (hops : Along (select fuel) Served w ops) :
    ∃ w', exec (select fuel) ops w = .ret w' ∧
      Represents w' (d.run (ops.map Operator.request)) := by
  let R : Nat → World → Directory → Prop := fun n w d =>
    Represents w d ∧ d.size + n ≤ intMax ∧ d.room * 2 ^ (n + 1) ≤ fuel
  have hstep : ∀ n w d op, R (n + 1) w d → Served w op →
      ∃ w', select fuel op w = .ret w' ∧ R n w' (d.handle op.request) := by
    rintro n w d op ⟨hr, hsize, hroom⟩ hop
    have hpow : d.room * 2 ^ (n + 2) = 2 * d.room * 2 ^ (n + 1) := by
      rw [Nat.pow_succ 2 (n + 1)]
      ac_rfl
    rw [hpow] at hroom
    have hdouble : 2 * d.room ≤ fuel := (Nat.le_mul_of_pos_right _ (Nat.two_pow_pos _)).trans hroom
    obtain ⟨w', hw', hr'⟩ := select_represents hr hop hdouble (by omega)
    have hsize' := d.size_handle_le op.request
    refine ⟨w', hw', hr', by omega, le_trans ?_ hroom⟩
    exact Nat.mul_le_mul_right _ (d.room_handle_le op.request)
  obtain ⟨w', hw', hr', -⟩ := exec_simulates hstep (show R ops.length w d from ⟨hr, hsize, hfuel⟩) hops
  refine ⟨w', hw', ?_⟩
  rw [Directory.run, List.foldl_map]
  exact hr'

/-- **Sessions of the menu.** A session of less than 2^31 operations returns, and the memory, the file
and the output are those of its directory. -/
theorem session_represents {file : Option (List Byte)} {cs : Option (List Contact)}
    {ops : List Operator} (hfile : FileHas file cs) (hlen : ops.length ≤ intMax)
    (hfuel : (Directory.start cs).room * 2 ^ (ops.length + 1) ≤ fuel)
    (hops : Along (select fuel) Served { env := { file := file } } ops) :
    ∃ w, exec (select fuel) ops { env := { file := file } } = .ret w ∧
      Represents w (directory cs ops) :=
  exec_represents (represents_start hfile) (by simpa [Directory.start] using hlen) hfuel hops

/-- `b` and `a` are added and printed; new memory holds `junk`. -/
def twoContacts (junk : Person) : List Operator :=
  [.insert ⟨10, none, none⟩ 20 junk (some [98]) (some [49]),
    .insert ⟨11, some 7, some 7⟩ 21 junk (some [97]) (some [50]), .print]

theorem twoContacts_served (junk : Person) :
    Along (select 16) Served { env := { file := none } } (twoContacts junk) := by
  refine ⟨⟨⟨rfl, rfl⟩, fun _ _ _ => ⟨rfl, rfl⟩, ?_, nofun, nofun⟩,
    ⟨⟨rfl, rfl⟩, fun c hc hnull => ?_, ?_, nofun, nofun⟩,
    along_cons.mpr ⟨⟨trivial, trivial, ?_, trivial⟩, fun _ _ => trivial⟩⟩
  · simp [ShortWords, Operator.words, personNameLength, personPhoneLength]
  · cases hc
    cases hnull
  · simp [ShortWords, Operator.words, personNameLength, personPhoneLength]
  · simp [ShortWords, Operator.words]

theorem session_represents_sample : ∃ w, exec (select 16) (twoContacts blank) {} = .ret w ∧
    w.env.output.take 2 = [.contact [98, 0] [49, 0], .contact [97, 0] [50, 0]] := by
  obtain ⟨w, hw, c, rs, -, h⟩ := session_represents .none (by decide) (by decide)
    (twoContacts_served blank)
  exact ⟨w, hw, by rw [h.output]; decide⟩

end Sessions

end AddressBook
end LinuxBase
