import LinuxBase.AddressBook.Basic

/-!
# The menu operations (`address-book.c`)

The functions that `main` calls for a selection. They get what the library functions return:

* `malloc`: the addresses and the old contents of the new blocks;
* `scanf("%s", ..)`: a `Token`, or none at the end of the input, where it stores nothing. It stores
  the token and a NUL, and does not know the size of the field;
* `fread`: an `Fread` each time; `freads` are those of a file without read errors;
* `fopen`: whether it succeeds. `fwrite` succeeds and writes the whole record.

A return value of none is a function that ends without a `return`. `LOG` is `printf`.
-/

namespace LinuxBase
namespace AddressBook

open CString

structure Contacts where
  front : Ptr := none
  size : Int := 0
  deriving DecidableEq

/-- What `LOG` printed: a text, or the name and the phone of a contact. -/
inductive Output where
  | text (s : String)
  | contact (name phone : List Byte)
  deriving DecidableEq

/-- The memory, the file `person` if there is one, and the output, newest first. -/
structure Env where
  heap : Heap := {}
  file : Option (List Byte) := none
  output : List Output := []

def Env.say (e : Env) (s : String) : Env := { e with output := .text s :: e.output }

/-- A word of the input. -/
abbrev Token := List Byte

/-- `scanf("%s", p)` for the place `off` of a block. -/
def scanf {n : Nat} (block : Block n) (off : Nat) : Option Token → Run (Block n)
  | none => .ret block
  | some word => block.write off (word ++ [0#8])

/-- `n++` of an `int`; an overflow is not defined. -/
def increment (n : Int) : Run Int := if n < 2147483647 then .ret (n + 1) else .fault

/-- `n--` of an `int`. -/
def decrement (n : Int) : Run Int := if -2147483648 < n then .ret (n - 1) else .fault

/-- `LOG("name: %s, phone: %s\n", ..)`. -/
def logPerson (person : Person) (e : Env) : Run Env := do
  let name ← readString person.bytes
  let phone ← readString person.phone
  .ret { e with output := .contact name phone :: e.output }

/-- `person_traverse`. -/
def personTraverse : Nat → Ptr → Env → Run (Int × Env)
  | 0, _, _ => .more
  | _ + 1, none, e => .ret (0, e)
  | fuel + 1, some node, e => do
    let n ← e.heap.node node
    let person ← e.heap.person n.val
    let e ← logPerson person e
    personTraverse fuel n.next e

/-- What an entry function returned, and `*contacts` after it. -/
abbrev Result := Option Int × Option Contacts × Env

/-- `insert_entry`; `junk` is the old contents of the new person. -/
def insertEntry (fuel : Nat) (a : Alloc) (addr : Addr) (junk : Person) (name phone : Option Token)
    (contacts : Option Contacts) (e : Env) : Run Result :=
  match contacts with
  | none => .ret (some (-1), none, e)
  | some c => do
    let e := e.say "请输入你的姓名："
    let person ← scanf junk 0 name
    let e := e.say "请输入你的手机号："
    let person ← scanf person personNameLength phone
    let (ret, front, h) ←
      personInsert fuel a addr (some c.front) (e.heap.mallocPerson addr person)
    let c := { c with front := front.getD c.front }
    let e := { e with heap := h }
    if ret = 0 then
      let e := e.say "添加成功\n"
      let size ← increment c.size
      .ret (none, some { c with size := size }, e)
    else
      let e := e.say "添加失败\n"
      let h ← e.heap.freePerson addr
      .ret (none, some c, { e with heap := h })

/-- `delete_entry`; `junk` is the old contents of its array `name`. -/
def deleteEntry (fuel : Nat) (junk : Block personNameLength) (name : Option Token)
    (contacts : Option Contacts) (e : Env) : Run Result :=
  match contacts with
  | none => .ret (some (-1), none, e)
  | some c =>
    if c.size = 0 then .ret (some (-1), some c, e.say "暂无数据\n")
    else do
      let e := e.say "请输入要删除的姓名："
      let name ← scanf junk 0 name
      let (ret, front, h) ← personDelete fuel name.bytes (some c.front) e.heap
      let c := { c with front := front.getD c.front }
      let e := { e with heap := h }
      if ret = 0 then
        let e := e.say "删除成功\n"
        let size ← decrement c.size
        .ret (none, some { c with size := size }, e)
      else .ret (none, some c, e.say "删除失败\n")

/-- `print_entry`. -/
def printEntry (fuel : Nat) (contacts : Option Contacts) (e : Env) : Run Result :=
  match contacts with
  | none => .ret (some (-1), none, e)
  | some c => do
    let (_, e) ← personTraverse fuel c.front e
    .ret (none, some c, e)

/-- `search_entry`. -/
def searchEntry (fuel : Nat) (junk : Block personNameLength) (name : Option Token)
    (contacts : Option Contacts) (e : Env) : Run Result :=
  match contacts with
  | none => .ret (some (-1), none, e)
  | some c => do
    let e := e.say "请输入要删除的姓名："
    let name ← scanf junk 0 name
    match ← personSearch fuel name.bytes c.front e.heap with
    | some p =>
      let person ← e.heap.person p
      let e ← logPerson person e
      .ret (none, some c, e)
    | none => .ret (none, some c, e.say "查无此人\n")

/-! ## Files -/

/-- The `for` of `save_entry`: the bytes that it writes. -/
def saveLoop (h : Heap) : Nat → Ptr → Run (List Byte)
  | 0, _ => .more
  | _ + 1, none => .ret []
  | fuel + 1, some node => do
    let n ← h.node node
    let person ← h.person n.val
    let rest ← saveLoop h fuel n.next
    .ret (person.bytes ++ rest)

/-- `save_entry`; `opens` says whether `fopen` succeeds. -/
def saveEntry (fuel : Nat) (opens : Bool) (contacts : Option Contacts) (e : Env) : Run Result :=
  match contacts with
  | none => .ret (some (-1), none, e)
  | some c =>
    if c.front = none then .ret (some (-1), some c, e.say "写入文件失败（没有数据）")
    else if !opens then .ret (some (-1), some c, e.say "写入文件失败（打开文件失败）")
    else do
      let bytes ← saveLoop e.heap fuel c.front
      .ret (some 0, some c, { e with file := some bytes })

/-- One `fread(&person, sizeof(person), 1, fd)`. -/
inductive Fread where
  | item (p : Person)
  /-- The file ended behind the bytes `part`. -/
  | eof (part : List Byte)
  /-- A read error behind the bytes `part`, which does not count as the end of the file. -/
  | error (part : List Byte)

/-- What an `fread` leaves in `person`, and `feof` after it. -/
def Fread.into (person : Person) : Fread → Run (Person × Bool)
  | .item p => .ret (p, false)
  | .eof part => do
    let person ← person.write 0 part
    .ret (person, true)
  | .error part => do
    let person ← person.write 0 part
    .ret (person, false)

/-- The `fread` of a file of which `rest` is not yet read. -/
def fread (rest : List Byte) : Fread :=
  if h : personNameLength + personPhoneLength ≤ rest.length then
    .item ⟨rest.take (personNameLength + personPhoneLength), by simp [h]⟩
  else .eof rest

/-- The reads of a file with the contents `bytes`. -/
def freads (bytes : List Byte) (i : Nat) : Fread :=
  fread (bytes.drop ((personNameLength + personPhoneLength) * i))

/-- The blocks that `malloc` returns for the `i`-th record: a node and a person. -/
abbrev Supply := Nat → Alloc × Addr

/-- The `while (!feof(fd))` of `load_entry` before the `i`-th record, which is in `person`. -/
def loadLoop (walk : Nat) (reads : Nat → Fread) (mem : Supply) :
    Nat → Nat → Person → Bool → Ptr → Heap → Run (Ptr × Heap)
  | 0, _, _, _, _, _ => .more
  | fuel + 1, i, person, eof, front, h =>
    if eof then .ret (front, h)
    else do
      let (_, l, h) ←
        personInsert walk (mem i).1 (mem i).2 (some front) (h.mallocPerson (mem i).2 person)
      let (person, eof) ← (reads (i + 1)).into person
      loadLoop walk reads mem fuel (i + 1) person eof (l.getD front) h

/-- `load_entry`; `fd` are the reads of the file that `fopen` opened, if it did. -/
def loadEntry (fuel : Nat) (fd : Option (Nat → Fread)) (junk : Person) (mem : Supply)
    (contacts : Option Contacts) (e : Env) : Run Result :=
  match contacts, fd with
  | none, _ => .ret (some (-1), none, e)
  | some c, none => .ret (some (-1), some c, e.say "读取文件失败（打开文件失败）")
  | some c, some reads => do
    let (person, eof) ← (reads 0).into junk
    let (front, h) ← loadLoop fuel reads mem fuel 0 person eof c.front e.heap
    .ret (some 0, some { c with front := front }, { e with heap := h }.say "读取成功\n")

/-! ## The menu -/

/-- A selection of the menu, with what the library functions return. -/
inductive Operator where
  | insert (a : Alloc) (addr : Addr) (junk : Person) (name phone : Option Token)
  | print
  | delete (junk : Block personNameLength) (name : Option Token)
  | search (junk : Block personNameLength) (name : Option Token)
  | save (opens : Bool)
  | load (opens : Bool) (junk : Person) (mem : Supply)

/-- `main` between two selections; its `contacts` are never `NULL`. -/
structure World where
  contacts : Option Contacts := some {}
  env : Env := {}

/-- The function that `main` calls for a selection. -/
def entry (fuel : Nat) (op : Operator) (contacts : Option Contacts) (e : Env) : Run Result :=
  match op with
  | .insert a addr junk name phone => insertEntry fuel a addr junk name phone contacts e
  | .print => printEntry fuel contacts e
  | .delete junk name => deleteEntry fuel junk name contacts e
  | .search junk name => searchEntry fuel junk name contacts e
  | .save opens => saveEntry fuel opens contacts e
  | .load opens junk mem =>
    loadEntry fuel (if opens then e.file.map freads else none) junk mem contacts e

/-- The `switch` of `main`. -/
def select (fuel : Nat) (op : Operator) (w : World) : Run World := do
  let (_, contacts, env) ← entry fuel op w.contacts w.env
  .ret ⟨contacts, env⟩

end AddressBook
end LinuxBase
