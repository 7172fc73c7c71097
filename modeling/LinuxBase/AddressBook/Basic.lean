import LinuxBase.Lib.CString
import LinuxBase.Lib.DList

/-!
# The contact list (`address-book.c`)

The list functions on a heap of `struct Node` and `struct Person` blocks. An access to a dead block
is a `fault`, and so is a read past the end of a `struct Person`.

* A `struct Node *` or `struct Person *` is an address, or none for `NULL` (`Ptr`). `malloc` does not
  fail here; `Alloc` is what it returned for a node: the address and the contents of its links,
  which `malloc` does not clear.
* A `char *` to the name of a person reads on into the phone, which follows it: it is the whole
  `bytes` of the person.
* The loops over the list take a fuel, since a list with wild links need not end.
* A `struct Node **` is the value that it points to, or none for `NULL`; the functions return the
  new value.
-/

namespace LinuxBase
namespace AddressBook

open CString

abbrev Addr := Nat

/-- A pointer; none is `NULL`. -/
abbrev Ptr := Option Addr

def personNameLength : Nat := 16
def personPhoneLength : Nat := 11

/-- The bytes of a `struct Person`: the name, then the phone. -/
abbrev Person := Block (personNameLength + personPhoneLength)

def Person.name (p : Person) : List Byte := p.bytes.take personNameLength

def Person.phone (p : Person) : List Byte := p.bytes.drop personNameLength

/-- A `struct Node`; `val` is its `struct Person *node`. -/
abbrev Node := DList.Cell Addr Addr

/-- What `malloc(sizeof(struct Node))` returned. -/
structure Alloc where
  addr : Addr
  prev : Ptr := none
  next : Ptr := none
  deriving DecidableEq, Repr

/-- The live blocks. -/
structure Heap where
  nodes : DList.Mem Addr Addr := fun _ => none
  persons : Addr → Option Person := fun _ => none

namespace Heap

def node (h : Heap) (a : Addr) : Run Node := .ofOption (h.nodes a)

def person (h : Heap) (a : Addr) : Run Person := .ofOption (h.persons a)

/-- `a->next = q`. -/
def setNext (h : Heap) (a : Addr) (q : Ptr) : Run Heap := do
  let _ ← h.node a
  .ret { h with nodes := DList.setNext h.nodes a q }

/-- `a->prev = p`. -/
def setPrev (h : Heap) (a : Addr) (p : Ptr) : Run Heap := do
  let _ ← h.node a
  .ret { h with nodes := DList.setPrev h.nodes a p }

/-- `if (p != NULL) p->next = q`. -/
def linkNext (h : Heap) (p q : Ptr) : Run Heap :=
  match p with
  | some a => h.setNext a q
  | none => .ret h

/-- `if (q != NULL) q->prev = p`. -/
def linkPrev (h : Heap) (q p : Ptr) : Run Heap :=
  match q with
  | some a => h.setPrev a p
  | none => .ret h

/-- `malloc` of a node, and `node->node = person`. -/
def mallocNode (h : Heap) (a : Alloc) (person : Addr) : Heap :=
  { h with nodes := Function.update h.nodes a.addr (some ⟨a.prev, a.next, person⟩) }

/-- `malloc` of a person, and the stores into it. -/
def mallocPerson (h : Heap) (a : Addr) (p : Person) : Heap :=
  { h with persons := Function.update h.persons a (some p) }

def freePerson (h : Heap) (a : Addr) : Run Heap := do
  let _ ← h.person a
  .ret { h with persons := Function.update h.persons a none }

def freeNode (h : Heap) (a : Addr) : Run Heap := do
  let _ ← h.node a
  .ret { h with nodes := Function.update h.nodes a none }

end Heap

/-! ## `compare_name` -/

/-- The `while (1)` of `compare_name`, on plain (signed) `char`. -/
def compareLoop : List Byte → List Byte → Run Int
  | l :: lhs, r :: rhs =>
    if l.toInt < r.toInt then .ret (-1)
    else if l.toInt > r.toInt then .ret 1
    else compareLoop lhs rhs
  | _, _ => .fault

def compareName (lhs rhs : List Byte) : Run Int := do
  if (← strcmp lhs rhs) = 0 then .ret 0
  else compareLoop lhs rhs

/-! ## The list functions -/

/-- The `for` of `list_insert_front` at `node`; `name` is the name of `item`. -/
def insertLoop (item : Addr) (name : List Byte) (list : Ptr) (h : Heap) :
    Nat → Ptr → Run (Ptr × Heap)
  | 0, _ => .more
  | _ + 1, none => .ret (list, h)
  | fuel + 1, some node => do
    let n ← h.node node
    let list_name ← h.person n.val
    let c ← compareName name list_name.bytes
    if c = -1 ∨ c = 0 then
      let h ← h.setNext item (some node)
      let n ← h.node node
      let h ← h.setPrev item n.prev
      let n ← h.node node
      match n.prev with
      | some p =>
        let h ← h.setNext p (some item)
        let h ← h.setPrev node (some item)
        .ret (list, h)
      | none =>
        let h ← h.setPrev node (some item)
        .ret (some item, h)
    else if c = 1 ∧ n.next = none then
      let h ← h.setNext node (some item)
      let h ← h.setPrev item (some node)
      let h ← h.setNext item none
      .ret (list, h)
    else insertLoop item name list h fuel n.next

/-- `list_insert_front`. The first node keeps the links that `malloc` left in it. -/
def listInsertFront (fuel : Nat) (item : Addr) (list : Ptr) (h : Heap) : Run (Ptr × Heap) :=
  match list with
  | none => .ret (some item, h)
  | some _ => do
    let it ← h.node item
    let person ← h.person it.val
    insertLoop item person.bytes list h fuel list

/-- `list_delete`. -/
def listDelete (item : Addr) (list : Ptr) (h : Heap) : Run (Ptr × Heap) := do
  let it ← h.node item
  let h ← h.linkNext it.prev it.next
  let it ← h.node item
  let h ← h.linkPrev it.next it.prev
  let it ← h.node item
  let list := if list = some item then it.next else list
  let h ← h.setNext item none
  let h ← h.setPrev item none
  let h ← h.freePerson it.val
  let h ← h.freeNode item
  .ret (list, h)

/-- `person_insert`; `a` is what its `malloc` returned. -/
def personInsert (fuel : Nat) (a : Alloc) (person : Addr) (list : Option Ptr) (h : Heap) :
    Run (Int × Option Ptr × Heap) :=
  match list with
  | none => .ret (-1, none, h)
  | some l => do
    let (l, h) ← listInsertFront fuel a.addr l (h.mallocNode a person)
    .ret (0, some l, h)

/-- The `for` of `person_delete` and of `person_search`: the first node with the name. -/
def findLoop (name : List Byte) (h : Heap) : Nat → Ptr → Run Ptr
  | 0, _ => .more
  | _ + 1, none => .ret none
  | fuel + 1, some node => do
    let n ← h.node node
    let person ← h.person n.val
    if (← strcmp name person.bytes) = 0 then .ret (some node)
    else findLoop name h fuel n.next

/-- `person_delete`. -/
def personDelete (fuel : Nat) (name : List Byte) (list : Option Ptr) (h : Heap) :
    Run (Int × Option Ptr × Heap) :=
  match list with
  | none => .ret (-1, none, h)
  | some l => do
    match ← findLoop name h fuel l with
    | some node =>
      let (l, h) ← listDelete node l h
      .ret (0, some l, h)
    | none => .ret (-1, some l, h)

/-- `person_search`. -/
def personSearch (fuel : Nat) (name : List Byte) (list : Ptr) (h : Heap) : Run Ptr := do
  match ← findLoop name h fuel list with
  | some node =>
    let n ← h.node node
    .ret (some n.val)
  | none => .ret none

end AddressBook
end LinuxBase
