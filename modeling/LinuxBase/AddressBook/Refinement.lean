import LinuxBase.AddressBook.Simulation
import LinuxBase.Lib.Trace

/-!
# The contact list is a sorted list

A `Session` calls `person_insert`, `person_delete` and `person_search` in any order. Its abstract
counterpart is a `Book`: a list of records without pointers. Where a new record goes is a parameter
of the `Book`:

* `sortedBook`: before the first record whose name is not smaller under `compare_name`;
* `recentBook`: in front of all others, so that the first record with a name is the one that was
  inserted last.

`session_refines`: if `malloc` returns dead blocks with null links and all names are terminated, a
session returns, its heap represents the list of the `sortedBook`, and both books give its answers.
The invariant is that the names are terminated and sorted, and that the two books have the same
records of each name in the same order.
-/

namespace LinuxBase
namespace AddressBook

open CString KeySort

inductive Call where
  | insert (a : Alloc) (addr : Addr) (p : Person)
  | delete (name : List Byte)
  | search (name : List Byte)

/-- What a call returned. -/
inductive Answer where
  | code (c : Int)
  | person (p : Ptr)
  deriving DecidableEq

structure Session where
  front : Ptr := none
  heap : Heap := {}
  answers : List Answer := []

/-- One call; the person of an insertion is in a new block. -/
def call (fuel : Nat) : Call → Session → Run Session
  | .insert a addr p, s => do
    let (c, front, h) ← personInsert fuel a addr (some s.front) (s.heap.mallocPerson addr p)
    .ret ⟨front.getD s.front, h, .code c :: s.answers⟩
  | .delete name, s => do
    let (c, front, h) ← personDelete fuel name (some s.front) s.heap
    .ret ⟨front.getD s.front, h, .code c :: s.answers⟩
  | .search name, s => do
    let p ← personSearch fuel name s.front s.heap
    .ret { s with answers := .person p :: s.answers }

/-- `malloc` returns dead blocks. -/
def Fresh (s : Session) : Call → Prop
  | .insert a addr _ => s.heap.nodes a.addr = none ∧ s.heap.persons addr = none
  | _ => True

/-- New nodes start with null links. -/
def Call.NullLinks : Call → Prop
  | .insert a _ _ => a.prev = none ∧ a.next = none
  | _ => True

/-- The names end inside their field. -/
def Call.Terminated : Call → Prop
  | .insert _ _ p => p.Terminated
  | .delete name => 0#8 ∈ name
  | .search name => 0#8 ∈ name

instance (s : Session) : DecidablePred (Fresh s)
  | .insert a addr _ =>
    inferInstanceAs (Decidable (s.heap.nodes a.addr = none ∧ s.heap.persons addr = none))
  | .delete _ => .isTrue trivial
  | .search _ => .isTrue trivial

instance : DecidablePred Call.NullLinks
  | .insert a _ _ => inferInstanceAs (Decidable (a.prev = none ∧ a.next = none))
  | .delete _ => .isTrue trivial
  | .search _ => .isTrue trivial

instance : DecidablePred Call.Terminated
  | .insert _ _ p => inferInstanceAs (Decidable p.Terminated)
  | .delete name => inferInstanceAs (Decidable (0#8 ∈ name))
  | .search name => inferInstanceAs (Decidable (0#8 ∈ name))

/-! ## Books -/

/-- The list of records, and the answers. -/
structure Book where
  list : List Record := []
  answers : List Answer := []

/-- One call; `ins` says where a new record goes. -/
def Book.call (ins : Record → List Record → List Record) (b : Book) : Call → Book
  | .insert a addr p => ⟨ins ⟨a.addr, addr, p⟩ b.list, .code 0 :: b.answers⟩
  | .delete name => ⟨b.list.eraseP (Record.hasName name),
      .code (if b.list.any (Record.hasName name) then 0 else -1) :: b.answers⟩
  | .search name => ⟨b.list,
      .person ((b.list.find? (Record.hasName name)).map Record.person) :: b.answers⟩

/-- `y` is not smaller than `x` under `compare_name`. -/
def NameLE (x y : Record) : Prop :=
  compareName x.data.bytes y.data.bytes = .ret (-1) ∨ compareName x.data.bytes y.data.bytes = .ret 0

instance : DecidableRel NameLE := fun _ _ => inferInstanceAs (Decidable (_ ∨ _))

/-- New records go before the first one that is not smaller. -/
def sortedInsert (r : Record) (rs : List Record) : List Record := rs.orderedInsert NameLE r

def sortedBook (cs : List Call) : Book := cs.foldl (Book.call sortedInsert) {}

/-- New records go in front. -/
def recentBook (cs : List Call) : Book := cs.foldl (Book.call List.cons) {}

/-- What a session after the calls `cs` has to do with the books. -/
structure Refines (s : Session) (cs : List Call) : Prop where
  repr : Repr s.heap s.front (sortedBook cs).list
  answers : s.answers = (sortedBook cs).answers
  sorted : (sortedBook cs).list.Pairwise NameLE
  once : (sortedBook cs).list.Nodup ∧ (sortedBook cs).list.Perm (recentBook cs).list
  recent : s.answers = (recentBook cs).answers

/-! ## The two books -/

/-- The names in the book end inside their field. -/
def Book.Terminated (b : Book) : Prop := ∀ r ∈ b.list, r.data.Terminated

theorem nameLE_iff {r x : Record} (h : r.data.Terminated) : NameLE r x ↔ KeyLE Record.key r x := by
  obtain ⟨c, hc⟩ := @compareName_returns r.data x.data fun _ => h.mem_bytes
  unfold NameLE
  rw [hc, Run.ret.injEq, Run.ret.injEq]
  exact (compareName_agrees hc).le_iff

theorem sortedInsert_eq {r : Record} (hr : r.data.Terminated) (rs : List Record) :
    sortedInsert r rs = rs.orderedInsert (KeyLE Record.key) r :=
  orderedInsert_congr fun _ _ => nameLE_iff hr

/-- One call keeps the names terminated and sorted. -/
theorem Book.call_sorted {b : Book} {c : Call} (hb : b.Terminated)
    (hs : KeySorted Record.key b.list) (hc : c.Terminated) :
    (b.call sortedInsert c).Terminated ∧
      KeySorted Record.key (b.call sortedInsert c).list := by
  cases c with
  | insert a addr p =>
    rw [Book.call, sortedInsert_eq (r := ⟨a.addr, addr, p⟩) hc]
    refine ⟨fun r hr => ?_, hs.orderedInsert _⟩
    rcases List.mem_orderedInsert _ |>.mp hr with rfl | hr
    · exact hc
    · exact hb r hr
  | delete name => exact ⟨fun r hr => hb r (List.mem_of_mem_eraseP hr), hs.eraseP _⟩
  | search name => exact ⟨hb, hs⟩

/-- The books have the same records of each name in the same order, and gave the same answers. -/
structure SameGroups (b b' : Book) : Prop where
  groups : ∀ k, group Record.key k b.list = group Record.key k b'.list
  answers : b.answers = b'.answers

theorem SameGroups.call {b b' : Book} {c : Call} (h : SameGroups b b') (hc : c.Terminated) :
    SameGroups (b.call sortedInsert c) (b'.call List.cons c) := by
  obtain ⟨hg, ha⟩ := h
  cases c with
  | insert a addr p =>
    refine ⟨fun k => ?_, by rw [Book.call, Book.call, ha]⟩
    rw [Book.call, sortedInsert_eq (r := ⟨a.addr, addr, p⟩) hc, group_orderedInsert]
    exact group_cons_congr (hg k) _
  | delete name =>
    refine ⟨fun k => ?_, ?_⟩
    · simp only [Book.call, hasName_eq]
      rw [group_eraseP, group_eraseP, hg]
    · simp only [Book.call, hasName_eq, any_eq_isSome_group, hg, ha]
  | search name =>
    refine ⟨hg, ?_⟩
    simp only [Book.call, hasName_eq, find?_eq_head?_group, hg, ha]

theorem books_sameGroups {cs : List Call} (hc : ∀ c ∈ cs, c.Terminated) :
    SameGroups (sortedBook cs) (recentBook cs) :=
  List.foldl_rel ⟨fun _ => rfl, rfl⟩ fun c hcs _ _ h => h.call (hc c hcs)

/-! ## The session -/

/-- The session represents the book; `n` calls are still to come. -/
structure Tracks (fuel n : Nat) (s : Session) (b : Book) : Prop where
  repr : Repr s.heap s.front b.list
  answers : s.answers = b.answers
  terminated : b.Terminated
  sorted : KeySorted Record.key b.list
  fuel_le : b.list.length + n < fuel

theorem Book.Terminated.strcmp_returns {b : Book} (ht : b.Terminated) {name : List Byte}
    (hname : 0#8 ∈ name) : ∀ x ∈ b.list, ∃ c, strcmp name x.data.bytes = .ret c := fun x hx =>
  CString.strcmp_returns (.inr (.inr ⟨hname, (ht x hx).mem_bytes⟩))

theorem call_tracks {fuel n : Nat} {s : Session} {b : Book} {c : Call}
    (h : Tracks fuel (n + 1) s b) (hf : Fresh s c) (hn : c.NullLinks) (hc : c.Terminated) :
    ∃ s', call fuel c s = .ret s' ∧
      Tracks fuel n s' (b.call sortedInsert c) := by
  obtain ⟨hr, ha, ht, hs, hl⟩ := h
  obtain ⟨ht', hs'⟩ := Book.call_sorted ht hs hc
  cases c with
  | insert a addr p =>
    obtain ⟨hfn, hfp⟩ := hf
    have hpt : p.Terminated := hc
    obtain ⟨hnode, hper⟩ := hr.fresh hfn hfp
    have hsim := (personInsert_sim p hr (fun _ => hn) hnode hper fuel).rel (by omega)
    rw [insertRec_returns fun _ _ _ => hpt.mem_bytes] at hsim
    obtain ⟨⟨c, front, h'⟩, ho, hco, l, hl', hr', -⟩ := hsim.of_ret
    simp only at hco hl' hr'
    subst hco hl'
    refine ⟨⟨l, h', .code 0 :: s.answers⟩, ?_, ?_, ?_, ht', hs', ?_⟩
    · simp only [call, ho, Run.ret_bind, Option.getD_some]
    · rw [Book.call, sortedInsert_eq (r := ⟨a.addr, addr, p⟩) hc]; exact hr'
    · simp only [Book.call, ha]
    · simp only [Book.call, sortedInsert, List.orderedInsert_length]; omega
  | delete name =>
    have hsim := (personDelete_sim name hr fuel).rel (by omega)
    rw [deleteRec_returns (ht.strcmp_returns hc)] at hsim
    obtain ⟨⟨c, front, h'⟩, ho, hco, l, hl', hr', -⟩ := hsim.of_ret
    simp only at hco hl' hr'
    subst hco hl'
    refine ⟨⟨l, h', (b.call sortedInsert (.delete name)).answers⟩, ?_, hr', rfl, ht', hs', ?_⟩
    · simp only [call, ho, Run.ret_bind, Option.getD_some, ha, Book.call]
    · have := (List.eraseP_sublist (p := Record.hasName name) (l := b.list)).length_le
      simp only [Book.call]; omega
  | search name =>
    have hsim := (personSearch_sim name hr fuel).rel (by omega)
    rw [searchRec_returns (ht.strcmp_returns hc)] at hsim
    obtain ⟨p, ho, hp⟩ := hsim.of_ret
    subst hp
    refine ⟨{ s with answers := (b.call sortedInsert (.search name)).answers }, ?_, hr, rfl, ht',
      hs', ?_⟩
    · simp only [call, ho, Run.ret_bind, ha, Book.call]
    · simp only [Book.call]; omega

/-- **The contact list is a sorted list.** Any session returns and refines the books of its calls
(module doc); the fuel only has to be larger than the number of calls. -/
theorem session_refines {fuel : Nat} {cs : List Call} (hfuel : cs.length < fuel)
    (hf : Along (call fuel) Fresh {} cs) (hn : ∀ c ∈ cs, c.NullLinks)
    (hc : ∀ c ∈ cs, c.Terminated) :
    ∃ s, exec (call fuel) cs {} = .ret s ∧ Refines s cs := by
  have hstart : Tracks fuel cs.length {} {} :=
    ⟨repr_nil _, rfl, by simp [Book.Terminated], List.Pairwise.nil, by simpa using hfuel⟩
  have hp : Along (call fuel) (fun s c => Fresh s c ∧ c.NullLinks ∧ c.Terminated) {} cs :=
    hf.and (along_of_mem fun c hcs => ⟨hn c hcs, hc c hcs⟩)
  have hrun : ∃ s, exec (call fuel) cs {} = .ret s ∧ Tracks fuel 0 s (sortedBook cs) := by
    refine exec_simulates (fun n s b c h hp => ?_) hstart hp
    exact call_tracks h hp.1 hp.2.1 hp.2.2
  obtain ⟨s, hs, hr, ha, ht, hso, -⟩ := hrun
  have hg := books_sameGroups hc
  refine ⟨s, hs, hr, ha, hso.imp_of_mem fun hx _ hle => (nameLE_iff (ht _ hx)).mpr hle,
    ⟨hr.nodup_node.of_map, perm_of_group_eq hg.groups⟩, ha.trans hg.answers⟩

/-- The person with the one-letter name `c` and no phone. -/
def letter (c : Byte) : Person := ⟨c :: List.replicate 26 0#8, rfl⟩

/-- Two persons `b` and one `a`; one `b` leaves, and the other is looked up. -/
def sampleCalls : List Call :=
  [.insert ⟨10, none, none⟩ 20 (letter 98), .insert ⟨11, none, none⟩ 21 (letter 97),
    .insert ⟨12, none, none⟩ 22 (letter 98), .delete [98, 0], .search [98, 0], .delete [99, 0]]

theorem session_refines_sample :
    ∃ s, exec (call 7) sampleCalls {} = .ret s ∧ Refines s sampleCalls :=
  session_refines (by decide) (by decide) (by decide) (by decide)

end AddressBook
end LinuxBase
