import LinuxBase.AddressBook.Fields
import LinuxBase.AddressBook.Reads

/-!
# A heap that is a contact list

`Holds h front rs`: the heap `h` has the records `rs` as the list at `front`, and nothing else: each live
block is the node or the person of a record. The list is sorted, and the persons end inside their fields.

Each list function has a rule: on such a heap it returns if its fuel is larger than the list, and what
it leaves is the heap of the new list. So no operation loses a block, and none leaves a pointer to a dead
one.
-/

namespace LinuxBase
namespace AddressBook

open CString DList KeySort

/-- The heap is the list `rs` (module doc). -/
structure Holds (h : Heap) (front : Ptr) (rs : List Record) : Prop where
  repr : Repr h front rs
  nodes : Owned h rs
  persons : ∀ a, a ∉ rs.map Record.person → h.persons a = none
  sorted : KeySorted Record.key rs
  ends : ∀ r ∈ rs, r.data.FieldsEnd

/-- The empty list. -/
theorem holds_nil : Holds {} none [] where
  repr := repr_nil _
  nodes _ _ := rfl
  persons _ _ := rfl
  sorted := List.Pairwise.nil
  ends := nofun

theorem Person.FieldsEnd.mem_bytes {p : Person} (hp : p.FieldsEnd) : 0#8 ∈ p.bytes :=
  List.mem_of_mem_take hp.name

section Rules

variable {h : Heap} {front : Ptr} {rs rs₁ rs₂ : List Record} {x : Record} {fuel : Nat}

/-! ## Insertion -/

/-- `person_insert` of a new person. -/
theorem Holds.insert (hh : Holds h front rs) {a : Alloc} {addr : Addr} {p : Person}
    (hnode : a.addr ∉ rs.map Record.node) (hper : addr ∉ rs.map Record.person)
    (hnull : LinksNull rs a) (hp : p.FieldsEnd) (hfuel : rs.length ≤ fuel) :
    ∃ l h', personInsert fuel a addr (some front) (h.mallocPerson addr p) = .ret (0, some l, h') ∧
      Holds h' l (rs.orderedInsert (KeyLE Record.key) ⟨a.addr, addr, p⟩) := by
  have hsim := (personInsert_sim p hh.repr hnull hnode hper fuel).rel hfuel
  rw [insertRec_returns fun _ _ _ => hp.mem_bytes] at hsim
  obtain ⟨⟨c, front', h'⟩, hins, hc, l, hl, hr, ho⟩ := hsim.of_ret
  simp only at hc hl hr ho
  subst hc hl
  have hmem : ∀ y, y ∈ rs.orderedInsert (KeyLE Record.key) ⟨a.addr, addr, p⟩ ↔
      y = ⟨a.addr, addr, p⟩ ∨ y ∈ rs := fun y => List.mem_orderedInsert _
  refine ⟨l, h', hins, hr, ho hh.nodes, fun b hb => ?_, hh.sorted.orderedInsert _, fun y hy => ?_⟩
  · have hsame : h'.persons = (h.mallocPerson addr p).persons :=
      personInsert_post fuel a addr front _ hins
    have hb' : b ≠ addr ∧ b ∉ rs.map Record.person := by
      constructor
      · rintro rfl
        exact hb (List.mem_map.mpr ⟨_, (hmem _).mpr (.inl rfl), rfl⟩)
      · intro hm
        obtain ⟨y, hy, hyb⟩ := List.mem_map.mp hm
        exact hb (List.mem_map.mpr ⟨y, (hmem y).mpr (.inr hy), hyb⟩)
    rw [hsame]
    exact (Function.update_of_ne hb'.1 _ _).trans (hh.persons b hb'.2)
  · rcases (hmem y).mp hy with rfl | hy
    · exact hp
    · exact hh.ends y hy

/-- `person_insert` of each person, in new blocks. -/
theorem Holds.insertAll {mem : Supply} {i : Nat} {ps : List Person} (hh : Holds h front rs)
    (hf : mem.Fresh i rs) (hnull : ps ≠ [] → LinksNull rs (mem i).1) (hps : ∀ p ∈ ps, p.FieldsEnd)
    (hfuel : rs.length + ps.length ≤ fuel) :
    ∃ l h', insertAll fuel mem i ps front h = .ret (l, h') ∧
      Holds h' l (reinsert Record.key rs (supplied mem i ps)) := by
  induction ps generalizing h front rs i with
  | nil => exact ⟨front, h, rfl, hh⟩
  | cons p ps ih =>
    rw [List.length_cons] at hfuel
    obtain ⟨hp, hps⟩ := List.forall_mem_cons.mp hps
    have hroom : rs.length ≤ fuel := by omega
    obtain ⟨l, h', hins, hh'⟩ := hh.insert (hf.node i (Nat.le_refl i)) (hf.person i (Nat.le_refl i))
      (hnull (List.cons_ne_nil p ps)) hp hroom
    have hlen := List.orderedInsert_length (KeyLE Record.key) rs ⟨(mem i).1.addr, (mem i).2, p⟩
    have hne : rs.orderedInsert (KeyLE Record.key) ⟨(mem i).1.addr, (mem i).2, p⟩ ≠ [] := by
      intro hnil
      rw [hnil] at hlen
      simp at hlen
    have hrec := insertRec_returns (r := ⟨(mem i).1.addr, (mem i).2, p⟩) fun x (_ : x ∈ rs) _ =>
      hp.mem_bytes
    obtain ⟨l', h'', hall, hh''⟩ := ih hh' (hf.insert hrec) (fun _ hnil => absurd hnil hne) hps
      (by omega)
    refine ⟨l', h'', ?_, hh''⟩
    simp only [AddressBook.insertAll, hins, Run.ret_bind, Option.getD_some, hall]

/-! ## Search and deletion -/

/-- A name of a full field can be compared with the names in the list. -/
theorem Holds.strcmp_returns (hh : Holds h front rs) (name : Block personNameLength) :
    ∀ x ∈ rs, ∃ c, strcmp name.bytes x.data.bytes = .ret c := by
  intro x hx
  have hname : x.data.name.length ≤ name.bytes.length := by
    rw [name.size_eq, Person.name, List.length_take]
    exact Nat.min_le_left _ _
  rw [x.data.name_append_phone, strcmp_append_right (hh.ends x hx).name]
  exact CString.strcmp_returns (.inr (.inl ⟨(hh.ends x hx).name, hname⟩))

theorem Holds.search (hh : Holds h front rs) (name : Block personNameLength)
    (hfuel : rs.length < fuel) : personSearch fuel name.bytes front h =
      .ret ((rs.find? (Record.hasName name.bytes)).map Record.person) := by
  have hsim := (personSearch_sim name.bytes hh.repr fuel).rel hfuel
  rw [searchRec_returns (hh.strcmp_returns name)] at hsim
  exact hsim.eq

/-- The values of the cells. -/
def SameVals (h h' : Heap) : Prop := ∀ a, (h'.nodes a).map Cell.val = (h.nodes a).map Cell.val

theorem SameVals.trans {h' h'' : Heap} (h1 : SameVals h h') (h2 : SameVals h' h'') :
    SameVals h h'' := fun a => (h2 a).trans (h1 a)

theorem linkNext_vals (p q : Ptr) : (h.linkNext p q).Post (SameVals h) := by
  cases p with
  | none => exact .ret fun _ => rfl
  | some a => exact .after fun _ => .ret fun _ => setNext_val

theorem linkPrev_vals (q p : Ptr) : (h.linkPrev q p).Post (SameVals h) := by
  cases q with
  | none => exact .ret fun _ => rfl
  | some a => exact .after fun _ => .ret fun _ => setPrev_val

/-- `list_delete` frees the person of the node. -/
theorem listDelete_frees {item : Addr} {list : Ptr} {n : Node} (hn : h.nodes item = some n) :
    (listDelete item list h).Post fun out => out.2.persons n.val = none := by
  refine .after fun _ => (linkNext_vals _ _).bind fun h₁ v₁ => .after fun _ => ?_
  refine (linkPrev_vals _ _).bind fun h₂ v₂ => ?_
  intro out hout
  obtain ⟨it, hit, hout⟩ := Run.bind_eq_ret.mp hout
  obtain ⟨h₃, -, hout⟩ := Run.bind_eq_ret.mp hout
  obtain ⟨h₄, -, hout⟩ := Run.bind_eq_ret.mp hout
  obtain ⟨h₅, hfree, hout⟩ := Run.bind_eq_ret.mp hout
  obtain ⟨h₆, hnode, hout⟩ := Run.bind_eq_ret.mp hout
  cases hout
  have hval : n.val = it.val := by
    have hvals := (v₁.trans v₂) item
    rw [hn, Run.ofOption_eq_ret.mp hit] at hvals
    exact (Option.some.inj hvals).symm
  obtain ⟨_, -, hfree⟩ := Run.bind_eq_ret.mp hfree
  cases hfree
  rw [freeNode_post _ _ hnode, hval]
  exact Function.update_self _ _ _

/-- `person_delete` frees the person that it found. -/
theorem personDelete_frees {name : List Byte} {list : Ptr} {node : Addr} {n : Node}
    (hfind : findLoop name h fuel list = .ret (some node)) (hn : h.nodes node = some n) :
    (personDelete fuel name (some list) h).Post fun out => out.2.2.persons n.val = none := by
  simp only [personDelete, hfind, Run.ret_bind]
  exact (listDelete_frees hn).bind fun out hout => .ret hout

/-- The search stops at the record that `eraseP` takes out. -/
theorem Holds.find (hh : Holds h front rs) (name : Block personNameLength) (hfuel : rs.length < fuel)
    (hx : x ∈ rs) (hgone : x ∉ rs.eraseP (Record.hasName name.bytes)) :
    findLoop name.bytes h fuel front = .ret (some x.node) ∧
      ∃ c, h.nodes x.node = some c ∧ c.val = x.person := by
  obtain ⟨⟨rs₁, rs₂⟩, hsplit⟩ := splitRec_returns (hh.strcmp_returns name)
  have hsim := (find_sim name.bytes hh.repr fuel).rel hfuel
  rw [hsplit] at hsim
  obtain ⟨p, hfind, hrs, rfl⟩ := hsim.of_ret
  obtain ⟨-, hbefore, hhead⟩ := splitRec_ret hsplit
  simp only at hrs hbefore hhead
  subst hrs
  rw [List.eraseP_append_right rs₂ fun y hy => by simp [hbefore y hy]] at hgone
  cases rs₂ with
  | nil => exact absurd (by simpa using hx) hgone
  | cons y rs₂ =>
    rw [List.eraseP_cons_of_pos (hhead y rfl)] at hgone
    have hxy : x = y := by
      simp only [List.mem_append, List.mem_cons] at hx hgone
      grind
    subst hxy
    exact ⟨hfind, _, hh.repr.node_at, rfl⟩

/-- `person_delete`. -/
theorem Holds.delete (hh : Holds h front rs) (name : Block personNameLength)
    (hfuel : rs.length < fuel) :
    ∃ l h', personDelete fuel name.bytes (some front) h =
        .ret (if rs.any (Record.hasName name.bytes) then 0 else -1, some l, h') ∧
      Holds h' l (rs.eraseP (Record.hasName name.bytes)) := by
  have hsim := (personDelete_sim name.bytes hh.repr fuel).rel hfuel
  rw [deleteRec_returns (hh.strcmp_returns name)] at hsim
  obtain ⟨⟨c, front', h'⟩, hdel, hc, l, hl, hr, ho⟩ := hsim.of_ret
  simp only at hc hl hr ho
  subst hc hl
  refine ⟨l, h', hdel, hr, ho hh.nodes, fun a ha => ?_, hh.sorted.eraseP _,
    fun y hy => hh.ends y (List.mem_of_mem_eraseP hy)⟩
  cases hlive : h'.persons a with
  | none => rfl
  | some p =>
    -- A person that is live now was in the list, and is not in the new one: it was freed.
    have hold := personDelete_post fuel name.bytes front _ hdel a p hlive
    have hmem : a ∈ rs.map Record.person := by
      by_contra hm
      rw [hh.persons a hm] at hold
      cases hold
    obtain ⟨x, hx, rfl⟩ := List.mem_map.mp hmem
    obtain ⟨hfind, n, hn, hval⟩ := hh.find name hfuel hx fun hin => ha (List.mem_map_of_mem hin)
    have hfreed := personDelete_frees hfind hn _ hdel
    rw [hval] at hfreed
    exact hlive.symm.trans hfreed

/-! ## Reading the list -/

/-- `LOG` of a person. -/
theorem logPerson_eq {p : Person} (hp : p.FieldsEnd) (e : Env) : logPerson p e =
    .ret { e with output := .contact (cstr p.bytes) (cstr p.phone) :: e.output } := by
  simp only [logPerson, readString_returns hp.mem_bytes, readString_returns hp.phone, Run.ret_bind]

theorem Holds.head_person (hh : Holds h front (rs₁ ++ x :: rs₂)) :
    h.persons x.person = some x.data :=
  hh.repr.persons x (List.mem_append_right _ List.mem_cons_self)

/-- `person_traverse` from the first node of `rs₂` on. -/
theorem personTraverse_eq {e : Env} (hh : Holds e.heap front (rs₁ ++ rs₂)) (hfuel : rs₂.length < fuel) :
    personTraverse fuel (firstNode rs₂) e = .ret (0, { e with
      output := (rs₂.map fun r => .contact (cstr r.data.bytes) (cstr r.data.phone)).reverse ++
        e.output }) := by
  induction rs₂ generalizing rs₁ fuel e with
  | nil =>
    cases fuel with
    | zero => cases hfuel
    | succ fuel => rfl
  | cons x rs₂ ih =>
    cases fuel with
    | zero => cases hfuel
    | succ fuel =>
      have hnode : e.heap.node x.node = .ret _ := Run.ofOption_eq_ret.mpr hh.repr.node_at
      have hperson : e.heap.person x.person = .ret _ := Run.ofOption_eq_ret.mpr hh.head_person
      have hends := hh.ends x (List.mem_append_right _ List.mem_cons_self)
      let e' : Env := { e with output := .contact (cstr x.data.bytes) (cstr x.data.phone) :: e.output }
      have hh' : Holds e'.heap front ((rs₁ ++ [x]) ++ rs₂) := by
        rwa [List.append_assoc, List.singleton_append]
      simp only [firstNode_cons, personTraverse, hnode, hperson, logPerson_eq hends, Run.ret_bind]
      apply (ih hh' (Nat.lt_of_succ_lt_succ hfuel)).trans
      rw [List.map_cons, List.reverse_cons, List.append_assoc]
      rfl

theorem Holds.traverse {e : Env} (hh : Holds e.heap front rs) (hfuel : rs.length < fuel) :
    personTraverse fuel front e = .ret (0, { e with
      output := (rs.map fun r => .contact (cstr r.data.bytes) (cstr r.data.phone)).reverse ++
        e.output }) := by
  have hh₀ : Holds e.heap front ([] ++ rs) := hh
  rw [hh.repr.front_eq]
  exact personTraverse_eq hh₀ hfuel

/-- The bytes that `save_entry` writes. -/
theorem Holds.saveLoop (hh : Holds h front rs) (hfuel : rs.length < fuel) :
    AddressBook.saveLoop h fuel front = .ret (saved (rs.map Record.data)) := by
  have hr₀ : Repr h front ([] ++ rs) := hh.repr
  rw [hh.repr.front_eq]
  exact ((saveLoop_sim hr₀ fuel).rel hfuel).eq

end Rules

end AddressBook
end LinuxBase
