import LinuxBase.AddressBook.Records

/-!
# The list functions with pointers

`Repr h front rs`: the heap `h` has, at the head `front`, the doubly linked list of the records
`rs`. `personInsert_sim`, `personDelete_sim` and `personSearch_sim` say that the functions on the
heap do what the functions on records do, provided that the fuel is larger than the list.

Insertion relies on `malloc` in one place only: the first node keeps the links that `malloc` left
in it (`LinksNull`).
-/

namespace LinuxBase
namespace AddressBook

open CString DList

/-- The heap has the records `rs` as the list at `front` (module doc). -/
structure Repr (h : Heap) (front : Ptr) (rs : List Record) : Prop where
  isList : IsList h.nodes front (rs.map Record.cell)
  persons : ∀ r ∈ rs, h.persons r.person = some r.data
  nodup : (rs.map Record.person).Nodup

/-- The same nodes are live. -/
def SameLive (h h' : Heap) : Prop := ∀ a, h'.nodes a = none ↔ h.nodes a = none

/-- All live nodes are in the list. -/
def Owned (h : Heap) (rs : List Record) : Prop := ∀ a, a ∉ rs.map Record.node → h.nodes a = none

/-! ## Reading the list -/

/-- The address of the last node. -/
def lastNode (rs : List Record) : Ptr := last none (rs.map Record.cell)

/-- The address of the first node. -/
def firstNode (rs : List Record) : Ptr := first (rs.map Record.cell) none

@[simp] theorem lastNode_nil : lastNode [] = none := rfl
@[simp] theorem firstNode_nil : firstNode [] = none := rfl
@[simp] theorem firstNode_cons (r : Record) (rs : List Record) :
    firstNode (r :: rs) = some r.node := rfl

@[simp] theorem lastNode_concat (rs : List Record) (r : Record) :
    lastNode (rs ++ [r]) = some r.node := by
  simp [lastNode, Record.cell]

@[simp] theorem map_cell_fst (rs : List Record) :
    (rs.map Record.cell).map Prod.fst = rs.map Record.node := by
  simp [Record.cell]

namespace Heap

variable {m : Mem Addr Addr} {ps : Addr → Option Person} {a : Addr} {n : Node} {p : Person}

theorem node_mk (hn : m a = some n) : node ⟨m, ps⟩ a = .ret n := by
  simp [node, hn]

theorem person_mk (hp : ps a = some p) : person ⟨m, ps⟩ a = .ret p := by
  simp [person, hp]

theorem setNext_mk (hn : m a = some n) (q : Ptr) :
    setNext ⟨m, ps⟩ a q = .ret ⟨DList.setNext m a q, ps⟩ := by
  simp [setNext, node_mk hn]

theorem setPrev_mk (hn : m a = some n) (q : Ptr) :
    setPrev ⟨m, ps⟩ a q = .ret ⟨DList.setPrev m a q, ps⟩ := by
  simp [setPrev, node_mk hn]

theorem freePerson_mk (hp : ps a = some p) :
    freePerson ⟨m, ps⟩ a = .ret ⟨m, Function.update ps a none⟩ := by
  simp [freePerson, person_mk hp]

theorem freeNode_mk (hn : m a = some n) :
    freeNode ⟨m, ps⟩ a = .ret ⟨Function.update m a none, ps⟩ := by
  simp [freeNode, node_mk hn]

theorem linkNext_mk {p : Ptr} (hp : ∀ c, p = some c → ∃ n, m c = some n) (q : Ptr) :
    linkNext ⟨m, ps⟩ p q = .ret ⟨relinkNext m p q, ps⟩ := by
  cases p with
  | none => rfl
  | some c => obtain ⟨n, hn⟩ := hp c rfl; exact setNext_mk hn q

theorem linkPrev_mk {q : Ptr} (hq : ∀ c, q = some c → ∃ n, m c = some n) (p : Ptr) :
    linkPrev ⟨m, ps⟩ q p = .ret ⟨relinkPrev m q p, ps⟩ := by
  cases q with
  | none => rfl
  | some c => obtain ⟨n, hn⟩ := hq c rfl; exact setPrev_mk hn p

end Heap

section Repr

variable {h : Heap} {front : Ptr} {rs rs₁ rs₂ : List Record} {r x : Record}

theorem repr_nil (h : Heap) : Repr h none [] where
  isList := ⟨rfl, List.nodup_nil, trivial⟩
  persons := by simp
  nodup := List.nodup_nil

theorem Repr.front_eq (hr : Repr h front rs) : front = firstNode rs := hr.isList.head_eq

theorem Repr.nodup_node (hr : Repr h front rs) : (rs.map Record.node).Nodup := by
  rw [← map_cell_fst]; exact hr.isList.nodup

/-- The node in the middle of a list. -/
theorem Repr.node_at (hr : Repr h front (rs₁ ++ x :: rs₂)) :
    h.nodes x.node = some ⟨lastNode rs₁, firstNode rs₂, x.person⟩ := by
  have hs := hr.isList.seg
  rw [List.map_append, List.map_cons] at hs
  exact (seg_append.mp hs).2.1

/-- Each node of the list is live. -/
theorem Repr.live (hr : Repr h front rs) {a : Addr} (ha : a ∈ rs.map Record.node) :
    ∃ n, h.nodes a = some n := by
  obtain ⟨x, hx, rfl⟩ := List.mem_map.mp ha
  obtain ⟨c, hc, -⟩ := hr.isList.seg.mem (List.mem_map_of_mem hx)
  exact ⟨c, hc⟩

theorem mem_of_lastNode {a : Addr} (ha : lastNode rs = some a) : a ∈ rs.map Record.node := by
  rcases last_mem ha with e | e
  · cases e
  · rwa [map_cell_fst] at e

theorem mem_of_firstNode {a : Addr} (ha : firstNode rs = some a) : a ∈ rs.map Record.node := by
  rcases first_mem ha with e | e
  · cases e
  · rwa [map_cell_fst] at e

theorem ne_of_not_mem {a : Addr} (ha : a ∉ rs.map Record.node) (hx : x ∈ rs) : x.node ≠ a :=
  fun e => ha (e ▸ List.mem_map_of_mem hx)

/-- The list does not depend on blocks that it does not use. -/
theorem Repr.congr {h' : Heap} (hr : Repr h front rs)
    (hn : ∀ x ∈ rs, h'.nodes x.node = h.nodes x.node)
    (hp : ∀ x ∈ rs, h'.persons x.person = h.persons x.person) : Repr h' front rs := by
  refine ⟨hr.isList.congr fun c hc => ?_, fun x hx => (hp x hx).trans (hr.persons x hx), hr.nodup⟩
  obtain ⟨x, hx, rfl⟩ := List.mem_map.mp hc
  exact hn x hx

end Repr

/-! ## Insertion -/

section Insert

variable {h : Heap} {front : Ptr} {rs rs₁ rs₂ : List Record} {r : Record} {c : Node}

/-- The node of `r` is spliced into the list. -/
theorem Repr.splice (hr : Repr h front (rs₁ ++ rs₂)) (hc : h.nodes r.node = some c)
    (hv : c.val = r.person) (hp : h.persons r.person = some r.data)
    (hi : r.node ∉ (rs₁ ++ rs₂).map Record.node) (hpi : r.person ∉ (rs₁ ++ rs₂).map Record.person) :
    Repr ⟨DList.splice h.nodes r.node (lastNode rs₁) (firstNode rs₂), h.persons⟩
      (firstNode (rs₁ ++ r :: rs₂)) (rs₁ ++ r :: rs₂) := by
  have hmap : (rs₁ ++ r :: rs₂).map Record.cell =
      rs₁.map Record.cell ++ (r.node, c.val) :: rs₂.map Record.cell := by
    rw [hv, List.map_append, List.map_cons, Record.cell]
  have hl := hr.isList
  rw [List.map_append] at hl
  refine ⟨?_, fun x hx => ?_, ?_⟩
  · have hs := hl.splice (by rwa [← List.map_append, map_cell_fst]) hc
    rwa [← hmap] at hs
  · rcases List.mem_append.mp hx with hx | hx
    · exact hr.persons x (List.mem_append_left _ hx)
    · rcases List.mem_cons.mp hx with rfl | hx
      · exact hp
      · exact hr.persons x (List.mem_append_right _ hx)
  · rw [List.map_append, List.map_cons]
    refine (List.nodup_middle).mpr (List.nodup_cons.mpr ?_)
    rw [← List.map_append]
    exact ⟨hpi, hr.nodup⟩

section Loop

variable {m : Mem Addr Addr} {ps : Addr → Option Person} {x : Record} {k : Int}

/-- The item is not larger than `x`: it goes between `x` and the node before it. -/
theorem insertLoop_before (hc : m r.node = some c) (hr : Repr ⟨m, ps⟩ front (rs₁ ++ x :: rs₂))
    (hi : r.node ∉ (rs₁ ++ x :: rs₂).map Record.node)
    (hk : compareName r.data.bytes x.data.bytes = .ret k) (hk01 : k = -1 ∨ k = 0) (fuel : Nat) :
    insertLoop r.node r.data.bytes front ⟨m, ps⟩ (fuel + 1) (some x.node) =
      .ret (firstNode (rs₁ ++ r :: x :: rs₂),
        ⟨DList.splice m r.node (lastNode rs₁) (some x.node), ps⟩) := by
  have hx : m x.node = _ := hr.node_at
  have hxp := hr.persons x (by simp)
  have hxi : x.node ≠ r.node := ne_of_not_mem hi (by simp)
  have hi1 := setNext_self hc (some x.node)
  have hi2 := setPrev_self hi1 (lastNode rs₁)
  have hx1 := (setNext_of_ne (q := some x.node) hxi).trans hx
  have hx2 := (setPrev_of_ne (p := lastNode rs₁) hxi).trans hx1
  simp only [insertLoop, Heap.node_mk hx, Heap.person_mk hxp, Run.ret_bind, hk, if_pos hk01,
    Heap.setNext_mk hc, Heap.setPrev_mk hi1, Heap.node_mk hx1, Heap.node_mk hx2]
  rcases List.eq_nil_or_concat rs₁ with rfl | ⟨rs₀, y, rfl⟩
  · simp only [lastNode_nil] at hx2 ⊢
    simp only [Heap.setPrev_mk hx2, Run.ret_bind]
    rfl
  · rw [List.concat_eq_append] at *
    have hyi : y.node ≠ r.node := ne_of_not_mem hi (by simp)
    have hxy : x.node ≠ y.node := by
      have hn := hr.nodup_node
      simp only [List.map_append, List.map_cons, List.nodup_append] at hn
      exact fun e => hn.2.2 y.node (by simp) x.node (by simp) e.symm
    obtain ⟨n, hy⟩ := hr.live (a := y.node) (by simp)
    have hy2 := (setPrev_of_ne (p := lastNode (rs₀ ++ [y])) hyi).trans
      ((setNext_of_ne (q := some x.node) hyi).trans hy)
    have hx3 := (setNext_of_ne (q := some r.node) hxy).trans hx2
    simp only [lastNode_concat] at hy2 hx3 ⊢
    simp only [Heap.setNext_mk hy2, Heap.setPrev_mk hx3, Run.ret_bind]
    have hfront : front = firstNode ((rs₀ ++ [y]) ++ r :: x :: rs₂) := by
      rw [hr.front_eq]; cases rs₀ <;> rfl
    rw [hfront]
    rfl

/-- The item is larger than the last node `x`: it goes after it. -/
theorem insertLoop_last (hc : m r.node = some c) (hr : Repr ⟨m, ps⟩ front (rs₁ ++ [x]))
    (hi : r.node ∉ (rs₁ ++ [x]).map Record.node)
    (hk : compareName r.data.bytes x.data.bytes = .ret k) (hk01 : ¬ (k = -1 ∨ k = 0)) (fuel : Nat) :
    insertLoop r.node r.data.bytes front ⟨m, ps⟩ (fuel + 1) (some x.node) =
      .ret (firstNode ((rs₁ ++ [x]) ++ [r]),
        ⟨DList.splice m r.node (some x.node) none, ps⟩) := by
  have hx : m x.node = _ := hr.node_at
  have hxp := hr.persons x (by simp)
  have hxi : x.node ≠ r.node := ne_of_not_mem hi (by simp)
  have hi1 := (setNext_of_ne (q := some r.node) hxi.symm).trans hc
  have hi2 := setPrev_self hi1 (some x.node)
  have hk1 := (compareName_agrees hk).eq_one hk01
  have hfront : front = firstNode ((rs₁ ++ [x]) ++ [r]) := by
    rw [hr.front_eq]; cases rs₁ <;> rfl
  simp only [insertLoop, Heap.node_mk hx, Heap.person_mk hxp, Run.ret_bind, hk, if_neg hk01]
  rw [if_pos ⟨hk1, rfl⟩]
  simp only [Heap.setNext_mk hx, Heap.setPrev_mk hi1, Heap.setNext_mk hi2, Run.ret_bind,
    splice_none hxi, hfront]

/-- The item is larger than `x`, which is not the last node: the loop goes on. -/
theorem insertLoop_next {y : Record} (hr : Repr ⟨m, ps⟩ front (rs₁ ++ x :: y :: rs₂))
    (hk : compareName r.data.bytes x.data.bytes = .ret k) (hk01 : ¬ (k = -1 ∨ k = 0)) (fuel : Nat) :
    insertLoop r.node r.data.bytes front ⟨m, ps⟩ (fuel + 1) (some x.node) =
      insertLoop r.node r.data.bytes front ⟨m, ps⟩ fuel (some y.node) := by
  have hx : m x.node = _ := hr.node_at
  have hxp := hr.persons x (by simp)
  simp only [insertLoop, Heap.node_mk hx, Heap.person_mk hxp, Run.ret_bind, hk, if_neg hk01]
  rw [if_neg (by simp)]
  rfl

end Loop

/-- The loop of `list_insert_front` at the first node of `rs₂`. -/
theorem insertLoop_sim (hc : h.nodes r.node = some c) (hv : c.val = r.person)
    (hp : h.persons r.person = some r.data) (hr : Repr h front (rs₁ ++ rs₂)) (hne : rs₂ ≠ [])
    (hi : r.node ∉ (rs₁ ++ rs₂).map Record.node) (hpi : r.person ∉ (rs₁ ++ rs₂).map Record.person)
    (fuel : Nat) :
    Run.Sim (rs₂.length ≤ fuel) (fun out rs => Repr out.2 out.1 (rs₁ ++ rs) ∧ SameLive h out.2)
      (insertLoop r.node r.data.bytes front h fuel (firstNode rs₂)) (insertRec r rs₂) := by
  obtain ⟨m, ps⟩ := h
  simp only at hc hp
  induction rs₂ generalizing rs₁ fuel with
  | nil => exact absurd rfl hne
  | cons x rs₂ ih =>
    cases fuel with
    | zero => exact .inl ⟨rfl, by simp⟩
    | succ fuel =>
      have hx : m x.node = _ := hr.node_at
      have hxp := hr.persons x (by simp)
      rw [firstNode_cons]
      cases hk : compareName r.data.bytes x.data.bytes with
      | fault =>
        simp only [insertLoop, Heap.node_mk hx, Heap.person_mk hxp, Run.ret_bind, insertRec, hk]
        exact .inr .fault
      | more =>
        simp only [insertLoop, Heap.node_mk hx, Heap.person_mk hxp, Run.ret_bind, insertRec, hk]
        exact .inr .more
      | ret k =>
        rw [insertRec, hk, Run.ret_bind]
        by_cases hk01 : k = -1 ∨ k = 0
        · rw [if_pos hk01, insertLoop_before hc hr hi hk hk01]
          exact .inr (.ret ⟨hr.splice hc hv hp hi hpi, fun _ => by simp only [splice_eq_none]⟩)
        rw [if_neg hk01]
        have hr' : Repr ⟨m, ps⟩ front ((rs₁ ++ [x]) ++ rs₂) := by simpa using hr
        have hi' : r.node ∉ ((rs₁ ++ [x]) ++ rs₂).map Record.node := by simpa using hi
        have hpi' : r.person ∉ ((rs₁ ++ [x]) ++ rs₂).map Record.person := by simpa using hpi
        cases rs₂ with
        | nil =>
          rw [insertLoop_last hc hr hi hk hk01]
          refine .inr (.ret ⟨?_, fun _ => by simp only [splice_eq_none]⟩)
          simpa using hr'.splice hc hv hp hi' hpi'
        | cons y rs₂ =>
          rw [insertLoop_next hr hk hk01]
          refine Run.Sim.ret_right (fun hf => ?_) (ih (by simp) hi' hpi' fuel hr')
            fun out rs ho => ?_
          · simpa using hf
          · simpa using ho

/-- The links of the first node are null. -/
def LinksNull (rs : List Record) (a : Alloc) : Prop := rs = [] → a.prev = none ∧ a.next = none

theorem listInsertFront_sim {a : Alloc} (hr : Repr h front rs) (hnull : LinksNull rs a)
    (ha : a.addr ∉ rs.map Record.node) (hp : h.persons r.person = some r.data)
    (hpi : r.person ∉ rs.map Record.person) (hra : r.node = a.addr) (fuel : Nat) :
    Run.Sim (rs.length ≤ fuel)
      (fun out rs => Repr out.2 out.1 rs ∧ SameLive (h.mallocNode a r.person) out.2)
      (listInsertFront fuel a.addr front (h.mallocNode a r.person)) (insertRec r rs) := by
  have hc : (h.mallocNode a r.person).nodes r.node = some ⟨a.prev, a.next, r.person⟩ := by
    rw [hra]; exact Function.update_self _ _ _
  rw [← hra] at ha ⊢
  have hr' : Repr (h.mallocNode a r.person) front ([] ++ rs) := by
    refine hr.congr (fun x hx => ?_) fun _ _ => rfl
    refine Function.update_of_ne ?_ _ _
    rw [← hra]; exact ne_of_not_mem ha hx
  cases rs with
  | nil =>
    obtain ⟨h1, h2⟩ := hnull rfl
    rw [h1, h2] at hc
    rw [hr.front_eq]
    refine .inr (.ret ⟨⟨⟨rfl, by simp, hc, trivial⟩, fun x hx => ?_, by simp⟩, fun _ => Iff.rfl⟩)
    rw [List.mem_singleton.mp hx]
    exact hp
  | cons x rs =>
    have hloop := insertLoop_sim hc rfl hp hr' (by simp) ha hpi fuel
    have hit : (h.mallocNode a r.person).node r.node = .ret _ := Heap.node_mk hc
    have hper : (h.mallocNode a r.person).person r.person = .ret _ := Heap.person_mk hp
    rw [hr.front_eq] at hloop ⊢
    simpa only [firstNode_cons, listInsertFront, hit, hper, Run.ret_bind, List.nil_append]
      using hloop

theorem mem_of_insertRec {rs' : List Record} (hi : insertRec r rs = .ret rs') {x : Record} :
    x ∈ rs' ↔ x = r ∨ x ∈ rs := by
  rw [insertRec_ret hi, List.mem_orderedInsert]

/-- After an insertion, the new list has all the live nodes. -/
theorem Owned.insert {h' : Heap} {a : Alloc} {rs' : List Record} (ho : Owned h rs)
    (hra : r.node = a.addr) (hi : insertRec r rs = .ret rs')
    (hl : SameLive (h.mallocNode a r.person) h') : Owned h' rs' := by
  intro x hx
  have hmem : ∀ y, y = r ∨ y ∈ rs → y.node ≠ x := fun y hy e =>
    hx (e ▸ List.mem_map_of_mem ((mem_of_insertRec hi).mpr hy))
  have hxa : x ≠ a.addr := fun e => hmem r (.inl rfl) (hra.trans e.symm)
  refine (hl x).mpr ((Function.update_of_ne hxa _ _).trans (ho x fun hm => ?_))
  obtain ⟨y, hy, e⟩ := List.mem_map.mp hm
  exact hmem y (.inr hy) e

/-- `person_insert` of a new person, at a new node. -/
theorem personInsert_sim {a : Alloc} {addr : Addr} (p : Person) (hr : Repr h front rs)
    (hnull : LinksNull rs a) (hfn : a.addr ∉ rs.map Record.node)
    (hfp : addr ∉ rs.map Record.person) (fuel : Nat) :
    Run.Sim (rs.length ≤ fuel)
      (fun out rs' => out.1 = 0 ∧ ∃ l, out.2.1 = some l ∧ Repr out.2.2 l rs' ∧
        (Owned h rs → Owned out.2.2 rs'))
      (personInsert fuel a addr (some front) (h.mallocPerson addr p))
      (insertRec ⟨a.addr, addr, p⟩ rs) := by
  have hr' : Repr (h.mallocPerson addr p) front rs := by
    refine hr.congr (fun _ _ => rfl) fun x hx => Function.update_of_ne ?_ _ _
    exact fun e => hfp (e ▸ List.mem_map_of_mem hx)
  have hsim := listInsertFront_sim (r := ⟨a.addr, addr, p⟩) hr' hnull hfn
    (Function.update_self _ _ _) hfp rfl fuel
  exact hsim.eq_ret.ret_left fun out rs' ⟨⟨hout, hl⟩, hi⟩ =>
    ⟨rfl, _, rfl, hout, fun ho => Owned.insert ho rfl hi hl⟩

/-- Dead blocks are not in the list. -/
theorem Repr.fresh (hr : Repr h front rs) {a addr : Addr} (hfn : h.nodes a = none)
    (hfp : h.persons addr = none) :
    a ∉ rs.map Record.node ∧ addr ∉ rs.map Record.person := by
  constructor
  · intro hm
    obtain ⟨n, hn⟩ := hr.live hm
    rw [hfn] at hn; cases hn
  · intro hm
    obtain ⟨x, hx, rfl⟩ := List.mem_map.mp hm
    rw [hr.persons x hx] at hfp; cases hfp

end Insert

/-! ## Search and deletion -/

section Delete

variable {h : Heap} {front : Ptr} {rs rs₁ rs₂ : List Record} {x : Record}

/-- The search loop at the first node of `rs₂`. -/
theorem findLoop_sim (name : List Byte) (hr : Repr h front (rs₁ ++ rs₂)) (fuel : Nat) :
    Run.Sim (rs₂.length < fuel) (fun p out => rs₂ = out.1 ++ out.2 ∧ p = firstNode out.2)
      (findLoop name h fuel (firstNode rs₂)) (splitRec name rs₂) := by
  obtain ⟨m, ps⟩ := h
  induction rs₂ generalizing rs₁ fuel with
  | nil =>
    cases fuel with
    | zero => exact .inl ⟨rfl, by simp⟩
    | succ fuel => exact .inr (.ret ⟨rfl, rfl⟩)
  | cons x rs₂ ih =>
    cases fuel with
    | zero => exact .inl ⟨rfl, by simp⟩
    | succ fuel =>
      have hx : m x.node = _ := hr.node_at
      have hxp := hr.persons x (by simp)
      simp only [firstNode_cons, findLoop, Heap.node_mk hx, Heap.person_mk hxp, Run.ret_bind,
        splitRec]
      refine Run.Sim.bind_same (strcmp name x.data.bytes) fun c _ => ?_
      by_cases hc : c = 0
      · rw [if_pos hc, if_pos hc]
        exact .inr (.ret ⟨rfl, rfl⟩)
      · rw [if_neg hc, if_neg hc]
        have hr' : Repr ⟨m, ps⟩ front ((rs₁ ++ [x]) ++ rs₂) := by simpa using hr
        refine Run.Sim.ret_right (fun hf => by simpa using hf) (ih fuel hr') fun p out ho => ?_
        exact ⟨by rw [ho.1]; rfl, ho.2⟩

/-- The search loop from the first node of the list on. -/
theorem find_sim (name : List Byte) (hr : Repr h front rs) (fuel : Nat) :
    Run.Sim (rs.length < fuel) (fun p out => rs = out.1 ++ out.2 ∧ p = firstNode out.2)
      (findLoop name h fuel front) (splitRec name rs) := by
  have hr₀ : Repr h front ([] ++ rs) := hr
  rw [hr.front_eq]
  exact findLoop_sim name hr₀ fuel

theorem ne_of_nodup {α : Type} {f : Record → α} (hn : ((rs₁ ++ x :: rs₂).map f).Nodup) {y : Record}
    (hy : y ∈ rs₁ ++ rs₂) : f y ≠ f x := by
  rw [List.map_append, List.map_cons, List.nodup_middle, List.nodup_cons, ← List.map_append] at hn
  exact fun e => hn.1 (e ▸ List.mem_map_of_mem hy)

/-- The list without `x`, whose blocks are dead. -/
theorem Repr.unsplice (hr : Repr h front (rs₁ ++ x :: rs₂)) {h' : Heap}
    (hn : ∀ a, a ≠ x.node →
      h'.nodes a = DList.unsplice h.nodes (lastNode rs₁) (firstNode rs₂) a)
    (hp : ∀ a, a ≠ x.person → h'.persons a = h.persons a) :
    Repr h' (firstNode (rs₁ ++ rs₂)) (rs₁ ++ rs₂) := by
  have hl := hr.isList
  rw [List.map_append, List.map_cons] at hl
  have hsub : (rs₁ ++ rs₂).Sublist (rs₁ ++ x :: rs₂) :=
    (List.sublist_cons_self _ _).append_left _
  have hr' : Repr ⟨DList.unsplice h.nodes (lastNode rs₁) (firstNode rs₂), h.persons⟩
      (firstNode (rs₁ ++ rs₂)) (rs₁ ++ rs₂) := by
    refine ⟨?_, fun y hy => hr.persons y (hsub.subset hy), hr.nodup.sublist (hsub.map _)⟩
    have hs := hl.unsplice
    rwa [← List.map_append] at hs
  exact hr'.congr (fun y hy => hn _ (ne_of_nodup hr.nodup_node hy))
    fun y hy => hp _ (ne_of_nodup hr.nodup hy)

/-- The other nodes of the list are live, and are not that of `x`. -/
theorem Repr.other_live (hr : Repr h front (rs₁ ++ x :: rs₂)) {a : Addr}
    (ha : a ∈ rs₁.map Record.node ++ rs₂.map Record.node) :
    a ≠ x.node ∧ ∃ n, h.nodes a = some n := by
  rw [← List.map_append] at ha
  obtain ⟨y, hy, rfl⟩ := List.mem_map.mp ha
  refine ⟨ne_of_nodup hr.nodup_node hy, hr.live (List.mem_map_of_mem ?_)⟩
  exact ((List.sublist_cons_self x rs₂).append_left rs₁).subset hy

/-- `list_delete` of a node of the list. -/
theorem listDelete_spec (hr : Repr h front (rs₁ ++ x :: rs₂)) :
    ∃ h', listDelete x.node front h = .ret (firstNode (rs₁ ++ rs₂), h') ∧
      Repr h' (firstNode (rs₁ ++ rs₂)) (rs₁ ++ rs₂) ∧
      ∀ a, a = x.node ∨ h.nodes a = none → h'.nodes a = none := by
  obtain ⟨m, ps⟩ := h
  have hx : m x.node = _ := hr.node_at
  have hxp : ps x.person = _ := hr.persons x (by simp)
  have hlast : ∀ c, lastNode rs₁ = some c → c ≠ x.node ∧ ∃ n, m c = some n := fun c hc =>
    hr.other_live (List.mem_append_left _ (mem_of_lastNode hc))
  have hfirst : ∀ c, firstNode rs₂ = some c → c ≠ x.node ∧ ∃ n, m c = some n := fun c hc =>
    hr.other_live (List.mem_append_right _ (mem_of_firstNode hc))
  have hx1 : relinkNext m (lastNode rs₁) (firstNode rs₂) x.node = _ :=
    (relinkNext_of_ne fun e => (hlast _ e).1 rfl).trans hx
  have hx2 : DList.unsplice m (lastNode rs₁) (firstNode rs₂) x.node = _ :=
    (relinkPrev_of_ne fun e => (hfirst _ e).1 rfl).trans hx1
  have hx3 := setNext_self hx2 none
  have hx4 := setPrev_self hx3 none
  have hfront : (if front = some x.node then firstNode rs₂ else front) = firstNode (rs₁ ++ rs₂) := by
    rw [hr.front_eq]
    cases rs₁ with
    | nil => exact if_pos rfl
    | cons y rs₁ =>
      exact if_neg fun e => ne_of_nodup hr.nodup_node (y := y) (by simp) (Option.some.inj e)
  refine ⟨⟨Function.update (DList.setPrev (DList.setNext
    (DList.unsplice m (lastNode rs₁) (firstNode rs₂)) x.node none) x.node none) x.node none,
    Function.update ps x.person none⟩, ?_, hr.unsplice (fun a ha => ?_) fun a ha => ?_,
    fun a ha => ?_⟩
  · have hnext : Heap.linkNext ⟨m, ps⟩ (lastNode rs₁) (firstNode rs₂) = .ret _ :=
      Heap.linkNext_mk (fun c hc => (hlast c hc).2) _
    have hprev : Heap.linkPrev ⟨relinkNext m (lastNode rs₁) (firstNode rs₂), ps⟩ (firstNode rs₂)
        (lastNode rs₁) = .ret ⟨DList.unsplice m (lastNode rs₁) (firstNode rs₂), ps⟩ :=
      Heap.linkPrev_mk (fun c hc => relinkNext_live (hfirst c hc).2.choose_spec) _
    simp only [listDelete, Heap.node_mk hx, hnext, Heap.node_mk hx1, hprev, Heap.node_mk hx2,
      Heap.setNext_mk hx2, Heap.setPrev_mk hx3, Heap.freePerson_mk hxp, Heap.freeNode_mk hx4,
      Run.ret_bind, hfront]
  · exact (Function.update_of_ne ha _ _).trans ((setPrev_of_ne ha).trans (setNext_of_ne ha))
  · exact Function.update_of_ne ha _ _
  · by_cases hax : a = x.node
    · rw [hax]; exact Function.update_self _ _ _
    · refine (Function.update_of_ne hax _ _).trans ?_
      simpa [unsplice_eq_none] using ha.resolve_left hax

theorem personDelete_sim (name : List Byte) (hr : Repr h front rs) (fuel : Nat) :
    Run.Sim (rs.length < fuel)
      (fun out res => out.1 = res.1 ∧ ∃ l, out.2.1 = some l ∧ Repr out.2.2 l res.2 ∧
        (Owned h rs → Owned out.2.2 res.2))
      (personDelete fuel name (some front) h) (deleteRec name rs) := by
  refine (find_sim name hr fuel).bind fun p out ho => ?_
  obtain ⟨rs₁, rs₂⟩ := out
  obtain ⟨hrs, rfl⟩ := ho
  simp only at hrs
  subst hrs
  cases rs₂ with
  | nil => exact .inr (.ret ⟨rfl, front, rfl, hr, id⟩)
  | cons x rs₂ =>
    obtain ⟨h', hd, hr', hdead⟩ := listDelete_spec hr
    simp only [firstNode_cons, hd, Run.ret_bind]
    refine .inr (.ret ⟨rfl, _, rfl, hr', fun ho a ha => hdead a ?_⟩)
    by_cases hax : a = x.node
    · exact .inl hax
    · refine .inr (ho a fun hm => ha ?_)
      simp only [List.map_append, List.map_cons, List.mem_append, List.mem_cons] at hm ⊢
      simpa [hax] using hm

theorem personSearch_sim (name : List Byte) (hr : Repr h front rs) (fuel : Nat) :
    Run.Sim (rs.length < fuel) Eq (personSearch fuel name front h) (searchRec name rs) := by
  refine (find_sim name hr fuel).bind fun p out ho => ?_
  obtain ⟨rs₁, rs₂⟩ := out
  obtain ⟨hrs, rfl⟩ := ho
  simp only at hrs
  subst hrs
  cases rs₂ with
  | nil => exact .inr (.ret rfl)
  | cons x rs₂ =>
    have hx := hr.node_at
    obtain ⟨m, ps⟩ := h
    simp only [firstNode_cons, Heap.node_mk hx, Run.ret_bind]
    exact .inr (.ret rfl)

end Delete

end AddressBook
end LinuxBase
