import LinuxBase.AddressBook.Refinement

/-!
# The links of the contact list

`WellFormed` says what the links of a doubly linked list have to be: the head has no `prev`, `next`
leads to `NULL`, and each link leads to a live node of the list that points back.

`list_insert_front` stores both links of a node that it puts before or behind another one, but
none of a node that becomes the only one: that node keeps what `malloc` left in it. So the list
stays well formed exactly as long as the nodes that are inserted into an empty list have null links
(`links_iff`).
-/

namespace LinuxBase
namespace AddressBook

open DList

/-- From `p`, `next` leads through the nodes `l` to `NULL`. -/
def NextPath (m : Mem Addr Addr) : Ptr → List Addr → Prop
  | p, [] => p = none
  | p, a :: l => p = some a ∧ ∃ c, m a = some c ∧ NextPath m c.next l

/-- The list at `front` with the nodes `l` (module doc). -/
structure WellFormedWith (m : Mem Addr Addr) (front : Ptr) (l : List Addr) : Prop where
  path : NextPath m front l
  head : ∀ a c, front = some a → m a = some c → c.prev = none
  next : ∀ a ∈ l, ∀ c, m a = some c → ∀ b, c.next = some b →
    b ∈ l ∧ ∃ d, m b = some d ∧ d.prev = some a
  prev : ∀ a ∈ l, ∀ c, m a = some c → ∀ b, c.prev = some b →
    b ∈ l ∧ ∃ d, m b = some d ∧ d.next = some a

def WellFormed (m : Mem Addr Addr) (front : Ptr) : Prop := ∃ l, WellFormedWith m front l

section Repr

variable {h : Heap} {front : Ptr} {rs rs₁ rs₂ : List Record}

theorem Repr.nextPath (hr : Repr h front (rs₁ ++ rs₂)) :
    NextPath h.nodes (firstNode rs₂) (rs₂.map Record.node) := by
  induction rs₂ generalizing rs₁ with
  | nil => rfl
  | cons x rs₂ ih =>
    have hr' : Repr h front ((rs₁ ++ [x]) ++ rs₂) := by simpa using hr
    exact ⟨rfl, _, hr.node_at, ih hr'⟩

/-- A live node of the list, with its neighbours. -/
theorem Repr.split (hr : Repr h front rs) {a : Addr} (ha : a ∈ rs.map Record.node) {c : Node}
    (hc : h.nodes a = some c) : ∃ rs₁ x rs₂, rs = rs₁ ++ x :: rs₂ ∧ a = x.node ∧
      c.prev = lastNode rs₁ ∧ c.next = firstNode rs₂ := by
  obtain ⟨x, hx, rfl⟩ := List.mem_map.mp ha
  obtain ⟨rs₁, rs₂, rfl⟩ := List.append_of_mem hx
  rw [hr.node_at] at hc
  cases hc
  exact ⟨rs₁, x, rs₂, rfl, rfl, rfl, rfl⟩

theorem Repr.wellFormed (hr : Repr h front rs) : WellFormed h.nodes front := by
  refine ⟨rs.map Record.node, ?_, ?_, ?_, ?_⟩
  · have hr₀ : Repr h front ([] ++ rs) := hr
    rw [hr.front_eq]; exact hr₀.nextPath
  · intro a c ha hc
    cases rs with
    | nil => rw [hr.front_eq] at ha; cases ha
    | cons x rs =>
      have hr₀ : Repr h front ([] ++ x :: rs) := hr
      rw [hr.front_eq] at ha
      cases ha
      rw [hr₀.node_at] at hc
      cases hc; rfl
  · intro a ha c hc b hb
    obtain ⟨rs₁, x, rs₂, rfl, rfl, -, hn⟩ := hr.split ha hc
    cases rs₂ with
    | nil => rw [hn] at hb; cases hb
    | cons y rs₂ =>
      rw [hn] at hb
      cases hb
      have hr' : Repr h front ((rs₁ ++ [x]) ++ y :: rs₂) := by simpa using hr
      exact ⟨by simp, _, hr'.node_at, lastNode_concat _ _⟩
  · intro a ha c hc b hb
    obtain ⟨rs₁, x, rs₂, rfl, rfl, hp, -⟩ := hr.split ha hc
    rcases List.eq_nil_or_concat rs₁ with rfl | ⟨rs₀, y, rfl⟩
    · rw [hp] at hb; cases hb
    · rw [List.concat_eq_append] at *
      rw [hp, lastNode_concat] at hb
      cases hb
      have hr' : Repr h front (rs₀ ++ y :: x :: rs₂) := by simpa using hr
      exact ⟨by simp, _, hr'.node_at, rfl⟩

end Repr

/-! ## The only node -/

/-- A node that is inserted into an empty list has null links. -/
def NullFirst (s : Session) : Call → Prop
  | .insert a _ _ => s.front = none → a.prev = none ∧ a.next = none
  | _ => True

instance (s : Session) : DecidablePred (NullFirst s)
  | .insert a _ _ =>
    inferInstanceAs (Decidable (s.front = none → a.prev = none ∧ a.next = none))
  | .delete _ => .isTrue trivial
  | .search _ => .isTrue trivial

/-- The only live node is well formed as a list only with null links. -/
theorem wellFormed_only {m : Mem Addr Addr} {a : Addr} {c : Node} (hc : m a = some c)
    (hm : ∀ x, x ≠ a → m x = none) (hw : WellFormed m (some a)) :
    c.prev = none ∧ c.next = none := by
  obtain ⟨l, hp, hhead, hnext, -⟩ := hw
  have hprev := hhead a c rfl hc
  refine ⟨hprev, ?_⟩
  cases l with
  | nil => cases hp
  | cons b l =>
    obtain ⟨hab, -⟩ := hp
    cases hab
    cases hn : c.next with
    | none => rfl
    | some b =>
      -- The successor is live, so it is the node itself, but nothing is before that.
      obtain ⟨-, d, hd, hdp⟩ := hnext a List.mem_cons_self c hc b hn
      by_cases hba : b = a
      · rw [hba, hc] at hd
        cases hd
        rw [hprev] at hdp; cases hdp
      · rw [hm b hba] at hd; cases hd

/-- The session has a list that owns all nodes. -/
def HasList (s : Session) : Prop := ∃ rs, Repr s.heap s.front rs ∧ Owned s.heap rs

section Session

variable {fuel : Nat} {s s' : Session} {c : Call}

theorem HasList.call (h : HasList s) (hf : Fresh s c) (hn : NullFirst s c)
    (hc : call fuel c s = .ret s') : HasList s' := by
  obtain ⟨rs, hr, ho⟩ := h
  cases c with
  | insert a addr p =>
    have hnull : LinksNull rs a := fun hrs => hn (by rw [hr.front_eq, hrs]; rfl)
    obtain ⟨hnode, hper⟩ := hr.fresh hf.1 hf.2
    obtain ⟨⟨c, front, h'⟩, hins, hret⟩ := Run.bind_eq_ret.mp hc
    obtain ⟨rs', -, -, l, hl, hr', ho'⟩ :=
      (personInsert_sim p hr hnull hnode hper fuel).of_eq_ret hins
    simp only at hl hr' ho'
    subst hl
    cases hret
    exact ⟨rs', hr', ho' ho⟩
  | delete name =>
    obtain ⟨⟨c, front, h'⟩, hdel, hret⟩ := Run.bind_eq_ret.mp hc
    obtain ⟨⟨c', rs'⟩, -, -, l, hl, hr', ho'⟩ := (personDelete_sim name hr fuel).of_eq_ret hdel
    simp only at hl hr' ho'
    subst hl
    cases hret
    exact ⟨rs', hr', ho' ho⟩
  | search name =>
    obtain ⟨p, -, hret⟩ := Run.bind_eq_ret.mp hc
    cases hret
    exact ⟨rs, hr, ho⟩

/-- A node with other links makes a list of one node that is not well formed. -/
theorem call_not_wellFormed (h : HasList s) (hn : ¬ NullFirst s c) :
    ∃ s', call fuel c s = .ret s' ∧ ¬ WellFormed s'.heap.nodes s'.front := by
  obtain ⟨rs, hr, ho⟩ := h
  cases c with
  | insert a addr p =>
    simp only [NullFirst, Classical.not_imp] at hn
    obtain ⟨hfront, hlinks⟩ := hn
    have hrs : rs = [] := by
      cases rs with
      | nil => rfl
      | cons x rs => rw [hr.front_eq] at hfront; cases hfront
    subst hrs
    refine ⟨⟨some a.addr, (s.heap.mallocPerson addr p).mallocNode a addr, .code 0 :: s.answers⟩,
      by simp [AddressBook.call, personInsert, listInsertFront, hfront], fun hw => hlinks ?_⟩
    refine wellFormed_only (Function.update_self _ _ _) (fun x hx => ?_) hw
    exact (Function.update_of_ne hx _ _).trans (ho x (by simp))
  | delete name => exact absurd trivial hn
  | search name => exact absurd trivial hn

/-- **The links.** All states of a run are well formed exactly if each node that is inserted into an
empty list has null links. -/
theorem links_iff {cs : List Call} (hf : Along (AddressBook.call fuel) Fresh {} cs) :
    (∀ s, Visits (AddressBook.call fuel) {} cs s → WellFormed s.heap.nodes s.front) ↔
      Along (AddressBook.call fuel) NullFirst {} cs := by
  have hstart : HasList {} := ⟨[], repr_nil _, fun _ _ => rfl⟩
  refine visits_iff (I := HasList) ?_ ?_ ?_ hstart hf
  · rintro s ⟨rs, hr, -⟩
    exact hr.wellFormed
  · exact fun s c s' h hf hn hc => h.call hf hn hc
  · exact fun s c h _ hn => call_not_wellFormed h hn

/-- The node of the first `b` has null links; the others, of an `a` in front of it, of a second `b` and of
an `a` behind the deletion of the first one, have any. -/
theorem links_iff_sample :
    let cs := [Call.insert ⟨10, none, none⟩ 20 (letter 98), .insert ⟨11, some 99, some 10⟩ 21 (letter 97),
      .insert ⟨12, some 11, some 98⟩ 22 (letter 98), .delete [97, 0],
      .insert ⟨13, some 13, some 99⟩ 23 (letter 97)]
    ∀ s, Visits (AddressBook.call 5) {} cs s → WellFormed s.heap.nodes s.front := by
  refine (links_iff (by decide)).mpr ⟨fun _ => ⟨rfl, rfl⟩, ?_⟩
  exact ⟨nofun, nofun, trivial, nofun, trivial⟩

/-- The first node has what `malloc` left in it: a `prev` that leads to no node. -/
theorem not_wellFormed_junk :
    ¬ ∀ s, Visits (AddressBook.call 2) {} [Call.insert ⟨10, some 99, none⟩ 20 (letter 97)] s →
      WellFormed s.heap.nodes s.front := by
  intro hall
  obtain ⟨l, -, hhead, -, -⟩ := hall ⟨some 10, _, _⟩ ⟨1, rfl⟩
  have hprev := hhead 10 ⟨some 99, none, 20⟩ rfl rfl
  cases hprev

end Session

end AddressBook
end LinuxBase
