import LinuxBase.AddressBook.Menu

/-!
# Saving and loading a contact list

`load_entry` does not restore the order of the file: it inserts each record, in front of the records
with the same name. So a list that is saved and loaded has the records of each name turned around,
and it is the same list again exactly if the records of each name read the same from both ends
(`roundTrip_iff`).
-/

namespace LinuxBase
namespace AddressBook

open CString KeySort

/-- The person that `person_search` finds. -/
def lookup (fuel : Nat) (name : List Byte) (front : Ptr) (h : Heap) : Run (Option Person) := do
  match ← personSearch fuel name front h with
  | some p =>
    let person ← h.person p
    .ret (some person)
  | none => .ret none

/-- The search on a list of persons. -/
def searchData (name : List Byte) : List Person → Run (Option Person)
  | [] => .ret none
  | p :: ps => do
    let c ← strcmp name p.bytes
    if c = 0 then .ret (some p) else searchData name ps

/-- The persons of each name read the same from both ends. -/
def Palindromic (ps : List Person) : Prop :=
  ∀ name, (ps.filter (Person.hasName name)).reverse = ps.filter (Person.hasName name)

/-! ## Search by contents -/

theorem splitRec_data (name : List Byte) (rs : List Record) :
    (splitRec name rs >>= fun out => .ret (out.2.head?.map Record.data)) =
      searchData name (rs.map Record.data) := by
  induction rs with
  | nil => rfl
  | cons x rs ih =>
    simp only [splitRec, List.map_cons, searchData, bind_assoc]
    congr 1
    funext c
    by_cases hc : c = 0
    · rw [if_pos hc, if_pos hc]; rfl
    · rw [if_neg hc, if_neg hc, ← ih, bind_assoc]; rfl

/-- The result of a search depends only on the persons in the list. -/
theorem lookup_eq {h : Heap} {front : Ptr} {rs : List Record} (hr : Repr h front rs) {fuel : Nat}
    (hf : rs.length < fuel) (name : List Byte) :
    lookup fuel name front h = searchData name (rs.map Record.data) := by
  rw [← splitRec_data]
  unfold lookup personSearch
  rw [bind_assoc]
  refine (((find_sim name hr fuel).bind fun p out ho => ?_).rel hf).eq
  obtain ⟨rs₁, rs₂⟩ := out
  obtain ⟨hrs, rfl⟩ := ho
  simp only at hrs
  subst hrs
  cases rs₂ with
  | nil => exact .inr (.ret rfl)
  | cons x rs₂ =>
    have hx := hr.node_at
    have hxp := hr.persons x (by simp)
    obtain ⟨m, ps⟩ := h
    simp only [firstNode_cons, Heap.node_mk hx, Heap.person_mk hxp, Run.ret_bind]
    exact .inr (.ret rfl)

/-! ## The groups of a name -/

theorem palindromic_iff {ps : List Person} :
    Palindromic ps ↔ ∀ k, (group Person.key k ps).reverse = group Person.key k ps := by
  constructor
  · intro hp k
    cases hg : group Person.key k ps with
    | nil => rfl
    | cons p l =>
      have hpk : Person.key p = k := (mem_group.mp (hg ▸ List.mem_cons_self)).2
      have h := hp p.bytes
      rw [Person.hasName_eq] at h
      rw [← hg, ← hpk]
      exact h
  · intro hg name
    rw [Person.hasName_eq]
    exact hg _

/-- Loading a saved list: the same persons in the same order exactly if they are palindromic. -/
theorem reinsert_supplied {rs : List Record} (hs : KeySorted Record.key rs) (mem : Supply) :
    (reinsert Record.key [] (supplied mem 0 (rs.map Record.data))).map Record.data =
      rs.map Record.data ↔ Palindromic (rs.map Record.data) := by
  have hs' : KeySorted Person.key (rs.map Record.data) := List.pairwise_map.mpr hs
  have hmap : (reinsert Record.key [] (supplied mem 0 (rs.map Record.data))).map Record.data =
      reinsert Person.key [] ((supplied mem 0 (rs.map Record.data)).map Record.data) :=
    map_reinsert Record.data [] _
  rw [supplied_data] at hmap
  rw [palindromic_iff, ← reinsert_eq_self_iff hs', hmap]

/-! ## The round trip -/

/-- All new nodes start with null links. -/
def Operator.NullLinks : Operator → Prop
  | .insert a _ _ _ _ => a.prev = none ∧ a.next = none
  | .load _ _ mem => ∀ i, (mem i).1.prev = none ∧ (mem i).1.next = none
  | _ => True

theorem Operator.NullLinks.first {op : Operator} (h : op.NullLinks) (w : World) :
    NullFirstOp w op := by
  cases op with
  | insert a addr junk name phone => exact fun _ _ _ => h
  | load opens junk mem => exact fun _ _ _ _ => h 0
  | _ => trivial

/-- The lists of two sessions have the same persons in the same order, and each search finds the
same person. -/
def SameList (front : Ptr) (h : Heap) (rs : List Record) (front' : Ptr) (h' : Heap)
    (rs' : List Record) : Prop :=
  rs'.map Record.data = rs.map Record.data ∧
    ∀ fuel, rs.length < fuel → ∀ name, lookup fuel name front' h' = lookup fuel name front h

theorem sameList_of_data {front front' : Ptr} {h h' : Heap} {rs rs' : List Record}
    (hr : Repr h front rs) (hr' : Repr h' front' rs') (hd : rs'.map Record.data = rs.map Record.data) :
    SameList front h rs front' h' rs' := by
  have hlen : rs'.length = rs.length := by simpa using congrArg List.length hd
  refine ⟨hd, fun fuel hf name => ?_⟩
  rw [lookup_eq hr hf, lookup_eq hr' (by omega), hd]

theorem exec_listed {fuel : Nat} {file : Option (List Byte)} {ops : List Operator} {w : World}
    (hf : Along (select fuel) FreshOp { env := { file := file } } ops)
    (hz : ∀ op ∈ ops, op.NullLinks)
    (hw : exec (select fuel) ops { env := { file := file } } = .ret w) :
    ∃ c rs, Listed w c rs := by
  have hstart : Listed { env := { file := file } } {} [] := .empty rfl rfl
  refine exec_invariant (I := fun w => ∃ c rs, Listed w c rs) ?_ ⟨_, _, hstart⟩
    (hf.and (along_of_mem hz)) hw
  rintro w op w' ⟨c, rs, hl⟩ ⟨hfo, hn⟩ hs
  obtain ⟨c', rs', hl', -⟩ := select_listed hl hfo (hn.first w) hs
  exact ⟨c', rs', hl'⟩

/-- What `save_entry` leaves in the file. -/
theorem saveEntry_file {fuel : Nat} {w : World} {c : Contacts} {rs : List Record}
    (hl : Listed w c rs) {r : Option Contacts × Env}
    (hs : saveEntry fuel true w.contacts w.env = .ret (some 0, r)) :
    r.2.file = some (saved (rs.map Record.data)) := by
  rw [hl.contacts, saveEntry] at hs
  split at hs
  · cases hs
  · rw [if_neg (by simp)] at hs
    obtain ⟨bytes, hb, hret⟩ := Run.bind_eq_ret.mp hs
    cases hret
    have hr₀ : Repr w.env.heap c.front ([] ++ rs) := hl.repr
    rw [hl.repr.front_eq] at hb
    obtain ⟨bytes', hb', rfl⟩ := (saveLoop_sim hr₀ fuel).of_eq_ret hb
    rw [Run.ret.inj hb']

/-- **Saving and loading.** A list that a run of the menu made, saved and loaded into empty
contacts, is the same again exactly if the persons of each name are palindromic. -/
theorem roundTrip_iff {fuel : Nat} {file : Option (List Byte)} {ops : List Operator} {w : World}
    (hf : Along (select fuel) FreshOp { env := { file := file } } ops)
    (hz : ∀ op ∈ ops, op.NullLinks)
    (hw : exec (select fuel) ops { env := { file := file } } = .ret w)
    {r : Option Contacts × Env} (hs : saveEntry fuel true w.contacts w.env = .ret (some 0, r))
    {c₀ : Contacts} {e : Env} (hc₀ : c₀.front = none) (he : e.file = r.2.file)
    {junk : Person} {mem : Supply} (hm : FreshOp ⟨some c₀, e⟩ (.load true junk mem))
    (hmz : (Operator.load true junk mem).NullLinks) :
    ∃ c rs, w.contacts = some c ∧ Repr w.env.heap c.front rs ∧ ∀ n, rs.length < n →
      ∃ c' e' rs', loadEntry n (e.file.map freads) junk mem (some c₀) e = .ret (some 0, some c', e') ∧
        Repr e'.heap c'.front rs' ∧
        (SameList c.front w.env.heap rs c'.front e'.heap rs' ↔ Palindromic (rs.map Record.data)) := by
  obtain ⟨c, rs, hl⟩ := exec_listed hf hz hw
  refine ⟨c, rs, hl.contacts, hl.repr, fun n hn => ?_⟩
  rw [he, saveEntry_file hl hs, Option.map_some]
  have hempty : Listed ⟨some c₀, e⟩ c₀ [] := .empty rfl hc₀
  have hcomp : Comparable (supplied mem 0 (rs.map Record.data)) := by
    rw [comparable_iff_data, supplied_data, ← comparable_iff_data]
    exact hl.comparable
  have hsim := loadEntry_sim n (freads (saved (rs.map Record.data))) hempty hm fun _ _ => hmz 0
  rw [loadRec_saved rfl hcomp (by simp) (by simpa using hn)] at hsim
  have hload := hsim.rel (by simp)
  obtain ⟨res, hres, front, h', rfl, hr'⟩ := hload.of_ret
  refine ⟨_, _, _, hres, hr', ?_⟩
  rw [← reinsert_supplied hl.sorted mem]
  exact ⟨fun h => h.1, sameList_of_data hl.repr hr'⟩

/-- The blocks of a new process. -/
def newBlocks : Supply := fun i => (⟨i, none, none⟩, i)

/-- Three persons `a`, of which the last one has the phone of the first one, and a person `b`. -/
def several : List Operator :=
  [.insert ⟨10, none, none⟩ 20 blank (some [97]) (some [49]),
    .insert ⟨11, none, none⟩ 21 blank (some [98]) (some [51]),
    .insert ⟨12, none, none⟩ 22 blank (some [97]) (some [50]),
    .insert ⟨13, none, none⟩ 23 blank (some [97]) (some [49])]

theorem roundTrip_iff_several :
    ∃ w r, exec (select 5) several {} = .ret w ∧
      saveEntry 5 true w.contacts w.env = .ret (some 0, r) ∧
      ∃ c rs, w.contacts = some c ∧ Repr w.env.heap c.front rs ∧ ∀ n, rs.length < n →
        ∃ c' e' rs', loadEntry n (r.2.file.map freads) blank newBlocks (some {})
            { file := r.2.file } = .ret (some 0, some c', e') ∧ Repr e'.heap c'.front rs' ∧
          (SameList c.front w.env.heap rs c'.front e'.heap rs' ↔
            Palindromic (rs.map Record.data)) := by
  have hf : Along (select 5) FreshOp { env := { file := none } } several :=
    ⟨⟨rfl, rfl⟩, ⟨rfl, rfl⟩, ⟨rfl, rfl⟩, ⟨rfl, rfl⟩, trivial⟩
  have hz : ∀ op ∈ several, op.NullLinks := by simp [several, Operator.NullLinks]
  have hm : ∀ file, FreshOp ⟨some {}, { file := file }⟩ (.load true blank newBlocks) := fun _ =>
    ⟨fun _ => ⟨rfl, rfl⟩, fun _ _ => id, fun _ _ => id⟩
  have hrun : ∃ w r, exec (select 5) several {} = .ret w ∧
      saveEntry 5 true w.contacts w.env = .ret (some 0, r) := ⟨_, _, rfl, rfl⟩
  obtain ⟨w, r, hw, hs⟩ := hrun
  have hfile : ({ file := r.2.file } : Env).file = r.2.file := rfl
  exact ⟨w, r, hw, hs, roundTrip_iff hf hz hw hs rfl hfile (hm _) fun _ => ⟨rfl, rfl⟩⟩

/-- Two persons `a` with the phones 1 and 2. -/
def twins : List Operator :=
  [.insert ⟨10, none, none⟩ 20 blank (some [97]) (some [49]),
    .insert ⟨11, none, none⟩ 21 blank (some [97]) (some [50])]

/-- After saving and loading, a search for `a` finds the other one. -/
theorem twins_swapped :
    ¬ ∀ w r c c' e', exec (select 3) twins {} = .ret w →
      saveEntry 3 true w.contacts w.env = .ret (some 0, r) → w.contacts = some c →
      loadEntry 3 (r.2.file.map freads) blank newBlocks (some {}) { file := r.2.file } =
        .ret (some 0, some c', e') →
      lookup 3 [97, 0] c'.front e'.heap = lookup 3 [97, 0] c.front w.env.heap := by
  intro hall
  have hsame := hall _ _ _ _ _ rfl rfl rfl rfl
  exact absurd hsame (by decide)

end AddressBook
end LinuxBase
