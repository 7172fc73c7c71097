import LinuxBase.AddressBook.Names

/-!
# The list functions without pointers

For each list function of the source there is one on lists of records, which compares names as the
source does and may fault as the source does. Where they return, they are insertion into a sorted
list (`insertRec_ret`), removal (`deleteRec_ret`) and search (`searchRec_ret`) by the names' keys.
-/

namespace LinuxBase
namespace AddressBook

open CString KeySort

/-- A node of the list with its person. -/
structure Record where
  node : Addr
  person : Addr
  data : Person
  deriving DecidableEq

/-- The node of a record, as a cell. -/
def Record.cell (r : Record) : Addr × Addr := (r.node, r.person)

/-- `list_insert_front` on records: `r` goes before the first record that is not smaller. -/
def insertRec (r : Record) : List Record → Run (List Record)
  | [] => .ret [r]
  | x :: rs => do
    let c ← compareName r.data.bytes x.data.bytes
    if c = -1 ∨ c = 0 then .ret (r :: x :: rs)
    else
      let rs ← insertRec r rs
      .ret (x :: rs)

/-- The search loops on records: the records before the first with the name, and the rest. -/
def splitRec (name : List Byte) : List Record → Run (List Record × List Record)
  | [] => .ret ([], [])
  | x :: rs => do
    let c ← strcmp name x.data.bytes
    if c = 0 then .ret ([], x :: rs)
    else
      let (rs₁, rs₂) ← splitRec name rs
      .ret (x :: rs₁, rs₂)

/-- `person_delete` on records. -/
def deleteRec (name : List Byte) (rs : List Record) : Run (Int × List Record) := do
  match ← splitRec name rs with
  | (rs₁, _ :: rs₂) => .ret (0, rs₁ ++ rs₂)
  | (_, []) => .ret (-1, rs)

/-- `person_search` on records. -/
def searchRec (name : List Byte) (rs : List Record) : Run Ptr := do
  match ← splitRec name rs with
  | (_, x :: _) => .ret (some x.person)
  | (_, []) => .ret none

/-! ## Where they return -/

def Record.key (r : Record) : List Int := r.data.key

def Record.hasName (name : List Byte) (r : Record) : Bool := r.data.hasName name

theorem hasName_eq (name : List Byte) :
    Record.hasName name = hasKey Record.key (signedKey name) :=
  funext fun r => congrFun (Person.hasName_eq name) r.data

section Returns

variable {r : Record} {name : List Byte} {rs : List Record}

theorem insertRec_ret {rs' : List Record} (h : insertRec r rs = .ret rs') :
    rs' = rs.orderedInsert (KeyLE Record.key) r := by
  induction rs generalizing rs' with
  | nil => cases h; rfl
  | cons x rs ih =>
    obtain ⟨c, hc, h⟩ := Run.bind_eq_ret.mp h
    have hle : c = -1 ∨ c = 0 ↔ KeyLE Record.key r x := (compareName_agrees hc).le_iff
    rw [List.orderedInsert_cons]
    by_cases hrx : KeyLE Record.key r x
    · rw [if_pos (hle.mpr hrx)] at h
      rw [if_pos hrx]
      cases h; rfl
    · rw [if_neg fun hc' => hrx (hle.mp hc')] at h
      obtain ⟨rs₁, h1, h⟩ := Run.bind_eq_ret.mp h
      rw [if_neg hrx, ← ih h1]
      cases h; rfl

/-- `r` can be inserted if it can be compared with each record. -/
theorem insertRec_returns (h : ∀ x ∈ rs, r.key = x.key → 0#8 ∈ r.data.bytes) :
    insertRec r rs = .ret (rs.orderedInsert (KeyLE Record.key) r) := by
  have hret : ∃ rs', insertRec r rs = .ret rs' := by
    induction rs with
    | nil => exact ⟨_, rfl⟩
    | cons x rs ih =>
      obtain ⟨hx, hrs⟩ := List.forall_mem_cons.mp h
      obtain ⟨c, hc⟩ := compareName_returns hx
      obtain ⟨rs', hrs'⟩ := ih hrs
      simp only [insertRec, hc, Run.ret_bind, hrs']
      by_cases hle : c = -1 ∨ c = 0
      · exact ⟨_, if_pos hle⟩
      · exact ⟨_, if_neg hle⟩
  obtain ⟨rs', hrs'⟩ := hret
  rw [hrs', insertRec_ret hrs']

theorem splitRec_ret {out : List Record × List Record} (h : splitRec name rs = .ret out) :
    rs = out.1 ++ out.2 ∧ (∀ x ∈ out.1, x.hasName name = false) ∧
      ∀ x ∈ out.2.head?, x.hasName name = true := by
  induction rs generalizing out with
  | nil => cases h; simp
  | cons x rs ih =>
    obtain ⟨c, hc, h⟩ := Run.bind_eq_ret.mp h
    have hcx : c = 0 ↔ x.hasName name = true := by
      rw [strcmp_ret hc, Record.hasName, Person.hasName, decide_eq_true_iff]
      exact eq_comm
    by_cases hc0 : c = 0
    · rw [if_pos hc0] at h
      cases h
      exact ⟨rfl, by simp, by simpa using hcx.mp hc0⟩
    · rw [if_neg hc0] at h
      obtain ⟨out', h', h⟩ := Run.bind_eq_ret.mp h
      cases h
      obtain ⟨h1, h2, h3⟩ := ih h'
      refine ⟨by rw [h1]; rfl, ?_, h3⟩
      intro y hy
      rcases List.mem_cons.mp hy with rfl | hy
      · simpa [hc0] using hcx
      · exact h2 y hy

theorem deleteRec_ret {res : Int × List Record} (h : deleteRec name rs = .ret res) :
    res = (if rs.any (Record.hasName name) then 0 else -1, rs.eraseP (Record.hasName name)) := by
  obtain ⟨⟨rs₁, rs₂⟩, hs, hres⟩ := Run.bind_eq_ret.mp h
  obtain ⟨h1, h2, h3⟩ := splitRec_ret hs
  simp only at h1 h2 h3
  subst h1
  have hany : rs₁.any (Record.hasName name) = false := by simpa using h2
  have herase : (rs₁ ++ rs₂).eraseP (Record.hasName name) =
      rs₁ ++ rs₂.eraseP (Record.hasName name) :=
    List.eraseP_append_right rs₂ fun x hx => by simp [h2 x hx]
  rw [herase, List.any_append, hany]
  cases rs₂ with
  | nil => cases hres; rfl
  | cons x rs₂ =>
    cases hres
    have hx : x.hasName name = true := h3 x rfl
    simp [hx]

theorem searchRec_ret {p : Ptr} (h : searchRec name rs = .ret p) :
    p = (rs.find? (Record.hasName name)).map Record.person := by
  obtain ⟨⟨rs₁, rs₂⟩, hs, hres⟩ := Run.bind_eq_ret.mp h
  obtain ⟨h1, h2, h3⟩ := splitRec_ret hs
  simp only at h1 h2 h3
  subst h1
  have hnone : rs₁.find? (Record.hasName name) = none := by
    rw [List.find?_eq_none]; simpa using h2
  rw [List.find?_append, hnone, Option.none_or]
  cases rs₂ with
  | nil => exact (Run.ret.inj hres).symm
  | cons x rs₂ =>
    rw [List.find?_cons_of_pos (h3 x rfl)]
    exact (Run.ret.inj hres).symm

/-- A search for a name returns if the name can be compared with each record. -/
theorem splitRec_returns (h : ∀ x ∈ rs, ∃ c, strcmp name x.data.bytes = .ret c) :
    ∃ out, splitRec name rs = .ret out := by
  induction rs with
  | nil => exact ⟨_, rfl⟩
  | cons x rs ih =>
    obtain ⟨⟨c, hc⟩, hrs⟩ := List.forall_mem_cons.mp h
    obtain ⟨out, ho⟩ := ih hrs
    simp only [splitRec, hc, Run.ret_bind, ho]
    by_cases hc0 : c = 0
    · exact ⟨_, if_pos hc0⟩
    · exact ⟨_, if_neg hc0⟩

theorem deleteRec_returns (h : ∀ x ∈ rs, ∃ c, strcmp name x.data.bytes = .ret c) :
    deleteRec name rs =
      .ret (if rs.any (Record.hasName name) then 0 else -1, rs.eraseP (Record.hasName name)) := by
  have hret : ∃ res, deleteRec name rs = .ret res := by
    obtain ⟨⟨rs₁, rs₂⟩, hs⟩ := splitRec_returns h
    cases rs₂ <;> exact ⟨_, by rw [deleteRec, hs]; rfl⟩
  obtain ⟨res, hres⟩ := hret
  rw [hres, deleteRec_ret hres]

theorem searchRec_returns (h : ∀ x ∈ rs, ∃ c, strcmp name x.data.bytes = .ret c) :
    searchRec name rs = .ret ((rs.find? (Record.hasName name)).map Record.person) := by
  have hret : ∃ p, searchRec name rs = .ret p := by
    obtain ⟨⟨rs₁, rs₂⟩, hs⟩ := splitRec_returns h
    cases rs₂ <;> exact ⟨_, by rw [searchRec, hs]; rfl⟩
  obtain ⟨p, hp⟩ := hret
  rw [hp, searchRec_ret hp]

/-! ### Comparable records -/

/-- Records with equal names have terminated names, so `compare_name` returns. -/
def Comparable (rs : List Record) : Prop := rs.Pairwise fun x y => x.key = y.key → 0#8 ∈ x.data.bytes

/-- It depends only on the persons. -/
theorem comparable_iff_data :
    Comparable rs ↔ (rs.map Record.data).Pairwise fun p q => p.key = q.key → 0#8 ∈ p.bytes := by
  rw [List.pairwise_map]
  exact Iff.rfl

theorem mem_zero_of_key_eq {x : Record} (h : r.key = x.key) (hr : 0#8 ∈ r.data.bytes) :
    0#8 ∈ x.data.bytes := by
  have hc := signedKey_inj.mp h
  rwa [← mem_cstr_zero, ← hc, mem_cstr_zero]

/-- An insertion that returns compared the new record with all records of its name. -/
theorem insertRec_terminated {rs' : List Record} (hs : KeySorted Record.key rs)
    (h : insertRec r rs = .ret rs') : ∀ x ∈ rs, r.key = x.key → 0#8 ∈ r.data.bytes := by
  induction rs generalizing rs' with
  | nil => simp
  | cons x rs ih =>
    obtain ⟨hx, hrs⟩ := List.pairwise_cons.mp hs
    obtain ⟨c, hc, h⟩ := Run.bind_eq_ret.mp h
    obtain ⟨d, hd, -⟩ := Run.bind_eq_ret.mp hc
    have hfirst : r.key = x.key → 0#8 ∈ r.data.bytes := fun he => by
      rw [strcmp_of_cstr_eq (signedKey_inj.mp he)] at hd
      split at hd
      · assumption
      · cases hd
    have hle : c = -1 ∨ c = 0 ↔ r.key ≤ x.key := (compareName_agrees hc).le_iff
    by_cases hc01 : c = -1 ∨ c = 0
    · -- Later records of the name would be equal to `x` too.
      intro y hy he
      rcases List.mem_cons.mp hy with rfl | hy
      · exact hfirst he
      · exact hfirst (le_antisymm (hle.mp hc01) (he ▸ hx y hy))
    · rw [if_neg hc01] at h
      obtain ⟨rs₁, h1, -⟩ := Run.bind_eq_ret.mp h
      exact List.forall_mem_cons.mpr ⟨hfirst, ih hrs h1⟩

/-- An insertion that returns keeps the list sorted and comparable. -/
theorem insertRec_comparable {rs' : List Record} (hs : KeySorted Record.key rs)
    (hc : Comparable rs) (h : insertRec r rs = .ret rs') :
    KeySorted Record.key rs' ∧ Comparable rs' := by
  have ht := insertRec_terminated hs h
  rw [insertRec_ret h]
  refine ⟨hs.orderedInsert r, ?_⟩
  refine ((List.perm_orderedInsert _ r rs).pairwise_iff ?_).mpr (List.pairwise_cons.mpr ⟨ht, hc⟩)
  exact fun hxy he => mem_zero_of_key_eq he.symm (hxy he.symm)

end Returns

end AddressBook
end LinuxBase
