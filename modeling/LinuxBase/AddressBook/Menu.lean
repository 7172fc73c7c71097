import LinuxBase.AddressBook.Loading
import LinuxBase.Lib.Trace

/-!
# The counter of the contact list

`contacts->size` is kept beside the list. `insert_entry` and `delete_entry` change both,
`load_entry` changes only the list. So the counter is right in all states of a run (`size_counts`)
in which no `load_entry` finds a record (`AddsNothing`) and a node that is inserted into an empty list
has null links (`NullFirstOp`), so that the list is well formed.

`Listed w c rs` is the invariant of the menu: the contacts `c` have the list `rs`, sorted and with
comparable names. `select_listed` says that each operation keeps it, and, unless it loads a record,
the difference between the counter and the length.
-/

namespace LinuxBase
namespace AddressBook

open CString KeySort

/-- `malloc` returns dead blocks, and a new one each time. -/
def FreshOp (w : World) : Operator → Prop
  | .insert a addr _ _ _ => w.env.heap.nodes a.addr = none ∧ w.env.heap.persons addr = none
  | .load _ _ mem =>
    (∀ i, w.env.heap.nodes (mem i).1.addr = none ∧ w.env.heap.persons (mem i).2 = none) ∧
      (∀ i j, (mem i).1.addr = (mem j).1.addr → i = j) ∧ ∀ i j, (mem i).2 = (mem j).2 → i = j
  | _ => True

/-- The operation does not load a record. -/
def AddsNothing (w : World) : Operator → Prop
  | .load opens _ _ => opens = true → ∀ bytes, w.env.file = some bytes →
    bytes.length < personNameLength + personPhoneLength
  | _ => True

/-- A node that is inserted into an empty list has null links. -/
def NullFirstOp (w : World) : Operator → Prop
  | .insert a _ _ _ _ =>
    ∀ c, w.contacts = some c → c.front = none → a.prev = none ∧ a.next = none
  | .load opens junk mem =>
    ¬ AddsNothing w (.load opens junk mem) → ∀ c, w.contacts = some c → c.front = none →
      (mem 0).1.prev = none ∧ (mem 0).1.next = none
  | _ => True

/-- The invariant (module doc). -/
structure Listed (w : World) (c : Contacts) (rs : List Record) : Prop where
  contacts : w.contacts = some c
  repr : Repr w.env.heap c.front rs
  sorted : KeySorted Record.key rs
  comparable : Comparable rs

/-- The start of the program, and of a load into empty contacts. -/
theorem Listed.empty {w : World} {c : Contacts} (hc : w.contacts = some c) (hfront : c.front = none) :
    Listed w c [] where
  contacts := hc
  repr := by rw [hfront]; exact repr_nil _
  sorted := List.Pairwise.nil
  comparable := List.Pairwise.nil

section Steps

variable {fuel : Nat} {e : Env} {c : Contacts} {rs : List Record} {res : Result}

/-- The operation keeps the list, and the difference between the counter and its length. -/
def Keeps (c : Contacts) (rs : List Record) (res : Result) : Prop :=
  ∃ c' rs', Listed ⟨res.2.1, res.2.2⟩ c' rs' ∧ c'.size - rs'.length = c.size - rs.length

theorem increment_ret {n m : Int} (h : increment n = .ret m) : m = n + 1 := by
  unfold increment at h
  split at h
  · exact (Run.ret.inj h).symm
  · cases h

theorem decrement_ret {n m : Int} (h : decrement n = .ret m) : m = n - 1 := by
  unfold decrement at h
  split at h
  · exact (Run.ret.inj h).symm
  · cases h

theorem insertEntry_keeps {a : Alloc} {addr : Addr} {junk : Person} {name phone : Option Token}
    (h : Listed ⟨some c, e⟩ c rs) (hf : e.heap.nodes a.addr = none ∧ e.heap.persons addr = none)
    (hn : c.front = none → a.prev = none ∧ a.next = none)
    (hres : insertEntry fuel a addr junk name phone (some c) e = .ret res) : Keeps c rs res := by
  obtain ⟨-, hr, hs, hc⟩ := h
  obtain ⟨p₁, -, h1⟩ := Run.bind_eq_ret.mp hres
  obtain ⟨p₂, -, h2⟩ := Run.bind_eq_ret.mp h1
  obtain ⟨⟨ret, front, h'⟩, hins, h3⟩ := Run.bind_eq_ret.mp h2
  have hnull : LinksNull rs a := fun hrs => hn (by rw [hr.front_eq, hrs]; rfl)
  obtain ⟨hnode, hper⟩ := hr.fresh hf.1 hf.2
  obtain ⟨rs', hrs', h0, l, hl, hr', -⟩ :=
    (personInsert_sim p₂ hr hnull hnode hper fuel).of_eq_ret hins
  obtain ⟨hs', hc'⟩ := insertRec_comparable hs hc hrs'
  simp only at h0 hl hr'
  subst h0 hl
  obtain ⟨size, hsize, h4⟩ := Run.bind_eq_ret.mp h3
  cases h4
  refine ⟨_, rs', ⟨rfl, hr', hs', hc'⟩, ?_⟩
  rw [insertRec_ret hrs', List.orderedInsert_length, increment_ret hsize]
  simp only
  omega

theorem deleteEntry_keeps {junk : Block personNameLength} {name : Option Token}
    (h : Listed ⟨some c, e⟩ c rs) (hres : deleteEntry fuel junk name (some c) e = .ret res) :
    Keeps c rs res := by
  obtain ⟨hco, hr, hs, hc⟩ := h
  rw [deleteEntry] at hres
  by_cases h0 : c.size = 0
  · rw [if_pos h0] at hres
    cases hres
    exact ⟨c, rs, ⟨rfl, hr, hs, hc⟩, rfl⟩
  · rw [if_neg h0] at hres
    obtain ⟨name, -, h1⟩ := Run.bind_eq_ret.mp hres
    obtain ⟨⟨ret, front, h'⟩, hdel, h2⟩ := Run.bind_eq_ret.mp h1
    obtain ⟨⟨ret', rs'⟩, hrs', hret, l, hl, hr', -⟩ :=
      (personDelete_sim name.bytes hr fuel).of_eq_ret hdel
    have hrec := deleteRec_ret hrs'
    simp only at hret hl hr'
    subst hret hl
    rw [Prod.mk.injEq] at hrec
    obtain ⟨hret, rfl⟩ := hrec
    have hs' := hs.eraseP (Record.hasName name.bytes)
    have hc' : Comparable (rs.eraseP (Record.hasName name.bytes)) := hc.sublist List.eraseP_sublist
    by_cases hany : rs.any (Record.hasName name.bytes) = true
    · rw [if_pos hany] at hret
      subst hret
      obtain ⟨size, hsize, h3⟩ := Run.bind_eq_ret.mp h2
      cases h3
      refine ⟨_, _, ⟨rfl, hr', hs', hc'⟩, ?_⟩
      obtain ⟨x, hx, hxn⟩ := List.any_eq_true.mp hany
      have hpos := List.length_pos_of_mem hx
      rw [List.length_eraseP_of_mem hx hxn, decrement_ret hsize]
      simp only
      omega
    · rw [if_neg hany] at hret
      subst hret
      cases h2
      refine ⟨_, _, ⟨rfl, hr', hs', hc'⟩, ?_⟩
      rw [List.eraseP_of_forall_not]
      simpa using hany

/-- Output and the file do not matter. -/
theorem keeps_of_heap_eq {r : Option Int} {e' : Env} (h : Listed ⟨some c, e⟩ c rs)
    (he : e'.heap = e.heap) : Keeps c rs (r, some c, e') :=
  ⟨c, rs, ⟨rfl, by simpa only [he] using h.repr, h.sorted, h.comparable⟩, rfl⟩

theorem logPerson_heap {p : Person} {e' : Env} (h : logPerson p e = .ret e') : e'.heap = e.heap := by
  obtain ⟨name, -, h1⟩ := Run.bind_eq_ret.mp h
  obtain ⟨phone, -, h2⟩ := Run.bind_eq_ret.mp h1
  cases h2
  rfl

theorem personTraverse_heap {p : Ptr} {out : Int × Env} (h : personTraverse fuel p e = .ret out) :
    out.2.heap = e.heap := by
  induction fuel generalizing p e with
  | zero => cases h
  | succ fuel ih =>
    cases p with
    | none => cases h; rfl
    | some node =>
      obtain ⟨n, -, h1⟩ := Run.bind_eq_ret.mp h
      obtain ⟨person, -, h2⟩ := Run.bind_eq_ret.mp h1
      obtain ⟨e', h3, h4⟩ := Run.bind_eq_ret.mp h2
      rw [ih h4, logPerson_heap h3]

theorem printEntry_keeps (h : Listed ⟨some c, e⟩ c rs)
    (hres : printEntry fuel (some c) e = .ret res) : Keeps c rs res := by
  obtain ⟨⟨_, e'⟩, h1, h2⟩ := Run.bind_eq_ret.mp hres
  cases h2
  exact keeps_of_heap_eq h (personTraverse_heap h1)

theorem searchEntry_keeps {junk : Block personNameLength} {name : Option Token}
    (h : Listed ⟨some c, e⟩ c rs) (hres : searchEntry fuel junk name (some c) e = .ret res) :
    Keeps c rs res := by
  obtain ⟨name, -, h1⟩ := Run.bind_eq_ret.mp hres
  obtain ⟨p, -, h2⟩ := Run.bind_eq_ret.mp h1
  cases p with
  | none => cases h2; exact keeps_of_heap_eq h rfl
  | some p =>
    obtain ⟨person, -, h3⟩ := Run.bind_eq_ret.mp h2
    obtain ⟨e', h4, h5⟩ := Run.bind_eq_ret.mp h3
    cases h5
    have hheap := logPerson_heap h4
    exact keeps_of_heap_eq h hheap

theorem saveEntry_keeps {opens : Bool} (h : Listed ⟨some c, e⟩ c rs)
    (hres : saveEntry fuel opens (some c) e = .ret res) : Keeps c rs res := by
  rw [saveEntry] at hres
  split at hres
  · cases hres; exact keeps_of_heap_eq h rfl
  · split at hres
    · cases hres; exact keeps_of_heap_eq h rfl
    · obtain ⟨bytes, -, h1⟩ := Run.bind_eq_ret.mp hres
      cases h1
      exact keeps_of_heap_eq h rfl

theorem loadRec_comparable {reads : Nat → Fread} {mem : Supply} {i : Nat} {person : Person}
    {eof : Bool} {rs' : List Record} (hs : KeySorted Record.key rs) (hc : Comparable rs)
    (h : loadRec reads mem fuel i person eof rs = .ret rs') :
    KeySorted Record.key rs' ∧ Comparable rs' := by
  induction fuel generalizing i person eof rs with
  | zero => cases h
  | succ fuel ih =>
    cases eof with
    | true => cases h; exact ⟨hs, hc⟩
    | false =>
      obtain ⟨rs₁, h1, h2⟩ := Run.bind_eq_ret.mp h
      obtain ⟨next, -, h3⟩ := Run.bind_eq_ret.mp h2
      obtain ⟨hs₁, hc₁⟩ := insertRec_comparable hs hc h1
      exact ih hs₁ hc₁ h3

/-- The blocks of a load are not in the list. -/
theorem Listed.fresh_load {junk : Person} {mem : Supply} (h : Listed ⟨some c, e⟩ c rs)
    (hf : FreshOp ⟨some c, e⟩ (.load true junk mem)) : mem.Fresh 0 rs := by
  obtain ⟨hdead, hnode, hper⟩ := hf
  exact ⟨fun j _ => (h.repr.fresh (hdead j).1 (hdead j).2).1,
    fun j _ => (h.repr.fresh (hdead j).1 (hdead j).2).2, hnode, hper⟩

/-- The loop of `load_entry`, with its first `fread`, on records. Only a file that does not end there
has a first node. -/
theorem loadEntry_sim (fuel : Nat) (reads : Nat → Fread) {junk : Person} {mem : Supply}
    (h : Listed ⟨some c, e⟩ c rs) (hf : FreshOp ⟨some c, e⟩ (.load true junk mem))
    (hn : (reads 0).isEof = false → c.front = none →
      (mem 0).1.prev = none ∧ (mem 0).1.next = none) :
    Run.Sim (rs.length + fuel ≤ fuel)
      (fun res rs' => ∃ front h', res = (some 0, some { c with front := front },
        ({ e with heap := h' } : Env).say "读取成功\n") ∧ Repr h' front rs')
      (loadEntry fuel (some reads) junk mem (some c) e)
      ((reads 0).into junk >>= fun next => loadRec reads mem fuel 0 next.1 next.2 rs) := by
  have hfresh := h.fresh_load hf
  refine Run.Sim.bind_same _ fun next hnext => ?_
  have hnull : next.2 = false → LinksNull rs (mem 0).1 := fun heof hrs =>
    hn ((into_isEof hnext).symm.trans heof) (by rw [h.repr.front_eq, hrs]; rfl)
  refine (loadLoop_sim h.repr hfresh hnull fuel).ret_left fun out rs' ⟨hr', _⟩ => ?_
  exact ⟨_, _, rfl, hr'⟩

/-- The first `fread` of an open file meets its end. -/
def EndsAtOnce (fd : Option (Nat → Fread)) : Prop :=
  ∀ reads, fd = some reads → (reads 0).isEof = true

/-- `load_entry` keeps a list; where there is no record to read, also its length. -/
theorem loadEntry_listed {fd : Option (Nat → Fread)} {junk : Person} {mem : Supply}
    (h : Listed ⟨some c, e⟩ c rs) (hf : FreshOp ⟨some c, e⟩ (.load true junk mem))
    (hn : ¬ EndsAtOnce fd → c.front = none → (mem 0).1.prev = none ∧ (mem 0).1.next = none)
    (hres : loadEntry fuel fd junk mem (some c) e = .ret res) :
    ∃ c' rs', Listed ⟨res.2.1, res.2.2⟩ c' rs' ∧
      (EndsAtOnce fd → c'.size - rs'.length = c.size - rs.length) := by
  cases fd with
  | none =>
    cases hres
    exact ⟨c, rs, ⟨rfl, h.repr, h.sorted, h.comparable⟩, fun _ => rfl⟩
  | some reads =>
    have hn' : (reads 0).isEof = false → c.front = none →
        (mem 0).1.prev = none ∧ (mem 0).1.next = none := fun heof =>
      hn fun hends => Bool.false_ne_true (heof.symm.trans (hends reads rfl))
    obtain ⟨rs', hrec, front, h', rfl, hr'⟩ := (loadEntry_sim fuel reads h hf hn').of_eq_ret hres
    obtain ⟨next, hnext, hrec⟩ := Run.bind_eq_ret.mp hrec
    obtain ⟨hs', hc'⟩ := loadRec_comparable h.sorted h.comparable hrec
    refine ⟨{ c with front := front }, rs', ⟨rfl, hr', hs', hc'⟩, fun hends => ?_⟩
    have heof : next.2 = true := (into_isEof hnext).trans (hends reads rfl)
    rw [heof] at hrec
    cases fuel with
    | zero => cases hrec
    | succ fuel => cases hrec; rfl

theorem isEof_freads (bytes : List Byte) :
    (freads bytes 0).isEof = true ↔ bytes.length < personNameLength + personPhoneLength := by
  rw [freads, Nat.mul_zero, List.drop_zero, fread]
  split
  case isTrue h => exact ⟨fun hends => (by cases hends), fun hlt => absurd h (Nat.not_le.mpr hlt)⟩
  case isFalse h => exact ⟨fun _ => Nat.lt_of_not_le h, fun _ => rfl⟩

theorem addsNothing_load_iff {w : World} {opens : Bool} {junk : Person} {mem : Supply} :
    AddsNothing w (.load opens junk mem) ↔
      EndsAtOnce (if opens then w.env.file.map freads else none) := by
  cases opens with
  | false => exact ⟨fun _ reads h => (by cases h), fun _ h => (by cases h)⟩
  | true =>
    constructor
    · intro hadds reads hreads
      obtain ⟨bytes, hfile, rfl⟩ := Option.map_eq_some_iff.mp hreads
      exact (isEof_freads bytes).mpr (hadds rfl bytes hfile)
    · intro hends _ bytes hfile
      apply (isEof_freads bytes).mp
      apply hends
      rw [if_pos rfl, hfile, Option.map_some]

end Steps

section Runs

variable {fuel : Nat} {w w' : World} {c : Contacts} {rs : List Record} {op : Operator}

theorem select_listed (h : Listed w c rs) (hf : FreshOp w op) (hn : NullFirstOp w op)
    (hs : select fuel op w = .ret w') :
    ∃ c' rs', Listed w' c' rs' ∧
      (AddsNothing w op → c'.size - rs'.length = c.size - rs.length) := by
  obtain ⟨contacts, e⟩ := w
  cases h.contacts
  obtain ⟨res, hres, hw⟩ := Run.bind_eq_ret.mp hs
  cases hw
  have hk : Keeps c rs res → ∃ c' rs', Listed ⟨res.2.1, res.2.2⟩ c' rs' ∧
      (AddsNothing ⟨some c, e⟩ op → c'.size - rs'.length = c.size - rs.length) :=
    fun ⟨c', rs', hl, hsize⟩ => ⟨c', rs', hl, fun _ => hsize⟩
  cases op with
  | insert a addr junk name phone => exact hk (insertEntry_keeps h hf (hn c rfl) hres)
  | print => exact hk (printEntry_keeps h hres)
  | delete junk name => exact hk (deleteEntry_keeps h hres)
  | search junk name => exact hk (searchEntry_keeps h hres)
  | save opens => exact hk (saveEntry_keeps h hres)
  | load opens junk mem =>
    have hfirst := fun hends => hn (mt addsNothing_load_iff.mp hends) c rfl
    obtain ⟨c', rs', hl, hsize⟩ := loadEntry_listed h hf hfirst hres
    exact ⟨c', rs', hl, fun hadds => hsize (addsNothing_load_iff.mp hadds)⟩

/-- The counter is the length of the list, and `delete_entry` removes a record of each name that
occurs in it. -/
def Counted (w : World) : Prop :=
  ∃ c rs, w.contacts = some c ∧ Repr w.env.heap c.front rs ∧ c.size = rs.length ∧
    ∀ fuel junk word (name : Block personNameLength), rs.length < fuel →
      scanf junk 0 word = .ret name → 0#8 ∈ name.bytes →
      (∃ x ∈ rs, x.hasName name.bytes = true) →
      ∃ w' c', select fuel (.delete junk word) w = .ret w' ∧ w'.contacts = some c' ∧
        Repr w'.env.heap c'.front (rs.eraseP (Record.hasName name.bytes)) ∧
        (rs.eraseP (Record.hasName name.bytes)).length + 1 = rs.length ∧ c'.size + 1 = c.size

theorem Listed.counted (h : Listed w c rs) (hs : c.size = rs.length) : Counted w := by
  obtain ⟨contacts, e⟩ := w
  obtain ⟨hco, hr, -, -⟩ := h
  cases hco
  refine ⟨c, rs, rfl, hr, hs, fun fuel junk word name hfuel hscan hname ⟨x, hx, hxn⟩ => ?_⟩
  have hpos := List.length_pos_of_mem hx
  have hcmp : ∀ y ∈ rs, ∃ d, strcmp name.bytes y.data.bytes = .ret d := fun y _ =>
    strcmp_returns (.inl ⟨hname, by rw [name.size_eq, y.data.size_eq]; decide⟩)
  have hsim := (personDelete_sim name.bytes hr fuel).rel hfuel
  rw [deleteRec_returns hcmp, if_pos (List.any_eq_true.mpr ⟨x, hx, hxn⟩)] at hsim
  obtain ⟨⟨ret, front, h'⟩, hdel, hret, l, hl, hr', -⟩ := hsim.of_ret
  simp only at hret hl hr'
  subst hret hl
  have h0 : c.size ≠ 0 := by rw [hs]; omega
  have hdec : decrement c.size = .ret (c.size - 1) := if_pos (by rw [hs]; omega)
  refine ⟨⟨some ⟨l, c.size - 1⟩, ({ e.say "请输入要删除的姓名：" with heap := h' } : Env).say
    "删除成功\n"⟩, _, ?_, rfl, hr', ?_, Int.sub_add_cancel _ _⟩
  · simp only [select, entry, deleteEntry, if_neg h0, hscan, Env.say, hdel, hdec, Run.ret_bind,
      if_true, Option.getD_some]
  · rw [List.length_eraseP_of_mem hx hxn]
    omega

/-- **The counter.** -/
theorem size_counts (file : Option (List Byte)) {ops : List Operator}
    (hf : Along (select fuel) FreshOp { env := { file := file } } ops)
    (hc : Along (select fuel) (fun w op => NullFirstOp w op ∧ AddsNothing w op)
      { env := { file := file } } ops) :
    ∀ w, Visits (select fuel) { env := { file := file } } ops w → Counted w := by
  have hstart : Listed { env := { file := file } } {} [] := .empty rfl rfl
  intro w hw
  obtain ⟨c, rs, hl, hs⟩ := visits_invariant
    (I := fun w => ∃ c rs, Listed w c rs ∧ c.size = rs.length)
    (fun w op w' ⟨c, rs, hl, hs⟩ ⟨hf, hn, ha⟩ h => by
      obtain ⟨c', rs', hl', hs'⟩ := select_listed hl hf hn h
      exact ⟨c', rs', hl', by have := hs' ha; omega⟩)
    ⟨_, _, hstart, rfl⟩ (hf.and hc) hw
  exact hl.counted hs

/-- The contents of a new block of a person. -/
def blank : Person := ⟨List.replicate 27 0xff#8, rfl⟩

/-- Insert `a`, save, and delete it. -/
theorem size_counts_sample :
    ¬ ∃ w, Visits (select 2) {} [.insert ⟨10, none, none⟩ 20 blank (some [97]) (some [49]),
      .save true, .delete ⟨List.replicate 16 0, rfl⟩ (some [97])] w ∧ ¬ Counted w := by
  rintro ⟨w, hw, hn⟩
  refine hn (size_counts none ?_ ?_ w hw)
  · exact ⟨⟨rfl, rfl⟩, trivial, trivial, trivial⟩
  · exact ⟨⟨fun _ _ _ => ⟨rfl, rfl⟩, trivial⟩, ⟨trivial, trivial⟩, ⟨trivial, trivial⟩, trivial⟩

/-- Insert `a`, save, and load it again: there are two nodes, but the counter is 1. -/
theorem load_miscounts :
    ¬ ∀ w, Visits (select 3) {} [.insert ⟨10, none, none⟩ 20 blank (some [97]) (some [49]),
      .save true, .load true blank fun i => (⟨30 + i, none, none⟩, 40 + i)] w → Counted w := by
  intro hall
  obtain ⟨c, rs, hco, hr, hs, -⟩ := hall ⟨some ⟨some 30, 1⟩, _⟩ ⟨3, rfl⟩
  cases hco
  obtain ⟨x, rfl⟩ := List.length_eq_one_iff.mp (Int.ofNat.inj hs.symm)
  have hr₀ : Repr _ (some 30) ([] ++ x :: []) := hr
  have hx : x.node = 30 := (Option.some.inj hr.front_eq).symm
  have hnode := hr₀.node_at
  rw [hx] at hnode
  -- The loaded node has a successor.
  have hnext := congrArg (Option.map DList.Cell.next) hnode
  cases hnext

end Runs

end AddressBook
end LinuxBase
