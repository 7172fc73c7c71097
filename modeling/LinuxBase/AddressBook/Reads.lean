import LinuxBase.AddressBook.Menu

/-!
# What `load_entry` reads

The `while (!feof(fd))` of `load_entry` passes `person` to `person_insert` after each `fread` that did
not meet the end of the file. A read error is no end of the file: what it left in `person` is inserted
too, and the loop goes on. So `load_entry` ends and inserts the complete records exactly if all reads
are complete up to the end of the file (`loadsExactly_iff`).

`passed` is the loop without the heap: the persons that it passes to `person_insert`. `insertAll` makes
these calls (`loadLoop_eq_insertAll`).
-/

namespace LinuxBase
namespace AddressBook

open CString KeySort

namespace Fread

/-- The record of a complete read. -/
def record? : Fread → Option Person
  | .item p => some p
  | .eof _ | .error _ => none

/-- A read that is not complete gets less than a record. -/
def Short : Fread → Prop
  | .item _ => True
  | .eof part | .error part => part.length < personNameLength + personPhoneLength

end Fread

/-- The persons that the loop of `load_entry` passes to `person_insert`, from the `i`-th on. -/
def passed (reads : Nat → Fread) : Nat → Nat → Person → Bool → Run (List Person)
  | 0, _, _, _ => .more
  | fuel + 1, i, person, eof =>
    if eof then .ret []
    else do
      let (next, eof) ← (reads (i + 1)).into person
      let rest ← passed reads fuel (i + 1) next eof
      .ret (person :: rest)

/-- The persons that `load_entry` passes to `person_insert`. -/
def passedAll (reads : Nat → Fread) (junk : Person) (fuel : Nat) : Run (List Person) := do
  let (person, eof) ← (reads 0).into junk
  passed reads fuel 0 person eof

/-- `person_insert` of each person, in the blocks of `malloc` from the `i`-th on. -/
def insertAll (walk : Nat) (mem : Supply) : Nat → List Person → Ptr → Heap → Run (Ptr × Heap)
  | _, [], front, h => .ret (front, h)
  | i, p :: ps, front, h => do
    let (_, l, h) ← personInsert walk (mem i).1 (mem i).2 (some front) (h.mallocPerson (mem i).2 p)
    insertAll walk mem (i + 1) ps (l.getD front) h

/-- The records of the complete reads among the first `m`, in the order of the file. -/
def records (reads : Nat → Fread) (m : Nat) : List Person :=
  (List.range m).filterMap fun i => (reads i).record?

/-- The `m`-th read is the first that meets the end of the file. -/
def EndsAt (reads : Nat → Fread) (m : Nat) : Prop :=
  (reads m).isEof = true ∧ ∀ i < m, (reads i).isEof = false

/-- `load_entry` ends, and it inserts the records of the complete reads before the end of the file, each
once and in their order. -/
structure LoadsExactly (reads : Nat → Fread) (junk : Person) : Prop where
  passes : ∃ m n, EndsAt reads m ∧ passedAll reads junk n = .ret (records reads m) ∧
    ∀ fuel, n ≤ fuel → ∀ mem c e, loadEntry fuel (some reads) junk mem (some c) e =
      insertAll fuel mem 0 (records reads m) c.front e.heap >>= fun out =>
        .ret (some 0, some { c with front := out.1 }, { e with heap := out.2 }.say "读取成功\n")
  ends : ∀ c e rs mem, Listed ⟨some c, e⟩ c rs → FreshOp ⟨some c, e⟩ (.load true junk mem) →
    (c.front = none → (mem 0).1.prev = none ∧ (mem 0).1.next = none) →
    Terminates fun fuel => loadEntry fuel (some reads) junk mem (some c) e

/-- All reads are complete up to the end of the file. -/
def CompleteToEof (reads : Nat → Fread) : Prop :=
  ∃ m, (reads m).isEof = true ∧ ∀ i < m, ∃ p, reads i = .item p

section Reads

variable {reads : Nat → Fread} {junk person : Person} {eof : Bool} {fuel walk i m : Nat}
  {mem : Supply} {ps : List Person} {front : Ptr} {heap : Heap}

/-! ## The loop -/

/-- The loop passes a person for each read before the end of the file. -/
theorem passed_length (h : passed reads fuel i person eof = .ret ps) (heof : eof = (reads i).isEof) :
    (reads (i + ps.length)).isEof = true ∧ ∀ j < ps.length, (reads (i + j)).isEof = false := by
  induction fuel generalizing i person eof ps with
  | zero => cases h
  | succ fuel ih =>
    cases eof with
    | true => cases h; exact ⟨heof.symm, nofun⟩
    | false =>
      obtain ⟨next, hnext, h⟩ := Run.bind_eq_ret.mp h
      obtain ⟨rest, hrest, h⟩ := Run.bind_eq_ret.mp h
      cases h
      obtain ⟨hend, hbefore⟩ := ih hrest (into_isEof hnext)
      rw [List.length_cons]
      refine ⟨by rwa [Nat.add_comm rest.length, ← Nat.add_assoc], fun j hj => ?_⟩
      cases j with
      | zero => exact heof.symm
      | succ j => rw [Nat.add_comm j, ← Nat.add_assoc]; exact hbefore j (by omega)

theorem into_returns {r : Fread} (hshort : r.Short) (person : Person) :
    ∃ next, r.into person = .ret next := by
  cases r with
  | item p => exact ⟨_, rfl⟩
  | eof part =>
    have hle : 0 + part.length ≤ personNameLength + personPhoneLength := by
      have : part.length < _ := hshort; omega
    exact ⟨_, by rw [Fread.into, Block.write, dif_pos hle]; rfl⟩
  | error part =>
    have hle : 0 + part.length ≤ personNameLength + personPhoneLength := by
      have : part.length < _ := hshort; omega
    exact ⟨_, by rw [Fread.into, Block.write, dif_pos hle]; rfl⟩

/-- On complete reads the loop passes their records. -/
theorem passed_items (hshort : ∀ j, (reads j).Short) (hitems : ∀ j < m, ∃ p, reads (i + j) = .item p)
    (hend : (reads (i + m)).isEof = true) (hfuel : m < fuel) {next : Person × Bool}
    (hnext : (reads i).into person = .ret next) :
    passed reads fuel i next.1 next.2 =
      .ret ((List.range' i m).filterMap fun j => (reads j).record?) := by
  obtain ⟨fuel, rfl⟩ := Nat.exists_eq_add_of_lt hfuel
  clear hfuel
  induction m generalizing i person next with
  | zero =>
    have heof : next.2 = true := (into_isEof hnext).trans hend
    rw [passed, heof]
    rfl
  | succ m ih =>
    obtain ⟨p, hp⟩ := hitems 0 (Nat.succ_pos m)
    rw [Nat.add_zero] at hp
    rw [hp] at hnext
    cases hnext
    obtain ⟨next', hnext'⟩ := into_returns (hshort (i + 1)) p
    have hrest := ih (i := i + 1) (fun j hj => by
      rw [Nat.add_assoc, Nat.add_comm 1]; exact hitems (j + 1) (by omega))
      (by rwa [Nat.add_assoc, Nat.add_comm 1]) hnext'
    rw [show m + 1 + fuel + 1 = (m + fuel + 1) + 1 by omega, passed, List.range'_succ,
      List.filterMap_cons, hp]
    simp only [Bool.false_eq_true, if_false, hnext', Run.ret_bind, hrest, Fread.record?]

/-! ## The calls of `person_insert` -/

theorem loadLoop_eq_insertAll (h : passed reads fuel i person eof = .ret ps) :
    loadLoop walk reads mem fuel i person eof front heap = insertAll walk mem i ps front heap := by
  induction fuel generalizing i person eof ps front heap with
  | zero => cases h
  | succ fuel ih =>
    cases eof with
    | true => cases h; rfl
    | false =>
      obtain ⟨next, hnext, h⟩ := Run.bind_eq_ret.mp h
      obtain ⟨rest, hrest, h⟩ := Run.bind_eq_ret.mp h
      cases h
      simp only [loadLoop, insertAll, Bool.false_eq_true, if_false, hnext, Run.ret_bind]
      congr 1
      funext out
      exact ih hrest

theorem strcmp_ne_more (as bs : List Byte) : strcmp as bs ≠ .more := by
  fun_induction strcmp as bs <;> simp_all

theorem compareLoop_ne_more (as bs : List Byte) : compareLoop as bs ≠ .more := by
  fun_induction compareLoop as bs <;> simp_all

theorem compareName_ne_more (as bs : List Byte) : compareName as bs ≠ .more := by
  refine Run.bind_ne_more (strcmp_ne_more as bs) fun d => ?_
  split
  · exact nofun
  · exact compareLoop_ne_more as bs

theorem insertRec_ne_more (r : Record) (rs : List Record) : insertRec r rs ≠ .more := by
  induction rs with
  | nil => exact nofun
  | cons x rs ih =>
    refine Run.bind_ne_more (compareName_ne_more _ _) fun c => ?_
    split
    · exact nofun
    · exact Run.bind_ne_more ih fun rs' => nofun

/-- A list of contacts is finite, so the calls end. -/
theorem insertAll_ne_more {rs : List Record} (hr : Repr heap front rs) (hf : mem.Fresh i rs)
    (hn : LinksNull rs (mem i).1) (hwalk : rs.length + ps.length ≤ walk) :
    insertAll walk mem i ps front heap ≠ .more := by
  induction ps generalizing i rs front heap with
  | nil => exact nofun
  | cons p ps ih =>
    rw [List.length_cons] at hwalk
    have hsim := personInsert_sim p hr hn (hf.node i (Nat.le_refl i)) (hf.person i (Nat.le_refl i))
      walk
    have hins := (hsim.rel (by omega)).ne_more (insertRec_ne_more _ _)
    refine Run.bind_ne_more_of_ret hins fun out hout => ?_
    obtain ⟨rs', hrec, -, l, hl, hr', -⟩ := hsim.of_eq_ret hout
    have hlen : rs'.length = rs.length + 1 := by
      rw [insertRec_ret hrec, List.orderedInsert_length]
    have hne : rs' ≠ [] := by rintro rfl; simp at hlen
    simp only [hl, Option.getD_some]
    exact ih hr' (hf.insert hrec) (fun hnil => absurd hnil hne) (by omega)

/-! ## `load_entry` -/

/-- `load_entry` is its calls of `person_insert`, with enough fuel for its loop. -/
theorem loadEntry_eq_insertAll (h : passedAll reads junk fuel = .ret ps) (mem : Supply) (c : Contacts)
    (e : Env) : loadEntry fuel (some reads) junk mem (some c) e =
      insertAll fuel mem 0 ps c.front e.heap >>= fun out =>
        .ret (some 0, some { c with front := out.1 }, { e with heap := out.2 }.say "读取成功\n") := by
  obtain ⟨next, hnext, hps⟩ := Run.bind_eq_ret.mp h
  simp only [loadEntry, hnext, Run.ret_bind, loadLoop_eq_insertAll hps]

theorem passedAll_items (hshort : ∀ j, (reads j).Short) (hitems : ∀ j < m, ∃ p, reads j = .item p)
    (hend : (reads m).isEof = true) (hfuel : m < fuel) (junk : Person) :
    passedAll reads junk fuel = .ret (records reads m) := by
  obtain ⟨next, hnext⟩ := into_returns (hshort 0) junk
  rw [passedAll, hnext, Run.ret_bind, records, List.range_eq_range']
  exact passed_items hshort (by simpa using hitems) (by simpa using hend) hfuel hnext

/-- Two ends of a file are the same one. -/
theorem EndsAt.unique {m' : Nat} (h : EndsAt reads m) (h' : EndsAt reads m') : m = m' := by
  rcases Nat.lt_trichotomy m m' with hlt | heq | hgt
  · cases h.1.symm.trans (h'.2 m hlt)
  · exact heq
  · cases h'.1.symm.trans (h.2 m' hgt)

theorem item_of_record? {r : Fread} (h : r.record?.isSome = true) : ∃ p, r = .item p := by
  cases r with
  | item p => exact ⟨p, rfl⟩
  | eof => cases h
  | error => cases h

/-- One person for each read before the end of the file: all these reads were complete. -/
theorem LoadsExactly.completeToEof (h : LoadsExactly reads junk) : CompleteToEof reads := by
  obtain ⟨⟨m, n, hends, hpassed, -⟩, -⟩ := h
  obtain ⟨next, hnext, hps⟩ := Run.bind_eq_ret.mp hpassed
  obtain ⟨hend, hbefore⟩ := passed_length hps (into_isEof hnext)
  rw [Nat.zero_add] at hend
  have hlen : (records reads m).length = m :=
    EndsAt.unique ⟨hend, fun i hi => by simpa using hbefore i hi⟩ hends
  refine ⟨m, hends.1, fun i hi => item_of_record? ?_⟩
  have hall := List.filterMap_length_eq_length.mp (hlen.trans List.length_range.symm)
  exact hall i (List.mem_range.mpr hi)

/-- **The records of `load_entry`.** For every sequence of reads, it ends and inserts the complete
records before the end of the file exactly if there is an end, and all reads before it are complete. -/
theorem loadsExactly_iff (hshort : ∀ i, (reads i).Short) (junk : Person) :
    LoadsExactly reads junk ↔ CompleteToEof reads := by
  refine ⟨LoadsExactly.completeToEof, ?_⟩
  rintro ⟨m, hend, hitems⟩
  have hpassed : ∀ fuel, m < fuel → passedAll reads junk fuel = .ret (records reads m) := fun fuel hm =>
    passedAll_items hshort hitems hend hm junk
  refine ⟨⟨m, m + 1, ⟨hend, fun i hi => ?_⟩, hpassed _ (Nat.lt_succ_self m),
    fun fuel hm mem c e => loadEntry_eq_insertAll (hpassed fuel hm) mem c e⟩,
    fun c e rs mem hl hf hn => ?_⟩
  · obtain ⟨p, hp⟩ := hitems i hi
    rw [hp]; rfl
  · have hlen : (records reads m).length ≤ m :=
      (List.length_filterMap_le _ _).trans_eq List.length_range
    have hfuel : m < rs.length + m + 1 := by omega
    refine ⟨rs.length + m + 1, ?_⟩
    simp only
    rw [loadEntry_eq_insertAll (hpassed _ hfuel)]
    refine Run.bind_ne_more ?_ fun _ => nofun
    have hnull : LinksNull rs (mem 0).1 := fun hrs => hn (by rw [hl.repr.front_eq, hrs]; rfl)
    exact insertAll_ne_more hl.repr (hl.fresh_load hf) hnull (by omega)

/-- Without read errors, the reads of every file are complete up to its end. -/
theorem completeToEof_freads (bytes : List Byte) : CompleteToEof (freads bytes) := by
  have hread : ∀ i, freads bytes i = fread (bytes.drop (27 * i)) := fun _ => rfl
  have hsize : personNameLength + personPhoneLength = 27 := rfl
  refine ⟨bytes.length / 27, ?_, fun i hi => ?_⟩
  · have hend : ¬ personNameLength + personPhoneLength ≤
        (bytes.drop (27 * (bytes.length / 27))).length := by
      rw [hsize, List.length_drop]; omega
    rw [hread, fread, dif_neg hend]
    rfl
  · have hroom : personNameLength + personPhoneLength ≤ (bytes.drop (27 * i)).length := by
      rw [hsize, List.length_drop]; omega
    rw [hread, fread, dif_pos hroom]
    exact ⟨_, rfl⟩

/-- One record, and the end of the file behind three octets. -/
theorem loadsExactly_iff_sample :
    LoadsExactly (fun i => if i = 0 then .item blank else .eof [97, 98, 99]) blank := by
  have hshort : ∀ i, Fread.Short (if i = 0 then .item blank else .eof [97, 98, 99]) := by
    intro i
    split
    · exact trivial
    · exact Nat.lt_of_sub_eq_succ rfl
  refine (loadsExactly_iff hshort blank).mpr ⟨1, rfl, fun i hi => ⟨blank, if_pos ?_⟩⟩
  omega

/-- A read error in front of the end of the file: what was in `person` is inserted, which no read
got. If the error stays, the loop does not end. -/
theorem error_inserted :
    let reads : Nat → Fread := fun i => if i = 0 then .error [] else .eof []
    passedAll reads blank 2 = .ret [blank] ∧ records reads 1 = [] ∧ ¬ LoadsExactly reads blank ∧
      ¬ LoadsExactly (fun _ => .error []) blank := by
  refine ⟨rfl, rfl, fun h => ?_, fun h => ?_⟩
  · obtain ⟨m, hend, hitems⟩ := h.completeToEof
    cases m with
    | zero => cases hend
    | succ m =>
      obtain ⟨p, hp⟩ := hitems 0 (Nat.succ_pos m)
      cases hp
  · obtain ⟨m, hend, -⟩ := h.completeToEof
    cases hend

end Reads

end AddressBook
end LinuxBase
