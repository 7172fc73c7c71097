import LinuxBase.AddressBook.Entries
import LinuxBase.AddressBook.Simulation

/-!
# Saving and loading records

`save_entry` writes the bytes of the records in the order of the list (`saveLoop_sim`), and the reads
of such a file are the records again (`freads_saved`).

`loadRec` is the loop of `load_entry` on records: it inserts what each `fread` left in `person` until
the end of the file. `loadLoop_sim` says that the loop on the heap does the same if `malloc` returns
blocks that are not in the list (`Supply.Fresh`).
-/

namespace LinuxBase
namespace AddressBook

open CString KeySort

/-! ## Saving -/

/-- The contents of a file with the records `ps`. -/
def saved (ps : List Person) : List Byte := ps.flatMap Block.bytes

@[simp] theorem saved_nil : saved [] = [] := rfl
@[simp] theorem saved_cons (p : Person) (ps : List Person) : saved (p :: ps) = p.bytes ++ saved ps :=
  rfl

theorem saveLoop_sim {h : Heap} {front : Ptr} {rs₁ rs₂ : List Record}
    (hr : Repr h front (rs₁ ++ rs₂)) (fuel : Nat) :
    Run.Sim (rs₂.length < fuel) Eq (saveLoop h fuel (firstNode rs₂))
      (.ret (saved (rs₂.map Record.data))) := by
  obtain ⟨m, ps⟩ := h
  induction rs₂ generalizing rs₁ fuel with
  | nil =>
    cases fuel with
    | zero => exact .inl ⟨rfl, by simp⟩
    | succ fuel => exact .inr (.ret rfl)
  | cons x rs₂ ih =>
    cases fuel with
    | zero => exact .inl ⟨rfl, by simp⟩
    | succ fuel =>
      have hr' : Repr ⟨m, ps⟩ front ((rs₁ ++ [x]) ++ rs₂) := by simpa using hr
      have hx : m x.node = _ := hr.node_at
      have hxp := hr.persons x (by simp)
      simp only [firstNode_cons, saveLoop, Heap.node_mk hx, Heap.person_mk hxp, Run.ret_bind,
        List.map_cons, saved_cons]
      have hrest : Run.Sim ((x :: rs₂).length < fuel + 1) _ _ _ :=
        (ih fuel hr').imp (fun h => Nat.lt_of_succ_lt_succ h) fun _ _ h => h
      exact Run.Sim.bind (g := fun rest => .ret (x.data.bytes ++ rest)) hrest
        fun _ _ e => .inr (.ret (by rw [e]))

theorem saved_drop (ps : List Person) (i : Nat) :
    (saved ps).drop ((personNameLength + personPhoneLength) * i) = saved (ps.drop i) := by
  induction i generalizing ps with
  | zero => rfl
  | succ i ih =>
    cases ps with
    | nil => simp
    | cons p ps =>
      rw [saved_cons, List.drop_succ_cons, ← ih, Nat.mul_succ, Nat.add_comm, ← List.drop_drop,
        List.drop_left' p.size_eq]

/-- The next read of a file of records. -/
theorem fread_saved (ps : List Person) :
    fread (saved ps) = match ps with
      | p :: _ => .item p
      | [] => .eof [] := by
  cases ps with
  | nil => rfl
  | cons p ps =>
    have hlen : personNameLength + personPhoneLength ≤ (saved (p :: ps)).length := by
      rw [saved_cons, List.length_append, p.size_eq]; omega
    unfold fread
    rw [dif_pos hlen]
    simp only [saved_cons, List.take_left' p.size_eq]

theorem freads_saved (ps : List Person) (i : Nat) :
    freads (saved ps) i = match ps.drop i with
      | p :: _ => .item p
      | [] => .eof [] := by
  unfold freads
  rw [saved_drop, fread_saved]

/-! ## Loading -/

/-- `feof` after the read. -/
def Fread.isEof : Fread → Bool
  | .eof _ => true
  | .item _ | .error _ => false

theorem into_isEof {r : Fread} {person : Person} {next : Person × Bool} (h : r.into person = .ret next) :
    next.2 = r.isEof := by
  cases r with
  | item p => cases h; rfl
  | eof part =>
    obtain ⟨p, -, h⟩ := Run.bind_eq_ret.mp h
    cases h; rfl
  | error part =>
    obtain ⟨p, -, h⟩ := Run.bind_eq_ret.mp h
    cases h; rfl

/-- The `while (!feof(fd))` of `load_entry` on records. -/
def loadRec (reads : Nat → Fread) (mem : Supply) :
    Nat → Nat → Person → Bool → List Record → Run (List Record)
  | 0, _, _, _, _ => .more
  | fuel + 1, i, person, eof, rs =>
    if eof then .ret rs
    else do
      let rs ← insertRec ⟨(mem i).1.addr, (mem i).2, person⟩ rs
      let (person, eof) ← (reads (i + 1)).into person
      loadRec reads mem fuel (i + 1) person eof rs

/-- The blocks from the `i`-th on are not in the list, and no two of them are the same. -/
structure Supply.Fresh (mem : Supply) (i : Nat) (rs : List Record) : Prop where
  node : ∀ j, i ≤ j → (mem j).1.addr ∉ rs.map Record.node
  person : ∀ j, i ≤ j → (mem j).2 ∉ rs.map Record.person
  node_inj : ∀ j k, (mem j).1.addr = (mem k).1.addr → j = k
  person_inj : ∀ j k, (mem j).2 = (mem k).2 → j = k

theorem Supply.Fresh.insert {mem : Supply} {i : Nat} {rs rs' : List Record} {p : Person}
    (h : mem.Fresh i rs) (hi : insertRec ⟨(mem i).1.addr, (mem i).2, p⟩ rs = .ret rs') :
    mem.Fresh (i + 1) rs' := by
  refine ⟨fun j hj hm => ?_, fun j hj hm => ?_, h.node_inj, h.person_inj⟩
  · obtain ⟨x, hx, e⟩ := List.mem_map.mp hm
    rcases (mem_of_insertRec hi).mp hx with rfl | hx
    · have := h.node_inj i j e; omega
    · exact h.node j (by omega) (e ▸ List.mem_map_of_mem hx)
  · obtain ⟨x, hx, e⟩ := List.mem_map.mp hm
    rcases (mem_of_insertRec hi).mp hx with rfl | hx
    · have := h.person_inj i j e; omega
    · exact h.person j (by omega) (e ▸ List.mem_map_of_mem hx)

theorem loadLoop_sim {walk : Nat} {reads : Nat → Fread} {mem : Supply} {h : Heap} {front : Ptr}
    {rs : List Record} {i : Nat} {person : Person} {eof : Bool} (hr : Repr h front rs)
    (hf : mem.Fresh i rs) (hn : eof = false → LinksNull rs (mem i).1) (fuel : Nat) :
    Run.Sim (rs.length + fuel ≤ walk)
      (fun out rs' => Repr out.2 out.1 rs' ∧ (Owned h rs → Owned out.2 rs'))
      (loadLoop walk reads mem fuel i person eof front h) (loadRec reads mem fuel i person eof rs) := by
  induction fuel generalizing h front rs i person eof with
  | zero => exact .inr .more
  | succ fuel ih =>
    rw [loadLoop, loadRec]
    cases eof with
    | true => exact .inr (.ret ⟨hr, id⟩)
    | false =>
      have hins := personInsert_sim person hr (hn rfl) (hf.node i (Nat.le_refl i))
        (hf.person i (Nat.le_refl i)) walk
      have hins' : Run.Sim (rs.length + (fuel + 1) ≤ walk) _ _ _ :=
        hins.eq_ret.imp (by omega) fun _ _ h => h
      refine hins'.bind fun out rs' ⟨⟨_, l, hl, hr', ho⟩, hrs'⟩ => ?_
      have hlen : rs'.length = rs.length + 1 := by
        rw [insertRec_ret hrs', List.orderedInsert_length]
      have hne : rs' ≠ [] := by rintro rfl; simp at hlen
      obtain ⟨ret, l', h'⟩ := out
      simp only at hl hr' ho
      subst hl
      refine Run.Sim.bind_same _ fun next _ => ?_
      refine (ih hr' (hf.insert hrs') fun _ hnil => absurd hnil hne).imp (by omega) ?_
      exact fun _ _ ⟨h1, h2⟩ => ⟨h1, fun h => h2 (ho h)⟩

/-- The records that get the blocks from the `i`-th on. -/
def supplied (mem : Supply) : Nat → List Person → List Record
  | _, [] => []
  | i, p :: ps => ⟨(mem i).1.addr, (mem i).2, p⟩ :: supplied mem (i + 1) ps

theorem supplied_data (mem : Supply) (i : Nat) (ps : List Person) :
    (supplied mem i ps).map Record.data = ps := by
  induction ps generalizing i with
  | nil => rfl
  | cons p ps ih => rw [supplied, List.map_cons, ih]

/-- Loading a saved file from its `i`-th record on: the records `qs` are inserted one by one. -/
theorem loadRec_saved {mem : Supply} {ps qs : List Person} {i : Nat} (hqs : ps.drop i = qs)
    {rs : List Record} (hc : Comparable (supplied mem i qs))
    (hrs : ∀ x ∈ rs, ∀ r ∈ supplied mem i qs, r.key = x.key → 0#8 ∈ r.data.bytes)
    {fuel : Nat} (hf : qs.length < fuel) (junk : Person) :
    ((freads (saved ps) i).into junk >>= fun next =>
      loadRec (freads (saved ps)) mem fuel i next.1 next.2 rs) =
      .ret (reinsert Record.key rs (supplied mem i qs)) := by
  rw [freads_saved, hqs]
  induction qs generalizing i rs fuel junk with
  | nil =>
    cases fuel with
    | zero => cases hf
    | succ fuel => simp [Fread.into, Block.write, loadRec, supplied]
  | cons q qs ih =>
    cases fuel with
    | zero => cases hf
    | succ fuel =>
      obtain ⟨hq, hc'⟩ := List.pairwise_cons.mp hc
      have hqs' : ps.drop (i + 1) = qs := by rw [← List.drop_drop, hqs]; rfl
      have hins := insertRec_returns fun x hx => hrs x hx _ List.mem_cons_self
      simp only [Fread.into, Run.ret_bind, loadRec, Bool.false_eq_true, if_false, hins]
      rw [freads_saved, hqs', supplied, reinsert_cons]
      refine ih hqs' hc' (fun x hx r hr he => ?_) (Nat.lt_of_succ_lt_succ hf) q
      rcases (List.mem_orderedInsert _).mp hx with rfl | hx
      · exact mem_zero_of_key_eq he.symm (hq r hr he.symm)
      · exact hrs x hx r (List.mem_cons_of_mem _ hr) he

end AddressBook
end LinuxBase
