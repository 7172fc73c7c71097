import LinuxBase.AddressBook.Menu

/-!
# Names and phones inside their fields

`insert_entry` reads a name and a phone with `scanf("%s")`, which does not know the size of a field,
and `load_entry` copies the octets of a file. All functions that read a person rely on a NUL in each of
the two fields.

There is one in both fields of all persons, in all states of a run, if the words are shorter than
their fields, the file has a NUL in both fields of its records, and so has the memory that keeps its
old contents where the input ends (`fields_inside`). A phone number of 11 digits is too long.
-/

namespace LinuxBase
namespace AddressBook

open CString

/-- The name and the phone end inside their fields. -/
structure Person.FieldsEnd (p : Person) : Prop where
  name : 0#8 ∈ p.name
  phone : 0#8 ∈ p.phone

/-- All persons end inside their fields, and the functions that read them need no more than the
fields. -/
structure World.FieldsInside (w : World) : Prop where
  ends : ∀ a p, w.env.heap.persons a = some p → p.FieldsEnd
  printf : ∀ a p, w.env.heap.persons a = some p →
    (∃ s, readString p.bytes = .ret s ∧ readString p.name = .ret s) ∧ ∃ s, readString p.phone = .ret s
  strcmp : ∀ a p, w.env.heap.persons a = some p → ∀ name, strcmp name p.bytes = strcmp name p.name
  compareName : ∀ a p b q, w.env.heap.persons a = some p → w.env.heap.persons b = some q →
    compareName p.bytes q.bytes = compareName p.name q.name

/-- The words that an operation reads, with the sizes of their fields. -/
def Operator.words (w : World) : Operator → List (Nat × Token)
  | .insert _ _ _ name phone =>
    name.toList.map (personNameLength, ·) ++ phone.toList.map (personPhoneLength, ·)
  | .delete _ name =>
    if w.contacts.any fun c => c.size = 0 then [] else name.toList.map (personNameLength, ·)
  | .search _ name => name.toList.map (personNameLength, ·)
  | .print | .save _ | .load .. => []

/-- The words that an operation reads are shorter than their fields. -/
def ShortWords (w : World) (op : Operator) : Prop := ∀ x ∈ op.words w, x.2.length + 1 ≤ x.1

/-- `scanf("%s")` for the field of `size` octets at `off` stores nothing outside of the field, whatever
the block has. -/
def StoresInField (n off size : Nat) (word : Option Token) : Prop :=
  ∀ b : Block n, ∃ b', scanf b off word = .ret b' ∧ b'.bytes.take off = b.bytes.take off ∧
    b'.bytes.drop (off + size) = b.bytes.drop (off + size)

/-- No word that an operation reads is stored outside of its field. -/
def StoredInside (w : World) : Operator → Prop
  | .insert _ _ _ name phone =>
    StoresInField (personNameLength + personPhoneLength) 0 personNameLength name ∧
      StoresInField (personNameLength + personPhoneLength) personNameLength personPhoneLength phone
  | .delete _ name =>
    ¬ (w.contacts.any fun c => c.size = 0) → StoresInField personNameLength 0 personNameLength name
  | .search _ name => StoresInField personNameLength 0 personNameLength name
  | .print | .save _ | .load .. => True

/-- What is in a person without a word has a NUL. -/
def EndsWithoutWord (w : World) : Operator → Prop
  | .insert _ _ junk name phone =>
    (name = none → 0#8 ∈ junk.name) ∧ (phone = none → 0#8 ∈ junk.phone)
  | .load opens _ _ =>
    opens = true → ∀ bytes, w.env.file = some bytes → ∀ i p, freads bytes i = .item p → p.FieldsEnd
  | .print | .delete .. | .search .. | .save _ => True

section Fields

variable {p q : Person} {w w' : World} {op : Operator}

/-! ## What reads a person -/

theorem Person.name_append_phone (p : Person) : p.bytes = p.name ++ p.phone :=
  (List.take_append_drop _ _).symm

/-- The loop of `compare_name` on different names ends at the first NUL at the latest. -/
theorem compareLoop_append {as bs : List Byte} (ha : 0#8 ∈ as) (hb : 0#8 ∈ bs)
    (hne : cstr as ≠ cstr bs) (xs ys : List Byte) :
    compareLoop (as ++ xs) (bs ++ ys) = compareLoop as bs := by
  induction as generalizing bs with
  | nil => cases ha
  | cons a as ih =>
    cases bs with
    | nil => cases hb
    | cons b bs =>
      rw [List.cons_append, List.cons_append, compareLoop, compareLoop]
      by_cases hab : a = b
      · subst hab
        have hzero : a ≠ 0#8 := by
          rintro rfl
          rw [cstr_zero, cstr_zero] at hne
          exact hne rfl
        rw [cstr_cons_of_ne hzero, cstr_cons_of_ne hzero] at hne
        rw [ih (by simpa [Ne.symm hzero] using ha) (by simpa [Ne.symm hzero] using hb)
          fun h => hne (by rw [h])]
      · have hval : a.toInt ≠ b.toInt := fun h => hab (BitVec.eq_of_toInt_eq h)
        rcases lt_or_gt_of_ne hval with hlt | hgt
        · rw [if_pos hlt, if_pos hlt]
        · have hlt : ¬ a.toInt < b.toInt := by omega
          rw [if_neg hlt, if_neg hlt, if_pos hgt, if_pos hgt]

theorem Person.FieldsEnd.compareName (hp : p.FieldsEnd) (hq : q.FieldsEnd) :
    compareName p.bytes q.bytes = compareName p.name q.name := by
  rw [p.name_append_phone, q.name_append_phone]
  unfold AddressBook.compareName
  rw [strcmp_append_left hp.name, strcmp_append_right hq.name]
  cases hd : strcmp p.name q.name with
  | fault => rfl
  | more => rfl
  | ret d =>
    simp only [Run.ret_bind]
    by_cases h0 : d = 0
    · rw [if_pos h0, if_pos h0]
    · rw [if_neg h0, if_neg h0]
      exact compareLoop_append hp.name hq.name (fun h => h0 ((strcmp_ret hd).mpr h)) _ _

theorem readString_returns {bs : List Byte} (h : 0#8 ∈ bs) : readString bs = .ret (cstr bs) :=
  if_pos h

/-- What reads persons that end inside their fields needs no more. -/
theorem World.FieldsInside.of_ends
    (h : ∀ a p, w.env.heap.persons a = some p → p.FieldsEnd) : w.FieldsInside where
  ends := h
  printf a p hp := by
    have hname : readString p.bytes = readString p.name := by
      rw [p.name_append_phone]
      exact readString_append (h a p hp).name _
    exact ⟨⟨_, hname.trans (readString_returns (h a p hp).name), readString_returns (h a p hp).name⟩,
      _, readString_returns (h a p hp).phone⟩
  strcmp a p hp name := by
    rw [p.name_append_phone]
    exact strcmp_append_right (h a p hp).name name _
  compareName a p b q hp hq := (h a p hp).compareName (h b q hq)

/-! ## What stores a person -/

theorem scanf_some {n : Nat} {b b' : Block n} {off : Nat} {word : Token}
    (h : scanf b off (some word) = .ret b') :
    b'.bytes = b.bytes.take off ++ (word ++ [0#8] ++ b.bytes.drop (off + (word.length + 1))) := by
  simp only [scanf, Block.write] at h
  split at h
  · cases h
    simp
  · cases h

/-- A word that is shorter than its field. -/
theorem storesInField_of_fits {n off size : Nat} {word : Option Token} (hroom : off + size ≤ n)
    (hfits : ∀ t ∈ word, t.length + 1 ≤ size) : StoresInField n off size word := by
  intro b
  cases word with
  | none => exact ⟨b, rfl, rfl, rfl⟩
  | some t =>
    have ht := hfits t rfl
    have hlen : off + (t ++ [0#8]).length ≤ n := by
      rw [List.length_append, List.length_singleton]
      omega
    have hoff : (b.bytes.take off).length = off := by
      rw [List.length_take, b.size_eq]
      omega
    have hword : (b.bytes.take off ++ (t ++ [0#8])).length ≤ off + size := by
      simp only [List.length_append, List.length_singleton, hoff]
      omega
    refine ⟨_, dif_pos hlen, List.take_left' hoff, ?_⟩
    show (b.bytes.take off ++ (t ++ [0#8] ++ b.bytes.drop (off + (t ++ [0#8]).length))).drop
      (off + size) = b.bytes.drop (off + size)
    rw [← List.append_assoc, List.drop_append, List.drop_of_length_le hword, List.nil_append,
      List.drop_drop]
    congr 1
    simp only [List.length_append, hoff] at hword ⊢
    omega

/-- Short words stay inside their fields. -/
theorem storedInside_of_shortWords (h : ShortWords w op) : StoredInside w op := by
  cases op with
  | insert a addr junk name phone =>
    refine ⟨storesInField_of_fits (by decide) fun t ht => ?_,
      storesInField_of_fits (by decide) fun t ht => ?_⟩
    · exact h (personNameLength, t) (by simpa [Operator.words] using .inl ht)
    · exact h (personPhoneLength, t) (by simpa [Operator.words] using .inr ht)
  | delete junk name =>
    intro hsize
    refine storesInField_of_fits (by decide) fun t ht => ?_
    exact h (personNameLength, t) (by rw [Operator.words, if_neg hsize]; simpa using ht)
  | search junk name =>
    refine storesInField_of_fits (by decide) fun t ht => ?_
    exact h (personNameLength, t) (by simpa [Operator.words] using ht)
  | print | save | load => trivial

/-- A word that fits into the name is stored there. -/
theorem scanf_name {word : Option Token} (h : scanf p 0 word = .ret q)
    (hfits : ∀ t ∈ word, t.length + 1 ≤ personNameLength) (hnone : word = none → 0#8 ∈ p.name) :
    0#8 ∈ q.name ∧ q.phone = p.phone := by
  cases word with
  | none =>
    cases h
    exact ⟨hnone rfl, rfl⟩
  | some t =>
    have hq := scanf_some h
    have ht : (t ++ [0#8]).length ≤ personNameLength := by simpa using hfits t rfl
    rw [List.take_zero, List.nil_append, Nat.zero_add] at hq
    refine ⟨?_, ?_⟩
    · rw [Person.name, hq, List.take_append, List.take_of_length_le ht]
      simp
    · rw [Person.phone, Person.phone, hq, List.drop_append, List.drop_of_length_le ht, List.nil_append,
        List.drop_drop]
      congr 1
      simp only [List.length_append, List.length_singleton] at ht ⊢
      omega

/-- A word that fits into the phone is stored there. -/
theorem scanf_phone {word : Option Token} (h : scanf p personNameLength word = .ret q)
    (hfits : ∀ t ∈ word, t.length + 1 ≤ personPhoneLength) (hnone : word = none → 0#8 ∈ p.phone) :
    0#8 ∈ q.phone ∧ q.name = p.name := by
  cases word with
  | none =>
    cases h
    exact ⟨hnone rfl, rfl⟩
  | some t =>
    have hq := scanf_some h
    have hname : (p.bytes.take personNameLength).length = personNameLength := by
      rw [List.length_take, p.size_eq]; rfl
    refine ⟨?_, ?_⟩
    · rw [Person.phone, hq, List.drop_left' hname]
      simp
    · rw [Person.name, hq, List.take_left' hname, Person.name]

/-! ## The persons of the heap -/

section Persons

variable {h : Heap}

theorem setNext_post (a : Addr) (q : Ptr) :
    (h.setNext a q).Post fun h' => h'.persons = h.persons :=
  Run.Post.after fun _ => .ret rfl

theorem setPrev_post (a : Addr) (q : Ptr) :
    (h.setPrev a q).Post fun h' => h'.persons = h.persons :=
  Run.Post.after fun _ => .ret rfl

theorem linkNext_post (p q : Ptr) : (h.linkNext p q).Post fun h' => h'.persons = h.persons := by
  cases p with
  | none => exact .ret rfl
  | some a => exact setNext_post a q

theorem linkPrev_post (q p : Ptr) : (h.linkPrev q p).Post fun h' => h'.persons = h.persons := by
  cases q with
  | none => exact .ret rfl
  | some a => exact setPrev_post a p

theorem freePerson_post (a : Addr) :
    (h.freePerson a).Post fun h' => ∀ b p, h'.persons b = some p → h.persons b = some p := by
  refine .after fun _ => .ret fun b p hp => ?_
  by_cases hb : b = a
  · subst hb
    simp at hp
  · simpa only [Function.update_of_ne hb] using hp

theorem freeNode_post (a : Addr) : (h.freeNode a).Post fun h' => h'.persons = h.persons :=
  Run.Post.after fun _ => .ret rfl

/-- An insertion changes no person. -/
theorem insertLoop_post (item : Addr) (name : List Byte) (list : Ptr) (fuel : Nat) (node : Ptr) :
    (insertLoop item name list h fuel node).Post fun out => out.2.persons = h.persons := by
  induction fuel generalizing node with
  | zero => exact .more _
  | succ fuel ih =>
    cases node with
    | none => exact .ret rfl
    | some node =>
      refine .after fun n => .after fun list_name => .after fun c => ?_
      by_cases hc : c = -1 ∨ c = 0
      · rw [if_pos hc]
        refine (setNext_post _ _).bind fun h₁ e₁ => .after fun n => ?_
        refine (setPrev_post _ _).bind fun h₂ e₂ => .after fun n => ?_
        cases n.prev with
        | none => exact (setPrev_post _ _).bind fun h₃ e₃ => .ret (e₃.trans (e₂.trans e₁))
        | some p =>
          refine (setNext_post _ _).bind fun h₃ e₃ => (setPrev_post _ _).bind fun h₄ e₄ => .ret ?_
          exact e₄.trans (e₃.trans (e₂.trans e₁))
      · rw [if_neg hc]
        split
        · refine (setNext_post _ _).bind fun h₁ e₁ => (setPrev_post _ _).bind fun h₂ e₂ => ?_
          exact (setNext_post _ _).bind fun h₃ e₃ => .ret (e₃.trans (e₂.trans e₁))
        · exact ih _

theorem personInsert_post (fuel : Nat) (a : Alloc) (person : Addr) (list : Ptr) :
    (personInsert fuel a person (some list) h).Post fun out => out.2.2.persons = h.persons := by
  refine Run.Post.bind (P := fun out => out.2.persons = h.persons) ?_ fun out e => .ret e
  unfold listInsertFront
  cases list with
  | none => exact .ret rfl
  | some node => exact .after fun it => .after fun person => insertLoop_post _ _ _ _ _

/-- A deletion only takes a person away. -/
theorem personDelete_post (fuel : Nat) (name : List Byte) (list : Ptr) :
    (personDelete fuel name (some list) h).Post fun out =>
      ∀ a p, out.2.2.persons a = some p → h.persons a = some p := by
  refine .after fun node => ?_
  cases node with
  | none => exact .ret fun a p hp => hp
  | some item =>
    refine Run.Post.bind (P := fun out => ∀ a p, out.2.persons a = some p → h.persons a = some p) ?_
      fun out ho => .ret ho
    refine .after fun it => (linkNext_post _ _).bind fun h₁ e₁ => .after fun it => ?_
    refine (linkPrev_post _ _).bind fun h₂ e₂ => .after fun it => ?_
    refine (setNext_post _ _).bind fun h₃ e₃ => (setPrev_post _ _).bind fun h₄ e₄ => ?_
    have hsame : h₄.persons = h.persons := e₄.trans (e₃.trans (e₂.trans e₁))
    refine (freePerson_post _).bind fun h₅ h5 => (freeNode_post _).bind fun h₆ e₆ => ?_
    exact .ret fun a p hp => hsame ▸ h5 a p (e₆ ▸ hp)

end Persons

/-! ## The operations -/

/-- All persons end inside their fields. -/
def AllEnd (h : Heap) : Prop := ∀ a p, h.persons a = some p → p.FieldsEnd

section Operations

variable {fuel : Nat} {e : Env} {c : Contacts}

theorem AllEnd.mallocPerson {h : Heap} (hh : AllEnd h) (addr : Addr) (hp : p.FieldsEnd) :
    AllEnd (h.mallocPerson addr p) := by
  intro b q hq
  change Function.update h.persons addr (some p) b = some q at hq
  by_cases hb : b = addr
  · rw [hb, Function.update_self, Option.some.injEq] at hq
    exact hq ▸ hp
  · rw [Function.update_of_ne hb] at hq
    exact hh b q hq

/-- `person_insert` of a person that ends inside its fields. -/
theorem AllEnd.personInsert {h : Heap} (hh : AllEnd h) (a : Alloc) (addr : Addr) (front : Ptr)
    (hp : p.FieldsEnd) :
    (personInsert fuel a addr (some front) (h.mallocPerson addr p)).Post fun out =>
      AllEnd out.2.2 := by
  intro out hout b q hq
  rw [personInsert_post fuel a addr front out hout] at hq
  exact hh.mallocPerson addr hp b q hq

theorem insertEntry_allEnd {a : Alloc} {addr : Addr} {junk : Person} {name phone : Option Token}
    (h : AllEnd e.heap) (hs : ShortWords ⟨some c, e⟩ (.insert a addr junk name phone))
    (hn : (name = none → 0#8 ∈ junk.name) ∧ (phone = none → 0#8 ∈ junk.phone)) :
    (insertEntry fuel a addr junk name phone (some c) e).Post fun res => AllEnd res.2.2.heap := by
  intro res hres
  obtain ⟨p₁, h1, hres⟩ := Run.bind_eq_ret.mp hres
  obtain ⟨p₂, h2, hres⟩ := Run.bind_eq_ret.mp hres
  obtain ⟨⟨ret, front, h'⟩, hins, hres⟩ := Run.bind_eq_ret.mp hres
  obtain ⟨hname, hphone⟩ := scanf_name h1 (fun t ht => hs (personNameLength, t) (by
    simpa [Operator.words] using .inl ht)) hn.1
  obtain ⟨hphone', hname'⟩ := scanf_phone h2 (fun t ht => hs (personPhoneLength, t) (by
    simpa [Operator.words] using .inr ht)) (by rw [hphone]; exact hn.2)
  have hp : Person.FieldsEnd p₂ := ⟨hname' ▸ hname, hphone'⟩
  have hall : AllEnd h' := h.personInsert a addr c.front hp _ hins
  simp only at hres
  split at hres
  · obtain ⟨size, -, hres⟩ := Run.bind_eq_ret.mp hres
    cases hres
    exact hall
  · obtain ⟨h₂, hfree, hres⟩ := Run.bind_eq_ret.mp hres
    cases hres
    exact fun b q hq => hall b q (freePerson_post addr _ hfree b q hq)

theorem deleteEntry_allEnd {junk : Block personNameLength} {name : Option Token}
    (h : AllEnd e.heap) :
    (deleteEntry fuel junk name (some c) e).Post fun res => AllEnd res.2.2.heap := by
  unfold deleteEntry
  simp only
  by_cases h0 : c.size = 0
  · rw [if_pos h0]
    exact .ret h
  · rw [if_neg h0]
    refine .after fun name => (personDelete_post fuel name.bytes c.front).bind fun out hout => ?_
    have hall : AllEnd out.2.2 := fun a p hp => h a p (hout a p hp)
    split
    · exact .after fun size => .ret hall
    · exact .ret hall

/-- A read of a file without errors is complete, or it meets the end of the file. -/
theorem freads_cases (bytes : List Byte) (i : Nat) :
    (∃ p, freads bytes i = .item p) ∨ ∃ part, freads bytes i = .eof part := by
  unfold freads fread
  split
  · exact .inl ⟨_, rfl⟩
  · exact .inr ⟨_, rfl⟩

theorem into_post {bytes : List Byte} (hrecords : ∀ i p, freads bytes i = .item p → p.FieldsEnd)
    (i : Nat) (person : Person) :
    ((freads bytes i).into person).Post fun next => next.2 = false → next.1.FieldsEnd := by
  rcases freads_cases bytes i with ⟨p, hp⟩ | ⟨part, hpart⟩
  · rw [hp]
    exact .ret fun _ => hrecords i p hp
  · rw [hpart]
    exact .after fun _ => .ret nofun

theorem loadLoop_allEnd {bytes : List Byte} {mem : Supply} {h : Heap} {walk i : Nat}
    {person : Person} {eof : Bool} {front : Ptr} (hh : AllEnd h)
    (hrecords : ∀ i p, freads bytes i = .item p → p.FieldsEnd)
    (hp : eof = false → person.FieldsEnd) :
    (loadLoop walk (freads bytes) mem fuel i person eof front h).Post fun out => AllEnd out.2 := by
  induction fuel generalizing i person eof front h with
  | zero => exact .more _
  | succ fuel ih =>
    cases eof with
    | true => exact .ret hh
    | false =>
      refine (hh.personInsert _ _ _ (hp rfl)).bind fun out hout => ?_
      exact (into_post hrecords (i + 1) person).bind fun next hnext => ih hout hnext

theorem loadEntry_allEnd {bytes : List Byte} {junk : Person} {mem : Supply} (h : AllEnd e.heap)
    (hrecords : ∀ i p, freads bytes i = .item p → p.FieldsEnd) :
    (loadEntry fuel (some (freads bytes)) junk mem (some c) e).Post fun res =>
      AllEnd res.2.2.heap := by
  refine (into_post hrecords 0 junk).bind fun next hnext => ?_
  exact (loadLoop_allEnd h hrecords hnext).bind fun out hout => .ret hout

/-- An operation that changes no block. -/
theorem allEnd_of_heap_eq {x : Run Result} (h : AllEnd e.heap)
    (hx : x.Post fun res => res.2.2.heap = e.heap) : x.Post fun res => AllEnd res.2.2.heap := by
  intro res hres
  rw [hx res hres]
  exact h

theorem entry_allEnd {contacts : Option Contacts} (h : AllEnd e.heap)
    (hs : ShortWords ⟨contacts, e⟩ op) (hn : EndsWithoutWord ⟨contacts, e⟩ op) :
    (entry fuel op contacts e).Post fun res => AllEnd res.2.2.heap := by
  cases contacts with
  | none => cases op <;> exact .ret h
  | some c =>
    cases op with
    | insert a addr junk name phone => exact insertEntry_allEnd h hs hn
    | print =>
      exact allEnd_of_heap_eq h (Run.Post.bind (fun out hout => personTraverse_heap hout)
        fun out hout => .ret hout)
    | delete junk name => exact deleteEntry_allEnd h
    | search junk name =>
      refine allEnd_of_heap_eq h (.after fun name => .after fun p => ?_)
      cases p with
      | none => exact .ret rfl
      | some p =>
        exact .after fun person => Run.Post.bind (fun e' he' => logPerson_heap he')
          fun e' he' => .ret he'
    | save opens =>
      refine allEnd_of_heap_eq h ?_
      simp only [entry, saveEntry]
      split
      · exact .ret rfl
      · split
        · exact .ret rfl
        · exact .after fun bytes => .ret rfl
    | load opens junk mem =>
      simp only [entry]
      cases hfd : (if opens then e.file.map freads else none) with
      | none => exact .ret h
      | some reads =>
        cases opens with
        | false => cases hfd
        | true =>
          obtain ⟨bytes, hfile, rfl⟩ := Option.map_eq_some_iff.mp hfd
          exact loadEntry_allEnd h (hn rfl bytes hfile)

theorem select_allEnd (h : AllEnd w.env.heap) (hs : ShortWords w op) (hn : EndsWithoutWord w op)
    (hw : select fuel op w = .ret w') : AllEnd w'.env.heap := by
  obtain ⟨res, hres, hw⟩ := Run.bind_eq_ret.mp hw
  cases hw
  exact entry_allEnd h hs hn res hres

end Operations

/-! ## Runs -/

/-- All persons are inside their fields in all states of a run, and so is each word that was stored. -/
def KeepsFields (fuel : Nat) (file : Option (List Byte)) (ops : List Operator) : Prop :=
  (∀ w, Visits (select fuel) { env := { file := file } } ops w → w.FieldsInside) ∧
    Along (select fuel) StoredInside { env := { file := file } } ops

/-- **Field termination.** A run keeps the fields if its words are shorter than their fields, and what
is in a person without a word has a NUL in both fields. -/
theorem fields_inside {fuel : Nat} {file : Option (List Byte)} {ops : List Operator}
    (hs : Along (select fuel) ShortWords { env := { file := file } } ops)
    (hn : Along (select fuel) EndsWithoutWord { env := { file := file } } ops) :
    KeepsFields fuel file ops := by
  refine ⟨fun w hw => .of_ends ?_, hs.imp fun w op => storedInside_of_shortWords⟩
  have hstart : AllEnd ({ env := { file := file } } : World).env.heap := nofun
  exact visits_invariant (I := fun w => AllEnd w.env.heap)
    (fun w op w' h ⟨hs, hn⟩ hw => select_allEnd h hs hn hw) hstart (hs.and hn) hw

/-- A person with the name and the phone, in new memory without a NUL. -/
def adds (name phone : Token) : Operator := .insert ⟨10, none, none⟩ 20 blank (some name) (some phone)

/-- `a` with a phone of 10 digits is added, and looked up. -/
theorem fields_inside_sample :
    KeepsFields 2 none [adds [97] (List.replicate 10 49),
      .search ⟨List.replicate 16 0, rfl⟩ (some [97])] := by
  refine fields_inside ?_ ?_
  · refine ⟨?_, ?_, trivial⟩
    · simp [ShortWords, Operator.words, adds, personNameLength, personPhoneLength]
    · simp [ShortWords, Operator.words, personNameLength]
  · exact ⟨⟨nofun, nofun⟩, trivial, trivial⟩

/-- The NUL behind a phone of 11 digits is stored behind the person. A name of 16 octets is stored,
but there is no NUL in it. -/
theorem words_outside :
    select 1 (adds [97] (List.replicate 11 49)) {} = .fault ∧
      ¬ KeepsFields 1 none [adds [97] (List.replicate 11 49)] ∧
      ∃ w p, Visits (select 1) {} [adds (List.replicate 16 97) [49]] w ∧
        w.env.heap.persons 20 = some p ∧ 0#8 ∉ p.name := by
  refine ⟨rfl, fun ⟨_, hs⟩ => ?_, ⟨_, ⟨List.replicate 16 97 ++ [49, 0] ++ List.replicate 9 0xff#8, rfl⟩,
    ⟨1, rfl⟩, rfl, by decide⟩⟩
  obtain ⟨p, hp, -⟩ := (along_cons.mp hs).1.2 blank
  cases hp

end Fields

end AddressBook
end LinuxBase
