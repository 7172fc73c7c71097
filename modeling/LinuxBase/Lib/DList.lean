import Mathlib.Data.List.Nodup
import Mathlib.Logic.Function.Basic

/-!
# Doubly linked lists

Cells with a `prev` and a `next` pointer in a memory `Mem α β` (a partial map from addresses), for
any type `α` of addresses and any payload `β`.

* `Seg m p l q`: the cells `l`, in order, are linked in `m`; the first has `p` before it and the
  last `q` after it. `seg_append` splits a segment, `Seg.congr` is its frame rule.
* `IsList m hd l`: `hd` is the head of a list with exactly the cells `l`, each at its own address.
* `splice m a p q` puts the cell `a` between the neighbours `p` and `q`, and `unsplice m p q` joins
  the neighbours of a cell that leaves. A null neighbour has no pointer to change.
  `IsList.splice` and `IsList.unsplice` are their effects on the list.
-/

namespace LinuxBase
namespace DList

structure Cell (α β : Type) where
  prev : Option α
  next : Option α
  val : β
  deriving DecidableEq, Repr

/-- A partial map from addresses to cells; `none` is a dead address. -/
abbrev Mem (α β : Type) := α → Option (Cell α β)

variable {α β : Type}

/-- The address of the first cell of `l`, or `q` after an empty `l`. -/
def first : List (α × β) → Option α → Option α
  | [], q => q
  | (a, _) :: _, _ => some a

/-- The address of the last cell of `l`, or `p` before an empty `l`. -/
def last : Option α → List (α × β) → Option α
  | p, [] => p
  | _, (a, _) :: l => last (some a) l

/-- The linked cells `l` between `p` and `q` (module doc). -/
def Seg (m : Mem α β) : Option α → List (α × β) → Option α → Prop
  | _, [], _ => True
  | p, (a, v) :: l, q => m a = some ⟨p, first l q, v⟩ ∧ Seg m (some a) l q

@[simp] theorem first_nil (q : Option α) : first ([] : List (α × β)) q = q := rfl
@[simp] theorem first_cons (x : α × β) (l : List (α × β)) (q : Option α) :
    first (x :: l) q = some x.1 := rfl
@[simp] theorem last_nil (p : Option α) : last p ([] : List (α × β)) = p := rfl
@[simp] theorem last_cons (p : Option α) (x : α × β) (l : List (α × β)) :
    last p (x :: l) = last (some x.1) l := rfl
@[simp] theorem seg_nil (m : Mem α β) (p q : Option α) : Seg m p [] q := trivial

theorem seg_cons {m : Mem α β} {p q : Option α} {x : α × β} {l : List (α × β)} :
    Seg m p (x :: l) q ↔ m x.1 = some ⟨p, first l q, x.2⟩ ∧ Seg m (some x.1) l q := Iff.rfl

theorem first_append (l₁ l₂ : List (α × β)) (q : Option α) :
    first (l₁ ++ l₂) q = first l₁ (first l₂ q) := by
  cases l₁ <;> rfl

@[simp] theorem last_append (p : Option α) (l₁ l₂ : List (α × β)) :
    last p (l₁ ++ l₂) = last (last p l₁) l₂ := by
  induction l₁ generalizing p with
  | nil => rfl
  | cons x l₁ ih => exact ih _

theorem seg_append {m : Mem α β} {p q : Option α} {l₁ l₂ : List (α × β)} :
    Seg m p (l₁ ++ l₂) q ↔ Seg m p l₁ (first l₂ q) ∧ Seg m (last p l₁) l₂ q := by
  induction l₁ generalizing p with
  | nil => simp
  | cons x l₁ ih =>
    rw [List.cons_append, seg_cons, seg_cons, first_append, ih, and_assoc]
    rfl

/-- The frame rule: a segment reads only its own cells. -/
theorem Seg.congr {m m' : Mem α β} {p q : Option α} {l : List (α × β)}
    (hm : ∀ x ∈ l, m' x.1 = m x.1) (h : Seg m p l q) : Seg m' p l q := by
  induction l generalizing p with
  | nil => trivial
  | cons x l ih =>
    obtain ⟨h1, h2⟩ := List.forall_mem_cons.mp hm
    exact ⟨h1.trans h.1, ih h2 h.2⟩

/-- Each cell of a segment is in the memory, with its payload. -/
theorem Seg.mem {m : Mem α β} {p q : Option α} {l : List (α × β)} (h : Seg m p l q)
    {x : α × β} (hx : x ∈ l) : ∃ c, m x.1 = some c ∧ c.val = x.2 := by
  induction l generalizing p with
  | nil => cases hx
  | cons y l ih =>
    rcases List.mem_cons.mp hx with rfl | hx
    · exact ⟨_, h.1, rfl⟩
    · exact ih h.2 hx

theorem last_mem {p : Option α} {l : List (α × β)} {c : α} (h : last p l = some c) :
    p = some c ∨ c ∈ l.map Prod.fst := by
  induction l generalizing p with
  | nil => exact .inl h
  | cons x l ih =>
    right
    rcases ih h with h' | h'
    · cases h'; exact List.mem_cons_self
    · exact List.mem_cons_of_mem _ h'

theorem first_mem {q : Option α} {l : List (α × β)} {c : α} (h : first l q = some c) :
    q = some c ∨ c ∈ l.map Prod.fst := by
  cases l with
  | nil => exact .inl h
  | cons x l => cases h; exact .inr List.mem_cons_self

/-- A list with head `hd` and cells `l` (module doc). -/
structure IsList (m : Mem α β) (hd : Option α) (l : List (α × β)) : Prop where
  head_eq : hd = first l none
  nodup : (l.map Prod.fst).Nodup
  seg : Seg m none l none

/-- The frame rule for lists. -/
theorem IsList.congr {m m' : Mem α β} {hd : Option α} {l : List (α × β)} (h : IsList m hd l)
    (hm : ∀ x ∈ l, m' x.1 = m x.1) : IsList m' hd l :=
  ⟨h.head_eq, h.nodup, h.seg.congr hm⟩

/-- The memory and the head determine the list. -/
theorem Seg.unique {m : Mem α β} {p p' : Option α} {l l' : List (α × β)} (h : Seg m p l none)
    (h' : Seg m p' l' none) (hf : first l none = first l' none) : l = l' := by
  induction l generalizing p p' l' with
  | nil =>
    cases l' with
    | nil => rfl
    | cons y l' => cases hf
  | cons x l ih =>
    cases l' with
    | nil => cases hf
    | cons y l' =>
      have hxy : x.1 = y.1 := Option.some.inj hf
      have hc := h.1.symm.trans ((congrArg m hxy).trans h'.1)
      simp only [Option.some.injEq, Cell.mk.injEq] at hc
      obtain ⟨-, hfirst, hval⟩ := hc
      rw [Prod.ext hxy hval, ih h.2 h'.2 hfirst]

theorem IsList.unique {m : Mem α β} {hd : Option α} {l l' : List (α × β)} (h : IsList m hd l)
    (h' : IsList m hd l') : l = l' :=
  h.seg.unique h'.seg (h.head_eq.symm.trans h'.head_eq)

theorem IsList.val_eq {m : Mem α β} {hd : Option α} {l : List (α × β)} (h : IsList m hd l)
    {x : α × β} (hx : x ∈ l) : (m x.1).map Cell.val = some x.2 := by
  obtain ⟨c, hc, hv⟩ := h.seg.mem hx
  rw [hc, Option.map_some, hv]

theorem IsList.eq_nil {m : Mem α β} {l : List (α × β)} (h : IsList m none l) : l = [] := by
  cases l with
  | nil => rfl
  | cons x l => cases h.head_eq

/-! ## Stores into cells -/

variable [DecidableEq α]

def setNext (m : Mem α β) (a : α) (q : Option α) : Mem α β :=
  Function.update m a ((m a).map fun c => { c with next := q })

def setPrev (m : Mem α β) (a : α) (p : Option α) : Mem α β :=
  Function.update m a ((m a).map fun c => { c with prev := p })

/-- `p->next = q`, if there is a `p`. -/
def relinkNext (m : Mem α β) (p q : Option α) : Mem α β :=
  match p with
  | some c => setNext m c q
  | none => m

/-- `q->prev = p`, if there is a `q`. -/
def relinkPrev (m : Mem α β) (q p : Option α) : Mem α β :=
  match q with
  | some c => setPrev m c p
  | none => m

/-- Put the cell at `a` between the neighbours `p` and `q`. -/
def splice (m : Mem α β) (a : α) (p q : Option α) : Mem α β :=
  relinkPrev (relinkNext (setPrev (setNext m a q) a p) p (some a)) q (some a)

/-- Join the neighbours `p` and `q` of a cell that leaves. -/
def unsplice (m : Mem α β) (p q : Option α) : Mem α β :=
  relinkPrev (relinkNext m p q) q p

theorem setNext_self {m : Mem α β} {a : α} {c : Cell α β} (h : m a = some c) (q : Option α) :
    setNext m a q a = some { c with next := q } := by
  simp [setNext, h]

theorem setPrev_self {m : Mem α β} {a : α} {c : Cell α β} (h : m a = some c) (p : Option α) :
    setPrev m a p a = some { c with prev := p } := by
  simp [setPrev, h]

@[simp] theorem setNext_of_ne {m : Mem α β} {a x : α} {q : Option α} (h : x ≠ a) :
    setNext m a q x = m x := Function.update_of_ne h _ _

@[simp] theorem setPrev_of_ne {m : Mem α β} {a x : α} {p : Option α} (h : x ≠ a) :
    setPrev m a p x = m x := Function.update_of_ne h _ _

/-- A store of the link that the cell has. -/
theorem setPrev_eq_self {m : Mem α β} {a : α} {c : Cell α β} (h : m a = some c) :
    setPrev m a c.prev = m := by
  rw [setPrev, h, Option.map_some, ← h, Function.update_eq_self]

@[simp] theorem setNext_eq_none {m : Mem α β} {a x : α} {q : Option α} :
    setNext m a q x = none ↔ m x = none := by
  by_cases h : x = a
  · subst h; simp [setNext]
  · rw [setNext_of_ne h]

@[simp] theorem setPrev_eq_none {m : Mem α β} {a x : α} {p : Option α} :
    setPrev m a p x = none ↔ m x = none := by
  by_cases h : x = a
  · subst h; simp [setPrev]
  · rw [setPrev_of_ne h]

theorem relinkNext_of_ne {m : Mem α β} {p q : Option α} {x : α} (h : p ≠ some x) :
    relinkNext m p q x = m x := by
  cases p with
  | none => rfl
  | some c => exact setNext_of_ne fun e => h (by rw [e])

theorem relinkPrev_of_ne {m : Mem α β} {p q : Option α} {x : α} (h : q ≠ some x) :
    relinkPrev m q p x = m x := by
  cases q with
  | none => rfl
  | some c => exact setPrev_of_ne fun e => h (by rw [e])

theorem relinkNext_live {m : Mem α β} {p q : Option α} {a : α} {c : Cell α β} (h : m a = some c) :
    ∃ c', relinkNext m p q a = some c' := by
  by_cases hp : p = some a
  · rw [hp]; exact ⟨_, setNext_self h q⟩
  · exact ⟨c, (relinkNext_of_ne hp).trans h⟩

/-- The stores that put `a` at the end of a list, in another order. -/
theorem splice_none {m : Mem α β} {a p : α} (h : p ≠ a) :
    setNext (setPrev (setNext m p (some a)) a (some p)) a none = splice m a (some p) none := by
  funext x
  by_cases hxa : x = a
  · subst hxa
    simp [splice, relinkPrev, relinkNext, setNext, setPrev, Ne.symm h, Function.comp_def]
  · by_cases hxp : x = p
    · subst hxp
      simp [splice, relinkPrev, relinkNext, setNext, setPrev, hxa]
    · simp [splice, relinkPrev, relinkNext, setNext, setPrev, hxa, hxp]

@[simp] theorem relinkNext_eq_none {m : Mem α β} {p q : Option α} {x : α} :
    relinkNext m p q x = none ↔ m x = none := by
  cases p <;> simp [relinkNext]

@[simp] theorem relinkPrev_eq_none {m : Mem α β} {p q : Option α} {x : α} :
    relinkPrev m q p x = none ↔ m x = none := by
  cases q <;> simp [relinkPrev]

/-! The stores change no payload. -/

@[simp] theorem setNext_val {m : Mem α β} {a x : α} {q : Option α} :
    (setNext m a q x).map Cell.val = (m x).map Cell.val := by
  by_cases h : x = a
  · subst h; cases hx : m x <;> simp [setNext, hx]
  · rw [setNext_of_ne h]

@[simp] theorem setPrev_val {m : Mem α β} {a x : α} {p : Option α} :
    (setPrev m a p x).map Cell.val = (m x).map Cell.val := by
  by_cases h : x = a
  · subst h; cases hx : m x <;> simp [setPrev, hx]
  · rw [setPrev_of_ne h]

@[simp] theorem relinkNext_val {m : Mem α β} {p q : Option α} {x : α} :
    (relinkNext m p q x).map Cell.val = (m x).map Cell.val := by
  cases p <;> simp [relinkNext]

@[simp] theorem relinkPrev_val {m : Mem α β} {p q : Option α} {x : α} :
    (relinkPrev m q p x).map Cell.val = (m x).map Cell.val := by
  cases q <;> simp [relinkPrev]

/-- The stores keep the same addresses alive. -/
theorem splice_eq_none {m : Mem α β} {a x : α} {p q : Option α} :
    splice m a p q x = none ↔ m x = none := by
  simp [splice]

theorem unsplice_eq_none {m : Mem α β} {x : α} {p q : Option α} :
    unsplice m p q x = none ↔ m x = none := by
  simp [unsplice]

/-- A segment from the start of a list whose last cell gets another successor. -/
theorem Seg.relinkNext {m : Mem α β} {l : List (α × β)} {q : Option α} (h : Seg m none l q)
    (hn : (l.map Prod.fst).Nodup) (q' : Option α) :
    Seg (relinkNext m (last none l) q') none l q' := by
  rcases List.eq_nil_or_concat l with rfl | ⟨l, x, rfl⟩
  · trivial
  rw [List.concat_eq_append] at *
  simp only [List.map_append, List.map_cons, List.map_nil, List.nodup_append] at hn
  obtain ⟨h1, h2, -⟩ := seg_append.mp h
  simp only [last_append, last_cons, last_nil, DList.relinkNext]
  refine seg_append.mpr ⟨h1.congr fun y hy => setNext_of_ne ?_, setNext_self h2 q', trivial⟩
  exact hn.2.2 _ (List.mem_map_of_mem hy) _ List.mem_cons_self

/-- A segment up to the end of a list whose first cell gets another predecessor. -/
theorem Seg.relinkPrev {m : Mem α β} {l : List (α × β)} {p : Option α} (h : Seg m p l none)
    (hn : (l.map Prod.fst).Nodup) (p' : Option α) :
    Seg (relinkPrev m (first l none) p') p' l none := by
  cases l with
  | nil => trivial
  | cons x l =>
    refine ⟨setPrev_self h.1 p', h.2.congr fun y hy => setPrev_of_ne ?_⟩
    rintro e
    exact (List.nodup_cons.mp hn).1 (e ▸ List.mem_map_of_mem hy)

/-! ## Insertion and removal -/

theorem IsList.splice {m : Mem α β} {hd : Option α} {l₁ l₂ : List (α × β)} {a : α}
    {c : Cell α β} (h : IsList m hd (l₁ ++ l₂)) (ha : a ∉ (l₁ ++ l₂).map Prod.fst)
    (hc : m a = some c) :
    IsList (splice m a (last none l₁) (first l₂ none)) (first (l₁ ++ (a, c.val) :: l₂) none)
      (l₁ ++ (a, c.val) :: l₂) := by
  have hn := h.nodup
  rw [List.map_append, List.nodup_append] at hn
  rw [List.map_append, List.mem_append, not_or] at ha
  obtain ⟨hn₁, hn₂, hdisj⟩ := hn
  obtain ⟨ha₁, ha₂⟩ := ha
  obtain ⟨hs₁, hs₂⟩ := seg_append.mp h.seg
  have hp : last none l₁ ≠ some a := fun e => (last_mem e).elim (by simp) ha₁
  have hq : first l₂ none ≠ some a := fun e => (first_mem e).elim (by simp) ha₂
  -- The links of the new cell; the segments do not read it.
  have hm₂ : setPrev (setNext m a (first l₂ none)) a (last none l₁) a =
      some ⟨last none l₁, first l₂ none, c.val⟩ := setPrev_self (setNext_self hc _) _
  have hframe : ∀ l : List (α × β), a ∉ l.map Prod.fst → ∀ x ∈ l,
      setPrev (setNext m a (first l₂ none)) a (last none l₁) x.1 = m x.1 := by
    intro l hl x hx
    have hne : x.1 ≠ a := fun e => hl (e ▸ List.mem_map_of_mem hx)
    rw [setPrev_of_ne hne, setNext_of_ne hne]
  refine ⟨rfl, ?_, seg_append.mpr ⟨?_, ?_, ?_⟩⟩
  · rw [List.map_append, List.map_cons, List.nodup_append, List.nodup_cons]
    refine ⟨hn₁, ⟨ha₂, hn₂⟩, fun x hx y hy => ?_⟩
    rcases List.mem_cons.mp hy with rfl | hy
    · exact fun e => ha₁ (e ▸ hx)
    · exact hdisj x hx y hy
  · refine ((hs₁.congr (hframe l₁ ha₁)).relinkNext hn₁ (some a)).congr fun x hx => ?_
    refine relinkPrev_of_ne fun e => ?_
    rcases first_mem e with e | e
    · cases e
    · exact hdisj _ (List.mem_map_of_mem hx) _ e rfl
  · rw [DList.splice, relinkPrev_of_ne hq, relinkNext_of_ne hp, hm₂]
  · refine Seg.relinkPrev ((hs₂.congr (hframe l₂ ha₂)).congr fun x hx => ?_) hn₂ (some a)
    refine relinkNext_of_ne fun e => ?_
    rcases last_mem e with e | e
    · cases e
    · exact hdisj _ e _ (List.mem_map_of_mem hx) rfl

theorem IsList.unsplice {m : Mem α β} {hd : Option α} {l₁ l₂ : List (α × β)} {x : α × β}
    (h : IsList m hd (l₁ ++ x :: l₂)) :
    IsList (unsplice m (last none l₁) (first l₂ none)) (first (l₁ ++ l₂) none) (l₁ ++ l₂) := by
  have hn := h.nodup
  rw [List.map_append, List.map_cons, List.nodup_append, List.nodup_cons] at hn
  obtain ⟨hn₁, ⟨-, hn₂⟩, hdisj⟩ := hn
  have hdisj' : ∀ y ∈ l₁.map Prod.fst, ∀ z ∈ l₂.map Prod.fst, y ≠ z :=
    fun y hy z hz => hdisj y hy z (List.mem_cons_of_mem _ hz)
  obtain ⟨hs₁, -, hs₂⟩ := seg_append.mp h.seg
  refine ⟨rfl, ?_, seg_append.mpr ⟨?_, ?_⟩⟩
  · rw [List.map_append, List.nodup_append]
    exact ⟨hn₁, hn₂, hdisj'⟩
  · refine (hs₁.relinkNext hn₁ (first l₂ none)).congr fun y hy => relinkPrev_of_ne fun e => ?_
    rcases first_mem e with e | e
    · cases e
    · exact hdisj' _ (List.mem_map_of_mem hy) _ e rfl
  · refine Seg.relinkPrev (hs₂.congr fun y hy => relinkNext_of_ne fun e => ?_) hn₂ _
    rcases last_mem e with e | e
    · cases e
    · exact hdisj' _ e _ (List.mem_map_of_mem hy) rfl

end DList
end LinuxBase
