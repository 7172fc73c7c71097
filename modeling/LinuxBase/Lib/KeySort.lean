import Mathlib.Data.List.Sort

/-!
# Lists sorted by a key

Elements with a key in a linear order; different elements may have one key. `group key k l` are
the elements of `l` with the key `k`, in the order of `l`.

* `orderedInsert` (Mathlib's, for `KeyLE key`) puts an element before the first one whose key is not
  smaller, so in front of its group (`group_orderedInsert`).
* A sorted list is determined by its groups (`eq_of_group_eq`).
* `reinsert` inserts the elements of a list one by one into an empty list. It turns each group
  around, so it gives a sorted list back exactly when all groups are palindromes
  (`reinsert_eq_self_iff`).
-/

namespace LinuxBase
namespace KeySort

variable {α κ : Type} [LinearOrder κ] {key : α → κ}

/-- The order of the keys. -/
def KeyLE (key : α → κ) (x y : α) : Prop := key x ≤ key y

instance : DecidableRel (KeyLE key) := fun x y => inferInstanceAs (Decidable (key x ≤ key y))
instance : Std.Total (KeyLE key) := ⟨fun x y => le_total (key x) (key y)⟩
instance : IsTrans α (KeyLE key) := ⟨fun _ _ _ h1 h2 => le_trans (α := κ) h1 h2⟩

/-- Sorted by the key. -/
def KeySorted (key : α → κ) (l : List α) : Prop := l.Pairwise (KeyLE key)

/-- The element has the key `k`. -/
def hasKey (key : α → κ) (k : κ) (x : α) : Bool := decide (key x = k)

/-- The elements with the key `k`. -/
def group (key : α → κ) (k : κ) (l : List α) : List α := l.filter (hasKey key k)

@[simp] theorem hasKey_iff {k : κ} {x : α} : hasKey key k x = true ↔ key x = k := decide_eq_true_iff

@[simp] theorem group_nil (k : κ) : group key k [] = [] := rfl

theorem group_cons_self (x : α) (l : List α) : group key (key x) (x :: l) = x :: group key (key x) l :=
  List.filter_cons_of_pos (by simp)

theorem group_cons_of_ne {k : κ} {x : α} (h : key x ≠ k) (l : List α) :
    group key k (x :: l) = group key k l := List.filter_cons_of_neg (by simpa using h)

/-- The group of a longer list depends only on the group of the list. -/
theorem group_cons_congr {k : κ} {l l' : List α} (h : group key k l = group key k l') (x : α) :
    group key k (x :: l) = group key k (x :: l') := by
  by_cases hx : key x = k
  · subst hx; rw [group_cons_self, group_cons_self, h]
  · rw [group_cons_of_ne hx, group_cons_of_ne hx, h]

theorem mem_group {k : κ} {l : List α} {x : α} : x ∈ group key k l ↔ x ∈ l ∧ key x = k := by
  simp [group]

/-! ## Insertion -/

/-- Insertion looks only at how the new element compares with the elements of the list. -/
theorem orderedInsert_congr {r s : α → α → Prop} [DecidableRel r] [DecidableRel s] {a : α}
    {l : List α} (h : ∀ x ∈ l, r a x ↔ s a x) : l.orderedInsert r a = l.orderedInsert s a := by
  induction l with
  | nil => rfl
  | cons x l ih =>
    obtain ⟨hx, h'⟩ := List.forall_mem_cons.mp h
    rw [List.orderedInsert_cons, List.orderedInsert_cons, ih h']
    simp only [hx]

theorem KeySorted.orderedInsert {l : List α} (h : KeySorted key l) (a : α) :
    KeySorted key (l.orderedInsert (KeyLE key) a) := List.Pairwise.orderedInsert a l h

/-- Insertion puts an element in front of its group and leaves the other groups. -/
theorem group_orderedInsert (k : κ) (a : α) (l : List α) :
    group key k (l.orderedInsert (KeyLE key) a) = group key k (a :: l) := by
  induction l with
  | nil => rfl
  | cons x l ih =>
    rw [List.orderedInsert_cons]
    split
    · rfl
    · rename_i hlt
      have hxa : key x ≠ key a := fun h => hlt (le_of_eq h.symm)
      by_cases hxk : key x = k
      · have hak : key a ≠ k := fun h => hxa (hxk.trans h.symm)
        subst hxk
        rw [group_cons_self, ih, group_cons_of_ne hak, group_cons_of_ne hak, group_cons_self]
      · rw [group_cons_of_ne hxk, ih]
        by_cases hak : key a = k
        · subst hak; rw [group_cons_self, group_cons_self, group_cons_of_ne hxk]
        · rw [group_cons_of_ne hak, group_cons_of_ne hak, group_cons_of_ne hxk]

/-! ## The first element of a key -/

theorem find?_eq_head?_group (k : κ) (l : List α) :
    l.find? (hasKey key k) = (group key k l).head? :=
  List.head?_filter.symm

theorem any_eq_isSome_group (k : κ) (l : List α) :
    l.any (hasKey key k) = (group key k l).head?.isSome := by
  rw [← find?_eq_head?_group, List.isSome_find?]

theorem KeySorted.eraseP {l : List α} (h : KeySorted key l) (p : α → Bool) :
    KeySorted key (l.eraseP p) := h.sublist List.eraseP_sublist

/-- The removal of the first element with the key `k` takes the first one of its group. -/
theorem group_eraseP (k k' : κ) (l : List α) :
    group key k' (l.eraseP (hasKey key k)) =
      if k' = k then (group key k' l).tail else group key k' l := by
  induction l with
  | nil => split <;> rfl
  | cons x l ih =>
    by_cases hx : key x = k
    · rw [List.eraseP_cons_of_pos (by simpa using hx)]
      subst hx
      split
      · rename_i h; subst h; rw [group_cons_self]; rfl
      · rename_i h; rw [group_cons_of_ne (Ne.symm h)]
    · rw [List.eraseP_cons_of_neg (by simpa using hx)]
      by_cases hxk : key x = k'
      · subst hxk
        rw [group_cons_self, ih, if_neg hx, if_neg hx, group_cons_self]
      · rw [group_cons_of_ne hxk, group_cons_of_ne hxk, ih]

/-! ## Sorted lists and their groups -/

theorem mem_of_group_eq {l l' : List α} (hg : ∀ k, group key k l = group key k l') {x : α}
    (hx : x ∈ l) : x ∈ l' := by
  have : x ∈ group key (key x) l' := by rw [← hg]; exact mem_group.mpr ⟨hx, rfl⟩
  exact (mem_group.mp this).1

/-- Lists with the same groups have the same elements, as often. -/
theorem perm_of_group_eq [DecidableEq α] {l l' : List α} (hg : ∀ k, group key k l = group key k l') :
    l.Perm l' := by
  refine List.perm_iff_count.mpr fun x => ?_
  have hc : ∀ l : List α, (group key (key x) l).count x = l.count x := fun l =>
    List.count_filter (by simp)
  rw [← hc l, hg, hc]

theorem KeySorted.head_le {x : α} {l : List α} (h : KeySorted key (x :: l)) {y : α}
    (hy : y ∈ x :: l) : key x ≤ key y := by
  rcases List.mem_cons.mp hy with rfl | hy
  · exact le_refl _
  · exact (List.pairwise_cons.mp h).1 y hy

/-- A sorted list is determined by its groups. -/
theorem eq_of_group_eq {l l' : List α} (h : KeySorted key l) (h' : KeySorted key l')
    (hg : ∀ k, group key k l = group key k l') : l = l' := by
  induction l generalizing l' with
  | nil =>
    cases l' with
    | nil => rfl
    | cons y l' => cases mem_of_group_eq (fun k => (hg k).symm) (List.mem_cons_self (a := y))
  | cons x l ih =>
    cases l' with
    | nil => cases mem_of_group_eq hg (List.mem_cons_self (a := x))
    | cons y l' =>
      -- Both heads have the smallest key, so each is the first of the same group.
      have hxy : key x = key y := le_antisymm
        (h.head_le (mem_of_group_eq (fun k => (hg k).symm) List.mem_cons_self))
        (h'.head_le (mem_of_group_eq hg List.mem_cons_self))
      have hk := hg (key x)
      rw [group_cons_self, hxy, group_cons_self] at hk
      obtain ⟨rfl, htl⟩ := List.cons.inj hk
      rw [ih (List.pairwise_cons.mp h).2 (List.pairwise_cons.mp h').2 fun k => ?_]
      by_cases hxk : key x = k
      · subst hxk; exact htl
      · have := hg k
        rwa [group_cons_of_ne hxk, group_cons_of_ne hxk] at this

/-! ## Insertion one by one -/

/-- The elements of `l`, inserted one by one into `acc`. -/
def reinsert (key : α → κ) (acc l : List α) : List α :=
  l.foldl (fun acc x => acc.orderedInsert (KeyLE key) x) acc

@[simp] theorem reinsert_nil (acc : List α) : reinsert key acc [] = acc := rfl

theorem reinsert_cons (acc : List α) (x : α) (l : List α) :
    reinsert key acc (x :: l) = reinsert key (acc.orderedInsert (KeyLE key) x) l := rfl

theorem map_reinsert {β : Type} (f : β → α) (acc l : List β) :
    (reinsert (key ∘ f) acc l).map f = reinsert key (acc.map f) (l.map f) := by
  induction l generalizing acc with
  | nil => rfl
  | cons x l ih =>
    rw [reinsert_cons, ih, List.map_cons, reinsert_cons]
    congr 1
    exact List.map_orderedInsert _ _ f acc x (fun _ _ => Iff.rfl) fun _ _ => Iff.rfl

theorem KeySorted.reinsert {acc : List α} (h : KeySorted key acc) (l : List α) :
    KeySorted key (reinsert key acc l) := by
  induction l generalizing acc with
  | nil => exact h
  | cons x l ih => exact ih (h.orderedInsert x)

theorem length_reinsert (acc l : List α) : (reinsert key acc l).length = acc.length + l.length := by
  induction l generalizing acc with
  | nil => rfl
  | cons x l ih =>
    rw [reinsert_cons, ih, List.orderedInsert_length, List.length_cons]
    omega

theorem group_reinsert (k : κ) (acc l : List α) :
    group key k (reinsert key acc l) = (group key k l).reverse ++ group key k acc := by
  induction l generalizing acc with
  | nil => rfl
  | cons x l ih =>
    rw [reinsert_cons, ih, group_orderedInsert]
    by_cases hxk : key x = k
    · subst hxk; simp [group_cons_self]
    · rw [group_cons_of_ne hxk, group_cons_of_ne hxk]

/-- Insertion one by one gives a sorted list back exactly if each group is a palindrome. -/
theorem reinsert_eq_self_iff {l : List α} (h : KeySorted key l) :
    reinsert key [] l = l ↔ ∀ k, (group key k l).reverse = group key k l := by
  have hg : ∀ k, group key k (reinsert key [] l) = (group key k l).reverse := fun k => by
    rw [group_reinsert, group_nil, List.append_nil]
  constructor
  · intro he k
    rw [← hg, he]
  · intro hp
    exact eq_of_group_eq (KeySorted.reinsert List.Pairwise.nil l) h fun k => by rw [hg, hp]

end KeySort
end LinuxBase
