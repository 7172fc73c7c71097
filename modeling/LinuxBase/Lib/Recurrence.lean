/-!
# Recurrences over a list

`recur op f i as h` is the loop `h := op (f i h) a` over the inputs `as` from the index `i`. If `op` is
commutative and the steps `f i` distribute over it, the inputs do not mix: the result is what the steps
make of the start, and of each input that has the rest of the steps before it (`recur_eq`).

`total op e g i as` is the sum of what `g` makes of the inputs. It is additive in `g` (`total_op`) and in
the inputs (`total_zipWith`).
-/

namespace LinuxBase

section Recurrence

variable {A : Type} (op : A → A → A) (e : A) (f : Nat → A → A)

/-- The loop `h := op (f i h) a` over the inputs, from the index `i`. -/
def recur : Nat → List A → A → A
  | _, [], h => h
  | i, a :: as, h => recur (i + 1) as (op (f i h) a)

/-- What the `n` steps from the index `i` make of `x`. -/
def carry : Nat → Nat → A → A
  | _, 0, x => x
  | i, n + 1, x => carry (i + 1) n (f i x)

/-- The sum of `g i n a` over the inputs, where `a` has the index `i`, and `n` inputs behind it. -/
def total (g : Nat → Nat → A → A) : Nat → List A → A
  | _, [] => e
  | i, a :: as => op (g i as.length a) (total g (i + 1) as)

variable {op e f} {g g' : Nat → Nat → A → A}

theorem carry_op (hf : ∀ i x y, f i (op x y) = op (f i x) (f i y)) (i n : Nat) (x y : A) :
    carry f i n (op x y) = op (carry f i n x) (carry f i n y) := by
  induction n generalizing i x y with
  | zero => rfl
  | succ n ih => rw [carry, hf, ih]; rfl

theorem carry_id (hf : ∀ i, f i e = e) (i n : Nat) : carry f i n e = e := by
  induction n generalizing i with
  | zero => rfl
  | succ n ih => rw [carry, hf, ih]

/-- Steps that are all the same. -/
theorem foldl_eq_recur (f : A → A) (i : Nat) (as : List A) (h : A) :
    as.foldl (fun h a => op (f h) a) h = recur op (fun _ => f) i as h := by
  induction as generalizing i h with
  | nil => rfl
  | cons a as ih => exact ih (i + 1) (op (f h) a)

variable [Std.Associative op] [Std.LawfulIdentity op e]

/-- **Superposition.** -/
theorem recur_eq (hf : ∀ i x y, f i (op x y) = op (f i x) (f i y)) (i : Nat) (as : List A) (h : A) :
    recur op f i as h =
      op (carry f i as.length h) (total op e (fun i n => carry f (i + 1) n) i as) := by
  induction as generalizing i h with
  | nil => exact (Std.LawfulRightIdentity.right_id h).symm
  | cons a as ih =>
    rw [recur, ih, carry_op hf, ‹Std.Associative op›.assoc]
    rfl

variable [Std.Commutative op]

theorem total_op (i : Nat) (as : List A) :
    total op e (fun i n x => op (g i n x) (g' i n x)) i as =
      op (total op e g i as) (total op e g' i as) := by
  induction as generalizing i with
  | nil => exact (Std.LawfulRightIdentity.right_id e).symm
  | cons a as ih =>
    rw [total, total, total, ih]
    ac_rfl

theorem total_zipWith (hg : ∀ i n x y, g i n (op x y) = op (g i n x) (g i n y)) (i : Nat)
    {as bs : List A} (hl : as.length = bs.length) :
    total op e g i (List.zipWith op as bs) = op (total op e g i as) (total op e g i bs) := by
  induction as generalizing i bs with
  | nil =>
    obtain rfl := List.length_eq_zero_iff.mp hl.symm
    exact (Std.LawfulRightIdentity.right_id e).symm
  | cons a as ih =>
    cases bs with
    | nil => cases hl
    | cons b bs =>
      have hl' : as.length = bs.length := Nat.succ.inj hl
      rw [List.zipWith_cons_cons, total, total, total, ih (i + 1) hl', hg, List.length_zipWith, ← hl',
        Nat.min_self]
      ac_rfl

end Recurrence

end LinuxBase
