/-!
# Data at an offset

`At mem p xs`: the memory `mem` holds the items `xs` from the place `p` on. An encoding that is built
with `++` and `flatMap` gives the places of its parts (`At.left`, `At.right`, `At.flatMap`).

`put mem p xs` is `mem` after a store of `xs` at `p`. `put_put` joins two stores one after the other,
where the second may begin inside what the first one wrote.
-/

namespace LinuxBase
namespace Layout

variable {α β : Type} {mem xs ys : List α} {p i : Nat}

def At (mem : List α) (p : Nat) (xs : List α) : Prop :=
  ∃ pre post, mem = pre ++ xs ++ post ∧ pre.length = p

theorem At.left (h : At mem p (xs ++ ys)) : At mem p xs := by
  obtain ⟨pre, post, rfl, rfl⟩ := h
  exact ⟨pre, ys ++ post, by simp only [List.append_assoc], rfl⟩

theorem At.right (h : At mem p (xs ++ ys)) : At mem (p + xs.length) ys := by
  obtain ⟨pre, post, rfl, rfl⟩ := h
  exact ⟨pre ++ xs, post, by simp only [List.append_assoc], List.length_append⟩

theorem At.le_length (h : At mem p xs) : p + xs.length ≤ mem.length := by
  obtain ⟨pre, post, rfl, rfl⟩ := h
  simp only [List.length_append]
  omega

theorem At.getElem? (h : At mem p xs) (hi : i < xs.length) : mem[p + i]? = some xs[i] := by
  obtain ⟨pre, post, rfl, rfl⟩ := h
  rw [List.append_assoc, List.getElem?_append_right (by omega), Nat.add_sub_cancel_left,
    List.getElem?_append_left hi, List.getElem?_eq_getElem hi]

theorem At.take_drop (h : At mem p xs) : (mem.drop p).take xs.length = xs := by
  obtain ⟨pre, post, rfl, rfl⟩ := h
  rw [List.append_assoc, List.drop_left, List.take_left]

theorem at_of_take_drop (h : (mem.drop p).take xs.length = xs) (hp : p ≤ mem.length) :
    At mem p xs := by
  have hsplit : mem.drop p = xs ++ (mem.drop p).drop xs.length :=
    (List.take_append_drop xs.length (mem.drop p)).symm.trans (by rw [h])
  refine ⟨mem.take p, (mem.drop p).drop xs.length, ?_, by rw [List.length_take]; omega⟩
  rw [List.append_assoc, ← hsplit, List.take_append_drop]

theorem At.head {x : α} (h : At mem p (x :: xs)) : mem[p]? = some x :=
  h.getElem? (i := 0) (Nat.zero_lt_succ _)

theorem At.tail {x : α} (h : At mem p (x :: xs)) : At mem (p + 1) xs := by
  have h' : At mem p ([x] ++ xs) := h
  exact h'.right

/-- The parts of a sequence stand one after the other. -/
theorem At.flatMap {f : β → List α} {bs : List β} (h : At mem p (bs.flatMap f))
    (hi : i < bs.length) : At mem (p + ((bs.take i).flatMap f).length) (f bs[i]) := by
  have hsplit : bs = bs.take i ++ bs[i] :: bs.drop (i + 1) := by
    rw [← List.drop_eq_getElem_cons hi, List.take_append_drop]
  rw [hsplit, List.flatMap_append, List.flatMap_cons] at h
  exact h.right.left

/-! ## Stores -/

/-- `mem` with `xs` at `p`. -/
def put (mem : List α) (p : Nat) (xs : List α) : List α :=
  mem.take p ++ (xs ++ mem.drop (p + xs.length))

theorem length_put (h : p + xs.length ≤ mem.length) : (put mem p xs).length = mem.length := by
  simp only [put, List.length_append, List.length_take, List.length_drop]
  omega

theorem at_put (h : p ≤ mem.length) : At (put mem p xs) p xs :=
  ⟨mem.take p, mem.drop (p + xs.length), (List.append_assoc _ _ _).symm, by
    rw [List.length_take]; omega⟩

/-- A store that begins inside the one before it and goes on at least as far. -/
theorem put_put {zs : List α} (h : p ≤ mem.length) (hle : ys.length ≤ zs.length) :
    put (put mem p (xs ++ ys)) (p + xs.length) zs = put mem p (xs ++ zs) := by
  have hp : (mem.take p).length = p := by rw [List.length_take]; omega
  have htake : (put mem p (xs ++ ys)).take (p + xs.length) = mem.take p ++ xs := by
    rw [put, List.append_assoc, ← List.append_assoc]
    exact List.take_left' (by rw [List.length_append, hp])
  have hdrop : (put mem p (xs ++ ys)).drop (p + xs.length + zs.length) =
      mem.drop (p + (xs ++ zs).length) := by
    rw [put, ← List.append_assoc, List.drop_append, List.drop_eq_nil_of_le (by
      simp only [List.length_append, hp]; omega), List.nil_append, List.drop_drop]
    simp only [List.length_append, hp]
    congr 1
    omega
  rw [put, htake, hdrop, put]
  simp only [List.append_assoc]

theorem put_append (h : p ≤ mem.length) :
    put (put mem p xs) (p + xs.length) ys = put mem p (xs ++ ys) := by
  have hput : put (put mem p (xs ++ [])) (p + xs.length) ys = put mem p (xs ++ ys) :=
    put_put h (Nat.zero_le _)
  rwa [List.append_nil] at hput

theorem put_nil (mem : List α) (p : Nat) : put mem p [] = mem := by
  rw [put, List.nil_append, List.length_nil, Nat.add_zero, List.take_append_drop]

/-- A store over the whole of `mem`. -/
theorem put_zero (h : xs.length = mem.length) : put mem 0 xs = xs := by
  rw [put, Nat.zero_add, h, List.drop_length, List.append_nil]
  rfl

end Layout
end LinuxBase
