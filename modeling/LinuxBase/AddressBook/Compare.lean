import LinuxBase.AddressBook.Basic

/-!
# `compare_name` and `strcmp` (`address-book.c`)

`compareNameInt` is `compare_name` with the `while (1)` of the source, which only a difference ends, and
its `int` index. On the names of persons it is `compareName` (`compareNameInt_person`).

The loop runs only on names that `strcmp` found different, so it ends at their first difference and does
not pass a NUL. There it compares plain `char`, which is signed, where `strcmp` compares `unsigned char`:
the two agree exactly if both octets are ASCII, or none of them (`signOfStrcmp_iff`). The NUL is ASCII,
so a name is before its extension exactly if what it is extended by starts with an ASCII octet
(`before_extension_iff`).
-/

namespace LinuxBase
namespace AddressBook

open CString

/-- The greatest `int`. -/
def intMax : Nat := 0x7FFFFFFF

/-- The `while (1)` of `compare_name` at the index `i`. -/
def compareWhile (lhs rhs : List Byte) : Nat → Nat → Run Int
  | 0, _ => .more
  | fuel + 1, i => do
    let l ← .ofOption lhs[i]?
    let r ← .ofOption rhs[i]?
    if l.toInt < r.toInt then .ret (-1)
    else if l.toInt > r.toInt then .ret 1
    else if i < intMax then compareWhile lhs rhs fuel (i + 1)
    else .fault

/-- `compare_name` with its loop and its index. -/
def compareNameInt (lhs rhs : List Byte) (fuel : Nat) : Run Int := do
  if (← strcmp lhs rhs) = 0 then .ret 0
  else compareWhile lhs rhs fuel 0

/-- `compare_name` ends with the sign of `strcmp`, also if the names end with their first NUL, so that a
read behind it is a `fault`. -/
def SignOfStrcmp (lhs rhs : List Byte) : Prop :=
  ∃ d, strcmp lhs rhs = .ret d ∧ Returns (compareNameInt lhs rhs) d.sign ∧
    Returns (compareNameInt (cstr lhs) (cstr rhs)) d.sign

theorem fueled_compareWhile (lhs rhs : List Byte) (i : Nat) :
    Fueled fun fuel => compareWhile lhs rhs fuel i := by
  intro n
  induction n generalizing i with
  | zero => exact fun hn => absurd rfl hn
  | succ n ih =>
    intro hn
    refine Run.bind_stable hn fun l hn => Run.bind_stable hn fun r hn => ?_
    refine Run.ite_stable hn (fun _ => rfl) fun hn => ?_
    refine Run.ite_stable hn (fun _ => rfl) fun hn => ?_
    exact Run.ite_stable hn (fun hn => ih (i + 1) hn) fun _ => rfl

theorem fueled_compareNameInt (lhs rhs : List Byte) : Fueled (compareNameInt lhs rhs) := by
  refine (fueled_const (strcmp lhs rhs)).bind fun d => ?_
  split
  · exact fueled_const _
  · exact fueled_compareWhile lhs rhs 0

/-! ## The loop at the first difference -/

section Difference

variable {p : List Byte} {a b : Byte} {lhs rhs : List Byte}

/-- The loop from an index of the common part: `k` octets are left to the difference. -/
theorem compareWhile_of_difference (h : FirstDifference p a b lhs rhs) {i k : Nat}
    (hk : i + k = p.length) (hi : i ≤ intMax) : compareWhile lhs rhs (k + 1) i =
      if p.length ≤ intMax then .ret (if a.toInt < b.toInt then -1 else 1) else .fault := by
  obtain ⟨-, hab, ⟨xs, rfl⟩, ⟨ys, rfl⟩⟩ := h
  induction k generalizing i with
  | zero =>
    obtain rfl : i = p.length := hk
    have hne : a.toInt ≠ b.toInt := fun e => hab (BitVec.eq_of_toInt_eq e)
    unfold compareWhile
    simp only [List.append_assoc, List.getElem?_append_right (Nat.le_refl _), Nat.sub_self,
      List.singleton_append, List.getElem?_cons_zero, Run.ofOption_some, Run.ret_bind, if_pos hi]
    by_cases hlt : a.toInt < b.toInt
    · rw [if_pos hlt, if_pos hlt]
    · have hgt : a.toInt > b.toInt := by omega
      rw [if_neg hlt, if_neg hlt, if_pos hgt]
  | succ k ih =>
    have hlt : i < p.length := by omega
    have hread : ∀ zs, (p ++ zs)[i]? = some p[i] := by
      intro zs
      rw [List.getElem?_append_left hlt, List.getElem?_eq_getElem hlt]
    unfold compareWhile
    simp only [List.append_assoc, hread, Run.ofOption_some, Run.ret_bind, Int.lt_irrefl, gt_iff_lt,
      if_false]
    by_cases hmax : i < intMax
    · rw [if_pos hmax]
      simpa only [List.append_assoc] using ih (by omega) hmax
    · have hlong : ¬ p.length ≤ intMax := by omega
      rw [if_neg hmax, if_neg hlong]

/-- `compare_name` on names that differ. -/
theorem compareNameInt_of_difference (h : FirstDifference p a b lhs rhs) :
    compareNameInt lhs rhs (p.length + 1) =
      if p.length ≤ intMax then .ret (if a.toInt < b.toInt then -1 else 1) else .fault := by
  have hne : (a.toNat : Int) - b.toNat ≠ 0 := by
    intro e
    apply h.ne
    apply BitVec.eq_of_toNat_eq
    omega
  unfold compareNameInt
  rw [h.strcmp_eq, Run.ret_bind, if_neg hne]
  exact compareWhile_of_difference h (Nat.zero_add _) (Nat.zero_le _)

theorem returns_iff_of_difference (h : FirstDifference p a b lhs rhs) {c : Int} :
    Returns (compareNameInt lhs rhs) c ↔
      p.length ≤ intMax ∧ c = if a.toInt < b.toInt then -1 else 1 := by
  have heq := compareNameInt_of_difference h
  by_cases hp : p.length ≤ intMax
  · rw [if_pos hp] at heq
    rw [and_iff_right hp]
    constructor
    · intro hc
      exact (fueled_compareNameInt lhs rhs).returns_unique hc ⟨_, heq⟩
    · rintro rfl
      exact ⟨_, heq⟩
  · rw [if_neg hp] at heq
    apply iff_of_false
    · exact (fueled_compareNameInt lhs rhs).not_returns heq nofun nofun
    · exact fun hc => hp hc.1

/-- `compare_name` on names that are equal. -/
theorem compareNameInt_of_eq (hl : 0#8 ∈ lhs) (h : cstr lhs = cstr rhs) (fuel : Nat) :
    compareNameInt lhs rhs fuel = .ret 0 := by
  unfold compareNameInt
  rw [strcmp_of_cstr_eq h, if_pos hl]
  rfl

/-- **Termination.** On names that an `int` can index, `compare_name` ends without a read behind the first
NUL, as it also ends on the names without what is there. -/
theorem compareNameInt_returns (hl : 0#8 ∈ lhs) (hr : 0#8 ∈ rhs)
    (hlen : (cstr lhs).length ≤ intMax + 1) :
    ∃ c, Returns (compareNameInt lhs rhs) c ∧ Returns (compareNameInt (cstr lhs) (cstr rhs)) c := by
  by_cases h : cstr lhs = cstr rhs
  · refine ⟨0, ⟨0, compareNameInt_of_eq hl h 0⟩, 0, ?_⟩
    apply compareNameInt_of_eq (mem_cstr_zero.mpr hl)
    rw [cstr_cstr, cstr_cstr, h]
  · obtain ⟨p, a, b, hd⟩ := exists_firstDifference hl hr h
    have hp : p.length ≤ intMax := by
      have hle := hd.to_cstr.left.length_le
      rw [List.length_append, List.length_singleton] at hle
      omega
    exact ⟨_, (returns_iff_of_difference hd).mpr ⟨hp, rfl⟩,
      (returns_iff_of_difference hd.to_cstr).mpr ⟨hp, rfl⟩⟩

end Difference

/-! ## Two kinds of `char` -/

theorem toInt_octet (a : Byte) :
    a.msb = false ∧ a.toNat < 128 ∧ a.toInt = a.toNat ∨
      a.msb = true ∧ 128 ≤ a.toNat ∧ a.toInt = (a.toNat : Int) - 256 := by
  rw [BitVec.toInt_eq_msb_cond]
  cases h : a.msb with
  | false => exact .inl ⟨rfl, BitVec.toNat_lt_of_msb_false h, rfl⟩
  | true => exact .inr ⟨rfl, BitVec.le_toNat_of_msb_true h, rfl⟩

/-- Two octets have the same order as plain `char` and as `unsigned char` if their top bits are equal. -/
theorem sameOrder_iff {a b : Byte} (hab : a ≠ b) :
    (a.toNat < b.toNat ↔ a.toInt < b.toInt) ↔ a.msb = b.msb := by
  have hne : a.toNat ≠ b.toNat := fun e => hab (BitVec.eq_of_toNat_eq e)
  have ha := a.isLt
  have hb := b.isLt
  rcases toInt_octet a with ⟨hma, hla, hia⟩ | ⟨hma, hla, hia⟩
  · rcases toInt_octet b with ⟨hmb, hlb, hib⟩ | ⟨hmb, hlb, hib⟩
    · exact iff_of_true (by omega) (hma.trans hmb.symm)
    · exact iff_of_false (by omega) (by rw [hma, hmb]; decide)
  · rcases toInt_octet b with ⟨hmb, hlb, hib⟩ | ⟨hmb, hlb, hib⟩
    · exact iff_of_false (by omega) (by rw [hma, hmb]; decide)
    · exact iff_of_true (by omega) (hma.trans hmb.symm)

theorem ite_eq_ite_iff {P Q : Prop} [Decidable P] [Decidable Q] :
    (if P then (-1 : Int) else 1) = (if Q then -1 else 1) ↔ (P ↔ Q) := by
  by_cases hP : P
  · by_cases hQ : Q
    · simp [hP, hQ]
    · simp [hP, hQ]
  · by_cases hQ : Q
    · simp [hP, hQ]
    · simp [hP, hQ]

theorem sign_eq_iff {a b : Byte} (hab : a ≠ b) :
    ((a.toNat : Int) - b.toNat).sign = (if a.toInt < b.toInt then -1 else 1) ↔ a.msb = b.msb := by
  have hne : a.toNat ≠ b.toNat := fun e => hab (BitVec.eq_of_toNat_eq e)
  have hsign : ((a.toNat : Int) - b.toNat).sign = if a.toNat < b.toNat then -1 else 1 := by
    by_cases hlt : a.toNat < b.toNat
    · rw [if_pos hlt, Int.sign_eq_neg_one_of_neg (by omega)]
    · rw [if_neg hlt, Int.sign_eq_one_of_pos (by omega)]
  rw [hsign, ite_eq_ite_iff, sameOrder_iff hab]

/-- On names that differ, the sign is right if the index and the top bits are. -/
theorem signOfStrcmp_of_difference {p : List Byte} {a b : Byte} {lhs rhs : List Byte}
    (h : FirstDifference p a b lhs rhs) :
    SignOfStrcmp lhs rhs ↔ p.length ≤ intMax ∧ a.msb = b.msb := by
  rw [← sign_eq_iff h.ne]
  constructor
  · rintro ⟨d, hd, hret, -⟩
    rw [h.strcmp_eq] at hd
    cases hd
    exact (returns_iff_of_difference h).mp hret
  · intro hc
    exact ⟨_, h.strcmp_eq, (returns_iff_of_difference h).mpr hc,
      (returns_iff_of_difference h.to_cstr).mpr hc⟩

theorem signOfStrcmp_of_eq {lhs rhs : List Byte} (hl : 0#8 ∈ lhs) (h : cstr lhs = cstr rhs) :
    SignOfStrcmp lhs rhs := by
  refine ⟨0, ?_, ⟨0, compareNameInt_of_eq hl h 0⟩, 0, ?_⟩
  · rw [strcmp_of_cstr_eq h, if_pos hl]
  · apply compareNameInt_of_eq (mem_cstr_zero.mpr hl)
    rw [cstr_cstr, cstr_cstr, h]

/-- **`compare_name` against `strcmp`.** For names that end with a NUL, the loop ends without a read
behind it, with the sign of `strcmp`, exactly if the names are equal, or they first differ at an index
that is an `int`, in two octets with the same top bit. -/
theorem signOfStrcmp_iff {lhs rhs : List Byte} (hl : 0#8 ∈ lhs) (hr : 0#8 ∈ rhs) :
    SignOfStrcmp lhs rhs ↔ cstr lhs = cstr rhs ∨
      ∃ p a b, FirstDifference p a b lhs rhs ∧ p.length ≤ intMax ∧ a.msb = b.msb := by
  constructor
  · intro h
    by_cases heq : cstr lhs = cstr rhs
    · exact .inl heq
    · obtain ⟨p, a, b, hd⟩ := exists_firstDifference hl hr heq
      exact .inr ⟨p, a, b, hd, (signOfStrcmp_of_difference hd).mp h⟩
  · rintro (heq | ⟨p, a, b, hd, hc⟩)
    · exact signOfStrcmp_of_eq hl heq
    · exact (signOfStrcmp_of_difference hd).mpr hc

/-- `Ä` and `ä` in UTF-8. -/
theorem signOfStrcmp_umlauts : SignOfStrcmp [0xC3, 0x84, 0] [0xC3, 0xA4, 0] := by
  have hd : FirstDifference [0xC3] 0x84 0xA4 [0xC3, 0x84, 0] [0xC3, 0xA4, 0] :=
    ⟨by decide, by decide, by decide, by decide⟩
  exact (signOfStrcmp_iff (by decide) (by decide)).mpr (.inr ⟨_, _, _, hd, by decide, by decide⟩)

/-- `a` and `aä`: `strcmp` has the first name before the second one, and `compare_name` behind it. -/
theorem not_signOfStrcmp_umlaut :
    ¬ SignOfStrcmp [97, 0] [97, 0xC3, 0xA4, 0] ∧ strcmp [97, 0] [97, 0xC3, 0xA4, 0] = .ret (-195) ∧
      Returns (compareNameInt [97, 0] [97, 0xC3, 0xA4, 0]) 1 := by
  have hd : FirstDifference [97] 0 0xC3 [97, 0] [97, 0xC3, 0xA4, 0] :=
    ⟨by decide, by decide, by decide, by decide⟩
  refine ⟨fun h => ?_, by decide, ⟨2, by decide⟩⟩
  exact absurd ((signOfStrcmp_of_difference hd).mp h).2 (by decide)

/-- **Extensions.** `compare_name` has a name before its extension exactly if what it is extended by
starts with an ASCII octet. -/
theorem before_extension_iff {p t : List Byte} {c : Byte} (hp : 0#8 ∉ p) (hlen : p.length ≤ intMax)
    (hc : c ≠ 0#8) : Returns (compareNameInt (p ++ [0]) (p ++ c :: t)) (-1) ↔ c.msb = false := by
  have hd : FirstDifference p 0 c (p ++ [0]) (p ++ c :: t) :=
    ⟨hp, hc.symm, List.prefix_refl _, t, by simp⟩
  have hzero : (0 : Byte).toInt = 0 := by decide
  rw [returns_iff_of_difference hd, and_iff_right hlen, hzero]
  rcases toInt_octet c with ⟨hm, -, hi⟩ | ⟨hm, -, hi⟩
  · have hne : c.toNat ≠ 0 := fun e => hc (BitVec.eq_of_toNat_eq e)
    have hpos : 0 < c.toInt := by omega
    exact iff_of_true (if_pos hpos).symm hm
  · have hneg : ¬ 0 < c.toInt := by
      have := c.isLt
      omega
    rw [if_neg hneg, hm]
    decide

/-! ## The names of persons -/

theorem compareLoop_nil_right (lhs : List Byte) : compareLoop lhs [] = .fault := by
  cases lhs with
  | nil => rfl
  | cons l lhs => rfl

/-- The loop on names of at most `intMax + 1` octets. -/
theorem compareWhile_eq_compareLoop {lhs : List Byte} (hlen : lhs.length ≤ intMax + 1)
    (rhs : List Byte) {fuel i : Nat} (hi : i ≤ lhs.length) (hfuel : lhs.length < i + fuel) :
    compareWhile lhs rhs fuel i = compareLoop (lhs.drop i) (rhs.drop i) := by
  induction fuel generalizing i with
  | zero => omega
  | succ fuel ih =>
    rw [compareWhile]
    by_cases hl : i < lhs.length
    · by_cases hr : i < rhs.length
      · rw [List.getElem?_eq_getElem hl, List.getElem?_eq_getElem hr, List.drop_eq_getElem_cons hl,
          List.drop_eq_getElem_cons hr, compareLoop, Run.ofOption_some, Run.ofOption_some, Run.ret_bind,
          Run.ret_bind]
        by_cases hmax : i < intMax
        · rw [if_pos hmax, ih hl (by omega)]
        · rw [if_neg hmax, List.drop_eq_nil_of_le (show lhs.length ≤ i + 1 by omega)]
          rfl
      · rw [List.getElem?_eq_getElem hl, List.getElem?_eq_none (Nat.not_lt.mp hr),
          List.drop_eq_nil_of_le (Nat.not_lt.mp hr), compareLoop_nil_right]
        rfl
    · rw [List.getElem?_eq_none (Nat.not_lt.mp hl), List.drop_eq_nil_of_le (Nat.not_lt.mp hl)]
      rfl

theorem compareNameInt_eq_compareName {lhs : List Byte} (hlen : lhs.length ≤ intMax + 1)
    (rhs : List Byte) {fuel : Nat} (hfuel : lhs.length < fuel) :
    compareNameInt lhs rhs fuel = compareName lhs rhs := by
  rw [compareNameInt, compareName, compareWhile_eq_compareLoop hlen rhs (Nat.zero_le _) (by omega)]
  rfl

/-- For persons, the index and the fuel do not matter. -/
theorem compareNameInt_person (p q : Person) {fuel : Nat} (hfuel : 27 < fuel) :
    compareNameInt p.bytes q.bytes fuel = compareName p.bytes q.bytes := by
  have hsize : p.bytes.length = 27 := p.size_eq
  exact compareNameInt_eq_compareName (by rw [hsize]; decide) q.bytes (by rw [hsize]; exact hfuel)

end AddressBook
end LinuxBase
