import LinuxBase.Dns.Wire

/-!
# Name expansion

`Expands resp p ls`: the name at `p` expands to the labels `ls`, over pointers of 14 bits that go
backwards. `dnsParseName` should write these labels with dots between them. It differs in two ways:

* it takes only the low octet of a pointer, so it goes elsewhere if the offset is 256 or more;
* it writes a dot behind each label unless the next octet is zero, also in front of a pointer to the
  root.

`Near` says on the octets that neither happens, or that the octets elsewhere spell the same.
-/

namespace LinuxBase
namespace Dns

open Layout

/-- The name at `p` expands to `ls`. -/
inductive Expands (resp : List Byte) : Nat → List Label → Prop
  | root {p : Nat} (h : At resp p NameEnd.root.encode) : Expands resp p []
  | pointer {p : Nat} {offset : BitVec 14} {ls : List Label}
      (h : At resp p (NameEnd.pointer offset).encode) (hlt : offset.toNat < p)
      (hls : Expands resp offset.toNat ls) : Expands resp p ls
  | label {p : Nat} {l : Label} {ls : List Label} (h : At resp p l.encode)
      (hls : Expands resp (p + l.encode.length) ls) : Expands resp p (l :: ls)

/-- The pointers on the way have their targets below 256, or what is at the low octet spells the same
as the target, and no label ends with a pointer to the root. -/
inductive Near (resp : List Byte) : Nat → List Label → Prop
  | root {p : Nat} (h : At resp p NameEnd.root.encode) : Near resp p []
  | pointer {p : Nat} {offset : BitVec 14} {ls : List Label}
      (h : At resp p (NameEnd.pointer offset).encode) (hlow : offset.toNat < 256)
      (hls : Near resp offset.toNat ls) : Near resp p ls
  | far {p : Nat} {offset : BitVec 14} {ls : List Label}
      (h : At resp p (NameEnd.pointer offset).encode) (hfar : 256 ≤ offset.toNat)
      (hls : Spells resp (offset.toNat % 256) (dotted ls)) : Near resp p ls
  | label {p : Nat} {l : Label} {ls : List Label} (h : At resp p l.encode)
      (hend : ls = [] → resp[p + l.encode.length]? = some 0#8)
      (hls : Near resp (p + l.encode.length) ls) : Near resp p (l :: ls)

variable {resp : List Byte} {p : Nat} {offset : BitVec 14} {l : Label} {ls : List Label}
  {text : List Byte}

/-! ## Pointers -/

theorem isPointer_of_pointer (x : BitVec 6) : isPointer (0b11#2 ++ x).toNat = true := by
  have hall : ∀ i : Fin 64, isPointer (0b11#2 ++ BitVec.ofFin (w := 6) i).toNat = true := by decide
  exact hall x.toFin

theorem toNat_low (offset : BitVec 14) :
    (offset.extractLsb' 0 8).toNat = offset.toNat % 256 := by
  rw [BitVec.extractLsb'_toNat, Nat.shiftRight_zero]

theorem pointer_injective {offset offset' : BitVec 14}
    (h : (NameEnd.pointer offset).encode = (NameEnd.pointer offset').encode) : offset = offset' := by
  have hsplit : ∀ x : BitVec 14, x = x.extractLsb' 8 6 ++ x.extractLsb' 0 8 := fun x =>
    (@BitVec.extractLsb'_append_extractLsb' 6 8 x).symm
  simp only [NameEnd.encode, List.cons.injEq, and_true] at h
  have hhigh := congrArg (BitVec.extractLsb' 0 6) h.1
  simp only [BitVec.extractLsb'_append_eq_right] at hhigh
  rw [hsplit offset, hsplit offset', hhigh, h.2]

/-- `dnsParseName` goes to the low octet of a pointer. -/
theorem spells_pointer_of_at (h : At resp p (NameEnd.pointer offset).encode) :
    Spells resp p text ↔ Spells resp (offset.toNat % 256) text := by
  rw [← toNat_low]
  exact spells_pointer_iff h.head (isPointer_of_pointer _) h.tail.head

/-- The first octet says what the octets are. -/
theorem not_pointer_of_root (hr : At resp p NameEnd.root.encode) :
    ¬ At resp p (NameEnd.pointer offset).encode := by
  intro h
  have hp := isPointer_of_pointer (offset.extractLsb' 8 6)
  rw [← Option.some.inj (hr.head.symm.trans h.head)] at hp
  cases hp

theorem not_pointer_of_label (hl : At resp p l.encode) :
    ¬ At resp p (NameEnd.pointer offset).encode := by
  intro h
  have hp := isPointer_of_pointer (offset.extractLsb' 8 6)
  rw [← Option.some.inj (hl.head.symm.trans h.head), l.toNat_length] at hp
  exact not_isPointer l.length_le hp

theorem offset_unique {offset' : BitVec 14} (h : At resp p (NameEnd.pointer offset).encode)
    (h' : At resp p (NameEnd.pointer offset').encode) : offset = offset' := by
  have hlen : (NameEnd.pointer offset).encode.length = (NameEnd.pointer offset').encode.length := rfl
  refine pointer_injective ?_
  rw [← h.take_drop, hlen, h'.take_drop]

/-! ## What the octets say -/

theorem near_pointer_iff (h : At resp p (NameEnd.pointer offset).encode) :
    Near resp p ls ↔
      if offset.toNat < 256 then Near resp offset.toNat ls
      else Spells resp (offset.toNat % 256) (dotted ls) := by
  constructor
  · intro hn
    cases hn with
    | root hr => exact absurd h (not_pointer_of_root hr)
    | label hl => exact absurd h (not_pointer_of_label hl)
    | pointer h' hlow hls =>
      cases offset_unique h h'
      rwa [if_pos hlow]
    | far h' hfar hls =>
      cases offset_unique h h'
      rwa [if_neg (by omega)]
  · intro hn
    by_cases hlow : offset.toNat < 256
    · rw [if_pos hlow] at hn
      exact .pointer h hlow hn
    · rw [if_neg hlow] at hn
      exact .far h (by omega) hn

theorem near_label_iff (h : At resp p l.encode) :
    Near resp p (l :: ls) ↔
      (ls = [] → resp[p + l.encode.length]? = some 0#8) ∧ Near resp (p + l.encode.length) ls := by
  constructor
  · intro hn
    cases hn with
    | pointer h' | far h' => exact absurd h' (not_pointer_of_label h)
    | label _ hend hls => exact ⟨hend, hls⟩
  · exact fun ⟨hend, hls⟩ => .label h hend hls

/-- A name that expands to labels does not begin with a zero octet. -/
theorem Expands.head (h : Expands resp p ls) :
    ∃ b, resp[p]? = some b ∧ (b = 0#8 → ls = []) := by
  cases h with
  | root h => exact ⟨_, h.head, fun _ => rfl⟩
  | @pointer _ offset _ h =>
    refine ⟨_, h.head, fun h0 => ?_⟩
    have hp := isPointer_of_pointer (offset.extractLsb' 8 6)
    rw [h0] at hp
    cases hp
  | @label _ l _ h =>
    refine ⟨_, h.head, fun h0 => absurd ?_ l.length_ne_zero⟩
    rw [← l.toNat_length, h0]
    rfl

theorem spells_iff_near (h : Expands resp p ls) : Spells resp p (dotted ls) ↔ Near resp p ls := by
  induction h with
  | root h => exact iff_of_true (.root h.head) (.root h)
  | @pointer p offset ls h _ _ ih =>
    rw [spells_pointer_of_at h, near_pointer_iff h]
    by_cases hlow : offset.toNat < 256
    · rw [if_pos hlow, Nat.mod_eq_of_lt hlow, ih]
    · rw [if_neg hlow]
  | @label p l ls h hls ih =>
    obtain ⟨next, hnext, hzero⟩ := hls.head
    rw [spells_label_of_at h hnext, near_label_iff h, ← ih, dotted_cons, hnext]
    by_cases hnil : ls = []
    · -- A dot behind the last label is one too many.
      subst hnil
      by_cases h0 : next = 0#8
      · simp [h0, dotted]
      · simp [h0]
    · have h0 : next ≠ 0#8 := mt hzero hnil
      simp [hnil, h0]

/-- **Name expansion.** At a name that expands, `dnsParseName` writes exactly the labels with single
dots between them, and their length to `*len`, if and only if the name is `Near`. -/
theorem dnsParseName_expands_iff (h : Expands resp p ls) (old : Nat → Byte) :
    Returns (fun n => dnsParseName n resp p { data := old } 0)
      (Out.write { data := old } 0 (dotted ls), (dotted ls).length) ↔ Near resp p ls := by
  have hwrites : Returns (fun n => dnsParseName n resp p { data := old } 0)
      (Out.write { data := old } 0 (dotted ls), 0 + (dotted ls).length) ↔
        Spells resp p (dotted ls) := dnsParseName_writes_iff (Nat.zero_le _)
  rwa [Nat.zero_add, spells_iff_near h] at hwrites

/-- The label `c`. -/
def labelC : Label := ⟨[99], by decide, by decide⟩

/-- `b`, and a pointer to `c`. -/
theorem dnsParseName_expands_sample :
    let resp : List Byte := [1, 99, 0, 1, 98, 0xC0, 0]
    let b : Label := ⟨[98], by decide, by decide⟩
    Returns (fun n => dnsParseName n resp 3 { data := fun _ => 7 } 0)
      (Out.write { data := fun _ => 7 } 0 (dotted [b, labelC]), 3) := by
  intro resp b
  have hb : At resp 3 b.encode := ⟨[1, 99, 0], [0xC0, 0], rfl, rfl⟩
  have hp : At resp 5 (NameEnd.pointer 0).encode := ⟨[1, 99, 0, 1, 98], [], rfl, rfl⟩
  have ha : At resp 0 labelC.encode := ⟨[], [0, 1, 98, 0xC0, 0], rfl, rfl⟩
  have hr : At resp 2 NameEnd.root.encode := ⟨[1, 99], [1, 98, 0xC0, 0], rfl, rfl⟩
  have hexp : Expands resp 3 [b, labelC] :=
    .label hb (.pointer hp (by decide) (.label ha (.root hr)))
  refine (dnsParseName_expands_iff hexp _).mpr ?_
  exact .label hb nofun (.pointer hp (by decide) (.label ha (fun _ => rfl) (.root hr)))

/-- `c` and a pointer to the root, which is written with a dot behind it. -/
theorem dnsParseName_dot :
    let resp : List Byte := [0, 1, 99, 0xC0, 0]
    Expands resp 1 [labelC] ∧ ¬ Returns (fun n => dnsParseName n resp 1 { data := fun _ => 7 } 0)
      (Out.write { data := fun _ => 7 } 0 (dotted [labelC]), (dotted [labelC]).length) := by
  intro resp
  have hr : At resp 0 NameEnd.root.encode := ⟨[], [1, 99, 0xC0, 0], rfl, rfl⟩
  have ha : At resp 1 labelC.encode := ⟨[0], [0xC0, 0], rfl, rfl⟩
  have hp : At resp 3 (NameEnd.pointer 0).encode := ⟨[0, 1, 99], [], rfl, rfl⟩
  refine ⟨.label ha (.pointer hp (by decide) (.root hr)), ?_⟩
  rintro ⟨n, hn⟩
  have hlen : ∃ out, Returns (fun n => dnsParseName n resp 1 { data := fun _ => 7 } 0) (out, 2) :=
    ⟨_, 4, rfl⟩
  obtain ⟨out, h⟩ := hlen
  cases fueled_dnsParseName.returns_unique h ⟨n, hn⟩

end Dns
end LinuxBase
