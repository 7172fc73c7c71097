import LinuxBase.BloomFilter.BitSet
import LinuxBase.BloomFilter.Hash
import Mathlib.Algebra.Group.Nat.Defs

/-!
# `BloomFilter<N, K, H1, H2, H3>` (`bloom-filter/bloomfilter.h`)

The filter for any key type and any three hash functors. `positions H N s` are the three bits of
the key `s`.

* `bit_exec`: after the keys `ks` were set, a bit is set exactly if it was set before or is a
  position of one of the keys. `membership` is the law of `test` that follows.
* `new mem`: the filter as constructed, on the memory `mem` that `new char[]` returned. The
  constructor does not clear it, so `noPhantom_iff` says for which memory the filter has no
  members that were not set.
-/

namespace LinuxBase

/-- The three hash functors of a filter; the results are `size_t`. -/
structure Hashes (K : Type) where
  h1 : K → BitVec 64
  h2 : K → BitVec 64
  h3 : K → BitVec 64

/-- The default functors, for `std::string` keys. -/
def stdHashes : Hashes (List (BitVec 8)) := ⟨hashBKDR, hashAP, hashDJB⟩

structure BloomFilter (N : Nat) where
  bitSet : BitSet N

namespace BloomFilter

variable {N : Nat} {K : Type} {H : Hashes K}

def set (H : Hashes K) (s : K) (f : BloomFilter N) : Run (BloomFilter N) := do
  let h1 := (H.h1 s).toNat % N
  let h2 := (H.h2 s).toNat % N
  let h3 := (H.h3 s).toNat % N
  let b ← f.bitSet.set h1
  let b ← b.set h2
  let b ← b.set h3
  .ret { bitSet := b }

def test (H : Hashes K) (s : K) (f : BloomFilter N) : Run Bool := do
  let h1 := (H.h1 s).toNat % N
  if !(← f.bitSet.test h1) then return false
  let h2 := (H.h2 s).toNat % N
  if !(← f.bitSet.test h2) then return false
  let h3 := (H.h3 s).toNat % N
  if !(← f.bitSet.test h3) then return false
  return true

/-- The filter that the default constructor makes of the memory `mem` for its array. -/
def new (N : Nat) (mem : Nat → BitVec 8) : BloomFilter N :=
  { bitSet := { bitArr := (List.range (bitSize N)).map mem, size_eq := by simp } }

/-- The three bits of a key. -/
def positions (H : Hashes K) (N : Nat) (s : K) : List Nat :=
  [(H.h1 s).toNat % N, (H.h2 s).toNat % N, (H.h3 s).toNat % N]

theorem positions_lt (hN : 0 < N) {s : K} {x : Nat} (hx : x ∈ positions H N s) : x < N := by
  simp only [positions, List.mem_cons, List.not_mem_nil, or_false] at hx
  rcases hx with rfl | rfl | rfl <;> exact Nat.mod_lt _ hN

/-! ## One call -/

theorem set_spec (hN : 0 < N) (s : K) (f : BloomFilter N) :
    ∃ f', f.set H s = .ret f' ∧
      ∀ y, f'.bitSet.bit y = true ↔ f.bitSet.bit y = true ∨ y ∈ positions H N s := by
  obtain ⟨b₁, hr₁, h₁⟩ := f.bitSet.set_spec (Nat.mod_lt (H.h1 s).toNat hN)
  obtain ⟨b₂, hr₂, h₂⟩ := b₁.set_spec (Nat.mod_lt (H.h2 s).toNat hN)
  obtain ⟨b₃, hr₃, h₃⟩ := b₂.set_spec (Nat.mod_lt (H.h3 s).toNat hN)
  refine ⟨{ bitSet := b₃ }, by simp [set, hr₁, hr₂, hr₃], fun y => ?_⟩
  simp [h₁, h₂, h₃, positions, or_assoc]

theorem test_spec (hN : 0 < N) (s : K) (f : BloomFilter N) :
    ∃ b, f.test H s = .ret b ∧ (b = true ↔ ∀ x ∈ positions H N s, f.bitSet.bit x = true) := by
  have t₁ := f.bitSet.test_spec (Nat.mod_lt (H.h1 s).toNat hN)
  have t₂ := f.bitSet.test_spec (Nat.mod_lt (H.h2 s).toNat hN)
  have t₃ := f.bitSet.test_spec (Nat.mod_lt (H.h3 s).toNat hN)
  simp only [test, t₁, t₂, t₃, Run.ret_bind, positions, List.forall_mem_cons]
  cases f.bitSet.bit ((H.h1 s).toNat % N) with
  | false => exact ⟨false, rfl, by simp⟩
  | true =>
    cases f.bitSet.bit ((H.h2 s).toNat % N) with
    | false => exact ⟨false, rfl, by simp⟩
    | true =>
      cases f.bitSet.bit ((H.h3 s).toNat % N) with
      | false => exact ⟨false, rfl, by simp⟩
      | true => exact ⟨true, rfl, by simp⟩

/-! ## A history of insertions -/

/-- The bits after the keys `ks` were set. -/
theorem bit_exec (hN : 0 < N) (ks : List K) (f : BloomFilter N) :
    ∃ f', exec (set H) ks f = .ret f' ∧ ∀ y, f'.bitSet.bit y = true ↔
      f.bitSet.bit y = true ∨ ∃ k ∈ ks, y ∈ positions H N k := by
  induction ks generalizing f with
  | nil => exact ⟨f, rfl, by simp⟩
  | cons k ks ih =>
    obtain ⟨f₁, hr₁, h₁⟩ := set_spec (H := H) hN k f
    obtain ⟨f', hr', h'⟩ := ih f₁
    refine ⟨f', by rw [exec_cons, hr₁]; exact hr', fun y => ?_⟩
    rw [h', h₁]
    simp [or_assoc]

/-- `test` after the keys `ks` were set. -/
theorem test_exec (hN : 0 < N) {ks : List K} {f f' : BloomFilter N}
    (hf : exec (set H) ks f = .ret f') (s : K) :
    ∃ b, f'.test H s = .ret b ∧ (b = true ↔ ∀ x ∈ positions H N s,
      f.bitSet.bit x = true ∨ ∃ k ∈ ks, x ∈ positions H N k) := by
  obtain ⟨f₁, hr, hb⟩ := bit_exec (H := H) hN ks f
  rw [hf] at hr
  cases hr
  obtain ⟨b, ht, hiff⟩ := test_spec (H := H) hN s f'
  exact ⟨b, ht, hiff.trans (forall₂_congr fun x _ => hb x)⟩

/-- **The membership law.** After any keys `ks` were set, `test s` is true exactly if each of the
three bits of `s` was set before or is a bit of a key of `ks`. So a key that was set is reported
present, and the answers depend only on the set of the keys. -/
theorem membership (hN : 0 < N) (H : Hashes K) (f : BloomFilter N) (ks : List K) :
    ∃ f', exec (set H) ks f = .ret f' ∧
      (∀ s, ∃ b, f'.test H s = .ret b ∧ (b = true ↔ ∀ x ∈ positions H N s,
        f.bitSet.bit x = true ∨ ∃ k ∈ ks, x ∈ positions H N k)) ∧
      (∀ s ∈ ks, f'.test H s = .ret true) ∧
      (∀ ks' f'', (∀ k, k ∈ ks' ↔ k ∈ ks) → exec (set H) ks' f = .ret f'' →
        ∀ s, f''.test H s = f'.test H s) := by
  obtain ⟨f', hr, -⟩ := bit_exec (H := H) hN ks f
  refine ⟨f', hr, test_exec hN hr, fun s hs => ?_, fun ks' f'' hks hr'' s => ?_⟩
  · obtain ⟨b, ht, hiff⟩ := test_exec hN hr s
    rw [ht, hiff.mpr fun x hx => .inr ⟨s, hs, hx⟩]
  · obtain ⟨b, ht, hiff⟩ := test_exec hN hr s
    obtain ⟨b'', ht'', hiff''⟩ := test_exec hN hr'' s
    simp only [hks] at hiff''
    rw [ht, ht'', Bool.eq_iff_iff.mpr (hiff''.trans hiff.symm)]

/-- The keys `ab` and `c` in a filter of ten bits. -/
theorem membership_small :
    ∃ f', exec (set stdHashes) [[97, 98], [99]] (new 10 fun _ => 0) = .ret f' ∧
      ∀ s ∈ [[97, 98], [99]], f'.test stdHashes s = .ret true :=
  let ⟨f', hr, _, hmem, _⟩ :=
    membership (by decide : 0 < 10) stdHashes (new 10 fun _ => 0) [[97, 98], [99]]
  ⟨f', hr, hmem⟩

/-! ## Members that were not set -/

/-- Every key that a filter on the memory `mem` reports present has its three bits from keys that
were set, and a new filter reports no key present. -/
def NoPhantom (H : Hashes K) (N : Nat) (mem : Nat → BitVec 8) : Prop :=
  (∀ ks f s, exec (set H) ks (new N mem) = .ret f → f.test H s = .ret true →
    ∀ x ∈ positions H N s, ∃ k ∈ ks, x ∈ positions H N k) ∧
  ∀ s, (new N mem).test H s = .ret false

/-- For any bits that keys without the bit `p` cover, a history of such keys covers them. -/
theorem exists_cover {p : Nat} {P : Nat → Prop} (l : List Nat)
    (h : ∀ q ∈ l, P q ∨ ∃ k, q ∈ positions H N k ∧ p ∉ positions H N k) :
    ∃ ks : List K, (∀ k ∈ ks, p ∉ positions H N k) ∧
      ∀ q ∈ l, P q ∨ ∃ k ∈ ks, q ∈ positions H N k := by
  induction l with
  | nil => exact ⟨[], by simp, by simp⟩
  | cons q l ih =>
    obtain ⟨ks, hks, hl⟩ := ih fun q' hq' => h q' (List.mem_cons_of_mem _ hq')
    rcases h q List.mem_cons_self with hq | ⟨k, hk, hp⟩
    · exact ⟨ks, hks, List.forall_mem_cons.mpr ⟨.inl hq, hl⟩⟩
    · refine ⟨k :: ks, List.forall_mem_cons.mpr ⟨hp, hks⟩, List.forall_mem_cons.mpr ⟨?_, ?_⟩⟩
      · exact .inr ⟨k, List.mem_cons_self, hk⟩
      · exact fun q' hq' => (hl q' hq').imp_right fun ⟨k', hk', h'⟩ =>
          ⟨k', List.mem_cons_of_mem _ hk', h'⟩

/-- Each bit `p` of a key `s` that the memory has set is masked: some bit of `s` is clear in the
memory, and no key sets it without setting `p` too. -/
def Masked (H : Hashes K) (N : Nat) (mem : Nat → BitVec 8) : Prop :=
  ∀ s, ∀ p ∈ positions H N s, (new N mem).bitSet.bit p = true →
    ∃ q ∈ positions H N s, (new N mem).bitSet.bit q = false ∧
      ∀ k, q ∈ positions H N k → p ∈ positions H N k

theorem Masked.noPhantom (hN : 0 < N) {mem : Nat → BitVec 8} (h : Masked H N mem) :
    NoPhantom H N mem := by
  have hset : ∀ ks f s, exec (set H) ks (new N mem) = .ret f → f.test H s = .ret true →
      ∀ x ∈ positions H N s, ∃ k ∈ ks, x ∈ positions H N k := by
    intro ks f s hr ht p hp
    obtain ⟨b, ht', hiff⟩ := test_exec hN hr s
    rw [ht] at ht'
    cases ht'
    have hall := hiff.mp rfl
    rcases hall p hp with hb | hk
    · obtain ⟨q, hq, hqb, himp⟩ := h s p hp hb
      obtain ⟨k, hk, hqk⟩ := (hall q hq).resolve_left (by simp [hqb])
      exact ⟨k, hk, himp k hqk⟩
    · exact hk
  refine ⟨hset, fun s => ?_⟩
  obtain ⟨b, ht, -⟩ := test_spec (H := H) hN s (new N mem)
  cases b with
  | false => exact ht
  | true =>
    obtain ⟨k, hk, -⟩ := hset [] _ s rfl ht _ List.mem_cons_self
    cases hk

theorem NoPhantom.masked (hN : 0 < N) {mem : Nat → BitVec 8} (h : NoPhantom H N mem) :
    Masked H N mem := by
  intro s p hp _
  refine Classical.byContradiction fun hno => ?_
  obtain ⟨ks, hks, hcov⟩ := exists_cover (H := H) (N := N) (p := p)
    (P := fun q => (new N mem).bitSet.bit q = true) (positions H N s) fun q hq => by
      by_cases hb : (new N mem).bitSet.bit q = true
      · exact .inl hb
      · refine .inr (Classical.byContradiction fun hk => hno ⟨q, hq, by simpa using hb, ?_⟩)
        exact fun k hqk => Classical.byContradiction fun hpk => hk ⟨k, hqk, hpk⟩
  -- After the keys `ks` the key `s` is reported present, but none of them has the bit `p`.
  obtain ⟨f, hr, -⟩ := bit_exec (H := H) hN ks (new N mem)
  obtain ⟨b, ht, hiff⟩ := test_exec hN hr s
  rw [hiff.mpr hcov] at ht
  obtain ⟨k, hk, hpk⟩ := h.1 ks f s hr ht p hp
  exact hks k hk hpk

/-- **No phantom members, exactly.** The filter has none exactly if every bit of a key that its
memory has set is masked. -/
theorem noPhantom_iff (hN : 0 < N) (H : Hashes K) (mem : Nat → BitVec 8) :
    NoPhantom H N mem ↔ Masked H N mem :=
  ⟨NoPhantom.masked hN, Masked.noPhantom hN⟩

theorem noPhantom_iff_zero : NoPhantom stdHashes 10 (fun _ => 0) ↔ Masked stdHashes 10 fun _ => 0 :=
  noPhantom_iff (by decide) stdHashes fun _ => 0

/-- On memory of ones, a new filter reports the key `a` present. -/
theorem phantom_of_ones : ¬ NoPhantom stdHashes 10 fun _ => 0xff := by
  rintro ⟨-, hnew⟩
  have htest : (new 10 fun _ => 0xff).test stdHashes [97] = .ret true := by decide
  rw [hnew [97]] at htest
  cases htest

/-- Functors that send every key to the bit `x`. -/
def constHashes (x : Nat) : Hashes Unit :=
  ⟨fun _ => BitVec.ofNat 64 x, fun _ => BitVec.ofNat 64 x, fun _ => BitVec.ofNat 64 x⟩

theorem positions_constHashes {x : Nat} (hx : x < N) (hN64 : N ≤ 2 ^ 64) :
    positions (constHashes x) N () = [x, x, x] := by
  simp only [positions, constHashes, BitVec.toNat_ofNat, Nat.mod_eq_of_lt (show x < 2 ^ 64 by omega),
    Nat.mod_eq_of_lt hx]

/-- Whatever the functors are, there are no phantom members exactly on clear memory. -/
theorem forall_noPhantom_iff (hN : 0 < N) (hN64 : N ≤ 2 ^ 64) (mem : Nat → BitVec 8) :
    (∀ (K : Type) (H : Hashes K), NoPhantom H N mem) ↔
      ∀ x, x < N → (new N mem).bitSet.bit x = false := by
  constructor
  · intro h x hx
    have hpos := positions_constHashes hx hN64
    have hnew := (h Unit (constHashes x)).2 ()
    obtain ⟨b, ht, hiff⟩ := test_spec (H := constHashes x) hN () (new N mem)
    rw [hnew] at ht
    cases ht
    rw [hpos] at hiff
    simpa using hiff
  · intro hclear K H
    refine Masked.noPhantom hN fun s p hp hb => ?_
    rw [hclear p (positions_lt hN hp)] at hb
    cases hb

end BloomFilter
end LinuxBase
