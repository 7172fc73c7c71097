/-!
# Runs of C code with bounded fuel

`Run α` is what a piece of C code does when it gets a bounded number of loop iterations:

* `ret a`: it returned `a`;
* `fault`: it left the defined behaviour (it read outside an object, used a dead block, ...);
* `more`: the fuel ended first.

A loop of the source is a function of its fuel, `f : Nat → Run α`. `Returns f a` and
`Terminates f` say that some fuel is enough, and `NoFault f` says that none leads to a fault.
`Fueled f` says that fuel is only a bound, so that two fuels that are enough give the same result
(`Fueled.returns_unique`). `Run.Sim` compares a run with a specification that needs no fuel, and
`Run.Post` is partial correctness: it speaks of what was returned, if something was.
-/

namespace LinuxBase

/-- A byte of memory: a `char`, or an `unsigned char`. -/
abbrev Byte := BitVec 8

/-- The result of a run with bounded fuel (module doc). -/
inductive Run (α : Type) where
  | ret (a : α)
  | fault
  | more
  deriving DecidableEq, Repr

namespace Run

variable {α β : Type}

/-- Run `x`, then `f` on what it returned. -/
def bind (x : Run α) (f : α → Run β) : Run β :=
  match x with
  | .ret a => f a
  | .fault => .fault
  | .more => .more

instance : Monad Run where
  pure := .ret
  bind := Run.bind

@[simp] theorem pure_eq (a : α) : (pure a : Run α) = .ret a := rfl
@[simp] theorem ret_bind (a : α) (f : α → Run β) : (Run.ret a >>= f) = f a := rfl
@[simp] theorem fault_bind (f : α → Run β) : ((Run.fault : Run α) >>= f) = .fault := rfl
@[simp] theorem more_bind (f : α → Run β) : ((Run.more : Run α) >>= f) = .more := rfl

instance : LawfulMonad Run :=
  LawfulMonad.mk' Run (fun x => by cases x <;> rfl) (fun _ _ => rfl)
    (fun x _ _ => by cases x <;> rfl)

theorem ret_ne_fault (a : α) : Run.ret a ≠ .fault := nofun

/-- A sequence returns exactly when both parts do. -/
theorem bind_eq_ret {x : Run α} {f : α → Run β} {b : β} :
    (x >>= f) = .ret b ↔ ∃ a, x = .ret a ∧ f a = .ret b := by
  cases x <;> simp

theorem bind_eq_more {x : Run α} {f : α → Run β} :
    (x >>= f) = .more ↔ x = .more ∨ ∃ a, x = .ret a ∧ f a = .more := by
  cases x <;> simp

/-- A sequence that ended, after a change of what follows where that ended. -/
theorem bind_stable {x : Run α} {f g : α → Run β} (hn : (x >>= f) ≠ .more)
    (h : ∀ a, f a ≠ .more → g a = f a) : (x >>= g) = (x >>= f) := by
  cases x with
  | ret a => exact h a hn
  | fault => rfl
  | more => rfl

/-- A choice that ended, after a change of both sides where they ended. -/
theorem ite_stable {P : Prop} [Decidable P] {x x' y y' : Run α} (hn : (if P then x else y) ≠ .more)
    (hx : x ≠ .more → x' = x) (hy : y ≠ .more → y' = y) :
    (if P then x' else y') = if P then x else y := by
  by_cases h : P
  · rw [if_pos h] at hn
    rw [if_pos h, if_pos h]
    exact hx hn
  · rw [if_neg h] at hn
    rw [if_neg h, if_neg h]
    exact hy hn

/-- A sequence ends if both parts do, the second one from what the first one returned. -/
theorem bind_ne_more_of_ret {x : Run α} {f : α → Run β} (hx : x ≠ .more)
    (hf : ∀ a, x = .ret a → f a ≠ .more) : (x >>= f) ≠ .more := by
  intro h
  rcases bind_eq_more.mp h with h | ⟨a, ha, h⟩
  · exact hx h
  · exact hf a ha h

theorem bind_ne_more {x : Run α} {f : α → Run β} (hx : x ≠ .more) (hf : ∀ a, f a ≠ .more) :
    (x >>= f) ≠ .more :=
  bind_ne_more_of_ret hx fun a _ => hf a

/-- A read that has a value only where the object has one. -/
def ofOption : Option α → Run α
  | some a => .ret a
  | none => .fault

@[simp] theorem ofOption_some (a : α) : ofOption (some a) = .ret a := rfl
@[simp] theorem ofOption_none : ofOption (none : Option α) = .fault := rfl

theorem ofOption_eq_ret {x : Option α} {a : α} : ofOption x = .ret a ↔ x = some a := by
  cases x <;> simp

/-- If `x` returns, then something with `P`. -/
def Post (x : Run α) (P : α → Prop) : Prop := ∀ a, x = .ret a → P a

theorem Post.ret {P : α → Prop} {a : α} (h : P a) : Post (.ret a) P := by
  rintro _ ⟨⟩
  exact h

theorem Post.fault (P : α → Prop) : Post .fault P := nofun

theorem Post.more (P : α → Prop) : Post .more P := nofun

theorem Post.bind {P : α → Prop} {Q : β → Prop} {x : Run α} {f : α → Run β} (hx : Post x P)
    (hf : ∀ a, P a → Post (f a) Q) : Post (x >>= f) Q := by
  intro b hb
  obtain ⟨a, ha, hb⟩ := bind_eq_ret.mp hb
  exact hf a (hx a ha) b hb

/-- Nothing needs to be known of the first part. -/
theorem Post.after {Q : β → Prop} {x : Run α} {f : α → Run β} (hf : ∀ a, Post (f a) Q) :
    Post (x >>= f) Q :=
  have hx : Post x fun _ => True := fun _ _ => trivial
  hx.bind fun a _ => hf a

/-- Two runs that do the same, up to `R` on what they return. -/
inductive Rel (R : α → β → Prop) : Run α → Run β → Prop
  | ret {a : α} {b : β} : R a b → Rel R (.ret a) (.ret b)
  | fault : Rel R .fault .fault
  | more : Rel R .more .more

theorem Rel.of_ret {R : α → β → Prop} {x : Run α} {b : β} (h : Rel R x (.ret b)) :
    ∃ a, x = .ret a ∧ R a b := by
  cases h with
  | ret hr => exact ⟨_, rfl, hr⟩

theorem Rel.ne_more {R : α → β → Prop} {x : Run α} {y : Run β} (h : Rel R x y) (hy : y ≠ .more) :
    x ≠ .more := by
  cases h with
  | ret => exact nofun
  | fault => exact nofun
  | more => exact absurd rfl hy

theorem Rel.bind {α' β' : Type} {R : α → β → Prop} {S : α' → β' → Prop} {x : Run α} {y : Run β}
    {f : α → Run α'} {g : β → Run β'} (h : Rel R x y) (hf : ∀ a b, R a b → Rel S (f a) (g b)) :
    Rel S (x >>= f) (y >>= g) := by
  cases h with
  | ret hr => exact hf _ _ hr
  | fault => exact .fault
  | more => exact .more

theorem Rel.eq {x y : Run α} (h : Rel Eq x y) : x = y := by
  cases h with
  | ret hr => rw [hr]
  | fault => rfl
  | more => rfl

/-- `x` does what `y` does, up to `R`, unless its fuel ended, which `enough` rules out. -/
def Sim (enough : Prop) (R : α → β → Prop) (x : Run α) (y : Run β) : Prop :=
  x = .more ∧ ¬ enough ∨ Rel R x y

theorem Sim.rel {enough : Prop} {R : α → β → Prop} {x : Run α} {y : Run β}
    (h : Sim enough R x y) (he : enough) : Rel R x y :=
  h.resolve_left fun hm => hm.2 he

/-- A simulated run that returned. -/
theorem Sim.of_eq_ret {enough : Prop} {R : α → β → Prop} {x : Run α} {y : Run β} {a : α}
    (h : Sim enough R x y) (hx : x = .ret a) : ∃ b, y = .ret b ∧ R a b := by
  rcases h with ⟨hm, -⟩ | h
  · rw [hm] at hx; cases hx
  · subst hx
    cases h with
    | ret hr => exact ⟨_, rfl, hr⟩

/-- The consequence rule. -/
theorem Sim.imp {enough enough' : Prop} {R S : α → β → Prop} {x : Run α} {y : Run β}
    (h : Sim enough R x y) (he : enough' → enough) (hRS : ∀ a b, R a b → S a b) :
    Sim enough' S x y := by
  rcases h with ⟨hm, hn⟩ | h
  · exact .inl ⟨hm, fun h' => hn (he h')⟩
  · cases h with
    | ret hr => exact .inr (.ret (hRS _ _ hr))
    | fault => exact .inr .fault
    | more => exact .inr .more

theorem Sim.bind {enough : Prop} {α' β' : Type} {R : α → β → Prop} {S : α' → β' → Prop}
    {x : Run α} {y : Run β} {f : α → Run α'} {g : β → Run β'} (h : Sim enough R x y)
    (hf : ∀ a b, R a b → Sim enough S (f a) (g b)) : Sim enough S (x >>= f) (y >>= g) := by
  rcases h with ⟨hm, he⟩ | h
  · exact .inl ⟨by rw [hm]; rfl, he⟩
  · cases h with
    | ret hr => exact hf _ _ hr
    | fault => exact .inr .fault
    | more => exact .inr .more

/-- The specification goes on with `g`, which the run does not need. -/
theorem Sim.ret_right {enough enough' : Prop} {β' : Type} {R : α → β → Prop} {S : α → β' → Prop}
    {x : Run α} {y : Run β} {g : β → β'} (he : enough' → enough) (h : Sim enough R x y)
    (hg : ∀ a b, R a b → S a (g b)) : Sim enough' S x (y >>= fun b => .ret (g b)) := by
  rcases h with ⟨hm, hn⟩ | h
  · exact .inl ⟨hm, fun h' => hn (he h')⟩
  · refine .inr ?_
    cases h with
    | ret hr => exact .ret (hg _ _ hr)
    | fault => exact .fault
    | more => exact .more

/-- The run goes on with `f`, which the specification does not need. -/
theorem Sim.ret_left {enough : Prop} {α' : Type} {R : α → β → Prop} {S : α' → β → Prop}
    {x : Run α} {y : Run β} {f : α → α'} (h : Sim enough R x y) (hf : ∀ a b, R a b → S (f a) b) :
    Sim enough S (x >>= fun a => .ret (f a)) y := by
  rcases h with ⟨hm, hn⟩ | h
  · exact .inl ⟨by rw [hm]; rfl, hn⟩
  · refine .inr ?_
    cases h with
    | ret hr => exact .ret (hf _ _ hr)
    | fault => exact .fault
    | more => exact .more

/-- The relation may use what the specification returned. -/
theorem Sim.eq_ret {enough : Prop} {R : α → β → Prop} {x : Run α} {y : Run β}
    (h : Sim enough R x y) : Sim enough (fun a b => R a b ∧ y = .ret b) x y := by
  rcases h with h | h
  · exact .inl h
  · refine .inr ?_
    cases h with
    | ret hr => exact .ret ⟨hr, rfl⟩
    | fault => exact .fault
    | more => exact .more

/-- Both sides run `z` first. -/
theorem Sim.bind_same {enough : Prop} {γ : Type} {R : α → β → Prop} (z : Run γ)
    {f : γ → Run α} {g : γ → Run β} (hf : ∀ c, z = .ret c → Sim enough R (f c) (g c)) :
    Sim enough R (z >>= f) (z >>= g) := by
  cases z with
  | ret c => exact hf c rfl
  | fault => exact .inr .fault
  | more => exact .inr .more

end Run

/-! ## Fuel -/

section Fuel

variable {α β : Type}

/-- Some fuel lets `f` return `a`. -/
def Returns (f : Nat → Run α) (a : α) : Prop := ∃ fuel, f fuel = .ret a

/-- Some fuel lets `f` end: it returns, or it leaves the defined behaviour. -/
def Terminates (f : Nat → Run α) : Prop := ∃ fuel, f fuel ≠ .more

/-- Fuel is only a bound: one more unit does not change a run that has ended. -/
def Fueled (f : Nat → Run α) : Prop := ∀ n, f n ≠ .more → f (n + 1) = f n

theorem Fueled.stable {f : Nat → Run α} (hf : Fueled f) {n m : Nat} (hn : f n ≠ .more)
    (h : n ≤ m) : f m = f n := by
  induction h with
  | refl => rfl
  | step _ ih => rw [hf _ (by rw [ih]; exact hn), ih]

theorem Fueled.returns_unique {f : Nat → Run α} (hf : Fueled f) {a b : α} (ha : Returns f a)
    (hb : Returns f b) : a = b := by
  obtain ⟨n, hn⟩ := ha
  obtain ⟨m, hm⟩ := hb
  have h1 := hf.stable (m := max n m) (by rw [hn]; simp) (Nat.le_max_left _ _)
  have h2 := hf.stable (m := max n m) (by rw [hm]; simp) (Nat.le_max_right _ _)
  rw [h1, hn, hm] at h2
  exact Run.ret.inj h2

/-- A run that ended in another way does not return. -/
theorem Fueled.not_returns {f : Nat → Run α} (hf : Fueled f) {r : Run α} {n : Nat}
    (hn : f n = r) (hr : r ≠ .more) {a : α} (ha : r ≠ .ret a) : ¬ Returns f a := by
  rintro ⟨m, hm⟩
  have h1 := hf.stable (m := max n m) (by rw [hn]; exact hr) (Nat.le_max_left _ _)
  have h2 := hf.stable (m := max n m) (by rw [hm]; simp) (Nat.le_max_right _ _)
  rw [h1, hn, hm] at h2
  exact ha h2

theorem fueled_const (x : Run α) : Fueled fun _ => x := fun _ _ => rfl

theorem Fueled.bind {f : Nat → Run α} {g : Nat → α → Run β} (hf : Fueled f)
    (hg : ∀ a, Fueled fun n => g n a) : Fueled fun n => f n >>= g n := by
  intro n hn
  simp only at hn ⊢
  have hfn : f n ≠ .more := fun h => by rw [h] at hn; exact hn rfl
  rw [hf n hfn]
  cases h : f n with
  | ret a => rw [h] at hn; exact hg a n hn
  | fault => rfl
  | more => exact absurd h hfn

/-- A fuel that is enough for two runs. -/
theorem Returns.both {f : Nat → Run α} {g : Nat → Run β} (hf : Fueled f) (hg : Fueled g) {a : α}
    {b : β} (ha : Returns f a) (hb : Returns g b) : ∃ n, f n = .ret a ∧ g n = .ret b := by
  obtain ⟨n, hn⟩ := ha
  obtain ⟨m, hm⟩ := hb
  refine ⟨max n m, ?_, ?_⟩
  · rw [hf.stable (by rw [hn]; simp) (Nat.le_max_left _ _), hn]
  · rw [hg.stable (by rw [hm]; simp) (Nat.le_max_right _ _), hm]

/-- A sequence returns `b` exactly when its first part returns some `a` from which the rest
returns `b`. -/
theorem returns_bind {f : Nat → Run α} {g : Nat → α → Run β} (hf : Fueled f)
    (hg : ∀ a, Fueled fun n => g n a) {b : β} :
    Returns (fun n => f n >>= g n) b ↔ ∃ a, Returns f a ∧ Returns (fun n => g n a) b := by
  constructor
  · rintro ⟨n, hn⟩
    obtain ⟨a, ha, hb⟩ := Run.bind_eq_ret.mp hn
    exact ⟨a, ⟨n, ha⟩, ⟨n, hb⟩⟩
  · rintro ⟨a, ha, hb⟩
    obtain ⟨n, hn, hm⟩ := ha.both hf (hg a) hb
    exact ⟨n, Run.bind_eq_ret.mpr ⟨a, hn, hm⟩⟩

theorem returns_map {f : Nat → Run α} {g : α → β} {b : β} :
    Returns (fun n => f n >>= fun a => .ret (g a)) b ↔ ∃ a, Returns f a ∧ g a = b := by
  constructor
  · rintro ⟨n, hn⟩
    obtain ⟨a, ha, hb⟩ := Run.bind_eq_ret.mp hn
    exact ⟨a, ⟨n, ha⟩, Run.ret.inj hb⟩
  · rintro ⟨a, ⟨n, hn⟩, rfl⟩
    exact ⟨n, Run.bind_eq_ret.mpr ⟨a, hn, rfl⟩⟩

/-- No fuel lets `f` leave the defined behaviour. -/
def NoFault (f : Nat → Run α) : Prop := ∀ fuel, f fuel ≠ .fault

theorem noFault_const {x : Run α} : NoFault (fun _ => x) ↔ x ≠ .fault :=
  ⟨fun h => h 0, fun h _ => h⟩

/-- A sequence does not fault exactly when its first part does not, and neither does the rest from
what the first part may return. -/
theorem noFault_bind {f : Nat → Run α} {g : Nat → α → Run β} (hf : Fueled f)
    (hg : ∀ a, Fueled fun n => g n a) :
    NoFault (fun n => f n >>= g n) ↔
      NoFault f ∧ ∀ a, Returns f a → NoFault fun n => g n a := by
  constructor
  · refine fun h => ⟨fun n hn => h n (by simp only [hn, Run.fault_bind]), ?_⟩
    rintro a ⟨n, hn⟩ m hm
    simp only at hm
    -- With the greater fuel both parts do the same again.
    have h1 := hf.stable (m := max n m) (by rw [hn]; simp) (Nat.le_max_left _ _)
    have h2 := (hg a).stable (m := max n m) (by rw [hm]; simp) (Nat.le_max_right _ _)
    refine h (max n m) ?_
    simp only [h1, hn, Run.ret_bind, h2, hm]
  · rintro ⟨h1, h2⟩ n hn
    simp only at hn
    cases hfn : f n with
    | ret a => rw [hfn] at hn; exact h2 a ⟨n, hfn⟩ n hn
    | fault => exact h1 n hfn
    | more => rw [hfn] at hn; cases hn

theorem noFault_map {f : Nat → Run α} {g : α → β} :
    NoFault (fun n => f n >>= fun a => .ret (g a)) ↔ NoFault f := by
  refine forall_congr' fun n => not_congr ?_
  cases h : f n <;> simp [h]

end Fuel

end LinuxBase
