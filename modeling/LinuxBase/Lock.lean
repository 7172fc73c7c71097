import LinuxBase.Lib.Tally
import LinuxBase.Lib.Trace
import Mathlib.Data.Fintype.Card

/-!
# Threads at one counter (`lock.c`)

The threads `ω` run `thread_callback` with the loop bound `n` on one `*count`. A step is one access to
memory, so the comparison and the store of `compare_and_swap` are two steps, with the steps of other
threads in between. An `int` that overflows is a `fault`.

`Undisturbed`: a store finds in `*count` what the comparison in front of it found. While this holds,
`*count` is the number of stores (`Counted`). The first store without it loses an increment, and no
later step brings it back: from then on all the values that the threads are about to store are too
small (`Behind`).
-/

namespace LinuxBase
namespace Lock

/-- `a + 1` as an `int`. -/
def increment (a : Nat) : Run Nat := if a < 0x7FFFFFFF then .ret (a + 1) else .fault

/-- Where a thread is. -/
inductive Place where
  /-- At the `old = *count` in front of the loop. -/
  | start
  /-- At `i++ < n`. -/
  | test
  /-- In `compare_and_swap`, at `*rest == oldV`. -/
  | compare
  /-- In `compare_and_swap`, at `*rest = newV`. -/
  | store (newV : Nat)
  /-- At the `old = *count` behind a `compare_and_swap` that returned -1. -/
  | reload
  | finished
  deriving DecidableEq

structure Thread where
  place : Place := .start
  i : Nat := 0
  old : Nat := 0

/-- `*count`, and the threads. -/
structure State (ω : Type) where
  count : Nat := 0
  thread : ω → Thread := fun _ => {}

variable {ω : Type} [DecidableEq ω]

/-- The thread `w` goes on as `t`. -/
@[simps] def State.move (s : State ω) (w : ω) (t : Thread) : State ω :=
  { s with thread := Function.update s.thread w t }

/-- The next step of `thread_callback`, and of the `compare_and_swap` in it, in the thread `w`. -/
def threadCallback (n : Nat) (w : ω) (s : State ω) : Run (State ω) :=
  let t := s.thread w
  match t.place with
  | .start => .ret (s.move w { t with place := .test, old := s.count })
  | .test => do
    let i ← increment t.i
    .ret (s.move w { t with place := if t.i < n then .compare else .finished, i })
  | .compare => do
    let newV ← increment t.old
    .ret (s.move w { t with place := if s.count = t.old then .store newV else .reload })
  | .store newV => .ret { s.move w { t with place := .test } with count := newV }
  | .reload => .ret (s.move w { t with place := .compare, old := s.count })
  | .finished => .ret s

def Place.isStore : Place → Bool
  | .store _ => true
  | _ => false

theorem Place.isStore_iff {p : Place} : p.isStore ↔ ∃ v, p = .store v := by
  cases p <;> simp [isStore]

/-- A store finds the counter as the comparison found it. -/
def Undisturbed (s : State ω) (w : ω) : Prop :=
  (s.thread w).place.isStore → s.count = (s.thread w).old

instance (s : State ω) : DecidablePred (Undisturbed s) :=
  fun w => inferInstanceAs (Decidable ((s.thread w).place.isStore → s.count = (s.thread w).old))

/-! ## What a step does -/

/-- The steps of the thread `w`, one constructor for each branch of the code. -/
inductive Move (n : Nat) (s : State ω) (w : ω) : State ω → Prop
  | start (hp : (s.thread w).place = .start) :
      Move n s w (s.move w { s.thread w with place := .test, old := s.count })
  | enter (hp : (s.thread w).place = .test) (hi : (s.thread w).i < n) :
      Move n s w (s.move w { s.thread w with place := .compare, i := (s.thread w).i + 1 })
  | leave (hp : (s.thread w).place = .test) (hi : ¬ (s.thread w).i < n) :
      Move n s w (s.move w { s.thread w with place := .finished, i := (s.thread w).i + 1 })
  | equal (hp : (s.thread w).place = .compare) (heq : s.count = (s.thread w).old) :
      Move n s w (s.move w { s.thread w with place := .store ((s.thread w).old + 1) })
  | differ (hp : (s.thread w).place = .compare) :
      Move n s w (s.move w { s.thread w with place := .reload })
  | store {newV : Nat} (hp : (s.thread w).place = .store newV) :
      Move n s w { s.move w { s.thread w with place := .test } with count := newV }
  | reload (hp : (s.thread w).place = .reload) :
      Move n s w (s.move w { s.thread w with place := .compare, old := s.count })
  | finished (hp : (s.thread w).place = .finished) : Move n s w s

variable {n : Nat} {s s' : State ω} {w : ω}

theorem increment_eq_ret {a b : Nat} (h : increment a = .ret b) : b = a + 1 := by
  unfold increment at h
  split at h
  · exact (Run.ret.inj h).symm
  · cases h

theorem move_of_step (h : threadCallback n w s = .ret s') : Move n s w s' := by
  unfold threadCallback at h
  dsimp only at h
  cases hp : (s.thread w).place with
  | start => rw [hp] at h; cases h; exact .start hp
  | test =>
    rw [hp] at h
    obtain ⟨i, hi, h⟩ := Run.bind_eq_ret.mp h
    cases h
    cases increment_eq_ret hi
    split
    · exact .enter hp ‹_›
    · exact .leave hp ‹_›
  | compare =>
    rw [hp] at h
    obtain ⟨newV, hv, h⟩ := Run.bind_eq_ret.mp h
    cases h
    cases increment_eq_ret hv
    split
    · exact .equal hp ‹_›
    · exact .differ hp
  | store newV => rw [hp] at h; cases h; exact .store hp
  | reload => rw [hp] at h; cases h; exact .reload hp
  | finished => rw [hp] at h; cases h; exact .finished hp

/-! ## The number of increments -/

/-- How many increments the thread has behind it. -/
def Thread.increments (t : Thread) : Nat :=
  match t.place with
  | .start | .test => t.i
  | .compare | .store _ | .reload | .finished => t.i - 1

/-- What a thread knows about its own variables. -/
@[grind] structure Thread.Ok (n : Nat) (t : Thread) : Prop where
  start : t.place = .start → t.i = 0
  test : t.place = .test → t.i ≤ n
  inside : t.place = .compare ∨ t.place = .reload ∨ (∃ v, t.place = .store v) →
    1 ≤ t.i ∧ t.i ≤ n
  store : ∀ v, t.place = .store v → v = t.old + 1
  finished : t.place = .finished → t.i = n + 1

theorem Thread.Ok.move (h : ∀ v, (s.thread v).Ok n) (hm : Move n s w s') (v : ω) :
    (s'.thread v).Ok n := by
  have hw := h w
  cases hm with
  | finished => exact h v
  | _ =>
    by_cases hv : v = w
    · subst hv
      simp only [State.move_thread, Function.update_self]
      constructor <;> grind
    · simpa only [State.move_thread, Function.update_of_ne hv] using h v

/-- A store that is pending was so before, or its comparison is this step. -/
theorem Move.pending (hm : Move n s w s') {u : ω} {v : Nat} (h : (s'.thread u).place = .store v) :
    (∃ x, (s.thread u).place = .store x ∧ (s'.thread u).old = (s.thread u).old) ∨
      (s'.thread u).old = s.count := by
  by_cases hu : u = w
  · subst hu
    cases hm with
    | finished hp => rw [hp] at h; cases h
    | equal hp heq => exact .inr (by simp [heq])
    | start | enter | leave | differ | store | reload => simp at h
  · refine .inl ⟨v, ?_⟩
    cases hm with
    | finished => exact ⟨h, rfl⟩
    | _ =>
      simp only [State.move_thread, Function.update_of_ne hu] at h ⊢
      exact ⟨h, trivial⟩

variable [Fintype ω]

/-- The increments of all threads. -/
def State.increments (s : State ω) : Nat := ∑ v, (s.thread v).increments

/-- A step of one thread in the sum. -/
theorem increments_move (t : Thread) :
    (s.move w t).increments + (s.thread w).increments = s.increments + t.increments :=
  sum_update Thread.increments s.thread w t

/-- No increment was lost. -/
structure Counted (n : Nat) (s : State ω) : Prop where
  ok : ∀ w, (s.thread w).Ok n
  count : s.count = s.increments
  old : ∀ w v, (s.thread w).place = .store v → (s.thread w).old ≤ s.increments

/-- An increment was lost, and no store that is pending makes up for it. -/
structure Behind (n : Nat) (s : State ω) : Prop where
  ok : ∀ w, (s.thread w).Ok n
  count : s.count < s.increments
  old : ∀ w v, (s.thread w).place = .store v → (s.thread w).old < s.increments

/-- A step counts an increment exactly if it is a store. -/
theorem Move.increments (hm : Move n s w s') (hok : ∀ v, (s.thread v).Ok n) :
    (s'.increments = s.increments ∧ s'.count = s.count ∧ ∀ v, (s.thread w).place ≠ .store v) ∨
      (s.thread w).place = .store s'.count ∧ s'.increments = s.increments + 1 := by
  have hw := hok w
  cases hm with
  | finished hp => exact .inl ⟨rfl, rfl, by simp [hp]⟩
  | @store newV hp =>
    have hsum := increments_move (s := s) (w := w) { s.thread w with place := .test }
    have hi := (hw.inside (.inr (.inr ⟨newV, hp⟩))).1
    have hbefore : (s.thread w).increments = (s.thread w).i - 1 := by simp [Thread.increments, hp]
    have hafter : Thread.increments { s.thread w with place := .test } = (s.thread w).i := rfl
    refine .inr ⟨hp, ?_⟩
    show (s.move w { s.thread w with place := .test }).increments = s.increments + 1
    omega
  | start hp | enter hp | leave hp | equal hp | differ hp | reload hp =>
    refine .inl ⟨?_, rfl, by simp [hp]⟩
    have hsum := increments_move (s := s) (w := w)
    have h0 := hw.start
    refine Nat.add_right_cancel ((hsum _).trans ?_)
    simp [Thread.increments, hp]

/-- A step that is not disturbed keeps the number. -/
theorem Counted.step (hi : Counted n s) (hu : Undisturbed s w) (hm : Move n s w s') :
    Counted n s' := by
  have hsum := hm.increments hi.ok
  have hcount := hi.count
  refine ⟨Thread.Ok.move hi.ok hm, ?_, fun u v h => ?_⟩
  · obtain ⟨h1, h2, -⟩ | ⟨hp, h1⟩ := hsum
    · omega
    · have := hu (by rw [hp]; rfl)
      have := (hi.ok w).store _ hp
      omega
  · obtain ⟨x, hx, hold⟩ | hold := hm.pending h
    · have := hi.old u x hx
      omega
    · omega

/-- A store that is disturbed loses an increment. -/
theorem Counted.lose (hi : Counted n s) (hu : ¬ Undisturbed s w) (hm : Move n s w s') :
    Behind n s' := by
  obtain ⟨hstore, hne⟩ := Classical.not_imp.mp hu
  obtain ⟨newV, hp⟩ := Place.isStore_iff.mp hstore
  have hcount := hi.count
  have hold := hi.old w newV hp
  have hnew := (hi.ok w).store newV hp
  obtain ⟨-, -, h⟩ | ⟨hp', hsum⟩ := hm.increments hi.ok
  · exact absurd hp (h newV)
  · cases hp.symm.trans hp'
    refine ⟨Thread.Ok.move hi.ok hm, by omega, fun u v h => ?_⟩
    obtain ⟨x, hx, hold'⟩ | hold' := hm.pending h
    · have := hi.old u x hx
      omega
    · omega

/-- A lost increment stays lost. -/
theorem Behind.step (hb : Behind n s) (hm : Move n s w s') : Behind n s' := by
  have hsum := hm.increments hb.ok
  have hcount := hb.count
  refine ⟨Thread.Ok.move hb.ok hm, ?_, fun u v h => ?_⟩
  · obtain ⟨h1, h2, -⟩ | ⟨hp, h1⟩ := hsum
    · omega
    · have := hb.old w _ hp
      have := (hb.ok w).store _ hp
      omega
  · obtain ⟨x, hx, hold⟩ | hold := hm.pending h
    · have := hb.old u x hx
      omega
    · omega

theorem counted_start {ω : Type} [Fintype ω] : Counted n ({} : State ω) where
  ok _ := ⟨fun _ => rfl, nofun, by simp, nofun, nofun⟩
  count := by simp [State.increments, Thread.increments]
  old _ _ h := nomatch h

/-- Finished threads have made all their increments. -/
theorem increments_of_finished {ω : Type} [Fintype ω] {s : State ω}
    (hok : ∀ w, (s.thread w).Ok n) (h : ∀ w, (s.thread w).place = .finished) :
    s.increments = Fintype.card ω * n := by
  have hn : ∀ w, (s.thread w).increments = n := by
    intro w
    have := (hok w).finished (h w)
    simp only [Thread.increments, h w]
    omega
  rw [State.increments, Finset.sum_congr rfl fun w _ => hn w, Finset.sum_const_nat fun _ _ => rfl,
    Finset.card_univ]

/-- **Increments.** For any number of threads and every interleaving of their accesses: when all
threads have finished, `*count` is the number of threads times `n` exactly if every store found the
counter as its comparison had found it. -/
theorem count_eq_iff {es : List ω} (h : exec (threadCallback n) es {} = .ret s)
    (hfin : ∀ w, (s.thread w).place = .finished) :
    s.count = Fintype.card ω * n ↔ Along (threadCallback n) Undisturbed {} es := by
  have hrun := exec_or (C := Undisturbed) (I := Counted n) (B := Behind n)
    (fun _ _ _ hi hu h => hi.step hu (move_of_step h))
    (fun _ _ _ hi hu h => hi.lose hu (move_of_step h))
    (fun _ _ _ hb h => hb.step (move_of_step h)) counted_start h
  obtain ⟨hi, hes⟩ | ⟨hb, hes⟩ := hrun
  · rw [hi.count, increments_of_finished hi.ok hfin]
    exact iff_of_true rfl hes
  · have hlt := hb.count
    rw [increments_of_finished hb.ok hfin] at hlt
    exact iff_of_false hlt.ne hes

/-- Two threads, one behind the other, count up to 2. -/
theorem count_eq_iff_sample :
    let es := List.replicate 5 (0 : Fin 2) ++ List.replicate 7 1
    ∃ s, exec (threadCallback 1) es {} = .ret s ∧ s.count = 2 := by
  intro es
  have h : exec (threadCallback 1) es {} = .ret _ := rfl
  exact ⟨_, h, (count_eq_iff h (by decide)).mpr (by decide)⟩

/-- Both threads find 0 before one of them stores, so an increment is lost. -/
theorem lost_increment :
    let es : List (Fin 2) := [0, 1, 0, 1, 0, 1, 0, 1, 0, 1]
    ∃ s, exec (threadCallback 1) es {} = .ret s ∧ (∀ w, (s.thread w).place = .finished) ∧
      s.count ≠ Fintype.card (Fin 2) * 1 :=
  ⟨_, rfl, by decide, by decide⟩

end Lock
end LinuxBase
