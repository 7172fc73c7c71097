import LinuxBase.Lock
import Mathlib.Algebra.Order.BigOperators.Group.Finset
import Mathlib.Data.Fintype.EquivFin

/-!
# Which counts the threads of `lock.c` can end with

With at least two threads of `n` iterations each, `*count` can end as anything between 2 and the number
of all iterations (as 0 or from 1 on, if `n` is 0 or 1), and as nothing else (`final_counts`).

* **Bounds**: no increment is counted twice (`Counted`, `Behind`). A store behind the first one of its
  thread found at least 1 (`Floor`), so what it stores is at least 2.
* **Runs**: `Ready` is a thread between two iterations. Threads can go on one after the other
  (`reaches_each`): an iteration that no other thread disturbs counts 1, whatever the thread has in
  `old`. A thread that stops in front of its store takes back what the others count in the meantime.
-/

namespace LinuxBase
namespace Lock

open Finset

variable {ω : Type} [DecidableEq ω] {n K : Nat} {s s₁ s₂ s' : State ω} {w : ω}

/-! ## Bounds -/

/-- The increments of a thread change by its own stores only. -/
theorem Move.thread_increments (hm : Move n s w s') (hok : (s.thread w).Ok n) (u : ω) :
    (s'.thread u).increments =
      (s.thread u).increments + if u = w ∧ (s.thread w).place.isStore then 1 else 0 := by
  by_cases hu : u = w
  · subst hu
    have h0 := hok.start
    cases hm with
    | finished hp => simp [hp, Place.isStore]
    | @store newV hp =>
      have hi := (hok.inside (.inr (.inr ⟨newV, hp⟩))).1
      simp only [State.move_thread, Function.update_self, Thread.increments, hp, Place.isStore,
        true_and, if_true]
      omega
    | start hp | enter hp | leave hp | equal hp | differ hp | reload hp =>
      simp [Thread.increments, hp, Place.isStore]
  · rw [if_neg fun h => hu h.1, Nat.add_zero]
    cases hm with
    | finished => rfl
    | _ => simp only [State.move_thread, Function.update_of_ne hu]

/-- Behind the first increment of a thread the counter is not 0, and neither is what the thread
compares with; a counter of 1 leaves some thread at its first increment. -/
structure Floor (n : Nat) (s : State ω) : Prop where
  ok : ∀ w, (s.thread w).Ok n
  count : ∀ w, 1 ≤ (s.thread w).increments → 1 ≤ s.count
  old : ∀ w v, (s.thread w).place = .store v → 1 ≤ (s.thread w).increments → 1 ≤ (s.thread w).old
  first : s.count ≤ 1 → ∃ w, (s.thread w).increments ≤ 1

/-- A store writes the counter, and nothing else does. -/
theorem Move.count (hm : Move n s w s') :
    s'.count = s.count ∧ (s.thread w).place.isStore = false ∨
      (s.thread w).place = .store s'.count ∧ (s'.thread w).place = .test := by
  cases hm with
  | store hp => exact .inr ⟨hp, by simp⟩
  | finished hp | start hp | enter hp | leave hp | equal hp | differ hp | reload hp =>
    exact .inl ⟨rfl, by rw [hp]; rfl⟩

theorem Floor.step (h : Floor n s) (hm : Move n s w s') : Floor n s' := by
  have hinc := hm.thread_increments (h.ok w)
  refine ⟨Thread.Ok.move h.ok hm, ?_, ?_, ?_⟩ <;> obtain ⟨hcount, hno⟩ | ⟨hp, htest⟩ := hm.count
  · intro u hu
    rw [hinc, hno] at hu
    rw [hcount]
    exact h.count u (by simpa using hu)
  · intro u hu
    have := (h.ok w).store _ hp
    omega
  · intro u v hv hu
    rw [hinc, hno] at hu
    have hu : 1 ≤ (s.thread u).increments := by simpa using hu
    obtain ⟨x, hx, hold⟩ | hold := hm.pending hv
    · rw [hold]; exact h.old u x hx hu
    · rw [hold]; exact h.count u hu
  · intro u v hv hu
    have huw : u ≠ w := by rintro rfl; rw [htest] at hv; cases hv
    rw [hinc, if_neg fun h => huw h.1, Nat.add_zero] at hu
    obtain ⟨x, hx, hold⟩ | hold := hm.pending hv
    · rw [hold]; exact h.old u x hx hu
    · rw [hold]; exact h.count u hu
  · intro hle
    obtain ⟨u, hu⟩ := h.first (hcount ▸ hle)
    exact ⟨u, by rw [hinc, hno]; simpa using hu⟩
  · intro hle
    -- The thread found 0, so this is its first increment.
    have hstore := (h.ok w).store _ hp
    refine ⟨w, ?_⟩
    rw [hinc, hp, if_pos ⟨rfl, rfl⟩]
    have hold := h.old w _ hp
    omega

theorem floor_start {ω : Type} [Nonempty ω] : Floor n ({} : State ω) where
  ok _ := ⟨fun _ => rfl, nofun, by simp, nofun, nofun⟩
  count _ h := nomatch h
  old _ _ h := nomatch h
  first _ := ⟨Classical.arbitrary ω, by simp [Thread.increments]⟩

/-- The bounds of the counter when all threads have finished. -/
theorem count_bounds [Fintype ω] [Nonempty ω] {es : List ω} (h : exec (threadCallback n) es {} = .ret s)
    (hfin : ∀ w, (s.thread w).place = .finished) :
    min n 2 ≤ s.count ∧ s.count ≤ Fintype.card ω * n := by
  have hfloor : Floor n s := exec_invariant (P := fun _ _ => True)
    (fun _ _ _ hi _ h => hi.step (move_of_step h)) floor_start (along_of_mem fun _ _ => trivial) h
  have hn : ∀ w, (s.thread w).increments = n := by
    intro w
    have := (hfloor.ok w).finished (hfin w)
    simp only [Thread.increments, hfin w]
    omega
  refine ⟨?_, ?_⟩
  · obtain ⟨w⟩ := ‹Nonempty ω›
    have hw := hfloor.count w
    rw [hn w] at hw
    by_cases h1 : s.count ≤ 1
    · obtain ⟨u, hu⟩ := hfloor.first h1
      rw [hn u] at hu
      omega
    · omega
  · have hrun := exec_or (C := Undisturbed) (I := Counted n) (B := Behind n)
      (fun _ _ _ hi hu h => hi.step hu (move_of_step h))
      (fun _ _ _ hi hu h => hi.lose hu (move_of_step h))
      (fun _ _ _ hb h => hb.step (move_of_step h)) counted_start h
    obtain ⟨hi, -⟩ | ⟨hb, -⟩ := hrun
    · rw [hi.count, increments_of_finished hi.ok hfin]
    · have hlt := hb.count
      rw [increments_of_finished hb.ok hfin] at hlt
      exact hlt.le

/-! ## Threads one after the other -/

/-- What some interleaving leads to. -/
abbrev Reaches (n : Nat) : State ω → State ω → Prop := Leads (threadCallback n) fun _ _ => True

theorem Reaches.move (h : Reaches n s s₁) (hr : threadCallback n w s₁ = .ret s₂) : Reaches n s s₂ :=
  @Leads.next _ _ (threadCallback n) _ _ _ _ w h trivial hr

theorem increment_eq {a : Nat} (h : a < 0x7FFFFFFF) : increment a = .ret (a + 1) := if_pos h

/-- The thread `w` alone goes from `s` to `s'`, and ends as `t`. -/
structure Goes (n : Nat) (s : State ω) (w : ω) (t : Thread) (s' : State ω) : Prop where
  run : Reaches n s s'
  thread : s'.thread w = t
  others : ∀ u, u ≠ w → s'.thread u = s.thread u

theorem Goes.refl (n : Nat) (s : State ω) (w : ω) : Goes n s w (s.thread w) s :=
  ⟨Leads.refl _ _, rfl, fun _ _ => rfl⟩

theorem Goes.trans {t t' : Thread} (h : Goes n s w t s₁) (h' : Goes n s₁ w t' s') :
    Goes n s w t' s' :=
  ⟨h.run.trans h'.run, h'.thread, fun u hu => (h'.others u hu).trans (h.others u hu)⟩

/-- A step of the thread. -/
theorem goes_move {t : Thread} (hr : threadCallback n w s = .ret (s.move w t)) :
    Goes n s w t (s.move w t) :=
  ⟨(Leads.refl _ s).next trivial hr, by simp, fun u hu => by simp [hu]⟩

/-- An iteration up to the store: the thread has found the counter, in `old` or after a reload. -/
theorem goes_pending (hp : (s.thread w).place = .test) (hi : (s.thread w).i < n)
    (hn : n < 0x7FFFFFFF) (hold : (s.thread w).old < 0x7FFFFFFF) (hc : s.count < 0x7FFFFFFF) :
    ∃ s', s'.count = s.count ∧
      Goes n s w ⟨.store (s.count + 1), (s.thread w).i + 1, s.count⟩ s' := by
  let t₁ : Thread := { s.thread w with place := .compare, i := (s.thread w).i + 1 }
  have h₁ : Goes n s w t₁ (s.move w t₁) := by
    apply goes_move
    simp only [threadCallback, hp, increment_eq (show (s.thread w).i < 0x7FFFFFFF by omega),
      Run.ret_bind, hi, if_true, t₁]
  have hthread₁ := h₁.thread
  by_cases heq : s.count = (s.thread w).old
  · let t₂ : Thread := { t₁ with place := .store (s.count + 1) }
    have h₂ : Goes n (s.move w t₁) w t₂ ((s.move w t₁).move w t₂) := by
      apply goes_move
      simp only [threadCallback, hthread₁, t₁, increment_eq hold, Run.ret_bind, State.move_count,
        heq, if_true, t₂]
    refine ⟨(s.move w t₁).move w t₂, rfl, (h₁.trans h₂).run, ?_, (h₁.trans h₂).others⟩
    rw [(h₁.trans h₂).thread]
    simp only [t₂, t₁, heq]
  · let t₂ : Thread := { t₁ with place := .reload }
    have h₂ : Goes n (s.move w t₁) w t₂ ((s.move w t₁).move w t₂) := by
      apply goes_move
      simp only [threadCallback, hthread₁, t₁, increment_eq hold, Run.ret_bind, State.move_count,
        heq, if_false, t₂]
    have hthread₂ := h₂.thread
    let t₃ : Thread := { t₂ with place := .compare, old := s.count }
    have h₃ : Goes n ((s.move w t₁).move w t₂) w t₃ (((s.move w t₁).move w t₂).move w t₃) := by
      apply goes_move
      simp only [threadCallback, hthread₂, t₂, State.move_count, t₃]
    have hthread₃ := h₃.thread
    let t₄ : Thread := { t₃ with place := .store (s.count + 1) }
    have h₄ : Goes n (((s.move w t₁).move w t₂).move w t₃) w t₄
        ((((s.move w t₁).move w t₂).move w t₃).move w t₄) := by
      apply goes_move
      simp only [threadCallback, hthread₃, t₃, increment_eq hc, Run.ret_bind, State.move_count,
        if_true, t₄]
    exact ⟨(((s.move w t₁).move w t₂).move w t₃).move w t₄, rfl, ((h₁.trans h₂).trans h₃).trans h₄⟩

/-- The store. -/
theorem goes_store {v i old : Nat} (h : s.thread w = ⟨.store v, i, old⟩) :
    ∃ s', s'.count = v ∧ Goes n s w ⟨.test, i, old⟩ s' := by
  refine ⟨{ s.move w ⟨.test, i, old⟩ with count := v }, rfl, ?_, by simp, fun u hu => by simp [hu]⟩
  apply (Leads.refl _ s).next (e := w) trivial
  simp only [threadCallback, h]

/-- Between two iterations, with `i` of them made and no more than `K` in `old`. -/
structure Ready (K i : Nat) (t : Thread) : Prop where
  place : t.place = .test
  i : t.i = i
  old : t.old ≤ K

/-- `m` iterations that no other thread disturbs. -/
theorem goes_iterations {i m : Nat} (hK : K < 0x7FFFFFFF) (hn : n ≤ K) (h : Ready K i (s.thread w))
    (him : i + m ≤ n) (hc : s.count + m ≤ K) :
    ∃ s' t, s'.count = s.count + m ∧ Ready K (i + m) t ∧ Goes n s w t s' := by
  induction m with
  | zero => exact ⟨s, _, rfl, h, Goes.refl n s w⟩
  | succ m ih =>
    obtain ⟨s₁, t, hcount, hready, hgoes⟩ := ih (by omega) (by omega)
    obtain ⟨hplace, hi, hold⟩ := hgoes.thread ▸ hready
    obtain ⟨s₂, hcount₂, hgoes₂⟩ := @goes_pending _ _ n s₁ w hplace (by omega) (by omega) (by omega)
      (by omega)
    obtain ⟨s₃, hcount₃, hgoes₃⟩ := @goes_store _ _ n s₂ w _ _ _ hgoes₂.thread
    refine ⟨s₃, _, by omega, ⟨rfl, ?_, ?_⟩, (hgoes.trans hgoes₂).trans hgoes₃⟩
    · show (s₁.thread w).i + 1 = i + (m + 1)
      omega
    · show s₁.count ≤ K
      omega

/-- If each thread of `U` can go alone from `P` to `Q` and count `d`, they can go one after the
other. -/
theorem reaches_each {P Q : ω → Thread → Prop} {d : ω → Nat} (U : Finset ω)
    (hstep : ∀ w ∈ U, ∀ s : State ω, P w (s.thread w) → s.count + d w ≤ K →
      ∃ s' t, s'.count = s.count + d w ∧ Q w t ∧ Goes n s w t s')
    (hP : ∀ w ∈ U, P w (s.thread w)) (hK : s.count + ∑ w ∈ U, d w ≤ K) :
    ∃ s', Reaches n s s' ∧ s'.count = s.count + ∑ w ∈ U, d w ∧ (∀ w ∈ U, Q w (s'.thread w)) ∧
      ∀ u ∉ U, s'.thread u = s.thread u := by
  induction U using Finset.induction_on with
  | empty => exact ⟨s, Leads.refl _ _, by simp, by simp, fun _ _ => rfl⟩
  | insert w U hw ih =>
    rw [sum_insert hw] at hK
    obtain ⟨s₁, hrun, hcount, hQ, hothers⟩ := ih
      (fun v hv => hstep v (mem_insert_of_mem hv)) (fun v hv => hP v (mem_insert_of_mem hv)) (by omega)
    obtain ⟨s₂, t, hcount₂, ht, hgoes⟩ := hstep w (mem_insert_self w U) s₁
      (by rw [hothers w hw]; exact hP w (mem_insert_self w U)) (by omega)
    refine ⟨s₂, hrun.trans hgoes.run, by rw [sum_insert hw]; omega, fun v hv => ?_, fun u hu => ?_⟩
    · rcases mem_insert.mp hv with rfl | hv
      · rw [hgoes.thread]; exact ht
      · rw [hgoes.others v fun h => hw (h ▸ hv)]
        exact hQ v hv
    · rw [mem_insert, not_or] at hu
      rw [hgoes.others u hu.1, hothers u hu.2]

/-- Some threads go on, the thread `w` from its `f w`-th to its `g w`-th iteration. -/
theorem reaches_advance {f g : ω → Nat} (U : Finset ω) (hK : K < 0x7FFFFFFF) (hn : n ≤ K)
    (h : ∀ w ∈ U, Ready K (f w) (s.thread w)) (hfg : ∀ w ∈ U, f w ≤ g w ∧ g w ≤ n)
    (hc : s.count + ∑ w ∈ U, (g w - f w) ≤ K) :
    ∃ s', Reaches n s s' ∧ s'.count = s.count + ∑ w ∈ U, (g w - f w) ∧
      (∀ w ∈ U, Ready K (g w) (s'.thread w)) ∧ ∀ u ∉ U, s'.thread u = s.thread u := by
  refine reaches_each (P := fun w => Ready K (f w)) U (fun w hw s hready hsum => ?_) h hc
  obtain ⟨hle, hgn⟩ := hfg w hw
  obtain ⟨s', t, hcount, ht, hgoes⟩ := goes_iterations hK hn hready (m := g w - f w) (by omega) hsum
  exact ⟨s', t, hcount, by rwa [Nat.add_sub_cancel' hle] at ht, hgoes⟩

/-- `m` iterations can be shared out to threads with `n` of them each. -/
theorem exists_share {m : Nat} (U : Finset ω) (h : m ≤ U.card * n) :
    ∃ g : ω → Nat, (∀ w, g w ≤ n) ∧ ∑ w ∈ U, g w = m := by
  induction U using Finset.induction_on generalizing m with
  | empty => exact ⟨fun _ => 0, fun _ => Nat.zero_le n, by simp at h; simp [h]⟩
  | insert w U hw ih =>
    rw [card_insert_of_notMem hw, Nat.succ_mul] at h
    obtain ⟨g, hg, hsum⟩ := @ih (m - min n m) (by omega)
    refine ⟨Function.update g w (min n m), fun u => ?_, ?_⟩
    · by_cases hu : u = w
      · subst hu; simp
      · simp [hu, hg u]
    · have hrest : ∑ u ∈ U, Function.update g w (min n m) u = ∑ u ∈ U, g u := by
        refine sum_congr rfl fun u hu => Function.update_of_ne ?_ _ _
        rintro rfl
        exact hw hu
      rw [sum_insert hw, Function.update_self, hrest, hsum]
      omega

variable [Fintype ω]

/-- All threads start, in front of their loops. -/
theorem reaches_ready (n K : Nat) :
    ∃ s : State ω, Reaches n {} s ∧ s.count = 0 ∧ ∀ w, Ready K 0 (s.thread w) := by
  have hstep : ∀ w ∈ univ, ∀ s : State ω, s.thread w = {} → s.count + 0 ≤ K →
      ∃ s' t, s'.count = s.count + 0 ∧ Ready K 0 t ∧ Goes n s w t s' := by
    intro w _ s hw hle
    refine ⟨s.move w ⟨.test, 0, s.count⟩, _, rfl, ⟨rfl, rfl, hle⟩, goes_move ?_⟩
    simp only [threadCallback, hw]
  obtain ⟨s, hrun, hcount, hready, -⟩ := @reaches_each ω _ n K {} (fun _ t => t = {})
    (fun _ => Ready K 0) (fun _ => 0) univ hstep (fun _ _ => rfl) (by simp)
  exact ⟨s, hrun, by simpa using hcount, fun w => hready w (mem_univ w)⟩

/-- Threads with all their iterations behind them leave the loop. -/
theorem reaches_finished (hK : K < 0x7FFFFFFF) (hn : n ≤ K) (h : ∀ w, Ready K n (s.thread w))
    (hc : s.count ≤ K) :
    ∃ s', Reaches n s s' ∧ s'.count = s.count ∧ ∀ w, (s'.thread w).place = .finished := by
  have hstep : ∀ w ∈ univ, ∀ s : State ω, Ready K n (s.thread w) → s.count + 0 ≤ K →
      ∃ s' t, s'.count = s.count + 0 ∧ t.place = .finished ∧ Goes n s w t s' := by
    intro w _ s hw _
    let t : Thread := { s.thread w with place := .finished, i := (s.thread w).i + 1 }
    have hi := hw.i
    refine ⟨s.move w t, t, rfl, rfl, goes_move ?_⟩
    simp only [threadCallback, hw.place, increment_eq (show (s.thread w).i < 0x7FFFFFFF by omega),
      Run.ret_bind, if_neg (show ¬ (s.thread w).i < n by omega), t]
  obtain ⟨s', hrun, hcount, hfin, -⟩ := reaches_each (P := fun _ => Ready K n)
    (Q := fun _ t => t.place = .finished) (d := fun _ => 0) univ hstep (fun w _ => h w)
    (by simpa using hc)
  exact ⟨s', hrun, by simpa using hcount, fun w => hfin w (mem_univ w)⟩

/-- The thread `a` has found 0 and is in front of its first store, and the others have made `g`. -/
theorem reaches_held {g : ω → Nat} (a : ω) (hK : K < 0x7FFFFFFF) (hn : n ≤ K) (h1 : 1 ≤ n)
    (hg : ∀ w, g w ≤ n) (hsum : ∑ w ∈ univ.erase a, g w ≤ K) :
    ∃ s : State ω, Reaches n {} s ∧ s.count = 1 ∧ Ready K 1 (s.thread a) ∧
      ∀ w, w ≠ a → Ready K (g w) (s.thread w) := by
  obtain ⟨s, hrun, hcount, hready⟩ := reaches_ready (ω := ω) n K
  -- `a` stops in front of its store.
  obtain ⟨s₁, hcount₁, hgoes₁⟩ := @goes_pending _ _ n s a (hready a).place
    (by rw [(hready a).i]; omega) (by omega) (by have := (hready a).old; omega) (by omega)
  -- The others go on.
  obtain ⟨s₂, hrun₂, hcount₂, hready₂, hothers₂⟩ := @reaches_advance _ _ n K s₁ (fun _ => 0) g
    (univ.erase a) hK hn
    (fun w hw => by rw [hgoes₁.others w (ne_of_mem_erase hw)]; exact hready w)
    (fun w _ => ⟨Nat.zero_le _, hg w⟩) (by simp only [Nat.sub_zero]; omega)
  -- `a` stores 1.
  have ha := (hothers₂ a (notMem_erase a univ)).trans hgoes₁.thread
  obtain ⟨s₃, hcount₃, hgoes₃⟩ := goes_store (n := n) ha
  refine ⟨s₃, ((hrun.trans hgoes₁.run).trans hrun₂).trans hgoes₃.run, by omega, ?_, fun w hw => ?_⟩
  · rw [hgoes₃.thread]
    exact ⟨rfl, by rw [(hready a).i], by show s.count ≤ K; omega⟩
  · rw [hgoes₃.others w hw]
    exact hready₂ w (mem_erase.mpr ⟨hw, mem_univ w⟩)

/-- All threads go on to their ends from where they are. -/
theorem reaches_end {f : ω → Nat} (hK : K < 0x7FFFFFFF) (hn : n ≤ K) (hf : ∀ w, f w ≤ n)
    (h : ∀ w, Ready K (f w) (s.thread w)) (hc : s.count + ∑ w, (n - f w) ≤ K) :
    ∃ s', Reaches n s s' ∧ s'.count = s.count + ∑ w, (n - f w) ∧
      ∀ w, (s'.thread w).place = .finished := by
  obtain ⟨s₁, hrun, hcount, hready, -⟩ := @reaches_advance _ _ n K s f (fun _ => n) univ hK hn
    (fun w _ => h w) (fun w _ => ⟨hf w, Nat.le_refl n⟩) hc
  obtain ⟨s₂, hrun₂, hcount₂, hfin⟩ := reaches_finished hK hn (fun w => hready w (mem_univ w))
    (by omega)
  exact ⟨s₂, hrun.trans hrun₂, by omega, hfin⟩

/-- One thread holds its first store back while the others make `m` iterations: these are lost. -/
theorem reaches_lost {m : Nat} (a : ω) (hK : Fintype.card ω * n < 0x7FFFFFFF) (h1 : 1 ≤ n)
    (hm : m ≤ (univ.erase a).card * n) :
    ∃ s : State ω, Reaches n {} s ∧ s.count = Fintype.card ω * n - m ∧
      ∀ w, (s.thread w).place = .finished := by
  have hcard : (univ.erase a).card + 1 = Fintype.card ω := card_erase_add_one (mem_univ a)
  have hmul : Fintype.card ω * n = (univ.erase a).card * n + n := by rw [← hcard, Nat.succ_mul]
  obtain ⟨g, hg, hsum⟩ := exists_share (univ.erase a) hm
  obtain ⟨s, hrun, hcount, ha, hothers⟩ := @reaches_held _ _ n (Fintype.card ω * n) _ g a hK
    (by omega) h1 hg (by omega)
  have hupdate : ∀ w, w ≠ a → Function.update g a 1 w = g w := fun w hw => Function.update_of_ne hw _ _
  have hrest : ∑ w ∈ univ.erase a, (n - Function.update g a 1 w) = (univ.erase a).card * n - m := by
    have heach : ∑ w ∈ univ.erase a, (n - Function.update g a 1 w) + m =
        (univ.erase a).card * n := by
      rw [← hsum, ← sum_add_distrib]
      refine sum_const_nat fun w hw => ?_
      rw [hupdate w (ne_of_mem_erase hw), Nat.sub_add_cancel (hg w)]
    omega
  have htotal : ∑ w, (n - Function.update g a 1 w) = n - 1 + ((univ.erase a).card * n - m) := by
    rw [← add_sum_erase univ _ (mem_univ a), hrest, Function.update_self]
  obtain ⟨s', hrun', hcount', hfin⟩ := @reaches_end _ _ n (Fintype.card ω * n) s _
    (Function.update g a 1) hK (by omega)
    (fun w => by
      by_cases hw : w = a
      · rw [hw, Function.update_self]; exact h1
      · rw [hupdate w hw]; exact hg w)
    (fun w => by
      by_cases hw : w = a
      · rw [hw, Function.update_self]; exact ha
      · rw [hupdate w hw]; exact hothers w hw)
    (by omega)
  exact ⟨s', hrun.trans hrun', by omega, hfin⟩

/-- Behind the first store of `a`, which takes back all that was counted, `b` holds its last store
back until `a` has `j` iterations left. -/
theorem reaches_late {j : Nat} {a b : ω} (hab : b ≠ a) (hK : Fintype.card ω * n < 0x7FFFFFFF)
    (hn : 2 ≤ n) (hj : j < n) :
    ∃ s : State ω, Reaches n {} s ∧ s.count = 2 + j ∧ ∀ w, (s.thread w).place = .finished := by
  have hcard : (univ.erase a).card + 1 = Fintype.card ω := card_erase_add_one (mem_univ a)
  have hcard' : 0 < (univ.erase a).card := card_pos.mpr ⟨b, mem_erase.mpr ⟨hab, mem_univ b⟩⟩
  have hmul : Fintype.card ω * n = (univ.erase a).card * n + n := by rw [← hcard, Nat.succ_mul]
  have hmul' : n ≤ (univ.erase a).card * n := Nat.le_mul_of_pos_left n hcard'
  let g : ω → Nat := Function.update (fun _ => n) b (n - 1)
  have hg : ∀ w, g w ≤ n := by
    intro w
    by_cases hw : w = b
    · simp [g, hw]
    · simp [g, hw]
  have hsum : ∑ w ∈ univ.erase a, g w ≤ (univ.erase a).card * n :=
    sum_le_card_nsmul (univ.erase a) g n fun w _ => hg w
  obtain ⟨s, hrun, hcount, ha, hothers⟩ := @reaches_held _ _ n (Fintype.card ω * n) _ g a hK
    (by omega) (by omega) hg (by omega)
  have hb : Ready (Fintype.card ω * n) (n - 1) (s.thread b) := by
    simpa [g] using hothers b hab
  -- `b` finds 1, and is in front of its last store.
  obtain ⟨s₁, hcount₁, hgoes₁⟩ := @goes_pending _ _ n s b hb.place (by rw [hb.i]; omega) (by omega)
    (by have := hb.old; omega) (by omega)
  -- `a` goes on up to its last `j` iterations.
  obtain ⟨s₂, t, hcount₂, hready₂, hgoes₂⟩ := @goes_iterations _ _ n (Fintype.card ω * n) s₁ a 1
    (n - j - 1) hK (by omega) (by rw [hgoes₁.others a hab.symm]; exact ha) (by omega) (by omega)
  -- `b` stores 2.
  have hthread : s₂.thread b = _ := (hgoes₂.others b hab).trans hgoes₁.thread
  obtain ⟨s₃, hcount₃, hgoes₃⟩ := goes_store (n := n) hthread
  let f : ω → Nat := Function.update (fun _ => n) a (n - j)
  have hf : ∑ w, (n - f w) = j := by
    have hrest : ∀ w ∈ univ.erase a, n - f w = 0 := fun w hw => by
      simp [f, ne_of_mem_erase hw]
    rw [← add_sum_erase univ _ (mem_univ a), sum_eq_zero hrest]
    simp only [f, Function.update_self]
    omega
  obtain ⟨s', hrun', hcount', hfin⟩ := @reaches_end _ _ n (Fintype.card ω * n) s₃ _ f hK (by omega)
    (fun w => by
      by_cases hw : w = a
      · simp [f, hw]
      · simp [f, hw])
    (fun w => by
      by_cases hwb : w = b
      · rw [hwb, hgoes₃.thread]
        have hi := hb.i
        refine ⟨rfl, ?_, ?_⟩
        · simp only [f, Function.update_of_ne hab]
          omega
        · show s.count ≤ Fintype.card ω * n
          omega
      · rw [hgoes₃.others w hwb]
        by_cases hw : w = a
        · subst hw
          rw [hgoes₂.thread]
          simpa [f, show 1 + (n - j - 1) = n - j by omega] using hready₂
        · rw [hgoes₂.others w hw, hgoes₁.others w hwb]
          simpa [f, g, hw, hwb] using hothers w hw)
    (by omega)
  refine ⟨s', (((hrun.trans hgoes₁.run).trans hgoes₂.run).trans hgoes₃.run).trans hrun', ?_, hfin⟩
  omega

/-- **Final counts.** For at least two threads, and loop bounds with which no `int` overflows: the
values that `*count` can have when all threads have finished are those from 2 (or `n`, if that is less)
to the number of all iterations. -/
theorem final_counts {ω : Type} [DecidableEq ω] [Fintype ω] {n c : Nat} (hω : 2 ≤ Fintype.card ω)
    (hmax : Fintype.card ω * n < 0x7FFFFFFF) :
    (∃ es s, exec (threadCallback n) es ({} : State ω) = .ret s ∧
      (∀ w, (s.thread w).place = .finished) ∧ s.count = c) ↔
    min n 2 ≤ c ∧ c ≤ Fintype.card ω * n := by
  constructor
  · rintro ⟨es, s, hrun, hfin, rfl⟩
    have : Nonempty ω := Fintype.card_pos_iff.mp (by omega)
    exact count_bounds hrun hfin
  · rintro ⟨hlow, hhigh⟩
    obtain ⟨a, b, hab⟩ := Fintype.one_lt_card_iff.mp hω
    have hreach : ∃ s : State ω, Reaches n {} s ∧ s.count = c ∧
        ∀ w, (s.thread w).place = .finished := by
      by_cases h0 : n = 0
      · subst h0
        obtain ⟨s, hrun, hcount, hready⟩ := reaches_ready (ω := ω) 0 0
        obtain ⟨s', hrun', hcount', hfin⟩ := reaches_finished (by omega) (Nat.le_refl 0) hready
          (by omega)
        exact ⟨s', hrun.trans hrun', by omega, hfin⟩
      by_cases hc : n ≤ c
      · have hcard : (univ.erase a).card + 1 = Fintype.card ω := card_erase_add_one (mem_univ a)
        have hmul : Fintype.card ω * n = (univ.erase a).card * n + n := by
          rw [← hcard, Nat.succ_mul]
        obtain ⟨s, hrun, hcount, hfin⟩ := @reaches_lost _ _ n _ (Fintype.card ω * n - c) a hmax
          (by omega) (by omega)
        exact ⟨s, hrun, by omega, hfin⟩
      · obtain ⟨s, hrun, hcount, hfin⟩ := @reaches_late _ _ n _ (c - 2) a b hab.symm hmax (by omega)
          (by omega)
        exact ⟨s, hrun, by omega, hfin⟩
    obtain ⟨s, ⟨es, -, hes⟩, hcount, hfin⟩ := hreach
    exact ⟨es, s, hes, hfin, hcount⟩

/-- Two threads that make 100000 iterations each can end with 2. -/
theorem final_counts_main :
    (∃ es s, exec (threadCallback 100000) es ({} : State (Fin 2)) = .ret s ∧
      (∀ w, (s.thread w).place = .finished) ∧ s.count = 2) ↔
    min 100000 2 ≤ 2 ∧ 2 ≤ Fintype.card (Fin 2) * 100000 :=
  final_counts (by decide) (by decide)

end Lock
end LinuxBase
