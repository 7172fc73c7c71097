import LinuxBase.ThreadPool.Places

/-!
# The tasks of the pool

The story of a task is the part of the log about it. `Life` lists the stories that a task can have:
it is pushed, taken by a worker, called by that worker and freed by it, once each and in this order.

`Tracked` says where the stories stand. A task in the list was only pushed, the task of a worker at
its callback was taken by this worker, and so on. So `INSERT_LIST` meets a cell that is in no list,
`DELETE_LIST` takes a cell that no worker has, and `free` gets a cell that the list does not read.
`Tracked.move` is the step lemma, one case for each action; `tasks_once` reads the result off.
-/

namespace LinuxBase
namespace ThreadPool

open DList

variable {ω α τ : Type}

section Lists

variable [DecidableEq α] {m : Mem α τ} {l : List (α × τ)}

/-- `INSERT_LIST` of a cell outside the list with a null `prev`. -/
theorem insertList_spec {list : Option α} {item : α} {c : Cell α τ} (hl : IsList m list l)
    (hitem : item ∉ l.map Prod.fst) (hc : m item = some c) (hprev : c.prev = none) :
    ∃ m', insertList m item list = .ret (m', some item) ∧
      IsList m' (some item) ((item, c.val) :: l) ∧
      ∀ x, (m' x).map Cell.val = (m x).map Cell.val := by
  have hsplice := (show IsList m list ([] ++ l) from hl).splice hitem hc
  -- The macro does not write `prev`, which is null already.
  have hkeep : setPrev (setNext m item list) item none = setNext m item list := by
    have h := setPrev_eq_self (setNext_self hc list)
    rwa [show ({ c with next := list } : Cell α τ).prev = none from hprev] at h
  simp only [splice, relinkNext, last_nil, List.nil_append, first_cons, ← hl.head_eq,
    hkeep] at hsplice
  refine ⟨_, ?_, hsplice, by simp⟩
  unfold insertList
  rw [hc, Run.ofOption_some, Run.ret_bind]
  cases hlist : list with
  | none => rfl
  | some head =>
    -- The old head is a live cell, other than the new one.
    cases l with
    | nil => rw [hl.head_eq] at hlist; cases hlist
    | cons x l =>
      rw [hl.head_eq] at hlist
      cases hlist
      have hne : x.1 ≠ item := fun e => hitem (e ▸ List.mem_cons_self)
      simp only [setNext_of_ne hne, hl.seg.1, Run.ofOption_some, Run.ret_bind]
      rfl

/-- `INSERT_LIST` of a new task. -/
theorem insertTask_spec {task : Option α} {item : α} (hl : IsList m task l) (hfree : m item = none)
    (t : τ) : ∃ m', insertList (Function.update m item (some ⟨none, none, t⟩)) item task =
        .ret (m', some item) ∧ IsList m' (some item) ((item, t) :: l) ∧
      ∀ a, (m' a).map Cell.val = if a = item then some t else (m a).map Cell.val := by
  have hlive : ∀ x ∈ l, x.1 ≠ item := fun x hx e => by
    have := hl.val_eq hx
    rw [e, hfree] at this
    cases this
  -- The list does not read the new cell.
  have hl' : IsList (Function.update m item (some ⟨none, none, t⟩)) task l :=
    hl.congr fun x hx => Function.update_of_ne (hlive x hx) _ _
  obtain ⟨m', hm', hlist, hval⟩ := insertList_spec (c := ⟨none, none, t⟩) hl'
    (fun hi => by obtain ⟨x, hx, e⟩ := List.mem_map.mp hi; exact hlive x hx e)
    (Function.update_self _ _ _) rfl
  refine ⟨m', hm', hlist, fun a => ?_⟩
  rw [hval a, Function.update_apply]
  split <;> rfl

/-- `DELETE_LIST` of the head. -/
theorem deleteList_spec {x : α × τ} (hl : IsList m (some x.1) (x :: l)) :
    ∃ m', deleteList m x.1 (some x.1) = .ret (m', first l none) ∧ IsList m' (first l none) l ∧
      ∀ y, (m' y).map Cell.val = (m y).map Cell.val := by
  have hunsplice := (show IsList m (some x.1) ([] ++ x :: l) from hl).unsplice
  have hx : x.1 ∉ l.map Prod.fst := (List.nodup_cons.mp hl.nodup).1
  have hfirst : first l none ≠ some x.1 := fun e => (first_mem e).elim (by simp) hx
  simp only [unsplice, relinkNext, last_nil, List.nil_append] at hunsplice
  have hself : relinkPrev m (first l none) none x.1 = some ⟨none, first l none, x.2⟩ :=
    (relinkPrev_of_ne hfirst).trans hl.seg.1
  refine ⟨setPrev (setNext (relinkPrev m (first l none) none) x.1 none) x.1 none, ?_,
    hunsplice.congr fun y hy => ?_, by simp⟩
  · unfold deleteList
    simp only [hl.seg.1, Run.ofOption_some, Run.ret_bind]
    cases l with
    | nil => simp [relinkPrev]
    | cons y l =>
      have hy := hl.seg.2.1
      simp only [first_cons, relinkPrev] at hself ⊢
      simp [hy, hself]
  · have hne : y.1 ≠ x.1 := fun e => hx (e ▸ List.mem_map_of_mem hy)
    rw [setPrev_of_ne hne, setNext_of_ne hne]

end Lists

/-! ## Stories -/

section Stories

variable [DecidableEq τ]

/-- The part of the log about `t`. -/
def story (log : List (Action ω τ)) (t : τ) : List (Action ω τ) := log.filter fun x => x.task = t

/-- The stories that a task can have. -/
inductive Life (t : τ) : List (Action ω τ) → Prop
  | unknown : Life t []
  | pushed : Life t [.push t]
  | taken (w : ω) : Life t [.take w t, .push t]
  | called (w : ω) : Life t [.call w t, .take w t, .push t]
  | freed (w : ω) : Life t [.free w t, .call w t, .take w t, .push t]

theorem story_cons (x : Action ω τ) (log : List (Action ω τ)) (t : τ) :
    story (x :: log) t = if x.task = t then x :: story log t else story log t := by
  by_cases h : x.task = t <;> simp [story, h]

theorem story_cons_of_ne {x : Action ω τ} {log : List (Action ω τ)} {t : τ} (h : t ≠ x.task) :
    story (x :: log) t = story log t := by
  rw [story_cons, if_neg h.symm]

theorem mem_story {x : Action ω τ} {log : List (Action ω τ)} :
    x ∈ story log x.task ↔ x ∈ log := by
  simp [story]

/-- A task that was not pushed has no story. -/
theorem Life.eq_nil {log : List (Action ω τ)} {t : τ} (h : Life t (story log t))
    (hp : .push t ∉ log) : story log t = [] := by
  have hp' : Action.push t ∉ story log t := fun hm => hp (mem_story.mp hm)
  generalize story log t = s at h hp'
  cases h with
  | unknown => rfl
  | pushed | taken w | called w | freed w => simp at hp'

/-- An action is the next one in the story of its task, and no other task has it in its story. -/
theorem life_cons {x : Action ω τ} {log : List (Action ω τ)} (h : ∀ t, Life t (story log t))
    (hx : Life x.task (x :: story log x.task)) (t : τ) : Life t (story (x :: log) t) := by
  rw [story_cons]
  split
  · rename_i ht
    subst ht
    exact hx
  · exact h t

end Stories

/-! ## The invariant -/

/-- The invariant of the tasks (module doc). -/
structure Tracked [DecidableEq τ] (s : State ω α τ) : Prop where
  list : ∃ l, IsList s.mem s.task l ∧ ∀ x ∈ l, story s.log x.2 = [.push x.2]
  calling : ∀ w a, s.place w = .call a →
    ∃ t, s.job a = some t ∧ story s.log t = [.take w t, .push t]
  freeing : ∀ w a, s.place w = .free a →
    ∃ t, s.job a = some t ∧ story s.log t = [.call w t, .take w t, .push t]
  pushed : ∀ a t, s.job a = some t → .push t ∈ s.log
  inj : ∀ a b t, s.job a = some t → s.job b = some t → a = b
  lives : ∀ t, Life t (story s.log t)

section Tracked

variable [DecidableEq τ] {s s' : State ω α τ}

theorem tracked_created (worker : List ω) : Tracked (created worker : State ω α τ) where
  list := ⟨[], ⟨rfl, List.nodup_nil, trivial⟩, by simp⟩
  calling w a h := by cases h
  freeing w a h := by cases h
  pushed a t h := by cases h
  inj a b t h := by cases h
  lives t := .unknown

/-- A step that leaves the tasks alone. -/
theorem Tracked.frame (h : Tracked s) (hmem : s'.mem = s.mem) (htask : s'.task = s.task)
    (hlog : s'.log = s.log) (hcall : ∀ w a, s'.place w = .call a → s.place w = .call a)
    (hfree : ∀ w a, s'.place w = .free a → s.place w = .free a) : Tracked s' where
  list := by rw [hmem, htask, hlog]; exact h.list
  calling w a hp := by
    unfold State.job
    rw [hmem, hlog]
    exact h.calling w a (hcall w a hp)
  freeing w a hp := by
    unfold State.job
    rw [hmem, hlog]
    exact h.freeing w a (hfree w a hp)
  pushed := by unfold State.job; rw [hmem, hlog]; exact h.pushed
  inj := by unfold State.job; rw [hmem]; exact h.inj
  lives := by rw [hlog]; exact h.lives

/-- The invariant of the pool. -/
structure Inv (s : State ω α τ) : Prop extends Placed s, Tracked s

theorem inv_created (worker : List ω) : Inv (created worker : State ω α τ) :=
  { placed_created worker, tracked_created worker with }

/-- `task = NULL`: the tasks of the list stay where they are, outside of any list. -/
theorem Tracked.clearTask {d : Nat} (h : Tracked s) :
    Tracked { s with task := none, destroy := Function.update s.destroy d .taskCleared } where
  list := ⟨[], ⟨rfl, List.nodup_nil, trivial⟩, by simp⟩
  calling := h.calling
  freeing := h.freeing
  pushed := h.pushed
  inj := h.inj
  lives := h.lives

/-- The story of the task that a worker is to call. -/
theorem Tracked.story_of_call (h : Tracked s) {w : ω} {a : α} {t : τ} (hp : s.place w = .call a)
    (ha : s.job a = some t) : story s.log t = [.take w t, .push t] := by
  obtain ⟨u, hu, hs⟩ := h.calling w a hp
  rw [ha] at hu
  cases hu
  exact hs

/-- The story of the task that a worker is to free. -/
theorem Tracked.story_of_free (h : Tracked s) {w : ω} {a : α} {t : τ} (hp : s.place w = .free a)
    (ha : s.job a = some t) : story s.log t = [.call w t, .take w t, .push t] := by
  obtain ⟨u, hu, hs⟩ := h.freeing w a hp
  rw [ha] at hu
  cases hu
  exact hs

/-- The list does not read the task that a worker is to free. -/
theorem Tracked.ne_of_free (h : Tracked s) {w : ω} {a : α} (hp : s.place w = .free a)
    {l : List (α × τ)} (hl : IsList s.mem s.task l) : ∀ x ∈ l, x.1 ≠ a := by
  obtain ⟨l', hl', hstory⟩ := h.list
  obtain rfl := hl.unique hl'
  rintro x hx rfl
  simpa [hstory x hx] using h.story_of_free hp (hl.val_eq hx)

/-- A step that does `x` to the task `t`. The other tasks stay where they are, and a worker that is
not at `t` stays at its task. -/
theorem Tracked.act {x : Action ω τ} {t : τ} (h : Tracked s) (ht : x.task = t)
    (hlog : s'.log = x :: s.log) (hlife : Life t (x :: story s.log t))
    (hlist : ∃ l, IsList s'.mem s'.task l ∧ ∀ y ∈ l, story s'.log y.2 = [.push y.2])
    (hjob : ∀ a u, u ≠ t → (s'.job a = some u ↔ s.job a = some u))
    (hone : ∀ a b, s'.job a = some t → s'.job b = some t → a = b)
    (hpush : ∀ a, s'.job a = some t → .push t ∈ s'.log)
    (hcall : ∀ w a, s'.place w = .call a → s.place w = .call a ∧ s.job a ≠ some t ∨
      s'.job a = some t ∧ story s'.log t = [.take w t, .push t])
    (hfree : ∀ w a, s'.place w = .free a → s.place w = .free a ∧ s.job a ≠ some t ∨
      s'.job a = some t ∧ story s'.log t = [.call w t, .take w t, .push t]) : Tracked s' := by
  have hother : ∀ u, u ≠ t → story s'.log u = story s.log u := by
    intro u hu
    rw [hlog]
    exact story_cons_of_ne (ht ▸ hu)
  refine ⟨hlist, fun w a hp => ?_, fun w a hp => ?_, fun a u ha => ?_, fun a b u ha hb => ?_, ?_⟩
  · rcases hcall w a hp with ⟨hp, ha⟩ | hnew
    · obtain ⟨u, hu, hs⟩ := h.calling w a hp
      have hne : u ≠ t := by rintro rfl; exact ha hu
      exact ⟨u, (hjob a u hne).mpr hu, (hother u hne).trans hs⟩
    · exact ⟨t, hnew⟩
  · rcases hfree w a hp with ⟨hp, ha⟩ | hnew
    · obtain ⟨u, hu, hs⟩ := h.freeing w a hp
      have hne : u ≠ t := by rintro rfl; exact ha hu
      exact ⟨u, (hjob a u hne).mpr hu, (hother u hne).trans hs⟩
    · exact ⟨t, hnew⟩
  · by_cases hu : u = t
    · subst hu; exact hpush a ha
    · rw [hlog]
      exact List.mem_cons_of_mem _ (h.pushed a u ((hjob a u hu).mp ha))
  · by_cases hu : u = t
    · subst hu; exact hone a b ha hb
    · exact h.inj a b u ((hjob a u hu).mp ha) ((hjob b u hu).mp hb)
  · rw [hlog]
    subst ht
    exact life_cons h.lives hlife

/-- `pushTaskThreadPool`: the new task has no story yet. -/
theorem Tracked.push [DecidableEq α] {item : α} {t : τ} {ws : ω → Bool} {m : Mem α τ}
    (h : Tracked s) (hfree : s.mem item = none) (hnew : .push t ∉ s.log)
    (hm : insertList (Function.update s.mem item (some ⟨none, none, t⟩)) item s.task =
      .ret (m, some item)) :
    Tracked ({ s with mem := m, task := some item, log := .push t :: s.log }.wake ws) := by
  obtain ⟨l, hl, hstory⟩ := h.list
  obtain ⟨m', hm', hlist, hjob⟩ := insertTask_spec hl hfree t
  rw [hm'] at hm
  cases hm
  have hne : ∀ a u, s.job a = some u → u ≠ t := by
    rintro a _ ha rfl
    exact hnew (h.pushed a _ ha)
  have hnone : s.job item = none := by rw [State.job, hfree]; rfl
  have hnil := (h.lives t).eq_nil hnew
  refine h.act (t := t) rfl rfl (hnil ▸ .pushed) ⟨_, hlist, ?_⟩ ?_ ?_ ?_ ?_ ?_
  · refine List.forall_mem_cons.mpr ⟨?_, fun x hx => ?_⟩
    · simp [story_cons, Action.task, hnil]
    · exact (story_cons_of_ne (hne x.1 x.2 (hl.val_eq hx))).trans (hstory x hx)
  · intro a u hu
    show (m a).map Cell.val = some u ↔ s.job a = some u
    rw [hjob]
    split
    · rename_i e
      rw [e, hnone]
      simpa using hu.symm
    · rfl
  · -- The new cell is the only one with the new task.
    have hitem : ∀ a, (m a).map Cell.val = some t → a = item := by
      intro a ha
      by_contra hne'
      rw [hjob, if_neg hne'] at ha
      exact hne a t ha rfl
    intro a b ha hb
    rw [hitem a ha, hitem b hb]
  · exact fun _ _ => List.mem_cons_self
  · intro w a hp
    exact .inl ⟨by grind, fun ha => hne a t ha rfl⟩
  · intro w a hp
    exact .inl ⟨by grind, fun ha => hne a t ha rfl⟩

variable [DecidableEq ω]

/-- `DELETE_LIST` in a worker: the task leaves the list and is the worker's. -/
theorem Tracked.take [DecidableEq α] {w : ω} {a : α} {c : Cell α τ} {m : Mem α τ}
    {task : Option α} (h : Tracked s) (ha : s.task = some a) (hc : s.mem a = some c)
    (hm : deleteList s.mem a (some a) = .ret (m, task)) :
    Tracked ({ s with mem := m, task, log := .take w c.val :: s.log }.unlock.move w (.call a)) := by
  obtain ⟨l, hl, hstory⟩ := h.list
  have hat : s.job a = some c.val := by rw [State.job, hc]; rfl
  rw [ha] at hl
  rcases l with - | ⟨⟨b, t⟩, l⟩
  · cases hl.head_eq
  obtain rfl : a = b := Option.some.inj hl.head_eq
  obtain rfl : c.val = t := Option.some.inj (hat.symm.trans (hl.val_eq List.mem_cons_self))
  obtain ⟨m', hm', hlist, hval⟩ := deleteList_spec (x := (a, c.val)) hl
  rw [hm'] at hm
  cases hm
  have hs := hstory _ List.mem_cons_self
  have ha' : a ∉ l.map Prod.fst := (List.nodup_cons.mp hl.nodup).1
  refine h.act (t := c.val) rfl rfl (hs ▸ .taken w) ⟨l, hlist, fun y hy => ?_⟩ ?_ ?_ ?_ ?_ ?_
  · -- The cells of the list have tasks of their own.
    refine (story_cons_of_ne ?_).trans (hstory y (List.mem_cons_of_mem _ hy))
    intro e
    have hy' := hl.val_eq (List.mem_cons_of_mem _ hy)
    rw [e] at hy'
    exact ha' (h.inj a y.1 _ hat hy' ▸ List.mem_map_of_mem hy)
  · intro b u _
    show (m b).map Cell.val = some u ↔ _
    rw [hval]
    rfl
  · intro b b' hb hb'
    exact h.inj b b' _ ((hval b).symm.trans hb) ((hval b').symm.trans hb')
  · exact fun b _ => List.mem_cons_of_mem _ (h.pushed a _ hat)
  · intro v b hp
    by_cases hv : v = w
    · subst hv
      obtain rfl : a = b := by simpa using hp
      refine .inr ⟨(hval a).trans hat, ?_⟩
      simp [story_cons, Action.task, hs]
    · have hp : s.place v = .call b := by simpa [hv] using hp
      refine .inl ⟨hp, fun hb => ?_⟩
      simpa [hs] using h.story_of_call hp hb
  · intro v b hp
    have hp : s.place v = .free b := by grind
    refine .inl ⟨hp, fun hb => ?_⟩
    simpa [hs] using h.story_of_free hp hb

/-- The callback. -/
theorem Tracked.call {w : ω} {a : α} {c : Cell α τ} (h : Tracked s) (hp : s.place w = .call a)
    (hc : s.mem a = some c) :
    Tracked ({ s with log := .call w c.val :: s.log }.move w (.free a)) := by
  obtain ⟨l, hl, hstory⟩ := h.list
  have hat : s.job a = some c.val := by rw [State.job, hc]; rfl
  have hs := h.story_of_call hp hat
  refine h.act (t := c.val) rfl rfl (hs ▸ .called w) ⟨l, hl, fun y hy => ?_⟩ (fun _ _ _ => .rfl)
    (fun b b' hb hb' => h.inj b b' _ hb hb')
    (fun b _ => List.mem_cons_of_mem _ (h.pushed a _ hat)) ?_ ?_
  · refine (story_cons_of_ne ?_).trans (hstory y hy)
    intro e
    simpa [show y.2 = c.val from e, hs] using hstory y hy
  · intro v b hp'
    have hv : v ≠ w := by rintro rfl; simp at hp'
    have hp' : s.place v = .call b := by simpa [hv] using hp'
    refine .inl ⟨hp', fun hb => ?_⟩
    simpa [hs, hv.symm] using h.story_of_call hp' hb
  · intro v b hp'
    by_cases hv : v = w
    · subst hv
      obtain rfl : a = b := by simpa using hp'
      refine .inr ⟨hat, ?_⟩
      simp [story_cons, Action.task, hs]
    · have hp' : s.place v = .free b := by simpa [hv] using hp'
      refine .inl ⟨hp', fun hb => ?_⟩
      simpa [hs] using h.story_of_free hp' hb

/-- The `free`. -/
theorem Tracked.free [DecidableEq α] {w : ω} {a : α} {c : Cell α τ} (h : Tracked s)
    (hp : s.place w = .free a) (hc : s.mem a = some c) :
    Tracked ({ s with
      mem := Function.update s.mem a none, log := .free w c.val :: s.log }.move w .lock) := by
  obtain ⟨l, hl, hstory⟩ := h.list
  have hat : s.job a = some c.val := by rw [State.job, hc]; rfl
  have hs := h.story_of_free hp hat
  have hne : ∀ y ∈ l, y.2 ≠ c.val := by
    intro y hy e
    simpa [e, hs] using hstory y hy
  have hcell := h.ne_of_free hp hl
  have hjob : ∀ b, (Function.update s.mem a none b).map Cell.val =
      if b = a then none else s.job b := by
    intro b
    rw [Function.update_apply]
    split <;> rfl
  have hgone : ∀ b, (if b = a then none else s.job b) ≠ some c.val := by
    intro b
    split
    · simp
    · exact fun hb => ‹¬ b = a› (h.inj b a _ hb hat)
  refine h.act (t := c.val) rfl rfl (hs ▸ .freed w)
    ⟨l, hl.congr fun y hy => Function.update_of_ne (hcell y hy) _ _, fun y hy => ?_⟩ ?_ ?_ ?_ ?_ ?_
  · exact (story_cons_of_ne (hne y hy)).trans (hstory y hy)
  · intro b u hu
    show (Function.update s.mem a none b).map Cell.val = some u ↔ _
    rw [hjob]
    split
    · rename_i e
      rw [e, hat]
      simpa using hu.symm
    · rfl
  · exact fun b _ hb _ => absurd ((hjob b).symm.trans hb) (hgone b)
  · exact fun b hb => absurd ((hjob b).symm.trans hb) (hgone b)
  · intro v b hp'
    have hp' : s.place v = .call b := by grind
    refine .inl ⟨hp', fun hb => ?_⟩
    simpa [hs] using h.story_of_call hp' hb
  · intro v b hp'
    have hv : v ≠ w := by rintro rfl; simp at hp'
    have hp' : s.place v = .free b := by simpa [hv] using hp'
    refine .inl ⟨hp', fun hb => ?_⟩
    simpa [hs, hv.symm] using h.story_of_free hp' hb

variable [DecidableEq α]

/-- Every step keeps the tasks. -/
theorem Tracked.move {e : Event ω α τ} (h : Tracked s) (hm : Move s e s') : Tracked s' := by
  cases hm with
  | push hmutex hfree hnew hws hwake hm => exact h.push hfree hnew hm
  | take hp ha hc hm => exact h.take ha hc hm
  | call hp hc => exact h.call hp hc
  | free hp hc => exact h.free hp hc
  | clearTask hd => exact h.clearTask
  | lock | empty | found | leave | sleep | block | exit | go | wakeUp | terminate | broadcast
  | clearWorker => exact h.frame rfl rfl rfl (by grind) (by grind)

theorem Inv.step {e : Event ω α τ} (h : Inv s) (he : Enabled s e)
    (hr : ThreadPool.step e s = .ret s') : Inv s' :=
  { h.toPlaced.move (step_move he hr), h.toTracked.move (step_move he hr) with }

/-- No step uses a dead task or the head of an empty list. -/
theorem Inv.step_ret {e : Event ω α τ} (h : Inv s) (he : Enabled s e) :
    ∃ s', ThreadPool.step e s = .ret s' := by
  obtain ⟨l, hl, -⟩ := h.list
  cases e with
  | push item t ws =>
    obtain ⟨m, hm, -⟩ := insertTask_spec hl he.2.1 t
    exact ⟨_, by simp only [ThreadPool.step, pushTaskThreadPool, hm, Run.ret_bind]; rfl⟩
  | worker w =>
    simp only [ThreadPool.step, threadCallback]
    cases hp : s.place w with
    | take =>
      rcases l with - | ⟨x, l⟩
      · exact absurd hl.head_eq (h.taking w hp)
      · have ha : s.task = some x.1 := hl.head_eq
        rw [ha] at hl
        obtain ⟨m, hm, -⟩ := deleteList_spec hl
        simp [ha, hl.seg.1, hm]
    | call a =>
      obtain ⟨t, ht, -⟩ := h.calling w a hp
      obtain ⟨c, hc, -⟩ := Option.map_eq_some_iff.mp ht
      simp [hc]
    | free a =>
      obtain ⟨t, ht, -⟩ := h.freeing w a hp
      obtain ⟨c, hc, -⟩ := Option.map_eq_some_iff.mp ht
      simp [hc]
    | _ => exact ⟨_, rfl⟩
  | wakeUp w => exact ⟨_, rfl⟩
  | destroy d => exact ⟨_, rfl⟩

/-- Every run of the pool returns, in a state with the invariant. -/
theorem exec_created {worker : List ω} {es : List (Event ω α τ)}
    (hes : Along step Enabled (created worker) es) :
    ∃ s, exec step es (created worker) = .ret s ∧ Inv s := by
  refine exec_progress (fun s e h he => ?_) (inv_created worker) hes
  obtain ⟨s', hs'⟩ := h.step_ret he
  exact ⟨s', hs', h.step he hs'⟩

end Tracked

/-! ## Once, and in order -/

/-- A worker takes `t`. -/
def Action.isTake [DecidableEq τ] (t : τ) : Action ω τ → Bool
  | .take _ u => u = t
  | _ => false

/-- A worker calls the callback of `t`. -/
def Action.isCall [DecidableEq τ] (t : τ) : Action ω τ → Bool
  | .call _ u => u = t
  | _ => false

section Once

/-- Nothing comes after the `free`. -/
theorem Life.free_last {t : τ} {l : List (Action ω τ)} (h : Life t l) (w : ω) :
    .free w t ∉ l.tail := by
  cases h <;> simp

variable [DecidableEq τ]

theorem countP_story {p : Action ω τ → Bool} {t : τ} (hp : ∀ x, p x → x.task = t)
    (log : List (Action ω τ)) : (story log t).countP p = log.countP p := by
  rw [story, List.countP_filter]
  refine List.countP_congr fun x _ => ?_
  have := hp x
  grind

theorem Life.countP_isTake {t : τ} {l : List (Action ω τ)} (h : Life t l) :
    l.countP (Action.isTake t) ≤ 1 := by
  cases h <;> simp [Action.isTake]

theorem Life.countP_isCall {t : τ} {l : List (Action ω τ)} (h : Life t l) :
    l.countP (Action.isCall t) ≤ 1 := by
  cases h <;> simp [Action.isCall]

/-- **Every task at most once.** For any number of workers, every interleaving of pushes, workers and
calls of `destroyThreadPool` runs without a fault. In the state that it reaches the list at
`threadPool->task` is a doubly linked list of tasks that no worker took, every task was taken at
most once and called at most once, and it was not freed before its call. -/
theorem tasks_once [DecidableEq ω] [DecidableEq α] {worker : List ω} {es : List (Event ω α τ)}
    (hes : Along step Enabled (created worker) es) :
    ∃ s, exec step es (created worker) = .ret s ∧
      (∃ l, IsList s.mem s.task l ∧ ∀ x ∈ l, ∀ w, .take w x.2 ∉ s.log) ∧
      (∀ t, s.log.countP (Action.isTake t) ≤ 1) ∧ (∀ t, s.log.countP (Action.isCall t) ≤ 1) ∧
      ∀ w t later earlier, s.log = later ++ .call w t :: earlier → ∀ v, .free v t ∉ earlier := by
  obtain ⟨s, hs, h⟩ := exec_created hes
  obtain ⟨l, hl, hstory⟩ := h.list
  refine ⟨s, hs, ⟨l, hl, fun x hx w hw => ?_⟩, fun t => ?_, fun t => ?_, ?_⟩
  · have hw' : Action.take w x.2 ∈ story s.log x.2 := mem_story.mpr hw
    simp [hstory x hx] at hw'
  · rw [← countP_story (t := t)]
    · exact (h.lives t).countP_isTake
    · rintro (_ | ⟨w, u⟩ | _ | _) hx <;> simp_all [Action.isTake, Action.task]
  · rw [← countP_story (t := t)]
    · exact (h.lives t).countP_isCall
    · rintro (_ | _ | ⟨w, u⟩ | _) hx <;> simp_all [Action.isCall, Action.task]
  · intro w t later earlier hlog v hv
    -- The `free` would be in the story behind its first action.
    refine (h.lives t).free_last v ?_
    have hv' : Action.free v t ∈ story earlier t := mem_story.mpr hv
    have hsplit : story s.log t = story later t ++ .call w t :: story earlier t := by
      rw [hlog]
      simp [story, Action.task]
    rw [hsplit]
    cases story later t with
    | nil => exact hv'
    | cons y ys => exact List.mem_append_right _ (List.mem_cons_of_mem _ hv')

/-- The worker blocks, a push wakes it, and it takes and calls the task. -/
theorem tasks_once_sample :
    let es := [Event.worker 0, .worker 0, .worker 0, .worker 0, .push 5 7 [0], .worker 0,
      .worker 0, .worker 0, .worker 0, .worker 0]
    ∃ s : State (Fin 1) Nat Nat, exec step es (created [0]) = .ret s ∧
      (∃ l, IsList s.mem s.task l ∧ ∀ x ∈ l, ∀ w, .take w x.2 ∉ s.log) ∧
      (∀ t, s.log.countP (Action.isTake t) ≤ 1) ∧ (∀ t, s.log.countP (Action.isCall t) ≤ 1) ∧
      ∀ w t later earlier, s.log = later ++ .call w t :: earlier → ∀ v, .free v t ∉ earlier :=
  tasks_once (by decide)

end Once

end ThreadPool
end LinuxBase
