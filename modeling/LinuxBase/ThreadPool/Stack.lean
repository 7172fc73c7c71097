import LinuxBase.ThreadPool.Tasks

/-!
# The pool is a stack

`INSERT_LIST` puts a task in front of the list and a worker takes the first one, so the pool is a
stack for all its threads together. `stack` is the stack of a history of pushes and takes, and it is
not there for a history in which a worker took anything but the top. The list of the pool is the upper
part of it; what is below was dropped by a `task = NULL` (`Stacked`).

So a task waits for all that come after it: when a worker takes it, every task that was pushed behind
it was taken before (`tasks_lifo`).
-/

namespace LinuxBase
namespace ThreadPool

open DList

variable {ω α τ : Type} [DecidableEq τ]

/-- The tasks that were pushed and not taken, the newest first; none if a take was not of the
newest. -/
def stack : List (Action ω τ) → Option (List τ)
  | [] => some []
  | .push t :: log => (stack log).map (t :: ·)
  | .take _ t :: log =>
    match stack log with
    | some (u :: ts) => if u = t then some ts else none
    | _ => none
  | .call _ _ :: log | .free _ _ :: log => stack log

theorem stack_take {w : ω} {t : τ} {log : List (Action ω τ)} {ts : List τ} :
    stack (.take w t :: log) = some ts ↔ stack log = some (t :: ts) := by
  rw [stack]
  cases stack log with
  | none => simp
  | some us =>
    cases us with
    | nil => simp
    | cons u us =>
      dsimp only
      by_cases h : u = t <;> simp [h]

/-- The call has written `task = NULL`. -/
@[grind] def Destroy.cleared : Destroy → Bool
  | .taskCleared | .finished => true
  | _ => false

/-- The list is the upper part of the stack (module doc). -/
def Stacked (s : State ω α τ) : Prop :=
  ∃ l lost, IsList s.mem s.task l ∧ stack s.log = some (l.map Prod.snd ++ lost) ∧
    ((∀ d, (s.destroy d).cleared = false) → lost = [])

section Steps

variable {s s' : State ω α τ}

theorem stacked_created (worker : List ω) : Stacked (created worker : State ω α τ) :=
  ⟨[], [], ⟨rfl, List.nodup_nil, trivial⟩, rfl, fun _ => rfl⟩

/-- A step that leaves the list and the stack alone. -/
theorem Stacked.frame (h : Stacked s) (hmem : s'.mem = s.mem) (htask : s'.task = s.task)
    (hlog : stack s'.log = stack s.log)
    (hd : (∀ d, (s'.destroy d).cleared = false) → ∀ d, (s.destroy d).cleared = false) :
    Stacked s' := by
  obtain ⟨l, lost, hl, hs, hlost⟩ := h
  exact ⟨l, lost, by rw [hmem, htask]; exact hl, by rw [hlog]; exact hs, fun h => hlost (hd h)⟩

variable [DecidableEq ω] [DecidableEq α]

theorem Stacked.move {e : Event ω α τ} (h : Stacked s) (hi : Inv s) (hm : Move s e s') :
    Stacked s' := by
  cases hm with
  | @push item t ws m hmutex hfree hnew hws hwake hm =>
    obtain ⟨l, lost, hl, hs, hlost⟩ := h
    obtain ⟨m', hm', hl', -⟩ := insertTask_spec hl hfree t
    rw [hm'] at hm
    cases hm
    exact ⟨_, lost, hl', by simp [stack, hs], hlost⟩
  | @take w a c m task hp ha hc hm =>
    obtain ⟨l, lost, hl, hs, hlost⟩ := h
    rw [ha] at hl
    rcases l with - | ⟨x, l⟩
    · cases hl.head_eq
    obtain rfl : a = x.1 := Option.some.inj hl.head_eq
    obtain ⟨m', hm', hl', -⟩ := deleteList_spec hl
    rw [hm'] at hm
    cases hm
    have hval : c.val = x.2 := by
      have hx := hl.val_eq List.mem_cons_self
      rw [hc] at hx
      exact Option.some.inj hx
    refine ⟨l, lost, hl', stack_take.mpr ?_, hlost⟩
    rw [hs, hval]
    rfl
  | @free w a c hp hc =>
    obtain ⟨l, lost, hl, hs, hlost⟩ := h
    exact ⟨l, lost, hl.congr fun x hx => Function.update_of_ne (hi.ne_of_free hp hl x hx) _ _, hs,
      hlost⟩
  | @clearTask d hd =>
    obtain ⟨l, lost, -, hs, -⟩ := h
    refine ⟨[], l.map Prod.snd ++ lost, ⟨rfl, List.nodup_nil, trivial⟩, hs, fun hno => ?_⟩
    have := hno d
    simp [Destroy.cleared] at this
  | call hp hc => exact h.frame rfl rfl rfl id
  | lock | empty | found | leave | sleep | block | exit | go | wakeUp => exact h.frame rfl rfl rfl id
  | terminate hd | broadcast hd | clearWorker hd =>
    exact h.frame rfl rfl rfl fun hno u => by have := hno u; grind

end Steps

/-! ## The newest task first -/

/-- While nobody takes `t`, the stack keeps what it had from `t` on, and above it there is what was
pushed and not taken since. -/
theorem stack_append {t : τ} {ts us : List τ} {mid log : List (Action ω τ)}
    (hlog : stack log = some (t :: ts)) (hmid : stack (mid ++ log) = some us)
    (ht : ∀ w, .take w t ∉ mid) :
    ∃ above, us = above ++ t :: ts ∧ (∀ u ∈ above, .push u ∈ mid) ∧
      ∀ u, .push u ∈ mid → u ∈ above ∨ ∃ w, .take w u ∈ mid := by
  induction mid generalizing us with
  | nil =>
    rw [List.nil_append, hlog] at hmid
    cases hmid
    exact ⟨[], rfl, by simp, by simp⟩
  | cons x mid ih =>
    have ht' : ∀ w, .take w t ∉ mid := fun w hw => ht w (List.mem_cons_of_mem _ hw)
    cases x with
    | push u =>
      obtain ⟨vs, hvs, hus⟩ := Option.map_eq_some_iff.mp hmid
      obtain ⟨above, rfl, habove, hpush⟩ := ih hvs ht'
      refine ⟨u :: above, hus.symm, by grind, fun v hv => ?_⟩
      rcases List.mem_cons.mp hv with hv | hv
      · cases hv
        exact .inl List.mem_cons_self
      · grind
    | take w u =>
      obtain ⟨above, habove, hmem, hpush⟩ := ih (stack_take.mp hmid) ht'
      cases above with
      | nil =>
        cases habove
        exact absurd List.mem_cons_self (ht w)
      | cons v above =>
        cases habove
        refine ⟨above, rfl, by grind, fun x hx => ?_⟩
        rcases List.mem_cons.mp hx with hx | hx
        · cases hx
        · rcases hpush x hx with hx | ⟨w', hw'⟩
          · rcases List.mem_cons.mp hx with rfl | hx
            · exact .inr ⟨w, List.mem_cons_self⟩
            · exact .inl hx
          · exact .inr ⟨w', List.mem_cons_of_mem _ hw'⟩
    | call w u | free w u =>
      obtain ⟨above, habove, hmem, hpush⟩ := ih hmid ht'
      exact ⟨above, habove, by grind, by grind⟩

/-- A history with a stack had one before. -/
theorem stack_of_append {later log : List (Action ω τ)} {ts : List τ}
    (h : stack (later ++ log) = some ts) : ∃ us, stack log = some us := by
  induction later generalizing ts with
  | nil => exact ⟨ts, h⟩
  | cons x later ih =>
    cases x with
    | push t =>
      obtain ⟨us, hus, -⟩ := Option.map_eq_some_iff.mp h
      exact ih hus
    | take w t => exact ih (stack_take.mp h)
    | call w t | free w t => exact ih h

/-- Only its push comes before the take of a task. -/
theorem Life.before_take {ω τ : Type} {t : τ} {l : List (Action ω τ)} (h : Life t l) {w : ω}
    {a r : List (Action ω τ)} (hl : l = a ++ .take w t :: r) : r = [.push t] := by
  cases h <;> rcases a with - | ⟨x, - | ⟨y, - | ⟨z, - | ⟨u, a⟩⟩⟩⟩ <;> simp_all

variable [DecidableEq ω] [DecidableEq α]

/-- **Last in, first out.** For any number of workers and every interleaving of pushes, workers and
calls of `destroyThreadPool`: the list of the pool is the stack of what was pushed and not taken, less
what a `task = NULL` has dropped from below it; and when a worker takes a task, all tasks that were
pushed behind it have been taken before. -/
theorem tasks_lifo {worker : List ω} {es : List (Event ω α τ)}
    (hes : Along step Enabled (created worker) es) :
    ∃ s l lost, exec step es (created worker) = .ret s ∧ IsList s.mem s.task l ∧
      stack s.log = some (l.map Prod.snd ++ lost) ∧
      ((∀ d, (s.destroy d).cleared = false) → lost = []) ∧
      ∀ later w t mid earlier, s.log = later ++ .take w t :: (mid ++ .push t :: earlier) →
        ∀ u, .push u ∈ mid → ∃ v, .take v u ∈ mid := by
  have hrun : ∃ s, exec step es (created worker) = .ret s ∧ Inv s ∧ Stacked s := by
    refine exec_progress (fun s e ⟨hi, hs⟩ he => ?_) ⟨inv_created worker, stacked_created worker⟩ hes
    obtain ⟨s', hs'⟩ := hi.step_ret he
    exact ⟨s', hs', hi.step he hs', hs.move hi (step_move he hs')⟩
  obtain ⟨s, hexec, hi, l, lost, hl, hs, hlost⟩ := hrun
  refine ⟨s, l, lost, hexec, hl, hs, hlost, fun later w t mid earlier hlog u hu => ?_⟩
  have hlife := hi.lives t
  have hsplit : story s.log t =
      story later t ++ .take w t :: (story mid t ++ .push t :: story earlier t) := by
    rw [hlog]
    simp [story, Action.task]
  rw [hlog] at hs
  obtain ⟨us, hus⟩ := stack_of_append hs
  have htop := stack_take.mp hus
  obtain ⟨ts, hts⟩ := stack_of_append htop
  obtain ⟨rest, hrest, rfl⟩ := Option.map_eq_some_iff.mp hts
  -- The story of `t` has one push and one take.
  have hone : story mid t = [] := by
    have htail := hlife.before_take hsplit
    cases hb : story mid t with
    | nil => rfl
    | cons x b => simp [hb] at htail
  have hnot : ∀ x : Action ω τ, x.task = t → x ∉ mid := by
    intro x hx hmem
    have := hone ▸ (hx ▸ mem_story.mpr hmem : x ∈ story mid t)
    cases this
  obtain ⟨above, habove, hpushed, hpush⟩ := stack_append hts htop fun v => hnot _ rfl
  cases above with
  | nil => exact (hpush u hu).resolve_left (List.not_mem_nil)
  | cons x above =>
    cases habove
    exact absurd (hpushed t List.mem_cons_self) (hnot _ rfl)

/-- The second task is taken first. -/
theorem tasks_lifo_sample :
    let es := [Event.push 5 7 [], .push 6 8 [], .worker 0, .worker 0, .worker 0, .worker 0]
    ∃ (s : State (Fin 1) Nat Nat) (l : _) (lost : List Nat), exec step es (created [0]) = .ret s ∧
      IsList s.mem s.task l ∧ stack s.log = some (l.map Prod.snd ++ lost) ∧
      ((∀ d, (s.destroy d).cleared = false) → lost = []) ∧
      ∀ later w t mid earlier, s.log = later ++ .take w t :: (mid ++ .push t :: earlier) →
        ∀ u, .push u ∈ mid → ∃ v, .take v u ∈ mid :=
  tasks_lifo (by decide)

end ThreadPool
end LinuxBase
