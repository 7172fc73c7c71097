import LinuxBase.ThreadPool.Basic

/-!
# Where the threads are

`Placed` is the part of the invariant that does not look at the tasks: who holds the mutex, what a
worker has tested, and what a call of `destroyThreadPool` has done. It has the two facts that a
shutdown rests on. Behind the broadcast no worker is in the wait, or on its way into it or to a
task (`released`): the broadcast had the mutex, and since then `terminate` is set. So no worker is
at its `DELETE_LIST` when `task = NULL` is written without the mutex (`taking`).
-/

namespace LinuxBase
namespace ThreadPool

variable {ω α τ : Type}

/-- The places with the mutex. -/
@[grind] def Place.holds : Place α → Bool
  | .test | .testTerminate | .wait | .testExit | .take => true
  | _ => false

/-- The broadcast of the call is done. -/
@[grind] def Destroy.broadcast : Destroy → Bool
  | .start | .terminated => false
  | _ => true

/-- No call of `destroyThreadPool` has begun. -/
def State.Running (s : State ω α τ) : Prop := ∀ d, s.destroy d = .start

/-- A call of `destroyThreadPool` is behind its broadcast. -/
def State.Broadcasted (s : State ω α τ) : Prop := ∃ d, (s.destroy d).broadcast

/-- The invariant of the places (module doc). -/
structure Placed (s : State ω α τ) : Prop where
  holder : ∀ w, (s.place w).holds ↔ s.mutex = some w
  running : s.terminate = false → s.Running
  stopping : s.terminate = true → ∃ d, s.destroy d ≠ .start
  parked : ∀ w, s.place w = .testTerminate ∨ s.place w = .wait → s.task = none
  leaving : ∀ w, s.place w = .testExit → s.terminate = false → s.task ≠ none
  taking : ∀ w, s.place w = .take → s.task ≠ none
  released : ∀ d w, (s.destroy d).broadcast →
    s.place w ≠ .blocked ∧ s.place w ≠ .wait ∧ s.place w ≠ .take

theorem placed_created (worker : List ω) : Placed (created worker : State ω α τ) where
  holder w := by simp [created, Place.holds]
  running _ d := rfl
  stopping h := by cases h
  parked w h := by simp [created] at h
  leaving w h := by cases h
  taking w h := by cases h
  released d w h := by cases h

variable [DecidableEq ω] [DecidableEq α]

variable {s s' : State ω α τ} {e : Event ω α τ}

/-- A worker that changes the mutex found it free, or had it. -/
theorem Placed.holder_move (h : Placed s) (hm : Move s e s') (w : ω) :
    (s'.place w).holds ↔ s'.mutex = some w := by
  have hh := h.holder
  cases hm <;> grind

theorem Placed.running_move (h : Placed s) (hm : Move s e s') (ht : s'.terminate = false) :
    s'.Running := by
  have hr := h.running
  unfold State.Running at *
  cases hm <;> grind

theorem Placed.stopping_move (h : Placed s) (hm : Move s e s') (ht : s'.terminate = true) :
    ∃ d, s'.destroy d ≠ .start := by
  cases hm with
  | @terminate d hd => exact ⟨d, by simp⟩
  | broadcast | clearTask | clearWorker =>
    obtain ⟨d, hd⟩ := h.stopping ht
    exact ⟨d, by grind⟩
  | _ => exact h.stopping ht

/-- A push needs the mutex, which a worker with an empty list in its hands has. -/
theorem Placed.parked_move (h : Placed s) (hm : Move s e s') (w : ω)
    (hw : s'.place w = .testTerminate ∨ s'.place w = .wait) : s'.task = none := by
  have hh := h.holder
  have hp := h.parked
  cases hm <;> grind

theorem Placed.leaving_move (h : Placed s) (hm : Move s e s') (w : ω)
    (hw : s'.place w = .testExit) (ht : s'.terminate = false) : s'.task ≠ none := by
  have hh := h.holder
  have hr := h.running
  have hl := h.leaving
  unfold State.Running at hr
  cases hm <;> grind

/-- `task = NULL` is written behind the broadcast only, when no worker is at its `DELETE_LIST`. -/
theorem Placed.taking_move (h : Placed s) (hm : Move s e s') (w : ω) (hw : s'.place w = .take) :
    s'.task ≠ none := by
  have hh := h.holder
  have hl := h.leaving
  have ht := h.taking
  have hb := h.released
  cases hm <;> grind

theorem Placed.released_move (h : Placed s) (hm : Move s e s') (d : Nat) (w : ω)
    (hd : (s'.destroy d).broadcast) :
    s'.place w ≠ .blocked ∧ s'.place w ≠ .wait ∧ s'.place w ≠ .take := by
  have hh := h.holder w
  cases hm with
  | broadcast hstart hmutex =>
    -- The mutex is free, so no worker is in its section, and the blocked ones wake up.
    have hfree : (s.place w).holds ≠ true := fun hw => by
      rw [hh.mp hw] at hmutex
      cases hmutex
    simp only [State.wake_place]
    cases hp : s.place w <;> simp_all [Place.holds]
  | _ =>
    have hr := h.running
    have hb := h.released
    unfold State.Running at hr
    grind

/-- Every step keeps the places. -/
theorem Placed.move (h : Placed s) (hm : Move s e s') : Placed s' where
  holder := h.holder_move hm
  running := h.running_move hm
  stopping := h.stopping_move hm
  parked := h.parked_move hm
  leaving := h.leaving_move hm
  taking := h.taking_move hm
  released := h.released_move hm

end ThreadPool
end LinuxBase
