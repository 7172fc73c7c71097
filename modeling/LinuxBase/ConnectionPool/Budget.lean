import LinuxBase.ConnectionPool.Waiting

/-!
# The time that `getConnection` takes

`testConnectionPoolHasConnection` waits in a loop, and each round of it starts a new `wait_for` with
the whole `maxConnectionTimeout`. A client that is notified finds an empty queue if another one was
faster, and then it starts from zero. So a call that gives up has stayed within `maxConnectionTimeout`
exactly if the waits in vain before its last one took no more than that left
(`withinBudget_iff_not_overdraws`). As a wait that times out takes all of it, they have to take no time
at all (`withinBudget_iff`).

`testConnectionPoolHasConnection` of `Pool` is what the loop does after its last wake-up
(`WaitFor.eq_last`).
-/

namespace LinuxBase
namespace Pool

/-- What a `wait_for` did: the milliseconds that it took, whether it ended by the timeout, and the
pool on waking. -/
structure WaitFor where
  milliseconds : Nat
  timeout : Bool
  pool : Pool

namespace WaitFor

/-- `testConnectionPoolHasConnection`, with what its calls of `wait_for` do: its result, the pool then
and the calls that it does not make. It waits on (`more`) when there are none left. -/
def testConnectionPoolHasConnection :
    Pool → List WaitFor → Run ((Bool × Pool) × List WaitFor)
  | p, waits =>
    if p.connectionQueue.isEmpty then
      match waits with
      | [] => .more
      | w :: waits =>
        if w.timeout then
          if w.pool.connectionQueue.isEmpty then
            .ret ((false, { w.pool with error := "获取连接超时，无可用连接" }), waits)
          else testConnectionPoolHasConnection w.pool waits
        else testConnectionPoolHasConnection w.pool waits
    else .ret ((true, p), waits)

/-- The wait was ended by a notification, and another client has the connection. -/
structure InVain (w : WaitFor) : Prop where
  notified : w.timeout = false
  empty : w.pool.connectionQueue = []

/-- The wait was ended by its timeout beside an empty queue. -/
structure Expires (w : WaitFor) : Prop where
  timeout : w.timeout = true
  empty : w.pool.connectionQueue = []

/-- The time of all the waits. -/
def total : List WaitFor → Nat
  | [] => 0
  | w :: waits => w.milliseconds + total waits

variable {p : Pool} {w : WaitFor} {waits : List WaitFor}

theorem test_of_ne_nil (h : p.connectionQueue ≠ []) :
    testConnectionPoolHasConnection p waits = .ret ((true, p), waits) := by
  rw [testConnectionPoolHasConnection.eq_def]
  exact if_neg (by simpa using h)

/-- A round of the loop: the test of `Threads.getConnection` on waking. -/
theorem test_cons (h : p.connectionQueue = []) :
    testConnectionPoolHasConnection p (w :: waits) =
      if w.pool.connectionQueue.isEmpty && !w.timeout then
        testConnectionPoolHasConnection w.pool waits
      else .ret (w.pool.testConnectionPoolHasConnection, waits) := by
  rw [testConnectionPoolHasConnection, h, List.isEmpty_nil, if_pos rfl]
  cases hq : w.pool.connectionQueue.isEmpty with
  | true => cases w.timeout <;> simp [Pool.testConnectionPoolHasConnection, hq]
  | false =>
    have hne : w.pool.connectionQueue ≠ [] := by simpa using hq
    simp [Pool.testConnectionPoolHasConnection, hq, test_of_ne_nil hne]

/-- The result is that of the test after the last wake-up, or at once. -/
theorem eq_last {r : Bool × Pool} {rest : List WaitFor}
    (h : testConnectionPoolHasConnection p waits = .ret (r, rest)) :
    ∃ q, (q = p ∨ ∃ w ∈ waits, q = w.pool) ∧ r = q.testConnectionPoolHasConnection := by
  induction waits generalizing p with
  | nil =>
    by_cases hq : p.connectionQueue = []
    · rw [testConnectionPoolHasConnection, hq] at h
      cases h
    · rw [test_of_ne_nil hq] at h
      cases h
      exact ⟨p, .inl rfl, by simp [Pool.testConnectionPoolHasConnection, hq]⟩
  | cons w waits ih =>
    by_cases hq : p.connectionQueue = []
    · rw [test_cons hq] at h
      split at h
      · obtain ⟨q, hmem, hr⟩ := ih h
        refine ⟨q, .inr ?_, hr⟩
        rcases hmem with rfl | ⟨v, hv, rfl⟩
        · exact ⟨w, List.mem_cons_self, rfl⟩
        · exact ⟨v, List.mem_cons_of_mem _ hv, rfl⟩
      · cases h
        exact ⟨w.pool, .inr ⟨w, List.mem_cons_self, rfl⟩, rfl⟩
    · rw [test_of_ne_nil hq] at h
      cases h
      exact ⟨p, .inl rfl, by simp [Pool.testConnectionPoolHasConnection, hq]⟩

/-- The call makes these waits, and returns `false`. -/
def GivesUp (p : Pool) (waits : List WaitFor) : Prop :=
  ∃ q, testConnectionPoolHasConnection p waits = .ret ((false, q), [])

theorem GivesUp.queue_nil (h : GivesUp p waits) : p.connectionQueue = [] := by
  obtain ⟨q, h⟩ := h
  refine Classical.byContradiction fun hq => ?_
  rw [test_of_ne_nil hq] at h
  cases h

theorem vain_cons_iff : (∃ vain last, w :: waits = vain ++ [last] ∧ (∀ v ∈ vain, InVain v) ∧
    Expires last) ↔ InVain w ∧ (∃ vain last, waits = vain ++ [last] ∧ (∀ v ∈ vain, InVain v) ∧
      Expires last) ∨ waits = [] ∧ Expires w := by
  constructor
  · rintro ⟨vain, last, hwaits, hvain, hlast⟩
    cases vain with
    | nil => cases hwaits; exact .inr ⟨rfl, hlast⟩
    | cons v vain =>
      cases hwaits
      obtain ⟨hw, hvain⟩ := List.forall_mem_cons.mp hvain
      exact .inl ⟨hw, vain, last, rfl, hvain, hlast⟩
  · rintro (⟨hw, vain, last, rfl, hvain, hlast⟩ | ⟨rfl, hlast⟩)
    · exact ⟨w :: vain, last, rfl, List.forall_mem_cons.mpr ⟨hw, hvain⟩, hlast⟩
    · exact ⟨[], w, rfl, by simp, hlast⟩

/-- A call gives up after waits in vain and one that times out. -/
theorem givesUp_iff : GivesUp p waits ↔ p.connectionQueue = [] ∧
    ∃ vain last, waits = vain ++ [last] ∧ (∀ w ∈ vain, InVain w) ∧ Expires last := by
  induction waits generalizing p with
  | nil =>
    refine iff_of_false (fun h => ?_) (by simp)
    have hq := h.queue_nil
    obtain ⟨q, h⟩ := h
    rw [testConnectionPoolHasConnection, hq] at h
    cases h
  | cons w waits ih =>
    by_cases hq : p.connectionQueue = []
    swap
    · exact iff_of_false (fun h => hq h.queue_nil) fun h => hq h.1
    simp only [GivesUp, test_cons hq, hq, true_and, vain_cons_iff] at ih ⊢
    by_cases hempty : w.pool.connectionQueue = []
    swap
    · have hvain : ¬ InVain w := fun h => hempty h.empty
      have hlast : ¬ Expires w := fun h => hempty h.empty
      simp [Pool.testConnectionPoolHasConnection, hempty, hvain, hlast]
    cases htimeout : w.timeout with
    | false =>
      have hvain : InVain w := ⟨htimeout, hempty⟩
      have hlast : ¬ Expires w := fun h => absurd h.timeout (by simp [htimeout])
      simpa [hempty, hvain, hlast] using ih (p := w.pool)
    | true =>
      have hvain : ¬ InVain w := fun h => absurd h.notified (by simp [htimeout])
      have hlast : Expires w := ⟨htimeout, hempty⟩
      simp [Pool.testConnectionPoolHasConnection, hempty, hvain, hlast]

/-- If the call gives up, the queue was empty at its last wake-up, and it has waited for no longer than
`maxConnectionTimeout`. -/
def WithinBudget (maxConnectionTimeout : Int) (p : Pool) (waits : List WaitFor) : Prop :=
  GivesUp p waits → (∃ last ∈ waits.getLast?, last.pool.connectionQueue = []) ∧
    total waits ≤ maxConnectionTimeout

/-- The last wait times out beside an empty queue, and those before it, all in vain, took more than
it left of `maxConnectionTimeout`. -/
def Overdraws (maxConnectionTimeout : Int) (waits : List WaitFor) : Prop :=
  ∃ vain last, waits = vain ++ [last] ∧ (∀ w ∈ vain, InVain w) ∧ Expires last ∧
    maxConnectionTimeout - last.milliseconds < total vain

theorem total_append_singleton (waits : List WaitFor) (w : WaitFor) :
    total (waits ++ [w]) = total waits + w.milliseconds := by
  induction waits with
  | nil => simp [total]
  | cons v waits ih =>
    rw [List.cons_append, total, ih, total]
    omega

theorem total_pos_iff : 0 < total waits ↔ ∃ w ∈ waits, 0 < w.milliseconds := by
  induction waits with
  | nil => simp [total]
  | cons w waits ih =>
    rw [total, List.exists_mem_cons_iff, ← ih]
    omega

/-- For all sequences of waits: if the call returns `false`, the queue was empty at its last wake-up and
the waits took at most `maxConnectionTimeout` together, unless the call begins with an empty queue, and
the waits in vain before the last one took more than that left. -/
theorem withinBudget_iff_not_overdraws (maxConnectionTimeout : Int) (p : Pool) (waits : List WaitFor) :
    WithinBudget maxConnectionTimeout p waits ↔
      ¬ (p.connectionQueue = [] ∧ Overdraws maxConnectionTimeout waits) := by
  rw [WithinBudget, givesUp_iff]
  constructor
  · rintro h ⟨hq, vain, last, rfl, hvain, hlast, hlong⟩
    obtain ⟨-, hle⟩ := h ⟨hq, vain, last, rfl, hvain, hlast⟩
    rw [total_append_singleton] at hle
    omega
  · rintro h ⟨hq, vain, last, rfl, hvain, hlast⟩
    refine ⟨⟨last, by simp, hlast.empty⟩, ?_⟩
    rw [total_append_singleton]
    refine Int.not_lt.mp fun hlt => h ⟨hq, vain, last, rfl, hvain, hlast, ?_⟩
    omega

/-- The waits are some in vain, of which one took time, and one that times out beside an empty queue. -/
def Lingers (waits : List WaitFor) : Prop :=
  ∃ vain last, waits = vain ++ [last] ∧ (∀ w ∈ vain, InVain w) ∧ Expires last ∧
    ∃ w ∈ vain, 0 < w.milliseconds

/-- A `wait_for` that times out has taken the whole time, and leaves nothing to those in vain. -/
theorem overdraws_iff {maxConnectionTimeout : Int}
    (hfull : ∀ w ∈ waits, w.timeout = true → w.milliseconds = maxConnectionTimeout) :
    Overdraws maxConnectionTimeout waits ↔ Lingers waits := by
  refine exists_congr fun vain => exists_congr fun last => and_congr_right fun hwaits =>
    and_congr_right fun _ => and_congr_right fun hlast => ?_
  rw [hfull last (by simp [hwaits]) hlast.timeout, Int.sub_self]
  rw [← total_pos_iff]
  omega

/-- **The budget, exactly.** For all sequences of waits, of which one that times out takes the whole
`maxConnectionTimeout`: if the call returns `false`, the queue was empty at its last wake-up and the
waits took at most `maxConnectionTimeout` together, unless the call begins with an empty queue, and one
of its waits in vain took time. -/
theorem withinBudget_iff {maxConnectionTimeout : Int}
    (hfull : ∀ w ∈ waits, w.timeout = true → w.milliseconds = maxConnectionTimeout) :
    WithinBudget maxConnectionTimeout p waits ↔ ¬ (p.connectionQueue = [] ∧ Lingers waits) := by
  rw [withinBudget_iff_not_overdraws, overdraws_iff hfull]

/-! ## A client that waits twice -/

/-- Client `1` waits for a connection, and client `2` takes the one that the producer makes. -/
def overtaken : List Threads.Event :=
  [.getConnection 0, .getConnection 1, .produceConnectionTask true 5, .getConnection 2]

/-- The small pool then. -/
def taken : Pool :=
  { toSettings := small, connectionCount := 2,
    borrowed := [(2, ⟨1, true, 5⟩), (0, ⟨0, true, 0⟩)], created := 2 }

/-- If client `1` is overtaken in no time, it gives up after 100 milliseconds. -/
theorem withinBudget_iff_overtaken : WithinBudget 100
    { smallStart with connectionQueue := [], borrowed := [(0, ⟨0, true, 0⟩)] }
    [⟨0, false, taken⟩, ⟨100, true, taken⟩] := by
  refine (withinBudget_iff (by simp)).mpr ?_
  rintro ⟨-, vain, last, hwaits, -, -, w, hw, hpos⟩
  obtain ⟨rfl, -⟩ := List.append_inj' (show [_] ++ [_] = vain ++ [last] from hwaits) rfl
  rw [List.mem_singleton.mp hw] at hpos
  cases hpos

/-- Client `1` was notified and finds no connection. With 60 of 100 milliseconds gone it waits for
another 100. -/
theorem not_withinBudget_overtaken :
    Along Threads.step Threads.Enabled { pool := smallStart } overtaken ∧
    (∃ s, exec Threads.step overtaken { pool := smallStart } = .ret s ∧ s.pool = taken ∧
      s.client 1 = .notified) ∧
    ¬ WithinBudget 100 { smallStart with connectionQueue := [], borrowed := [(0, ⟨0, true, 0⟩)] }
      [⟨60, false, taken⟩, ⟨100, true, taken⟩] := by
  refine ⟨by decide, ⟨_, rfl, rfl, rfl⟩, fun h => ?_⟩
  exact absurd (h ⟨_, rfl⟩).2 (by decide)

end WaitFor

end Pool
end LinuxBase
