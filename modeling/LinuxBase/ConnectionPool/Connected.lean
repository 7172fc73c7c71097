import LinuxBase.ConnectionPool.Ownership

/-!
# Connections that were not established

`createConnection` does not look at what `connect` returned, so an object whose `connect` failed
goes into the queue like any other, and from there to a client. `AllConnected` holds in all states
exactly if no call of `connect` fails, neither one of `run` nor one of the producer
(`allConnected_iff`); and `run` returns `true` whatever they gave.
-/

namespace LinuxBase
namespace Pool

/-- Every connection in the queue or with a client was established. -/
structure AllConnected (p : Pool) : Prop where
  queue : ∀ c ∈ p.connectionQueue, c.connected = true
  borrowed : ∀ x ∈ p.borrowed, x.2.connected = true

/-- The `connect` of a connection that the producer makes succeeds. -/
def Connects (p : Pool) : Event → Prop
  | .produceConnectionTask connected _ =>
    p.connectionQueue = [] → p.connectionCount < p.maxSize → connected = true
  | _ => True

instance (p : Pool) : DecidablePred (Connects p)
  | .produceConnectionTask connected _ => inferInstanceAs (Decidable
      (p.connectionQueue = [] → p.connectionCount < p.maxSize → connected = true))
  | .getConnection _ | .release .. | .scannerConnectionTask _ | .destroy => .isTrue trivial

variable {p p' : Pool}

theorem AllConnected.createConnection (h : AllConnected p) (now : Int) :
    AllConnected (p.createConnection true now) where
  queue := by
    intro c hc
    simp only [Pool.createConnection, push, List.mem_append, List.mem_singleton] at hc
    rcases hc with hc | rfl
    · exact h.queue c hc
    · rfl
  borrowed := h.borrowed

/-- The object of a failed `connect` is in the queue. -/
theorem not_allConnected_createConnection (p : Pool) (now : Int) :
    ¬ AllConnected (p.createConnection false now) := by
  intro h
  have hc := h.queue ⟨p.created, false, now⟩ (by
    simp [Pool.createConnection, push, Connection.refreshAliveTime])
  cases hc

theorem AllConnected.step {e : Event} (h : AllConnected p) (he : Enabled p e) (hc : Connects p e)
    (hr : Pool.step e p = .ret p') : AllConnected p' := by
  cases moves_of_step hr with
  | empty hq => exact ⟨h.queue, h.borrowed⟩
  | take hq =>
    have hall := h.queue
    rw [hq] at hall
    obtain ⟨hc, hq⟩ := List.forall_mem_cons.mp hall
    exact ⟨hq, List.forall_mem_cons.mpr ⟨hc, h.borrowed⟩⟩
  | release =>
    refine ⟨fun c hc => ?_, fun x hx => h.borrowed x (List.mem_of_mem_erase hx)⟩
    simp only [Pool.release, push, List.mem_append, List.mem_singleton] at hc
    rcases hc with hc | rfl
    · exact h.queue c hc
    · exact h.borrowed _ he
  | wait => exact h
  | create hq hlt =>
    rw [hc hq hlt]
    exact h.createConnection _
  | scan hr =>
    obtain ⟨hsuffix, hborrowed⟩ := scannerLoop_suffix rfl hr
    exact ⟨fun c hc => h.queue c (hsuffix.subset hc), by rw [hborrowed]; exact h.borrowed⟩

/-- `run` makes its connections whatever `connect` returns. -/
theorem allConnected_run {s : Settings} {connected : Nat → Bool} {clock : Nat → Int}
    (hrun : (new s).run connected clock = (true, p))
    (hc : ∀ i < s.initSize.toNat, connected i = true) : AllConnected p := by
  rw [run_eq hrun]
  refine ⟨fun c hmem => ?_, by simp [new]⟩
  obtain ⟨i, hi, rfl⟩ := List.mem_map.mp hmem
  exact hc i (List.mem_range.mp hi)

/-- **Established connections, exactly.** After a `run` that returned `true`, its initial
connections are all established and so is every connection that is queued or borrowed in any state
of any interleaving, exactly if no `connect` fails, neither in `run` nor in the producer. -/
theorem allConnected_iff {s : Settings} {connected : Nat → Bool} {clock : Nat → Int} {p₀ : Pool}
    {es : List Event} (hrun : (new s).run connected clock = (true, p₀))
    (hes : Along step Enabled p₀ es) :
    ((∀ i < s.initSize.toNat, connected i = true) ∧ ∀ p, Visits step p₀ es p → AllConnected p) ↔
      (∀ i < s.initSize.toNat, connected i = true) ∧ Along step Connects p₀ es := by
  refine and_congr_right fun hc => ?_
  refine visits_iff (I := AllConnected) (fun _ h => h) (fun p e p' h he hc hr => h.step he hc hr) ?_
    (allConnected_run hrun hc) hes
  intro p e _ _ hc
  cases e with
  | produceConnectionTask connected now =>
    simp only [Connects, Classical.not_imp, Bool.not_eq_true] at hc
    obtain ⟨hq, hlt, rfl⟩ := hc
    refine ⟨_, rfl, ?_⟩
    rw [Pool.produceConnectionTask, if_neg (by simp [hq]), if_pos hlt]
    exact not_allConnected_createConnection p now
  | getConnection | release | scannerConnectionTask | destroy => exact absurd trivial hc

theorem allConnected_iff_small :
    ((∀ i < small.initSize.toNat, (i == 0) = true) ∧
        ∀ p, Visits step smallStart smallRun p → AllConnected p) ↔
      (∀ i < small.initSize.toNat, (i == 0) = true) ∧ Along step Connects smallStart smallRun :=
  @allConnected_iff small (fun i => i == 0) (fun _ => 0) smallStart smallRun rfl (by decide)

/-- The only `connect` of `run` fails, `run` returns `true`, and a client gets the connection. -/
theorem not_allConnected_small :
    (new small).run (fun _ => false) (fun _ => 0) =
      (true, ((new small).run (fun _ => false) fun _ => 0).2) ∧
    ∃ p, (((new small).run (fun _ => false) fun _ => 0).2).getConnection 0 =
        .ret (some ⟨0, false, 0⟩, p) ∧ ¬ AllConnected p :=
  ⟨rfl, _, rfl, fun h => by cases h.borrowed _ List.mem_cons_self⟩

end Pool
end LinuxBase
