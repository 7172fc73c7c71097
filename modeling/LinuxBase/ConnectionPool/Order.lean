import LinuxBase.ConnectionPool.Idle

/-!
# The order in which connections are handed out

The pool is a queue for all its threads together: the deleter of the `shared_ptr` and the producer
push at its back, `getConnection` and the scanner pop at its front. `queued` and `handed` are what a
step pushes and pops; `connections_fifo` is the balance of a run. So a connection that was given back
is handed out again, or deleted, after exactly those that were in the queue before it.
-/

namespace LinuxBase
namespace Pool

variable {p p' : Pool} {e : Event} {es : List Event}

/-- What a step pushes. -/
def queued : Event → Pool → List Connection
  | .release _ connection now, _ => [connection.refreshAliveTime now]
  | .produceConnectionTask connected now, p =>
    if p.connectionQueue.isEmpty && p.connectionCount < p.maxSize then
      [{ id := p.created, connected, aliveTime := now }]
    else []
  | .getConnection _, _ | .scannerConnectionTask _, _ | .destroy, _ => []

/-- What a step pops: the result of `getConnection`, and what the scanner deletes. -/
def handed : Event → Pool → List Connection
  | .getConnection client, p =>
    match p.getConnection client with
    | .ret (some connection, _) => [connection]
    | _ => []
  | .scannerConnectionTask clock, p => (scannerDeletions clock p.connectionQueue 0 p).map Prod.fst
  | .release .., _ | .produceConnectionTask .., _ | .destroy, _ => []

theorem handed_nil {client : Client} (hq : p.connectionQueue = []) :
    handed (.getConnection client) p = [] := by
  simp only [handed, getConnection_nil hq]

theorem handed_cons {client : Client} {c : Connection} {q : List Connection}
    (hq : p.connectionQueue = c :: q) : handed (.getConnection client) p = [c] := by
  simp only [handed, getConnection_cons hq]

/-- A step takes from the front of the queue and adds at its back. -/
theorem queue_step (hr : step e p = .ret p') :
    p.connectionQueue ++ queued e p = handed e p ++ p'.connectionQueue := by
  cases moves_of_step hr with
  | empty hq => rw [handed_nil hq, queued, List.append_nil, List.nil_append]
  | take hq => rw [handed_cons hq, queued, List.append_nil, hq]; rfl
  | release => rfl
  | @wait connected now =>
    -- The producer had a connection in the queue, or no room for another one.
    have hwait : (p.produceConnectionTask connected now).connectionQueue = p.connectionQueue :=
      congrArg connectionQueue (Run.ret.inj hr)
    have hno : ¬ (p.connectionQueue.isEmpty && decide (p.connectionCount < p.maxSize)) = true := by
      intro hboth
      obtain ⟨hempty, hlt⟩ := Bool.and_eq_true_iff.mp hboth
      simp [produceConnectionTask, hempty, of_decide_eq_true hlt, createConnection, push] at hwait
    rw [queued, if_neg hno, handed, List.append_nil, List.nil_append]
  | create hq hlt => simp [queued, handed, hq, hlt, createConnection, push, Connection.refreshAliveTime]
  | @scan clock p' hscan =>
    have hdel := scannerLoop_deletions clock p.connectionQueue 0 p rfl
    rw [hscan] at hdel
    rw [queued, handed, List.append_nil]
    exact hdel.1

/-- **First in, first out.** In every run from any state of the pool, what the steps have handed out
or deleted, with the queue at the end, is the queue at the start and what the steps have pushed. So of
a connection in the queue, either only connections in front of it were popped, or first those and then
it. -/
theorem connections_fifo (hp : exec step es p = .ret p') :
    p.connectionQueue ++ gather step queued es p = gather step handed es p ++ p'.connectionQueue ∧
    ∀ q c r, p.connectionQueue = q ++ c :: r →
      gather step handed es p <+: q ∨ q ++ [c] <+: gather step handed es p := by
  have hbalance : p.connectionQueue ++ gather step queued es p =
      gather step handed es p ++ p'.connectionQueue :=
    exec_conserves (P := fun _ _ => True) (I := fun _ => True) (fun _ _ _ _ _ _ => trivial)
      (fun _ _ _ _ _ h => queue_step h) trivial (along_of_mem fun _ _ => trivial) hp
  refine ⟨hbalance, fun q c r hq => ?_⟩
  have hhanded : gather step handed es p <+: p.connectionQueue ++ gather step queued es p :=
    ⟨p'.connectionQueue, hbalance.symm⟩
  have hfront : q ++ [c] <+: p.connectionQueue ++ gather step queued es p :=
    ⟨r ++ gather step queued es p, by rw [hq]; simp⟩
  rcases List.prefix_or_prefix_of_prefix hhanded hfront with h | h
  · rcases List.prefix_concat_iff.mp h with heq | h
    · exact .inr (heq ▸ List.prefix_rfl)
    · exact .inl h
  · exact .inr h

theorem connections_fifo_small :
    smallStart.connectionQueue ++ gather step queued smallRun smallStart =
      gather step handed smallRun smallStart ++ smallEnd.connectionQueue ∧
    ∀ q c r, smallStart.connectionQueue = q ++ c :: r →
      gather step handed smallRun smallStart <+: q ∨
        q ++ [c] <+: gather step handed smallRun smallStart :=
  @connections_fifo smallStart smallEnd smallRun (by decide)

end Pool
end LinuxBase
