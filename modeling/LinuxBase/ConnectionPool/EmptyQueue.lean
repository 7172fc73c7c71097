import LinuxBase.ConnectionPool.Ownership

/-!
# Reads of an empty queue

`getConnection` tests the queue before it reads its front. The scanner tests the counter, which
counts the borrowed connections too, and the destructor reads the front once more after its last
`pop`. So:

* the scanner faults exactly when the queue holds fewer connections than the counter is above
  `initSize`, that is when more than `initSize` connections are borrowed, and each of the queued
  ones has expired when the scanner looks at it (`scannerLoop_ne_fault_iff`);
* the destructor always faults (`destroy_eq_fault`).

`noEmptyRead_iff` is the exact condition over runs.
-/

namespace LinuxBase
namespace Pool

/-- The scanner finds a queued connection that has not expired when it looks at it. -/
def HasUnexpired (clock : Nat → Int) (i : Nat) (p : Pool) (queue : List Connection) : Prop :=
  ∃ (k : Nat) (c : Connection), queue[k]? = some c ∧ c.getAliveTime (clock (i + k)) ≤ p.maxIdleTime

/-- The steps that read no empty queue: a scanner pass that starts with at most `initSize`
borrowed connections or that finds an unexpired one; never the destructor. -/
def FrontSafe (p : Pool) : Event → Prop
  | .scannerConnectionTask clock =>
    (p.borrowed.length : Int) ≤ p.initSize ∨ HasUnexpired clock 0 p p.connectionQueue
  | .destroy => False
  | _ => True

theorem hasUnexpired_cons {clock : Nat → Int} {i : Nat} {p : Pool} {c : Connection}
    {q : List Connection} :
    HasUnexpired clock i p (c :: q) ↔
      c.getAliveTime (clock i) ≤ p.maxIdleTime ∨ HasUnexpired clock (i + 1) p q := by
  constructor
  · rintro ⟨k, d, hk, hd⟩
    cases k with
    | zero => cases hk; exact .inl hd
    | succ k => exact .inr ⟨k, d, hk, by rw [show i + 1 + k = i + (k + 1) by omega]; exact hd⟩
  · rintro (h | ⟨k, d, hk, hd⟩)
    · exact ⟨0, c, rfl, h⟩
    · exact ⟨k + 1, d, hk, by rw [show i + (k + 1) = i + 1 + k by omega]; exact hd⟩

/-- The scanner's loop reads no empty queue exactly when the queue covers the connections above
`initSize`, or one of the queue has not expired. -/
theorem scannerLoop_ne_fault_iff {clock : Nat → Int} {queue : List Connection} {i : Nat}
    {p : Pool} :
    scannerLoop clock queue i p ≠ .fault ↔
      p.connectionCount ≤ p.initSize + queue.length ∨ HasUnexpired clock i p queue := by
  induction queue generalizing i p with
  | nil =>
    rw [scannerLoop_nil]
    have hn : ¬ HasUnexpired clock i p [] := by rintro ⟨k, c, hk, -⟩; simp at hk
    split
    · simp only [ne_eq, not_true_eq_false, List.length_nil, hn, or_false, false_iff]; omega
    · simp only [ne_eq, reduceCtorEq, not_false_eq_true, List.length_nil, true_iff]; left; omega
  | cons c q ih =>
    rw [scannerLoop_cons, hasUnexpired_cons]
    split
    · rename_i hdel
      rw [ih]
      simp only [drop, List.length_cons, HasUnexpired]
      constructor
      · rintro (h | h)
        · left; omega
        · exact .inr (.inr h)
      · rintro (h | h | h)
        · left; omega
        · omega
        · exact .inr h
    · rename_i hdel
      simp only [ne_eq, reduceCtorEq, not_false_eq_true, true_iff, List.length_cons]
      by_cases hgt : p.connectionCount > p.initSize
      · exact .inr (.inl (Int.not_lt.mp fun hold => hdel ⟨hgt, hold⟩))
      · left; omega

/-- The condition is exact for one step, where the counter counts the connections. -/
theorem step_ne_fault_iff {p : Pool} {e : Event} (h : Owned p) :
    step e p ≠ .fault ↔ FrontSafe p e := by
  cases e with
  | getConnection client =>
    obtain ⟨⟨c, p'⟩, hr⟩ := getConnection_returns client p
    simp [step, hr, FrontSafe]
  | release client connection now => simp [step, FrontSafe]
  | produceConnectionTask connected now => simp [step, FrontSafe]
  | scannerConnectionTask clock =>
    have hc := h.count
    rw [step, scannerConnectionTask, scannerLoop_ne_fault_iff, FrontSafe]
    refine or_congr_left ?_
    omega
  | destroy => simp [step, destroy_eq_fault, FrontSafe]

/-- **No read of an empty queue, exactly.** After a successful `run`, an interleaving reads the front of
no empty queue exactly when each of its steps is `FrontSafe`. -/
theorem noEmptyRead_iff {s : Settings} {connected : Nat → Bool} {clock : Nat → Int}
    {p₀ : Pool} {es : List Event} (hrun : (new s).run connected clock = (true, p₀))
    (hes : Along step Enabled p₀ es) :
    exec step es p₀ ≠ .fault ↔ Along step FrontSafe p₀ es :=
  exec_ne_fault_iff (I := Owned) (fun _ _ _ => Owned.step) (fun _ _ h _ => step_ne_fault_iff h)
    (owned_run hrun) hes

theorem noEmptyRead_iff_small :
    exec step smallRun smallStart ≠ .fault ↔ Along step FrontSafe smallStart smallRun :=
  @noEmptyRead_iff small (fun _ => true) (fun _ => 0) smallStart smallRun rfl (by decide)

/-- Both connections of the small pool are borrowed when the scanner wakes up. -/
def emptyScan : List Event :=
  [.getConnection 0, .produceConnectionTask true 5, .getConnection 1,
    .scannerConnectionTask fun _ => 9]

/-- The scanner reads the front of an empty queue, and so does the destructor of a new pool. -/
theorem emptyScan_faults :
    (new small).run (fun _ => true) (fun _ => 0) = (true, smallStart) ∧
    Along step Enabled smallStart emptyScan ∧ exec step emptyScan smallStart = .fault ∧
    exec step [.destroy] smallStart = .fault :=
  ⟨rfl, by decide, by decide, by decide⟩

end Pool
end LinuxBase
