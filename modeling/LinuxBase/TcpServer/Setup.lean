import LinuxBase.TcpServer.Basic
import Mathlib.Algebra.Group.Nat.Defs

/-!
# The listening sockets of the epoll server

`tcpCreateServer` opens a socket for each of the ports from `port` to `port + 99`, and returns at the
first of them that fails. What `socket`, `bind` and `listen` return for a port is a parameter
(`Attempt`). `port + i` is an `int`, so its overflow is a `fault`, and the kernel gets its low 16 bits.

`tcpCreateServer_eq` is the result for any kernel: the code of the first failure, or all of the
sockets in their places of `sockfds` (`opened`).
-/

namespace LinuxBase
namespace TcpServer

def maxPort : Nat := 100

/-- What `socket`, `bind` and `listen` return in an iteration. -/
structure Attempt where
  sockfd : Int
  bind : Int
  listen : Int
  deriving DecidableEq

/-- The array of the listening sockets. `listening` is no data of the code: the descriptors that
listen, and their ports. -/
structure Listening where
  sockfds : List Nat := List.replicate maxPort 0
  listening : List (Nat × Nat) := []
  deriving DecidableEq

/-- How `tcpCreateServer` leaves its first loop. -/
inductive Outcome where
  | returns (code : Int)
  | runs (l : Listening)
  deriving DecidableEq

/-- `n` iterations of the loop over the ports, from `i` on. -/
def listenLoop (port : Nat) (kernel : Nat → Attempt) : Nat → Nat → Listening → Run Outcome
  | 0, _, l => .ret (.runs l)
  | n + 1, i, l => do
    let sockfd := (kernel i).sockfd
    -- All paths use `port + i`, that of the failure in its message.
    let sinPort ← intAdd port i
    if sockfd < 1 then .ret (.returns (-2))
    else if (kernel i).bind ≠ 0 then .ret (.returns (-3))
    else if (kernel i).listen ≠ 0 then .ret (.returns (-4))
    else
      listenLoop port kernel n (i + 1)
        { sockfds := l.sockfds.set i sockfd.toNat
          listening := l.listening ++ [(sockfd.toNat, sinPort % 2 ^ 16)] }

/-- `tcpCreateServer` up to its `while` loop. -/
def tcpCreateServer (port : Int) (kernel : Nat → Attempt) : Run Outcome :=
  if port < 1 then .ret (.returns (-1)) else listenLoop port.toNat kernel maxPort 0 {}

/-! ## What the loop leaves -/

/-- What an iteration returns, 0 for nothing. -/
def Attempt.code (a : Attempt) : Int :=
  if a.sockfd < 1 then -2 else if a.bind ≠ 0 then -3 else if a.listen ≠ 0 then -4 else 0

/-- An iteration that ends the loop. -/
def Stops (port : Nat) (kernel : Nat → Attempt) (i : Nat) : Prop :=
  intMax < port + i ∨ (kernel i).code ≠ 0

instance (port : Nat) (kernel : Nat → Attempt) : DecidablePred (Stops port kernel) :=
  fun i => inferInstanceAs (Decidable (intMax < port + i ∨ (kernel i).code ≠ 0))

/-- The sockets of the first `n` ports. -/
def opened (port : Nat) (kernel : Nat → Attempt) (n : Nat) : Listening where
  sockfds := (List.range n).map (fun i => (kernel i).sockfd.toNat) ++ List.replicate (maxPort - n) 0
  listening := (List.range n).map fun i => ((kernel i).sockfd.toNat, (port + i) % 2 ^ 16)

variable {port i n : Nat} {kernel : Nat → Attempt} {l : Listening}

theorem opened_zero : opened port kernel 0 = {} := rfl

/-- A store at the first free place. -/
theorem set_opened (hi : i < maxPort) :
    (opened port kernel i).sockfds.set i (kernel i).sockfd.toNat =
      (opened port kernel (i + 1)).sockfds := by
  have hfree : maxPort - i = maxPort - (i + 1) + 1 := by omega
  have hlen : ((List.range i).map fun j => (kernel j).sockfd.toNat).length = i := by
    rw [List.length_map, List.length_range]
  simp only [opened]
  rw [List.set_append_right _ _ (by omega), hlen, Nat.sub_self, hfree, List.replicate_succ,
    List.set_cons_zero, List.range_succ, List.map_append, List.map_singleton, List.append_assoc,
    List.singleton_append]

/-- An iteration. -/
theorem listenLoop_succ (n i : Nat) (l : Listening) :
    listenLoop port kernel (n + 1) i l =
      if intMax < port + i then .fault
      else if (kernel i).code ≠ 0 then .ret (.returns (kernel i).code)
      else
        listenLoop port kernel n (i + 1)
          { sockfds := l.sockfds.set i (kernel i).sockfd.toNat
            listening := l.listening ++ [((kernel i).sockfd.toNat, (port + i) % 2 ^ 16)] } := by
  rw [listenLoop]
  by_cases hint : intMax < port + i
  · rw [if_pos hint, intAdd, if_neg (Nat.not_le.mpr hint), Run.fault_bind]
  · rw [if_neg hint, intAdd, if_pos (Nat.not_lt.mp hint), Run.ret_bind, Attempt.code]
    by_cases hsocket : (kernel i).sockfd < 1
    · simp [hsocket]
    · by_cases hbind : (kernel i).bind = 0
      · by_cases hlisten : (kernel i).listen = 0
        · simp [hsocket, hbind, hlisten]
        · simp [hsocket, hbind, hlisten]
      · simp [hsocket, hbind]

theorem listenLoop_opened (hi : i < maxPort) (hgo : ¬ Stops port kernel i) :
    listenLoop port kernel (n + 1) i (opened port kernel i) =
      listenLoop port kernel n (i + 1) (opened port kernel (i + 1)) := by
  obtain ⟨hint, hcode⟩ := not_or.mp hgo
  have hopened : opened port kernel (i + 1) =
      { sockfds := (opened port kernel i).sockfds.set i (kernel i).sockfd.toNat
        listening := (opened port kernel i).listening ++
          [((kernel i).sockfd.toNat, (port + i) % 2 ^ 16)] } := by
    rw [set_opened hi]
    simp only [opened, List.range_succ, List.map_append, List.map_singleton]
  rw [listenLoop_succ, if_neg hint, if_neg hcode, ← hopened]

theorem listenLoop_stops (hend : Stops port kernel i) (l : Listening) :
    listenLoop port kernel (n + 1) i l =
      if intMax < port + i then .fault else .ret (.returns (kernel i).code) := by
  rw [listenLoop_succ]
  by_cases hint : intMax < port + i
  · rw [if_pos hint, if_pos hint]
  · rw [if_neg hint, if_neg hint, if_pos (hend.resolve_left hint)]

theorem listenLoop_eq (hn : i + n = maxPort) :
    listenLoop port kernel n i (opened port kernel i) =
      match (List.range' i n).find? fun j => decide (Stops port kernel j) with
      | some j => if intMax < port + j then .fault else .ret (.returns (kernel j).code)
      | none => .ret (.runs (opened port kernel maxPort)) := by
  induction n generalizing i with
  | zero =>
    rw [listenLoop, List.range'_zero, List.find?_nil, ← hn, Nat.add_zero]
  | succ n ih =>
    rw [List.range'_succ, List.find?_cons]
    by_cases hend : Stops port kernel i
    · rw [decide_eq_true hend]
      exact listenLoop_stops hend _
    · rw [decide_eq_false hend, listenLoop_opened (by omega) hend]
      exact ih (by omega)

/-- **The listening sockets.** For every port and every kernel, the first failure decides. -/
theorem tcpCreateServer_eq (port : Nat) (hport : 1 ≤ port) (kernel : Nat → Attempt) :
    tcpCreateServer port kernel =
      match (List.range maxPort).find? fun i => decide (Stops port kernel i) with
      | some i => if intMax < port + i then .fault else .ret (.returns (kernel i).code)
      | none => .ret (.runs (opened port kernel maxPort)) := by
  have hloop := @listenLoop_eq port 0 maxPort kernel rfl
  rw [opened_zero] at hloop
  rw [tcpCreateServer, if_neg (by omega), Int.toNat_natCast, hloop, List.range_eq_range']

/-- A server that runs has a socket for each of its ports. -/
theorem runs_opened (hport : 1 ≤ port) (h : tcpCreateServer port kernel = .ret (.runs l)) :
    l = opened port kernel maxPort ∧ ∀ i < maxPort, 1 ≤ (kernel i).sockfd := by
  rw [tcpCreateServer_eq port hport] at h
  cases hfind : (List.range maxPort).find? fun i => decide (Stops port kernel i) with
  | some i =>
    simp only [hfind] at h
    split at h <;> cases h
  | none =>
    simp only [hfind] at h
    cases h
    refine ⟨rfl, fun i hi => ?_⟩
    have hgo := List.find?_eq_none.mp hfind i (List.mem_range.mpr hi)
    rw [decide_eq_true_iff] at hgo
    have hcode := not_not.mp (not_or.mp hgo).2
    unfold Attempt.code at hcode
    split at hcode
    · exact absurd hcode (by decide)
    · omega

/-- A server with a socket for each of its ports runs. -/
theorem runs_of_code (hport : 1 ≤ port) (hint : port + maxPort ≤ intMax)
    (hcode : ∀ i < maxPort, (kernel i).code = 0) :
    tcpCreateServer port kernel = .ret (.runs (opened port kernel maxPort)) := by
  have hfind : (List.range maxPort).find? (fun i => decide (Stops port kernel i)) = none := by
    refine List.find?_eq_none.mpr fun i hi => ?_
    have hlt := List.mem_range.mp hi
    rw [decide_eq_true_iff]
    exact not_or.mpr ⟨by omega, not_not.mpr (hcode i hlt)⟩
  rw [tcpCreateServer_eq port hport, hfind]

/-- `isListenFd` recognizes what is in the array. -/
theorem isListenFd_of_mem {fd : Nat} {fds : List Nat} (h : fd ∈ fds) : isListenFd fd fds = fd := by
  induction fds with
  | nil => cases h
  | cons listenFd fds ih =>
    rw [isListenFd]
    by_cases he : fd = listenFd
    · rw [if_pos he]
    · rw [if_neg he]
      exact ih ((List.mem_cons.mp h).resolve_left he)

end TcpServer
end LinuxBase
