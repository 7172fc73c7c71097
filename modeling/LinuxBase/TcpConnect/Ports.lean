import LinuxBase.TcpConnect
import LinuxBase.TcpServer.Setup
import Mathlib.Data.Int.CardIntervalMod

/-!
# The ports of the load client, and the server behind them

Each iteration of the client takes the next of the ports from 3000 to 3099, and the last is followed
by the first. A server that `main` of `tcp-server.c` has set up listens at each of them, and
`isListenFd` recognizes the socket (`reaches_listening`). While the client is below its limit, none of
these sockets gets more than one connection more than another (`connects_spread`).
-/

namespace LinuxBase
namespace TcpConnect

/-- The `port` of `main`, here and in `tcp-server.c`. -/
def basePort : Nat := 3000

/-- The port of the `connect` of a step. -/
def dialed : Event → State → List Nat
  | .top (some fd) connected, s =>
    if s.connections < 340000 ∧ s.isContinue = 0 then
      [(basePort + (s.top (some fd) connected).index) % 2 ^ 16]
    else []
  | .top none _, _ | .wait _, _ | .handle _, _ | .finish, _ => []

/-- The client is below its limit, and gets a socket. -/
def Dials (s : State) : Event → Prop
  | .top socket _ => s.connections < 340000 ∧ socket ≠ none
  | .wait _ | .handle _ | .finish => True

/-- The ports of `n` iterations. -/
def cycle (n : Nat) : List Nat := (List.range n).map fun i => basePort + (i + 1) % maxPort

variable {s s' : State} {p n : Nat}

theorem top_index (s : State) (socket : Option Nat) (connected : Bool) :
    (s.top socket connected).index = if maxPort ≤ s.index + 1 then 0 else s.index + 1 := by
  unfold State.top
  simp only
  split
  · cases socket with
    | none => rfl
    | some fd => cases connected <;> rfl
  · rfl

theorem top_isContinue (s : State) (socket : Option Nat) (connected : Bool) :
    (s.top socket connected).isContinue = s.isContinue := by
  unfold State.top
  simp only
  split
  · cases socket with
    | none => rfl
    | some fd => cases connected <;> rfl
  · rfl

/-- The other steps stay at the `index`. -/
theorem step_index {e : Event} (h : step e s = .ret s')
    (he : ∀ socket connected, e ≠ .top socket connected) : s'.index = s.index ∧ (s.isContinue = 0 → s'.isContinue = 0) := by
  cases e with
  | top socket connected => exact absurd rfl (he socket connected)
  | wait ready =>
    cases h
    exact ⟨rfl, id⟩
  | handle r =>
    simp only [step] at h
    split at h
    · cases h
      unfold State.handle
      split
      · exact ⟨rfl, id⟩
      · split <;> exact ⟨rfl, id⟩
    · cases h
      exact ⟨rfl, id⟩
  | finish =>
    simp only [step] at h
    split at h
    · rename_i ev rest r hp
      cases r with
      | bytes bytes =>
        obtain ⟨-, -, hret⟩ := Run.bind_eq_ret.mp h
        cases hret
        exact ⟨rfl, fun hc => by simp only [hc, ite_self]⟩
      | endOfStream =>
        cases h
        exact ⟨rfl, id⟩
      | error errno =>
        simp only [State.finish] at h
        split at h <;> cases h <;> exact ⟨rfl, id⟩
    · cases h
      exact ⟨rfl, id⟩

/-- The ports of the steps so far are among the 100. -/
structure Near (ports : List Nat) (s : State) : Prop where
  index : s.index < maxPort
  ports : ∀ p ∈ ports, basePort ≤ p ∧ p < basePort + maxPort

theorem Near.step {ports : List Nat} {e : Event} (hn : Near ports s)
    (h : TcpConnect.step e s = .ret s') : Near (ports ++ dialed e s) s' := by
  have hlimit : maxPort = 100 := rfl
  have hbase : basePort = 3000 := rfl
  have hindex := hn.index
  cases e with
  | top socket connected =>
    cases h
    have hnext : (s.top socket connected).index < maxPort := by
      rw [top_index]
      split <;> omega
    refine ⟨hnext, List.forall_mem_append.mpr ⟨hn.ports, ?_⟩⟩
    cases socket with
    | none => exact nofun
    | some fd =>
      rw [dialed]
      split
      · rw [List.forall_mem_singleton]
        omega
      · exact nofun
  | wait | handle | finish =>
    obtain ⟨hsame, -⟩ := step_index h fun _ _ => nofun
    rw [dialed, List.append_nil]
    exact ⟨hsame ▸ hindex, hn.ports⟩

/-- While the client is below its limit, it goes round. -/
structure Rounds (ports : List Nat) (s : State) : Prop where
  isContinue : s.isContinue = 0
  index : s.index = ports.length % maxPort
  ports : ports = cycle ports.length

theorem cycle_succ (n : Nat) : cycle (n + 1) = cycle n ++ [basePort + (n + 1) % maxPort] := by
  rw [cycle, List.range_succ, List.map_append]
  rfl

theorem Rounds.step {ports : List Nat} {e : Event} (hr : Rounds ports s) (he : Dials s e)
    (h : TcpConnect.step e s = .ret s') : Rounds (ports ++ dialed e s) s' := by
  obtain ⟨hcontinue, hindex, hports⟩ := hr
  cases e with
  | top socket connected =>
    cases h
    obtain ⟨hlow, hsome⟩ := he
    obtain ⟨fd, rfl⟩ := Option.ne_none_iff_exists'.mp hsome
    have hnext : (s.top (some fd) connected).index = (ports.length + 1) % maxPort := by
      rw [top_index, hindex, maxPort]
      split <;> omega
    have hfits : basePort + (ports.length + 1) % maxPort < 2 ^ 16 := by
      rw [basePort, maxPort]
      omega
    have hdialed : dialed (.top (some fd) connected) s =
        [basePort + (ports.length + 1) % maxPort] := by
      rw [dialed, if_pos ⟨hlow, hcontinue⟩, hnext, Nat.mod_eq_of_lt hfits]
    rw [hdialed]
    refine ⟨(top_isContinue s _ _).trans hcontinue, ?_, ?_⟩
    · rw [hnext, List.length_append, List.length_singleton]
    · rw [List.length_append, List.length_singleton, cycle_succ, ← hports]
  | wait | handle | finish =>
    obtain ⟨hsame, hkeep⟩ := step_index h fun _ _ => nofun
    rw [dialed, List.append_nil]
    exact ⟨hkeep hcontinue, hsame.trans hindex, hports⟩

/-! ## The shares of the ports -/

theorem countP_range (P : Nat → Prop) [DecidablePred P] (n : Nat) :
    (List.range n).countP (fun i => decide (P i)) = Nat.count P n := by
  induction n with
  | zero => rfl
  | succ n ih =>
    rw [List.range_succ, List.countP_append, ih, Nat.count_succ, List.countP_singleton]
    by_cases h : P n <;> simp [h]

/-- A port has its share of the iterations. -/
theorem count_cycle (n : Nat) (hlow : basePort ≤ p) (hhigh : p < basePort + maxPort) :
    (cycle n).count p = n / maxPort ∨ (cycle n).count p = n / maxPort + 1 := by
  have hshare := Nat.count_modEq_card n (r := maxPort) (by decide) (p - basePort + (maxPort - 1))
  have hcount : (cycle n).count p =
      Nat.count (fun i => i ≡ p - basePort + (maxPort - 1) [MOD maxPort]) n := by
    rw [← countP_range, cycle, List.count, List.countP_map]
    refine List.countP_congr fun i _ => ?_
    rw [Function.comp_apply, beq_iff_eq, decide_eq_true_iff, Nat.ModEq]
    rw [basePort, maxPort] at *
    omega
  rw [hcount, hshare]
  split
  · exact .inr rfl
  · exact .inl rfl

/-! ## The two programs -/

open TcpServer (Attempt Listening tcpCreateServer isListenFd)

variable {kernel : Nat → Attempt} {l : Listening} {es : List Event}

/-- A server that runs listens at each of the 100 ports. -/
theorem listening_of_port (hserver : tcpCreateServer basePort kernel = .ret (.runs l))
    (hlow : basePort ≤ p) (hhigh : p < basePort + maxPort) :
    ∃ fd, (fd, p) ∈ l.listening ∧ fd ≠ 0 ∧ isListenFd fd l.sockfds = fd := by
  obtain ⟨rfl, hpos⟩ := TcpServer.runs_opened (by decide) hserver
  obtain ⟨i, rfl⟩ := Nat.exists_eq_add_of_le hlow
  have hi : i < TcpServer.maxPort := Nat.lt_of_add_lt_add_left hhigh
  have hport : (basePort + i) % 2 ^ 16 = basePort + i := by
    rw [basePort, TcpServer.maxPort] at *
    omega
  have hmem := List.mem_range.mpr hi
  have hfd := hpos i hi
  refine ⟨(kernel i).sockfd.toNat, List.mem_map.mpr ⟨i, hmem, ?_⟩, by omega,
    TcpServer.isListenFd_of_mem (List.mem_append_left _ (List.mem_map.mpr ⟨i, hmem, rfl⟩))⟩
  rw [hport]

/-- And at no others. -/
theorem port_of_listening (hserver : tcpCreateServer basePort kernel = .ret (.runs l))
    {x : Nat × Nat} (hx : x ∈ l.listening) : basePort ≤ x.2 ∧ x.2 < basePort + maxPort := by
  obtain ⟨rfl, -⟩ := TcpServer.runs_opened (by decide) hserver
  obtain ⟨i, hi, rfl⟩ := List.mem_map.mp hx
  have hlt := List.mem_range.mp hi
  show basePort ≤ (basePort + i) % 2 ^ 16 ∧ (basePort + i) % 2 ^ 16 < basePort + maxPort
  rw [basePort, maxPort, TcpServer.maxPort] at *
  omega

/-- **The ports.** The client connects to ports that the server listens at only. While it is below
its limit and gets a socket in each iteration, each of them has its share of the connections. -/
theorem connects_spread (hserver : tcpCreateServer basePort kernel = .ret (.runs l))
    (hs : exec step es {} = .ret s) :
    (∀ p ∈ gather step dialed es {},
      ∃ fd, (fd, p) ∈ l.listening ∧ fd ≠ 0 ∧ isListenFd fd l.sockfds = fd) ∧
    (Along step Dials {} es → ∀ x ∈ l.listening,
      let n := (gather step dialed es {}).length
      (gather step dialed es {}).count x.2 = n / 100 ∨
        (gather step dialed es {}).count x.2 = n / 100 + 1) := by
  constructor
  · intro p hp
    have hnear := exec_gather (P := fun _ _ => True) (I := Near)
      (k := []) (fun _ _ _ _ hn _ h => Near.step hn h) ⟨by decide, nofun⟩
      (along_of_mem fun _ _ => trivial) hs
    obtain ⟨hlow, hhigh⟩ := hnear.ports p (by rwa [List.nil_append])
    exact listening_of_port hserver hlow hhigh
  · intro hdials x hx n
    have hrounds := exec_gather (I := Rounds) (k := []) (fun _ _ _ _ hr he h => Rounds.step hr he h)
      ⟨rfl, rfl, rfl⟩ hdials hs
    rw [List.nil_append] at hrounds
    obtain ⟨hlow, hhigh⟩ := port_of_listening hserver hx
    rw [hrounds.ports]
    exact count_cycle n hlow hhigh

/-- Two connections to a server with the descriptors from 3 on. -/
theorem connects_spread_two :
    let es : List Event := [.top (some 200) true, .top (some 201) true]
    let l := TcpServer.opened basePort (fun i => ⟨i + 3, 0, 0⟩) TcpServer.maxPort
    gather step dialed es {} = [3001, 3002] ∧
      (∀ p ∈ [3001, 3002], ∃ fd, (fd, p) ∈ l.listening ∧ fd ≠ 0 ∧ isListenFd fd l.sockfds = fd) ∧
      ∀ x ∈ l.listening, [3001, 3002].count x.2 = 0 ∨ [3001, 3002].count x.2 = 1 := by
  intro es l
  have hserver : tcpCreateServer basePort (fun i => ⟨i + 3, 0, 0⟩) = .ret (.runs l) := by
    refine TcpServer.runs_of_code (by decide) (by decide) fun i _ => ?_
    rw [TcpServer.Attempt.code, if_neg (show ¬ (i : Int) + 3 < 1 by omega)]
    rfl
  obtain ⟨hreach, hspread⟩ := connects_spread (s := _) hserver (rfl : exec step es {} = _)
  have hdialed : gather step dialed es {} = [3001, 3002] := rfl
  rw [hdialed] at hreach hspread
  refine ⟨hdialed, hreach, fun x hx => ?_⟩
  exact hspread ⟨⟨by decide, Option.some_ne_none _⟩, ⟨by decide, Option.some_ne_none _⟩, trivial⟩ x hx

end TcpConnect
end LinuxBase
