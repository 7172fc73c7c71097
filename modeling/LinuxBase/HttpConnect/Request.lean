import LinuxBase.HttpConnect.Basic

/-!
# The request inside its arrays

`hostnameToIp` stores an address of 16 octets for each one that the resolver returns, and does not know
that there is room for 5 of them. The request has 42 octets beside the path and the hostname, and a NUL,
and `sprintf` does not know that there is room for 1024. So the stores stay inside `ips` and `buffer`
exactly if there are at most 5 addresses, and, where there is one, path and hostname have at most 981
octets (`buildRequest_inside_iff`).
-/

namespace LinuxBase
namespace HttpConnect

open CString Layout

/-- What `hostnameToIp` stores for an address. -/
def padded (t : IpText) : List Byte := put (List.replicate inetAddrStrLen 0#8) 0 t.val

/-- All stores of a call are inside `ips` and `buffer`. -/
def StaysInside (hostname path : Option Str) (addrs : List IpText) : Prop :=
  buildRequest hostname path (some addrs) ≠ .fault

/-- At most 5 addresses, and a request of at most 1023 octets if there is one. -/
def Small (hostname path : Option Str) (addrs : List IpText) : Prop :=
  ∀ h p, hostname = some h → path = some p →
    addrs.length ≤ 5 ∧ (addrs ≠ [] → p.val.length + h.val.length ≤ 981)

variable {ips : List Byte} {i : Nat} {ts : List IpText}

/-- `inet_ntop` stays inside `ip`. -/
theorem storeAt_ip (t : IpText) :
    storeAt (List.replicate inetAddrStrLen 0#8) 0 t.val = .ret (padded t) :=
  storeAt_of_le (by rw [List.length_replicate, Nat.zero_add]; exact t.property)

theorem length_padded (t : IpText) : (padded t).length = inetAddrStrLen := by
  have hfits : 0 + t.val.length ≤ (List.replicate inetAddrStrLen 0#8).length := by
    rw [List.length_replicate, Nat.zero_add]; exact t.property
  rw [padded, length_put hfits, List.length_replicate]

/-- **What `hostnameToIp` stores**: the addresses one behind the other. -/
theorem hostnameLoop_of_le (hroom : inetAddrStrLen * (i + ts.length) ≤ ips.length) :
    hostnameLoop ips i ts = .ret (i + ts.length, put ips (inetAddrStrLen * i) (ts.flatMap padded)) := by
  induction ts generalizing ips i with
  | nil =>
    rw [hostnameLoop, List.flatMap_nil, put_nil]
    rfl
  | cons t ts ih =>
    rw [List.length_cons] at hroom
    have hstore : inetAddrStrLen * i + (padded t).length ≤ ips.length := by
      rw [length_padded]
      have : inetAddrStrLen * i + inetAddrStrLen ≤ inetAddrStrLen * (i + (ts.length + 1)) := by
        rw [← Nat.mul_succ]
        exact Nat.mul_le_mul_left _ (by omega)
      omega
    have hrest : inetAddrStrLen * (i + 1 + ts.length) ≤
        (put ips (inetAddrStrLen * i) (padded t)).length := by
      rw [length_put hstore, Nat.add_assoc, Nat.add_comm 1]
      exact hroom
    have hnext : inetAddrStrLen * (i + 1) = inetAddrStrLen * i + (padded t).length := by
      rw [length_padded, Nat.mul_succ]
    simp only [hostnameLoop, storeAt_ip, storeAt_of_le hstore, Run.ret_bind, ih hrest]
    rw [hnext, put_append (by omega), List.flatMap_cons, List.length_cons, Nat.add_right_comm,
      Nat.add_assoc]

/-- One address too many. -/
theorem hostnameLoop_fault (hts : ts ≠ []) (hlen : ips.length < inetAddrStrLen * (i + ts.length)) :
    hostnameLoop ips i ts = .fault := by
  induction ts generalizing ips i with
  | nil => exact absurd rfl hts
  | cons t ts ih =>
    rw [List.length_cons] at hlen
    by_cases hstore : inetAddrStrLen * i + (padded t).length ≤ ips.length
    · simp only [hostnameLoop, storeAt_ip, storeAt_of_le hstore, Run.ret_bind]
      have hnext : ips.length < inetAddrStrLen * (i + 1 + ts.length) := by
        rw [Nat.add_assoc, Nat.add_comm 1]
        exact hlen
      refine ih (fun hnil => ?_) (by rwa [length_put hstore])
      rw [hnil, List.length_nil, Nat.add_zero, Nat.mul_succ] at hnext
      rw [length_padded] at hstore
      omega
    · simp only [hostnameLoop, storeAt_ip, storeAt_of_lt (Nat.not_le.mp hstore), Run.ret_bind,
        Run.fault_bind]

theorem length_request (path hostname : Str) :
    (request path hostname).length = path.val.length + hostname.val.length + 42 := by
  have hfixed : (octets "GET ").length = 4 ∧ (octets " ").length = 1 ∧
      (octets "HTTP/1.1").length = 8 ∧ (octets "\r\n").length = 2 ∧ (octets "HOST:").length = 5 ∧
      (octets "Connection:").length = 11 ∧ (octets "close").length = 5 := by decide
  simp only [request, List.length_append, hfixed]
  omega

/-- `sprintf` stays inside `buffer` if the request has at most 1023 octets. -/
theorem storeAt_request_iff (path hostname : Str) :
    storeAt (List.replicate 1024 0#8) 0 (request path hostname ++ [0#8]) ≠ .fault ↔
      path.val.length + hostname.val.length ≤ 981 := by
  have hlen : (request path hostname ++ [0#8]).length =
      path.val.length + hostname.val.length + 43 := by
    rw [List.length_append, length_request, List.length_singleton]
  unfold storeAt
  rw [hlen, List.length_replicate]
  split
  · exact iff_of_true nofun (by omega)
  · exact iff_of_false (fun h => h rfl) (by omega)

section Inside

variable {addrs : List IpText} {h p : Str}

/-- With at most 5 addresses, the call goes on with `ips` filled. -/
theorem buildRequest_of_le (hlen : addrs.length ≤ 5) :
    buildRequest (some h) (some p) (some addrs) =
      if (addrs.length : Int) < 1 then .ret none
      else storeAt (List.replicate 1024 0#8) 0 (request p h ++ [0#8]) >>= fun buffer =>
        .ret (some
          (put (List.replicate (5 * inetAddrStrLen) 0#8) 0 (addrs.flatMap padded), buffer)) := by
  have hroom : inetAddrStrLen * (0 + addrs.length) ≤
      (List.replicate (5 * inetAddrStrLen) 0#8).length := by
    rw [List.length_replicate, Nat.zero_add, Nat.mul_comm]
    exact Nat.mul_le_mul_right _ hlen
  simp only [buildRequest, hostnameToIp, Run.ofOption_some, Run.ret_bind, hostnameLoop_of_le hroom,
    Nat.zero_add, Nat.mul_zero]

theorem buildRequest_fault (hlen : 5 < addrs.length) :
    buildRequest (some h) (some p) (some addrs) = .fault := by
  have hroom : (List.replicate (5 * inetAddrStrLen) 0#8).length <
      inetAddrStrLen * (0 + addrs.length) := by
    rw [List.length_replicate, Nat.zero_add, Nat.mul_comm]
    exact Nat.mul_lt_mul_of_pos_left hlen (by decide)
  have hne : addrs ≠ [] := by rintro rfl; cases hlen
  simp only [buildRequest, hostnameToIp, Run.ofOption_some, Run.ret_bind, hostnameLoop_fault hne hroom,
    Run.fault_bind]

theorem staysInside_some_iff : StaysInside (some h) (some p) addrs ↔
    addrs.length ≤ 5 ∧ (addrs ≠ [] → p.val.length + h.val.length ≤ 981) := by
  rw [StaysInside]
  by_cases hlen : addrs.length ≤ 5
  · rw [buildRequest_of_le hlen, and_iff_right hlen, ← storeAt_request_iff]
    cases addrs with
    | nil => exact iff_of_true nofun (fun hnil => absurd rfl hnil)
    | cons t ts =>
      have hpos : ¬ ((t :: ts).length : Int) < 1 := by rw [List.length_cons]; omega
      rw [if_neg hpos, forall_prop_of_true (List.cons_ne_nil t ts)]
      refine not_congr ?_
      cases storeAt (List.replicate 1024 0#8) 0 (request p h ++ [0#8]) <;> simp
  · rw [buildRequest_fault (Nat.not_le.mp hlen)]
    exact iff_of_false (fun hne => hne rfl) fun hs => hlen hs.1

end Inside

/-- **The request inside its arrays.** -/
theorem buildRequest_inside_iff (hostname path : Option Str) (addrs : List IpText) :
    StaysInside hostname path addrs ↔ Small hostname path addrs := by
  cases hostname with
  | none => exact iff_of_true nofun nofun
  | some h =>
    cases path with
    | none => exact iff_of_true nofun nofun
    | some p =>
      rw [staysInside_some_iff]
      exact ⟨by rintro hs _ _ ⟨⟩ ⟨⟩; exact hs, fun hs => hs h p rfl rfl⟩

/-- The path of `n` octets `/`. -/
def slashes (n : Nat) : Str := ⟨List.replicate n 47, fun h => by cases List.eq_of_mem_replicate h⟩

/-- Six addresses for one host, or a path of 1000 octets. -/
theorem not_inside_six :
    ¬ StaysInside (some (slashes 1)) (some (slashes 1)) (List.replicate 6 ⟨[49, 0], by decide⟩) ∧
      ¬ StaysInside (some (slashes 1)) (some (slashes 1000)) [⟨[49, 0], by decide⟩] := by
  refine ⟨fun h => ?_, fun h => ?_⟩
  · have hlen := (staysInside_some_iff.mp h).1
    rw [List.length_replicate] at hlen
    omega
  · have hlen := (staysInside_some_iff.mp h).2 (List.cons_ne_nil _ _)
    simp only [slashes, List.length_replicate] at hlen
    omega

end HttpConnect
end LinuxBase
