import LinuxBase.HttpConnect.Response
import LinuxBase.HttpConnect.Request

/-!
# What `httpSendRequest` returns

The loop for all that `recv` may return. `Gathered` is what `result` is for its reader: a string, or
`NULL`. An error of `recv` makes an empty string `NULL`, and after it each `recv` that returns is a
fault, as is an error behind a string that is not empty: `realloc` cuts its NUL off.

The loop follows these steps (`iterate_rel`), and what they lead to can be read off the list of what
`recv` returned (`collected`). So `httpSendRequest` returns a string, `NULL`, or nothing defined, for
every list (`httpSendRequest_rel`).
-/

namespace LinuxBase
namespace HttpConnect

open CString

/-- What `result` is for its reader. -/
inductive Gathered where
  | string (t : List Byte)
  | null
  deriving DecidableEq

def Received.isError : Received → Bool
  | .error => true
  | .chunk _ | .closed => false

namespace Gathered

/-- What the `realloc` and the `strncat` for `r` do. -/
def add : Gathered → Received → Run Gathered
  | .string [], .error => .ret .null
  | .string (_ :: _), .error => .fault
  | .string t, .chunk bytes => .ret (.string (t ++ text bytes))
  | .string t, .closed => .ret (.string t)
  | .null, _ => .fault

/-- The block, or `NULL`. -/
def Is : Gathered → Option (List Byte) → Prop
  | .string t, result => ∃ block, result = some block ∧ Ends block ∧ text block = t
  | .null, result => result = none

end Gathered

/-- The loop, as far as its reader sees it. -/
structure Collected where
  gathered : Gathered := .string []
  left : Bool := false
  deriving DecidableEq

def collect (it : Iteration) (c : Collected) : Run Collected :=
  if c.left then .ret c
  else
    match it with
    | .notReady | .ready .closed _ => .ret { c with left := true }
    | .ready r _ => do
      let gathered ← c.gathered.add r
      .ret { c with gathered }

/-- `recv` has returned this, before the loop ended. -/
def received : List Iteration → List Received
  | [] | .notReady :: _ | .ready .closed _ :: _ => []
  | .ready r _ :: its => r :: received its

/-- The loop ends. -/
def leaves : List Iteration → Bool
  | [] => false
  | .notReady :: _ | .ready .closed _ :: _ => true
  | .ready _ _ :: its => leaves its

/-- What `result` is after this: the texts of the chunks, or `NULL` after an error that follows
nothing but empty texts. -/
def collected (rs : List Received) : Run Gathered :=
  if rs.any Received.isError = false then .ret (.string (rs.flatMap fun r => text r.bytes))
  else if rs.getLast?.any Received.isError ∧
      ∀ r ∈ rs.dropLast, r.isError = false ∧ text r.bytes = [] then .ret .null
  else .fault

variable {s : State} {c : Collected} {g : Gathered} {block : List Byte} {junk : Nat → Byte}
  {rs : List Received} {r : Received}

/-! ## The steps -/

/-- An error with an empty string. -/
theorem append_error_nil (h : Ends block) (ht : text block = []) (junk : Nat → Byte) :
    append (some block) .error junk = .ret none := by
  simp only [append, Run.ofOption_some, Run.ret_bind, strlen_of_ends h, ht, Received.length]
  rfl

/-- The NUL of a block is behind its text. -/
theorem not_ends_take (h : Ends block) : ¬ Ends (block.take (text block).length) := by
  obtain ⟨xs, rest, rfl, hxs⟩ := h.split
  rw [text_append_zero hxs, List.take_left]
  exact hxs

/-- An error with a string that is not empty. -/
theorem append_error_cons (h : Ends block) (ht : text block ≠ []) (junk : Nat → Byte) :
    append (some block) .error junk = .fault := by
  have hpos : (text block).length ≠ 0 := fun h0 => ht (List.length_eq_zero_iff.mp h0)
  have hsize : (((text block).length : Int) + -1 + 1).toNat = (text block).length := by omega
  have hadded : (text block).length - block.length = 0 := by have := h.text_lt; omega
  simp only [append, Run.ofOption_some, Run.ret_bind, strlen_of_ends h, Received.length, hsize,
    realloc, if_neg hpos, hadded, List.range_zero, List.map_nil, List.append_nil,
    strncat_of_not_ends (not_ends_take h), Run.fault_bind]

theorem append_rel {result : Option (List Byte)} (hg : g.Is result)
    (hv : (Iteration.ready r junk).Valid) (hr : r ≠ .closed) :
    Run.Rel (fun result g' => g'.Is result) (append result r junk) (g.add r) := by
  cases g with
  | null =>
    cases hg
    exact .fault
  | string t =>
    obtain ⟨block, rfl, hends, rfl⟩ := hg
    cases r with
    | closed => exact absurd rfl hr
    | chunk bytes =>
      obtain ⟨block', happend, hends', htext'⟩ := append_chunk hends hv.2 junk
      have hadd : (Gathered.string (text block)).add (.chunk bytes) =
          .ret (.string (text block ++ text bytes)) := by
        cases text block <;> rfl
      rw [happend, hadd]
      exact .ret ⟨block', rfl, hends', htext'⟩
    | error =>
      cases ht : text block with
      | nil =>
        rw [append_error_nil hends ht]
        exact .ret rfl
      | cons b bs =>
        rw [append_error_cons hends (by rw [ht]; exact List.cons_ne_nil b bs)]
        exact .fault

/-- The loop and what its reader sees. -/
structure Seen (s : State) (c : Collected) : Prop where
  gathered : c.gathered.Is s.result
  left : s.left = c.left

theorem seen_start : Seen {} {} := ⟨⟨_, rfl, by decide, by decide⟩, rfl⟩

theorem iterate_rel {it : Iteration} (h : Seen s c) (hv : it.Valid) :
    Run.Rel Seen (iterate it s) (collect it c) := by
  obtain ⟨hg, hl⟩ := h
  unfold iterate collect
  rw [hl]
  by_cases hleft : c.left = true
  · rw [if_pos hleft, if_pos hleft]
    exact .ret ⟨hg, hl⟩
  · rw [if_neg hleft, if_neg hleft]
    cases it with
    | notReady => exact .ret ⟨hg, rfl⟩
    | ready r junk =>
      cases r with
      | closed => exact .ret ⟨hg, rfl⟩
      | chunk | error => exact (append_rel hg hv nofun).bind fun _ _ hg' => .ret ⟨hg', rfl⟩

/-! ## What the steps lead to -/

theorem collected_nil : collected [] = .ret (.string []) := rfl

theorem any_append (rs : List Received) (r : Received) :
    (rs ++ [r]).any Received.isError = (rs.any Received.isError || r.isError) := by
  rw [List.any_append, List.any_cons, List.any_nil, Bool.or_false]

theorem add_chunk (t bytes : List Byte) :
    (Gathered.string t).add (.chunk bytes) = .ret (.string (t ++ text bytes)) := by
  cases t <;> rfl

theorem add_closed (t : List Byte) : (Gathered.string t).add .closed = .ret (.string t) := by
  cases t <;> rfl

/-- One more `recv`. -/
theorem collected_append (rs : List Received) (r : Received) :
    collected (rs ++ [r]) = collected rs >>= fun g => g.add r := by
  unfold collected
  rw [any_append, List.getLast?_concat, List.dropLast_concat, List.flatMap_append]
  cases hany : rs.any Received.isError with
  | true =>
    -- `result` is `NULL` already, or there was a fault.
    have hmem : ¬ ∀ x ∈ rs, x.isError = false ∧ text x.bytes = [] := by
      intro hall
      obtain ⟨x, hx, herr⟩ := List.any_eq_true.mp hany
      exact absurd (herr.symm.trans (hall x hx).1) (by decide)
    rw [Bool.true_or, if_neg (by decide), if_neg fun h => hmem h.2, if_neg (by decide)]
    split <;> rfl
  | false =>
    have hnone : ∀ x ∈ rs, x.isError = false := by
      intro x hx
      rw [← Bool.not_eq_true]
      exact List.any_eq_false.mp hany x hx
    rw [Bool.false_or, if_pos rfl, Run.ret_bind, List.flatMap_singleton]
    cases r with
    | chunk bytes => exact (add_chunk _ bytes).symm
    | closed =>
      rw [add_closed]
      exact congrArg (fun t => Run.ret (Gathered.string t)) (List.append_nil _)
    | error =>
      cases ht : rs.flatMap fun r => text r.bytes with
      | nil =>
        have hempty := List.flatMap_eq_nil_iff.mp ht
        exact (if_neg (by decide)).trans (if_pos ⟨rfl, fun x hx => ⟨hnone x hx, hempty x hx⟩⟩)
      | cons b bs =>
        refine (if_neg (by decide)).trans (if_neg fun h => ?_)
        have hempty := List.flatMap_eq_nil_iff.mpr fun x hx => (h.2 x hx).2
        rw [ht] at hempty
        cases hempty

/-- A fault stays. -/
theorem collected_fault (h : collected rs = .fault) (xs : List Received) :
    collected (rs ++ xs) = .fault := by
  induction xs generalizing rs with
  | nil => rwa [List.append_nil]
  | cons x xs ih =>
    rw [List.append_cons]
    apply ih
    rw [collected_append, h, Run.fault_bind]

theorem add_ne_more (g : Gathered) (r : Received) : g.add r ≠ .more := by
  unfold Gathered.add
  split <;> exact nofun

/-- Behind its end, the loop does nothing. -/
theorem exec_collect_left (g : Gathered) (its : List Iteration) :
    exec collect its { gathered := g, left := true } = .ret { gathered := g, left := true } := by
  induction its with
  | nil => rfl
  | cons it its ih => exact ih

/-- One more iteration with a `recv`. -/
theorem exec_collect_ready {its : List Iteration} (h : collected rs = .ret g)
    (hrest : ∀ g₁, collected (rs ++ [r]) = .ret g₁ → exec collect its { gathered := g₁ } =
      collected (rs ++ [r] ++ received its) >>= fun g' =>
        .ret { gathered := g', left := leaves its }) :
    (g.add r >>= fun g₁ => exec collect its { gathered := g₁ }) =
      collected (rs ++ r :: received its) >>= fun g' =>
        .ret { gathered := g', left := leaves its } := by
  have happend := collected_append rs r
  rw [h, Run.ret_bind] at happend
  rw [List.append_cons]
  cases hadd : g.add r with
  | ret g₁ =>
    rw [Run.ret_bind]
    exact hrest g₁ (happend.trans hadd)
  | fault => rw [collected_fault (happend.trans hadd), Run.fault_bind, Run.fault_bind]
  | more => exact absurd hadd (add_ne_more g r)

/-- The loop behind what `recv` has returned. -/
theorem exec_collect_from (h : collected rs = .ret g) (its : List Iteration) :
    exec collect its { gathered := g } = collected (rs ++ received its) >>= fun g' =>
      .ret { gathered := g', left := leaves its } := by
  induction its generalizing rs g with
  | nil => rw [received, List.append_nil, h]; rfl
  | cons it its ih =>
    cases it with
    | notReady =>
      rw [received, List.append_nil, h]
      exact exec_collect_left g its
    | ready r junk =>
      cases r with
      | closed =>
        rw [received, List.append_nil, h]
        exact exec_collect_left g its
      | chunk | error =>
        rw [exec_cons]
        refine Eq.trans ?_ (exec_collect_ready h fun g₁ hg₁ => ih hg₁)
        simp only [collect, Bool.false_eq_true, if_false]
        cases g.add _ <;> rfl

/-! ## What the caller gets -/

section Request

variable {h p : Str} {t : IpText} {ts : List IpText}

/-- A request that fits is built, and the first address is in front of `ips`. -/
theorem exists_build (hlen : ts.length ≤ 4) (hsize : p.val.length + h.val.length ≤ 981) :
    ∃ ips buffer, buildRequest (some h) (some p) (some (t :: ts)) = .ret (some (ips, buffer)) ∧
      ips.take inetAddrStrLen = padded t := by
  have hcount : (t :: ts).length ≤ 5 := Nat.succ_le_succ hlen
  have hpos : ¬ ((t :: ts).length : Int) < 1 := by rw [List.length_cons]; omega
  have hstore := (storeAt_request_iff p h).mpr hsize
  rw [buildRequest_of_le hcount, if_neg hpos]
  unfold storeAt at hstore ⊢
  split
  · refine ⟨_, _, rfl, ?_⟩
    rw [Layout.put, List.take_zero, List.nil_append, List.flatMap_cons, List.append_assoc]
    exact List.take_left' (length_padded t)
  · rw [if_neg ‹_›] at hstore
    exact absurd rfl hstore

end Request

section Caller

variable {hostname path : Option Str} {hostEntry : Option (List IpText)} {socketFd : Int}
  {its : List Iteration} {b : List Byte × List Byte}

/-- Nothing until the loop ends, and then what was collected. -/
theorem httpSendRequest_rel (hbuild : buildRequest hostname path hostEntry = .ret (some b))
    (hfd : 0 ≤ socketFd ∧ socketFd < 1024) (hv : ∀ it ∈ its, it.Valid) :
    Run.Rel (fun result g => g.Is result) (httpSendRequest hostname path hostEntry socketFd its)
      (collected (received its) >>= fun g => if leaves its then .ret g else .more) := by
  have hloop := exec_rel (P := fun _ => Iteration.Valid) (R := Seen)
    (fun _ _ it h hvalid => @iterate_rel _ _ it h hvalid) seen_start (along_of_mem hv)
  have hcollect := exec_collect_from collected_nil its
  rw [List.nil_append] at hcollect
  have hselect : ¬ (socketFd < 0 ∨ 1024 ≤ socketFd) := by omega
  simp only [httpSendRequest, hbuild, Run.ret_bind, if_neg hselect]
  have hend := hloop.bind (S := fun result g => g.Is result)
    (f := fun s : State => if s.left then .ret s.result else .more)
    (g := fun c : Collected => if c.left then .ret c.gathered else .more) fun s c h => by
      rw [h.left]
      split
      · exact .ret h.gathered
      · exact .more
  rw [hcollect] at hend
  refine cast (congrArg (Run.Rel _ _) ?_) hend
  cases collected (received its) <;> rfl

theorem collected_ne_more (rs : List Received) : collected rs ≠ .more := by
  unfold collected
  split
  · exact nofun
  · split <;> exact nofun

/-- The loop goes on. -/
theorem httpSendRequest_more_iff (hbuild : buildRequest hostname path hostEntry = .ret (some b))
    (hfd : 0 ≤ socketFd ∧ socketFd < 1024) (hv : ∀ it ∈ its, it.Valid) :
    httpSendRequest hostname path hostEntry socketFd its = .more ↔
      collected (received its) ≠ .fault ∧ leaves its = false := by
  have hrel := httpSendRequest_rel hbuild hfd hv
  generalize httpSendRequest hostname path hostEntry socketFd its = send at hrel ⊢
  cases hg : collected (received its) with
  | fault =>
    rw [hg] at hrel
    cases hrel
    exact iff_of_false nofun fun h => h.1 rfl
  | more => exact absurd hg (collected_ne_more _)
  | ret g =>
    rw [hg, Run.ret_bind] at hrel
    cases hleaves : leaves its with
    | true =>
      rw [hleaves] at hrel
      cases hrel
      exact iff_of_false nofun fun h => nomatch h.2
    | false =>
      rw [hleaves] at hrel
      cases hrel
      exact iff_of_true rfl ⟨nofun, rfl⟩

/-- A socket that is none for `select`. -/
theorem httpSendRequest_fault (hbuild : buildRequest hostname path hostEntry = .ret (some b))
    (hfd : ¬ (0 ≤ socketFd ∧ socketFd < 1024)) (its : List Iteration) :
    httpSendRequest hostname path hostEntry socketFd its = .fault := by
  have hselect : socketFd < 0 ∨ 1024 ≤ socketFd := by omega
  simp only [httpSendRequest, hbuild, Run.ret_bind, if_pos hselect]

theorem any_isError_iff : rs.any Received.isError = true ↔ .error ∈ rs := by
  rw [List.any_eq_true]
  constructor
  · rintro ⟨r, hr, herr⟩
    cases r with
    | error => exact hr
    | chunk | closed => cases herr
  · exact fun h => ⟨.error, h, rfl⟩

theorem collected_of_not_mem (h : .error ∉ rs) :
    collected rs = .ret (.string (rs.flatMap fun r => text r.bytes)) := by
  rw [← any_isError_iff, Bool.not_eq_true] at h
  exact if_pos h

/-- An error behind nothing but empty texts. -/
theorem collected_null {cs : List Received} (hcs : .error ∉ cs)
    (ht : (cs.flatMap fun r => text r.bytes) = []) : collected (cs ++ [.error]) = .ret .null := by
  rw [collected_append, collected_of_not_mem hcs, ht]
  rfl

theorem collected_of_mem (h : .error ∈ rs) (hno : ∀ cs, rs = cs ++ [.error] → .error ∉ cs →
    (cs.flatMap fun r => text r.bytes) ≠ []) : collected rs = .fault := by
  refine (if_neg (by rw [any_isError_iff.mpr h]; decide)).trans (if_neg ?_)
  rintro ⟨hlast, hall⟩
  rcases List.eq_nil_or_concat rs with rfl | ⟨cs, r, rfl⟩
  · cases h
  · rw [List.concat_eq_append] at hlast hall hno
    rw [List.getLast?_concat, Option.any_some] at hlast
    rw [List.dropLast_concat] at hall
    cases r with
    | chunk | closed => cases hlast
    | error =>
      refine hno cs rfl (fun hmem => ?_) (List.flatMap_eq_nil_iff.mpr fun r hr => (hall r hr).2)
      cases (hall _ hmem).1

/-- **What `httpSendRequest` returns** for a request that is built and a socket for `select`, whatever
`recv` returns: the texts of the chunks one behind the other, or `NULL` after an error with nothing
but empty texts in front of it. With another error the run leaves the defined behaviour. -/
theorem httpSendRequest_result (hbuild : buildRequest hostname path hostEntry = .ret (some b))
    (hfd : 0 ≤ socketFd ∧ socketFd < 1024) (hv : ∀ it ∈ its, it.Valid) :
    let rs := received its
    let send := httpSendRequest hostname path hostEntry socketFd its
    (.error ∉ rs → if leaves its then
        ∃ block, send = .ret (some block) ∧ Ends block ∧ text block = rs.flatMap fun r => text r.bytes
      else send = .more) ∧
    (∀ cs, rs = cs ++ [.error] → .error ∉ cs → (cs.flatMap fun r => text r.bytes) = [] →
      send = if leaves its then .ret none else .more) ∧
    (.error ∈ rs → (∀ cs, rs = cs ++ [.error] → .error ∉ cs →
      (cs.flatMap fun r => text r.bytes) ≠ []) → send = .fault) := by
  intro rs send
  have hrel : Run.Rel _ send _ := httpSendRequest_rel hbuild hfd hv
  refine ⟨fun hno => ?_, fun cs hrs hcs ht => ?_, fun hmem hno => ?_⟩
  · rw [collected_of_not_mem hno, Run.ret_bind] at hrel
    split
    · rw [if_pos ‹_›] at hrel
      obtain ⟨result, hsend, block, rfl, hends, htext⟩ := hrel.of_ret
      exact ⟨block, hsend, hends, htext⟩
    · rw [if_neg ‹_›] at hrel
      cases hsend : send <;> rw [hsend] at hrel <;> cases hrel
  · have hnull : collected rs = .ret .null := by rw [hrs]; exact collected_null hcs ht
    rw [hnull, Run.ret_bind] at hrel
    split
    · rw [if_pos ‹_›] at hrel
      obtain ⟨result, hsend, rfl⟩ := hrel.of_ret
      exact hsend
    · rw [if_neg ‹_›] at hrel
      cases hsend : send <;> rw [hsend] at hrel <;> cases hrel
  · rw [collected_of_mem hmem hno, Run.fault_bind] at hrel
    cases hsend : send <;> rw [hsend] at hrel <;> cases hrel

/-- `a`, NUL, `b` is the string `a`. An error first is `NULL`. An error behind `a` is a fault. -/
theorem httpSendRequest_result_three :
    let h : Str := ⟨octets "h", by decide⟩
    let t : IpText := ⟨octets "127.0.0.1", by decide⟩
    let send := httpSendRequest (some h) (some h) (some [t]) 3
    let a := Iteration.ready (.chunk [97, 0, 98]) fun _ => 0xff
    let error := Iteration.ready .error fun _ => 0xff
    (∃ block, send [a, .notReady] = .ret (some block) ∧ Ends block ∧ text block = [97]) ∧
      send [error, .notReady] = .ret none ∧ send [a, error] = .fault := by
  intro h t send a error
  obtain ⟨ips, buffer, hbuild, -⟩ := @exists_build h h t [] (by decide) (by decide)
  have hfd : (0 : Int) ≤ 3 ∧ (3 : Int) < 1024 := by decide
  have hresult (its : List Iteration) (hv : ∀ it ∈ its, it.Valid) :=
    httpSendRequest_result hbuild hfd hv
  refine ⟨(hresult [a, .notReady] (by decide)).1 (by simp [received, a]),
    (hresult [error, .notReady] (by decide)).2.1 [] rfl nofun rfl,
    (hresult [a, error] (by decide)).2.2 (by simp [received, a, error]) fun cs hcs _ => ?_⟩
  have happend : [Received.chunk [97, 0, 98]] ++ [.error] = cs ++ [.error] := hcs
  obtain ⟨rfl, -⟩ := List.append_inj' happend rfl
  decide

end Caller

end HttpConnect
end LinuxBase
