import LinuxBase.HttpConnect.Basic

/-!
# The response in `result`

The loop of `httpSendRequest` appends each chunk with `strncat`, which stops at a NUL in the chunk. It
does not look for an error of `recv`: the -1 counts as a length, and `realloc` gets a size without room
for the NUL, or the size 0.

So `result` is a block with a NUL behind the octets that were received, in all states of a run, exactly
if `recv` never fails and no chunk has a NUL (`accumulates_iff`).
-/

namespace LinuxBase
namespace HttpConnect

open CString

/-- `recv` gets from 1 to 1024 octets. -/
def Iteration.Valid : Iteration → Prop
  | .ready (.chunk bytes) _ => 1 ≤ bytes.length ∧ bytes.length ≤ 1024
  | .ready .error _ | .ready .closed _ | .notReady => True

instance : DecidablePred Iteration.Valid
  | .ready (.chunk bytes) _ => inferInstanceAs (Decidable (1 ≤ bytes.length ∧ bytes.length ≤ 1024))
  | .ready .error _ | .ready .closed _ | .notReady => .isTrue trivial

/-- `result` is a block with what was received, and a NUL behind it. -/
def Holds (s : State) : Prop :=
  ∃ block, s.result = some block ∧ Ends block ∧ text block = s.received

/-- No access is outside of `result`, and it has what was received in front of each iteration, and at
the end. -/
def Accumulates (its : List Iteration) : Prop :=
  (∃ s, exec iterate its {} = .ret s) ∧ ∀ s, Visits iterate {} its s → Holds s

/-- `recv` does not fail, and the chunk has no NUL. -/
def Plain (s : State) : Iteration → Prop
  | .ready (.chunk bytes) _ => s.left = false → 0#8 ∉ bytes
  | .ready .error _ => s.left = true
  | .ready .closed _ | .notReady => True

instance (s : State) : DecidablePred (Plain s)
  | .ready (.chunk bytes) _ => inferInstanceAs (Decidable (s.left = false → 0#8 ∉ bytes))
  | .ready .error _ => inferInstanceAs (Decidable (s.left = true))
  | .ready .closed _ | .notReady => .isTrue trivial

variable {s s' : State} {block bytes : List Byte} {junk : Nat → Byte}

/-- A block that keeps its NUL in `realloc`. -/
theorem realloc_of_lt {n : Nat} (h : Ends block) (hn : (text block).length < n) (junk : Nat → Byte) :
    ∃ block', realloc block n junk = some block' ∧ block'.length = n ∧ Ends block' ∧
      text block' = text block := by
  obtain ⟨hends, htext⟩ := h.take hn ((List.range (n - block.length)).map junk)
  refine ⟨_, if_neg (by omega), ?_, hends, htext⟩
  rw [List.length_append, List.length_take, List.length_map, List.length_range]
  omega

/-- The chunk goes behind the text of the block, up to its first NUL. -/
theorem append_chunk (h : Ends block) (hlen : bytes.length ≤ 1024) (junk : Nat → Byte) :
    ∃ block', append (some block) (.chunk bytes) junk = .ret (some block') ∧ Ends block' ∧
      text block' = text block ++ text bytes := by
  have hsize : (((text block).length : Int) + bytes.length + 1).toNat =
      (text block).length + bytes.length + 1 := by omega
  have hsizeT : sizeT bytes.length = bytes.length := sizeT_natCast (by omega)
  obtain ⟨block₁, hrealloc, hlen₁, hends, htext⟩ :=
    realloc_of_lt h (n := (text block).length + bytes.length + 1) (by omega) junk
  have hshort : (text bytes).length ≤ bytes.length := (List.takeWhile_prefix _).length_le
  obtain ⟨block', hcat, hends', htext'⟩ := strncat_of_ends hends
    (readUpTo_append bytes (List.replicate (1024 - bytes.length) 0#8)) (zero_not_mem_text bytes)
    (by rw [htext, hlen₁]; omega)
  refine ⟨block', ?_, hends', by rw [htext', htext]⟩
  simp only [append, Run.ofOption_some, Run.ret_bind, strlen_of_ends h, Received.length, hsize,
    hrealloc, Received.bytes, hsizeT, hcat]

/-- An error leaves no room for the NUL. -/
theorem append_error (h : Ends block) {result : Option (List Byte)}
    (hr : append (some block) .error junk = .ret result) : result = none := by
  have hsize : (((text block).length : Int) + -1 + 1).toNat = (text block).length := by omega
  simp only [append, Run.ofOption_some, Run.ret_bind, strlen_of_ends h, Received.length, hsize,
    realloc] at hr
  by_cases h0 : (text block).length = 0
  · rw [if_pos h0] at hr
    exact (Run.ret.inj hr).symm
  · -- The block is cut off in front of the NUL.
    have hcut : ¬ Ends (block.take (text block).length ++
        (List.range ((text block).length - block.length)).map junk) := by
      have hlt := h.text_lt
      obtain ⟨xs, rest, rfl, hxs⟩ := h.split
      rw [text_append_zero hxs] at hlt ⊢
      rw [List.take_left, Nat.sub_eq_zero_of_le (Nat.le_of_lt hlt), List.range_zero, List.map_nil,
        List.append_nil]
      exact hxs
    simp only [if_neg h0, strncat_of_not_ends hcut, Run.fault_bind] at hr
    cases hr

/-- An iteration appends a chunk without NULs. -/
theorem Holds.iterate {it : Iteration} (h : Holds s) (hv : it.Valid) (hp : Plain s it) :
    ∃ s', iterate it s = .ret s' ∧ Holds s' := by
  unfold HttpConnect.iterate
  by_cases hl : s.left = true
  · rw [if_pos hl]
    exact ⟨s, rfl, h⟩
  · rw [if_neg hl]
    rw [Bool.not_eq_true] at hl
    obtain ⟨block, hresult, hends, htext⟩ := h
    cases it with
    | notReady => exact ⟨_, rfl, block, hresult, hends, htext⟩
    | ready r junk =>
      cases r with
      | closed => exact ⟨_, rfl, block, hresult, hends, htext⟩
      | error => rw [Plain, hl] at hp; cases hp
      | chunk bytes =>
        obtain ⟨block', happend, hends', htext'⟩ := append_chunk hends hv.2 junk
        simp only [hresult, happend, Run.ret_bind]
        refine ⟨_, rfl, block', rfl, hends', ?_⟩
        rw [htext', htext, text_eq_self (hp hl), Received.bytes]

/-- After an error there is no such block, and after a chunk with a NUL the block has less. -/
theorem not_holds_iterate {it : Iteration} (h : Holds s) (hv : it.Valid) (hp : ¬ Plain s it)
    (hs' : HttpConnect.iterate it s = .ret s') : ¬ Holds s' := by
  obtain ⟨block, hresult, hends, htext⟩ := h
  rintro ⟨block', hresult', hends', htext'⟩
  cases it with
  | notReady => exact hp trivial
  | ready r junk =>
    cases r with
    | closed => exact hp trivial
    | error =>
      have hl : ¬ s.left = true := hp
      unfold HttpConnect.iterate at hs'
      rw [if_neg hl] at hs'
      obtain ⟨result, happend, hret⟩ := Run.bind_eq_ret.mp hs'
      cases hret
      rw [hresult] at happend
      rw [append_error hends happend] at hresult'
      cases hresult'
    | chunk bytes =>
      obtain ⟨hl, hnul⟩ := Classical.not_imp.mp hp
      obtain ⟨block₁, happend, hends₁, htext₁⟩ := append_chunk hends hv.2 junk
      simp only [HttpConnect.iterate, hl, Bool.false_eq_true, if_false, hresult, happend,
        Run.ret_bind] at hs'
      cases hs'
      cases hresult'
      rw [htext₁, htext, Received.bytes, List.append_cancel_left_eq] at htext'
      exact hnul (htext' ▸ zero_not_mem_text bytes)

theorem holds_start : Holds {} := ⟨_, rfl, by decide, by decide⟩

/-- **The response.** In every run `result` has exactly what was received, in front of each iteration
and at the end, exactly if `recv` does not fail and no chunk has a NUL. -/
theorem accumulates_iff {its : List Iteration} (hv : ∀ it ∈ its, it.Valid) :
    Accumulates its ↔ Along iterate Plain {} its :=
  exec_good_iff (fun _ h => h) (fun _ _ h hv hp => h.iterate hv hp)
    (fun _ _ h hv hp _ hs' => not_holds_iterate h hv hp hs') holds_start (along_of_mem hv)

/-- What the caller gets from a request that is built, a socket for `select`, and chunks without NULs:
once the loop has ended, a string with exactly what was received. -/
theorem httpSendRequest_ret {hostname path : Option Str} {hostEntry : Option (List IpText)}
    {socketFd : Int} {its : List Iteration} {r : List Byte × List Byte}
    (hbuild : buildRequest hostname path hostEntry = .ret (some r))
    (hfd : 0 ≤ socketFd ∧ socketFd < 1024) (hv : ∀ it ∈ its, it.Valid)
    (hp : Along HttpConnect.iterate Plain {} its) : ∃ s, Holds s ∧
      exec HttpConnect.iterate its {} = .ret s ∧
      httpSendRequest hostname path hostEntry socketFd its =
        if s.left = true then .ret s.result else .more := by
  obtain ⟨s, hs, hholds⟩ := exec_progress
    (fun _ _ h (hboth : Iteration.Valid _ ∧ Plain _ _) => h.iterate hboth.1 hboth.2) holds_start
    ((along_of_mem hv).and hp)
  have hselect : ¬ (socketFd < 0 ∨ 1024 ≤ socketFd) := by omega
  refine ⟨s, hholds, hs, ?_⟩
  simp only [httpSendRequest, hbuild, Run.ret_bind, if_neg hselect, hs]

/-- Two chunks, and the end. -/
theorem accumulates_iff_two :
    Accumulates [.ready (.chunk (octets "HTTP")) fun _ => 0xff,
      .ready (.chunk (octets "/1.1")) fun _ => 0xff, .ready .closed fun _ => 0xff] :=
  (accumulates_iff (by decide)).mpr (by decide)

/-- The `NULL` behind an error at the first `recv`, and the chunk `a`, NUL, `b`, of which one octet is
kept. -/
theorem not_accumulates :
    ¬ Accumulates [.ready .error fun _ => 0xff] ∧
      ¬ Accumulates [.ready (.chunk [97, 0, 98]) fun _ => 0xff] := by
  constructor
  · rintro ⟨-, h⟩
    obtain ⟨block, hresult, -⟩ := h _ ⟨1, rfl⟩
    cases hresult
  · rintro ⟨-, h⟩
    obtain ⟨block, hresult, -, htext⟩ := h _ ⟨1, rfl⟩
    cases hresult
    exact absurd htext (by decide)

end HttpConnect
end LinuxBase
