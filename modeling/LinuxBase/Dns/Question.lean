import LinuxBase.Dns.Request

/-!
# Questions about any hostname (`dns.c`)

What `dnsCreateBody` and `dnsMergeRequest` do with a hostname that need not be one. `dnsCreateBody`
takes `strlen + 2` for the length of the encoding, which counts a label behind each dot; `strtok` skips
the empty ones, and nothing limits the others to 63 octets. `length` is an `int`, so the empty labels
do not show if their number is a multiple of `2 ^ 32` (`creates_iff`).

`dnsMergeRequest` checks `len` only against 1. So the request stays in its buffer exactly if the
buffer is long enough for what is copied (`requestInside_iff`).
-/

namespace LinuxBase
namespace Dns

open Layout

variable {h : List Byte} {old : Nat → Byte}

/-! ## What is created -/

theorem length_intercalate_dot {ts : List (List Byte)} (hne : ts ≠ []) :
    ([46#8].intercalate ts).length + 1 = (encodeTokens ts).length := by
  induction ts with
  | nil => exact absurd rfl hne
  | cons t ts ih =>
    have hcons : encodeTokens (t :: ts) = .ofNat 8 t.length :: t ++ encodeTokens ts := rfl
    rw [hcons, List.length_append, List.length_cons]
    by_cases hts : ts = []
    · subst hts
      simp [encodeTokens]
    · rw [List.intercalate_cons_of_ne_nil hts, List.length_append, List.length_append,
        List.length_singleton, ← ih hts]
      omega

/-- The empty labels are encoded in one octet each. -/
theorem length_encodeTokens_filter (ts : List (List Byte)) :
    (encodeTokens ts).length = (encodeTokens (ts.filter (· ≠ []))).length + ts.count [] := by
  induction ts with
  | nil => rfl
  | cons t ts ih =>
    have hcons : ∀ us, encodeTokens (t :: us) = .ofNat 8 t.length :: t ++ encodeTokens us :=
      fun _ => rfl
    by_cases ht : t = []
    · subst ht
      rw [hcons, List.filter_cons_of_neg (by simp), List.count_cons_self, List.length_append, ih]
      simp only [List.length_cons, List.length_nil]
      omega
    · rw [hcons, List.filter_cons_of_pos (by simpa using ht), hcons, List.length_append,
        List.length_append, ih, List.count_cons_of_ne (Ne.symm (fun h => ht h.symm))]
      omega

/-- `strlen + 2` is the length of the encoding and one for each empty label. -/
theorem strlen_eq (h : List Byte) : h.length + 2 =
    (encodeTokens (hostLabels h) ++ [(0 : Byte)]).length + (h.splitOn 46#8).count [] := by
  have hlen := length_intercalate_dot (List.splitOn_ne_nil 46#8 h)
  rw [List.intercalate_splitOn, length_encodeTokens_filter] at hlen
  rw [List.length_append, List.length_singleton, hostLabels]
  omega

/-- What `dnsCreateBody` makes of a hostname. -/
def createdBody (h : List Byte) (old : Nat → Byte) : DnsBody where
  length := (BitVec.ofNat 32 (h.length + 2)).toInt
  qType := htons 1
  qClass := htons 1
  qName :=
    let block := (List.range (h.length + 2)).map old
    some (if hostLabels h = [] then block else put block 0 (encodeTokens (hostLabels h) ++ [0]))

theorem fueled_tokenLoop {qName s : List Byte} {p : Nat} :
    Fueled fun n => tokenLoop n qName p s := by
  intro n hn
  induction n generalizing qName p s with
  | zero => exact absurd rfl hn
  | succ n ih =>
    simp only at hn ⊢
    rw [tokenLoop] at hn
    rw [tokenLoop, tokenLoop]
    cases hs : strtok s with
    | none => rfl
    | some next =>
      rw [hs] at hn
      exact Run.bind_stable hn fun _ hn => Run.bind_stable hn fun _ hn => ih hn

theorem fueled_dnsCreateBody {dnsBody : Option DnsBody} {qName : Option (Nat → Byte)} :
    Fueled fun n => dnsCreateBody n dnsBody h qName := by
  cases dnsBody with
  | none => exact fueled_const _
  | some body =>
    cases qName with
    | none => exact fueled_const _
    | some old => exact fueled_tokenLoop.bind fun _ => fueled_const _

/-- The stores of `dnsCreateBody` stay inside its block. -/
theorem returns_dnsCreateBody (body : DnsBody) (h : List Byte) (old : Nat → Byte) :
    Returns (fun n => dnsCreateBody n (some body) h (some old)) (0, some (createdBody h old)) := by
  have hlen := strlen_eq h
  have hfit : 0 + (encodeTokens (hostLabels h) ++ [(0 : Byte)]).length ≤
      ((List.range (h.length + 2)).map old).length := by
    rw [List.length_map, List.length_range]
    omega
  obtain ⟨n, hn⟩ := tokenLoop_labels (s := h) rfl hfit
  refine ⟨n, ?_⟩
  simp only at hn
  simp only [dnsCreateBody, hn, Run.ret_bind]
  rfl

theorem toInt_eq_iff (e c : Nat) :
    (BitVec.ofNat 32 (e + c)).toInt = (e : Int) ↔ c % 2 ^ 32 = 0 ∧ e < 2 ^ 31 := by
  rw [BitVec.toInt_eq_toNat_cond, BitVec.toNat_ofNat]
  split <;> omega

/-- The first `length` octets of `qName` are the labels of `h`, which are valid, and a zero octet. -/
def Encodes (h : List Byte) (b : DnsBody) : Prop :=
  ∃ qName, b.qName = some qName ∧ (∀ t ∈ hostLabels h, t.length ≤ 63) ∧
    b.length = (encodeTokens (hostLabels h) ++ [(0 : Byte)]).length ∧
    qName.take b.length.toNat = encodeTokens (hostLabels h) ++ [0]

/-- `dnsCreateBody` fails, or it encodes `h`, whatever its block held. -/
def Creates (h : List Byte) : Prop :=
  ∀ dnsBody qName, ∃ r, Returns (fun n => dnsCreateBody n dnsBody h qName) r ∧
    (r.1 ≠ 0 ∨ ∃ b, r.2 = some b ∧ Encodes h b)

/-- A hostname with valid labels, of which none is empty, or `2 ^ 32` or a multiple of it. -/
structure ValidHostname (h : List Byte) : Prop where
  labels : hostLabels h ≠ []
  length_le : ∀ t ∈ hostLabels h, t.length ≤ 63
  empty : (h.splitOn 46#8).count [] % 2 ^ 32 = 0
  size : (encodeTokens (hostLabels h)).length + 1 < 2 ^ 31

/-- The body has the length of the encoding if only the labels that are encoded are counted. -/
theorem createdBody_length_iff :
    (createdBody h old).length = (encodeTokens (hostLabels h) ++ [(0 : Byte)]).length ↔
      (h.splitOn 46#8).count [] % 2 ^ 32 = 0 ∧ (encodeTokens (hostLabels h)).length + 1 < 2 ^ 31 := by
  rw [createdBody, strlen_eq, toInt_eq_iff, List.length_append, List.length_singleton]

/-- **Questions.** `dnsCreateBody` fails or encodes the hostname if and only if that is valid. -/
theorem creates_iff (h : List Byte) : Creates h ↔ ValidHostname h := by
  constructor
  · intro hc
    obtain ⟨r, hr, hr'⟩ := hc (some {}) (some fun _ => 1)
    cases fueled_dnsCreateBody.returns_unique hr (returns_dnsCreateBody {} h fun _ => 1)
    obtain ⟨b, hb, qName, hq, hshort, hlen, htake⟩ := hr'.resolve_left (fun hne => hne rfl)
    cases hb
    obtain ⟨hempty, hsize⟩ := createdBody_length_iff.mp hlen
    refine ⟨fun hnil => ?_, hshort, hempty, hsize⟩
    -- Without a label nothing is written, and the block has no zero octet.
    rw [hlen, Int.toNat_natCast, hnil] at htake
    simp only [createdBody, hnil, if_true, Option.some.injEq] at hq
    have hzero : (0 : Byte) ∈ qName.take (encodeTokens [] ++ [(0 : Byte)]).length := by
      rw [htake]
      exact List.mem_append_right _ (List.mem_singleton_self _)
    have hmem := List.mem_of_mem_take hzero
    rw [← hq] at hmem
    simp at hmem
  · intro hv dnsBody qName
    cases dnsBody with
    | none => exact ⟨_, ⟨0, rfl⟩, .inl (by decide)⟩
    | some body =>
      cases qName with
      | none => exact ⟨_, ⟨0, rfl⟩, .inl (by decide)⟩
      | some old =>
        have hlen : (createdBody h old).length = _ := createdBody_length_iff.mpr ⟨hv.empty, hv.size⟩
        refine ⟨_, returns_dnsCreateBody body h old, .inr ⟨_, rfl, _, rfl, hv.length_le, hlen, ?_⟩⟩
        rw [if_neg hv.labels, hlen, Int.toNat_natCast, put]
        exact List.take_left

/-- The host `a.b`. -/
example : ValidHostname [97, 46, 98] := ⟨by decide, by decide, by decide, by decide⟩

/-- The hostname `a.` is encoded in three octets, and `length` is 4. -/
theorem not_creates_dot : ¬ Creates [97, 46] := by
  intro hc
  obtain ⟨r, hr, hr'⟩ := hc (some {}) (some fun _ => 1)
  cases fueled_dnsCreateBody.returns_unique hr (returns_dnsCreateBody {} [97, 46] fun _ => 1)
  obtain ⟨b, hb, qName, hq, hshort, hlen, htake⟩ := hr'.resolve_left (fun hne => hne rfl)
  cases hb
  exact absurd (createdBody_length_iff.mp hlen).1 (by decide)

/-! ## What is merged -/

/-- The request for `h` is written inside its buffer: `dnsMergeRequest` returns -1, or the end of what
it has written, as an `int` and no more than the length of the buffer. -/
def RequestInside (header : Option DnsHeader) (h : List Byte) (old : Nat → Byte)
    (request : List Byte) : Prop :=
  ∃ body, Returns (fun n => dnsCreateBody n (some {}) h (some old)) (0, some body) ∧
    ∃ size request', dnsMergeRequest header (some body) (some request) request.length =
        .ret (size, request') ∧
      (size = -1 ∨ size = 12 + body.length + 4 ∧ size ≤ request.length ∧ size < 2 ^ 31)

/-- `dnsMergeRequest` copies `length` octets of the block, if that is no negative number. -/
theorem createdBody_read (h : List Byte) (old : Nat → Byte) :
    if (h.length + 2) % 2 ^ 32 < 2 ^ 31 then
      ∃ qName, (createdBody h old).read = .ret qName ∧
        (createdBody h old).length = qName.length ∧ qName.length = (h.length + 2) % 2 ^ 32
    else (createdBody h old).read = .fault := by
  have hlength : (createdBody h old).length = (BitVec.ofNat 32 (h.length + 2)).toInt := rfl
  rw [BitVec.toInt_eq_toNat_cond, BitVec.toNat_ofNat] at hlength
  obtain ⟨block, hq, hblock⟩ : ∃ block, (createdBody h old).qName = some block ∧
      block.length = h.length + 2 := by
    refine ⟨_, rfl, ?_⟩
    have hlen := strlen_eq h
    split
    · simp
    · rw [length_put (by simp only [List.length_map, List.length_range]; omega)]
      simp
  split
  · rename_i hlt
    rw [if_pos (by omega)] at hlength
    refine ⟨block.take ((h.length + 2) % 2 ^ 32), ?_, ?_, ?_⟩
    · simp only [DnsBody.read, hq, hlength, Int.toNat_natCast]
      exact if_pos ⟨by omega, by omega⟩
    · rw [hlength, List.length_take]
      omega
    · rw [List.length_take]
      omega
  · rename_i hlt
    rw [if_neg (by omega)] at hlength
    simp only [DnsBody.read, hq, hlength]
    exact if_neg fun h => by omega

/-- Nothing is returned after a read outside of the block. -/
theorem dnsMergeRequest_ne_ret {header : DnsHeader} {body : DnsBody} {request : List Byte}
    (hpos : 1 ≤ request.length) (hread : body.read = .fault) {r : Int × Option (List Byte)} :
    dnsMergeRequest (some header) (some body) (some request) request.length ≠ .ret r := by
  intro hr
  simp only [dnsMergeRequest, if_neg (Nat.not_lt.mpr hpos)] at hr
  obtain ⟨_, -, hr⟩ := Run.bind_eq_ret.mp hr
  obtain ⟨_, -, hr⟩ := Run.bind_eq_ret.mp hr
  obtain ⟨_, hr', -⟩ := Run.bind_eq_ret.mp hr
  rw [hread] at hr'
  cases hr'

/-- With a header and a buffer, `dnsMergeRequest` copies the whole request. -/
theorem requestInside_some (header : DnsHeader) (h : List Byte) (old : Nat → Byte)
    {request : List Byte} (hpos : 1 ≤ request.length) :
    RequestInside (some header) h old request ↔ 12 + (h.length + 2) % 2 ^ 32 + 4 ≤ request.length ∧
      12 + (h.length + 2) % 2 ^ 32 + 4 < 2 ^ 31 := by
  have hret := returns_dnsCreateBody {} h old
  have hread := createdBody_read h old
  constructor
  · rintro ⟨body, hbody, size, request', hr, hsize⟩
    cases fueled_dnsCreateBody.returns_unique hret hbody
    split at hread
    · obtain ⟨qName, hqName, hlen, hlen'⟩ := hread
      rw [dnsMergeRequest_eq header hpos hqName hlen] at hr
      split at hr
      · cases hr
        omega
      · cases hr
    · exact absurd hr (dnsMergeRequest_ne_ret hpos hread)
  · rintro ⟨hfit, hsize⟩
    rw [if_pos (by omega)] at hread
    obtain ⟨qName, hqName, hlen, hlen'⟩ := hread
    have hr := dnsMergeRequest_eq header hpos hqName hlen
    rw [if_pos (by omega)] at hr
    exact ⟨_, hret, _, _, hr, .inr ⟨rfl, by omega, by omega⟩⟩

/-- **Requests.** The request for a hostname is written inside its buffer if and only if there is no
header or no buffer, or the octets that `length` counts, with sixteen more for the header and the
rest of the question, fit into the buffer and into an `int`. -/
theorem requestInside_iff (header : Option DnsHeader) (h : List Byte) (old : Nat → Byte)
    (request : List Byte) :
    RequestInside header h old request ↔ header = none ∨ request.length < 1 ∨
      12 + (h.length + 2) % 2 ^ 32 + 4 ≤ request.length ∧
        12 + (h.length + 2) % 2 ^ 32 + 4 < 2 ^ 31 := by
  have hret := returns_dnsCreateBody {} h old
  cases header with
  | none => exact iff_of_true ⟨_, hret, -1, some request, rfl, .inl rfl⟩ (.inl rfl)
  | some header =>
    by_cases hpos : request.length < 1
    · refine iff_of_true ⟨_, hret, -1, some request, ?_, .inl rfl⟩ (.inr (.inl hpos))
      simp only [dnsMergeRequest, if_pos hpos]
    · rw [requestInside_some header h old (by omega)]
      simp [hpos]

/-- The request for a host of 1007 characters takes 1025 octets, and `dnsConnection` has 1024. -/
theorem not_requestInside_dnsConnection :
    ¬ RequestInside (some ⟨0, 0, 0, 0, 0, 0⟩) (List.replicate 1007 97) (fun _ => 0)
      (List.replicate 1024 0) := by
  have hbuffer : 1 ≤ (List.replicate 1024 (0 : Byte)).length := by
    rw [List.length_replicate]
    decide
  rw [requestInside_some _ _ _ hbuffer, List.length_replicate, List.length_replicate]
  decide

end Dns
end LinuxBase
