import LinuxBase.Dns.Wire

/-!
# Building a DNS request (`dns.c`)

`dnsCreateBody` writes the hostname as labels into a new block, and `dnsMergeRequest` copies the
header and the question into the request. A store outside of its block is a `fault`.

* A hostname is the list of its characters before the NUL. `strtok` is what the C library does with
  the delimiter `.`; `strdup` does not fail. What the `malloc` of `qName` returns is a parameter.
* `struct DnsHeader` and the fields of `struct DnsBody` are in network order, and their memory is that
  of a little-endian machine (`bytes16`).
* `tokenLoop_labels` is what the loop writes: the labels of the hostname and the zero octet of the last
  `strcpy`, over the zero octets of the others. The reader of names and the loop over the questions
  find it where they expect it, if the labels are valid (`request_roundTrip`).
-/

namespace LinuxBase
namespace Dns

open Layout

/-- `htons` on a little-endian machine. -/
def htons (x : BitVec 16) : BitVec 16 := x.extractLsb' 0 8 ++ x.extractLsb' 8 8

/-- The memory of an `unsigned short` on a little-endian machine. -/
def bytes16 (x : BitVec 16) : List Byte := [x.extractLsb' 0 8, x.extractLsb' 8 8]

/-- The memory of a `struct DnsHeader`. -/
def DnsHeader.bytes (h : DnsHeader) : List Byte :=
  bytes16 h.transactionId ++ bytes16 h.flags ++ bytes16 h.questions ++ bytes16 h.answer ++
    bytes16 h.authority ++ bytes16 h.additional

/-- A `struct DnsBody`; `qName` is the block that it points to. -/
structure DnsBody where
  length : Int := 0
  qType : BitVec 16 := 0
  qClass : BitVec 16 := 0
  qName : Option (List Byte) := none
  deriving DecidableEq

/-- A store into a block. -/
def store (block : List Byte) (p : Nat) (bs : List Byte) : Run (List Byte) :=
  if p + bs.length ≤ block.length then .ret (put block p bs) else .fault

/-- `strtok(.., ".")`: the token, and where the next call goes on. -/
def strtok (s : List Byte) : Option (List Byte × List Byte) :=
  match s.dropWhile (· = 46#8) with
  | [] => none
  | c :: s =>
    let token := (c :: s).takeWhile (· ≠ 46#8)
    some (token, (c :: s).drop (token.length + 1))

/-- The `while` of `dnsCreateBody`, with `qNamePtr` at `p` and `strtok` at `s`. -/
def tokenLoop : Nat → List Byte → Nat → List Byte → Run (List Byte)
  | 0, _, _, _ => .more
  | fuel + 1, qName, p, s =>
    match strtok s with
    | none => .ret qName
    | some (token, s) => do
      let length := token.length
      let qName ← store qName p [.ofNat 8 length]
      let qName ← store qName (p + 1) (token ++ [0])
      tokenLoop fuel qName (p + 1 + length) s

/-- `dnsCreateBody`; `qName` is what `malloc` returned, with what was in it. -/
def dnsCreateBody (fuel : Nat) (dnsBody : Option DnsBody) (hostname : List Byte)
    (qName : Option (Nat → Byte)) : Run (Int × Option DnsBody) :=
  match dnsBody, qName with
  | none, _ => .ret (-1, none)
  | some _, none => .ret (-2, some {})
  | some _, some old => do
    let len := hostname.length + 2
    let qName ← tokenLoop fuel ((List.range len).map old) 0 hostname
    .ret (0, some { length := (BitVec.ofNat 32 len).toInt, qType := htons 1, qClass := htons 1,
                    qName := some qName })

/-- The `length` octets at `qName`. -/
def DnsBody.read (b : DnsBody) : Run (List Byte) :=
  match b.qName with
  | some qName =>
    if 0 ≤ b.length ∧ b.length.toNat ≤ qName.length then .ret (qName.take b.length.toNat)
    else .fault
  | none => .fault

/-- `dnsMergeRequest`. -/
def dnsMergeRequest (dnsHeader : Option DnsHeader) (dnsBody : Option DnsBody)
    (request : Option (List Byte)) (len : Nat) : Run (Int × Option (List Byte)) :=
  match dnsHeader, dnsBody, request with
  | some header, some body, some request =>
    if len < 1 then .ret (-1, some request)
    else do
      let offset := 12
      let request ← store request 0 (List.replicate len 0)
      let request ← store request 0 header.bytes
      let qName ← body.read
      let request ← store request offset qName
      let offset := offset + body.length.toNat
      let request ← store request offset (bytes16 body.qType)
      let offset := offset + 2
      let request ← store request offset (bytes16 body.qClass)
      let offset := offset + 2
      .ret (offset, some request)
  | _, _, _ => .ret (-1, request)

/-! ## Memory -/

theorem bytes16_htons (x : BitVec 16) : bytes16 (htons x) = encode16 x := by
  have h0 : (htons x).extractLsb' 0 8 = x.extractLsb' 8 8 :=
    @BitVec.extractLsb'_append_eq_right 8 8 _ _
  have h8 : (htons x).extractLsb' 8 8 = x.extractLsb' 0 8 :=
    @BitVec.extractLsb'_append_eq_left 8 8 _ _
  rw [bytes16, h0, h8, encode16]

@[simp] theorem length_bytes16 (x : BitVec 16) : (bytes16 x).length = 2 := rfl

@[simp] theorem DnsHeader.length_bytes (h : DnsHeader) : h.bytes.length = 12 := rfl

theorem store_of_le {block : List Byte} {p : Nat} {bs : List Byte}
    (h : p + bs.length ≤ block.length) : store block p bs = .ret (put block p bs) := if_pos h

/-! ## Labels -/

/-- The labels of a hostname: what is between its dots, where that is not empty. -/
def hostLabels (s : List Byte) : List (List Byte) := (s.splitOn 46#8).filter (· ≠ [])

/-- The labels with their lengths in front of them. -/
def encodeTokens (ts : List (List Byte)) : List Byte := ts.flatMap fun t => .ofNat 8 t.length :: t

theorem hostLabels_dot (s : List Byte) : hostLabels (46#8 :: s) = hostLabels s := by
  have hsplit : (46#8 :: s).splitOn 46#8 = [] :: s.splitOn 46#8 :=
    List.splitOn_append_cons_self [] s
  simp [hostLabels, hsplit]

/-- The next token is the first label, and the call behind it goes on with the others. -/
theorem strtok_labels (s : List Byte) :
    hostLabels s = [] ∧ strtok s = none ∨
      ∃ t rest, strtok s = some (t, rest) ∧ hostLabels s = t :: hostLabels rest := by
  induction s with
  | nil => exact .inl ⟨rfl, rfl⟩
  | cons c s ih =>
    by_cases hc : c = 46#8
    · subst hc
      have hstrtok : strtok (46#8 :: s) = strtok s := by
        rw [strtok, List.dropWhile_cons_of_pos (by simp), strtok]
      rwa [hostLabels_dot, hstrtok]
    · refine .inr ⟨(c :: s).takeWhile (· ≠ 46#8), _, by
        rw [strtok, List.dropWhile_cons_of_neg (by simpa using hc)], ?_⟩
      have hne : (c :: s).takeWhile (· ≠ 46#8) ≠ [] := by simp [hc]
      have hdot : 46#8 ∉ (c :: s).takeWhile (· ≠ 46#8) := fun h => by
        simpa using List.all_eq_true.mp List.all_takeWhile _ h
      have hsplit := List.takeWhile_append_dropWhile (p := (· ≠ 46#8)) (l := c :: s)
      generalize (c :: s).takeWhile (· ≠ 46#8) = token at hne hdot hsplit ⊢
      rw [← hsplit, List.drop_append, List.drop_eq_nil_of_le (Nat.le_succ _), List.nil_append,
        Nat.add_sub_cancel_left]
      -- The token ends at the end of the hostname or in front of a dot.
      cases hrest : (c :: s).dropWhile (· ≠ 46#8) with
      | nil => simp [hostLabels, List.splitOn_eq_singleton hdot, hne]
      | cons d rest =>
        have hd : d = 46#8 := by
          have h := List.head?_dropWhile_not (· ≠ 46#8) (c :: s)
          rw [hrest] at h
          simpa using h
        subst hd
        simp [hostLabels, List.splitOn_append_cons_self_of_not_mem hdot, hne]

/-- One round of the loop: a length octet, and the label with its NUL. -/
theorem tokenLoop_cons {fuel : Nat} {qName s t rest : List Byte} {p : Nat}
    (hs : strtok s = some (t, rest))
    (hfit : p + (.ofNat 8 t.length :: t ++ [(0 : Byte)]).length ≤ qName.length) :
    tokenLoop (fuel + 1) qName p s =
      tokenLoop fuel (put qName p (.ofNat 8 t.length :: t ++ [(0 : Byte)])) (p + (t.length + 1))
        rest := by
  let c : Byte := .ofNat 8 t.length
  have hlen : p + [c].length ≤ qName.length := by
    simp only [List.length_append, List.length_cons] at hfit ⊢
    omega
  have hcount : store qName p [c] = .ret (put qName p [c]) := store_of_le hlen
  have hcopy : store (put qName p [c]) (p + 1) (t ++ [(0 : Byte)]) =
      .ret (put qName p (c :: t ++ [(0 : Byte)])) := by
    have hroom : p + 1 + (t ++ [(0 : Byte)]).length ≤ (put qName p [c]).length := by
      rw [length_put hlen]
      simp only [List.length_append, List.length_cons] at hfit ⊢
      omega
    rw [store_of_le hroom]
    exact congrArg Run.ret (put_append (by omega))
  rw [tokenLoop, hs]
  simp only [show store qName p [BitVec.ofNat 8 t.length] = _ from hcount, Run.ret_bind]
  rw [hcopy, Run.ret_bind, Nat.add_assoc, Nat.add_comm 1]

/-- **The writer.** The loop writes the labels and, if there are any, a zero octet. -/
theorem tokenLoop_labels {qName s : List Byte} {p : Nat} {ts : List (List Byte)}
    (hts : hostLabels s = ts) (hfit : p + (encodeTokens ts ++ [(0 : Byte)]).length ≤ qName.length) :
    Returns (fun n => tokenLoop n qName p s)
      (if ts = [] then qName else put qName p (encodeTokens ts ++ [(0 : Byte)])) := by
  induction ts generalizing qName p s with
  | nil =>
    refine ⟨1, ?_⟩
    rcases strtok_labels s with ⟨-, hs⟩ | ⟨t, rest, -, h⟩
    · simp only [tokenLoop, hs]
      rfl
    · cases hts.symm.trans h
  | cons t ts ih =>
    rcases strtok_labels s with ⟨h, -⟩ | ⟨t', rest, hs, h⟩
    · cases hts.symm.trans h
    obtain ⟨rfl, hrest⟩ := List.cons.inj (hts.symm.trans h)
    have hcons : encodeTokens (t :: ts) = .ofNat 8 t.length :: t ++ encodeTokens ts := rfl
    rw [hcons, List.append_assoc] at hfit ⊢
    simp only [List.length_append, List.length_cons, List.length_nil] at hfit
    have hlabel : p + (.ofNat 8 t.length :: t ++ [(0 : Byte)]).length ≤ qName.length := by
      simp only [List.length_append, List.length_cons, List.length_nil]
      omega
    have hlen := length_put hlabel
    obtain ⟨n, hn⟩ := @ih (put qName p (.ofNat 8 t.length :: t ++ [(0 : Byte)])) rest
      (p + (t.length + 1)) hrest.symm (by
        simp only [List.length_append, List.length_cons, List.length_nil] at hlen ⊢
        omega)
    refine ⟨n + 1, ?_⟩
    simp only at hn ⊢
    rw [tokenLoop_cons hs hlabel, hn, if_neg (List.cons_ne_nil t ts)]
    by_cases hnil : ts = []
    · rw [if_pos hnil, hnil]
      rfl
    · -- The next label begins over the NUL of this one.
      have hover : put (put qName p (.ofNat 8 t.length :: t ++ [(0 : Byte)]))
          (p + (BitVec.ofNat 8 t.length :: t).length) (encodeTokens ts ++ [(0 : Byte)]) =
          put qName p (.ofNat 8 t.length :: t ++ (encodeTokens ts ++ [(0 : Byte)])) :=
        put_put (by omega) (by simp)
      rw [if_neg hnil, ← hover, List.length_cons]

/-! ## Hostnames -/

/-- A label of a hostname, without a NUL or a dot in it. -/
structure HostLabel extends Label where
  ne_zero : ∀ b ∈ octets, b ≠ 0#8
  ne_dot : ∀ b ∈ octets, b ≠ 46#8

/-- The labels with dots between them. -/
def hostname (labels : List HostLabel) : List Byte := dotted (labels.map HostLabel.toLabel)

/-- The labels as octets of a name. -/
def encodeLabels (labels : List HostLabel) : List Byte :=
  (labels.map HostLabel.toLabel).flatMap Label.encode

variable {l : HostLabel} {ls : List HostLabel}

theorem hostname_cons (l : HostLabel) (ls : List HostLabel) :
    hostname (l :: ls) = l.octets ++ if ls = [] then [] else 46#8 :: hostname ls := by
  rw [hostname, List.map_cons, dotted_cons]
  simp only [List.map_eq_nil_iff]
  rfl

theorem encodeLabels_cons (l : HostLabel) (ls : List HostLabel) :
    encodeLabels (l :: ls) = l.toLabel.encode ++ encodeLabels ls := by
  rw [encodeLabels, List.map_cons, List.flatMap_cons]
  rfl

/-- A length octet for each dot, and one more. -/
theorem length_encodeLabels (l : HostLabel) (ls : List HostLabel) :
    (encodeLabels (l :: ls)).length = (hostname (l :: ls)).length + 1 := by
  induction ls generalizing l with
  | nil => simp [hostname_cons, encodeLabels, Label.encode]
  | cons m ls ih =>
    rw [encodeLabels_cons, List.length_append, ih, hostname_cons l,
      if_neg (List.cons_ne_nil m ls)]
    simp only [Label.encode, List.length_cons, List.length_append]
    omega

theorem hostLabels_hostname (l : HostLabel) (ls : List HostLabel) :
    hostLabels (hostname (l :: ls)) = (l :: ls).map (·.octets) := by
  have hsplit : (hostname (l :: ls)).splitOn 46#8 = (l :: ls).map (·.octets) := by
    rw [hostname, dotted, List.map_map]
    refine List.splitOn_intercalate 46#8 (fun t ht hdot => ?_) (List.cons_ne_nil _ _)
    obtain ⟨m, -, rfl⟩ := List.mem_map.mp ht
    exact m.ne_dot _ hdot rfl
  rw [hostLabels, hsplit, List.filter_eq_self]
  intro t ht
  obtain ⟨m, -, rfl⟩ := List.mem_map.mp ht
  simpa using m.ne_nil

theorem encodeTokens_octets (ls : List HostLabel) :
    encodeTokens (ls.map (·.octets)) = encodeLabels ls := by
  rw [encodeTokens, encodeLabels, List.flatMap_map, List.flatMap_map]
  rfl

/-- The loop writes the labels of a hostname and a zero octet. -/
theorem tokenLoop_dotted {qName : List Byte} {p : Nat} (l : HostLabel) (ls : List HostLabel)
    (hfit : p + (encodeLabels (l :: ls) ++ [0]).length ≤ qName.length) :
    Returns (fun n => tokenLoop n qName p (hostname (l :: ls)))
      (put qName p (encodeLabels (l :: ls) ++ [0])) := by
  have h : Returns (fun n => tokenLoop n qName p (hostname (l :: ls))) _ :=
    tokenLoop_labels (hostLabels_hostname l ls) (by rwa [encodeTokens_octets])
  rwa [if_neg (by simp), encodeTokens_octets] at h

/-! ## The request -/

/-- The question that is built for the labels. -/
def bodyOf (l : HostLabel) (ls : List HostLabel) : DnsBody where
  length := (hostname (l :: ls)).length + 2
  qType := htons 1
  qClass := htons 1
  qName := some (encodeLabels (l :: ls) ++ [0])

/-- `dnsCreateBody` fills the block, whatever was in it. -/
theorem dnsCreateBody_hostname (body : DnsBody) (l : HostLabel) (ls : List HostLabel)
    (hint : (hostname (l :: ls)).length + 2 < 2 ^ 31) (old : Nat → Byte) :
    Returns (fun n => dnsCreateBody n (some body) (hostname (l :: ls)) (some old))
      (0, some (bodyOf l ls)) := by
  let block := (List.range ((hostname (l :: ls)).length + 2)).map old
  have hlen : (encodeLabels (l :: ls) ++ [0]).length = block.length := by
    rw [List.length_append, length_encodeLabels, List.length_map, List.length_range,
      List.length_singleton]
  obtain ⟨n, hn⟩ := tokenLoop_dotted l ls (show 0 + _ ≤ block.length by omega)
  have hcast : (BitVec.ofNat 32 ((hostname (l :: ls)).length + 2)).toInt =
      ((hostname (l :: ls)).length + 2 : Int) := by
    have hnat : (BitVec.ofNat 32 ((hostname (l :: ls)).length + 2)).toNat =
        (hostname (l :: ls)).length + 2 := by
      rw [BitVec.toNat_ofNat, Nat.mod_eq_of_lt (by omega)]
    rw [BitVec.toInt_eq_toNat_of_lt (by omega), hnat]
    rfl
  refine ⟨n, ?_⟩
  simp only at hn
  rw [put_zero hlen] at hn
  simp only [dnsCreateBody]
  rw [show tokenLoop n _ 0 _ = _ from hn, Run.ret_bind, hcast]
  rfl

theorem DnsBody.read_eq {b : DnsBody} {qName : List Byte} (hq : b.qName = some qName)
    (hl : b.length = qName.length) : b.read = .ret qName := by
  rw [DnsBody.read, hq, hl]
  simp

theorem length_qName (l : HostLabel) (ls : List HostLabel) :
    (encodeLabels (l :: ls) ++ [0]).length = (hostname (l :: ls)).length + 2 := by
  rw [List.length_append, length_encodeLabels, List.length_singleton]

/-- Each part of a block of zeros is stored right behind the parts before it, if there is room. -/
theorem store_part {n p : Nat} {xs ys : List Byte} (hp : xs.length = p) (hle : p ≤ n) :
    store (put (List.replicate n 0) 0 xs) p ys =
      if p + ys.length ≤ n then .ret (put (List.replicate n 0) 0 (xs ++ ys)) else .fault := by
  have hroom : (put (List.replicate n (0 : Byte)) 0 xs).length = n := by
    rw [length_put (by rw [List.length_replicate]; omega), List.length_replicate]
  have happ : put (put (List.replicate n 0) 0 xs) (0 + xs.length) ys =
      put (List.replicate n 0) 0 (xs ++ ys) := put_append (Nat.zero_le _)
  rw [store, hroom, ← happ, Nat.zero_add, hp]

/-- What `dnsMergeRequest` copies into a request with room for it. -/
def requestOf (header : DnsHeader) (body : DnsBody) (qName : List Byte) (n : Nat) : List Byte :=
  put (List.replicate n 0) 0 (header.bytes ++ qName ++ bytes16 body.qType ++ bytes16 body.qClass)

/-- `dnsMergeRequest` stores the header and the question one behind the other. -/
theorem dnsMergeRequest_eq (header : DnsHeader) {body : DnsBody} {request qName : List Byte}
    (hpos : 1 ≤ request.length) (hread : body.read = .ret qName)
    (hl : body.length = qName.length) :
    dnsMergeRequest (some header) (some body) (some request) request.length =
      if 12 + qName.length + 4 ≤ request.length then
        .ret (12 + body.length + 4, some (requestOf header body qName request.length))
      else .fault := by
  have hclear : store request 0 (List.replicate request.length 0) =
      .ret (put (List.replicate request.length 0) 0 []) := by
    rw [store_of_le (by simp), put_zero (by simp)]
    rfl
  simp only [dnsMergeRequest, if_neg (Nat.not_lt.mpr hpos), hread, hl, Int.toNat_natCast,
    Run.ret_bind, hclear]
  have hheader : store (put (List.replicate request.length 0) 0 []) 0 header.bytes = _ :=
    store_part rfl (Nat.zero_le _)
  rw [hheader, header.length_bytes]
  by_cases h0 : 0 + 12 ≤ request.length
  swap
  · rw [if_neg h0, if_neg (by omega)]
    rfl
  rw [if_pos h0, Run.ret_bind, List.nil_append, store_part header.length_bytes (by omega)]
  by_cases h1 : 12 + qName.length ≤ request.length
  swap
  · rw [if_neg h1, if_neg (by omega)]
    rfl
  rw [if_pos h1, Run.ret_bind, store_part (by simp) h1, length_bytes16]
  by_cases h2 : 12 + qName.length + 2 ≤ request.length
  swap
  · rw [if_neg h2, if_neg (by omega)]
    rfl
  rw [if_pos h2, Run.ret_bind, store_part (by simp [Nat.add_assoc]) h2, length_bytes16]
  by_cases h3 : 12 + qName.length + 2 + 2 ≤ request.length
  · rw [if_pos h3, if_pos (by omega), Run.ret_bind, requestOf]
    congr 2
  · rw [if_neg h3, if_neg (by omega)]
    rfl

/-- The request holds the question behind the header. -/
theorem at_requestOf (header : DnsHeader) (body : DnsBody) (qName : List Byte) (n : Nat) :
    At (requestOf header body qName n) 12
      (qName ++ (bytes16 body.qType ++ bytes16 body.qClass)) := by
  have h : At (requestOf header body qName n) 0
      (header.bytes ++ qName ++ bytes16 body.qType ++ bytes16 body.qClass) := at_put (Nat.zero_le _)
  rw [List.append_assoc, List.append_assoc] at h
  exact h.right

/-- `dnsMergeRequest` puts such a question behind the header. -/
theorem dnsMergeRequest_hostname (header : DnsHeader) (l : HostLabel) (ls : List HostLabel)
    {request : List Byte} (hfit : 12 + (hostname (l :: ls)).length + 6 ≤ request.length) :
    ∃ request', dnsMergeRequest (some header) (some (bodyOf l ls)) (some request) request.length =
        .ret (12 + (bodyOf l ls).length + 4, some request') ∧
      At request' 12 (encodeLabels (l :: ls) ++ [0] ++ (encode16 1 ++ encode16 1)) := by
  have hname := length_qName l ls
  have hlen : (bodyOf l ls).length = (encodeLabels (l :: ls) ++ [0]).length := by
    rw [hname]
    rfl
  have hmerge := dnsMergeRequest_eq header (show 1 ≤ request.length by omega)
    (DnsBody.read_eq rfl hlen) hlen
  rw [if_pos (by omega)] at hmerge
  refine ⟨_, hmerge, ?_⟩
  rw [← bytes16_htons]
  exact at_requestOf header (bodyOf l ls) _ _

/-- **Round trip.** A hostname of valid labels is written as exactly `length = strlen + 2` octets,
copied into the request, read back by `dnsParseName` as it was, and skipped up to the end of the
request; its size is an `int`. -/
theorem request_roundTrip (body : DnsBody) (header : DnsHeader) (l : HostLabel)
    (ls : List HostLabel) (old : Nat → Byte) (out : Out) {request : List Byte}
    (hfit : 12 + (hostname (l :: ls)).length + 6 ≤ request.length)
    (hint : 12 + (hostname (l :: ls)).length + 6 < 2 ^ 31) :
    ∃ body' request' qName,
      Returns (fun n => dnsCreateBody n (some body) (hostname (l :: ls)) (some old))
        (0, some body') ∧
      body'.qName = some qName ∧ qName = encodeLabels (l :: ls) ++ [0] ∧
      body'.length = qName.length ∧ qName.length = (hostname (l :: ls)).length + 2 ∧
      dnsMergeRequest (some header) (some body') (some request) request.length =
        .ret (12 + body'.length + 4, some request') ∧
      Returns (fun n => dnsParseName n request' 12 out 0)
        (out.write 0 (hostname (l :: ls)), (hostname (l :: ls)).length) ∧
      Returns (fun n => skipQuestions n request' 12 1) (12 + qName.length + 4) := by
  obtain ⟨request', hmerge, hat⟩ := dnsMergeRequest_hostname header l ls hfit
  have hname := length_qName l ls
  refine ⟨bodyOf l ls, request', _, dnsCreateBody_hostname body l ls (by omega) old, rfl, rfl, ?_,
    hname, hmerge, ?_, ?_⟩
  · rw [hname]; rfl
  · have h := (dnsParseName_returns_iff (Nat.zero_le out.top)).mpr
      ⟨_, spells_of_at hat.left, rfl⟩
    rwa [Nat.zero_add] at h
  · -- The question of the request is the one that the reader of responses expects.
    let q : Question := ⟨(l :: ls).map HostLabel.toLabel, 1, 1⟩
    have hq : At request' 12 ([q].flatMap Question.encode) := by
      rw [List.flatMap_singleton]
      exact hat
    have h : Returns (fun n => skipQuestions n request' 12 1)
        (12 + ([q].flatMap Question.encode).length) := skipQuestions_of_at hq (Nat.le_refl 1)
    rw [List.flatMap_singleton, length_encode_question, ← Nat.add_assoc] at h
    exact h

/-- The hostname `a.bc`. -/
theorem request_roundTrip_sample :
    let l : HostLabel := ⟨⟨[97], by decide, by decide⟩, by decide, by decide⟩
    let m : HostLabel := ⟨⟨[98, 99], by decide, by decide⟩, by decide, by decide⟩
    let request : List Byte := List.replicate 30 7
    ∃ body' request' qName,
      Returns (fun n => dnsCreateBody n (some {}) (hostname [l, m]) (some fun _ => 5))
        (0, some body') ∧
      body'.qName = some qName ∧ qName = encodeLabels [l, m] ++ [0] ∧
      body'.length = qName.length ∧ qName.length = (hostname [l, m]).length + 2 ∧
      dnsMergeRequest (some ⟨1, 1, 256, 0, 0, 0⟩) (some body') (some request) request.length =
        .ret (12 + body'.length + 4, some request') ∧
      Returns (fun n => dnsParseName n request' 12 ⟨fun _ => 9, 0⟩ 0)
        (Out.write ⟨fun _ => 9, 0⟩ 0 (hostname [l, m]), (hostname [l, m]).length) ∧
      Returns (fun n => skipQuestions n request' 12 1) (12 + qName.length + 4) :=
  request_roundTrip _ _ _ _ _ _ (by decide) (by decide)

end Dns
end LinuxBase
