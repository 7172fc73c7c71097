import LinuxBase.HttpConnect.Basic

/-!
# The body in the file

`saveHttp` allocates as many octets as the body has, and `strncpy` fills them: there is no room for a
NUL, so `fputs` reads on behind the block. Without a `\r\n\r\n` in the response, it copies from the
address 4. So `saveHttp` leaves the defined behaviour for every response (`saveHttp_fault`).
-/

namespace LinuxBase
namespace HttpConnect

open CString Layout

/-- The file has the octets behind the first `\r\n\r\n`; without one, all accesses are valid. -/
def SavesBody (r : Response) (fails : Bool) (junk : Nat → Byte) (opens : Bool) : Prop :=
  saveHttp r fails junk opens ≠ .fault ∧
    ∀ i, find (octets "\r\n\r\n") (text r.block) = some i →
      saveHttp r fails junk opens = .ret ((text r.block).drop (i + 4))

variable {r : Response} {bs xs needle : List Byte} {i n : Nat}

/-- The needle is inside the string. -/
theorem find_le (h : find needle xs = some i) : i + needle.length ≤ xs.length := by
  induction xs generalizing i with
  | nil => cases h
  | cons x xs ih =>
    rw [find] at h
    split at h
    · rename_i hpre
      cases h
      rw [Nat.zero_add]
      exact (List.isPrefixOf_iff_prefix.mp hpre).length_le
    · obtain ⟨j, hj, rfl⟩ := Option.map_eq_some_iff.mp h
      have := ih hj
      rw [List.length_cons]
      omega

/-- `fputs` of a block that `strncpy` filled with the octets of a string. -/
theorem fputs_strncpy {dest src : List Byte} (hdest : dest.length = n) (hsrc : 0#8 ∉ src.take n)
    (opens : Bool) :
    (strncpy dest src n >>= fun string => if opens then fputs string else .fault) = .fault := by
  rcases readUpTo_cases src n with hfault | ⟨bs, hbs, hzero, hlen⟩
  · rw [strncpy, hfault]
    rfl
  · have hfull := hlen hsrc
    have hroom : 0 + bs.length ≤ dest.length := by omega
    have hcopy : strncpy dest src n = .ret bs := by
      rw [strncpy, hbs, Run.ret_bind, hfull, Nat.sub_self, List.replicate_zero, List.append_nil,
        storeAt, if_pos hroom, put_zero (hfull.trans hdest.symm)]
    rw [hcopy, Run.ret_bind]
    cases opens with
    | false => rfl
    | true => exact if_neg hzero

theorem malloc_eq_some {fails : Bool} {junk : Nat → Byte} {string : List Byte}
    (h : malloc fails junk n = some string) : n < 9223372036854775808 ∧ string.length = n := by
  unfold malloc at h
  split at h
  · cases h
  · rename_i hn
    cases h
    refine ⟨by omega, ?_⟩
    rw [List.length_map, List.length_range]

/-- An `int` is not greater than the number that it is made of. -/
theorem toInt_ofNat_le (n : Nat) :
    (BitVec.ofNat 32 n).toInt ≤ n ∧ -2147483648 ≤ (BitVec.ofNat 32 n).toInt := by
  rw [BitVec.toInt_eq_toNat_cond, BitVec.toNat_ofNat]
  have := Nat.mod_le n (2 ^ 32)
  have := Nat.mod_lt n (show 2 ^ 32 > 0 by decide)
  split <;> omega

/-- There is no NUL in the octets that are copied from behind `\r\n\r\n`. -/
theorem zero_not_mem_body (hends : Ends bs) (hn : i + n ≤ (text bs).length) :
    0#8 ∉ (bs.drop i).take n := by
  obtain ⟨xs, rest, rfl, hxs⟩ := hends.split
  rw [text_append_zero hxs] at hn
  rw [List.drop_append_of_le_length (by omega), List.take_append_of_le_length
    (by rw [List.length_drop]; omega)]
  exact fun hmem => hxs (List.mem_of_mem_drop (List.mem_of_mem_take hmem))

/-- **The body in the file.** `saveHttp` leaves the defined behaviour for every response. -/
theorem saveHttp_fault (r : Response) (fails : Bool) (junk : Nat → Byte) (opens : Bool) :
    saveHttp r fails junk opens = .fault := by
  obtain ⟨hbase, hend⟩ := r.mapped
  have htext := r.ends.text_lt
  obtain ⟨hlen, hlow⟩ := toInt_ofNat_le (text r.block).length
  unfold saveHttp
  simp only [strlen_of_ends r.ends, Run.ret_bind]
  generalize (BitVec.ofNat 32 (text r.block).length).toInt = len at hlen hlow ⊢
  cases hfind : find (octets "\r\n\r\n") (text r.block) with
  | none =>
    -- The copy is from the address 4, where nothing can be read.
    simp only
    cases hmalloc : malloc fails junk (sizeT (len - (0 + 4 - r.base))) with
    | none => rfl
    | some string =>
      have hread : r.readable (0 + 4) = [] := if_neg (by omega)
      rw [Run.ofOption_some, Run.ret_bind, hread]
      exact fputs_strncpy (malloc_eq_some hmalloc).2 (by simp) opens
  | some i =>
    simp only
    cases hmalloc : malloc fails junk (sizeT (len - (r.base + i + 4 - r.base))) with
    | none => rfl
    | some string =>
      obtain ⟨hsize, hstring⟩ := malloc_eq_some hmalloc
      have hi : i + 4 ≤ (text r.block).length := find_le hfind
      have hn := sizeT_of_lt hsize (by omega) (by omega)
      have hread : r.readable (r.base + i + 4) = r.block.drop (i + 4) := by
        rw [Response.readable, if_pos (by omega)]
        congr 1
        omega
      rw [Run.ofOption_some, Run.ret_bind, hread]
      exact fputs_strncpy hstring (zero_not_mem_body r.ends (by omega)) opens

/-- **Never the body.** -/
theorem not_savesBody (r : Response) (fails : Bool) (junk : Nat → Byte) (opens : Bool) :
    ¬ SavesBody r fails junk opens :=
  fun h => h.1 (saveHttp_fault r fails junk opens)

/-- The body of one octet, in a block with no NUL behind it. -/
theorem not_savesBody_one :
    ¬ SavesBody { base := 4096, block := octets "a\r\n\r\nb" ++ [0#8], ends := by decide,
                  mapped := by decide } false (fun _ => 0xff) true := by
  rintro ⟨hdefined, -⟩
  exact hdefined (by decide)

end HttpConnect
end LinuxBase
