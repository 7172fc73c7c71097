import LinuxBase.Mysql

/-!
# Sending an image and reading one (`mysql.c`)

`main` with `OPERATOR` defined as `WRITE` and as `READ`. The first one sends the octets of a file as the
`y_img` of a new row of `Y_user`; the second one writes what it reads for the name to the file
`copy.png`. What both leave behind is the `World`.

* The server is not part of the program. What it does between the runs is open: the rows that the
  `select` of the second run has are a parameter, in any number and order. Their images are not `NULL`,
  as in `LinuxBase.Mysql`.
* `fread` and `fwrite` stop at an error behind some octets, or have none. `FILE` is not closed, and is
  written at the end of the process.
* `selectUserTable` prints the table; nothing that it returns is used.

What is read has the length of the last row that is fetched, and the octets of the first one
(`main_read_eq`). So an image that is sent comes back in `copy.png` if and only if it fits into the
buffer, the first row begins with it, and the last one has its length (`copiesBack_iff`).
-/

namespace LinuxBase
namespace Mysql

open CString Layout

/-! ## Files -/

/-- `BUFFER_LENGTH`. -/
def bufferLength : Nat := 64 * 1024

/-- The octets up to an error. -/
def upTo (error : Option Nat) (bs : List Byte) : List Byte :=
  match error with
  | none => bs
  | some k => bs.take k

/-- `imgRead` of a file; `file` is `none` if it is not opened, and `filename` is false for `NULL`. -/
def imgRead (filename : Bool) (file : Option (List Byte)) (error : Option Nat)
    (buffer : Option (List Byte)) : Run (Int × Option (List Byte)) :=
  match buffer with
  | none => .ret (1, none)
  | some buf =>
    if filename = false then .ret (1, buffer)
    else
      match file with
      | none => .ret (-1, buffer)
      | some octets => do
        let length := (BitVec.ofNat 32 octets.length).toInt
        -- `fread` takes the length as a `size_t`.
        let bs := upTo error (octets.take (BitVec.ofInt 64 length).toNat)
        let buf ← storeAt buf 0 bs
        let readSize := (BitVec.ofNat 32 bs.length).toInt
        if readSize ≠ length then .ret (-2, some buf) else .ret (readSize, some buf)

/-- `imgWrite`: what it returns, and what the file has behind it if it is opened. -/
def imgWrite (filename : Bool) (buffer : Option (List Byte)) (length : Int) (opens : Bool)
    (error : Option Nat) : Run (Int × Option (List Byte)) :=
  match buffer with
  | none => .ret (1, none)
  | some buf =>
    if filename = false ∨ length < 1 then .ret (1, none)
    else if opens = false then .ret (-1, none)
    else if buf.length < length.toNat then .fault
    else
      let bs := upTo error (buf.take length.toNat)
      let writeSize := (BitVec.ofNat 32 bs.length).toInt
      if writeSize ≠ length then .ret (-2, some bs) else .ret (0, some bs)

/-! ## The program -/

/-- What the calls of the library for the `insert` return. -/
structure Insert where
  init : Bool := true
  prepare : Int := 0
  bindParam : Int := 0
  sendLongData : Int := 0
  execute : Int := 0
  close : Int := 0

/-- The name in both statements. -/
def liQiYuan : List Byte := [0xE6, 0x9D, 0x8E, 0xE5, 0xA5, 0x87, 0xE7, 0xBC, 0x98]

/-- `mysqlWriteImg`: what it returns, and the octets of the parameter if the `insert` is executed. -/
def mysqlWriteImg (db : Bool) (buffer : Option (List Byte)) (length : Int) (insert : Insert) :
    Run (Int × Option (List Byte)) :=
  match buffer with
  | none => .ret (1, none)
  | some buf =>
    if db = false ∨ length < 1 then .ret (1, none)
    else if insert.init = false then .ret (-1, none)
    else if insert.prepare ≠ 0 then .ret (-2, none)
    else if insert.bindParam ≠ 0 then .ret (-3, none)
    else if buf.length < length.toNat then .fault
    else if insert.sendLongData ≠ 0 then .ret (-4, none)
    else if insert.execute ≠ 0 then .ret (-5, none)
    else
      let octets := some (buf.take length.toNat)
      if insert.close ≠ 0 then .ret (-6, octets) else .ret (0, octets)

/-- The image file and `copy.png`, if they are there, and the image that was sent. -/
structure World where
  image : Option (List Byte)
  copy : Option (List Byte) := none
  sent : Option (List Byte) := none

/-- What the system and the server give to a run. -/
structure Library where
  init : Bool := true
  connect : Bool := true
  insert : Insert := {}
  select : Server := { rows := [] }
  fread : Option Nat := none
  copyOpens : Bool := true
  fwrite : Option Nat := none
  buffer : Nat → Byte

inductive Operator where
  | write
  | read
  deriving DecidableEq

/-- `main`: the status that the process exits with, and the world behind it. -/
def main (operator : Operator) (lib : Library) (world : World) : Run (Int × World) :=
  if lib.init = false then .ret (1, world)
  else if lib.connect = false then .ret (1, world)
  else do
    let buffer := (List.range bufferLength).map lib.buffer
    match operator with
    | .write => do
      let (length, buffer) ← imgRead true world.image lib.fread (some buffer)
      if length < 0 then .ret (1, world)
      else do
        let (_, sent) ← mysqlWriteImg true buffer length lib.insert
        .ret (0, { world with sent := sent <|> world.sent })
    | .read => do
      let (length, buffer) ← mysqlReadImg true (some buffer) (liQiYuan ++ [0]) lib.select
      if length < 0 then .ret (1, world)
      else do
        let (_, copy) ← imgWrite true buffer length lib.copyOpens lib.fwrite
        .ret (0, { world with copy := copy <|> world.copy })

/-- No call of the run fails. -/
structure Library.Succeeds (lib : Library) : Prop where
  init : lib.init = true
  connect : lib.connect = true
  insert : lib.insert = {}
  select : lib.select.Ready
  fread : lib.fread = none
  copyOpens : lib.copyOpens = true
  fwrite : lib.fwrite = none

variable {lib : Library} {world world' : World} {img buffer buffer' octets : List Byte}
  {rows : List Row} {column n : Nat} {status : Int}

/-! ## Files and rows -/

theorem imgRead_eq (hlen : octets.length ≤ intMax) (hfit : octets.length ≤ buffer.length) :
    imgRead true (some octets) none (some buffer) =
      .ret (octets.length, some (put buffer 0 octets)) := by
  have hint := toInt_of_le hlen
  have hcount : (BitVec.ofInt 64 (octets.length : Int)).toNat = octets.length := by
    rw [intMax] at hlen
    rw [BitVec.toNat_ofInt]
    omega
  have hstore : storeAt buffer 0 octets = .ret (put buffer 0 octets) := storeAt_of_le (by omega)
  simp only [imgRead, Bool.true_eq_false, if_false, hint, hcount, List.take_length, upTo, hstore,
    Run.ret_bind, ne_eq, not_true_eq_false]

theorem imgWrite_eq (hpos : 1 ≤ n) (hn : n ≤ intMax) :
    imgWrite true (some buffer) n true none =
      if n ≤ buffer.length then .ret (0, some (buffer.take n)) else .fault := by
  have hcond : ¬ (n : Int) < 1 := by omega
  by_cases hfit : n ≤ buffer.length
  · have hint : (BitVec.ofNat 32 (buffer.take n).length).toInt = n := by
      rw [List.length_take, Nat.min_eq_left hfit, toInt_of_le hn]
    have hroom : ¬ buffer.length < n := by omega
    simp only [imgWrite, Bool.true_eq_false, false_or, if_neg hcond, if_false, Int.toNat_natCast,
      upTo, hint, if_neg hroom, if_pos hfit, ne_eq, not_true_eq_false]
  · have hroom : buffer.length < n := by omega
    simp only [imgWrite, Bool.true_eq_false, false_or, if_neg hcond, if_false, Int.toNat_natCast,
      if_pos hroom, if_neg hfit]

theorem mysqlWriteImg_eq (hpos : 1 ≤ n) (hfit : n ≤ buffer.length) :
    mysqlWriteImg true (some buffer) n {} = .ret (0, some (buffer.take n)) := by
  have hcond : ¬ (n : Int) < 1 := by omega
  have hroom : ¬ buffer.length < n := by omega
  simp only [mysqlWriteImg, Bool.true_eq_false, false_or, if_neg hcond, Int.toNat_natCast,
    if_neg hroom]
  rfl

/-- The rows behind the first error have no effect. -/
theorem rowLoop_takeWhile :
    rowLoop (rows.takeWhile Row.fetched) column n buffer = rowLoop rows column n buffer := by
  induction rows generalizing column n buffer with
  | nil => rfl
  | cons row rows ih =>
    cases hrow : row.fetched with
    | false =>
      rw [List.takeWhile_cons_of_neg (by simp [hrow]), rowLoop_not_fetched hrow]
      rfl
    | true =>
      rw [List.takeWhile_cons_of_pos hrow]
      simp only [rowLoop, ih]

/-- A loop that ends has room for the octets of the first column. -/
theorem fetchLoop_room {blob : List Byte} {left start : Nat}
    (h : fetchLoop blob 0 left start buffer = .ret buffer') (hleft : start + left = blob.length) :
    left = 0 ∨ start + left ≤ buffer.length := by
  induction left generalizing start buffer with
  | zero => exact .inl rfl
  | succ left ih =>
    obtain ⟨buf, hfetch, hnext⟩ := Run.bind_eq_ret.mp h
    split at hnext
    · have hcolumn : 0 < fieldCount := Nat.one_pos
      rw [fetchColumn, if_pos hcolumn] at hfetch
      obtain ⟨hroom, rfl⟩ := storeAt_eq_ret hfetch
      have hone : ((blob.drop start).take 1).length = 1 := by
        rw [List.length_take, List.length_drop]
        omega
      rw [hone] at hroom
      have hrest := ih hnext (by omega)
      rw [length_put (by omega)] at hrest
      omega
    · cases hnext

/-- The number of rows of a loop that ends is an `int`, and so are the lengths of the blobs. -/
theorem rowLoop_bounds {r : Nat × List Byte} (hrows : ∀ row ∈ rows, row.fetched = true)
    (h : rowLoop rows column n buffer = .ret r) (hcolumn : column ≤ intMax) :
    column + rows.length ≤ intMax ∧ ∀ row ∈ rows, row.blob.length ≤ intMax := by
  induction rows generalizing column n buffer with
  | nil => exact ⟨hcolumn, fun row hrow => nomatch hrow⟩
  | cons row rows ih =>
    have hrow := hrows row List.mem_cons_self
    have hok : ¬ (row.ret ≠ 0 ∧ row.ret ≠ mysqlDataTruncated) := by
      rw [Row.fetched, decide_eq_true_eq] at hrow
      rintro ⟨h0, h1⟩
      exact hrow.elim h0 h1
    rw [rowLoop, if_neg hok] at h
    obtain ⟨buf, hloop, hnext⟩ := Run.bind_eq_ret.mp h
    split at hnext
    · obtain ⟨hcount, hint⟩ := ih (fun row hmem => hrows row (List.mem_cons_of_mem _ hmem)) hnext
        (by omega)
      have hblob := fetchLoop_le hloop (Nat.zero_le _)
      rw [List.length_cons]
      refine ⟨by omega, fun row' hmem => ?_⟩
      obtain rfl | hmem := List.mem_cons.mp hmem
      · omega
      · exact hint row' hmem
    · cases hnext

/-- The loop over the rows of which `first` is the first one. -/
theorem rowLoop_first {first : Row} {r : Nat × List Byte}
    (hfirst : first ∈ (rows.takeWhile Row.fetched).head?) (h : rowLoop rows 0 0 buffer = .ret r) :
    first.blob.length ≤ buffer.length ∧ ∃ last ∈ (rows.takeWhile Row.fetched).getLast?,
      r = (last.blob.length, put buffer 0 first.blob) := by
  obtain ⟨rest, hall⟩ := List.head?_eq_some_iff.mp hfirst
  obtain ⟨last, hlast⟩ : ∃ last, (first :: rest).getLast? = some last :=
    ⟨_, List.getLast?_eq_getLast_of_ne_nil (List.cons_ne_nil _ _)⟩
  constructor
  · have hfetched : first.fetched = true :=
      List.mem_takeWhile_imp (show first ∈ rows.takeWhile Row.fetched by rw [hall]; simp)
    rw [← rowLoop_takeWhile, hall] at h
    obtain ⟨buf, hloop, -⟩ := rowLoop_cons hfetched h
    have hroom : first.blob.length = 0 ∨ 0 + first.blob.length ≤ buffer.length :=
      fetchLoop_room hloop (Nat.zero_add _)
    omega
  · refine ⟨last, hall ▸ hlast, ?_⟩
    rw [rowLoop_zero hall h, lastLength, hlast]
    rfl

/-! ## The runs -/

/-- The rows that a run fetches. -/
def Library.fetched (lib : Library) : List Row := lib.select.rows.takeWhile Row.fetched

/-- The numbers of a loop over the rows are of type `int`. -/
structure IntSized (rows : List Row) : Prop where
  count : rows.length ≤ intMax
  lengths : ∀ row ∈ rows, row.blob.length ≤ intMax

theorem length_buffer (lib : Library) : ((List.range bufferLength).map lib.buffer).length =
    bufferLength := by
  rw [List.length_map, List.length_range]

/-- A run that reads leaves the octets of the first row, as many as the last one has. -/
theorem main_read_eq (hs : lib.Succeeds) (h : main .read lib world = .ret (status, world')) :
    status = 0 ∧ IntSized lib.fetched ∧ (lib.fetched = [] ∧ world' = world ∨
      ∃ first ∈ lib.fetched.head?, ∃ last ∈ lib.fetched.getLast?,
        first.blob.length ≤ bufferLength ∧ last.blob.length ≤ bufferLength ∧
        world' = { world with
          copy := if last.blob = [] then world.copy else some
            ((put ((List.range bufferLength).map lib.buffer) 0 first.blob).take last.blob.length) }) := by
  unfold main at h
  rw [if_neg (by simp [hs.init]), if_neg (by simp [hs.connect])] at h
  have hlen := length_buffer lib
  generalize (List.range bufferLength).map lib.buffer = buffer at h hlen ⊢
  obtain ⟨⟨length, buf⟩, hread, h⟩ := Run.bind_eq_ret.mp h
  obtain ⟨total, buffer', hloop, hr⟩ := mysqlReadImg_eq_ret hs.select hread
  cases hr
  have hle := rowLoop_le hloop (Nat.zero_le _)
  have hneg : ¬ (total : Int) < 0 := by omega
  simp only [toInt_of_le hle, if_neg hneg] at h
  obtain ⟨⟨ret, copy⟩, hwrite, h⟩ := Run.bind_eq_ret.mp h
  cases h
  have hfetched : rowLoop lib.fetched 0 0 buffer = .ret (total, buffer') :=
    rowLoop_takeWhile.trans hloop
  obtain ⟨hcount, hlengths⟩ := rowLoop_bounds (fun _ => List.mem_takeWhile_imp) hfetched
    (Nat.zero_le _)
  rw [Nat.zero_add] at hcount
  refine ⟨rfl, ⟨hcount, hlengths⟩, ?_⟩
  rw [hs.copyOpens, hs.fwrite] at hwrite
  cases hrows : lib.fetched with
  | nil =>
    rw [hrows] at hfetched
    cases hfetched
    cases hwrite
    exact .inl ⟨rfl, rfl⟩
  | cons first rest =>
    have hfirst : first ∈ lib.fetched.head? := by
      rw [hrows]
      rfl
    obtain ⟨hfit, last, hlast, hr⟩ := rowLoop_first hfirst hloop
    cases hr
    refine .inr ⟨first, rfl, last, hrows ▸ hlast, by omega, ?_⟩
    by_cases hlast0 : last.blob = []
    · rw [hlast0] at hwrite ⊢
      cases hwrite
      exact ⟨Nat.zero_le _, rfl⟩
    · have hpos : 1 ≤ last.blob.length := List.length_pos_iff.mpr hlast0
      have hput : (put buffer 0 first.blob).length = bufferLength := by
        rw [length_put (by omega), hlen]
      rw [imgWrite_eq hpos hle, hput] at hwrite
      split at hwrite
      · cases hwrite
        exact ⟨‹_›, by rw [if_neg hlast0]; rfl⟩
      · cases hwrite

/-- Of the server, only the rows that are fetched count. -/
theorem mysqlReadImg_takeWhile {db : Bool} {buf : Option (List Byte)} {username : List Byte}
    {server : Server} :
    mysqlReadImg db buf username { server with rows := server.rows.takeWhile Row.fetched } =
      mysqlReadImg db buf username server := by
  cases buf with
  | none => rfl
  | some buf => simp only [mysqlReadImg, rowLoop_takeWhile]

/-- A run that reads returns if the first row and the last one fit into the buffer. -/
theorem main_read_returns (hs : lib.Succeeds) (hsize : IntSized lib.fetched)
    (hfirst : ∀ first ∈ lib.fetched.head?, first.blob.length ≤ bufferLength)
    (hlast : ∀ last ∈ lib.fetched.getLast?, last.blob.length ≤ bufferLength) :
    ∃ r, main .read lib world = .ret r := by
  unfold main
  rw [if_neg (by simp [hs.init]), if_neg (by simp [hs.connect])]
  have hlen := length_buffer lib
  generalize (List.range bufferLength).map lib.buffer = buffer at hlen ⊢
  have hready : Server.Ready { lib.select with rows := lib.fetched } := hs.select
  obtain ⟨⟨i, buf⟩, hread⟩ : ∃ r, mysqlReadImg true (some buffer) (liQiYuan ++ [0]) lib.select =
      .ret r := by
    rw [← mysqlReadImg_takeWhile]
    exact mysqlReadImg_returns hready (by decide) hsize.count hsize.lengths
      fun row hrow => hlen ▸ hfirst row hrow
  obtain ⟨total, buffer', hloop, hr⟩ := mysqlReadImg_eq_ret hs.select hread
  cases hr
  have hle := rowLoop_le hloop (Nat.zero_le _)
  have hneg : ¬ (total : Int) < 0 := by omega
  simp only [hread, Run.ret_bind, toInt_of_le hle, if_neg hneg, hs.copyOpens, hs.fwrite]
  obtain ⟨⟨ret, copy⟩, hwrite⟩ : ∃ r, imgWrite true (some buffer') total true none = .ret r := by
    by_cases hpos : 1 ≤ total
    swap
    · refine ⟨(1, none), ?_⟩
      have hshort : (total : Int) < 1 := by omega
      simp only [imgWrite, Bool.true_eq_false, false_or, if_pos hshort]
    cases hrows : lib.fetched with
    | nil =>
      have hfetched : rowLoop lib.fetched 0 0 buffer = .ret (total, buffer') :=
        rowLoop_takeWhile.trans hloop
      rw [hrows] at hfetched
      cases hfetched
      omega
    | cons first rest =>
      have hhead : first ∈ lib.fetched.head? := by
        rw [hrows]
        rfl
      obtain ⟨hfit, last, hlast', hr⟩ := rowLoop_first hhead hloop
      cases hr
      have hfits := hlast last hlast'
      refine ⟨_, (imgWrite_eq hpos hle).trans (if_pos ?_)⟩
      rw [length_put (by omega)]
      omega
  rw [hwrite]
  exact ⟨_, rfl⟩

/-- A run that writes sends the octets of the file. -/
theorem main_write_eq (hs : lib.Succeeds) (hpos : 1 ≤ img.length) (hfit : img.length ≤ bufferLength)
    (himage : world.image = some img) :
    main .write lib world = .ret (0, { world with sent := some img }) := by
  have hlen := length_buffer lib
  have hint : img.length ≤ intMax := hfit.trans (by decide)
  unfold main
  rw [if_neg (by simp [hs.init]), if_neg (by simp [hs.connect])]
  generalize (List.range bufferLength).map lib.buffer = buffer at hlen ⊢
  have hread : imgRead true (some img) none (some buffer) = _ := imgRead_eq hint (by omega)
  have hroom : img.length ≤ (put buffer 0 img).length := by
    rw [length_put (by omega)]
    omega
  have hneg : ¬ (img.length : Int) < 0 := by omega
  have htake : (put buffer 0 img).take img.length = img := by
    rw [put, List.take_zero, List.nil_append]
    exact List.take_left
  simp only [himage, hs.fread, hread, Run.ret_bind, if_neg hneg, hs.insert,
    mysqlWriteImg_eq hpos hroom, htake]
  rfl

/-! ## There and back -/

/-- The run that writes sends the image, and the run that reads, with these rows, leaves it in
`copy.png`; whatever the buffers hold. -/
def CopiesBack (rows : List Row) (img : List Byte) : Prop :=
  ∀ lib lib' : Library, lib.Succeeds → lib'.Succeeds → lib'.select.rows = rows →
    ∃ world world', main .write lib { image := some img } = .ret (0, world) ∧
      world.sent = some img ∧ main .read lib' world = .ret (0, world') ∧ world'.copy = some img

/-- The image fits into the buffer, the first row that is fetched begins with it, and the last one has
its length. -/
structure ReadsBack (rows : List Row) (img : List Byte) : Prop where
  pos : 1 ≤ img.length
  fits : img.length ≤ bufferLength
  first : ∃ first ∈ (rows.takeWhile Row.fetched).head?, first.blob.length ≤ bufferLength ∧
    img <+: first.blob
  last : ∃ last ∈ (rows.takeWhile Row.fetched).getLast?, last.blob.length = img.length
  size : IntSized (rows.takeWhile Row.fetched)

/-- Only what is written into the array can be relied on. -/
theorem prefix_put_iff {xs ys : List Byte} (hle : ys.length ≤ n) :
    (∀ junk : Nat → Byte, xs <+: put ((List.range n).map junk) 0 ys) ↔ xs <+: ys := by
  have hput : ∀ junk : Nat → Byte, put ((List.range n).map junk) 0 ys =
      ys ++ ((List.range n).map junk).drop ys.length := fun junk => by
    rw [put, List.take_zero, List.nil_append, Nat.zero_add]
  simp only [hput]
  constructor
  · intro h
    by_cases hlen : xs.length ≤ ys.length
    · exact List.prefix_of_prefix_length_le (h fun _ => 0) (List.prefix_append _ _) hlen
    -- Two arrays differ in the octet behind `ys`.
    have hget : ∀ b : Byte, xs[ys.length]? = some b := fun b => by
      obtain ⟨rest, hrest⟩ := h fun _ => b
      have hlt : ys.length < xs.length := by omega
      have hn : ys.length < n := by
        have hsum := congrArg List.length hrest
        simp only [List.length_append, List.length_drop, List.length_map, List.length_range] at hsum
        omega
      have hleft : (xs ++ rest)[ys.length]? = xs[ys.length]? := List.getElem?_append_left hlt
      rw [← hleft, hrest, List.getElem?_append_right (Nat.le_refl _), Nat.sub_self,
        List.getElem?_drop]
      simp [hn]
    cases (hget 0).symm.trans (hget 1)
  · exact fun h junk => h.trans (List.prefix_append _ _)

theorem succeeds_default (rows : List Row) (junk : Nat → Byte) :
    Library.Succeeds { select := { rows }, buffer := junk } :=
  ⟨rfl, rfl, rfl, by simp [Server.Ready], rfl, rfl, rfl⟩

/-- A run that writes does not touch the copy. -/
theorem main_write_copy (h : main .write lib world = .ret (status, world')) :
    world'.copy = world.copy := by
  unfold main at h
  by_cases hinit : lib.init = false
  · rw [if_pos hinit] at h
    cases h
    rfl
  by_cases hconnect : lib.connect = false
  · rw [if_neg hinit, if_pos hconnect] at h
    cases h
    rfl
  rw [if_neg hinit, if_neg hconnect] at h
  simp only at h
  obtain ⟨_, -, h⟩ := Run.bind_eq_ret.mp h
  split at h
  · cases h
    rfl
  · obtain ⟨_, -, h⟩ := Run.bind_eq_ret.mp h
    cases h
    rfl

/-- An image that is read back begins what the array of the run had in it. -/
theorem readsBack_of_copies (h : CopiesBack rows img) (junk : Nat → Byte) :
    1 ≤ img.length ∧ img.length ≤ bufferLength ∧ IntSized (rows.takeWhile Row.fetched) ∧
      (∃ last ∈ (rows.takeWhile Row.fetched).getLast?, last.blob.length = img.length) ∧
      ∃ first ∈ (rows.takeWhile Row.fetched).head?, first.blob.length ≤ bufferLength ∧
        img <+: put ((List.range bufferLength).map junk) 0 first.blob := by
  have hs := succeeds_default rows junk
  obtain ⟨world, world', hw, -, hr, hcopy⟩ := h _ _ (succeeds_default [] fun _ => 0) hs rfl
  have hnone : world.copy = none := main_write_copy hw
  have hlen := length_buffer { select := { rows }, buffer := junk }
  simp only at hlen
  obtain ⟨-, hsize, ⟨-, rfl⟩ | ⟨first, hfirst, last, hlast, hfit, hle, rfl⟩⟩ := main_read_eq hs hr
  · cases hnone.symm.trans hcopy
  have hlast0 : last.blob ≠ [] := by
    intro hnil
    simp only [if_pos hnil] at hcopy
    cases hnone.symm.trans hcopy
  simp only [if_neg hlast0, Option.some.injEq] at hcopy
  have hput : (put ((List.range bufferLength).map junk) 0 first.blob).length = bufferLength := by
    rw [length_put (by omega), hlen]
  have himg : img.length = last.blob.length := by
    rw [← hcopy, List.length_take, hput, Nat.min_eq_left hle]
  have hpos : 1 ≤ last.blob.length := List.length_pos_iff.mpr hlast0
  exact ⟨by omega, by omega, hsize, ⟨last, hlast, himg.symm⟩, first, hfirst, hfit,
    hcopy ▸ List.take_prefix _ _⟩

/-- **There and back.** Whatever was in the buffers, the octets of the image are sent, and the same
octets are read, if and only if there are some and they fit into the buffer, and of the rows the first
one begins with them, and the last one has their number. -/
theorem copiesBack_iff (rows : List Row) (img : List Byte) :
    CopiesBack rows img ↔ ReadsBack rows img := by
  constructor
  · intro h
    obtain ⟨hpos, hfit, hsize, hlast, first, hfirst, hroom, -⟩ := readsBack_of_copies h fun _ => 0
    refine ⟨hpos, hfit, ⟨first, hfirst, hroom, (prefix_put_iff hroom).mp fun junk => ?_⟩, hlast, hsize⟩
    obtain ⟨-, -, -, -, first', hfirst', -, hprefix⟩ := readsBack_of_copies h junk
    cases hfirst.symm.trans hfirst'
    exact hprefix
  · rintro ⟨hpos, hfit, ⟨first, hfirst, hroom, hprefix⟩, ⟨last, hlast, hlength⟩, hsize⟩
      lib lib' hs hs' rfl
    have hwrite : main .write lib { image := some img } = _ := main_write_eq hs hpos hfit rfl
    obtain ⟨⟨status, world⟩, hr⟩ : ∃ r, main .read lib' { image := some img, sent := some img } =
        .ret r := by
      refine main_read_returns hs' hsize (fun row hrow => ?_) fun row hrow => ?_
      · cases hfirst.symm.trans hrow
        exact hroom
      · cases hlast.symm.trans hrow
        omega
    obtain ⟨rfl, -, ⟨hnil, -⟩ | ⟨first', hfirst', last', hlast', -, -, rfl⟩⟩ := main_read_eq hs' hr
    · rw [Library.fetched] at hnil
      rw [hnil] at hfirst
      cases hfirst
    cases hfirst.symm.trans hfirst'
    cases hlast.symm.trans hlast'
    refine ⟨_, _, hwrite, rfl, hr, ?_⟩
    have hlast0 : last.blob ≠ [] := List.length_pos_iff.mp (by omega)
    have hput := (prefix_put_iff hroom).mpr hprefix lib'.buffer
    simp only [if_neg hlast0, hlength, Option.some.injEq]
    exact (List.prefix_iff_eq_take.mp hput).symm

/-- An image does not come back behind the row of another one, although it is the last row. -/
example : ¬ CopiesBack [⟨mysqlDataTruncated, [1, 2]⟩, ⟨mysqlDataTruncated, [3]⟩] [3] := by
  rw [copiesBack_iff]
  rintro ⟨-, -, ⟨first, hfirst, -, hprefix⟩, -, -⟩
  cases hfirst
  exact absurd hprefix (by decide)

end Mysql
end LinuxBase
