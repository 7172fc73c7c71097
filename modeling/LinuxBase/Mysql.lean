import LinuxBase.Lib.StringFunctions

/-!
# The image of a user (`mysql.c`)

`mysqlReadImg` selects the column `y_img` of the rows with a name, and fetches row after row. What the
library returns is a parameter (`Server`):

* `mysql_stmt_fetch` sets `totalLength` to the length of the blob of the row that it fetches;
* `mysql_stmt_fetch_column` copies octets of the column that it gets, if there is such a column. The
  statement selects one.

The loop counts the rows in `column`. So only the octets of the first row that is fetched get into the
buffer, but the length is that of the last one. The buffer has the blob of the last row exactly if it
has the length of the last one that was fetched, and its octets are those of the first one, and, behind
them, those that the buffer had before (`mysqlReadImg_last_iff`). A call with a large enough buffer returns
(`mysqlReadImg_returns`).
-/

namespace LinuxBase
namespace Mysql

open CString Layout

/-- The greatest `int`. -/
def intMax : Nat := 0x7FFFFFFF

def mysqlDataTruncated : Int := 101

/-- The number of columns that the statement selects. -/
def fieldCount : Nat := 1

/-- A row for the name: what `mysql_stmt_fetch` returns for it, and its `y_img`. -/
structure Row where
  ret : Int
  blob : List Byte
  deriving DecidableEq

/-- What the calls of the library return. `init` is false if `mysql_stmt_init` returns `NULL`. Behind
the last row, `mysql_stmt_fetch` has no data. -/
structure Server where
  init : Bool := true
  prepare : Int := 0
  bindParam : Int := 0
  bindResult : Int := 0
  execute : Int := 0
  storeResult : Int := 0
  rows : List Row

/-- `mysql_stmt_fetch_column` for the buffer `buffer + start` of `length` octets. -/
def fetchColumn (blob : List Byte) (column start length : Nat) (buffer : List Byte) :
    Run (List Byte) :=
  if column < fieldCount then storeAt buffer start ((blob.drop start).take length) else .ret buffer

/-- The inner `while`, with `left` iterations to `totalLength`. -/
def fetchLoop (blob : List Byte) (column : Nat) : (left start : Nat) → List Byte → Run (List Byte)
  | 0, _, buffer => .ret buffer
  | left + 1, start, buffer => do
    let buffer ← fetchColumn blob column start 1 buffer
    if start < intMax then fetchLoop blob column left (start + 1) buffer else .fault

/-- The outer `while`: `totalLength` and the buffer behind it. -/
def rowLoop : List Row → (column totalLength : Nat) → List Byte → Run (Nat × List Byte)
  | [], _, totalLength, buffer => .ret (totalLength, buffer)
  | row :: rows, column, totalLength, buffer =>
    if row.ret ≠ 0 ∧ row.ret ≠ mysqlDataTruncated then .ret (totalLength, buffer)
    else do
      let totalLength := row.blob.length
      let buffer ← fetchLoop row.blob column totalLength 0 buffer
      if column < intMax then rowLoop rows (column + 1) totalLength buffer else .fault

/-- `mysqlReadImg`: what it returns, and the buffer behind the call. `db` is false for `NULL`. -/
def mysqlReadImg (db : Bool) (buffer : Option (List Byte)) (username : List Byte) (server : Server) :
    Run (Int × Option (List Byte)) :=
  match buffer with
  | none => .ret (1, none)
  | some buf =>
    if db = false then .ret (1, buffer)
    else if server.init = false then .ret (-1, buffer)
    else if server.prepare ≠ 0 then .ret (-6, buffer)
    else do
      let _ ← strlen username
      if server.bindParam ≠ 0 then .ret (-3, buffer)
      else if server.bindResult ≠ 0 then .ret (-3, buffer)
      else if server.execute ≠ 0 then .ret (-4, buffer)
      else if server.storeResult ≠ 0 then .ret (-5, buffer)
      else do
        let (totalLength, buf) ← rowLoop server.rows 0 0 buf
        .ret ((BitVec.ofNat 32 totalLength).toInt, some buf)

/-! ## The rows that are fetched -/

/-- All calls in front of the loop succeed. -/
def Server.Ready (server : Server) : Prop :=
  server.init = true ∧ server.prepare = 0 ∧ server.bindParam = 0 ∧ server.bindResult = 0 ∧
    server.execute = 0 ∧ server.storeResult = 0

instance (server : Server) : Decidable server.Ready := by
  unfold Server.Ready; infer_instance

/-- `mysql_stmt_fetch` has the row. -/
def Row.fetched (row : Row) : Bool := row.ret = 0 ∨ row.ret = mysqlDataTruncated

/-- The rows that the loop fetches: it ends at the first error. -/
def Server.fetched (server : Server) : List Row :=
  if server.Ready then server.rows.takeWhile Row.fetched else []

/-- The first `n` octets of the buffer are the blob of the last row for the name. -/
def ReadsLast (server : Server) (n : Int) (buffer : Option (List Byte)) : Prop :=
  ∃ row ∈ server.rows.getLast?, ∃ buf ∈ buffer, n = row.blob.length ∧ row.blob <+: buf

/-- The blob of the last row is as long as that of the last one that is fetched, and has the octets that
the buffer has with the blob of the first one in front. -/
def LastAsFirst (server : Server) (buffer : List Byte) : Prop :=
  ∃ row ∈ server.rows.getLast?, ∃ first ∈ server.fetched.head?, ∃ last ∈ server.fetched.getLast?,
    row.blob.length = last.blob.length ∧ row.blob <+: put buffer 0 first.blob

variable {blob buffer buffer' username : List Byte} {rows : List Row} {column left start n : Nat}

/-! ## The loops -/

/-- The octets from `start` on are copied out of the first column. -/
theorem fetchLoop_zero (h : fetchLoop blob 0 left start buffer = .ret buffer')
    (hleft : start + left = blob.length) : buffer' = put buffer start (blob.drop start) := by
  induction left generalizing start buffer with
  | zero =>
    cases h
    rw [List.drop_of_length_le (show blob.length ≤ start from Nat.le_of_eq hleft.symm), put_nil]
  | succ left ih =>
    obtain ⟨buf, hfetch, hnext⟩ := Run.bind_eq_ret.mp h
    split at hnext
    · have hlt : start < blob.length := by omega
      have hdrop := List.drop_eq_getElem_cons hlt
      have hcolumn : 0 < fieldCount := Nat.one_pos
      rw [fetchColumn, if_pos hcolumn, hdrop, List.take_succ_cons, List.take_zero] at hfetch
      obtain ⟨hroom, rfl⟩ := storeAt_eq_ret hfetch
      have hput : put (put buffer start [blob[start]]) (start + 1) (blob.drop (start + 1)) =
          put buffer start ([blob[start]] ++ blob.drop (start + 1)) := put_append (by omega)
      rw [ih hnext (by omega), hput, hdrop, List.singleton_append]
    · cases hnext

/-- There is nothing to copy out of another column. -/
theorem fetchLoop_of_ne (hcolumn : column ≠ 0)
    (h : fetchLoop blob column left start buffer = .ret buffer') : buffer' = buffer := by
  have hnone (start : Nat) : fetchColumn blob column start 1 buffer = .ret buffer :=
    if_neg (by rw [fieldCount]; omega)
  induction left generalizing start with
  | zero => cases h; rfl
  | succ left ih =>
    rw [fetchLoop, hnone, Run.ret_bind] at h
    split at h
    · exact ih h
    · cases h

/-- The index of a loop that ends is an `int`. -/
theorem fetchLoop_le (h : fetchLoop blob column left start buffer = .ret buffer')
    (hstart : start ≤ intMax) : start + left ≤ intMax := by
  induction left generalizing start buffer with
  | zero => exact hstart
  | succ left ih =>
    obtain ⟨buf, -, hnext⟩ := Run.bind_eq_ret.mp h
    split at hnext
    · have := ih hnext (by omega)
      omega
    · cases hnext

/-- The length behind the loop: that of the last row that is fetched. -/
def lastLength (rows : List Row) (totalLength : Nat) : Nat :=
  (rows.getLast?.map (·.blob.length)).getD totalLength

theorem rowLoop_cons {row : Row} {r : Nat × List Byte} (hrow : row.fetched = true)
    (h : rowLoop (row :: rows) column n buffer = .ret r) :
    ∃ buf, fetchLoop row.blob column row.blob.length 0 buffer = .ret buf ∧
      rowLoop rows (column + 1) row.blob.length buf = .ret r := by
  have hok : ¬ (row.ret ≠ 0 ∧ row.ret ≠ mysqlDataTruncated) := by
    rw [Row.fetched, decide_eq_true_eq] at hrow
    rintro ⟨h0, h1⟩
    exact hrow.elim h0 h1
  rw [rowLoop, if_neg hok] at h
  obtain ⟨buf, hloop, hnext⟩ := Run.bind_eq_ret.mp h
  split at hnext
  · exact ⟨buf, hloop, hnext⟩
  · cases hnext

theorem rowLoop_not_fetched {row : Row} (hrow : row.fetched = false) :
    rowLoop (row :: rows) column n buffer = .ret (n, buffer) := by
  rw [Row.fetched, decide_eq_false_iff_not, not_or] at hrow
  exact if_pos hrow

theorem lastLength_cons (row : Row) (rows : List Row) (n : Nat) :
    lastLength (row :: rows) n = lastLength rows row.blob.length := by
  cases rows with
  | nil => rfl
  | cons row' rows => rw [lastLength, List.getLast?_cons_cons]; rfl

/-- Behind the first row, only the length changes. -/
theorem rowLoop_of_ne {r : Nat × List Byte} (hcolumn : column ≠ 0)
    (h : rowLoop rows column n buffer = .ret r) :
    r = (lastLength (rows.takeWhile Row.fetched) n, buffer) := by
  induction rows generalizing column n with
  | nil => cases h; rfl
  | cons row rows ih =>
    cases hrow : row.fetched with
    | false =>
      rw [rowLoop_not_fetched hrow] at h
      cases h
      rw [List.takeWhile_cons_of_neg (by simp [hrow])]
      rfl
    | true =>
      obtain ⟨buf, hloop, hnext⟩ := rowLoop_cons hrow h
      rw [fetchLoop_of_ne hcolumn hloop] at hnext
      rw [ih (Nat.succ_ne_zero _) hnext, List.takeWhile_cons_of_pos hrow, lastLength_cons]

/-- The length is an `int`. -/
theorem rowLoop_le {r : Nat × List Byte} (h : rowLoop rows column n buffer = .ret r)
    (hn : n ≤ intMax) : r.1 ≤ intMax := by
  induction rows generalizing column n buffer with
  | nil => cases h; exact hn
  | cons row rows ih =>
    cases hrow : row.fetched with
    | false =>
      rw [rowLoop_not_fetched hrow] at h
      cases h
      exact hn
    | true =>
      obtain ⟨buf, hloop, hnext⟩ := rowLoop_cons hrow h
      have hlen := fetchLoop_le hloop (Nat.zero_le _)
      exact ih hnext (by omega)

/-- **What the loop leaves**: the length of the last row that is fetched, and the octets of the first
one in front of what the buffer had. -/
theorem rowLoop_zero {first : Row} {fetched : List Row} {r : Nat × List Byte}
    (hfetched : rows.takeWhile Row.fetched = first :: fetched) (h : rowLoop rows 0 n buffer = .ret r) :
    r = (lastLength (first :: fetched) n, put buffer 0 first.blob) := by
  cases rows with
  | nil => cases hfetched
  | cons row rows =>
    cases hrow : row.fetched with
    | false =>
      rw [List.takeWhile_cons_of_neg (by simp [hrow])] at hfetched
      cases hfetched
    | true =>
      rw [List.takeWhile_cons_of_pos hrow] at hfetched
      cases hfetched
      obtain ⟨buf, hloop, hnext⟩ := rowLoop_cons hrow h
      have hbuf := fetchLoop_zero hloop (Nat.zero_add _)
      rw [rowLoop_of_ne (Nat.succ_ne_zero 0) hnext, lastLength_cons, hbuf, List.drop_zero]

/-! ## The call -/

/-- A call that is ready goes through the loop. -/
theorem mysqlReadImg_eq_ret {server : Server} {r : Int × Option (List Byte)} (hready : server.Ready)
    (h : mysqlReadImg true (some buffer) username server = .ret r) :
    ∃ total buffer', rowLoop server.rows 0 0 buffer = .ret (total, buffer') ∧
      r = ((BitVec.ofNat 32 total).toInt, some buffer') := by
  obtain ⟨hinit, hprepare, hbindParam, hbindResult, hexecute, hstore⟩ := hready
  simp only [mysqlReadImg, hinit, hprepare, hbindParam, hbindResult, hexecute, hstore, ne_eq,
    not_true_eq_false, Bool.true_eq_false, if_false] at h
  obtain ⟨-, -, h⟩ := Run.bind_eq_ret.mp h
  obtain ⟨⟨total, buffer'⟩, hloop, hret⟩ := Run.bind_eq_ret.mp h
  cases hret
  exact ⟨total, buffer', hloop, rfl⟩

theorem toInt_of_le (h : n ≤ intMax) : (BitVec.ofNat 32 n).toInt = n := by
  rw [intMax] at h
  rw [BitVec.toInt_eq_toNat_cond, BitVec.toNat_ofNat]
  omega

/-- **The image.** A call that returns and that has fetched a row leaves the blob of the last row for
the name exactly if this blob is as long as the last one that was fetched, and has the octets of the
first one in front of those of the buffer. -/
theorem mysqlReadImg_last_iff {server : Server} {i : Int} {buf : Option (List Byte)}
    (hret : mysqlReadImg true (some buffer) username server = .ret (i, buf))
    (hfetched : server.fetched ≠ []) : ReadsLast server i buf ↔ LastAsFirst server buffer := by
  by_cases hready : server.Ready
  · obtain ⟨total, buffer', hloop, hr⟩ := mysqlReadImg_eq_ret hready hret
    cases hr
    obtain ⟨first, fetched, hcons⟩ := List.exists_cons_of_ne_nil hfetched
    have htake : server.rows.takeWhile Row.fetched = first :: fetched := by
      rw [← hcons, Server.fetched, if_pos hready]
    obtain ⟨last, hlast⟩ : ∃ last, (first :: fetched).getLast? = some last :=
      ⟨_, List.getLast?_eq_getLast_of_ne_nil (List.cons_ne_nil _ _)⟩
    have hlength : lastLength (first :: fetched) 0 = last.blob.length := by
      rw [lastLength, hlast]
      rfl
    have hle := rowLoop_le hloop (Nat.zero_le _)
    cases rowLoop_zero htake hloop
    rw [ReadsLast, LastAsFirst, hcons, toInt_of_le hle]
    simp only [Option.mem_def, List.head?_cons, hlast, Option.some.injEq, exists_eq_left', hlength,
      Int.natCast_inj]
    exact exists_congr fun row => and_congr_right fun _ => and_congr_left' eq_comm
  · rw [Server.fetched, if_neg hready] at hfetched
    exact absurd rfl hfetched

/-! ## When the call returns -/

/-- An octet is copied inside the buffer, or not at all. -/
theorem fetchColumn_returns (hroom : column = 0 → start < buffer.length) :
    ∃ buffer', fetchColumn blob column start 1 buffer = .ret buffer' ∧
      buffer'.length = buffer.length := by
  by_cases hcolumn : column < fieldCount
  · have hlen : start + ((blob.drop start).take 1).length ≤ buffer.length := by
      have hlt := hroom (Nat.lt_one_iff.mp hcolumn)
      have hone := List.length_take_le 1 (blob.drop start)
      omega
    exact ⟨_, (if_pos hcolumn).trans (storeAt_of_le hlen), length_put hlen⟩
  · exact ⟨buffer, if_neg hcolumn, rfl⟩

theorem fetchLoop_returns (hint : start + left ≤ intMax)
    (hroom : column = 0 → start + left ≤ buffer.length) :
    ∃ buffer', fetchLoop blob column left start buffer = .ret buffer' := by
  induction left generalizing start buffer with
  | zero => exact ⟨buffer, rfl⟩
  | succ left ih =>
    have hfirst : column = 0 → start < buffer.length := fun hcolumn => by
      have := hroom hcolumn
      omega
    obtain ⟨buf, hfetch, hlen⟩ : ∃ buf, fetchColumn blob column start 1 buffer = .ret buf ∧
      buf.length = buffer.length := fetchColumn_returns hfirst
    have hlt : start < intMax := by omega
    rw [fetchLoop, hfetch, Run.ret_bind, if_pos hlt]
    refine ih (by omega) fun hcolumn => ?_
    have := hroom hcolumn
    omega

theorem rowLoop_returns (hcount : column + rows.length ≤ intMax)
    (hint : ∀ row ∈ rows, row.blob.length ≤ intMax)
    (hroom : column = 0 → ∀ row ∈ rows.head?, row.blob.length ≤ buffer.length) :
    ∃ r, rowLoop rows column n buffer = .ret r := by
  induction rows generalizing column n buffer with
  | nil => exact ⟨(n, buffer), rfl⟩
  | cons row rows ih =>
    rw [List.length_cons] at hcount
    have hblob := hint row List.mem_cons_self
    obtain ⟨buf, hloop⟩ : ∃ buf, fetchLoop row.blob column row.blob.length 0 buffer = .ret buf :=
      fetchLoop_returns (by omega) fun hcolumn => by rw [Nat.zero_add]; exact hroom hcolumn row rfl
    have hlt : column < intMax := by omega
    rw [rowLoop]
    by_cases hfail : row.ret ≠ 0 ∧ row.ret ≠ mysqlDataTruncated
    · exact ⟨_, if_pos hfail⟩
    · simp only [if_neg hfail, hloop, Run.ret_bind, if_pos hlt]
      exact ih (by omega) (fun row' hmem => hint row' (List.mem_cons_of_mem _ hmem)) nofun

/-- The call returns if the first blob fits into the buffer, and the lengths and the number of the rows
are of type `int`. -/
theorem mysqlReadImg_returns {server : Server} (hready : server.Ready) (huser : Ends username)
    (hcount : server.rows.length ≤ intMax) (hint : ∀ row ∈ server.rows, row.blob.length ≤ intMax)
    (hroom : ∀ row ∈ server.rows.head?, row.blob.length ≤ buffer.length) :
    ∃ r, mysqlReadImg true (some buffer) username server = .ret r := by
  obtain ⟨hinit, hprepare, hbindParam, hbindResult, hexecute, hstore⟩ := hready
  obtain ⟨r, hloop⟩ : ∃ r, rowLoop server.rows 0 0 buffer = .ret r :=
    rowLoop_returns (by omega) hint fun _ => hroom
  simp only [mysqlReadImg, hinit, hprepare, hbindParam, hbindResult, hexecute, hstore, ne_eq,
    not_true_eq_false, Bool.true_eq_false, if_false, strlen_of_ends huser, Run.ret_bind, hloop]
  exact ⟨_, rfl⟩

/-! ## One row, and two -/

/-- With one row, everything agrees. -/
theorem lastAsFirst_single {server : Server} {row : Row} (hready : server.Ready)
    (hrows : server.rows = [row]) (hrow : row.fetched = true) (buffer : List Byte) :
    LastAsFirst server buffer := by
  have hfetched : server.fetched = [row] := by
    rw [Server.fetched, if_pos hready, hrows, List.takeWhile_cons_of_pos hrow]
    rfl
  refine ⟨row, by rw [hrows]; rfl, row, by rw [hfetched]; rfl, row, by rw [hfetched]; rfl, rfl, ?_⟩
  rw [put, List.take_zero, List.nil_append]
  exact List.prefix_append _ _

/-- Two rows with the blobs of two octets, of which the second one is read. -/
def twoImages (image : List Byte) : Server :=
  { rows := [{ ret := mysqlDataTruncated, blob := [1, 2] },
             { ret := mysqlDataTruncated, blob := image }] }

theorem mysqlReadImg_last_iff_two : ReadsLast (twoImages [1, 2]) 2 (some [1, 2, 0, 0]) := by
  have hret : mysqlReadImg true (some [0, 0, 0, 0]) [97, 0] (twoImages [1, 2]) =
      .ret (2, some [1, 2, 0, 0]) := by decide
  exact (mysqlReadImg_last_iff hret (by decide)).mpr ⟨_, rfl, _, rfl, _, rfl, rfl, by decide⟩

/-- The second image has the length 3, but the buffer has the octets of the first one. -/
theorem not_readsLast_two :
    mysqlReadImg true (some [0, 0, 0, 0]) [97, 0] (twoImages [3, 4, 5]) =
        .ret (3, some [1, 2, 0, 0]) ∧
      ¬ ReadsLast (twoImages [3, 4, 5]) 3 (some [1, 2, 0, 0]) := by
  refine ⟨by decide, ?_⟩
  rintro ⟨row, hrow, buf, hbuf, -, hprefix⟩
  cases hrow
  cases hbuf
  exact absurd hprefix (by decide)

end Mysql
end LinuxBase
