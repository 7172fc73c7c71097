import LinuxBase.AddressBook.Menu

/-!
# The loop of `main` (`address-book.c`)

`main` with the octets of the standard input. `scanf` skips white space; `%s` reads a word, and `%d` an
integer. Where there is none, `%d` stores nothing and leaves the input in front of the octet that does
not fit, so `select` is still the command of the iteration before.

So a prompt without an integer ends the loop only as long as no command was read. The loop ends as
the menu says exactly if no prompt but the first finds something else than an integer (`ends_iff`).
-/

namespace LinuxBase
namespace AddressBook

open CString

/-! ## `scanf` -/

def isSpace (b : Byte) : Bool := b = 32#8 || (9 ≤ b.toNat && b.toNat ≤ 13)

def isDigit (b : Byte) : Bool := 48 ≤ b.toNat && b.toNat ≤ 57

/-- The input behind its white space. -/
def skipSpace (stdin : List Byte) : List Byte := stdin.dropWhile isSpace

/-- `scanf("%s")`: the word, if the input has one, and the rest of the input. -/
def scanWord (stdin : List Byte) : Option Token × List Byte :=
  match skipSpace stdin with
  | [] => (none, [])
  | b :: rest => (some (b :: rest.takeWhile (!isSpace ·)), rest.dropWhile (!isSpace ·))

/-- Whether there is a `-`, and what follows the sign. -/
def scanSign : List Byte → Bool × List Byte
  | [] => (false, [])
  | b :: rest =>
    if b = 45#8 then (true, rest) else if b = 43#8 then (false, rest) else (false, b :: rest)

/-- The digits as a number. -/
def digits (n : Nat) : List Byte → Nat
  | [] => n
  | b :: bs => digits (10 * n + (b.toNat - 48)) bs

/-- The integer is read as a `long`, with its least or greatest value if it is none, and stored as an
`int`. -/
def storeInt (n : Int) : Int :=
  let long := if n < -9223372036854775808 then -9223372036854775808
    else if 9223372036854775807 < n then 9223372036854775807 else n
  (BitVec.ofInt 32 long).toInt

/-- `scanf("%d")`: the integer, if the input has one, and the rest of the input. -/
def scanInt (stdin : List Byte) : Option Int × List Byte :=
  let (negative, number) := scanSign (skipSpace stdin)
  match number with
  | [] => (none, [])
  | b :: rest =>
    if isDigit b then
      let n : Int := digits 0 (b :: rest.takeWhile isDigit)
      (some (storeInt (if negative then -n else n)), rest.dropWhile isDigit)
    else (none, number)

/-! ## `main` -/

/-- `menu_info`. -/
def menuInfo (e : Env) : Env :=
  (((e.say "\n\n*********************************************\n").say
    "***** 1.添加人员\t\t2.打印所有人员\t\t3.删除人员 *****\n").say
    "***** 4.查找人员\t\t5.保存所有人员\t\t6.读取所有人员 *****\n").say
    "***** q to exit *****\n"

/-- What the library functions return in one iteration (see `Operator`). -/
structure Library where
  a : Alloc
  addr : Addr
  person : Person
  name : Block personNameLength
  opens : Bool
  mem : Supply

/-- `main` in front of an iteration, or behind the loop. -/
structure Main where
  stdin : List Byte
  select : Int := 0
  world : World := {}
  left : Bool := false

/-- `main` with nothing read. -/
def start (file : Option (List Byte)) (stdin : List Byte) : Main :=
  { stdin, world := { env := { file } } }

/-- The case of the `switch`, with the words that the function reads; none for the `default`.
`delete_entry` reads no word if there is no contact. -/
def command (l : Library) (select : Int) (w : World) (stdin : List Byte) :
    Option (Operator × List Byte) :=
  if select = 1 then
    let (name, stdin) := scanWord stdin
    let (phone, stdin) := scanWord stdin
    some (.insert l.a l.addr l.person name phone, stdin)
  else if select = 2 then some (.print, stdin)
  else if select = 3 then
    if w.contacts.any fun c => c.size = 0 then some (.delete l.name none, stdin)
    else
      let (name, stdin) := scanWord stdin
      some (.delete l.name name, stdin)
  else if select = 4 then
    let (name, stdin) := scanWord stdin
    some (.search l.name name, stdin)
  else if select = 5 then some (.save l.opens, stdin)
  else if select = 6 then some (.load l.opens l.person l.mem, stdin)
  else none

/-- The world behind `menu_info`. -/
def World.menu (w : World) : World := { w with env := menuInfo w.env }

/-- An iteration of the loop. -/
def iterate (fuel : Nat) (l : Library) (m : Main) : Run Main :=
  if m.left then .ret m
  else
    let w := m.world.menu
    let (value, stdin) := scanInt m.stdin
    let sel := value.getD m.select
    match command l sel w stdin with
    | none => .ret ⟨stdin, sel, w, true⟩
    | some (op, stdin) => do
      let w ← select fuel op w
      .ret ⟨stdin, sel, w, false⟩

/-- The prompt finds the end of the input, or something that is no integer. -/
def Main.NoInteger (m : Main) : Prop := (scanInt m.stdin).1 = none

/-- A prompt without an integer ends the loop, and no entry function is called. -/
def LeavesAtNoInteger (fuel : Nat) (m : Main) (l : Library) : Prop :=
  m.left = false → m.NoInteger →
    ∃ m', iterate fuel l m = .ret m' ∧ m'.left = true ∧ m'.world = m.world.menu

/-- The loop ends at the first prompt without an integer, so after finitely many iterations. -/
def Ends (fuel : Nat) (m : Main) (ls : List Library) : Prop :=
  Along (iterate fuel) (LeavesAtNoInteger fuel) m ls ∧
    ∀ m', m.stdin.length < ls.length → exec (iterate fuel) ls m = .ret m' → m'.left = true

/-- A prompt without an integer is the first one: no command was read. -/
def NoCommandYet (m : Main) (_ : Library) : Prop := m.left = false → m.NoInteger → m.select = 0

/-! ## What a scan leaves of the input -/

section Scan

variable {stdin : List Byte}

theorem skipSpace_length_le (stdin : List Byte) : (skipSpace stdin).length ≤ stdin.length :=
  (List.dropWhile_suffix _).length_le

theorem scanWord_length_le (stdin : List Byte) : (scanWord stdin).2.length ≤ stdin.length := by
  have hskip := skipSpace_length_le stdin
  unfold scanWord
  cases h : skipSpace stdin with
  | nil => exact Nat.zero_le _
  | cons b rest =>
    have hrest := (List.dropWhile_suffix (l := rest) (!isSpace ·)).length_le
    rw [h, List.length_cons] at hskip
    simp only
    omega

theorem scanSign_length_le (stdin : List Byte) : (scanSign stdin).2.length ≤ stdin.length := by
  cases stdin with
  | nil => exact Nat.le_refl _
  | cons b rest =>
    rw [scanSign]
    by_cases hminus : b = 45#8
    · rw [if_pos hminus]
      exact Nat.le_succ _
    · rw [if_neg hminus]
      by_cases hplus : b = 43#8
      · rw [if_pos hplus]
        exact Nat.le_succ _
      · rw [if_neg hplus]

/-- An integer takes an octet from the input. -/
theorem scanInt_length_lt {n : Int} (h : (scanInt stdin).1 = some n) :
    (scanInt stdin).2.length < stdin.length := by
  have hskip := skipSpace_length_le stdin
  have hsign := scanSign_length_le (skipSpace stdin)
  unfold scanInt at h ⊢
  cases hnumber : scanSign (skipSpace stdin) with
  | mk negative number =>
    rw [hnumber] at hsign
    simp only [hnumber] at h ⊢
    cases number with
    | nil => cases h
    | cons b rest =>
      by_cases hb : isDigit b = true
      · have hrest := (List.dropWhile_suffix (l := rest) isDigit).length_le
        simp only [hb, if_true, List.length_cons] at hsign ⊢
        omega
      · simp only [hb, if_false, Bool.false_eq_true] at h
        cases h

end Scan

section Loop

variable {fuel : Nat} {m m' : Main} {l : Library} {ls : List Library}

/-! ## One iteration -/

theorem command_zero (l : Library) (w : World) (stdin : List Byte) : command l 0 w stdin = none :=
  rfl

/-- A command takes words from the input. -/
theorem command_length_le {sel : Int} {w : World} {stdin rest : List Byte} {op : Operator}
    (h : command l sel w stdin = some (op, rest)) : rest.length ≤ stdin.length := by
  have hword := scanWord_length_le stdin
  have hwords := scanWord_length_le (scanWord stdin).2
  unfold command at h
  split at h
  · cases h; exact Nat.le_trans hwords hword
  · split at h
    · cases h; exact Nat.le_refl _
    · split at h
      · split at h
        · cases h; exact Nat.le_refl _
        · cases h; exact hword
      · split at h
        · cases h; exact hword
        · split at h
          · cases h; exact Nat.le_refl _
          · split at h
            · cases h; exact Nat.le_refl _
            · cases h

/-- The commands do not depend on what the library functions return. -/
theorem command_eq_none {sel : Int} {w : World} {stdin : List Byte} (l' : Library) (w' : World)
    (stdin' : List Byte) (h : command l sel w stdin = none) : command l' sel w' stdin' = none := by
  unfold command at h ⊢
  grind

/-- **What an iteration does**: it leaves the loop, or it runs a command. -/
theorem iterate_cases (hl : m.left = false) (h : iterate fuel l m = .ret m') :
    (command l ((scanInt m.stdin).1.getD m.select) m.world.menu (scanInt m.stdin).2 = none ∧
        m'.left = true) ∨
      ∃ op, command l ((scanInt m.stdin).1.getD m.select) m.world.menu (scanInt m.stdin).2 =
          some (op, m'.stdin) ∧
        m'.select = (scanInt m.stdin).1.getD m.select ∧ m'.left = false := by
  unfold iterate at h
  simp only [hl, Bool.false_eq_true, if_false] at h
  cases hc : command l ((scanInt m.stdin).1.getD m.select) m.world.menu (scanInt m.stdin).2 with
  | none =>
    simp only [hc] at h
    cases h
    exact .inl ⟨rfl, rfl⟩
  | some out =>
    obtain ⟨op, rest⟩ := out
    simp only [hc] at h
    obtain ⟨w, -, h⟩ := Run.bind_eq_ret.mp h
    cases h
    exact .inr ⟨op, rfl, rfl, rfl⟩

theorem iterate_left (h : m.left = true) : iterate fuel l m = .ret m := by
  simp only [iterate, h, if_true]

/-! ## The loop -/

/-- A command is stored in `select`, unless no integer was read. -/
def SelectStored (m : Main) : Prop :=
  m.left = false → m.select = 0 ∨ ∀ l w stdin, command l m.select w stdin ≠ none

theorem SelectStored.iterate (h : SelectStored m) (hm : iterate fuel l m = .ret m') :
    SelectStored m' := by
  by_cases hl : m.left = true
  · rw [iterate_left hl] at hm
    cases hm
    exact h
  · rw [Bool.not_eq_true] at hl
    intro hl'
    rcases iterate_cases hl hm with ⟨-, hleft⟩ | ⟨op, hop, hsel, -⟩
    · rw [hleft] at hl'; cases hl'
    · refine .inr fun l' w' stdin' hnone => ?_
      rw [hsel] at hnone
      rw [command_eq_none l m.world.menu (scanInt m.stdin).2 hnone] at hop
      cases hop

/-- A prompt without an integer ends the loop exactly if no command was read. -/
theorem leavesAtNoInteger_iff (h : SelectStored m) :
    LeavesAtNoInteger fuel m l ↔ NoCommandYet m l := by
  refine forall_congr' fun hl => forall_congr' fun hno => ?_
  have hsel : (scanInt m.stdin).1.getD m.select = m.select := by
    rw [show (scanInt m.stdin).1 = none from hno, Option.getD_none]
  constructor
  · rintro ⟨m', hm', hleft, -⟩
    refine (h hl).resolve_right fun hcommand => ?_
    rcases iterate_cases hl hm' with ⟨hnone, -⟩ | ⟨op, -, -, hstay⟩
    · rw [hsel] at hnone
      exact hcommand l m.world.menu (scanInt m.stdin).2 hnone
    · rw [hleft] at hstay; cases hstay
  · intro hzero
    rw [hzero] at hsel
    refine ⟨⟨(scanInt m.stdin).2, 0, m.world.menu, true⟩, ?_, rfl, rfl⟩
    simp only [iterate, hl, hzero, hsel, command_zero, Bool.false_eq_true, if_false]

/-- Behind an integer, an iteration leaves the loop or less of the input. -/
theorem iterate_stdin (hl : m.left = false) (hno : ¬ m.NoInteger)
    (h : iterate fuel l m = .ret m') : m'.left = true ∨ m'.stdin.length < m.stdin.length := by
  rcases iterate_cases hl h with ⟨-, hleft⟩ | ⟨op, hop, -, -⟩
  · exact .inl hleft
  · obtain ⟨n, hn⟩ := Option.ne_none_iff_exists'.mp hno
    exact .inr (Nat.lt_of_le_of_lt (command_length_le hop) (scanInt_length_lt hn))

theorem exec_left (h : m.left = true) : exec (iterate fuel) ls m = .ret m := by
  induction ls with
  | nil => rfl
  | cons l ls ih => rw [exec_cons, iterate_left h, Run.ret_bind, ih]

/-- If no prompt but the first finds something else than an integer, each iteration takes an octet from
the input, until the last one. -/
theorem left_of_noCommandYet (hs : SelectStored m) (hc : Along (iterate fuel) NoCommandYet m ls)
    (hlen : m.stdin.length < ls.length) (h : exec (iterate fuel) ls m = .ret m') :
    m'.left = true := by
  induction ls generalizing m with
  | nil => cases hlen
  | cons l ls ih =>
    by_cases hl : m.left = true
    · rw [exec_left hl] at h
      cases h
      exact hl
    · rw [Bool.not_eq_true] at hl
      obtain ⟨m₁, h₁, hrest⟩ := Run.bind_eq_ret.mp h
      obtain ⟨hc₁, hcs⟩ := along_cons.mp hc
      have hdone : m₁.left = true ∨ m₁.stdin.length < m.stdin.length := by
        by_cases hno : m.NoInteger
        · obtain ⟨m₂, h₂, hleft, -⟩ := (leavesAtNoInteger_iff hs).mpr hc₁ hl hno
          rw [h₁] at h₂
          cases h₂
          exact .inl hleft
        · exact iterate_stdin hl hno h₁
      rcases hdone with hleft | hlt
      · rw [exec_left hleft] at hrest
        cases hrest
        exact hleft
      · rw [List.length_cons] at hlen
        exact ih (hs.iterate h₁) (hcs m₁ h₁) (by omega) hrest

/-- **The end of the loop.** For every input, `main` ends at the first prompt without an integer exactly
if no command was read before such a prompt. -/
theorem ends_iff (fuel : Nat) (file : Option (List Byte)) (stdin : List Byte) (ls : List Library) :
    Ends fuel (start file stdin) ls ↔ Along (iterate fuel) NoCommandYet (start file stdin) ls := by
  have hs : SelectStored (start file stdin) := fun _ => .inl rfl
  have halong : Along (iterate fuel) (LeavesAtNoInteger fuel) (start file stdin) ls ↔
      Along (iterate fuel) NoCommandYet (start file stdin) ls :=
    along_iff (P := fun _ _ => True) (fun _ _ _ hm _ h => SelectStored.iterate hm h)
      (fun _ _ hm _ => leavesAtNoInteger_iff hm) hs (along_of_mem fun _ _ => trivial)
  refine ⟨fun h => halong.mp h.1, fun h => ⟨halong.mpr h, fun m' hlen hm' => ?_⟩⟩
  exact left_of_noCommandYet hs h hlen hm'

/-- What the library functions return in a new process. -/
def library : Library := ⟨⟨10, none, none⟩, 20, blank, ⟨List.replicate 16 0, rfl⟩, true,
  fun i => (⟨30 + i, none, none⟩, 40 + i)⟩

/-- Behind `2`, each prompt without an integer prints the contacts again. -/
theorem print_again (n : Nat) (hl : m.left = false) (hc : m.world.contacts = some {})
    (hsel : m.select = 2) (hin : scanInt m.stdin = (none, [113#8])) :
    ∃ m', exec (iterate 1) (List.replicate n library) m = .ret m' ∧ m'.left = false := by
  induction n generalizing m with
  | zero => exact ⟨m, rfl, hl⟩
  | succ n ih =>
    obtain ⟨stdin, sel, ⟨contacts, env⟩, left⟩ := m
    simp only at hl hc hsel hin
    subst hl hc hsel
    have hstep : iterate 1 library ⟨stdin, 2, ⟨some {}, env⟩, false⟩ =
        .ret ⟨[113#8], 2, ⟨some {}, menuInfo env⟩, false⟩ := by
      rw [iterate, hin]
      rfl
    rw [List.replicate_succ, exec_cons, hstep, Run.ret_bind]
    exact ih rfl rfl rfl rfl

/-- With the input `2` and `q`, the contacts are printed for ever. -/
theorem printed_for_ever :
    (∀ n, ∃ m, exec (iterate 1) (List.replicate n library) (start none [50, 10, 113]) = .ret m ∧
      m.left = false) ∧
    ¬ Ends 1 (start none [50, 10, 113]) (List.replicate 4 library) := by
  have hrun : ∀ n, ∃ m,
      exec (iterate 1) (List.replicate n library) (start none [50, 10, 113]) = .ret m ∧
        m.left = false := by
    intro n
    cases n with
    | zero => exact ⟨_, rfl, rfl⟩
    | succ n => exact print_again n rfl rfl rfl rfl
  refine ⟨hrun, fun h => ?_⟩
  obtain ⟨m, hm, hl⟩ := hrun 4
  rw [h.2 m (by decide) hm] at hl
  cases hl

end Loop

end AddressBook
end LinuxBase
