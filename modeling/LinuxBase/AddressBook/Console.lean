import LinuxBase.AddressBook.Directory
import LinuxBase.AddressBook.Main

/-!
# What `main` prints for an input

A `Console` is `main` without memory: the input, the last selection and a `Directory`. An iteration reads
a selection, and for a command its words; it has no result where the input ends in front of a word.

`main_ends`: if no word of the input is longer than 10 octets, `main` comes to the end of its loop
exactly if the console does, and with the same output, file and rest of the input. So what the program
prints is a function of its input and of the contacts in its file. Behind an input that ends in front of
a word, `main` finds no integer any more and repeats the last command for ever (`Stuck`).
-/

namespace LinuxBase
namespace AddressBook

open CString

/-! ## The console -/

structure Console where
  stdin : List Byte
  select : Int := 0
  directory : Directory
  left : Bool := false

/-- The string of the next word. -/
def readWord (stdin : List Byte) : Option (List Byte × List Byte) :=
  match scanWord stdin with
  | (some word, rest) => some (cstr (word ++ [0#8]), rest)
  | (none, _) => none

namespace Directory

def menu (d : Directory) : Directory :=
  (((d.say "\n\n*********************************************\n").say
    "***** 1.添加人员\t\t2.打印所有人员\t\t3.删除人员 *****\n").say
    "***** 4.查找人员\t\t5.保存所有人员\t\t6.读取所有人员 *****\n").say
    "***** q to exit *****\n"

/-- The request of a selection, with the words that it reads. Without a contact there is no name to
delete. -/
def request (d : Directory) (opens : Bool) (select : Int) (stdin : List Byte) :
    Option (Request × List Byte) :=
  if select = 1 then do
    let (name, stdin) ← readWord stdin
    let (phone, stdin) ← readWord stdin
    some (.insert ⟨name, phone⟩, stdin)
  else if select = 2 then some (.print, stdin)
  else if select = 3 then
    if d.size = 0 then some (.delete [], stdin)
    else do
      let (name, stdin) ← readWord stdin
      some (.delete name, stdin)
  else if select = 4 then do
    let (name, stdin) ← readWord stdin
    some (.search name, stdin)
  else if select = 5 then some (.save opens, stdin)
  else some (.load opens, stdin)

end Directory

/-- A selection of the menu. -/
def IsCommand (select : Int) : Prop := 1 ≤ select ∧ select ≤ 6

instance (select : Int) : Decidable (IsCommand select) := inferInstanceAs (Decidable (_ ∧ _))

namespace Console

def start (file : Option (List Contact)) (stdin : List Byte) : Console :=
  { stdin, directory := .start file }

/-- An iteration of the loop; `opens` says whether `fopen` succeeds. -/
def iterate (k : Console) (opens : Bool) : Option Console :=
  if k.left then some k
  else
    let d := k.directory.menu
    let (value, stdin) := scanInt k.stdin
    let select := value.getD k.select
    if IsCommand select then do
      let (request, stdin) ← d.request opens select stdin
      some ⟨stdin, select, d.handle request, false⟩
    else some ⟨stdin, select, d, true⟩

def run (k : Console) (ls : List Bool) : Option Console := ls.foldlM iterate k

end Console

/-! ## What `main` has of it -/

/-- The state of `main` is that of the console. -/
structure Same (m : Main) (k : Console) : Prop where
  stdin : m.stdin = k.stdin
  select : m.select = k.select
  left : m.left = k.left
  represents : Represents m.world k.directory

/-- No word is longer than 10 octets. -/
def ShortInput (stdin : List Byte) : Prop :=
  ∀ word, word <:+: stdin → (∀ b ∈ word, isSpace b = false) → word.length + 1 ≤ personPhoneLength

/-- `malloc` returns dead blocks, and null links for the node of an empty list. -/
structure LibraryServes (m : Main) (l : Library) : Prop where
  insert : FreshOp m.world (.insert l.a l.addr l.person none none)
  load : FreshOp m.world (.load l.opens l.person l.mem)
  insert_null : NullFirstOp m.world (.insert l.a l.addr l.person none none)
  load_null : NullFirstOp m.world (.load l.opens l.person l.mem)

/-- The input is at its end, and the last command is repeated. -/
structure Stuck (m : Main) : Prop where
  stdin : m.stdin = []
  command : IsCommand m.select
  left : m.left = false

/-! ## Words -/

section Words

variable {stdin rest : List Byte} {word : Token}

theorem ShortInput.suffix (h : ShortInput stdin) (hrest : rest <:+ stdin) : ShortInput rest :=
  fun word hword => h word (hword.trans hrest.isInfix)

/-- A word has no white space, and the rest of the input follows it. -/
theorem scanWord_some (h : scanWord stdin = (some word, rest)) :
    word ++ rest <:+ stdin ∧ ∀ b ∈ word, isSpace b = false := by
  have hskip : skipSpace stdin <:+ stdin := List.dropWhile_suffix _
  unfold scanWord at h
  cases hs : skipSpace stdin with
  | nil =>
    rw [hs] at h
    cases h
  | cons b bs =>
    rw [hs] at h hskip
    cases h
    refine ⟨by rwa [List.cons_append, List.takeWhile_append_dropWhile], fun c hc => ?_⟩
    rcases List.mem_cons.mp hc with rfl | hc
    · have hhead := List.head?_dropWhile_not isSpace stdin
      rw [← skipSpace, hs] at hhead
      exact hhead
    · simpa using List.all_eq_true.mp List.all_takeWhile c hc

theorem scanWord_none (h : (scanWord stdin).1 = none) : scanWord stdin = (none, []) := by
  unfold scanWord at h ⊢
  cases hs : skipSpace stdin with
  | nil => rfl
  | cons b bs =>
    rw [hs] at h
    cases h

theorem scanSign_suffix (stdin : List Byte) : (scanSign stdin).2 <:+ stdin := by
  cases stdin with
  | nil => exact List.suffix_refl _
  | cons b rest =>
    rw [scanSign]
    split
    · exact List.suffix_cons b rest
    · split
      · exact List.suffix_cons b rest
      · exact List.suffix_refl _

theorem scanInt_suffix (stdin : List Byte) : (scanInt stdin).2 <:+ stdin := by
  have hskip : skipSpace stdin <:+ stdin := List.dropWhile_suffix _
  have hsign := (scanSign_suffix (skipSpace stdin)).trans hskip
  unfold scanInt
  cases hnumber : scanSign (skipSpace stdin) with
  | mk negative number =>
    rw [hnumber] at hsign
    cases number with
    | nil => exact List.nil_suffix
    | cons b rest =>
      simp only
      split
      · exact (List.dropWhile_suffix _).trans ((List.suffix_cons b rest).trans hsign)
      · exact hsign

/-- A word that was read. -/
theorem readWord_some {s : List Byte} (hin : ShortInput stdin) (h : readWord stdin = some (s, rest)) :
    ∃ word, scanWord stdin = (some word, rest) ∧ s = cstr (word ++ [0#8]) ∧ ShortInput rest ∧
      word.length + 1 ≤ personPhoneLength := by
  unfold readWord at h
  split at h
  · rename_i word rest' hscan
    cases h
    obtain ⟨hsuffix, hword⟩ := scanWord_some hscan
    have hrest : rest <:+ stdin := (List.suffix_append word rest).trans hsuffix
    have hinfix : word <:+: stdin := (List.prefix_append word rest).isInfix.trans hsuffix.isInfix
    exact ⟨word, hscan, rfl, hin.suffix hrest, hin word hinfix hword⟩
  · cases h

theorem readWord_rest {next : List Byte × List Byte} (h : readWord stdin = some next) :
    (scanWord stdin).2 = next.2 := by
  unfold readWord at h
  split at h
  · rename_i hscan
    cases h
    rw [hscan]
  · cases h

/-- A request without its word. -/
theorem readWord_of_bind {f : List Byte × List Byte → Request × List Byte}
    (h : ((readWord stdin).bind fun x => some (f x)) = none) : readWord stdin = none := by
  cases hread : readWord stdin with
  | none => rfl
  | some x =>
    rw [hread] at h
    cases h

theorem readWord_none (h : readWord stdin = none) : scanWord stdin = (none, []) := by
  unfold readWord at h
  split at h
  · cases h
  · rename_i hscan
    exact scanWord_none (by rw [hscan])

end Words

/-! ## Selections -/

section Selections

variable {w : World} {d : Directory} {l : Library} {m : Main} {k : Console} {sel : Int}
  {stdin rest : List Byte} {r : Request}

theorem Represents.menu (h : Represents w d) : Represents w.menu d.menu := by
  obtain ⟨c, rs, hc, h⟩ := h
  exact ⟨c, rs, hc, (((h.say _).say _).say _).say _⟩

theorem Represents.size_eq_zero (h : Represents w d) :
    (w.contacts.any fun c => c.size = 0) = true ↔ d.size = 0 := by
  obtain ⟨c, rs, hc, h⟩ := h
  rw [hc, Option.any_some, decide_eq_true_iff, h.size]
  exact Int.natCast_eq_zero

/-- Other selections leave the loop. -/
theorem command_of_not (h : ¬ IsCommand sel) (l : Library) (w : World) (stdin : List Byte) :
    command l sel w stdin = none := by
  unfold IsCommand at h
  unfold command
  repeat rw [if_neg (by omega)]

/-- A command is a case of the `switch`. -/
theorem IsCommand.cases (h : IsCommand sel) :
    sel = 1 ∨ sel = 2 ∨ sel = 3 ∨ sel = 4 ∨ sel = 5 ∨ sel = 6 := by
  unfold IsCommand at h
  omega

/-! The commands that read words. -/

theorem command_insert (l : Library) (w : World) (stdin : List Byte) : command l 1 w stdin =
    some (.insert l.a l.addr l.person (scanWord stdin).1 (scanWord (scanWord stdin).2).1,
      (scanWord (scanWord stdin).2).2) := rfl

theorem command_delete (l : Library) (w : World) (stdin : List Byte) : command l 3 w stdin =
    if w.contacts.any fun c => c.size = 0 then some (.delete l.name none, stdin)
    else some (.delete l.name (scanWord stdin).1, (scanWord stdin).2) := rfl

theorem command_search (l : Library) (w : World) (stdin : List Byte) : command l 4 w stdin =
    some (.search l.name (scanWord stdin).1, (scanWord stdin).2) := rfl

theorem request_insert (d : Directory) (opens : Bool) (stdin : List Byte) :
    d.request opens 1 stdin = (readWord stdin).bind fun x => (readWord x.2).bind fun y =>
      some (.insert ⟨x.1, y.1⟩, y.2) := rfl

theorem request_delete (d : Directory) (opens : Bool) (stdin : List Byte) :
    d.request opens 3 stdin = if d.size = 0 then some (.delete [], stdin)
      else (readWord stdin).bind fun x => some (.delete x.1, x.2) := rfl

theorem request_search (d : Directory) (opens : Bool) (stdin : List Byte) :
    d.request opens 4 stdin = (readWord stdin).bind fun x => some (.search x.1, x.2) := rfl

/-- The words of a command that the console has are those that `main` reads. -/
theorem command_of_request (hw : Represents m.world.menu d) (hin : ShortInput stdin)
    (hl : LibraryServes m l) (hsel : IsCommand sel)
    (h : d.request l.opens sel stdin = some (r, rest)) :
    ∃ op, command l sel m.world.menu stdin = some (op, rest) ∧ Served m.world.menu op ∧
      d.handle op.request = d.handle r ∧ ShortInput rest := by
  have hle : personPhoneLength ≤ personNameLength := by decide
  rcases hsel.cases with rfl | rfl | rfl | rfl | rfl | rfl
  · rw [request_insert] at h
    obtain ⟨⟨name, stdin₁⟩, h1, h⟩ := Option.bind_eq_some_iff.mp h
    obtain ⟨⟨phone, stdin₂⟩, h2, h⟩ := Option.bind_eq_some_iff.mp h
    cases h
    obtain ⟨word, hscan, rfl, hin, hlen⟩ := readWord_some hin h1
    obtain ⟨word', hscan', rfl, hin, hlen'⟩ := readWord_some hin h2
    refine ⟨.insert l.a l.addr l.person (some word) (some word'), ?_,
      ⟨hl.insert, hl.insert_null, fun x hx => ?_, nofun, nofun⟩, rfl, hin⟩
    · rw [command_insert, hscan, hscan']
    · simp only [Operator.words, Option.toList_some, List.map_cons, List.map_nil,
        List.singleton_append, List.mem_cons, List.not_mem_nil, or_false] at hx
      rcases hx with rfl | rfl
      · exact hlen.trans hle
      · exact hlen'
  · cases h
    exact ⟨.print, rfl, ⟨trivial, trivial, List.forall_mem_nil _, trivial⟩, rfl, hin⟩
  · rw [request_delete] at h
    rw [command_delete]
    by_cases hzero : d.size = 0
    · have hsize := hw.size_eq_zero.mpr hzero
      rw [if_pos hzero] at h
      cases h
      refine ⟨.delete l.name none, if_pos hsize, ⟨trivial, trivial, ?_, trivial⟩, ?_, hin⟩
      · rw [ShortWords, Operator.words, if_pos hsize]
        exact List.forall_mem_nil _
      · simp only [Operator.request, Directory.handle, if_pos hzero]
    · have hsize := mt hw.size_eq_zero.mp hzero
      rw [if_neg hzero] at h
      obtain ⟨⟨name, stdin₁⟩, h1, h⟩ := Option.bind_eq_some_iff.mp h
      cases h
      obtain ⟨word, hscan, rfl, hin, hlen⟩ := readWord_some hin h1
      rw [hscan]
      refine ⟨.delete l.name (some word), if_neg hsize, ⟨trivial, trivial, ?_, trivial⟩, rfl, hin⟩
      rw [ShortWords, Operator.words, if_neg hsize]
      exact List.forall_mem_singleton.mpr (hlen.trans hle)
  · rw [request_search] at h
    obtain ⟨⟨name, stdin₁⟩, h1, h⟩ := Option.bind_eq_some_iff.mp h
    cases h
    obtain ⟨word, hscan, rfl, hin, hlen⟩ := readWord_some hin h1
    rw [command_search, hscan]
    refine ⟨.search l.name (some word), rfl, ⟨trivial, trivial, ?_, trivial⟩, rfl, hin⟩
    exact List.forall_mem_singleton.mpr (hlen.trans hle)
  · cases h
    exact ⟨.save l.opens, rfl, ⟨trivial, trivial, List.forall_mem_nil _, trivial⟩, rfl, hin⟩
  · cases h
    exact ⟨.load l.opens l.person l.mem, rfl, ⟨hl.load, hl.load_null, List.forall_mem_nil _, trivial⟩,
      rfl, hin⟩

/-- Where the console misses a word, `main` is at the end of the input. -/
theorem command_of_no_request (hw : Represents m.world.menu d) (hsel : IsCommand sel)
    (h : d.request l.opens sel stdin = none) :
    ∃ op, command l sel m.world.menu stdin = some (op, []) := by
  rcases hsel.cases with rfl | rfl | rfl | rfl | rfl | rfl
  · rw [request_insert] at h
    rw [command_insert]
    cases h1 : readWord stdin with
    | none =>
      rw [readWord_none h1]
      exact ⟨_, rfl⟩
    | some next =>
      -- There is a name, so the phone is missing.
      rw [h1, Option.bind_some] at h
      rw [readWord_rest h1, readWord_none (readWord_of_bind h)]
      exact ⟨_, rfl⟩
  · cases h
  · rw [request_delete] at h
    rw [command_delete]
    by_cases hzero : d.size = 0
    · rw [if_pos hzero] at h
      cases h
    · rw [if_neg hzero] at h
      rw [if_neg (mt hw.size_eq_zero.mp hzero), readWord_none (readWord_of_bind h)]
      exact ⟨_, rfl⟩
  · rw [request_search] at h
    rw [command_search, readWord_none (readWord_of_bind h)]
    exact ⟨_, rfl⟩
  · cases h
  · cases h

end Selections

/-! ## The loop -/

section Loop

variable {fuel : Nat} {m m' : Main} {l : Library} {ls : List Library} {k k' : Console}

/-- **An iteration** that the console has. -/
theorem iterate_same (h : Same m k) (hin : ShortInput m.stdin) (hl : LibraryServes m l)
    (hroom : 2 * k.directory.room ≤ fuel) (hsize : k.directory.size < intMax)
    (hk : k.iterate l.opens = some k') :
    ∃ m', iterate fuel l m = .ret m' ∧ Same m' k' ∧ ShortInput m'.stdin := by
  obtain ⟨stdin, sel, w, left⟩ := m
  obtain ⟨_, _, d, _⟩ := k
  obtain ⟨rfl, rfl, rfl, hw⟩ := h
  unfold Console.iterate at hk
  unfold iterate
  cases left with
  | true =>
    cases hk
    exact ⟨_, rfl, ⟨rfl, rfl, rfl, hw⟩, hin⟩
  | false =>
    simp only [Bool.false_eq_true, if_false] at hk ⊢
    have hin' : ShortInput (scanInt stdin).2 := hin.suffix (scanInt_suffix stdin)
    by_cases hsel : IsCommand ((scanInt stdin).1.getD sel)
    · rw [if_pos hsel] at hk
      obtain ⟨⟨r, rest⟩, hr, hk⟩ := Option.bind_eq_some_iff.mp hk
      cases hk
      obtain ⟨op, hop, hserved, hhandle, hrest⟩ := command_of_request hw.menu hin' hl hsel hr
      obtain ⟨w', hw', hr'⟩ := select_represents hw.menu hserved hroom hsize
      simp only [hop, hw', Run.ret_bind]
      exact ⟨_, rfl, ⟨rfl, rfl, rfl, hhandle ▸ hr'⟩, hrest⟩
    · rw [if_neg hsel] at hk
      cases hk
      rw [command_of_not hsel]
      exact ⟨_, rfl, ⟨rfl, rfl, rfl, hw.menu⟩, hin'⟩

/-- The bounds of the directory after an iteration. -/
theorem Console.iterate_le {opens : Bool} (hk : k.iterate opens = some k') :
    k'.directory.room ≤ 2 * k.directory.room ∧ k'.directory.size ≤ k.directory.size + 1 := by
  have hsame : k.directory.room ≤ 2 * k.directory.room := Nat.le_mul_of_pos_left _ (by decide)
  unfold Console.iterate at hk
  by_cases hleft : k.left = true
  · rw [if_pos hleft] at hk
    cases hk
    exact ⟨hsame, Nat.le_succ _⟩
  rw [if_neg hleft] at hk
  simp only at hk
  split at hk
  · obtain ⟨⟨r, rest⟩, -, hk⟩ := Option.bind_eq_some_iff.mp hk
    cases hk
    exact ⟨k.directory.menu.room_handle_le r, k.directory.menu.size_handle_le r⟩
  · cases hk
    exact ⟨hsame, Nat.le_succ _⟩

/-- An iteration that the console has not: a word is missing. -/
theorem iterate_stuck (h : Same m k) (hk : k.iterate l.opens = none)
    (hm : iterate fuel l m = .ret m') : Stuck m' := by
  obtain ⟨stdin, sel, w, left⟩ := m
  obtain ⟨_, _, d, _⟩ := k
  obtain ⟨rfl, rfl, rfl, hw⟩ := h
  unfold Console.iterate at hk
  unfold iterate at hm
  cases left with
  | true => cases hk
  | false =>
    simp only [Bool.false_eq_true, if_false] at hk hm
    by_cases hsel : IsCommand ((scanInt stdin).1.getD sel)
    · rw [if_pos hsel] at hk
      have hmissing : d.menu.request l.opens ((scanInt stdin).1.getD sel) (scanInt stdin).2 = none := by
        by_contra hsome
        obtain ⟨x, hx⟩ := Option.ne_none_iff_exists'.mp hsome
        rw [hx] at hk
        cases hk
      obtain ⟨op, hop⟩ := command_of_no_request hw.menu hsel hmissing
      simp only [hop] at hm
      obtain ⟨w', -, hm⟩ := Run.bind_eq_ret.mp hm
      cases hm
      exact ⟨rfl, hsel, rfl⟩
    · rw [if_neg hsel] at hk
      cases hk

/-- At the end of the input, no command misses anything but its words. -/
theorem command_nil {sel : Int} (hsel : IsCommand sel) (l : Library) (w : World) :
    ∃ op, command l sel w [] = some (op, []) := by
  rcases hsel.cases with rfl | rfl | rfl | rfl | rfl | rfl
  · exact ⟨_, rfl⟩
  · exact ⟨_, rfl⟩
  · rw [command_delete]
    split <;> exact ⟨_, rfl⟩
  · exact ⟨_, rfl⟩
  · exact ⟨_, rfl⟩
  · exact ⟨_, rfl⟩

theorem Stuck.iterate (h : Stuck m) (hm : iterate fuel l m = .ret m') : Stuck m' := by
  obtain ⟨stdin, sel, w, left⟩ := m
  obtain ⟨rfl, hsel, rfl⟩ := h
  obtain ⟨op, hop⟩ := command_nil hsel l w.menu
  have hread : (scanInt []).1.getD sel = sel ∧ (scanInt []).2 = [] := ⟨rfl, rfl⟩
  unfold AddressBook.iterate at hm
  simp only [Bool.false_eq_true, if_false, hread, hop] at hm
  obtain ⟨w', -, hm⟩ := Run.bind_eq_ret.mp hm
  cases hm
  exact ⟨rfl, hsel, rfl⟩

/-- A run that is stuck does not leave the loop. -/
theorem Stuck.exec (h : Stuck m) (hm : exec (AddressBook.iterate fuel) ls m = .ret m') :
    m'.left = false := by
  have hstuck : Stuck m' := exec_invariant (P := fun _ _ => True)
    (fun _ _ _ hs _ hi => hs.iterate hi) h (along_of_mem fun _ _ => trivial) hm
  exact hstuck.left

/-- The iterations of `main` and of the console. -/
theorem exec_same (h : Same m k) (hin : ShortInput m.stdin)
    (hl : Along (iterate fuel) LibraryServes m ls)
    (hroom : k.directory.room * 2 ^ (ls.length + 1) ≤ fuel)
    (hsize : k.directory.size + ls.length ≤ intMax) :
    (∀ k', k.run (ls.map Library.opens) = some k' →
      ∃ m', exec (iterate fuel) ls m = .ret m' ∧ Same m' k') ∧
    (k.run (ls.map Library.opens) = none →
      ∀ m', exec (iterate fuel) ls m = .ret m' → m'.left = false) := by
  induction ls generalizing m k with
  | nil => exact ⟨fun k' hk => ⟨m, rfl, Option.some.inj hk ▸ h⟩, fun hk => by cases hk⟩
  | cons l ls ih =>
    obtain ⟨hserves, hrest⟩ := along_cons.mp hl
    rw [List.length_cons] at hroom hsize
    have hpow : k.directory.room * 2 ^ (ls.length + 1 + 1) =
        2 * k.directory.room * 2 ^ (ls.length + 1) := by
      rw [Nat.pow_succ 2 (ls.length + 1)]
      ac_rfl
    rw [hpow] at hroom
    have hdouble : 2 * k.directory.room ≤ fuel :=
      (Nat.le_mul_of_pos_right _ (Nat.two_pow_pos _)).trans hroom
    have hrun : k.run ((l :: ls).map Library.opens) =
        (k.iterate l.opens).bind fun k₁ => k₁.run (ls.map Library.opens) := rfl
    rw [hrun]
    cases hk : k.iterate l.opens with
    | none =>
      refine ⟨fun k' hk' => (by cases hk'), fun _ m' hm' => ?_⟩
      obtain ⟨m₁, h1, h2⟩ := Run.bind_eq_ret.mp hm'
      exact (iterate_stuck h hk h1).exec h2
    | some k₁ =>
      obtain ⟨m₁, h1, hsame, hin₁⟩ := iterate_same h hin hserves hdouble (by omega) hk
      obtain ⟨hroom₁, hsize₁⟩ := Console.iterate_le hk
      rw [Option.bind_some, exec_cons, h1, Run.ret_bind]
      exact ih hsame hin₁ (hrest m₁ h1) ((Nat.mul_le_mul_right _ hroom₁).trans hroom) (by omega)

/-- **What `main` does.** For every input without a word of more than 10 octets and every file of
records, `main` does what the console does: where the console comes to a state, `main` returns in that
state; where the console misses a word, `main` does not leave its loop. -/
theorem main_same {file : Option (List Byte)} {cs : Option (List Contact)} {stdin : List Byte}
    (hfile : FileHas file cs) (hin : ShortInput stdin) (hlen : ls.length ≤ intMax)
    (hfuel : (Directory.start cs).room * 2 ^ (ls.length + 1) ≤ fuel)
    (hl : Along (iterate fuel) LibraryServes (start file stdin) ls) :
    (∀ k, (Console.start cs stdin).run (ls.map Library.opens) = some k →
      ∃ m, exec (iterate fuel) ls (start file stdin) = .ret m ∧ Same m k) ∧
    ((Console.start cs stdin).run (ls.map Library.opens) = none →
      ∀ m, exec (iterate fuel) ls (start file stdin) = .ret m → m.left = false) := by
  have hstart : Same (start file stdin) (.start cs stdin) :=
    ⟨rfl, rfl, rfl, {}, [], rfl, ⟨holds_nil, rfl, rfl, hfile, rfl⟩⟩
  apply exec_same hstart hin hl hfuel
  simpa [Console.start, Directory.start] using hlen

/-- What the library functions return after the first iteration. -/
def library' : Library := { library with a := ⟨11, some 7, some 7⟩, addr := 21 }

theorem library'_serves (hnodes : ∀ a, a ≠ 10 → m.world.env.heap.nodes a = none)
    (hpersons : ∀ a, a ≠ 20 → m.world.env.heap.persons a = none)
    (hfront : ∀ c, m.world.contacts = some c → c.front ≠ none) : LibraryServes m library' where
  insert := ⟨hnodes 11 (by decide), hpersons 21 (by decide)⟩
  load := by
    have hne : ∀ i : Nat, 30 + i ≠ 10 ∧ 40 + i ≠ 20 := fun i => by omega
    exact ⟨fun i => ⟨hnodes (30 + i) (hne i).1, hpersons (40 + i) (hne i).2⟩,
      fun _ _ h => Nat.add_left_cancel h, fun _ _ h => Nat.add_left_cancel h⟩
  insert_null c hc hnull := absurd hnull (hfront c hc)
  load_null _ c hc hnull := absurd hnull (hfront c hc)

/-- With the input `1 b 1 2 7`, the contact `b` is added and printed, and the loop ends. -/
theorem main_same_sample :
    let stdin : List Byte := "1 b 1 2 7".toList.map fun c => .ofNat 8 c.toNat
    ∃ m, exec (iterate 16) [library, library', library'] (start none stdin) = .ret m ∧
      m.left = true ∧ .contact [98, 0] [49, 0] ∈ m.world.env.output := by
  intro stdin
  have hshort : ShortInput stdin := by
    intro word hword _
    have hlen := hword.length_le
    have hstdin : stdin.length = 9 := rfl
    unfold personPhoneLength
    omega
  have hl : Along (iterate 16) LibraryServes (start none stdin) [library, library', library'] := by
    refine ⟨⟨⟨rfl, rfl⟩, ⟨fun _ => ⟨rfl, rfl⟩, fun _ _ h => Nat.add_left_cancel h,
      fun _ _ h => Nat.add_left_cancel h⟩, fun _ _ _ => ⟨rfl, rfl⟩, fun _ _ _ _ => ⟨rfl, rfl⟩⟩,
      library'_serves ?_ ?_ ?_, library'_serves ?_ ?_ ?_, trivial⟩
    · exact fun a ha => Function.update_of_ne ha _ _
    · exact fun a ha => Function.update_of_ne ha _ _
    · intro c hc hnull
      cases hc
      cases hnull
    · exact fun a ha => Function.update_of_ne ha _ _
    · exact fun a ha => Function.update_of_ne ha _ _
    · intro c hc hnull
      cases hc
      cases hnull
  have hmain := main_same .none hshort (by decide) (by decide) hl
  obtain ⟨k, hk, hleft, houtput⟩ : ∃ k, (Console.start none stdin).run [true, true, true] = some k ∧
      k.left = true ∧ .contact [98, 0] [49, 0] ∈ k.directory.output := ⟨_, rfl, rfl, by decide⟩
  obtain ⟨m, hm, hsame⟩ := hmain.1 k hk
  obtain ⟨c, rs, -, hshows⟩ := hsame.represents
  exact ⟨m, hm, hsame.left.trans hleft, by rwa [hshows.output]⟩

end Loop

end AddressBook
end LinuxBase
