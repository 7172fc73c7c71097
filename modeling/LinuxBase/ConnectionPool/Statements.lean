import LinuxBase.ConnectionPool.Clients
import Mathlib.Data.List.Basic

/-!
# The statements of `mysqlInsert` (`test-connection-poll.cpp`)

`mysqlInsert` writes a name and a sex over the two `?` of `initSql`, one after the other. It looks for the
second `?` behind the place of the first, so in the name too. `std::string` throws where `find` has found
nothing; this is a `fault`.

* What `getRandomInt` returns in an iteration of a client is a `Draw`, and what `mysql_real_query` returns
  is a number. Both are open (`Chance`). What the server does with a statement is no part of the program.
* `Inserts` are the `Clients` with their variables (`Locals`). The pool is that of `Clients`; the calls
  without a pool (`connectionPool` is null) are commented out in `main`.

The names that are drawn are of letters, so the second `?` is found behind the name. In every interleaving
the strings add no fault to the runs of `Clients`, and each client has sent the statements of its draws,
in their order (`statements_sent`).
-/

namespace LinuxBase
namespace Pool
namespace Statements

/-! ## `std::string` -/

/-- `find(c, pos)`; none is `npos`. -/
def find (s : List Char) (c : Char) (pos : Nat) : Option Nat :=
  if c ∈ s.drop pos then some (pos + (s.drop pos).idxOf c) else none

/-- `replace(pos, n, t)`. -/
def replace (s : List Char) (pos n : Nat) (t : List Char) : Run (List Char) :=
  if pos ≤ s.length then .ret (s.take pos ++ t ++ s.drop (pos + n)) else .fault

/-! ## `mysqlInsert` -/

def initSql : List Char :=
  "insert into Y_user (`y_username`, `y_sex`) values (\"?\", \"?\")".toList

/-- What `getRandomInt` returns in an iteration: the length and the letters. -/
structure Draw where
  len : Nat
  letter : Nat → Nat
  len_mem : 4 ≤ len ∧ len ≤ 10
  letter_mem : ∀ j, 97 ≤ letter j ∧ letter j ≤ 122

/-- The letters that `getRandomResult` appends. -/
def Draw.name (d : Draw) : List Char := (List.range d.len).map fun j => Char.ofNat (d.letter j)

def Draw.sex (d : Draw) : List Char := if d.len % 2 = 0 then "woman".toList else "man".toList

/-- The draws of the clients in their iterations, and what `mysql_real_query` returns there. -/
structure Chance where
  draw : Client → Nat → Draw
  reply : Client → Nat → Int

/-- The strings of a client, what it has passed to `mysql_real_query`, and how many errors it has
printed. -/
structure Locals where
  sql : List Char := initSql
  name : List Char := []
  sex : List Char := []
  sent : List (Connection × List Char) := []
  errors : Nat := 0

def getRandomResult (d : Draw) (l : Locals) : Locals :=
  { l with name := l.name ++ d.name, sex := d.sex }

/-- The statement of an iteration; `index` is what the first `find` returned. -/
def Locals.write (index : Option Nat) (d : Draw) (l : Locals) : Run Locals := do
  let l := getRandomResult d l
  let index ← .ofOption index
  let sql ← replace l.sql index 1 l.name
  let pos ← .ofOption (find sql '?' index)
  let sql ← replace sql pos 1 l.sex
  .ret { l with sql }

/-- What the client `t` does with its variables in its next step. -/
def Locals.step (w : Chance) (t : Client) (x : Inserter) (l : Locals) : Run Locals :=
  match x.place with
  | .start => l.write (find initSql '?' 0) (w.draw t x.i)
  | .connected _ => .ret l
  | .returned c => .ret { l with sent := l.sent ++ [(c, l.sql)] }
  | .querying _ =>
    let errors := if w.reply t x.i ≠ 0 then l.errors + 1 else l.errors
    .ret { l with errors, name := [], sex := [], sql := initSql }

/-- The pool and its clients, with their variables. -/
structure Inserts where
  clients : Clients
  locals : Client → Locals := fun _ => {}

/-- One step of the client `t` in the loop of `mysqlInsert`. -/
def mysqlInsert (w : Chance) (t : Client) (now : Int) (s : Inserts) : Run Inserts := do
  let l ← (s.locals t).step w t (s.clients.thread t)
  let clients ← s.clients.mysqlInsert t now
  .ret { clients, locals := Function.update s.locals t l }

def step (w : Chance) : Clients.Event → Inserts → Run Inserts
  | .mysqlInsert t now, s => mysqlInsert w t now s
  | e, s => do
    let clients ← Clients.step e s.clients
    .ret { s with clients }

/-! ## Two places in a string -/

variable {xs ys zs name sex : List Char} {c : Char}

theorem find_append (xs : List Char) (h : c ∉ ys) (zs : List Char) :
    find (xs ++ (ys ++ c :: zs)) c xs.length = some (xs.length + ys.length) := by
  have hmem : c ∈ ys ++ c :: zs := List.mem_append_right _ List.mem_cons_self
  unfold find
  rw [List.drop_left, if_pos hmem, List.idxOf_append_of_notMem h, List.idxOf_cons_self, Nat.add_zero]

/-- The parts around the first `c` of two lists. -/
theorem eq_of_append_cons {zs' : List Char} (hx : c ∉ xs) (hy : c ∉ ys)
    (h : xs ++ c :: zs = ys ++ c :: zs') : xs = ys ∧ zs = zs' := by
  have hlen : xs.length = ys.length := by
    have hidx := congrArg (List.idxOf c) h
    rwa [List.idxOf_append_of_notMem hx, List.idxOf_append_of_notMem hy, List.idxOf_cons_self,
      List.idxOf_cons_self] at hidx
  obtain ⟨hxs, hcons⟩ := List.append_inj h hlen
  exact ⟨hxs, (List.cons.inj hcons).2⟩

theorem replace_append (xs : List Char) (c : Char) (zs t : List Char) :
    replace (xs ++ c :: zs) xs.length 1 t = .ret (xs ++ t ++ zs) := by
  have hroom : xs.length ≤ (xs ++ c :: zs).length := by rw [List.length_append]; omega
  have hdrop : (xs ++ c :: zs).drop (xs.length + 1) = zs := by
    rw [List.append_cons]
    exact List.drop_left' (by rw [List.length_append, List.length_singleton])
  rw [replace, if_pos hroom, List.take_left, hdrop]

/-! ## A statement -/

/-- `initSql` in front of the first `?`, between the two, and behind the second. -/
def front : List Char := "insert into Y_user (`y_username`, `y_sex`) values (\"".toList

def middle : List Char := "\", \"".toList

def back : List Char := "\")".toList

/-- The statement for a name and a sex. -/
def statement (name sex : List Char) : List Char := front ++ name ++ (middle ++ sex ++ back)

theorem initSql_eq : initSql = front ++ '?' :: (middle ++ '?' :: back) := by decide

theorem find_initSql : find initSql '?' 0 = some front.length := by decide

/-- The letters that are drawn. -/
theorem mem_name {d : Draw} (h : c ∈ d.name) : 97 ≤ c.toNat ∧ c.toNat ≤ 122 := by
  obtain ⟨j, -, rfl⟩ := List.mem_map.mp h
  obtain ⟨hlow, hhigh⟩ := d.letter_mem j
  have hvalid : (d.letter j).isValidChar := .inl (by omega)
  have hletter : (Char.ofNat (d.letter j)).toNat = d.letter j := by
    unfold Char.ofNat
    rw [dif_pos hvalid]
    rfl
  rw [hletter]
  exact ⟨hlow, hhigh⟩

/-- A character that is no letter is in no name. -/
theorem not_mem_name (d : Draw) (h : c.toNat < 97) : c ∉ d.name := by
  intro hmem
  have := (mem_name hmem).1
  omega

/-- The statement of a draw. -/
def Draw.statement (d : Draw) : List Char := Statements.statement d.name d.sex

/-- From empty strings, both places are found. -/
theorem write_eq {l : Locals} {d : Draw} (hsql : l.sql = initSql) (hname : l.name = []) :
    l.write (find initSql '?' 0) d =
      .ret { l with sql := d.statement, name := d.name, sex := d.sex } := by
  have hmiddle : '?' ∉ d.name ++ middle := by
    rw [List.mem_append, not_or]
    exact ⟨not_mem_name d (by decide), by decide⟩
  have hfirst : replace l.sql front.length 1 d.name =
      .ret (front ++ (d.name ++ middle ++ '?' :: back)) := by
    rw [hsql, initSql_eq, replace_append]
    simp only [List.append_assoc]
  have hsecond : replace (front ++ (d.name ++ middle ++ '?' :: back))
      (front.length + (d.name ++ middle).length) 1 d.sex = .ret d.statement := by
    rw [← List.append_assoc, ← List.length_append, replace_append]
    simp only [Draw.statement, statement, List.append_assoc]
  simp only [Locals.write, getRandomResult, hname, List.nil_append, find_initSql, Run.ofOption_some,
    Run.ret_bind, hfirst, find_append front hmiddle, hsecond]

theorem quote_not_mem_sex (d : Draw) : '"' ∉ d.sex := by
  unfold Draw.sex
  split <;> decide

/-- A statement has no other name and no other sex than those that were drawn. -/
theorem statement_inj {d d' : Draw} (h : d.statement = d'.statement) :
    d.name = d'.name ∧ d.sex = d'.sex := by
  have hmiddle : middle = '"' :: ", \"".toList := rfl
  have hback : back = '"' :: ")".toList := rfl
  have hquote : ('"' : Char).toNat < 97 := by decide
  simp only [Draw.statement, statement, List.append_assoc, List.append_cancel_left_eq, hmiddle, hback,
    List.cons_append] at h
  -- The name ends at the first quote, and the sex at the next but one.
  obtain ⟨hname, hrest⟩ := eq_of_append_cons (not_mem_name d hquote) (not_mem_name d' hquote) h
  rw [List.append_cancel_left_eq] at hrest
  exact ⟨hname, (eq_of_append_cons (quote_not_mem_sex d) (quote_not_mem_sex d') hrest).1⟩

/-! ## The runs -/

/-- How many queries a client has begun. -/
def begun (x : Inserter) : Nat :=
  match x.place with
  | .querying _ => x.i + 1
  | .start | .connected _ | .returned _ => x.i

/-- What a client has in its strings, has sent and has printed, where it is. -/
structure Of (w : Chance) (t : Client) (x : Inserter) (l : Locals) : Prop where
  start : x.place = .start → l.sql = initSql ∧ l.name = []
  written : x.place ≠ .start → l.sql = (w.draw t x.i).statement
  sent : l.sent.map Prod.snd = (List.range (begun x)).map fun i => (w.draw t i).statement
  errors : l.errors = (List.range x.i).countP fun i => w.reply t i ≠ 0

/-- A client goes round its loop. -/
inductive Goes : Inserter → Inserter → Prop
  | connect (i : Nat) (c : Connection) : Goes ⟨.start, i⟩ ⟨.connected c, i⟩
  | release (i : Nat) (c : Connection) : Goes ⟨.connected c, i⟩ ⟨.returned c, i⟩
  | query (i : Nat) (c : Connection) : Goes ⟨.returned c, i⟩ ⟨.querying c, i⟩
  | done (i : Nat) (c : Connection) : Goes ⟨.querying c, i⟩ ⟨.start, i + 1⟩

variable {w : Chance} {t u : Client} {x x' : Inserter} {l : Locals} {s : Inserts}
  {a a' : Clients} {now : Int}

theorem goes_of_mysqlInsert (hr : a.mysqlInsert t now = .ret a') :
    Goes (a.thread t) (a'.thread t) ∧ ∀ u, u ≠ t → a'.thread u = a.thread u := by
  have hm : Clients.Moves a (.mysqlInsert t now) a' := Clients.moves_of_step hr
  rcases hx : a.thread t with ⟨p, i⟩
  cases hm with
  | @take _ _ c q hp hq =>
    have hplace : p = .start := by rw [← hp, Clients.place, hx]
    refine ⟨?_, fun u hu => Function.update_of_ne hu _ _⟩
    simp only [Clients.move, Function.update_self, hx, hplace]
    exact .connect i c
  | @release _ _ c hp =>
    have hplace : p = .connected c := by rw [← hp, Clients.place, hx]
    refine ⟨?_, fun u hu => Function.update_of_ne hu _ _⟩
    simp only [Clients.move, Function.update_self, hx, hplace]
    exact .release i c
  | @query _ _ c hp =>
    have hplace : p = .returned c := by rw [← hp, Clients.place, hx]
    refine ⟨?_, fun u hu => Function.update_of_ne hu _ _⟩
    simp only [Clients.move, Function.update_self, hx, hplace]
    exact .query i c
  | @done _ _ c hp =>
    have hplace : p = .querying c := by rw [← hp, Clients.place, hx]
    refine ⟨?_, fun u hu => Function.update_of_ne hu _ _⟩
    simp only [Clients.next, Function.update_self, hx, hplace]
    exact .done i c

/-- A step of a client on its variables returns, wherever the client is. -/
theorem Of.step (h : Of w t x l) :
    ∃ l', l.step w t x = .ret l' ∧ ∀ x', Goes x x' → Of w t x' l' := by
  obtain ⟨p, i⟩ := x
  cases p with
  | start =>
    obtain ⟨hsql, hname⟩ := h.start rfl
    refine ⟨_, write_eq hsql hname, ?_⟩
    rintro _ ⟨_, _⟩
    exact ⟨nofun, fun _ => rfl, h.sent, h.errors⟩
  | connected c =>
    refine ⟨l, rfl, ?_⟩
    rintro _ ⟨_, _⟩
    exact ⟨nofun, fun _ => h.written nofun, h.sent, h.errors⟩
  | returned c =>
    refine ⟨_, rfl, ?_⟩
    rintro _ ⟨_, _⟩
    refine ⟨nofun, fun _ => h.written nofun, ?_, h.errors⟩
    have hsent := h.sent
    simp only [begun] at hsent
    rw [List.map_append, hsent, List.map_singleton, h.written nofun, begun, List.range_succ,
      List.map_append]
    rfl
  | querying c =>
    refine ⟨_, rfl, ?_⟩
    rintro _ ⟨_, _⟩
    refine ⟨fun _ => ⟨rfl, rfl⟩, fun hne => absurd rfl hne, h.sent, ?_⟩
    have herrors := h.errors
    simp only at herrors ⊢
    rw [List.range_succ, List.countP_append, ← herrors, List.countP_singleton]
    by_cases hreply : w.reply t i ≠ 0
    · rw [if_pos hreply, if_pos (decide_eq_true hreply)]
    · rw [if_neg hreply, if_neg (by simpa using hreply), Nat.add_zero]

/-- A step is one of the clients, and keeps the variables in order. -/
theorem step_rel (e : Clients.Event) (h : ∀ t, Of w t (s.clients.thread t) (s.locals t)) :
    Run.Rel (fun s a => s.clients = a ∧ ∀ t, Of w t (a.thread t) (s.locals t)) (step w e s)
      (Clients.step e s.clients) := by
  cases e with
  | mysqlInsert t now =>
    obtain ⟨l, hl, hof⟩ := (h t).step
    simp only [step, mysqlInsert, Clients.step, hl, Run.ret_bind]
    cases hr : s.clients.mysqlInsert t now with
    | ret a =>
      obtain ⟨hgoes, hothers⟩ := goes_of_mysqlInsert hr
      refine .ret ⟨rfl, fun u => ?_⟩
      by_cases hu : u = t
      · subst hu
        simp only [Function.update_self]
        exact hof _ hgoes
      · simp only [hothers u hu, Function.update_of_ne hu]
        exact h u
    | fault => exact .fault
    | more => exact .more
  | produceConnectionTask connected now => exact .ret ⟨rfl, h⟩
  | scannerConnectionTask clock =>
    simp only [step, Clients.step]
    cases s.clients.pool.scannerConnectionTask clock with
    | ret p => exact .ret ⟨rfl, h⟩
    | fault => exact .fault
    | more => exact .more

/-- The clients before their loops. -/
def begin (p : Pool) : Inserts := { clients := { pool := p } }

theorem exec_rel_begin (w : Chance) (p : Pool) (es : List Clients.Event) :
    Run.Rel (fun s a => s.clients = a ∧ ∀ t, Of w t (a.thread t) (s.locals t))
      (exec (step w) es (begin p)) (exec Clients.step es { pool := p }) := by
  have hbegin : ∀ t, Of w t (({ pool := p } : Clients).thread t) ((begin p).locals t) := fun _ =>
    ⟨fun _ => ⟨rfl, rfl⟩, fun hne => absurd rfl hne, rfl, rfl⟩
  refine exec_rel (P := fun _ _ => True) ?_ ⟨rfl, hbegin⟩ (along_of_mem fun _ _ => trivial)
  rintro s _ e ⟨rfl, h⟩ -
  exact step_rel e h

/-- **The statements.** Whatever is drawn and whatever the server answers, a run faults only where the
clients do without their strings, so no call of `std::string` throws. In every run, each client has
passed to `mysql_real_query` the statements of its draws, in their order, and has printed an error for
each query that failed. A statement determines its name and sex. -/
theorem statements_sent (w : Chance) (p : Pool) (es : List Clients.Event) :
    (exec (step w) es (begin p) = .fault ↔ exec Clients.step es { pool := p } = .fault) ∧
    (∀ s, exec (step w) es (begin p) = .ret s →
      exec Clients.step es { pool := p } = .ret s.clients ∧ ∀ t,
        (s.locals t).sent.map Prod.snd = (List.range (begun (s.clients.thread t))).map
          (fun i => (w.draw t i).statement) ∧
        (s.locals t).errors = (List.range (s.clients.thread t).i).countP
          fun i => w.reply t i ≠ 0) ∧
    ∀ d d' : Draw, d.statement = d'.statement → d.name = d'.name ∧ d.sex = d'.sex := by
  have hrel := exec_rel_begin w p es
  refine ⟨?_, fun s hs => ?_, fun d d' => statement_inj⟩
  · cases hs : exec (step w) es (begin p) <;> cases ha : exec Clients.step es { pool := p } <;>
      rw [hs, ha] at hrel <;> cases hrel <;> simp
  · rw [hs] at hrel
    cases ha : exec Clients.step es { pool := p } <;> rw [ha] at hrel <;> cases hrel
    rename_i a h
    exact ⟨by rw [h.1], fun t => h.1 ▸ ⟨(h.2 t).sent, (h.2 t).errors⟩⟩

/-- The clients with even numbers draw `aaaa`, the others `bbbbb`, and their queries fail. -/
def twoNames : Chance where
  draw t _ :=
    { len := 4 + t % 2
      letter := fun _ => 97 + t % 2
      len_mem := by omega
      letter_mem := fun _ => by omega }
  reply t _ := (t % 2 : Nat)

/-- Two clients are in a query on one connection. -/
def together : List Clients.Event :=
  [.mysqlInsert 0 0, .mysqlInsert 0 1, .mysqlInsert 1 2, .mysqlInsert 1 3, .mysqlInsert 1 4,
    .mysqlInsert 0 5, .mysqlInsert 1 6, .mysqlInsert 0 7]

theorem statements_sent_two :
    let p : Pool := { connectionQueue := [⟨0, true, 0⟩], connectionCount := 1, created := 1 }
    ∃ s, exec (step twoNames) together (begin p) = .ret s ∧
      (s.locals 0).sent.map Prod.snd = [(twoNames.draw 0 0).statement] ∧
      (s.locals 1).sent.map Prod.snd = [(twoNames.draw 1 0).statement] ∧
      (s.locals 0).errors = 0 ∧ (s.locals 1).errors = 1 := by
  intro p
  obtain ⟨a, ha, h0, h1⟩ : ∃ a, exec Clients.step together { pool := p } = .ret a ∧
      a.thread 0 = ⟨.start, 1⟩ ∧ a.thread 1 = ⟨.start, 1⟩ := ⟨_, rfl, rfl, rfl⟩
  obtain ⟨-, hsent, -⟩ := statements_sent twoNames p together
  obtain ⟨s, hs, -⟩ := (ha ▸ exec_rel_begin twoNames p together).of_ret
  obtain ⟨hclients, hlocals⟩ := hsent s hs
  cases ha.symm.trans hclients
  obtain ⟨hsent0, herrors0⟩ := hlocals 0
  obtain ⟨hsent1, herrors1⟩ := hlocals 1
  rw [h0] at hsent0 herrors0
  rw [h1] at hsent1 herrors1
  exact ⟨s, hs, hsent0, hsent1, herrors0, herrors1⟩

end Statements
end Pool
end LinuxBase
