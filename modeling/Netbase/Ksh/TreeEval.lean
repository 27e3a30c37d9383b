import Netbase.Ksh.Tree

/-!
# The climber on the words of a tree

On the text of a tree the climber consumes exactly its words and leaves the value of
the tree in a temporary.  This holds for trees without variables, and for every tree
while assignments are held back.  The cells that existed before, apart from the one of
the token the climber stands at, are left alone: no operand shares its temporary with
another.
-/

namespace Netbase.Ksh.Expr

open Netbase.Text Netbase.Lib

/-! ## Steps of the monad -/

theorem tokenNow_run (s : State) : tokenNow s = .ok s.es.tok s := rfl

theorem cellAt_run (p : Addr) (s : State) : cellAt p s = .ok (s.shell.cell p) s := rfl

theorem numberAt_run (p : Addr) (s : State) : numberAt p s = .ok (s.shell.cell p).number s := rfl

theorem get_run (s : State) : (get : ExprM State) s = .ok s s := rfl

theorem onShell_run (f : Shell → Shell) (s : State) :
    onShell f s = .ok () { s with shell := f s.shell } := rfl

theorem onState_run (f : ExprState → ExprState) (s : State) :
    onState f s = .ok () { s with es := f s.es } := rfl

theorem allocate_run (v : Var) (s : State) :
    allocate v s = .ok s.shell.next { s with shell := s.shell.alloc v } := rfl

theorem setNumber_run (p : Addr) (n : Long) (s : State) :
    setNumber p n s =
      .ok () { s with shell := s.shell.write p { s.shell.cell p with val := .i n } } := rfl

theorem cell_write (sh : Shell) (p q : Addr) (v : Var) :
    (sh.write p v).cell q = if q = p then v else sh.cell q := rfl

theorem cell_write_self (sh : Shell) (p : Addr) (v : Var) : (sh.write p v).cell p = v := by
  simp [cell_write]

theorem cell_write_ne (sh : Shell) {p q : Addr} (v : Var) (differ : q ≠ p) :
    (sh.write p v).cell q = sh.cell q := by
  simp [cell_write, differ]

theorem cell_alloc (sh : Shell) (q : Addr) (v : Var) :
    (sh.alloc v).cell q = if q = sh.next then v else sh.cell q := rfl

/-! ## Frames -/

/-- The cell of the token the climber stands at. -/
def heldCell (s : State) : Option Addr :=
  match s.es.tok with
  | .VAR | .LIT => some s.es.val
  | _ => none

/-- Nothing that existed before has changed, but for one cell. -/
structure Framed (s s' : State) (touched : Option Addr) : Prop where
  next : s.shell.next ≤ s'.shell.next
  cells : ∀ q, q < s.shell.next → touched ≠ some q → s'.shell.cell q = s.shell.cell q
  blocks : s'.shell.blocks = s.shell.blocks
  noassign : s'.es.noassign = s.es.noassign
  owner : s'.es.owner = s.es.owner
  evaling : s'.es.evaling = s.es.evaling
  expression : s'.es.expression = s.es.expression

theorem Framed.refl (s : State) (touched : Option Addr) : Framed s s touched where
  next := Nat.le_refl _
  cells _ _ _ := rfl
  blocks := rfl
  noassign := rfl
  owner := rfl
  evaling := rfl
  expression := rfl

variable {s s' : State} {n v : Long} {a : Addr} {rest : List Word}

variable {s'' : State} {tok : Token} {c : Byte} {p q : Nat}
  {result : EStateM.Result Stop State Addr}

theorem Framed.trans {touched later : Option Addr} (first : Framed s s' touched)
    (second : Framed s' s'' later)
    (within : ∀ q, later = some q → q < s.shell.next → touched = some q) :
    Framed s s'' touched where
  next := Nat.le_trans first.next second.next
  cells q old apart := by
    rw [second.cells q (Nat.lt_of_lt_of_le old first.next) (fun same => apart (within q same old)),
      first.cells q old apart]
  blocks := second.blocks.trans first.blocks
  noassign := second.noassign.trans first.noassign
  owner := second.owner.trans first.owner
  evaling := second.evaling.trans first.evaling
  expression := second.expression.trans first.expression

/-- One cell has been written and nothing else. -/
structure Updated (s s' : State) (p : Addr) : Prop where
  es : s'.es = s.es
  next : s'.shell.next = s.shell.next
  blocks : s'.shell.blocks = s.shell.blocks
  cells : ∀ q, q ≠ p → s'.shell.cell q = s.shell.cell q

theorem Updated.framed {p : Addr} (updated : Updated s s' p) :
    Framed s s' (some p) where
  next := Nat.le_of_eq updated.next.symm
  cells q _ apart := updated.cells q fun same => apart (by rw [same])
  blocks := updated.blocks
  noassign := by rw [updated.es]
  owner := by rw [updated.es]
  evaling := by rw [updated.es]
  expression := by rw [updated.es]

theorem setNumber_updates (p : Addr) (n : Long) (s : State) :
    ∃ s', setNumber p n s = .ok () s' ∧ Updated s s' p ∧
      s'.shell.cell p = { s.shell.cell p with val := .i n } := by
  refine ⟨_, setNumber_run p n s, ⟨rfl, rfl, rfl, ?_⟩, cell_write_self _ _ _⟩
  intro q differ
  exact cell_write_ne _ _ differ

/-- A temporary with a value; `lvalue` marks the stand-in of a variable. -/
structure Temp (v : Var) (n : Long) : Prop where
  name : v.name = []
  flag : v.flag = ISSET ||| INTEGER ∨ v.flag = ISSET ||| INTEGER ||| EXPRLVALUE
  type : v.type ≠ -1
  val : v.val = .i n

/-- A temporary that operators work on in place. -/
structure Plain (v : Var) (n : Long) : Prop where
  name : v.name = []
  flag : v.flag = ISSET ||| INTEGER
  type : v.type ≠ -1
  val : v.val = .i n

theorem Plain.temp {v : Var} (plain : Plain v n) : Temp v n :=
  ⟨plain.name, Or.inl plain.flag, plain.type, plain.val⟩

theorem Plain.number {v : Var} (plain : Plain v n) : v.number = n := by
  simp [Var.number, plain.val]

theorem Plain.set {v : Var} (plain : Plain v n) (m : Long) :
    Plain { v with val := .i m } m :=
  ⟨plain.name, plain.flag, plain.type, rfl⟩

theorem Temp.getint {v : Var} (temp : Temp v n) : getint v = some (v.type, n) := by
  have isset : has v.flag ISSET = true := by
    rcases temp.flag with flag | flag <;> rw [flag] <;> decide
  have integer : has v.flag INTEGER = true := by
    rcases temp.flag with flag | flag <;> rw [flag] <;> decide
  simp [Expr.getint, isset, integer, temp.type, Var.number, temp.val]

theorem intvar_temp (nested : Nested) (temp : Temp (s.shell.cell a) n) (inside : a < s.shell.next) :
    ∃ a' s', intvar nested a s = .ok a' s' ∧ Plain (s'.shell.cell a') n ∧
      Framed s s' none ∧ s'.es = s.es ∧ a' < s'.shell.next ∧
      (a' = a ∨ a' = s.shell.next) := by
  rcases temp.flag with flag | flag
  · refine ⟨a, s, ?_, ⟨temp.name, flag, temp.type, temp.val⟩, Framed.refl s none, rfl, inside,
      Or.inl rfl⟩
    have kept : (s.shell.cell a).name = [] ∧
        (s.shell.cell a).flag &&& (ISSET ||| INTEGER ||| EXPRLVALUE) = (ISSET ||| INTEGER) := by
      rw [flag]
      exact ⟨temp.name, by decide⟩
    unfold intvar
    rw [bind_ok (cellAt_run a s), if_pos kept]
    rfl
  · have copied : ¬ ((s.shell.cell a).name = [] ∧
        (s.shell.cell a).flag &&& (ISSET ||| INTEGER ||| EXPRLVALUE) = (ISSET ||| INTEGER)) := by
      rw [flag]
      rintro ⟨_, impossible⟩
      exact absurd impossible (by decide)
    have differ : a ≠ s.shell.next := Nat.ne_of_lt inside
    let v := temporary (ISSET ||| INTEGER) (.i 0)
    let sh := s.shell.alloc v
    have same : sh.cell a = s.shell.cell a := by
      simp [sh, cell_alloc, differ]
    have fresh : sh.cell s.shell.next = v := by simp [sh, cell_alloc]
    let v' : Var := { v with type := (s.shell.cell a).type, val := .i n }
    have set : setintV sh s.shell.next a = some (sh.write s.shell.next v') := by
      have flags : (if has (ISSET ||| INTEGER) INTEGER = true then ISSET ||| INTEGER
          else (ISSET ||| INTEGER) &&& ~~~ALLOC) ||| (ISSET ||| INTEGER) = ISSET ||| INTEGER := by
        decide
      unfold setintV
      rw [same, temp.getint, fresh]
      simp only [v, v', temporary, flags, if_true]
    refine ⟨s.shell.next, { s with shell := sh.write s.shell.next v' }, ?_, ?_, ?_, rfl, ?_,
      Or.inr rfl⟩
    · unfold intvar
      rw [bind_ok (cellAt_run a s), if_neg copied]
      unfold tempvar
      rw [bind_ok (allocate_run v s), bind_ok (get_run _)]
      simp only
      rw [show s.shell.alloc v = sh from rfl, set]
      rfl
    · rw [cell_write_self]
      exact ⟨rfl, rfl, temp.type, rfl⟩
    · exact
        { next := Nat.le_succ _
          cells := by
            intro q old _
            rw [cell_write_ne _ _ (Nat.ne_of_lt old)]
            simp [sh, cell_alloc, Nat.ne_of_lt old]
          blocks := rfl, noassign := rfl, owner := rfl, evaling := rfl, expression := rfl }
    · exact Nat.lt_succ_self _

/-! ## Tokens of words -/

/-- The operators of the table. -/
def Token.Ordinary (tok : Token) : Prop := tok.spelling ≠ []

instance (tok : Token) : Decidable tok.Ordinary := inferInstanceAs (Decidable (_ ≠ _))

/-- The climber stands at a word. -/
def Shows (s : State) : Word → Prop
  | .op tok => s.es.tok = tok ∧ tok.Ordinary
  | .num n =>
      s.es.tok = .LIT ∧ s.es.val < s.shell.next ∧
        Plain (s.shell.cell s.es.val) (BitVec.ofNat 64 n)
  | .name _ =>
      s.es.tok = .VAR ∧ s.es.val < s.shell.next ∧
        s.shell.cell s.es.val = temporary (ISSET ||| INTEGER ||| EXPRLVALUE) (.i 0)

/-- The climber stands at the first of some words, with the others still to read. -/
def Facing (s : State) : List Word → Prop
  | [] => s.es.tok = .END ∧ s.es.tokp = []
  | w :: rest => Shows s w ∧ s.es.tokp = spell rest

theorem spell_cons (w : Word) (rest : List Word) :
    spell (w :: rest) = byte ' ' :: (w.spelling ++ spell rest) := by
  simp [spell]

/-- What follows a word in a text: nothing, or a blank. -/
def Apart (rest : List Byte) : Prop := rest = [] ∨ ∃ more, rest = byte ' ' :: more

theorem spell_apart (words : List Word) : Apart (spell words) := by
  cases words with
  | nil => exact Or.inl rfl
  | cons w rest => exact Or.inr ⟨_, spell_cons w rest⟩

theorem findOp_spelling (ordinary : tok.Ordinary) {rest : List Byte} (apart : Apart rest) :
    findOp (tok.spelling ++ rest) = some (tok, tok.info) := by
  rcases apart with rfl | ⟨more, rfl⟩
  · cases tok <;> first | rfl | exact absurd rfl ordinary
  · cases tok <;> first | rfl | exact absurd rfl ordinary

/-- A spelled operator starts with a character of its own kind. -/
theorem spelling_first (ordinary : tok.Ordinary) :
    ∃ c rest, tok.spelling = c :: rest ∧ isspace c = false ∧ letter c = false ∧
      digit c = false := by
  cases tok <;>
    first
    | exact ⟨_, _, rfl, by decide, by decide, by decide⟩
    | exact absurd rfl ordinary

/-- Texts that differ in their leading blanks only. -/
def SameWords (text text' : List Byte) : Prop :=
  text.dropWhile isspace = text'.dropWhile isspace

theorem token_op (ordinary : tok.Ordinary) (owner : s.es.owner = none)
    (text : SameWords s.es.tokp (spell (.op tok :: rest))) :
    token s = .ok () { s with es := { s.es with tok := tok, tokp := spell rest } } := by
  obtain ⟨c, more, first, notSpace, notLetter, notDigit⟩ := spelling_first ordinary
  have found := findOp_spelling ordinary (spell_apart rest)
  have skipped : s.es.tokp.dropWhile isspace = c :: (more ++ spell rest) := by
    rw [show _ = _ from text, spell_cons]
    show (byte ' ' :: (tok.spelling ++ spell rest)).dropWhile isspace = _
    rw [first, List.cons_append, List.dropWhile_cons_of_pos (by decide),
      List.dropWhile_cons_of_neg (by simp [notSpace])]
  unfold token
  rw [bind_ok (get_run s)]
  have readable : readable s = true := by
    unfold Expr.readable
    rw [owner]
  simp only [readable, Bool.not_true, Bool.false_eq_true, if_false, skipped, notLetter, notDigit]
  unfold opToken
  rw [← List.cons_append, ← first, found]
  simp only [onState_run, Token.spelling, List.drop_left]

/-- What the tokenizer and the number reader see in a decimal digit. -/
structure IsDigitByte (c : Byte) : Prop where
  notSharp : c ≠ byte '#'
  letnum : letnum c = true
  value : digitValue c = some (c.toNat - 48)
  small : c.toNat - 48 < 10
  numberChar : numberChar c = true
  digit : digit c = true
  notLetter : letter c = false
  notSpace : isspace c = false
  notMinus : c ≠ 45
  notX : c ≠ 120

theorem isDigitByte_of_isdigit (isDigit : isdigit c = true) : IsDigitByte c := by
  have facts : c ≠ byte '#' ∧ letnum c = true ∧ digitValue c = some (c.toNat - 48) ∧
      c.toNat - 48 < 10 ∧ numberChar c = true ∧ digit c = true ∧ letter c = false ∧
      isspace c = false ∧ c ≠ 45 ∧ c ≠ 120 := by
    revert c
    apply forall_byte
    decide +kernel
  obtain ⟨h1, h2, h3, h4, h5, h6, h7, h8, h9, h10⟩ := facts
  exact ⟨h1, h2, h3, h4, h5, h6, h7, h8, h9, h10⟩

theorem getintLoop_digits {digits : List Byte} (allDigits : ∀ b ∈ digits, isdigit b = true) :
    ∀ value : Nat, getintLoop 10 false (BitVec.ofNat 64 value) digits =
      some (10, BitVec.ofNat 64 (digitsValue value digits)) := by
  induction digits with
  | nil => intro value; rfl
  | cons c digits ih =>
      intro value
      have this := allDigits c List.mem_cons_self
      have facts := isDigitByte_of_isdigit this
      have small := facts.small
      have step : BitVec.ofNat 64 value * BitVec.ofInt 64 10 + BitVec.ofNat 64 (c.toNat - 48) =
          BitVec.ofNat 64 (10 * value + (c.toNat - 48)) := by
        rw [Nat.mul_comm, BitVec.ofNat_add, BitVec.ofNat_mul]
        rfl
      rw [getintLoop, if_neg facts.notSharp, if_pos facts.letnum, facts.value]
      simp only
      rw [if_neg (by omega), step, digitsValue, if_pos this]
      exact ih (fun b member => allDigits b (List.mem_cons_of_mem _ member)) _

theorem getintText_decimal (n : Nat) :
    getintText (decimal n) = some (10, BitVec.ofNat 64 n) := by
  have allDigits := isdigit_of_mem_decimal n
  have whole : getintLoop 10 false 0 (decimal n) = some (10, BitVec.ofNat 64 n) := by
    have run := getintLoop_digits allDigits 0
    rw [digitsValue_decimal] at run
    exact run
  have unsigned : getintUnsigned (decimal n) = getintLoop 10 false 0 (decimal n) := by
    unfold getintUnsigned
    split
    · next rest shape =>
        have isX := allDigits 120 (by rw [shape]; simp)
        exact absurd rfl (isDigitByte_of_isdigit isX).notX
    · rfl
  unfold getintText
  split
  · next rest shape =>
      have isMinus := allDigits 45 (by rw [shape]; simp)
      exact absurd rfl (isDigitByte_of_isdigit isMinus).notMinus
  · rw [unsigned, whole]

theorem takeWhile_apart {p : Byte → Bool} {word rest : List Byte} (all : ∀ c ∈ word, p c = true)
    (apart : Apart rest) (blank : p (byte ' ') = false) :
    (word ++ rest).takeWhile p = word ∧ (word ++ rest).dropWhile p = rest := by
  rw [List.takeWhile_append_of_pos all, List.dropWhile_append_of_pos all]
  rcases apart with rfl | ⟨more, rfl⟩
  · simp
  · rw [List.takeWhile_cons_of_neg (by simp [blank]), List.dropWhile_cons_of_neg (by simp [blank])]
    simp

/-- The cell of a decimal literal. -/
def litCell (n : Nat) : Var :=
  { name := [], flag := ISSET ||| INTEGER, type := 10, val := .i (BitVec.ofNat 64 n), index := 0
    field := 0, array := none, stored := 0 }

theorem litCell_plain (n : Nat) : Plain (litCell n) (BitVec.ofNat 64 n) :=
  ⟨rfl, rfl, by simp [litCell], rfl⟩

theorem dropWhile_blank (notSpace : isspace c = false) (rest : List Byte) :
    (byte ' ' :: c :: rest).dropWhile isspace = c :: rest := by
  rw [List.dropWhile_cons_of_pos (by decide), List.dropWhile_cons_of_neg (by simp [notSpace])]

theorem readable_of_owner (owner : s.es.owner = none) : readable s = true := by
  unfold readable
  rw [owner]

theorem token_num {n : Nat} (owner : s.es.owner = none)
    (text : SameWords s.es.tokp (spell (.num n :: rest))) :
    token s = .ok ()
      { shell := (s.shell.alloc (temporary ISSET (.s (decimal n)))).write s.shell.next (litCell n)
        es := { s.es with tok := .LIT, val := s.shell.next, tokp := spell rest } } := by
  have allDigits := isdigit_of_mem_decimal n
  obtain ⟨c, more, shape⟩ : ∃ c more, decimal n = c :: more := by
    cases shape : decimal n with
    | nil => exact absurd shape (decimal_ne_nil n)
    | cons c more => exact ⟨c, more, rfl⟩
  have facts := isDigitByte_of_isdigit (allDigits c (by rw [shape]; simp))
  have skipped : s.es.tokp.dropWhile isspace = c :: (more ++ spell rest) := by
    rw [show _ = _ from text, spell_cons]
    show (byte ' ' :: (decimal n ++ spell rest)).dropWhile isspace = _
    rw [shape, List.cons_append, dropWhile_blank facts.notSpace]
  obtain ⟨taken, dropped⟩ := takeWhile_apart
    (fun b member => (isDigitByte_of_isdigit (allDigits b member)).numberChar)
    (spell_apart rest) (by decide)
  have flags : (if has ISSET INTEGER = true then ISSET else ISSET &&& ~~~ALLOC) |||
      (ISSET ||| INTEGER) = ISSET ||| INTEGER := by decide
  let v := temporary ISSET (.s (decimal n))
  have fresh : (s.shell.alloc v).cell s.shell.next = v := by simp [cell_alloc]
  have number : getint v = some (10, BitVec.ofNat 64 n) := by
    have set : (!has ISSET ISSET) = false := by decide
    have notInteger : has ISSET INTEGER = false := by decide
    simp only [v, temporary, getint, set, notInteger, Var.text, Int.toNat_zero, List.drop_zero,
      Bool.false_eq_true, if_false]
    exact getintText_decimal n
  have set : setintV (s.shell.alloc v) s.shell.next s.shell.next =
      some ((s.shell.alloc v).write s.shell.next (litCell n)) := by
    unfold setintV
    rw [fresh, number]
    simp only [v, temporary, flags, if_true]
    rfl
  unfold token
  rw [bind_ok (get_run s)]
  simp only [readable_of_owner owner, Bool.not_true, Bool.false_eq_true, if_false, skipped,
    facts.notLetter, facts.digit, if_true]
  unfold litToken
  rw [← List.cons_append, ← shape]
  simp only [taken, dropped]
  rw [bind_ok (allocate_run v s), bind_ok (onState_run _ _), bind_ok (get_run _)]
  simp only [set]
  rfl

/-- What the tokenizer sees in the characters of a name. -/
theorem letter_facts (isLetter : letter c = true) : isspace c = false := by
  revert c
  apply forall_byte
  decide +kernel

/-- A name is a stand-in while assignments are held back, and a variable otherwise. -/
theorem token_letters {x : VarName} (owner : s.es.owner = none)
    (text : SameWords s.es.tokp (spell (.name x :: rest))) :
    token s =
      if s.es.noassign ≠ 0 then
        .ok ()
          { shell := s.shell.alloc (temporary (ISSET ||| INTEGER ||| EXPRLVALUE) (.i 0))
            es := { s.es with tok := .VAR, val := s.shell.next, tokp := spell rest } }
      else
        .ok ()
          { shell := (global s.shell x.val).2
            es := { s.es with tok := .VAR, val := (global s.shell x.val).1, tokp := spell rest } } := by
  obtain ⟨c, more, shape, isLetter⟩ := x.property.first
  have skipped : s.es.tokp.dropWhile isspace = c :: (more ++ spell rest) := by
    rw [show _ = _ from text, spell_cons]
    show (byte ' ' :: (x.val ++ spell rest)).dropWhile isspace = _
    rw [shape, List.cons_append, dropWhile_blank (letter_facts isLetter)]
  obtain ⟨taken, dropped⟩ := takeWhile_apart x.property.rest (spell_apart rest)
    (show letnum (byte ' ') = false by decide)
  have noBracket : (spell rest).head? ≠ some (byte '[') := by
    rcases spell_apart rest with empty | ⟨after, shape⟩
    · rw [empty]
      simp
    · rw [shape, List.head?_cons]
      decide
  unfold token
  rw [bind_ok (get_run s)]
  simp only [readable_of_owner owner, Bool.not_true, Bool.false_eq_true, if_false, skipped,
    isLetter, if_true]
  unfold varToken
  rw [← List.cons_append, ← shape]
  simp only [dropped, taken, noBracket, false_and, if_false]
  rw [bind_ok (get_run s)]
  by_cases held : s.es.noassign ≠ 0
  · rw [if_pos held, if_pos held, bind_ok (allocate_run _ s)]
    simp only [onState_run, List.drop_zero]
  · rw [if_neg held, if_neg held]
    rfl

theorem token_name {x : VarName} (owner : s.es.owner = none) (held : s.es.noassign ≠ 0)
    (text : SameWords s.es.tokp (spell (.name x :: rest))) :
    token s = .ok ()
      { shell := s.shell.alloc (temporary (ISSET ||| INTEGER ||| EXPRLVALUE) (.i 0))
        es := { s.es with tok := .VAR, val := s.shell.next, tokp := spell rest } } := by
  rw [token_letters owner text, if_pos held]

structure Moved (s s' : State) (words : List Word) : Prop where
  facing : Facing s' words
  frame : Framed s s' none
  fresh : ∀ b, heldCell s' = some b → s.shell.next ≤ b

theorem heldCell_op (same : s.es.tok = tok) (ordinary : tok.Ordinary) :
    heldCell s = none := by
  rw [heldCell, same]
  cases tok <;> first | rfl | exact absurd rfl ordinary

theorem heldCell_lt {words : List Word} (facing : Facing s words) {b : Addr}
    (held : heldCell s = some b) : b < s.shell.next := by
  cases words with
  | nil =>
      rw [heldCell, facing.1] at held
      cases held
  | cons w rest =>
      cases w with
      | op tok =>
          obtain ⟨⟨same, ordinary⟩, _⟩ := facing
          rw [heldCell_op same ordinary] at held
          cases held
      | num n =>
          obtain ⟨⟨same, inside, _⟩, _⟩ := facing
          rw [heldCell, same] at held
          cases held
          exact inside
      | name x =>
          obtain ⟨⟨same, inside, _⟩, _⟩ := facing
          rw [heldCell, same] at held
          cases held
          exact inside

/-- A word the tokenizer reads as it is meant. -/
def Legible (s : State) : Word → Prop
  | .op tok => tok.Ordinary
  | .num _ => True
  | .name _ => s.es.noassign ≠ 0

theorem token_moves_skipping (words : List Word) (owner : s.es.owner = none)
    (text : SameWords s.es.tokp (spell words)) (legible : ∀ w, words.head? = some w → Legible s w) :
    ∃ s', token s = .ok () s' ∧ Moved s s' words := by
  cases words with
  | nil =>
      refine ⟨{ s with es := { s.es with tok := .END, tokp := [] } }, ?_, ⟨rfl, rfl⟩, ?_, ?_⟩
      · have empty : s.es.tokp.dropWhile isspace = [] := by
          rw [show _ = _ from text]
          rfl
        unfold token
        rw [bind_ok (get_run s)]
        simp only [readable_of_owner owner, Bool.not_true, Bool.false_eq_true, if_false, empty]
        rfl
      · exact
          { next := Nat.le_refl _, cells := fun _ _ _ => rfl, blocks := rfl, noassign := rfl
            owner := rfl, evaling := rfl, expression := rfl }
      · intro b impossible
        cases impossible
  | cons w rest =>
      have this := legible w rfl
      cases w with
      | op tok =>
          refine ⟨_, token_op this owner text, ⟨⟨rfl, this⟩, rfl⟩, ?_, ?_⟩
          · exact
              { next := Nat.le_refl _, cells := fun _ _ _ => rfl, blocks := rfl, noassign := rfl
                owner := rfl, evaling := rfl, expression := rfl }
          · intro b held
            rw [heldCell_op (show _ = tok from rfl) this] at held
            cases held
      | num n =>
          refine ⟨_, token_num owner text, ⟨⟨rfl, Nat.lt_succ_self _, ?_⟩, rfl⟩, ?_, ?_⟩
          · rw [cell_write_self]
            exact litCell_plain n
          · exact
              { next := Nat.le_succ _
                cells := by
                  intro q old _
                  rw [cell_write_ne _ _ (Nat.ne_of_lt old), cell_alloc,
                    if_neg (Nat.ne_of_lt old)]
                blocks := rfl, noassign := rfl, owner := rfl, evaling := rfl
                expression := rfl }
          · intro b held
            cases held
            exact Nat.le_refl _
      | name x =>
          refine ⟨_, token_name owner this text, ⟨⟨rfl, Nat.lt_succ_self _, ?_⟩, rfl⟩, ?_, ?_⟩
          · simp [cell_alloc]
          · exact
              { next := Nat.le_succ _
                cells := by
                  intro q old _
                  rw [cell_alloc, if_neg (Nat.ne_of_lt old)]
                blocks := rfl, noassign := rfl, owner := rfl, evaling := rfl
                expression := rfl }
          · intro b held
            cases held
            exact Nat.le_refl _

theorem token_moves (words : List Word) (owner : s.es.owner = none) (text : s.es.tokp = spell words)
    (legible : ∀ w, words.head? = some w → Legible s w) :
    ∃ s', token s = .ok () s' ∧ Moved s s' words :=
  token_moves_skipping words owner (congrArg _ text) legible

/-! ## Climbing -/

/-- An evaluation from `s` to `s'` has consumed an operand with value `v`, left at `a`,
and stands at the words behind it. -/
structure Yields (s s' : State) (a : Addr) (v : Long) (rest : List Word) : Prop where
  facing : Facing s' rest
  frame : Framed s s' (heldCell s)
  fresh : ∀ b, heldCell s' = some b → s.shell.next ≤ b
  inside : a < s'.shell.next
  new : s.shell.next ≤ a ∨ heldCell s = some a
  apart : heldCell s' ≠ some a
  temp : Temp (s'.shell.cell a) v

/-- The words behind an operand do not belong to it at precedence `p`. -/
def Stops (p : Nat) (rest : List Word) : Prop :=
  ∀ w, rest.head? = some w → ∃ tok, w = .op tok ∧ tok.Ordinary ∧ tok.isPpmm = false ∧
    (tok.isBinop = true → p < tok.prec)

theorem Stops.weaken (stops : Stops q rest) (le : p ≤ q) :
    Stops p rest := by
  intro w first
  obtain ⟨tok, same, ordinary, notPpmm, looser⟩ := stops w first
  exact ⟨tok, same, ordinary, notPpmm, fun binop => Nat.lt_of_le_of_lt le (looser binop)⟩

theorem Stops.legible (stops : Stops p rest) (s : State) :
    ∀ w, rest.head? = some w → Legible s w := by
  intro w first
  obtain ⟨tok, rfl, ordinary, _⟩ := stops w first
  exact ordinary

theorem Stops.token_facts (stops : Stops p rest) (facing : Facing s rest) :
    s.es.tok.isPpmm = false ∧ (s.es.tok.isBinop = true → p < s.es.tok.prec) := by
  cases rest with
  | nil =>
      rw [facing.1]
      exact ⟨rfl, by intro impossible; cases impossible⟩
  | cons w rest =>
      obtain ⟨tok, rfl, ordinary, notPpmm, looser⟩ := stops w rfl
      rw [facing.1.1]
      exact ⟨notPpmm, looser⟩

theorem evalLoop_exit (nested : Nested) {fuel : Nat} (a : Addr)
    (leaves : (s.es.tok.isBinop && decide (s.es.tok.prec = q)) = false) :
    evalLoop nested (fuel + 1) q a s = .ok a s := by
  rw [evalLoop, bind_ok (tokenNow_run s)]
  simp only [leaves, Bool.not_false, if_true]
  rfl

theorem Stops.leaves (stops : Stops p rest) (facing : Facing s rest) (le : q ≤ p) :
    (s.es.tok.isBinop && decide (s.es.tok.prec = q)) = false := by
  obtain ⟨_, looser⟩ := stops.token_facts facing
  cases binop : s.es.tok.isBinop with
  | false => rfl
  | true =>
      have := looser binop
      rw [Bool.true_and, decide_eq_false_iff_not]
      omega

/-- The result of evaluating an operand: its value, or a stop. -/
def Outcome (worth : Option Long) (result : EStateM.Result Stop State Addr) (s : State)
    (rest : List Word) : Prop :=
  match worth with
  | some v => ∃ a s', result = .ok a s' ∧ Yields s s' a v rest
  | none => ∃ stop s', result = .error stop s'

theorem Outcome.value {worth : Option Long} (known : worth = some v) (run : result = .ok a s')
    (yields : Yields s s' a v rest) :
    Outcome worth result s rest := by
  rw [known]
  exact ⟨a, s', run, yields⟩

theorem Outcome.stopped {worth : Option Long} {stop : Stop} (known : worth = none)
    (run : result = .error stop s') :
    Outcome worth result s rest := by
  rw [known]
  exact ⟨stop, s', run⟩

theorem Outcome.split {worth : Option Long} (outcome : Outcome worth result s rest) :
    (∃ v a s', worth = some v ∧ result = .ok a s' ∧ Yields s s' a v rest) ∨
      worth = none ∧ ∃ stop s', result = .error stop s' := by
  cases worth with
  | none => exact Or.inr ⟨rfl, outcome⟩
  | some v =>
      obtain ⟨a, s', run, yields⟩ := outcome
      exact Or.inl ⟨v, a, s', rfl, run, yields⟩

/-- What is asked of the state an operand is evaluated in. -/
structure Entry (lit : Prop) (s : State) : Prop where
  owner : s.es.owner = none
  safe : lit ∨ s.es.noassign ≠ 0

/-- At precedence `p` the climber reads exactly these words, with this value. -/
def Reads (nested : Nested) (lit : Prop) (worth : Bool → Option Long) (words : List Word)
    (p : Nat) : Prop :=
  ∀ (fuel : Nat) (s : State) (rest : List Word), 16 * words.length + p + 2 ≤ fuel →
    Entry lit s → Stops p rest → Facing s (words ++ rest) →
      Outcome (worth (s.es.noassign != 0)) (evalexpr nested fuel p s) s rest

section Climbing

variable {nested : Nested} {lit : Prop} {worth : Bool → Option Long} {words : List Word}

variable {p : Nat}

theorem Reads.climb (reads : Reads nested lit worth words p) :
    Reads nested lit worth words (p + 1) := by
  intro fuel s rest enough entry stops facing
  obtain ⟨more, rfl⟩ : ∃ more, fuel = more + 2 := ⟨fuel - 2, by omega⟩
  have inner := reads (more + 1) s rest (by omega) entry (stops.weaken (Nat.le_succ p)) facing
  rw [evalexpr]
  rcases inner.split with ⟨v, a, s', value, run, yields⟩ | ⟨value, stop, s', run⟩
  · refine Outcome.value value ?_ yields
    rw [bind_ok run]
    exact evalLoop_exit nested a (stops.leaves yields.facing (Nat.le_refl _))
  · exact Outcome.stopped value (bind_error run)

theorem Reads.climb_to {q : Nat} (reads : Reads nested lit worth words p) (le : p ≤ q) :
    Reads nested lit worth words q := by
  induction q, le using Nat.le_induction with
  | base => exact reads
  | succ q _ ih => exact ih.climb

/-- At precedence `q` the climber reaches its loop with these words read. -/
def LoopReads (nested : Nested) (lit : Prop) (worth : Bool → Option Long) (words : List Word)
    (q : Nat) : Prop :=
  ∀ (fuel : Nat) (s : State) (rest : List Word), 16 * words.length + q + 2 ≤ fuel →
    Entry lit s → Stops (q - 1) rest → Facing s (words ++ rest) →
      match worth (s.es.noassign != 0) with
      | some v => ∃ fuel' a s', evalexpr nested fuel q s = evalLoop nested fuel' q a s' ∧
          Yields s s' a v rest ∧ fuel ≤ fuel' + words.length
      | none => ∃ stop s', evalexpr nested fuel q s = .error stop s'

theorem Reads.loop (reads : Reads nested lit worth words p) (nonempty : words ≠ []) :
    LoopReads nested lit worth words (p + 1) := by
  intro fuel s rest enough entry stops facing
  have positive := List.length_pos_of_ne_nil nonempty
  obtain ⟨more, rfl⟩ : ∃ more, fuel = more + 1 := ⟨fuel - 1, by omega⟩
  have inner := reads more s rest (by omega) entry stops facing
  rw [evalexpr]
  rcases inner.split with ⟨v, a, s', value, run, yields⟩ | ⟨value, stop, s', run⟩
  · rw [value]
    exact ⟨more, a, s', bind_ok run, yields, by omega⟩
  · rw [value]
    exact ⟨stop, s', bind_error run⟩

theorem LoopReads.reads {q : Nat} (loop : LoopReads nested lit worth words q) :
    Reads nested lit worth words q := by
  intro fuel s rest enough entry stops facing
  have inner := loop fuel s rest enough entry (stops.weaken (Nat.sub_le q 1)) facing
  cases value : worth (s.es.noassign != 0) with
  | none =>
      rw [value] at inner
      obtain ⟨stop, s', run⟩ := inner
      exact Outcome.stopped rfl run
  | some v =>
      rw [value] at inner
      obtain ⟨fuel', a, s', run, yields, left⟩ := inner
      obtain ⟨more, rfl⟩ : ∃ more, fuel' = more + 1 := ⟨fuel' - 1, by omega⟩
      refine Outcome.value rfl ?_ yields
      rw [run]
      exact evalLoop_exit nested a (stops.leaves yields.facing (Nat.le_refl _))

end Climbing

/-! ## Composing evaluations -/

theorem Framed.widen (framed : Framed s s' none) (touched : Option Addr) :
    Framed s s' touched :=
  { framed with cells := fun q old _ => framed.cells q old (by simp) }

/-- A token read before an operand belongs to its evaluation. -/
theorem Yields.after {words rest : List Word} (moved : Moved s s' words)
    (yields : Yields s' s'' a v rest) : Yields s s'' a v rest where
  facing := yields.facing
  frame := by
    refine (moved.frame.widen _).trans yields.frame ?_
    intro q held old
    exact absurd (moved.fresh q held) (Nat.not_le_of_lt old)
  fresh b held := Nat.le_trans moved.frame.next (yields.fresh b held)
  inside := yields.inside
  new := by
    rcases yields.new with new | held
    · exact Or.inl (Nat.le_trans moved.frame.next new)
    · exact Or.inl (moved.fresh a held)
  apart := yields.apart
  temp := yields.temp

/-- Reading the token behind an operand keeps its value. -/
theorem Yields.step {words rest : List Word} (yields : Yields s s' a v words)
    (moved : Moved s' s'' rest) : Yields s s'' a v rest where
  facing := moved.facing
  frame := yields.frame.trans moved.frame (by simp)
  fresh b held := Nat.le_trans yields.frame.next (moved.fresh b held)
  inside := Nat.lt_of_lt_of_le yields.inside moved.frame.next
  new := yields.new
  apart held := by
    exact Nat.not_le_of_lt yields.inside (moved.fresh a held)
  temp := by
    rw [moved.frame.cells a yields.inside (by simp)]
    exact yields.temp

theorem heldCell_congr (same : s'.es = s.es) : heldCell s' = heldCell s := by
  unfold heldCell
  rw [same]

theorem Facing.congr {words : List Word} (facing : Facing s words) (same : s'.es = s.es)
    (next : s.shell.next ≤ s'.shell.next)
    (cell : ∀ b, heldCell s = some b → s'.shell.cell b = s.shell.cell b) : Facing s' words := by
  cases words with
  | nil =>
      rw [Facing, same]
      exact facing
  | cons w rest =>
      refine ⟨?_, by rw [same]; exact facing.2⟩
      cases w with
      | op tok =>
          rw [Shows, same]
          exact facing.1
      | num n =>
          obtain ⟨tok, inside, plain⟩ := facing.1
          have kept := cell s.es.val (by rw [heldCell, tok])
          rw [Shows, same, kept]
          exact ⟨tok, Nat.lt_of_lt_of_le inside next, plain⟩
      | name x =>
          obtain ⟨tok, inside, temp⟩ := facing.1
          have kept := cell s.es.val (by rw [heldCell, tok])
          rw [Shows, same, kept]
          exact ⟨tok, Nat.lt_of_lt_of_le inside next, temp⟩

/-- An operand that operators work on in place. -/
structure Operand (s s' : State) (a : Addr) (v : Long) (rest : List Word) : Prop extends
    Yields s s' a v rest where
  plain : Plain (s'.shell.cell a) v

theorem Yields.cast (nested : Nested) (yields : Yields s s' a v rest) :
    ∃ a' s'', intvar nested a s' = .ok a' s'' ∧ Operand s s'' a' v rest := by
  obtain ⟨a', s'', run, plain, framed, same, inside, place⟩ :=
    intvar_temp nested yields.temp yields.inside
  have heldSame := heldCell_congr same
  have heldInside : ∀ b, heldCell s' = some b → b < s'.shell.next :=
    fun b held => heldCell_lt yields.facing held
  refine ⟨a', s'', run, ⟨?_, plain⟩⟩
  exact
    { facing := yields.facing.congr same framed.next
        (fun b held => framed.cells b (heldInside b held) (by simp))
      frame := yields.frame.trans framed (by simp)
      fresh := fun b held => yields.fresh b (heldSame ▸ held)
      inside := inside
      new := by
        rcases place with rfl | rfl
        · exact yields.new
        · exact Or.inl yields.frame.next
      apart := by
        rw [heldSame]
        rcases place with rfl | rfl
        · exact yields.apart
        · intro held
          exact absurd (heldInside _ held) (Nat.lt_irrefl _)
      temp := plain.temp }

theorem Operand.setNumber (operand : Operand s s' a v rest) (n : Long) :
    ∃ s'', setNumber a n s' = .ok () s'' ∧ Operand s s'' a n rest := by
  have plain := operand.plain.set n
  refine ⟨_, setNumber_run a n s', ⟨?_, by rw [cell_write_self]; exact plain⟩⟩
  exact
    { facing := operand.facing.congr rfl (Nat.le_refl _) (by
        intro b held
        rw [cell_write_ne]
        rintro rfl
        exact operand.apart held)
      frame :=
        { operand.frame with
          cells := by
            intro q old apart
            rw [cell_write_ne]
            · exact operand.frame.cells q old apart
            · rintro rfl
              rcases operand.new with new | held
              · exact Nat.not_le_of_lt old new
              · exact apart held }
      fresh := operand.fresh
      inside := operand.inside
      new := operand.new
      apart := operand.apart
      temp := by
        rw [cell_write_self]
        exact plain.temp }

/-! ## Primaries -/

theorem postfixOps_exit (nested : Nested) (a : Addr) (notPpmm : s.es.tok.isPpmm = false) :
    postfixOps nested a s = .ok a s := by
  unfold postfixOps
  rw [bind_ok (tokenNow_run s)]
  simp only [notPpmm, Bool.false_eq_true, if_false]
  rfl

/-- Where every word can be read in a state with `Entry lit`. -/
def AllLegible (lit : Prop) (words : List Word) : Prop :=
  ∀ w ∈ words,
    match w with
    | .op tok => tok.Ordinary
    | .num _ => True
    | .name _ => ¬ lit

theorem AllLegible.legible {lit : Prop} {words : List Word} (all : AllLegible lit words)
    (entry : Entry lit s) {w : Word} (member : w ∈ words) : Legible s w := by
  have this := all w member
  cases w with
  | op tok => exact this
  | num n => trivial
  | name x => exact entry.safe.resolve_left this

theorem token_words {lit : Prop} {words rest : List Word} (all : AllLegible lit words)
    (nonempty : words ≠ []) (entry : Entry lit s) (text : s.es.tokp = spell (words ++ rest)) :
    ∃ s', token s = .ok () s' ∧ Moved s s' (words ++ rest) := by
  refine token_moves _ entry.owner text ?_
  intro w first
  cases words with
  | nil => exact absurd rfl nonempty
  | cons v words =>
      cases first
      exact all.legible entry List.mem_cons_self

theorem Entry.of_frame {lit : Prop} {touched : Option Addr} (entry : Entry lit s)
    (framed : Framed s s' touched) : Entry lit s' where
  owner := framed.owner.trans entry.owner
  safe := by
    rw [framed.noassign]
    exact entry.safe

theorem Reads.paren {nested : Nested} {lit : Prop} {worth : Bool → Option Long}
    {words : List Word} (reads : Reads nested lit worth words MAX_PREC)
    (all : AllLegible lit words) (nonempty : words ≠ []) :
    Reads nested lit worth (.op .OPEN_PAREN :: words ++ [.op .CLOSE_PAREN]) 0 := by
  intro fuel s rest enough entry stops facing
  simp only [List.length_append, List.length_cons, List.length_nil] at enough
  obtain ⟨more, rfl⟩ : ∃ more, fuel = more + 2 := ⟨fuel - 2, by omega⟩
  simp only [List.cons_append, List.append_assoc, List.nil_append] at facing
  obtain ⟨⟨open_, _⟩, text⟩ := facing
  obtain ⟨s1, run1, moved1⟩ := token_words all nonempty entry text
  have closes : Stops MAX_PREC (.op .CLOSE_PAREN :: rest) := by
    rintro w ⟨⟩
    exact ⟨_, rfl, by decide, rfl, by intro impossible; cases impossible⟩
  have inner := reads more s1 (.op .CLOSE_PAREN :: rest) (by unfold MAX_PREC; omega)
    (entry.of_frame moved1.frame) closes moved1.facing
  rw [moved1.frame.noassign] at inner
  rw [evalexpr]
  have opened : primary nested (more + 1) s = (do
      let vl ← evalexpr nested more MAX_PREC
      if (← tokenNow) ≠ .CLOSE_PAREN then evalerr .ET_STR (missing ')')
      else do
        token
        return vl : ExprM Addr) s1 := by
    rw [primary, bind_ok (tokenNow_run s), open_, if_neg (by decide), if_pos rfl, bind_ok run1]
  rcases inner.split with ⟨v, a, s2, value, run2, yields2⟩ | ⟨value, stop, s2, run2⟩
  · obtain ⟨⟨close, _⟩, text2⟩ := yields2.facing
    obtain ⟨s3, run3, moved3⟩ := token_moves _
      ((entry.of_frame moved1.frame).of_frame yields2.frame).owner text2 (stops.legible s2)
    have done : primary nested (more + 1) s = .ok a s3 := by
      rw [opened, bind_ok run2, bind_ok (tokenNow_run s2), close, if_neg (by decide),
        bind_ok run3]
      rfl
    refine Outcome.value value ?_ ((yields2.after moved1).step moved3)
    rw [bind_ok done]
    exact postfixOps_exit nested a (stops.token_facts moved3.facing).1
  · exact Outcome.stopped value (bind_error (opened.trans (bind_error run2)))

theorem reads_unary {nested : Nested} {lit : Prop} {worth : Bool → Option Long}
    {words : List Word} (op : UnaryOp) (reads : Reads nested lit worth words 0)
    (all : AllLegible lit words) (nonempty : words ≠ []) :
    Reads nested lit (fun held => (worth held).map (unaryResult op.val)) (.op op.val :: words)
      0 := by
  intro fuel s rest enough entry stops facing
  simp only [List.length_cons] at enough
  obtain ⟨more, rfl⟩ : ∃ more, fuel = more + 2 := ⟨fuel - 2, by omega⟩
  obtain ⟨⟨sign, _⟩, text⟩ := facing
  obtain ⟨s1, run1, moved1⟩ := token_words all nonempty entry text
  have inner := reads more s1 rest (by omega) (entry.of_frame moved1.frame) stops moved1.facing
  rw [moved1.frame.noassign] at inner
  rw [evalexpr]
  have opened : primary nested (more + 1) s = (do
      let vl ← intvar nested (← evalexpr nested more 0)
      setNumber vl (unaryResult op.val (← numberAt vl))
      return vl : ExprM Addr) s1 := by
    rw [primary, bind_ok (tokenNow_run s), sign, if_pos op.property, bind_ok run1]
    rfl
  rcases inner.split with ⟨v, a, s2, value, run2, yields2⟩ | ⟨value, stop, s2, run2⟩
  · obtain ⟨a', s3, run3, operand⟩ := (yields2.after moved1).cast nested
    obtain ⟨s4, run4, final⟩ := operand.setNumber (unaryResult op.val v)
    refine Outcome.value (by simp [value]) ?_ final.toYields
    have done : primary nested (more + 1) s = .ok a' s4 := by
      rw [opened, bind_ok run2, bind_ok run3, bind_ok (numberAt_run a' s3),
        operand.plain.number, bind_ok run4]
      rfl
    rw [bind_ok done]
    exact postfixOps_exit nested a' (stops.token_facts final.facing).1
  · exact Outcome.stopped (by simp [value])
      (bind_error (opened.trans (bind_error run2)))

/-- The token the climber stands at is an operand of its own. -/
theorem primary_leaf (nested : Nested) {fuel : Nat} (leaf : s.es.tok = .VAR ∨ s.es.tok = .LIT)
    (run : token s = .ok () s') :
    primary nested (fuel + 1) s = .ok s.es.val s' := by
  rw [primary, bind_ok (tokenNow_run s)]
  rcases leaf with tok | tok <;>
    · rw [tok, if_neg (by decide), if_neg (by decide), if_neg (by decide), if_pos (by decide),
        bind_ok (get_run s), bind_ok run]
      rfl

theorem Moved.leaf (moved : Moved s s' rest) (held : heldCell s = some s.es.val)
    (inside : s.es.val < s.shell.next) (temp : Temp (s.shell.cell s.es.val) v) :
    Yields s s' s.es.val v rest where
  facing := moved.facing
  frame := moved.frame.widen _
  fresh := moved.fresh
  inside := Nat.lt_of_lt_of_le inside moved.frame.next
  new := Or.inr held
  apart later := Nat.not_le_of_lt inside (moved.fresh _ later)
  temp := by
    rw [moved.frame.cells _ inside (by simp)]
    exact temp

theorem reads_lit (nested : Nested) (lit : Prop) (n : Nat) :
    Reads nested lit (fun _ => some (BitVec.ofNat 64 n)) [.num n] 0 := by
  intro fuel s rest enough entry stops facing
  simp only [List.length_cons, List.length_nil] at enough
  obtain ⟨more, rfl⟩ : ∃ more, fuel = more + 2 := ⟨fuel - 2, by omega⟩
  obtain ⟨⟨tok, inside, plain⟩, text⟩ := facing
  obtain ⟨s', run, moved⟩ := token_moves _ entry.owner text (stops.legible s)
  refine Outcome.value rfl ?_ (moved.leaf (by rw [heldCell, tok]) inside plain.temp)
  rw [evalexpr, bind_ok (primary_leaf nested (Or.inr tok) run)]
  exact postfixOps_exit nested _ (stops.token_facts moved.facing).1

theorem temporary_temp : Temp (temporary (ISSET ||| INTEGER ||| EXPRLVALUE) (.i 0)) 0 :=
  ⟨rfl, Or.inr rfl, by simp [temporary], rfl⟩

theorem reads_var (nested : Nested) (lit : Prop) (x : VarName) :
    Reads nested lit (fun _ => some 0) [.name x] 0 := by
  intro fuel s rest enough entry stops facing
  simp only [List.length_cons, List.length_nil] at enough
  obtain ⟨more, rfl⟩ : ∃ more, fuel = more + 2 := ⟨fuel - 2, by omega⟩
  obtain ⟨⟨tok, inside, cell⟩, text⟩ := facing
  obtain ⟨s', run, moved⟩ := token_moves _ entry.owner text (stops.legible s)
  refine Outcome.value rfl ?_
    (moved.leaf (by rw [heldCell, tok]) inside (by rw [cell]; exact temporary_temp))
  rw [evalexpr, bind_ok (primary_leaf nested (Or.inl tok) run)]
  exact postfixOps_exit nested _ (stops.token_facts moved.facing).1

/-! ## Assignments that are held back -/

theorem storeNumber_standIn (vasn : Addr) {vr : Addr}
    (integer : has (s.shell.cell vasn).flag INTEGER = true) (plain : Plain (s.shell.cell vr) n) :
    ∃ s', storeNumber vasn vr s = .ok () s' ∧ Updated s s' vasn := by
  have found := plain.temp.getint
  unfold storeNumber
  rw [bind_ok (cellAt_run vasn s), if_pos integer, onShell_run]
  refine ⟨_, rfl, rfl, ?_, ?_, ?_⟩
  · simp only [setintV, found, Option.getD_some]
    rfl
  · simp only [setintV, found, Option.getD_some]
    rfl
  · intro q differ
    simp only [setintV, found, Option.getD_some, cell_write_ne _ _ differ]

theorem assignCheck_standIn (op : Token) {vasn : Addr}
    (standIn : s.shell.cell vasn = temporary (ISSET ||| INTEGER ||| EXPRLVALUE) (.i 0)) :
    assignCheck op vasn s = .ok () s := by
  have lvalue : has (ISSET ||| INTEGER ||| EXPRLVALUE) EXPRLVALUE = true := by decide
  have writable : has (ISSET ||| INTEGER ||| EXPRLVALUE) RDONLY = false := by decide
  unfold assignCheck
  rw [bind_ok (cellAt_run vasn s), standIn]
  simp only [temporary, lvalue, writable, Bool.not_true, Bool.false_eq_true, and_false, if_false]
  rfl

/-- The value `++` and `--` leave, before or behind the stand-in of a variable. -/
def stepValue (op : Token) (isPrefix : Bool) : Long :=
  if isPrefix then (if op = .O_PLUSPLUS then 1 else -1) else 0

theorem doPpmm_standIn (nested : Nested) (op : Token) (isPrefix : Bool) {vasn : Addr}
    (inside : vasn < s.shell.next)
    (standIn : s.shell.cell vasn = temporary (ISSET ||| INTEGER ||| EXPRLVALUE) (.i 0)) :
    ∃ s', doPpmm nested op vasn isPrefix s = .ok s.shell.next s' ∧ s'.es = s.es ∧
      Plain (s'.shell.cell s.shell.next) (stepValue op isPrefix) ∧
      Framed s s' (some vasn) ∧ s.shell.next < s'.shell.next := by
  have temp : Temp (s.shell.cell vasn) 0 := by
    rw [standIn]
    exact temporary_temp
  obtain ⟨a, s1, run1, plain1, framed1, es1, inside1, place⟩ := intvar_temp nested temp inside
  have kept : s1.shell.cell vasn = temporary (ISSET ||| INTEGER ||| EXPRLVALUE) (.i 0) :=
    (framed1.cells vasn inside (by simp)).trans standIn
  have new : a = s.shell.next := by
    rcases place with rfl | new
    · have flag := plain1.flag
      rw [kept] at flag
      exact absurd flag (by decide)
    · exact new
  subst new
  have differ : s.shell.next ≠ vasn := Nat.ne_of_gt inside
  obtain ⟨s2, run2, updated2, cell2⟩ := setNumber_updates s.shell.next
    (if op = .O_PLUSPLUS then 0 + 1 else 0 - 1) s1
  have plain2 : Plain (s2.shell.cell s.shell.next) (if op = .O_PLUSPLUS then 0 + 1 else 0 - 1) := by
    rw [cell2]
    exact plain1.set _
  have integer : has (s2.shell.cell vasn).flag INTEGER = true := by
    rw [updated2.cells vasn differ.symm, kept]
    decide
  obtain ⟨s3, run3, updated3⟩ := storeNumber_standIn vasn integer plain2
  have plain3 : Plain (s3.shell.cell s.shell.next) (if op = .O_PLUSPLUS then 0 + 1 else 0 - 1) := by
    rw [updated3.cells _ differ]
    exact plain2
  have framed3 : Framed s s3 (some vasn) :=
    ((framed1.widen _).trans updated2.framed
      (by rintro q ⟨⟩ old; exact absurd old (Nat.lt_irrefl _))).trans updated3.framed
      (fun _ same _ => same)
  have inside3 : s.shell.next < s3.shell.next := by
    rw [updated3.next, updated2.next]
    exact inside1
  have begun (rest : Addr → Long → ExprM Addr) : (do
      assignCheck op vasn
      let vl ← intvar nested vasn
      let oval ← numberAt vl
      setNumber vl (if op = .O_PLUSPLUS then oval + 1 else oval - 1)
      storeNumber vasn vl
      rest vl oval : ExprM Addr) s = rest s.shell.next 0 s3 := by
    rw [bind_ok (assignCheck_standIn op standIn), bind_ok run1,
      bind_ok (numberAt_run _ s1), plain1.number, bind_ok run2, bind_ok run3]
  unfold doPpmm
  rw [begun]
  cases isPrefix with
  | true =>
      refine ⟨s3, rfl, ?_, ?_, framed3, inside3⟩
      · rw [updated3.es, updated2.es, es1]
      · have same : stepValue op true = if op = .O_PLUSPLUS then 0 + 1 else 0 - 1 := by
          simp [stepValue]
        rw [same]
        exact plain3
  | false =>
      obtain ⟨s4, run4, updated4, cell4⟩ := setNumber_updates s.shell.next (throughInt 0) s3
      refine ⟨s4, ?_, ?_, ?_, ?_, ?_⟩
      · rw [if_neg (by decide), bind_ok run4]
        rfl
      · rw [updated4.es, updated3.es, updated2.es, es1]
      · rw [cell4]
        exact plain3.set _
      · exact framed3.trans updated4.framed
          (by rintro q ⟨⟩ old; exact absurd old (Nat.lt_irrefl _))
      · rw [updated4.next]
        exact inside3

theorem Moved.operand (moved : Moved s' s'' rest) (framed : Framed s s' (heldCell s))
    (new : s.shell.next ≤ a) (inside : a < s'.shell.next) (temp : Temp (s'.shell.cell a) v) :
    Yields s s'' a v rest where
  facing := moved.facing
  frame := framed.trans moved.frame (by simp)
  fresh b held := Nat.le_trans framed.next (moved.fresh b held)
  inside := Nat.lt_of_lt_of_le inside moved.frame.next
  new := Or.inl new
  apart later := Nat.not_le_of_lt inside (moved.fresh _ later)
  temp := by
    rw [moved.frame.cells _ inside (by simp)]
    exact temp

theorem isPpmm_cases {op : Token} (isPpmm : op.isPpmm = true) :
    op = .O_PLUSPLUS ∨ op = .O_MINUSMINUS := by
  cases op <;> first | exact Or.inl rfl | exact Or.inr rfl | cases isPpmm

theorem reads_pre (nested : Nested) {lit : Prop} (vary : ¬ lit) (op : StepOp) (x : VarName) :
    Reads nested lit (fun _ => some (stepValue op.val true)) [.op op.val, .name x] 0 := by
  intro fuel s rest enough entry stops facing
  simp only [List.length_cons, List.length_nil] at enough
  obtain ⟨more, rfl⟩ : ∃ more, fuel = more + 2 := ⟨fuel - 2, by omega⟩
  have held := entry.safe.resolve_left vary
  obtain ⟨⟨tok, _⟩, text⟩ := facing
  obtain ⟨s1, run1, moved1⟩ := token_moves (.name x :: rest) entry.owner text
    (by rintro w ⟨⟩; exact held)
  obtain ⟨⟨tok1, inside1, standIn1⟩, text1⟩ := moved1.facing
  obtain ⟨s2, run2, es2, plain2, framed2, inside2⟩ :=
    doPpmm_standIn nested op.val true inside1 standIn1
  obtain ⟨s3, run3, moved3⟩ := token_moves rest
    (by rw [es2]; exact (entry.of_frame moved1.frame).owner) (by rw [es2]; exact text1)
    (stops.legible s2)
  have fresh1 := moved1.fresh s1.es.val (by rw [heldCell, tok1])
  have framed : Framed s s2 (heldCell s) := by
    refine (moved1.frame.widen _).trans framed2 ?_
    rintro q ⟨⟩ old
    exact absurd fresh1 (Nat.not_le_of_lt old)
  refine Outcome.value rfl ?_ (moved3.operand framed moved1.frame.next inside2 plain2.temp)
  have done : primary nested (more + 1) s = .ok s1.shell.next s3 := by
    rw [primary, bind_ok (tokenNow_run s), tok]
    rcases isPpmm_cases op.property with same | same <;>
      · rw [same] at run2 ⊢
        rw [if_neg (by decide), if_neg (by decide), if_pos (by decide), bind_ok run1,
          bind_ok (tokenNow_run s1), tok1, if_neg (by decide), bind_ok (get_run s1),
          bind_ok run2, bind_ok run3]
        rfl
  rw [evalexpr, bind_ok done]
  exact postfixOps_exit nested _ (stops.token_facts moved3.facing).1

theorem reads_post (nested : Nested) {lit : Prop} (op : StepOp) (x : VarName) :
    Reads nested lit (fun _ => some (stepValue op.val false)) [.name x, .op op.val] 0 := by
  intro fuel s rest enough entry stops facing
  simp only [List.length_cons, List.length_nil] at enough
  obtain ⟨more, rfl⟩ : ∃ more, fuel = more + 2 := ⟨fuel - 2, by omega⟩
  have ordinary : op.val.Ordinary := by
    rcases isPpmm_cases op.property with same | same <;> rw [same] <;> decide
  obtain ⟨⟨tok, inside, standIn⟩, text⟩ := facing
  obtain ⟨s1, run1, moved1⟩ := token_moves (.op op.val :: rest) entry.owner text
    (by rintro w ⟨⟩; exact ordinary)
  obtain ⟨⟨tok1, _⟩, text1⟩ := moved1.facing
  have standIn1 := (moved1.frame.cells s.es.val inside (by simp)).trans standIn
  obtain ⟨s2, run2, es2, plain2, framed2, inside2⟩ := doPpmm_standIn nested op.val false
    (Nat.lt_of_lt_of_le inside moved1.frame.next) standIn1
  obtain ⟨s3, run3, moved3⟩ := token_moves rest
    (by rw [es2]; exact (entry.of_frame moved1.frame).owner) (by rw [es2]; exact text1)
    (stops.legible s2)
  have framed : Framed s s2 (heldCell s) := by
    refine (moved1.frame.widen _).trans framed2 ?_
    rintro q ⟨⟩ _
    rw [heldCell, tok]
  refine Outcome.value rfl ?_ (moved3.operand framed moved1.frame.next inside2 plain2.temp)
  rw [evalexpr, bind_ok (primary_leaf nested (Or.inl tok) run1)]
  unfold postfixOps
  rw [bind_ok (tokenNow_run s1), tok1, if_pos op.property, bind_ok run2, bind_ok run3]
  rfl

end Netbase.Ksh.Expr
