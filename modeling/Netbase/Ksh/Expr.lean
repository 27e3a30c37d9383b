import Netbase.Lib.Triple
import Netbase.Ksh.Var

/-!
# Arithmetic expressions

The precedence climber of the shell with its one token of lookahead.  Operands are
addresses: of a variable, or of a temporary that operators overwrite in place.  A
variable that does not hold a number is an expression of its own, evaluated with a
fresh state; that step is a parameter here and is tied to the evaluator at the end.
-/

namespace Netbase.Ksh.Expr

open Netbase.Text Netbase.Lib

inductive Token where
  | O_PLUSPLUS | O_MINUSMINUS
  | O_EQ | O_NE
  | O_ASN | O_TIMESASN | O_DIVASN | O_MODASN | O_PLUSASN | O_MINUSASN
  | O_LSHIFTASN | O_RSHIFTASN | O_BANDASN | O_BXORASN | O_BORASN
  | O_LSHIFT | O_RSHIFT
  | O_LE | O_GE | O_LT | O_GT
  | O_LAND
  | O_LOR
  | O_TIMES | O_DIV | O_MOD
  | O_PLUS | O_MINUS
  | O_BAND
  | O_BXOR
  | O_BOR
  | O_TERN
  | O_COMMA
  | O_BNOT | O_LNOT
  | OPEN_PAREN | CLOSE_PAREN | CTERN
  | VAR | LIT | END | BAD
  deriving Repr, DecidableEq

def P_PRIMARY : Nat := 0
def P_TERN : Nat := 11
def P_ASSIGN : Nat := 12
def MAX_PREC : Nat := 13

/-- The operator table: the longest spellings first. -/
def opinfo : List (Token × List Byte × Nat) :=
  [(.O_PLUSPLUS, ascii ['+', '+'], 0), (.O_MINUSMINUS, ascii ['-', '-'], 0),
    (.O_EQ, ascii ['=', '='], 5), (.O_NE, ascii ['!', '='], 5),
    (.O_ASN, ascii ['='], 12), (.O_TIMESASN, ascii ['*', '='], 12),
    (.O_DIVASN, ascii ['/', '='], 12), (.O_MODASN, ascii ['%', '='], 12),
    (.O_PLUSASN, ascii ['+', '='], 12), (.O_MINUSASN, ascii ['-', '='], 12),
    (.O_LSHIFTASN, ascii ['<', '<', '='], 12), (.O_RSHIFTASN, ascii ['>', '>', '='], 12),
    (.O_BANDASN, ascii ['&', '='], 12), (.O_BXORASN, ascii ['^', '='], 12),
    (.O_BORASN, ascii ['|', '='], 12),
    (.O_LSHIFT, ascii ['<', '<'], 3), (.O_RSHIFT, ascii ['>', '>'], 3),
    (.O_LE, ascii ['<', '='], 4), (.O_GE, ascii ['>', '='], 4),
    (.O_LT, ascii ['<'], 4), (.O_GT, ascii ['>'], 4),
    (.O_LAND, ascii ['&', '&'], 9), (.O_LOR, ascii ['|', '|'], 10),
    (.O_TIMES, ascii ['*'], 1), (.O_DIV, ascii ['/'], 1), (.O_MOD, ascii ['%'], 1),
    (.O_PLUS, ascii ['+'], 2), (.O_MINUS, ascii ['-'], 2),
    (.O_BAND, ascii ['&'], 6), (.O_BXOR, ascii ['^'], 7), (.O_BOR, ascii ['|'], 8),
    (.O_TERN, ascii ['?'], 11), (.O_COMMA, ascii [','], 13),
    (.O_BNOT, ascii ['~'], 0), (.O_LNOT, ascii ['!'], 0),
    (.OPEN_PAREN, ascii ['('], 0), (.CLOSE_PAREN, ascii [')'], 0), (.CTERN, ascii [':'], 0)]

/-- The spelling and the precedence of an operator. -/
def Token.info (tok : Token) : List Byte × Nat :=
  ((opinfo.find? fun entry => entry.1 = tok).map Prod.snd).getD ([], 0)

def Token.spelling (tok : Token) : List Byte := tok.info.1

def Token.prec (tok : Token) : Nat := tok.info.2

def Token.isBinop : Token → Bool
  | .O_PLUSPLUS | .O_MINUSMINUS | .O_BNOT | .O_LNOT | .OPEN_PAREN | .CLOSE_PAREN | .CTERN
  | .VAR | .LIT | .END | .BAD => false
  | _ => true

def Token.isAssignop : Token → Bool
  | .O_ASN | .O_TIMESASN | .O_DIVASN | .O_MODASN | .O_PLUSASN | .O_MINUSASN
  | .O_LSHIFTASN | .O_RSHIFTASN | .O_BANDASN | .O_BXORASN | .O_BORASN => true
  | _ => false

/-- The operators that divide. -/
def Token.divides : Token → Bool
  | .O_DIV | .O_MOD | .O_DIVASN | .O_MODASN => true
  | _ => false

inductive ErrorType where
  | ET_UNEXPECTED | ET_BADLIT | ET_RECURSIVE | ET_LVALUE | ET_RDONLY | ET_STR
  deriving Repr, DecidableEq

/-- Why an evaluation stops.  `evalerr` and `unwound` are the jumps to the error
handlers; the others are not caught: a quotient that does not fit its register, a
token read from a string that has been freed, a number that does not fit its buffer,
an array element outside this model, and an evaluation that does not end. -/
inductive Stop where
  | evalerr (type : ErrorType) (expression str : List Byte)
  | unwound
  | trap
  | dangling
  | overrun
  | subscript
  | endless
  deriving Repr, DecidableEq

/-- The state of one evaluation.  `owner` is the variable whose string is read, with
the count of its stores at the start. -/
structure ExprState where
  expression : List Byte
  tokp : List Byte
  tok : Token
  noassign : Nat
  val : Addr
  evaling : Option Addr
  owner : Option (Addr × Nat)

structure State where
  shell : Shell
  es : ExprState

abbrev ExprM := EStateM Stop State

abbrev ShellM := EStateM Stop Shell

/-- A change of the shell alone. -/
def onShell (f : Shell → Shell) : ExprM Unit :=
  modify fun s => { s with shell := f s.shell }

/-- A change of the evaluation's own state alone. -/
def onState (f : ExprState → ExprState) : ExprM Unit :=
  modify fun s => { s with es := f s.es }

def cellAt (p : Addr) : ExprM Var := do
  return (← get).shell.cell p

def numberAt (p : Addr) : ExprM Long := do
  return (← cellAt p).number

/-- Overwrite the integer of a temporary. -/
def setNumber (p : Addr) (n : Long) : ExprM Unit :=
  onShell fun sh => sh.write p { sh.cell p with val := .i n }

/-- What an unexpected token is called. -/
def unexpectedText (s : State) : List Byte :=
  match s.es.tok with
  | .VAR => (s.shell.cell s.es.val).name
  | .LIT => (strVal (s.shell.cell s.es.val)).getD []
  | .END => ascii ['e', 'n', 'd', ' ', 'o', 'f', ' ', 'e', 'x', 'p', 'r', 'e', 's', 's', 'i',
      'o', 'n']
  | .BAD => s.es.tokp.take 1
  | tok => tok.spelling

def evalerr {α : Type} (type : ErrorType) (str : List Byte) : ExprM α := do
  throw (.evalerr type (← get).es.expression str)

def unexpected {α : Type} : ExprM α := do
  evalerr .ET_UNEXPECTED (unexpectedText (← get))

def temporary (flag : Flag) (val : Value) : Var :=
  { name := [], flag := flag, type := 0, val := val, index := 0, field := 0
    array := none, stored := 0 }

def allocate (v : Var) : ExprM Addr := do
  let p := (← get).shell.next
  onShell fun sh => sh.alloc v
  return p

def tempvar : ExprM Addr := allocate (temporary (ISSET ||| INTEGER) (.i 0))

/-! ## Tokens -/

/-- The length of an array reference; zero when there is no closing bracket. -/
def arrayRefLoop : Nat → Nat → List Byte → Nat
  | _, _, [] => 0
  | depth, len, c :: s =>
      if c = byte ']' then
        if depth ≤ 1 then len + 1 else arrayRefLoop (depth - 1) (len + 1) s
      else arrayRefLoop (if c = byte '[' then depth + 1 else depth) (len + 1) s

def arrayRefLen (cp : List Byte) : Nat := arrayRefLoop 0 0 cp

def numberChar (c : Byte) : Bool := c != byte '_' && (letnum c || c == byte '#')

def litToken (text : List Byte) : ExprM Unit := do
  let tvar := text.takeWhile numberChar
  let p ← allocate (temporary ISSET (.s tvar))
  onState fun es => { es with val := p }
  match setintV (← get).shell p p with
  | none => evalerr .ET_BADLIT tvar
  | some sh => do
      onShell fun _ => sh
      onState fun es => { es with tok := .LIT, tokp := text.dropWhile numberChar }

/-- A variable token; while assignments are held back it is a temporary. -/
def varToken (text : List Byte) : ExprM Unit := do
  let after := text.dropWhile letnum
  let len := if after.head? = some (byte '[') then arrayRefLen after else 0
  if after.head? = some (byte '[') ∧ len = 0 then
    evalerr .ET_STR (ascii ['m', 'i', 's', 's', 'i', 'n', 'g', ' ', ']'])
  else if (← get).es.noassign ≠ 0 then do
    let p ← allocate (temporary (ISSET ||| INTEGER ||| EXPRLVALUE) (.i 0))
    onState fun es => { es with tok := .VAR, val := p, tokp := after.drop len }
  else if len ≠ 0 then throw .subscript
  else do
    let found := global (← get).shell (text.takeWhile letnum)
    onShell fun _ => found.2
    onState fun es => { es with tok := .VAR, val := found.1, tokp := after }

/-- The first entry of the table that the text starts with. -/
def findOp (text : List Byte) : Option (Token × List Byte × Nat) :=
  opinfo.find? fun entry => entry.2.1.isPrefixOf text

def opToken (text : List Byte) : ExprM Unit :=
  match findOp text with
  | some entry =>
      onState fun es => { es with tok := entry.1, tokp := text.drop entry.2.1.length }
  | none => onState fun es => { es with tok := .BAD, tokp := text }

/-- The string of the evaluation is still the one its variable holds. -/
def readable (s : State) : Bool :=
  match s.es.owner with
  | none => true
  | some (p, stored) => (s.shell.cell p).stored = stored

def token : ExprM Unit := do
  let s ← get
  if !readable s then throw .dangling
  else
    match s.es.tokp.dropWhile isspace with
    | [] => onState fun es => { es with tok := .END, tokp := [] }
    | c :: rest =>
        if letter c then varToken (c :: rest)
        else if digit c then litToken (c :: rest)
        else opToken (c :: rest)

/-! ## Operators -/

/-- What a variable that does not hold a number is evaluated with: the variable and
the temporary that takes its value. -/
abbrev Nested := Addr → Addr → ExprM Unit

def intvar (nested : Nested) (vp : Addr) : ExprM Addr := do
  let v ← cellAt vp
  if v.name = [] ∧ v.flag &&& (ISSET ||| INTEGER ||| EXPRLVALUE) = (ISSET ||| INTEGER) then
    return vp
  else do
    let vq ← tempvar
    match setintV (← get).shell vq vp with
    | some sh => do
        onShell fun _ => sh
        return vq
    | none => do
        nested vp vq
        return vq

def assignCheck (op : Token) (vasn : Addr) : ExprM Unit := do
  let v ← cellAt vasn
  if v.name = [] ∧ !has v.flag EXPRLVALUE then evalerr .ET_LVALUE op.spelling
  else if has v.flag RDONLY then evalerr .ET_RDONLY op.spelling
  else return ()

/-- Store the integer of `vr` into `vasn`. -/
def storeNumber (vasn vr : Addr) : ExprM Unit := do
  if has (← cellAt vasn).flag INTEGER then
    onShell fun sh => (setintV sh vasn vr).getD sh
  else do
    let n ← numberAt vr
    onShell fun sh => setint sh vasn n

/-- The operand a postfix operator gives back goes through an `int`. -/
def throughInt (n : Long) : Long := (n.setWidth 32).signExtend 64

def doPpmm (nested : Nested) (op : Token) (vasn : Addr) (isPrefix : Bool) : ExprM Addr := do
  assignCheck op vasn
  let vl ← intvar nested vasn
  let oval ← numberAt vl
  setNumber vl (if op = .O_PLUSPLUS then oval + 1 else oval - 1)
  storeNumber vasn vl
  if isPrefix then return vl
  else do
    setNumber vl (throughInt oval)
    return vl

def truth (b : Bool) : Long := if b then 1 else 0

def binaryResult (op : Token) (l r : Long) : Long :=
  match op with
  | .O_TIMES | .O_TIMESASN => l * r
  | .O_DIV | .O_DIVASN => l.sdiv r
  | .O_MOD | .O_MODASN => l.srem r
  | .O_PLUS | .O_PLUSASN => l + r
  | .O_MINUS | .O_MINUSASN => l - r
  | .O_LSHIFT | .O_LSHIFTASN => l <<< (r.toNat % 64)
  | .O_RSHIFT | .O_RSHIFTASN => l.sshiftRight (r.toNat % 64)
  | .O_LT => truth (l.slt r)
  | .O_LE => truth (l.sle r)
  | .O_GT => truth (r.slt l)
  | .O_GE => truth (r.sle l)
  | .O_EQ => truth (l == r)
  | .O_NE => truth (l != r)
  | .O_BAND | .O_BANDASN => l &&& r
  | .O_BXOR | .O_BXORASN => l ^^^ r
  | .O_BOR | .O_BORASN => l ||| r
  | .O_LAND => truth (l != 0 && r != 0)
  | .O_LOR => truth (l != 0 || r != 0)
  | _ => r

/-- The quotient of these does not fit a long. -/
def overflows (op : Token) (l r : Long) : Bool :=
  op.divides && l == BitVec.intMin 64 && r == -1

/-- A zero divisor is an error, except where nothing is to be assigned. -/
def checkDivisor (op : Token) (vr : Addr) : ExprM Unit := do
  if op.divides ∧ (← numberAt vr) = 0 then
    if (← get).es.noassign ≠ 0 then setNumber vr 1
    else evalerr .ET_STR (ascii ['z', 'e', 'r', 'o', ' ', 'd', 'i', 'v', 'i', 's', 'o', 'r'])
  else return ()

/-- Compute on two operands. -/
def compute (op : Token) (l r : Long) : ExprM Long :=
  if overflows op l r then throw .trap else return binaryResult op l r

def holdAssigns (hold : Bool) : ExprM Unit :=
  onState fun es => { es with noassign := if hold then es.noassign + 1 else es.noassign }

def allowAssigns (held : Bool) : ExprM Unit :=
  onState fun es => { es with noassign := if held then es.noassign - 1 else es.noassign }

def unaryResult (op : Token) (n : Long) : Long :=
  match op with
  | .O_BNOT => ~~~n
  | .O_LNOT => truth (n == 0)
  | .O_MINUS => -n
  | _ => n

def Token.isUnary : Token → Bool
  | .O_BNOT | .O_LNOT | .O_MINUS | .O_PLUS => true
  | _ => false

def Token.isPpmm : Token → Bool
  | .O_PLUSPLUS | .O_MINUSMINUS => true
  | _ => false

def tokenNow : ExprM Token := do
  return (← get).es.tok

def missing (c : Char) : List Byte := ascii ['m', 'i', 's', 's', 'i', 'n', 'g', ' ', c]

/-- A postfix operator behind a primary. -/
def postfixOps (nested : Nested) (vl : Addr) : ExprM Addr := do
  let op ← tokenNow
  if op.isPpmm then do
    let vl ← doPpmm nested op vl false
    token
    return vl
  else return vl

mutual

/-- `evalexpr` at the primary level, before a postfix operator. -/
def primary (nested : Nested) : Nat → ExprM Addr
  | 0 => throw .endless
  | fuel + 1 => do
      let op ← tokenNow
      if op.isUnary then do
        token
        let vl ← intvar nested (← evalexpr nested fuel P_PRIMARY)
        setNumber vl (unaryResult op (← numberAt vl))
        return vl
      else if op = .OPEN_PAREN then do
        token
        let vl ← evalexpr nested fuel MAX_PREC
        if (← tokenNow) ≠ .CLOSE_PAREN then evalerr .ET_STR (missing ')')
        else do
          token
          return vl
      else if op.isPpmm then do
        token
        if (← tokenNow) ≠ .VAR then evalerr .ET_LVALUE op.spelling
        else do
          let vl ← doPpmm nested op (← get).es.val true
          token
          return vl
      else if op = .VAR ∨ op = .LIT then do
        let vl := (← get).es.val
        token
        return vl
      else unexpected

def evalexpr (nested : Nested) : Nat → Nat → ExprM Addr
  | 0, _ => throw .endless
  | fuel + 1, 0 => do postfixOps nested (← primary nested fuel)
  | fuel + 1, prec + 1 => do evalLoop nested fuel (prec + 1) (← evalexpr nested fuel prec)

/-- The loop over the operators of one precedence. -/
def evalLoop (nested : Nested) : Nat → Nat → Addr → ExprM Addr
  | 0, _, _ => throw .endless
  | fuel + 1, prec, vl => do
      let op ← tokenNow
      if !(op.isBinop && op.prec = prec) then return vl
      else do
        token
        let vasn := vl
        let vl ← if op = .O_ASN then pure vl else intvar nested vl
        if op.isAssignop then do
          assignCheck op vasn
          let vr ← intvar nested (← evalexpr nested fuel P_ASSIGN)
          checkDivisor op vr
          let res ← compute op (← numberAt vl) (← numberAt vr)
          setNumber vr res
          storeNumber vasn vr
          evalLoop nested fuel prec vr
        else if op = .O_TERN then do
          let ex := (← numberAt vl) != 0
          holdAssigns (!ex)
          let vl ← evalexpr nested fuel MAX_PREC
          allowAssigns (!ex)
          if (← tokenNow) ≠ .CTERN then evalerr .ET_STR (missing ':')
          else do
            token
            holdAssigns ex
            let vr ← evalexpr nested fuel P_TERN
            allowAssigns ex
            evalLoop nested fuel prec (if ex then vl else vr)
        else if op = .O_LAND ∨ op = .O_LOR then do
          let l ← numberAt vl
          let skipped := if op = .O_LAND then l == 0 else l != 0
          holdAssigns skipped
          let vr ← intvar nested (← evalexpr nested fuel (prec - 1))
          setNumber vl (binaryResult op l (← numberAt vr))
          allowAssigns skipped
          evalLoop nested fuel prec vl
        else do
          let vr ← intvar nested (← evalexpr nested fuel (prec - 1))
          checkDivisor op vr
          setNumber vl (← compute op (← numberAt vl) (← numberAt vr))
          evalLoop nested fuel prec vl

end

/-! ## Whole evaluations -/

/-- What a failed evaluation does: return, or unwind further. -/
inductive ErrorMode where
  | KSH_UNWIND_ERROR | KSH_RETURN_ERROR
  deriving Repr, DecidableEq

def initialState (expr : List Byte) (owner : Option (Addr × Nat)) : ExprState where
  expression := expr
  tokp := expr
  tok := .END
  noassign := 0
  val := 0
  evaling := none
  owner := owner

/-- Calls of `evalexpr` within one evaluation are at most these deep. -/
def callDepth (expr : List Byte) : Nat := 16 * expr.length + 32

def storeResult (vp v : Addr) (mode : ErrorMode) : ExprM Unit := do
  if has (← cellAt vp).flag INTEGER then
    onShell fun sh => (setintV sh vp v).getD sh
  else
    match strVal (← cellAt v) with
    | none => throw .overrun
    | some s =>
        if has (← cellAt vp).flag RDONLY then
          if mode = .KSH_UNWIND_ERROR then throw .unwound else return ()
        else onShell fun sh => storeText sh vp s

/-- The evaluation proper, inside its error handler. -/
def evaluation (nested : Nested) (vp : Addr) (expr : List Byte) (mode : ErrorMode) :
    ExprM Unit := do
  token
  if (← tokenNow) = .END then do
    let p ← tempvar
    onState fun es => { es with tok := .LIT, val := p }
  else pure ()
  let v ← intvar nested (← evalexpr nested (callDepth expr) MAX_PREC)
  if (← tokenNow) ≠ .END then unexpected
  else storeResult vp v mode

def handled (x : ExprM Unit) (es : ExprState) (mode : ErrorMode) : ShellM Bool := fun sh =>
  match x ⟨sh, es⟩ with
  | .ok _ s => .ok true s.shell
  | .error stop s =>
      let cleared :=
        match s.es.evaling with
        | none => s.shell
        | some p => s.shell.clearFlag p EXPRINEVAL
      match stop with
      | .evalerr .. =>
          match mode with
          | .KSH_RETURN_ERROR => .ok false cleared
          | .KSH_UNWIND_ERROR => .error .unwound cleared
      | .unwound => .error .unwound cleared
      | crash => .error crash s.shell

/-- Run a part that has an evaluation state of its own. -/
def inShell {α : Type} (x : ShellM α) : ExprM α := fun s =>
  match x s.shell with
  | .ok a sh => .ok a { s with shell := sh }
  | .error stop sh => .error stop { s with shell := sh }

/-- Evaluate the string of `vp` into `vq`, with `vp` marked as being evaluated. -/
def nestedWith
    (vEvaluate : Addr → List Byte → Option (Addr × Nat) → ErrorMode → ShellM Bool) : Nested :=
  fun vp vq => do
    let v ← cellAt vp
    if has v.flag EXPRINEVAL then evalerr .ET_RECURSIVE v.name
    else do
      onState fun es => { es with evaling := some vp }
      onShell fun sh => sh.setFlag vp EXPRINEVAL
      match strVal v with
      | none => throw .overrun
      | some text => do
          let _ ← inShell (vEvaluate vq text (some (vp, v.stored)) .KSH_UNWIND_ERROR)
          onShell fun sh => sh.clearFlag vp EXPRINEVAL
          onState fun es => { es with evaling := none }

/-- Parse and evaluate an expression and store the result in `vp`; `depth` bounds the
evaluations inside evaluations. -/
def vEvaluate : Nat → Addr → List Byte → Option (Addr × Nat) → ErrorMode → ShellM Bool
  | 0, _, _, _, _ => throw .endless
  | depth + 1, vp, expr, owner, mode =>
      handled (evaluation (nestedWith (vEvaluate depth)) vp expr mode)
        (initialState expr owner) mode

def evaluate (depth : Nat) (expr : List Byte) (mode : ErrorMode) : ShellM (Bool × Long) := do
  let p := (← get).next
  modify fun sh => sh.alloc (temporary (DEFINED ||| INTEGER) (.i 0))
  let ok ← vEvaluate depth p expr none mode
  return (ok, ((← get).cell p).number)

end Netbase.Ksh.Expr
