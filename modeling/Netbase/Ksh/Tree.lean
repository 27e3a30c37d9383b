import Netbase.Ksh.Expr

/-!
# Expression trees

Trees over literals, variables and the operators of the table, their text with the
parentheses that precedence and associativity call for (and further ones where the
tree has them), and their value in 64-bit
two's-complement arithmetic.  The last section has the value that the climber works
out where operands are not selected: everything is computed, variables count as zero
and a zero divisor as one.
-/

namespace Netbase.Ksh.Expr

open Netbase.Text

/-- An operator between two operands that are not assigned to. -/
def Token.isInfix (op : Token) : Bool :=
  op.isBinop && !op.isAssignop && op != .O_TERN

abbrev UnaryOp := { op : Token // op.isUnary = true }

abbrev InfixOp := { op : Token // op.isInfix = true }

abbrev AssignOp := { op : Token // op.isAssignop = true }

abbrev StepOp := { op : Token // op.isPpmm = true }

/-- A name the tokenizer reads as one variable. -/
structure IsName (x : List Byte) : Prop where
  first : ∃ c rest, x = c :: rest ∧ letter c = true
  rest : ∀ c ∈ x, letnum c = true

abbrev VarName := { x : List Byte // IsName x }

inductive Tree where
  | lit (n : Nat)
  | var (x : VarName)
  | group (t : Tree)
  | unary (op : UnaryOp) (t : Tree)
  | binary (op : InfixOp) (l r : Tree)
  | ternary (c a b : Tree)
  | assign (op : AssignOp) (x : VarName) (t : Tree)
  | pre (op : StepOp) (x : VarName)
  | post (op : StepOp) (x : VarName)

/-! ## Texts -/

inductive Word where
  | op (tok : Token)
  | num (n : Nat)
  | name (x : VarName)

def Word.spelling : Word → List Byte
  | .op tok => tok.spelling
  | .num n => decimal n
  | .name x => x.val

/-- The precedence of a tree's outermost operator. -/
def Tree.level : Tree → Nat
  | .lit _ | .var _ | .group _ | .unary _ _ | .pre _ _ | .post _ _ => P_PRIMARY
  | .binary op _ _ => op.val.prec
  | .ternary _ _ _ => P_TERN
  | .assign _ _ _ => P_ASSIGN

/-- Put parentheses around the words of a tree of a looser level. -/
def parenthesize (level prec : Nat) (words : List Word) : List Word :=
  if level ≤ prec then words else .op .OPEN_PAREN :: words ++ [.op .CLOSE_PAREN]

/-- The words of a tree without parentheses around the whole. -/
def Tree.body : Tree → List Word
  | .lit n => [.num n]
  | .var x => [.name x]
  | .group t => .op .OPEN_PAREN :: t.body ++ [.op .CLOSE_PAREN]
  | .unary op t => .op op.val :: parenthesize t.level P_PRIMARY t.body
  | .binary op l r =>
      parenthesize l.level op.val.prec l.body ++
        .op op.val :: parenthesize r.level (op.val.prec - 1) r.body
  | .ternary c a b =>
      parenthesize c.level (P_TERN - 1) c.body ++
        .op .O_TERN :: (parenthesize a.level MAX_PREC a.body ++
          .op .CTERN :: parenthesize b.level P_TERN b.body)
  | .assign op x t => .name x :: .op op.val :: parenthesize t.level P_ASSIGN t.body
  | .pre op x => [.op op.val, .name x]
  | .post op x => [.name x, .op op.val]

/-- The words of a tree as an operand of precedence `prec`. -/
def Tree.words (t : Tree) (prec : Nat) : List Word :=
  parenthesize t.level prec t.body

/-- Words with a blank before each one. -/
def spell (words : List Word) : List Byte :=
  words.flatMap fun w => byte ' ' :: w.spelling

def Tree.text (t : Tree) : List Byte := (spell (t.words MAX_PREC)).tail

/-! ## Values -/

/-- No variable occurs. -/
def Tree.Literal : Tree → Prop
  | .lit _ => True
  | .group t => t.Literal
  | .unary _ t => t.Literal
  | .binary _ l r => l.Literal ∧ r.Literal
  | .ternary c a b => c.Literal ∧ a.Literal ∧ b.Literal
  | .var _ | .assign _ _ _ | .pre _ _ | .post _ _ => False

def unaryValue (op : Token) (n : Long) : Long :=
  match op with
  | .O_BNOT => ~~~n
  | .O_LNOT => if n = 0 then 1 else 0
  | .O_MINUS => 0 - n
  | _ => n

/-- The operators that evaluate both operands.  There is no value for a zero divisor
and for a shift by less than zero or more than 63. -/
def infixValue (op : Token) (l r : Long) : Option Long :=
  match op with
  | .O_TIMES => some (l * r)
  | .O_DIV => if r = 0 then none else some (l.sdiv r)
  | .O_MOD => if r = 0 then none else some (l.srem r)
  | .O_PLUS => some (l + r)
  | .O_MINUS => some (l - r)
  | .O_LSHIFT => if 0 ≤ r.toInt ∧ r.toInt ≤ 63 then some (l <<< r.toNat) else none
  | .O_RSHIFT => if 0 ≤ r.toInt ∧ r.toInt ≤ 63 then some (l.sshiftRight r.toNat) else none
  | .O_LT => some (if l.toInt < r.toInt then 1 else 0)
  | .O_LE => some (if l.toInt ≤ r.toInt then 1 else 0)
  | .O_GT => some (if l.toInt > r.toInt then 1 else 0)
  | .O_GE => some (if l.toInt ≥ r.toInt then 1 else 0)
  | .O_EQ => some (if l = r then 1 else 0)
  | .O_NE => some (if l = r then 0 else 1)
  | .O_BAND => some (l &&& r)
  | .O_BXOR => some (l ^^^ r)
  | .O_BOR => some (l ||| r)
  | .O_COMMA => some r
  | _ => none

def Tree.value : Tree → Option Long
  | .lit n => some (BitVec.ofNat 64 n)
  | .group t => t.value
  | .unary op t => t.value.map (unaryValue op.val)
  | .binary op l r =>
      match l.value with
      | none => none
      | some a =>
          if op.val = .O_LAND then
            if a = 0 then some 0 else r.value.map fun b => if b = 0 then 0 else 1
          else if op.val = .O_LOR then
            if a = 0 then r.value.map fun b => if b = 0 then 0 else 1 else some 1
          else
            match r.value with
            | none => none
            | some b => infixValue op.val a b
  | .ternary c a b =>
      match c.value with
      | none => none
      | some n => if n = 0 then b.value else a.value
  | .var _ | .assign _ _ _ | .pre _ _ | .post _ _ => none

/-- What the climber computes from two operands; nothing for a quotient that does not
fit and, unless assignments are held back, for a zero divisor. -/
def combine (held : Bool) (op : Token) (l r : Long) : Option Long :=
  if op.divides ∧ r = 0 then
    if held then if overflows op l 1 then none else some (binaryResult op l 1) else none
  else if overflows op l r then none
  else some (binaryResult op l r)

/-- The value the climber works out for a tree, with assignments held back or not. -/
def Tree.worth (held : Bool) : Tree → Option Long
  | .lit n => some (BitVec.ofNat 64 n)
  | .var _ => some 0
  | .group t => t.worth held
  | .unary op t => (t.worth held).map (unaryResult op.val)
  | .binary op l r =>
      match l.worth held with
      | none => none
      | some a =>
          if op.val = .O_LAND then
            (r.worth (held || a == 0)).map (binaryResult .O_LAND a)
          else if op.val = .O_LOR then
            (r.worth (held || a != 0)).map (binaryResult .O_LOR a)
          else
            match r.worth held with
            | none => none
            | some b => combine held op.val a b
  | .ternary c a b =>
      match c.worth held with
      | none => none
      | some n =>
          match a.worth (held || n == 0), b.worth (held || n != 0) with
          | some x, some y => some (if n = 0 then y else x)
          | _, _ => none
  | .assign op _ t =>
      match t.worth held with
      | none => none
      | some b => combine held op.val 0 b
  | .pre op _ => some (if op.val = .O_PLUSPLUS then 1 else -1)
  | .post _ _ => some 0

end Netbase.Ksh.Expr
