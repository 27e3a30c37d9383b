import Netbase.Text.Decimal

/-!
# Shell variables

The entries of the variable tables with the fields arithmetic and `typeset` work on:
the flag word, the type (the base of an integer, or the offset of the value behind
`name=` of an exported string), the value, the field width and the array links.
Looking a name up is a search through the blocks, the innermost one first.  The
parameters that the shell itself computes when they are read are left out.
-/

namespace Netbase.Ksh.Expr

open Netbase.Text

abbrev Name := List Byte

abbrev Addr := Nat

/-- A machine long. -/
abbrev Long := BitVec 64

abbrev Flag := BitVec 32

def ALLOC : Flag := 1 <<< 0
def DEFINED : Flag := 1 <<< 1
def ISSET : Flag := 1 <<< 2
def EXPORT : Flag := 1 <<< 3
def INTEGER : Flag := 1 <<< 9
def RDONLY : Flag := 1 <<< 10
def LOCAL : Flag := 1 <<< 11
def ARRAY : Flag := 1 <<< 13
def LJUST : Flag := 1 <<< 14
def RJUST : Flag := 1 <<< 15
def ZEROFIL : Flag := 1 <<< 16
def LCASEV : Flag := 1 <<< 17
def UCASEV_AL : Flag := 1 <<< 18
def INT_U : Flag := 1 <<< 19
def INT_L : Flag := 1 <<< 20
def IMPORT : Flag := 1 <<< 21
def LOCAL_COPY : Flag := 1 <<< 22
def EXPRINEVAL : Flag := 1 <<< 23
def EXPRLVALUE : Flag := 1 <<< 24

/-- Some bit of the mask is set. -/
def has (flag mask : Flag) : Bool := flag &&& mask != 0

inductive Value where
  | s (text : List Byte)
  | i (number : Long)
  deriving Repr, DecidableEq

/-- An entry.  `stored` counts how often its string has been replaced, so that a
reader of an older string can be told from a reader of the present one. -/
structure Var where
  name : Name
  flag : Flag
  type : Int
  val : Value
  index : Nat
  field : Int
  array : Option Addr
  stored : Nat
  deriving Repr, DecidableEq

/-- The string member of the value. -/
def Var.text (v : Var) : List Byte :=
  match v.val with
  | .s text => text
  | .i _ => []

/-- The integer member of the value. -/
def Var.number (v : Var) : Long :=
  match v.val with
  | .s _ => 0
  | .i number => number

/-- The cells handed out so far and the blocks of variables, innermost first. -/
structure Shell where
  next : Addr
  cell : Addr → Var
  blocks : List (List (Name × Addr))

def Shell.write (sh : Shell) (p : Addr) (v : Var) : Shell :=
  { sh with cell := fun q => if q = p then v else sh.cell q }

/-- Hand out a cell. -/
def Shell.alloc (sh : Shell) (v : Var) : Shell :=
  { sh.write sh.next v with next := sh.next + 1 }

def Shell.setFlag (sh : Shell) (p : Addr) (mask : Flag) : Shell :=
  sh.write p { sh.cell p with flag := (sh.cell p).flag ||| mask }

def Shell.clearFlag (sh : Shell) (p : Addr) (mask : Flag) : Shell :=
  sh.write p { sh.cell p with flag := (sh.cell p).flag &&& ~~~mask }

/-! ## Characters -/

def digit (c : Byte) : Bool := byte '0' ≤ c && c ≤ byte '9'

def islower (c : Byte) : Bool := byte 'a' ≤ c && c ≤ byte 'z'

def isupper (c : Byte) : Bool := byte 'A' ≤ c && c ≤ byte 'Z'

def letter (c : Byte) : Bool := islower c || isupper c || c == byte '_'

def letnum (c : Byte) : Bool := letter c || digit c

def toupper (c : Byte) : Byte := if islower c then c - 32 else c

def tolower (c : Byte) : Byte := if isupper c then c + 32 else c

/-! ## Integers in strings -/

def digitValue (c : Byte) : Option Nat :=
  if digit c then some (c.toNat - 48)
  else if islower c then some (c.toNat - 97 + 10)
  else if isupper c then some (c.toNat - 65 + 10)
  else none

/-- The digit loop of `getint`. -/
def getintLoop (base : Int) (haveBase : Bool) (num : Long) :
    List Byte → Option (Int × Long)
  | [] => some (base, num)
  | c :: s =>
      if c = byte '#' then
        let newBase := (num.setWidth 32).toInt
        if haveBase || newBase < 2 || newBase > 36 then none
        else getintLoop newBase true 0 s
      else if letnum c then
        match digitValue c with
        | none => none
        | some value =>
            if value ≥ base then none
            else getintLoop base haveBase (num * BitVec.ofInt 64 base + BitVec.ofNat 64 value) s
      else none

/-- The base and the number of the text behind its sign. -/
def getintUnsigned : List Byte → Option (Int × Long)
  | 48 :: 120 :: s => getintLoop 16 true 0 s
  | s => getintLoop 10 false 0 s

def getintText (s : List Byte) : Option (Int × Long) :=
  match s with
  | 45 :: rest => (getintUnsigned rest).map fun found => (found.1, -found.2)
  | _ => getintUnsigned s

/-- The base and the number of a variable; none where the source returns `-1`. -/
def getint (v : Var) : Option (Int × Long) :=
  if !has v.flag ISSET then none
  else if has v.flag INTEGER then if v.type = -1 then none else some (v.type, v.number)
  else getintText (v.text.drop v.type.toNat)

/-- Convert `vq` to an integer variable with the value of `vp`. -/
def setintV (sh : Shell) (vq vp : Addr) : Option Shell :=
  match getint (sh.cell vp) with
  | none => none
  | some (base, num) =>
      let v := sh.cell vq
      let flag := if has v.flag INTEGER then v.flag else v.flag &&& ~~~ALLOC
      some (sh.write vq
        { v with
          flag := flag ||| (ISSET ||| INTEGER)
          type := if v.type = 0 then base else v.type
          val := .i num })

/-! ## Strings of variables -/

def digitChar (upper : Bool) (d : Nat) : Option Byte :=
  if d < 10 then some (UInt8.ofNat (48 + d))
  else if d < 36 then some (UInt8.ofNat ((if upper then 65 else 97) + (d - 10)))
  else none

/-- The bytes of the buffer of `str_val`. -/
def strbufSize : Nat := 1 + 2 + 1 + 64 + 1

/-- The digit loop of `str_val`, with the room left in the buffer; none where the
loop leaves the digits or the buffer. -/
def digitLoop (upper : Bool) (base : Nat) : Nat → Nat → List Byte → Option (List Byte)
  | 0, _, _ => none
  | room + 1, n, s =>
      match digitChar upper (n % base) with
      | none => none
      | some c => if n / base = 0 then some (c :: s) else digitLoop upper base room (n / base) (c :: s)

/-- The text of an integer variable before it is justified. -/
def integerText (v : Var) : Option (List Byte) :=
  let upper := has v.flag UCASEV_AL
  let negative := !has v.flag INT_U && v.number.slt 0
  let n := if negative then (-v.number).toNat else v.number.toNat
  let base := if v.type = 0 then 10 else v.type.toNat
  match digitLoop upper base (strbufSize - 1) n [] with
  | none => none
  | some digits =>
      if base = 10 then some ((if negative then [byte '-'] else []) ++ digits)
      else
        match digitChar upper (base % 10), digitChar upper (base / 10) with
        | some low, some high =>
            some ((if negative then [byte '-'] else []) ++
              (if base ≥ 10 then [high] else []) ++ [low, byte '#'] ++ digits)
        | _, _ => none

/-- Blanks at the end of a text taken off. -/
def stripTrailing (s : List Byte) : List Byte := (s.reverse.dropWhile isspace).reverse

/-- A text in the field and the case of a variable; a field of zero becomes the
length of the text. -/
def formatstr (v : Var) (s : List Byte) : List Byte :=
  let width := if v.field = 0 then s.length else v.field.toNat
  let justified :=
    if has v.flag RJUST then
      let kept := stripTrailing s
      let shown := kept.drop (kept.length - width)
      let pad := if has v.flag ZEROFIL && (shown.head?.map digit).getD false then byte '0' else byte ' '
      List.replicate (width - shown.length) pad ++ shown
    else if has v.flag LJUST then
      let kept := s.dropWhile isspace
      let kept := if has v.flag ZEROFIL then kept.dropWhile (· = byte '0') else kept
      kept.take width ++ List.replicate (width - kept.length) (byte ' ')
    else s
  if has v.flag UCASEV_AL then justified.map toupper
  else if has v.flag LCASEV then justified.map tolower
  else justified

/-- The string value of a variable. -/
def strVal (v : Var) : Option (List Byte) :=
  if !has v.flag ISSET then some []
  else if !has v.flag INTEGER then some (v.text.drop v.type.toNat)
  else if has v.flag (RJUST ||| LJUST) then
    (integerText v).map fun s => (formatstr v s).take (strbufSize - 1)
  else integerText v

/-- The string part of `setstr`: the stored string is replaced, and exported as
`name=value` when the variable is exported. -/
def storeText (sh : Shell) (vq : Addr) (s : List Byte) : Shell :=
  let v := sh.cell vq
  let formatted := has v.flag (UCASEV_AL ||| LCASEV ||| LJUST ||| RJUST)
  let text := if formatted then formatstr v s else s
  let field := if has v.flag (RJUST ||| LJUST) && v.field = 0 then (s.length : Int) else v.field
  if has v.flag EXPORT then
    sh.write vq
      { v with
        flag := v.flag ||| (ALLOC ||| ISSET)
        type := v.name.length + 1
        val := .s (v.name ++ [byte '='] ++ text)
        field := field
        stored := v.stored + 1 }
  else
    sh.write vq
      { v with
        flag := v.flag ||| (ALLOC ||| ISSET)
        type := 0
        val := .s text
        field := field
        stored := v.stored + 1 }

/-- The variable `str_val` is asked about when an integer goes into a string. -/
def vtemp (n : Long) : Var :=
  { name := [], flag := ISSET ||| INTEGER, type := 0, val := .i n, index := 0, field := 0
    array := none, stored := 0 }

/-- Set a variable to an integer.  A read only string variable is only warned about. -/
def setint (sh : Shell) (vq : Addr) (n : Long) : Shell :=
  let v := sh.cell vq
  if has v.flag INTEGER then
    sh.write vq { v with flag := v.flag ||| ISSET, val := .i n }
  else if has v.flag RDONLY then sh.setFlag vq ISSET
  else storeText sh vq ((strVal (vtemp n)).getD [])

def lookup (blocks : List (List (Name × Addr))) (n : Name) : Option Addr :=
  match blocks with
  | [] => none
  | vars :: rest =>
      match vars.lookup n with
      | some p => some p
      | none => lookup rest n

/-- Add a name to the outermost block. -/
def enterGlobal (n : Name) (p : Addr) :
    List (List (Name × Addr)) → List (List (Name × Addr))
  | [] => [[(n, p)]]
  | [vars] => [(n, p) :: vars]
  | vars :: rest => vars :: enterGlobal n p rest

/-- A variable that has just been entered. -/
def freshVar (n : Name) : Var :=
  { name := n, flag := DEFINED, type := 0, val := .s [], index := 0, field := 0
    array := none, stored := 0 }

/-- Search for a variable; if it is not found, create it in the outermost block. -/
def global (sh : Shell) (n : Name) : Addr × Shell :=
  match lookup sh.blocks n with
  | some p => (p, sh)
  | none => (sh.next, { sh.alloc (freshVar n) with blocks := enterGlobal n sh.next sh.blocks })

end Netbase.Ksh.Expr
