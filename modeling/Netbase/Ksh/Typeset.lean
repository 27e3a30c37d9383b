import Mathlib.Logic.Relation
import Netbase.Ksh.Expr

/-!
# Attributes of variables

`typeset` with what it rests on: names with a subscript, the elements of an array,
variables of a block, `setstr`, and `c_typeset` behind its options.  What a variable
is assigned may be an expression, and a subscript is expanded before it is evaluated;
the parts of the shell that do this are parameters.
-/

namespace Netbase.Ksh.Typeset

open Netbase.Text Netbase.Lib Netbase.Ksh.Expr
export Netbase.Ksh.Expr (Name Addr DEFINED State)

def TRACE : Flag := 1 <<< 4

/-- The greatest index of an array. -/
def ARRAYMAX : Nat := 1023

/-! ## Arrays -/

/-- The element before the index, and the first one that is not before it. -/
def arrayWalk (sh : Shell) (val : Nat) : Nat → Addr → Addr × Option Addr
  | 0, prev => (prev, none)
  | fuel + 1, prev =>
      match (sh.cell prev).array with
      | none => (prev, none)
      | some curr =>
          if (sh.cell curr).index < val then arrayWalk sh val fuel curr else (prev, some curr)

/-- The element as it is handed out: the attributes of the variable, and no value. -/
def elementOf (v old : Var) (val : Nat) : Var :=
  { old with
    name := v.name
    flag := v.flag &&& ~~~(ALLOC ||| DEFINED ||| ISSET)
    type := v.type
    field := v.field
    index := val }

/-- Put an element between two others. -/
def insertElement (sh : Shell) (vp : Addr) (val : Nat) (prev : Addr) (curr : Option Addr) :
    Addr × Shell :=
  let made := sh.alloc { elementOf (sh.cell vp) (freshVar []) val with array := curr }
  (sh.next, made.write prev { made.cell prev with array := some sh.next })

def arraysearch (sh : Shell) (vp : Addr) (val : Nat) : Addr × Shell :=
  let sh := sh.setFlag vp (ARRAY ||| DEFINED)
  if val = 0 then (vp, sh.write vp { sh.cell vp with index := 0 })
  else
    let found := arrayWalk sh val (val + 1) vp
    match found.2 with
    | none => insertElement sh vp val found.1 none
    | some curr =>
        if (sh.cell curr).index = val then
          if has (sh.cell curr).flag ISSET then (curr, sh)
          else (curr, sh.write curr (elementOf (sh.cell vp) (sh.cell curr) val))
        else insertElement sh vp val found.1 (some curr)

/-! ## What the rest of the shell does to variables -/

/-- One thing that an evaluation or an expansion does to the variables: a temporary,
the number of a cell, an integer or a string stored, a mark, a name looked up, an
element looked up. -/
inductive Touch : Shell → Shell → Prop where
  | alloc (sh : Shell) (flag : Flag) (val : Value) : Touch sh (sh.alloc (temporary flag val))
  | number (sh : Shell) (p : Addr) (n : Long) :
      Touch sh (sh.write p { sh.cell p with val := .i n })
  | setintV {sh sh' : Shell} {vq vp : Addr}
      (ready : has (sh.cell vq).flag INTEGER = true ∨ (sh.cell vq).type = 0)
      (stored : setintV sh vq vp = some sh') : Touch sh sh'
  | setint (sh : Shell) (vq : Addr) (n : Long) : Touch sh (setint sh vq n)
  | storeText (sh : Shell) {vq : Addr} (s : List Byte)
      (ready : has (sh.cell vq).flag INTEGER = false) : Touch sh (storeText sh vq s)
  | mark (sh : Shell) (p : Addr) : Touch sh (sh.setFlag p EXPRINEVAL)
  | unmark (sh : Shell) (p : Addr) : Touch sh (sh.clearFlag p EXPRINEVAL)
  | set (sh : Shell) (p : Addr) : Touch sh (sh.setFlag p ISSET)
  | global (sh : Shell) (n : Name) : Touch sh (global sh n).2
  | element (sh : Shell) (vp : Addr) (val : Nat) : Touch sh (arraysearch sh vp val).2

def Touches : Shell → Shell → Prop := Relation.ReflTransGen Touch

/-- The shell that a part of it leaves, however it ends. -/
def leaves {α : Type} (x : ShellM α) (sh : Shell) : Shell :=
  match x sh with
  | .ok _ sh' => sh'
  | .error _ sh' => sh'

/-- The evaluator and the expansion of subscripts, whether the shell is restricted, and
the bits of a string's address where they are read as an integer. -/
structure Surroundings where
  vEvaluate : Addr → List Byte → ErrorMode → ShellM Bool
  substitute : List Byte → ShellM (List Byte)
  pointer : Addr → Long
  restricted : Bool
  evaluates : ∀ vp expr mode sh, Touches sh (leaves (vEvaluate vp expr mode) sh)
  substitutes : ∀ cp sh, Touches sh (leaves (substitute cp) sh)

section

variable (env : Surroundings)

def evaluate (expr : List Byte) (mode : ErrorMode) : ShellM (Bool × Long) := do
  let p := (← get).next
  modify fun sh => sh.alloc (temporary (DEFINED ||| INTEGER) (.i 0))
  let ok ← env.vEvaluate p expr mode
  return (ok, ((← get).cell p).number)

/-- Set a variable to a string value; none of the callers here set a read only one
without asking. -/
def setstr (vq : Addr) (s : List Byte) (mode : ErrorMode) (noRoCheck : Bool) : ShellM Bool := do
  let v := (← get).cell vq
  if has v.flag RDONLY && !noRoCheck then
    match mode with
    | .KSH_UNWIND_ERROR => throw .unwound
    | .KSH_RETURN_ERROR => return false
  else if has v.flag INTEGER then do
    if ← env.vEvaluate vq s mode then do
      modify fun sh => sh.setFlag vq ISSET
      return true
    else return false
  else do
    modify fun sh => storeText sh vq s
    return true

/-! ## Names -/

/-- What follows a variable name; all of the text when it starts with none. -/
def skipVarname (s : List Byte) : List Byte :=
  match s with
  | c :: rest => if letter c then rest.dropWhile letnum else s
  | [] => []

/-- The name of an array reference. -/
def arrayname (str : List Byte) : List Byte := str.takeWhile (· ≠ byte '[')

def arrayIndexCalc (n : List Byte) : ShellM (Name × Option Nat) := do
  let p := skipVarname n
  let len := arrayRefLen p
  if p ≠ n ∧ p.head? = some (byte '[') ∧ len ≠ 0 then do
    let sub ← env.substitute ((p.drop 1).take (len - 2))
    let (_, rval) ← evaluate env sub .KSH_UNWIND_ERROR
    if rval.toInt < 0 ∨ rval.toInt > ARRAYMAX then throw .unwound
    else return (n.take (n.length - p.length), some rval.toNat)
  else return (n, none)

/-- Search for a variable or an element; if it is not found, create it in the
outermost block. -/
def globalRef (n : List Byte) : ShellM Addr := do
  let (name, index) ← arrayIndexCalc env n
  let known := (lookup (← get).blocks name).isSome
  let vp := (global (← get) name).1
  modify fun sh => (global sh name).2
  match index with
  | none => return vp
  | some val => do
      let element := (arraysearch (← get) vp val).1
      modify fun sh => (arraysearch sh vp val).2
      if known then return element
      else do
        modify fun sh => sh.setFlag element DEFINED
        return element

/-- Add a name to the innermost block. -/
def enterLocal (n : Name) (p : Addr) : List (List (Name × Addr)) → List (List (Name × Addr))
  | [] => [[(n, p)]]
  | vars :: rest => ((n, p) :: vars) :: rest

/-- The entry of the innermost block, made if there is none. -/
def tenter (sh : Shell) (n : Name) : Addr × Shell :=
  match (sh.blocks.head?.getD []).lookup n with
  | some p => (p, sh)
  | none =>
      (sh.next,
        { sh.alloc { freshVar n with flag := 0 } with blocks := enterLocal n sh.next sh.blocks })

/-- The attributes a local copy takes over. -/
def COPIED : Flag :=
  EXPORT ||| INTEGER ||| RDONLY ||| LJUST ||| RJUST ||| ZEROFIL ||| LCASEV ||| UCASEV_AL |||
    INT_U ||| INT_L

/-- A local variable that is new takes over the attributes of the one it hides. -/
def copyAttributes (sh : Shell) (n : Name) (vp : Addr) : Shell :=
  let v := sh.cell vp
  if has v.flag DEFINED then sh
  else
    match lookup sh.blocks.tail n with
    | none => sh
    | some vq =>
        let hidden := sh.cell vq
        sh.write vp
          { v with
            flag := v.flag ||| hidden.flag &&& COPIED
            type := if has hidden.flag INTEGER then hidden.type else v.type
            field := hidden.field }

/-- Search for a local variable or element; if it is not found, create it locally. -/
def localRef (n : List Byte) (copy : Bool) : ShellM Addr := do
  let (name, index) ← arrayIndexCalc env n
  let vp := (tenter (← get) name).1
  modify fun sh => (tenter sh name).2
  modify fun sh => if copy then copyAttributes sh name vp else sh
  match index with
  | none => do
      modify fun sh => sh.setFlag vp DEFINED
      return vp
  | some val => do
      let element := (arraysearch (← get) vp val).1
      modify fun sh => (arraysearch sh vp val).2
      modify fun sh => sh.setFlag element DEFINED
      return element

/-! ## typeset -/

/-- The name in an argument of `typeset` and the value behind its `=`. -/
def splitArgument (var : List Byte) (set : Flag) : Option (List Byte × Option (List Byte)) :=
  let val := skipVarname var
  let len := if val.head? = some (byte '[') then arrayRefLen val else 0
  let subscript := (val.drop 1).take (len - 2)
  if val = var then none
  else if val.head? = some (byte '[') ∧ (len = 0 ∨ (has set IMPORT ∧ !subscript.all digit)) then
    none
  else
    match val.drop len with
    | 61 :: value => some (var.take (var.length - value.length - 1), some value)
    | _ => if has set IMPORT then none else some (var, none)

/-- The value of `t` is assigned again with the new attributes. -/
def fakeAssign (t : Var) (chosen : Bool) (set clr : Flag) : Bool :=
  has t.flag ISSET && !chosen &&
    (has set (UCASEV_AL ||| LCASEV ||| LJUST ||| RJUST ||| ZEROFIL) ||
      (has t.flag INTEGER && has clr INTEGER) || (!has t.flag INTEGER && has set INTEGER))

/-- The variable with its new attributes; `chosen` says that it is to be assigned. -/
def withAttributes (t : Var) (bits : Long) (chosen : Bool) (set clr : Flag) (field base : Int) :
    Var :=
  let becomes := !has t.flag INTEGER && has set INTEGER
  let flag := if fakeAssign t chosen set clr || becomes then t.flag &&& ~~~ALLOC else t.flag
  let type := if becomes then 0 else t.type
  { t with
    flag := (flag ||| set) &&& ~~~clr
    type := if has set INTEGER && base > 0 && !chosen then base else type
    field := if has set (LJUST ||| RJUST ||| ZEROFIL) then field else t.field
    val := if becomes then .i bits else t.val }

/-- The contents are dropped, the attributes are kept. -/
def zapped (t : Var) : Var :=
  if has t.flag INTEGER then { t with flag := t.flag &&& ~~~ISSET }
  else { t with flag := t.flag &&& ~~~(ISSET ||| ALLOC), type := 0 }

/-- Change the attributes of one variable or element. -/
def setAttributes (t : Addr) (chosen : Bool) (set clr : Flag) (field base : Int) :
    ShellM Bool := do
  let old := (← get).cell t
  let changed := withAttributes old (env.pointer t) chosen set clr field base
  if fakeAssign old chosen set clr then
    match strVal old with
    | none => throw .overrun
    | some s => do
        modify fun sh => sh.write t changed
        if ← setstr env t s .KSH_RETURN_ERROR false then return true
        else do
          modify fun sh => sh.write t (zapped (sh.cell t))
          return false
  else do
    modify fun sh => sh.write t changed
    return true

/-- Change the attributes of a variable and of all its elements. -/
def attributesLoop (vp : Addr) (given : Bool) (set clr : Flag) (field base : Int) :
    Nat → Option Addr → Bool → ShellM Bool
  | _, none, ok => return ok
  | 0, some _, _ => throw .endless
  | fuel + 1, some t, ok => do
      let fine ← setAttributes env t (given && t == vp) set clr field base
      attributesLoop vp given set clr field base fuel ((← get).cell t).array (ok && fine)

/-- Make the value `name=value` for quick exporting. -/
def exportVar (sh : Shell) (vp : Addr) (val : List Byte) : Shell :=
  let v := sh.cell vp
  sh.write vp
    { v with
      flag := v.flag ||| ALLOC
      type := v.name.length + 1
      val := .s (v.name ++ [byte '='] ++ val)
      stored := v.stored + 1 }

/-- Assign the value given with the name. -/
def assignValue (vp : Addr) (base : Int) : Option (List Byte) → ShellM Unit
  | none => return ()
  | some val => do
      if has ((← get).cell vp).flag INTEGER then do
        let _ ← setstr env vp val .KSH_UNWIND_ERROR true
        -- done after the assignment to override the default
        modify fun sh => if base > 0 then sh.write vp { sh.cell vp with type := base } else sh
      else do
        let _ ← setstr env vp val .KSH_RETURN_ERROR true
        return ()

def restrictedNames : List Name :=
  [ascii ['P', 'A', 'T', 'H'], ascii ['E', 'N', 'V'], ascii ['S', 'H', 'E', 'L', 'L']]

/-- The variable or element of the name, local or global. -/
def typesetTarget (tvar : List Byte) (set : Flag) : ShellM Addr :=
  if has set LOCAL then localRef env tvar (has set LOCAL_COPY) else globalRef env tvar

/-- The variable an element belongs to.  Without a subscript the whole argument is
looked up, its value included. -/
def typesetBase (var : List Byte) (vp : Addr) : ShellM Addr := do
  if has ((← get).cell vp).flag ARRAY then globalRef env (arrayname var) else return vp

/-- Most calls are with nothing to set or clear. -/
def setAllAttributes (vp vpbase : Addr) (given : Bool) (set clr : Flag) (field base : Int) :
    ShellM Bool :=
  if set ||| clr ≠ 0 then
    attributesLoop env vp given set clr field base (ARRAYMAX + 2) (some vpbase) true
  else return true

/-- Only the variable itself is ever exported, not its elements. -/
def exportBase (sh : Shell) (vpbase : Addr) : Shell :=
  let v := sh.cell vpbase
  if has v.flag EXPORT && !has v.flag INTEGER && v.type == 0 then
    exportVar sh vpbase (if has v.flag ISSET then v.text else [])
  else sh

/-- `typeset` behind the parsing of its argument. -/
def typesetVar (var tvar : List Byte) (val : Option (List Byte)) (set clr : Flag)
    (field base : Int) : ShellM Addr :=
  if env.restricted ∧ tvar ∈ restrictedNames then throw .unwound
  else do
    let vp ← typesetTarget env tvar set
    let vpbase ← typesetBase env var vp
    let kept := set &&& ~~~(LOCAL ||| LOCAL_COPY)
    if has ((← get).cell vpbase).flag RDONLY ∧
        (val.isSome ∨ clr ≠ 0 ∨ kept &&& ~~~EXPORT ≠ 0) then throw .unwound
    else do
      if ← setAllAttributes env vp vpbase val.isSome kept clr field base then do
        assignValue env vp base val
        modify fun sh => exportBase sh vpbase
        return vp
      else throw .unwound

/-- Look a variable up, set its attributes, and set its value if an assignment; none
where the argument is not an identifier. -/
def typeset (var : List Byte) (set clr : Flag) (field base : Int) : ShellM (Option Addr) :=
  match splitArgument var set with
  | none => return none
  | some (tvar, val) => some <$> typesetVar env var tvar val set clr field base

/-! ## The command -/

def INT_MIN : Int := -2147483648

def INT_MAX : Int := 2147483647

/-- Parse a decimal number; none if the text is not a number. -/
def getn (as : List Byte) : Option Int :=
  let s := as.dropWhile isspace
  let digits := if s.head? = some (byte '-') ∨ s.head? = some (byte '+') then s.tail else s
  if digits = [] ∨ !digits.all isdigit then none
  else if INT_MIN ≥ atol as ∨ atol as ≥ INT_MAX then none
  else some (atol as)

/-- An option as `ksh_getopt` returns it: its letter, whether it came with a `+`, and
its argument. -/
structure Opt where
  letter : Byte
  plus : Bool
  optarg : Option (List Byte)
  deriving Repr, DecidableEq

def Opt.flag (opt : Opt) : Flag :=
  if opt.letter = byte 'L' then LJUST
  else if opt.letter = byte 'R' then RJUST
  else if opt.letter = byte 'U' then INT_U
  else if opt.letter = byte 'Z' then ZEROFIL
  else if opt.letter = byte 'i' then INTEGER
  else if opt.letter = byte 'l' then LCASEV
  else if opt.letter = byte 'r' then RDONLY
  else if opt.letter = byte 't' then TRACE
  else if opt.letter = byte 'u' then UCASEV_AL
  else if opt.letter = byte 'x' then EXPORT
  else 0

structure Options where
  fset : Flag
  fclr : Flag
  fieldstr : Option (List Byte)
  basestr : Option (List Byte)
  func : Bool
  deriving Repr, DecidableEq

def Options.take (o : Options) (opt : Opt) : Options :=
  { fset := if opt.plus then o.fset &&& ~~~opt.flag else o.fset ||| opt.flag
    fclr := if opt.plus then o.fclr ||| opt.flag else o.fclr &&& ~~~opt.flag
    fieldstr :=
      if opt.letter = byte 'L' ∨ opt.letter = byte 'R' ∨ opt.letter = byte 'Z' then opt.optarg
      else o.fieldstr
    basestr := if opt.letter = byte 'i' then opt.optarg else o.basestr
    func := o.func || opt.letter == byte 'f' }

/-- The attributes that exclude each other. -/
def EXCLUSIVE : Flag :=
  LJUST ||| RJUST ||| ZEROFIL ||| UCASEV_AL ||| LCASEV ||| INTEGER ||| INT_U ||| INT_L

/-- What is set and what is cleared, once the exclusions are taken care of. -/
def exclusions (fset fclr : Flag) : Flag × Flag :=
  let fset := if has fset LCASEV then fset &&& ~~~UCASEV_AL else fset
  let fset := if has fset LJUST then fset &&& ~~~RJUST else fset
  let right := fset &&& (ZEROFIL ||| LJUST) = ZEROFIL
  let fclr := if right then fclr &&& ~~~RJUST else fclr
  let fset := if right then fset ||| RJUST else fset
  (fset, if has fset EXCLUSIVE then fclr ||| ~~~fset &&& EXCLUSIVE else fclr)

def optionNumber : Option (List Byte) → Option Int
  | none => some 0
  | some s => getn s

/-- The options after those that the name of the command stands for. -/
def parseOptions (command : Byte) (opts : List Opt) : Options :=
  opts.foldl Options.take
    { fset := if command = byte 'e' then EXPORT else if command = byte 'r' then RDONLY else 0
      fclr := 0
      fieldstr := none
      basestr := none
      func := false }

def typesetAll (set clr : Flag) (field base : Int) : List (List Byte) → ShellM Nat
  | [] => return 0
  | var :: rest => do
      match ← typeset env var set clr field base with
      | none => return 1
      | some _ => typesetAll set clr field base rest

/-- `typeset`, `export` and `readonly` with names; functions have a table of their
own. -/
def cTypeset (command : Byte) (opts : List Opt) (names : List (List Byte)) : ShellM Nat :=
  let o := parseOptions command opts
  match optionNumber o.fieldstr, optionNumber o.basestr with
  | some field, some base =>
      if o.func then return 0
      else
        let flags := exclusions o.fset o.fclr
        typesetAll env (if command = byte 't' then flags.1 ||| LOCAL else flags.1) flags.2
          field base names
  | _, _ => return 1

end

end Netbase.Ksh.Typeset
