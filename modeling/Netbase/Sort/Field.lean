import Mathlib
import Netbase.Text.Decimal

/-!
# Key options

`setfield` reads the argument of a `-k` option: a first and an optional last
column, each with a character offset and type letters.
-/

namespace Netbase.Sort

open Netbase.Text

/-- The flag word of a field. -/
structure Flags where
  R : Bool := false
  F : Bool := false
  I : Bool := false
  D : Bool := false
  N : Bool := false
  BI : Bool := false
  BT : Bool := false
  L : Bool := false
  deriving DecidableEq, Repr

/-- `flags |= more` -/
def Flags.or (flags more : Flags) : Flags :=
  { R := flags.R || more.R
    F := flags.F || more.F
    I := flags.I || more.I
    D := flags.D || more.D
    N := flags.N || more.N
    BI := flags.BI || more.BI
    BT := flags.BT || more.BT
    L := flags.L || more.L }

structure Column where
  num : Nat
  indent : Nat
  deriving DecidableEq, Repr

/-- A field; `tcol.num` is 0 where the key goes to the end of the line. -/
structure Field where
  icol : Column
  tcol : Column
  flags : Flags
  numbered : 0 < icol.num
  deriving DecidableEq, Repr

/-- The texts `setfield` exits with. -/
inductive Refusal where
  | fieldNumbersMustBePositive
  | cannotIndentEndOfLine
  | illegalOffset
  | illegalFieldDescriptor
  | fieldsOutOfOrder
  deriving DecidableEq, Repr

/-- The flag of a letter, behind a column with the given number of `tcol`. -/
def optval (desc : Byte) (tcolflag : Nat) : Option Flags :=
  if desc = byte 'b' then some (if tcolflag = 0 then { BI := true } else { BT := true })
  else if desc = byte 'd' then some { D := true }
  else if desc = byte 'f' then some { F := true }
  else if desc = byte 'i' then some { I := true }
  else if desc = byte 'l' then some { L := true }
  else if desc = byte 'n' then some { N := true }
  else if desc = byte 'r' then some { R := true }
  else none

/-- A `long` as an `int`. -/
def toInt (value : Int) : Int := Int.bmod value 4294967296

/-- `(int)strtol(pos, &npos, 10)`; without digits `npos` is `pos`. -/
def strtol (pos : List Byte) : Int × List Byte :=
  let text := pos.dropWhile isspace
  let negative := text.head? = some (byte '-')
  let digits := if negative ∨ text.head? = some (byte '+') then text.tail else text
  let value : Int := digitsValue 0 digits
  if digits.takeWhile isdigit = [] then (0, pos)
  else
    (toInt (if negative then max (-longMax - 1) (-value) else min longMax value),
      digits.dropWhile isdigit)

/-- The type letters behind a column. -/
def letters (tcolflag : Nat) : List Byte → Flags → Flags × List Byte
  | [], flags => (flags, [])
  | c :: pos, flags =>
      match optval c tcolflag with
      | some flag => letters tcolflag pos (flags.or flag)
      | none => (flags, c :: pos)

/-- `setcolumn`, for the first column of a key or for its last; the flags read so far come with
it. -/
def setcolumn (first : Bool) (pos : List Byte) (flags : Flags) :
    Except Refusal (Column × Flags × List Byte) := do
  let (num, pos) := strtol pos
  if num ≤ 0 ∧ ¬ (num = 0 ∧ first = false) then throw .fieldNumbersMustBePositive
  let (indent, pos) ←
    if pos.head? = some (byte '.') then do
      if num = 0 then throw .cannotIndentEndOfLine
      let (indent, pos) := strtol pos.tail
      let indent := if first then indent - 1 else indent
      if indent < 0 then throw .illegalOffset
      pure (indent.toNat, pos)
    else pure (0, pos)
  let (flags, pos) := letters (if first then 0 else num.toNat) pos flags
  pure ({ num := num.toNat, indent := indent }, flags, pos)

/-- `setfield`; `gflag` are the global options given so far, and `reverse` is a global `-r` among
them. -/
def setfield (gflag : Flags) (reverse : Bool) (pos : List Byte) : Except Refusal Field := do
  let (icol, flags, pos) ← setcolumn true pos {}
  let (tcol, flags) ←
    if pos = [] then pure ({ num := 0, indent := 0 }, flags)
    else if pos.head? = some (byte ',') then do
      let (tcol, flags, _) ← setcolumn false pos.tail flags
      pure (tcol, flags)
    else throw .illegalFieldDescriptor
  let flags := if flags = {} then gflag else flags
  -- a local `r` does not invert the global one
  let flags := if reverse then { flags with R := false } else flags
  let flags := { flags with BI := flags.BI || gflag.BI, BT := flags.BT || gflag.BT }
  let flags := if tcol.indent = 0 then { flags with BT := false } else flags
  if tcol.num ≠ 0 ∧ ¬ (flags.BI = false ∧ flags.BT = true) ∧ tcol.num ≤ icol.num ∧
      tcol.indent ≠ 0 ∧ tcol.indent < icol.indent then
    throw .fieldsOutOfOrder
  if numbered : 0 < icol.num then
    pure { icol := icol, tcol := tcol, flags := flags, numbered := numbered }
  else throw .fieldNumbersMustBePositive

end Netbase.Sort
