import Mathlib
import Netbase.Text.Decimal

/-!
# The keys of numeric fields

A number is written as its exponent and its digits, two to a byte, so that keys
compare as the numbers do.  The field ends at `lineend`, but the scanner looks
at the byte there, and blanks are skipped without regard to it: the text is the
memory from `line` on, with the number of bytes that are left before `lineend`.
-/

namespace Netbase.Sort

open Netbase.Text

def DECIMAL_POINT : Byte := byte '.'

/-- Bytes of a large exponent. -/
def MAX_EXP_ENC : Nat := 4

/-! ## Scanning -/

/-- `*line`, with a NUL behind the memory that is modelled. -/
def peek (mem : List Byte) : Byte := mem.headD 0

/-- `SKIP_BLANKS` runs on until a byte that is no blank. -/
def skipBlanks (blank : Byte → Bool) : List Byte → Nat → List Byte × Nat
  | [], n => ([], n)
  | c :: mem, n => if blank c then skipBlanks blank mem (n - 1) else (c :: mem, n)

/-- Zeroes in front of `lineend` are passed over and counted. -/
def eatZeroes : Nat → List Byte → Nat × List Byte × Nat
  | 0, mem => (0, mem, 0)
  | n + 1, mem =>
      if peek mem = byte '0' then
        let rest := eatZeroes n mem.tail
        (rest.1 + 1, rest.2)
      else (0, mem, n + 1)

/-- The number of digits in front of `lineend`. -/
def countDigits : Nat → List Byte → Nat
  | 0, _ => 0
  | n + 1, mem => if isdigit (peek mem) then countDigits n mem.tail + 1 else 0

/-! ## Exponents -/

/-- The low eight bits of an `int`. -/
def lowByte (e : Int) : Byte := UInt8.ofNat (e % 256).toNat

/-- The number of further bytes that the absolute value of an exponent needs. -/
def moreBytes : Nat → Nat → Nat
  | 0, _ => 0
  | fuel + 1, t => if t / 256 = 0 then 0 else moreBytes fuel (t / 256) + 1

/-- `k` bytes of an exponent, most significant first. -/
def shiftBytes (negate : Byte) (exponent : Int) : Nat → List Byte
  | 0 => []
  | k + 1 => (negate ^^^ lowByte (exponent / 256 ^ k)) :: shiftBytes negate exponent k

def exponentBytes (negate : Byte) (exponent : Int) : List Byte :=
  if exponent < 0x40 - MAX_EXP_ENC ∧ -exponent < 0x40 - MAX_EXP_ENC then
    [negate ^^^ lowByte (exponent + 0xc0)]
  else
    let c := moreBytes 4 exponent.natAbs
    let t : Int := c + 0x40 - MAX_EXP_ENC
    (negate ^^^ lowByte ((if exponent < 0 then -t else t) + 0xc0)) ::
      shiftBytes negate exponent (c + 1)

/-! ## Digits -/

/-- `(ch - '0') * 10` as an `unsigned int`. -/
def tens (ch : Byte) : Nat := (((ch.toNat : Int) - 48) * 10 % 4294967296).toNat

/-- The second digit of a byte: its value, and where the scanner stands. -/
def secondDigit : Nat → Bool → List Byte → Nat × Bool × List Byte × Nat
  | 0, had_dp, mem => (0, had_dp, mem, 0)
  | n + 1, had_dp, mem =>
      let ch := peek mem
      if ch = DECIMAL_POINT ∧ had_dp = false then secondDigit n true mem.tail
      else if isdigit ch then (ch.toNat - 48, had_dp, mem.tail, n)
      else (0, had_dp, mem.tail, 0)

/-- The mantissa is appended to `out`; `last` is the length up to the last byte that is not
zero. -/
def mantissa (negate : Byte) (room : Nat) :
    Nat → Nat → Bool → List Byte → List Byte → Nat → Option (List Byte × Nat)
  | 0, _, _, _, out, last => some (out, last)
  | fuel + 1, n, had_dp, mem, out, last =>
      if n = 0 then some (out, last)
      else if room ≤ out.length then none
      else
        let ch := peek mem
        let val := tens ch
        if 90 < val then
          if ch = DECIMAL_POINT ∧ had_dp = false then
            mantissa negate room fuel (n - 1) true mem.tail out last
          else some (out, last)
        else
          let second := secondDigit (n - 1) had_dp mem.tail
          let val := val + second.1
          let out := out ++ [negate ^^^ UInt8.ofNat (val + 0x40)]
          mantissa negate room fuel second.2.2.2 second.2.1 second.2.2.1 out
            (if val ≠ 0 then out.length else last)

/-! ## The key -/

/-- What follows the sign of a number, of which `n` bytes are left. -/
def unsigned (negate : Byte) (room : Nat) (mem : List Byte) (n : Nat) : Option (List Byte) :=
  let eaten := eatZeroes n mem
  let line := eaten.2.1
  let n := eaten.2.2
  let fraction := peek line = DECIMAL_POINT
  let skipped := eatZeroes (n - 1) line.tail
  let exponent : Int := if fraction then -1 - skipped.1 else -1 + countDigits n line
  let had_dp : Bool := fraction
  let n := if fraction then skipped.2.2 else n
  let line := if fraction then skipped.2.1 else line
  if (isdigit (peek line) ∧ peek line ≠ byte '0') ∧ n ≠ 0 then
    let out := exponentBytes negate exponent
    match mantissa negate room n n had_dp line out out.length with
    | none => none
    | some (out, last) => some (out.take last ++ [negate])
  else some [0x80]

/-- The key of the field of the first `n` bytes of `mem`, if there is room for it. -/
def number (blank : Byte → Bool) (room : Nat) (mem : List Byte) (n : Nat) (reverse : Bool) :
    Option (List Byte) :=
  let negate : Byte := if reverse then 0xff else 0
  let room := room - 1
  if room < 1 + MAX_EXP_ENC then none
  else
    let skipped := skipBlanks blank mem n
    let line := skipped.1
    let n := skipped.2
    if peek line = byte '-' then unsigned (negate ^^^ 0xff) room line.tail (n - 1)
    else if peek line = byte '+' then unsigned negate room line.tail (n - 1)
    else unsigned negate room line n

end Netbase.Sort
