import Mathlib.Data.BitVec
import Netbase.Lib.Sink
import Netbase.Text.Decimal

/-!
# Formatting into a buffer

`vsnprintf_ss` reads a format, and writes what every conversion comes to into a buffer of `slen`
bytes; its counter goes on when the buffer is full.  An `int` that would overflow, an argument of
another type than is asked for, and a store outside of the buffer are faults.
-/

namespace Netbase.Printf

open Netbase.Text Netbase.Lib

def INT_MAX : Nat := 2147483647

inductive Fault where
  | overflow
  | mismatch
  | outside
  deriving Repr, DecidableEq

/-- A number that is not negative as an `int`. -/
def int (n : Nat) : Except Fault Nat := if n ≤ INT_MAX then .ok n else .error .overflow

/-- An argument: a number or a pointer, of which a smaller type is the lower bits; the memory that
the pointer to a string shows; and where a count is to be stored. -/
inductive Arg where
  | word (n : BitVec 64)
  | text (cp : Option (List Byte))
  | count
  deriving Repr, DecidableEq

/-- `flags`; what stands in front of a hexadecimal number is decided by the conversion. -/
structure Flags where
  alt : Bool := false
  ladjust : Bool := false
  longint : Bool := false
  quadint : Bool := false
  shortint : Bool := false
  maxint : Bool := false
  ptrint : Bool := false
  sizeint : Bool := false
  zeropad : Bool := false
  deriving Repr, DecidableEq

/-- The variables of a conversion; no precision is -1 in the source. -/
structure Conversion where
  flags : Flags := {}
  width : Nat := 0
  prec : Option Nat := none
  sign : Byte := 0
  deriving Repr, DecidableEq

/-! ## Reading a conversion -/

/-- Where the scan stands: at `rflag`, in the digits of a width, behind the point, in the digits of
a precision, and behind an `l`. -/
inductive Mode where
  | flag
  | width (n : Nat)
  | point
  | prec (n : Nat)
  | long
  deriving Repr, DecidableEq

def to_digit (ch : Byte) : Nat := ch.toNat - 48

/-- A digit that goes on with a number. -/
def Mode.digit (ch : Byte) : Mode → Option Mode
  | .width n => if isdigit ch then some (.width (10 * n + to_digit ch)) else none
  | .point => if isdigit ch then some (.prec (to_digit ch)) else none
  | .prec n => if isdigit ch then some (.prec (10 * n + to_digit ch)) else none
  | _ => none

def Mode.Fits : Mode → Bool
  | .width n => n ≤ INT_MAX
  | .prec n => n ≤ INT_MAX
  | _ => true

/-- What has been read is over. -/
def Mode.close (s : Conversion) : Mode → Conversion
  | .flag => s
  | .width n => { s with width := n }
  | .point => { s with prec := some 0 }
  | .prec n => { s with prec := some n }
  | .long => { s with flags := { s.flags with longint := true } }

/-- The characters that set a flag. -/
def Conversion.flag (s : Conversion) (ch : Byte) : Option Conversion :=
  if ch = byte ' ' then some (if s.sign = 0 then { s with sign := byte ' ' } else s)
  else if ch = byte '#' then some { s with flags := { s.flags with alt := true } }
  else if ch = byte '-' then some { s with flags := { s.flags with ladjust := true } }
  else if ch = byte '+' then some { s with sign := byte '+' }
  else if ch = byte '0' then some { s with flags := { s.flags with zeropad := true } }
  else if ch = byte 'h' then some { s with flags := { s.flags with shortint := true } }
  else if ch = byte 'j' then some { s with flags := { s.flags with maxint := true } }
  else if ch = byte 'q' then some { s with flags := { s.flags with quadint := true } }
  else if ch = byte 't' then some { s with flags := { s.flags with ptrint := true } }
  else if ch = byte 'z' then some { s with flags := { s.flags with sizeint := true } }
  else none

/-- `va_arg(ap, int)` -/
def argInt (n : BitVec 64) : Int := (n.setWidth 32).toInt

def Conversion.starWidth (s : Conversion) (n : Int) : Except Fault Conversion :=
  if 0 ≤ n then .ok { s with width := n.toNat }
  else do
    let width ← int n.natAbs
    .ok { s with width, flags := { s.flags with ladjust := true } }

/-- The precision from an argument. -/
def Conversion.starPrec (s : Conversion) (n : Int) : Conversion :=
  { s with prec := if n < 0 then none else some n.toNat }

/-- A conversion that has been read: its variables and its letter, and what is behind it. -/
structure Scanned where
  s : Conversion
  ch : Byte
  fmt : List Byte
  ap : List Arg
  deriving Repr, DecidableEq

/-- The switch up to a letter that is no flag; nothing at the end of the format. -/
def scan : Mode → Conversion → List Byte → List Arg → Except Fault (Option Scanned)
  | _, _, [], _ => .ok none
  | mode, s, ch :: fmt, ap =>
      match mode.digit ch with
      | some mode => if mode.Fits then scan mode s fmt ap else .error .overflow
      | none =>
          if mode = .long ∧ ch = byte 'l' then
            scan .flag { s with flags := { s.flags with quadint := true } } fmt ap
          else if mode = .point ∧ ch = byte '*' then
            match ap with
            | .word n :: ap => scan .flag (s.starPrec (argInt n)) fmt ap
            | _ => .error .mismatch
          else if ch = byte '*' then
            match ap with
            | .word n :: ap =>
                match (mode.close s).starWidth (argInt n) with
                | .ok s => scan .flag s fmt ap
                | .error e => .error e
            | _ => .error .mismatch
          else if ch = byte '.' then scan .point (mode.close s) fmt ap
          else if ch = byte 'l' then scan .long (mode.close s) fmt ap
          else if isdigit ch ∧ ch ≠ byte '0' then
            scan (.width (to_digit ch)) (mode.close s) fmt ap
          else
            match (mode.close s).flag ch with
            | some s => scan .flag s fmt ap
            | none => if ch = 0 then .ok none else .ok (some ⟨mode.close s, ch, fmt, ap⟩)

/-! ## Converting an argument -/

/-- The size of the type that the flags ask for. -/
def Flags.bits (flags : Flags) : Nat :=
  if flags.maxint then 64
  else if flags.ptrint then 64
  else if flags.sizeint then 64
  else if flags.quadint then 64
  else if flags.longint then 64
  else if flags.shortint then 16
  else 32

def SARG (flags : Flags) (n : BitVec 64) : BitVec 64 := (n.setWidth flags.bits).signExtend 64

def UARG (flags : Flags) (n : BitVec 64) : BitVec 64 := (n.setWidth flags.bits).setWidth 64

def to_char (n : Nat) : Byte := UInt8.ofNat (n + 48)

def xdigs_lower : List Byte :=
  ascii ['0', '1', '2', '3', '4', '5', '6', '7', '8', '9', 'a', 'b', 'c', 'd', 'e', 'f']

def xdigs_upper : List Byte :=
  ascii ['0', '1', '2', '3', '4', '5', '6', '7', '8', '9', 'A', 'B', 'C', 'D', 'E', 'F']

/-- The loops of `OCT` and `HEX`: a digit, and on with the rest unless there is none. -/
def doDigits (digit : Nat → Byte) (shift : Nat) : Nat → Nat → List Byte → List Byte
  | 0, _, cp => cp
  | fuel + 1, uquad, cp =>
      if uquad >>> shift = 0 then digit uquad :: cp
      else doDigits digit shift fuel (uquad >>> shift) (digit uquad :: cp)

/-- `OCT` -/
def octDigits (uquad : BitVec 64) : List Byte :=
  doDigits (fun u => to_char (u &&& 7)) 3 64 uquad.toNat []

/-- `HEX` -/
def hexDigits (xdigs : List Byte) (uquad : BitVec 64) : List Byte :=
  doDigits (fun u => xdigs.getD (u &&& 15) 0) 4 64 uquad.toNat []

/-- The loop of `DEC`: digits while there are two. -/
def whileDigits : Nat → Nat → List Byte → List Byte
  | 0, _, cp => cp
  | fuel + 1, uquad, cp =>
      if 10 ≤ uquad then whileDigits fuel (uquad / 10) (to_char (uquad % 10) :: cp)
      else to_char uquad :: cp

/-- `DEC` -/
def decDigits (uquad : BitVec 64) : List Byte := whileDigits 64 uquad.toNat []

/-- A conversion whose characters stand at `cp`, as many as `size`. -/
structure Ready where
  s : Conversion
  ch : Byte
  cp : List Byte
  dprec : Nat := 0
  hexPrefix : Bool := false
  deriving Repr, DecidableEq

/-- `number`: a precision switches the zero flag off, and the value 0 with the precision 0 has no
characters. -/
def number (s : Conversion) (ch : Byte) (hexPrefix : Bool) (digits : BitVec 64 → List Byte)
    (uquad : BitVec 64) : Ready where
  s := { s with flags := { s.flags with zeropad := s.prec = none && s.flags.zeropad } }
  ch := ch
  cp := if uquad ≠ 0 ∨ s.prec ≠ some 0 then digits uquad else []
  dprec := s.prec.getD 0
  hexPrefix := hexPrefix

/-- `nosign` -/
def nosign (s : Conversion) : Conversion := { s with sign := 0 }

/-- `OCT` with its leading 0. -/
def altOctal (s : Conversion) (uquad : BitVec 64) : List Byte :=
  if s.flags.alt ∧ (octDigits uquad).head? ≠ some (byte '0') then byte '0' :: octDigits uquad
  else octDigits uquad

/-- `d` and `i` -/
def signed (s : Conversion) (ch : Byte) (n : BitVec 64) : Ready :=
  if (SARG s.flags n).toInt < 0 then
    number { s with sign := byte '-' } ch false decDigits (-SARG s.flags n)
  else number s ch false decDigits (SARG s.flags n)

/-- `o` -/
def octal (s : Conversion) (ch : Byte) (n : BitVec 64) : Ready :=
  number (nosign s) ch false (altOctal s) (UARG s.flags n)

/-- `u` -/
def unsigned (s : Conversion) (ch : Byte) (n : BitVec 64) : Ready :=
  number (nosign s) ch false decDigits (UARG s.flags n)

/-- `hex` -/
def hex (s : Conversion) (ch : Byte) (xdigs : List Byte) (n : BitVec 64) : Ready :=
  number (nosign s) ch (s.flags.alt && UARG s.flags n ≠ 0) (hexDigits xdigs) (UARG s.flags n)

/-- `p` -/
def pointer (s : Conversion) (n : BitVec 64) : Ready :=
  number (nosign s) (byte 'x') true (hexDigits xdigs_lower) n

def Conversion.long (s : Conversion) : Conversion :=
  { s with flags := { s.flags with longint := true } }

/-- The conversions of a number. -/
def Conversion.word (s : Conversion) (ch : Byte) : Option (BitVec 64 → Ready) :=
  if ch = byte 'c' then some fun n => { s := nosign s, ch, cp := [UInt8.ofNat n.toNat] }
  else if ch = byte 'D' then some (signed s.long ch)
  else if ch = byte 'd' ∨ ch = byte 'i' then some (signed s ch)
  else if ch = byte 'O' then some (octal s.long ch)
  else if ch = byte 'o' then some (octal s ch)
  else if ch = byte 'p' then some (pointer s)
  else if ch = byte 'U' then some (unsigned s.long ch)
  else if ch = byte 'u' then some (unsigned s ch)
  else if ch = byte 'X' then some (hex s ch xdigs_upper)
  else if ch = byte 'x' then some (hex s ch xdigs_lower)
  else none

/-- `s`: without a precision the text has to be terminated, and with one only if it is shorter. -/
def string (s : Conversion) (cp : Option (List Byte)) : Except Fault Ready :=
  let cp := cp.getD (ascii ['(', 'n', 'u', 'l', 'l', ')'] ++ [0])
  match s.prec with
  | some prec =>
      if 0 ∈ cp.take prec ∨ prec ≤ cp.length then
        .ok { s := nosign s, ch := byte 's', cp := (cp.take prec).takeWhile (· ≠ 0) }
      else .error .mismatch
  | none =>
      if 0 ∈ cp then do
        let _ ← int (cp.takeWhile (· ≠ 0)).length
        .ok { s := nosign s, ch := byte 's', cp := cp.takeWhile (· ≠ 0) }
      else .error .mismatch

/-- The switch at a letter other than `n`. -/
def convert (s : Conversion) (ch : Byte) (ap : List Arg) : Except Fault (Ready × List Arg) :=
  if ch = byte 's' then
    match ap with
    | .text cp :: ap => (string s cp).map fun ready => (ready, ap)
    | _ => .error .mismatch
  else
    match s.word ch with
    | some ready =>
        match ap with
        | .word n :: ap => .ok (ready n, ap)
        | _ => .error .mismatch
    | none => .ok ({ s := nosign s, ch, cp := [ch] }, ap)

/-! ## Writing -/

/-- The buffer, the counter, and the counts that `n` has stored, each with the size of its type. -/
structure Out where
  sink : Sink Byte
  ret : Nat
  counts : List (Nat × Int)
  deriving Repr, DecidableEq

/-- `PUTCHAR` -/
def PUTCHAR (c : Byte) (sink : Sink Byte) : Sink Byte := sink.put c

/-- `while (n-- > 0) PUTCHAR(c)` -/
def pad (c : Byte) : Nat → Sink Byte → Sink Byte
  | 0, sink => sink
  | n + 1, sink => pad c n (PUTCHAR c sink)

/-- `while (size--) PUTCHAR(*cp++)` -/
def putText : List Byte → Sink Byte → Sink Byte
  | [], sink => sink
  | c :: cp, sink => putText cp (PUTCHAR c sink)

/-- `realsz` -/
def Ready.realsz (r : Ready) : Nat :=
  max r.dprec r.cp.length + if r.s.sign ≠ 0 then 1 else if r.hexPrefix then 2 else 0

/-- The padding, the prefix, the zeros and the characters, with `n` places to fill. -/
def Ready.write (r : Ready) (n : Nat) (sink : Sink Byte) : Sink Byte :=
  let flags := r.s.flags
  let sink := if ¬ flags.ladjust ∧ ¬ flags.zeropad then pad (byte ' ') n sink else sink
  let sink :=
    if r.s.sign ≠ 0 then PUTCHAR r.s.sign sink
    else if r.hexPrefix then PUTCHAR r.ch (PUTCHAR (byte '0') sink)
    else sink
  let sink := if flags.zeropad ∧ ¬ flags.ladjust then pad (byte '0') n sink else sink
  let sink := pad (byte '0') (r.dprec - r.cp.length) sink
  let sink := putText r.cp sink
  if flags.ladjust then pad (byte ' ') n sink else sink

/-- What all conversions wind up at. -/
def emit (r : Ready) (o : Out) : Except Fault Out := do
  let realsz ← int r.realsz
  let ret ← int (o.ret + max r.s.width realsz)
  .ok { o with ret, sink := r.write (r.s.width - realsz) o.sink }

/-- A count as it is stored in an integer of the type that the flags ask for. -/
def storedCount (flags : Flags) (ret : Nat) : Nat × Int :=
  (flags.bits, Int.bmod ret (2 ^ flags.bits))

/-- The loop over the format. -/
def loop : Nat → List Byte → List Arg → Out → Except Fault Out
  | 0, _, _, o => .ok o
  | _ + 1, [], _, o => .ok o
  | fuel + 1, c :: fmt, ap, o =>
      if c = 0 then .ok o
      else if c ≠ byte '%' then do
        let ret ← int (o.ret + 1)
        loop fuel fmt ap { o with ret, sink := PUTCHAR c o.sink }
      else do
        match ← scan .flag {} fmt ap with
        | none => .ok o
        | some ⟨s, ch, fmt, ap⟩ =>
            if ch = byte 'n' then
              match ap with
              | .count :: ap =>
                  loop fuel fmt ap { o with counts := o.counts ++ [storedCount s.flags o.ret] }
              | _ => .error .mismatch
            else
              let (ready, ap) ← convert s ch ap
              let o ← emit ready o
              loop fuel fmt ap o

/-- What is returned, the buffer, and the counts. -/
structure Result where
  ret : Int
  sbuf : List Byte
  counts : List (Nat × Int)
  deriving Repr, DecidableEq

/-- `vsnprintf_ss` into a buffer of so many bytes. -/
def vsnprintf_ss (sbuf fmt : List Byte) (ap : List Arg) : Except Fault Result :=
  if INT_MAX < sbuf.length then .ok ⟨-1, sbuf, []⟩
  else do
    let o ← loop (fmt.length + 1) fmt ap ⟨⟨sbuf, 0⟩, 0, []⟩
    match o.sink.close 0 with
    | some sbuf => .ok ⟨o.ret, sbuf, o.counts⟩
    | none => .error .outside

end Netbase.Printf
