import Netbase.Lib.Cursor
import Netbase.Text.Ctype

/-!
# The operands of tr

An operand is expanded one character a call.  The string is read through a pointer,
which is kept here as what it points to, up to and with the terminating NUL.
-/

namespace Netbase.Tr

open Netbase.Text Netbase.Lib

inductive Which where
  | STRING1 | STRING2
  deriving Repr, DecidableEq

inductive State where
  | EOS | INFINITE | NORMAL | RANGE | SEQUENCE | SET
  deriving Repr, DecidableEq

def NCHARS : Nat := 256

/-- The out of band character. -/
def OOBCH : Int := 256

structure STR where
  which : Which
  state : State
  cnt : BitVec 32
  lastch : Int
  equiv : Int × Int
  set : List Int
  str : List Byte

/-- Why a call does not return: a diagnostic, a read behind the terminating NUL or
behind a set, and calls without an end. -/
inductive Stop where
  | errx (message : String)
  | stray
  | endless
  deriving Repr, DecidableEq

abbrev Scan := Except Stop

def str_create (whichstring : Which) (txt : List Byte) : STR where
  which := whichstring
  state := .NORMAL
  cnt := 0
  lastch := OOBCH
  equiv := (0, OOBCH)
  set := []
  str := txt

/-! ## Escapes -/

/-- Up to this many digits, and what follows them. -/
def octal : Nat → Nat → List Byte → Scan (Nat × List Byte)
  | 0, val, str => return (val, str)
  | left + 1, val, str => do
      let ch ← look .stray str
      if isdigit ch then octal left (val * 8 + (ch.toNat - 48)) str.tail
      else return (val, str)

/-- What an escaped character stands for. -/
def escape (ch : Byte) : Int :=
  if ch = byte 'a' then 7
  else if ch = byte 'b' then 8
  else if ch = byte 'e' then 27
  else if ch = byte 'f' then 12
  else if ch = byte 'n' then 10
  else if ch = byte 'r' then 13
  else if ch = byte 't' then 9
  else if ch = byte 'v' then 11
  else ch.toNat

/-- Translate `\???` into a character. -/
def backslash (s : STR) : Scan (Int × STR) := do
  let str := s.str.tail
  let ch ← look .stray str
  if isdigit ch then do
    let (val, rest) ← octal 3 0 str
    if (val : Int) ≥ OOBCH then throw (.errx "Invalid octal character value")
    else return (val, { s with str := rest })
  else if ch = 0 then return (92, { s with state := .EOS, str := str })
  else return (escape ch, { s with str := str.tail })

/-- The character here, which may be escaped. -/
def character (s : STR) : Scan (Int × STR) := do
  let ch ← look .stray s.str
  if ch = byte '\\' then backslash s
  else return (ch.toNat, { s with str := s.str.tail })

/-! ## Bracket expressions -/

inductive Class where
  | alnum | alpha | blank | cntrl | digit | graph | lower | print | punct | space | upper | xdigit
  deriving Repr, DecidableEq

def classes : List (List Byte × Class) :=
  [(ascii ['a', 'l', 'n', 'u', 'm'], .alnum), (ascii ['a', 'l', 'p', 'h', 'a'], .alpha),
    (ascii ['b', 'l', 'a', 'n', 'k'], .blank), (ascii ['c', 'n', 't', 'r', 'l'], .cntrl),
    (ascii ['d', 'i', 'g', 'i', 't'], .digit), (ascii ['g', 'r', 'a', 'p', 'h'], .graph),
    (ascii ['l', 'o', 'w', 'e', 'r'], .lower), (ascii ['p', 'r', 'i', 'n', 't'], .print),
    (ascii ['p', 'u', 'n', 'c', 't'], .punct), (ascii ['s', 'p', 'a', 'c', 'e'], .space),
    (ascii ['u', 'p', 'p', 'e', 'r'], .upper), (ascii ['x', 'd', 'i', 'g', 'i', 't'], .xdigit)]

/-- The characters of a class; which they are depends on the locale. -/
def genclass (isclass : Class → Nat → Bool) (name : List Byte) : Scan (List Int) :=
  match classes.lookup name with
  | none =>
      throw (.errx ("unknown class " ++ String.ofList (name.map fun c => Char.ofNat c.toNat)))
  | some cls =>
      let chars := ((List.range NCHARS).filter (isclass cls)).map Int.ofNat
      return chars ++ OOBCH :: List.replicate (NCHARS - chars.length) 0

def genequiv (s : STR) : Scan STR := do
  let (c, s) ← character s
  let s := { s with equiv := (c, s.equiv.2) }
  if (← look .stray s.str) ≠ byte '=' then throw (.errx "Misplaced equivalence equals sign")
  else if (← look .stray s.str.tail) ≠ byte ']' then
    throw (.errx "Misplaced equivalence right bracket")
  else
    return { s with
      cnt := 0
      state := .SET
      set := [s.equiv.1, s.equiv.2]
      str := s.str.tail.tail }

def digitIn (base : Nat) (c : Byte) : Option Nat :=
  let value :=
    if isdigit c then c.toNat - 48
    else if isupper c then c.toNat - 55
    else if islower c then c.toNat - 87
    else base
  if value < base then some value else none

def number (base : Nat) : Nat → List Byte → Scan (Nat × List Byte)
  | _, [] => throw .stray
  | val, c :: rest =>
      match digitIn base c with
      | some d => number base (val * base + d) rest
      | none => return (val, c :: rest)

/-- The prefix of a hexadecimal number is in front of one of its digits. -/
def hexadecimal : List Byte → Bool
  | zero :: x :: c :: _ =>
      zero == byte '0' && (x == byte 'x' || x == byte 'X') && (digitIn 16 c).isSome
  | _ => false

/-- `strtol(str, &ep, 0)` of a text that starts with a digit. -/
def strtol (str : List Byte) : Scan (Nat × List Byte) := do
  let (val, ep) ←
    if hexadecimal str then number 16 0 (str.drop 2)
    else if str.head? = some (byte '0') then number 8 0 str
    else number 10 0 str
  return (min val longMax.toNat, ep)

/-- The count of a sequence behind its asterisk; a `long` goes into an `int`. -/
def seqcount (s : STR) : Scan (BitVec 32 × STR) := do
  let ch ← look .stray s.str
  if ch = byte '\\' then do
    let (c, s) ← backslash s
    return (BitVec.ofInt 32 c, s)
  else if ch = byte ']' then return (0, { s with str := s.str.tail })
  else if isdigit ch then do
    let (val, ep) ← strtol s.str
    if (← look .stray ep) = byte ']' then return (BitVec.ofNat 32 val, { s with str := ep.tail })
    else throw (.errx "illegal sequence count")
  else throw (.errx "illegal sequence count")

def genseq (s : STR) : Scan STR := do
  if s.which = .STRING1 then throw (.errx "Sequences only valid in string2")
  else do
    let (c, s) ← character s
    let s := { s with lastch := c }
    if (← look .stray s.str) ≠ byte '*' then throw (.errx "Misplaced sequence asterisk")
    else do
      let (cnt, s) ← seqcount { s with str := s.str.tail }
      return { s with cnt := cnt, state := if cnt ≠ 0 then .SEQUENCE else .INFINITE }

/-- The text starts with one of these. -/
def headIn (charset : List Byte) (t : List Byte) : Bool := t.head?.any (charset.contains ·)

/-- A class, an equivalence or a sequence, if there is one here. -/
def bracket (isclass : Class → Nat → Bool) (s : STR) : Scan (Bool × STR) := do
  let c ← look .stray s.str.tail
  let rest := s.str.tail.tail
  if c = byte ':' then
    match ← search 0 .stray (ascii [':', ']']).isPrefixOf rest with
    | none => return (false, s)
    | some p => do
        let q ← genclass isclass (rest.take (rest.length - p.length))
        return (true, { s with state := .SET, set := q, cnt := 0, str := p.drop 2 })
  else if c = byte '=' then
    match ← search 0 .stray (ascii ['=', ']']).isPrefixOf rest with
    | none => return (false, s)
    | some p => do
        let s ← genequiv { s with str := rest }
        return (true, { s with str := p.drop 2 })
  else
    match ← search 0 .stray (headIn (ascii ['*', ']'])) rest with
    | none => return (false, s)
    | some p =>
        if p.head? ≠ some (byte '*') then return (false, s)
        else
          match ← search 0 .stray (headIn (ascii [']'])) p with
          | none => return (false, s)
          | some _ => do
              let s ← genseq { s with str := s.str.tail }
              return (true, s)

/-! ## Ranges -/

def genrange (s : STR) : Scan (Bool × STR) := do
  let savestart := s.str
  let (stopval, s) ← character { s with str := s.str.tail }
  if stopval < s.lastch % 256 then return (false, { s with str := savestart })
  else
    return (true,
      { s with
        cnt := BitVec.ofInt 32 (stopval - s.lastch + 1)
        state := .RANGE
        lastch := s.lastch - 1 })

/-! ## Calls -/

/-- A range can start behind any character. -/
def orRange (s : STR) : Scan (STR × Option Bool) := do
  if (← look .stray s.str) = byte '-' then do
    let (taken, s) ← genrange s
    return (s, if taken then none else some true)
  else return (s, some true)

/-- One round of a call: it returns whether there was a character, or goes around again.
The character is `lastch`. -/
def step (isclass : Class → Nat → Bool) (s : STR) : Scan (STR × Option Bool) :=
  match s.state with
  | .EOS => return (s, some false)
  | .INFINITE => return (s, some true)
  | .NORMAL => do
      let ch ← look .stray s.str
      let plain : STR := { s with str := s.str.tail, lastch := ch.toNat }
      if ch = 0 then return ({ s with state := .EOS }, some false)
      else if ch = byte '\\' then do
        let (c, s) ← backslash s
        orRange { s with lastch := c }
      else if ch = byte '[' then do
        let (taken, s) ← bracket isclass s
        if taken then return (s, none) else orRange plain
      else orRange plain
  | .RANGE =>
      if s.cnt = 0 then return ({ s with state := .NORMAL }, none)
      else return ({ s with cnt := s.cnt - 1, lastch := s.lastch + 1 }, some true)
  | .SEQUENCE =>
      if s.cnt = 0 then return ({ s with state := .NORMAL }, none)
      else return ({ s with cnt := s.cnt - 1 }, some true)
  | .SET =>
      match s.set[s.cnt.toNat]? with
      | none => throw .stray
      | some c =>
          if c = OOBCH then
            return ({ s with state := .NORMAL, cnt := s.cnt + 1, lastch := c, set := [] }, none)
          else return ({ s with cnt := s.cnt + 1, lastch := c }, some true)

/-- Rounds until the call returns. -/
def rounds (isclass : Class → Nat → Bool) : Nat → STR → Scan (STR × Bool)
  | 0, _ => throw .endless
  | fuel + 1, s => do
      let (s, ret) ← step isclass s
      match ret with
      | none => rounds isclass fuel s
      | some more => return (s, more)

/-- The next character, in `lastch`, and whether there is one. -/
def next (isclass : Class → Nat → Bool) (s : STR) : Scan (STR × Bool) :=
  rounds isclass (2 * s.str.length + 2) s

/-- Any number of calls. -/
def calls (isclass : Class → Nat → Bool) : Nat → STR → Scan STR
  | 0, s => return s
  | n + 1, s => do
      let (s, _) ← next isclass s
      calls isclass n s

end Netbase.Tr
