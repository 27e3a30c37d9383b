import Mathlib
import Netbase.Vis.Encode

/-!
# Decoding visual encodings

`unvis` is a state machine that is fed one character at a time and hands out the
decoded ones; it may hand one out and ask for the character to be fed again.
-/

namespace Netbase.Vis

open Netbase.Text

/-- The entities of RFC 1866. -/
def nv : List (List Byte × Byte) :=
  [(ascii ['A', 'E', 'l', 'i', 'g'], 198), (ascii ['A', 'a', 'c', 'u', 't', 'e'], 193),
    (ascii ['A', 'c', 'i', 'r', 'c'], 194), (ascii ['A', 'g', 'r', 'a', 'v', 'e'], 192),
    (ascii ['A', 'r', 'i', 'n', 'g'], 197), (ascii ['A', 't', 'i', 'l', 'd', 'e'], 195),
    (ascii ['A', 'u', 'm', 'l'], 196), (ascii ['C', 'c', 'e', 'd', 'i', 'l'], 199),
    (ascii ['E', 'T', 'H'], 208), (ascii ['E', 'a', 'c', 'u', 't', 'e'], 201),
    (ascii ['E', 'c', 'i', 'r', 'c'], 202), (ascii ['E', 'g', 'r', 'a', 'v', 'e'], 200),
    (ascii ['E', 'u', 'm', 'l'], 203), (ascii ['I', 'a', 'c', 'u', 't', 'e'], 205),
    (ascii ['I', 'c', 'i', 'r', 'c'], 206), (ascii ['I', 'g', 'r', 'a', 'v', 'e'], 204),
    (ascii ['I', 'u', 'm', 'l'], 207), (ascii ['N', 't', 'i', 'l', 'd', 'e'], 209),
    (ascii ['O', 'a', 'c', 'u', 't', 'e'], 211), (ascii ['O', 'c', 'i', 'r', 'c'], 212),
    (ascii ['O', 'g', 'r', 'a', 'v', 'e'], 210), (ascii ['O', 's', 'l', 'a', 's', 'h'], 216),
    (ascii ['O', 't', 'i', 'l', 'd', 'e'], 213), (ascii ['O', 'u', 'm', 'l'], 214),
    (ascii ['T', 'H', 'O', 'R', 'N'], 222), (ascii ['U', 'a', 'c', 'u', 't', 'e'], 218),
    (ascii ['U', 'c', 'i', 'r', 'c'], 219), (ascii ['U', 'g', 'r', 'a', 'v', 'e'], 217),
    (ascii ['U', 'u', 'm', 'l'], 220), (ascii ['Y', 'a', 'c', 'u', 't', 'e'], 221),
    (ascii ['a', 'a', 'c', 'u', 't', 'e'], 225), (ascii ['a', 'c', 'i', 'r', 'c'], 226),
    (ascii ['a', 'c', 'u', 't', 'e'], 180), (ascii ['a', 'e', 'l', 'i', 'g'], 230),
    (ascii ['a', 'g', 'r', 'a', 'v', 'e'], 224), (ascii ['a', 'm', 'p'], 38),
    (ascii ['a', 'r', 'i', 'n', 'g'], 229), (ascii ['a', 't', 'i', 'l', 'd', 'e'], 227),
    (ascii ['a', 'u', 'm', 'l'], 228), (ascii ['b', 'r', 'v', 'b', 'a', 'r'], 166),
    (ascii ['c', 'c', 'e', 'd', 'i', 'l'], 231), (ascii ['c', 'e', 'd', 'i', 'l'], 184),
    (ascii ['c', 'e', 'n', 't'], 162), (ascii ['c', 'o', 'p', 'y'], 169),
    (ascii ['c', 'u', 'r', 'r', 'e', 'n'], 164), (ascii ['d', 'e', 'g'], 176),
    (ascii ['d', 'i', 'v', 'i', 'd', 'e'], 247), (ascii ['e', 'a', 'c', 'u', 't', 'e'], 233),
    (ascii ['e', 'c', 'i', 'r', 'c'], 234), (ascii ['e', 'g', 'r', 'a', 'v', 'e'], 232),
    (ascii ['e', 't', 'h'], 240), (ascii ['e', 'u', 'm', 'l'], 235),
    (ascii ['f', 'r', 'a', 'c', '1', '2'], 189), (ascii ['f', 'r', 'a', 'c', '1', '4'], 188),
    (ascii ['f', 'r', 'a', 'c', '3', '4'], 190), (ascii ['g', 't'], 62),
    (ascii ['i', 'a', 'c', 'u', 't', 'e'], 237), (ascii ['i', 'c', 'i', 'r', 'c'], 238),
    (ascii ['i', 'e', 'x', 'c', 'l'], 161), (ascii ['i', 'g', 'r', 'a', 'v', 'e'], 236),
    (ascii ['i', 'q', 'u', 'e', 's', 't'], 191), (ascii ['i', 'u', 'm', 'l'], 239),
    (ascii ['l', 'a', 'q', 'u', 'o'], 171), (ascii ['l', 't'], 60),
    (ascii ['m', 'a', 'c', 'r'], 175), (ascii ['m', 'i', 'c', 'r', 'o'], 181),
    (ascii ['m', 'i', 'd', 'd', 'o', 't'], 183), (ascii ['n', 'b', 's', 'p'], 160),
    (ascii ['n', 'o', 't'], 172), (ascii ['n', 't', 'i', 'l', 'd', 'e'], 241),
    (ascii ['o', 'a', 'c', 'u', 't', 'e'], 243), (ascii ['o', 'c', 'i', 'r', 'c'], 244),
    (ascii ['o', 'g', 'r', 'a', 'v', 'e'], 242), (ascii ['o', 'r', 'd', 'f'], 170),
    (ascii ['o', 'r', 'd', 'm'], 186), (ascii ['o', 's', 'l', 'a', 's', 'h'], 248),
    (ascii ['o', 't', 'i', 'l', 'd', 'e'], 245), (ascii ['o', 'u', 'm', 'l'], 246),
    (ascii ['p', 'a', 'r', 'a'], 182), (ascii ['p', 'l', 'u', 's', 'm', 'n'], 177),
    (ascii ['p', 'o', 'u', 'n', 'd'], 163), (ascii ['q', 'u', 'o', 't'], 34),
    (ascii ['r', 'a', 'q', 'u', 'o'], 187), (ascii ['r', 'e', 'g'], 174),
    (ascii ['s', 'e', 'c', 't'], 167), (ascii ['s', 'h', 'y'], 173),
    (ascii ['s', 'u', 'p', '1'], 185), (ascii ['s', 'u', 'p', '2'], 178),
    (ascii ['s', 'u', 'p', '3'], 179), (ascii ['s', 'z', 'l', 'i', 'g'], 223),
    (ascii ['t', 'h', 'o', 'r', 'n'], 254), (ascii ['t', 'i', 'm', 'e', 's'], 215),
    (ascii ['u', 'a', 'c', 'u', 't', 'e'], 250), (ascii ['u', 'c', 'i', 'r', 'c'], 251),
    (ascii ['u', 'g', 'r', 'a', 'v', 'e'], 249), (ascii ['u', 'm', 'l'], 168),
    (ascii ['u', 'u', 'm', 'l'], 252), (ascii ['y', 'a', 'c', 'u', 't', 'e'], 253),
    (ascii ['y', 'e', 'n'], 165), (ascii ['y', 'u', 'm', 'l'], 255)]

inductive St where
  | S_GROUND | S_START | S_META | S_META1 | S_CTRL | S_OCTAL2 | S_OCTAL3 | S_HEX | S_HEX1
  | S_HEX2 | S_MIME1 | S_MIME2 | S_EATCRNL | S_AMP | S_NUMBER | S_STRING
  deriving Repr, DecidableEq

/-- The state word: the state, and the index in the name of an entity. -/
structure AState where
  st : St
  index : Nat
  deriving Repr, DecidableEq

/-- A state without an index. -/
def SS (st : St) : AState := ⟨st, 0⟩

inductive Unvis where
  | UNVIS_VALID | UNVIS_VALIDPUSH | UNVIS_NOCHAR | UNVIS_SYNBAD
  deriving Repr, DecidableEq

/-- What `unvis` returns, with the character and the state it leaves. -/
structure Reply where
  code : Unvis
  cp : Byte
  astate : AState
  deriving Repr, DecidableEq

/-- The value of a hexadecimal digit of either case. -/
def xtod (c : Byte) : Byte :=
  if isdigit c then c - byte '0' else (if isupper c then c + 32 else c) - byte 'a' + 10

/-- The value of an upper case hexadecimal digit. -/
def XTOD (c : Byte) : Byte := if isdigit c then c - byte '0' else c - byte 'A' + 10

/-- An escape that the decoder does not know. -/
def bad (cp : Byte) : Reply := ⟨.UNVIS_SYNBAD, cp, SS .S_GROUND⟩

/-- A character is handed out, and the next one is on its own. -/
def valid (cp : Byte) : Reply := ⟨.UNVIS_VALID, cp, SS .S_GROUND⟩

/-- More characters are needed. -/
def nochar (cp : Byte) (st : St) : Reply := ⟨.UNVIS_NOCHAR, cp, SS st⟩

/-- A character is handed out, and this one is not part of it. -/
def validpush (cp : Byte) : Reply := ⟨.UNVIS_VALIDPUSH, cp, SS .S_GROUND⟩

/-- What comes out of a single letter behind a backslash. -/
def letters : List (Byte × Byte) :=
  [(byte '\\', 92), (byte 'n', 10), (byte 'r', 13), (byte 'b', 8), (byte 'a', 7), (byte 'v', 11),
    (byte 't', 9), (byte 'f', 12), (byte 's', 32), (byte 'E', 27)]

/-- The character behind a backslash. -/
def unvisStart (cp c : Byte) : Reply :=
  match letters.lookup c with
  | some decoded => valid decoded
  | none =>
      if isoctal c then nochar (c - byte '0') .S_OCTAL2
      else if c = byte 'M' then nochar 0x80 .S_META
      else if c = byte '^' then nochar cp .S_CTRL
      else if c = byte 'x' then nochar cp .S_HEX
      else if c = 10 then nochar cp .S_GROUND
      else if c = byte '$' then nochar cp .S_GROUND
      else if isgraph c then valid c
      else bad cp

/-- The first digit behind `%` or a backslash and `x`. -/
def unvisHex1 (cp c : Byte) : Reply :=
  if isxdigit c then nochar (xtod c) .S_HEX2 else validpush cp

/-- The character of an entity name at an index. -/
def nameAt (ia index : Nat) : Byte := ((nv[ia]?.map Prod.fst).getD []).getD index 0

/-- The search for the entity that goes on with a character. -/
def entityLoop (index : Nat) (lc uc : Byte) : List (List Byte × Byte) → Nat → Option Nat
  | [], _ => none
  | entry :: rest, ia =>
      if index ≠ 0 ∧ entry.1.getD (index - 1) 0 ≠ lc then none
      else if entry.1.getD index 0 = uc then some ia
      else entityLoop index lc uc rest (ia + 1)

def unvisString (cp c : Byte) (index : Nat) : Reply :=
  let ia := cp.toNat
  let lc := if index = 0 then 0 else nameAt ia (index - 1)
  let uc := if c = byte ';' then 0 else c
  match entityLoop index lc uc (nv.drop ia) ia with
  | none => bad cp
  | some ia =>
      if uc ≠ 0 then ⟨.UNVIS_NOCHAR, UInt8.ofNat ia, ⟨.S_STRING, index + 1⟩⟩
      else valid ((nv[ia]?.map Prod.snd).getD 0)

/-- The end of the input. -/
def unvisEnd (cp : Byte) (astate : AState) : Reply :=
  match astate.st with
  | .S_OCTAL2 | .S_OCTAL3 | .S_HEX2 => valid cp
  | .S_GROUND => ⟨.UNVIS_NOCHAR, cp, astate⟩
  | _ => ⟨.UNVIS_SYNBAD, cp, astate⟩

def unvis (cp c : Byte) (astate : AState) (flag : Flags) : Reply :=
  if test flag UNVIS_END then unvisEnd cp astate
  else
    match astate.st with
    | .S_GROUND =>
        if !test flag VIS_NOESCAPE && c == byte '\\' then nochar 0 .S_START
        else if test flag VIS_HTTP1808 && c == byte '%' then nochar 0 .S_HEX1
        else if test flag VIS_HTTP1866 && c == byte '&' then nochar 0 .S_AMP
        else if test flag VIS_MIMESTYLE && c == byte '=' then nochar 0 .S_MIME1
        else ⟨.UNVIS_VALID, c, astate⟩
    | .S_START => unvisStart cp c
    | .S_META =>
        if c = byte '-' then nochar cp .S_META1
        else if c = byte '^' then nochar cp .S_CTRL
        else bad cp
    | .S_META1 => valid (cp ||| c)
    | .S_CTRL => valid (if c = byte '?' then cp ||| 0x7f else cp ||| (c &&& 0x1f))
    | .S_OCTAL2 =>
        if isoctal c then nochar ((cp <<< 3) + (c - byte '0')) .S_OCTAL3 else validpush cp
    | .S_OCTAL3 => if isoctal c then valid ((cp <<< 3) + (c - byte '0')) else validpush cp
    | .S_HEX => if !isxdigit c then bad cp else unvisHex1 cp c
    | .S_HEX1 => unvisHex1 cp c
    | .S_HEX2 => if isxdigit c then valid (xtod c ||| (cp <<< 4)) else validpush cp
    | .S_MIME1 =>
        if c = 10 ∨ c = 13 then nochar cp .S_EATCRNL
        else if isxdigit c && (isdigit c || isupper c) then nochar (XTOD c) .S_MIME2
        else bad cp
    | .S_MIME2 =>
        if isxdigit c && (isdigit c || isupper c) then valid (XTOD c ||| (cp <<< 4)) else bad cp
    | .S_EATCRNL =>
        if c = 13 ∨ c = 10 then ⟨.UNVIS_NOCHAR, cp, astate⟩
        else if c = byte '=' then nochar cp .S_MIME1
        else valid c
    | .S_AMP =>
        if c = byte '#' then nochar 0 .S_NUMBER else unvisString 0 c 0
    | .S_STRING => unvisString cp c astate.index
    | .S_NUMBER =>
        if c = byte ';' then ⟨.UNVIS_VALID, cp, astate⟩
        else if !isdigit c then bad cp
        else ⟨.UNVIS_NOCHAR, cp + (cp * 10 + c - byte '0'), astate⟩

/-- Feed one character, again where the decoder asks for that.  The ground state, which
it is in by then, does not ask once more. -/
def feed (flag : Flags) : Nat → Byte → AState → Byte → Option (List Byte × Byte × AState)
  | 0, _, _, _ => none
  | again + 1, t, state, c =>
      let reply := unvis t c state flag
      match reply.code with
      | .UNVIS_VALID => some ([reply.cp], reply.cp, reply.astate)
      | .UNVIS_VALIDPUSH =>
          (feed flag again reply.cp reply.astate c).map fun fed => (reply.cp :: fed.1, fed.2)
      | .UNVIS_NOCHAR => some ([], reply.cp, reply.astate)
      | .UNVIS_SYNBAD => none

/-- Feed the characters of a string. -/
def feeds (flag : Flags) : Byte → AState → List Byte → Option (List Byte × Byte × AState)
  | t, state, [] => some ([], t, state)
  | t, state, c :: src =>
      match feed flag 2 t state c with
      | none => none
      | some (out, t, state) => (feeds flag t state src).map fun fed => (out ++ fed.1, fed.2)

/-- Decode characters up to the end of the input. -/
def decodeFrom (flag : Flags) (t : Byte) (state : AState) (src : List Byte) :
    Option (List Byte) :=
  match feeds flag t state src with
  | none => none
  | some (out, t, state) =>
      let reply := unvis t 0 state UNVIS_END
      some (out ++ if reply.code = .UNVIS_VALID then [reply.cp] else [])

/-- Every character and the terminator take one of the `dlen` places. -/
def strnunvisx (dlen : Nat) (src : List Byte) (flag : Flags) : Option (List Byte) :=
  match decodeFrom flag 0 (SS .S_GROUND) (cstring src) with
  | none => none
  | some decoded => if decoded.length + 1 ≤ dlen then some decoded else none

def strunvisx (src : List Byte) (flag : Flags) : Option (List Byte) :=
  strnunvisx SIZE_MAX src flag

end Netbase.Vis
