import Mathlib
import Netbase.Text.Decimal

/-!
# Visual encoding

`vis` writes every byte of a string so that it can be shown.  A byte stands for
itself, or for one of several escapes: a letter behind a backslash, three octal
digits, `M-` and `^` forms, `%` or `=` with two hexadecimal digits.  Which one is up
to the flags, the list of extra characters and the byte that follows.  Everything
here is in the C locale, where a character is one byte.
-/

namespace Netbase.Vis

open Netbase.Text

/-- A flag word. -/
abbrev Flags := BitVec 32

def VIS_OCTAL : Flags := 0x0001
def VIS_CSTYLE : Flags := 0x0002
def VIS_SP : Flags := 0x0004
def VIS_TAB : Flags := 0x0008
def VIS_NL : Flags := 0x0010
def VIS_SAFE : Flags := 0x0020
def VIS_DQ : Flags := 0x8000
def VIS_NOSLASH : Flags := 0x0040
def VIS_HTTP1808 : Flags := 0x0080
def VIS_HTTPSTYLE : Flags := 0x0080
def VIS_MIMESTYLE : Flags := 0x0100
def VIS_HTTP1866 : Flags := 0x0200
def VIS_NOESCAPE : Flags := 0x0400
def UNVIS_END : Flags := 0x0800
def VIS_GLOB : Flags := 0x1000
def VIS_SHELL : Flags := 0x2000
def VIS_NOLOCALE : Flags := 0x4000

/-- Some bit of the mask is set. -/
def test (flags mask : Flags) : Bool := flags &&& mask != 0

/-! ## Characters -/

def isgraph (c : Byte) : Bool := 33 ≤ c.toNat && c.toNat ≤ 126

def iscntrl (c : Byte) : Bool := c.toNat < 32 || c.toNat == 127

def isupper (c : Byte) : Bool := 65 ≤ c.toNat && c.toNat ≤ 90

def islower (c : Byte) : Bool := 97 ≤ c.toNat && c.toNat ≤ 122

def isalnum (c : Byte) : Bool := isdigit c || isupper c || islower c

def isxdigit (c : Byte) : Bool :=
  isdigit c || (65 ≤ c.toNat && c.toNat ≤ 70) || (97 ≤ c.toNat && c.toNat ≤ 102)

def isoctal (c : Byte) : Bool := 48 ≤ c.toNat && c.toNat ≤ 55

def iswwhite (c : Byte) : Bool := c == 32 || c == 9 || c == 10

/-- Backspace, bell and carriage return. -/
def iswsafe (c : Byte) : Bool := c == 8 || c == 7 || c == 13

/-- A lower case hexadecimal digit. -/
def xtoa (d : Byte) : Byte := if d < 10 then byte '0' + d else byte 'a' + (d - 10)

/-- An upper case hexadecimal digit. -/
def XTOA (d : Byte) : Byte := if d < 10 then byte '0' + d else byte 'A' + (d - 10)

/-- A wide string holds a character; the terminating zero is found too. -/
def wcschr (list : List Byte) (c : Byte) : Bool := list.contains c || c == 0

/-! ## One character -/

/-- The letters that have a meaning of their own behind a backslash. -/
def reserved : List Byte := ascii ['n', 'r', 'b', 'a', 'v', 't', 'f', 's', '0', 'M', '^', '$']

/-- The escapes of C, where there is one. -/
def cstyle (c nextc : Byte) : Option (List Byte) :=
  if c = 10 then some (ascii ['\\', 'n'])
  else if c = 13 then some (ascii ['\\', 'r'])
  else if c = 8 then some (ascii ['\\', 'b'])
  else if c = 7 then some (ascii ['\\', 'a'])
  else if c = 11 then some (ascii ['\\', 'v'])
  else if c = 9 then some (ascii ['\\', 't'])
  else if c = 12 then some (ascii ['\\', 'f'])
  else if c = 32 then some (ascii ['\\', 's'])
  else if c = 0 then
    some (ascii ['\\', '0'] ++ if isoctal nextc then ascii ['0', '0'] else [])
  else if reserved.contains c then none
  else if isgraph c && !isoctal c then some [byte '\\', c]
  else none

/-- A backslash and three octal digits. -/
def octal (c : Byte) : List Byte :=
  [byte '\\', (c >>> 6 &&& 3) + byte '0', (c >>> 3 &&& 7) + byte '0', (c &&& 7) + byte '0']

/-- The `M-` and `^` forms. -/
def metaForm (slash : Bool) (c : Byte) : List Byte :=
  let low := c &&& 0x7f
  (if slash then [byte '\\'] else []) ++ (if c &&& 0x80 ≠ 0 then [byte 'M'] else []) ++
    if iscntrl low then [byte '^', if low = 0x7f then byte '?' else low + byte '@']
    else [byte '-', low]

/-- A byte that does not stand for itself. -/
def doMbyte (flags : Flags) (c nextc : Byte) (iswextra : Bool) : List Byte :=
  match if test flags VIS_CSTYLE then cstyle c nextc else none with
  | some escape => escape
  | none =>
      if iswextra || c &&& 0x7f = 32 || test flags VIS_OCTAL then octal c
      else metaForm (!test flags VIS_NOSLASH) c

/-- `do_svis`; its loop over the bytes of a wide character runs once. -/
def doSvis (flags : Flags) (c nextc : Byte) (extra : List Byte) : List Byte :=
  let iswextra := wcschr extra c
  if !iswextra && (isgraph c || iswwhite c || (test flags VIS_SAFE && iswsafe c)) then [c]
  else doMbyte flags c nextc iswextra

/-- The characters of RFC 1808 that need no escape. -/
def httpSafe (c : Byte) : Bool :=
  isalnum c || (ascii ['$', '-', '_', '.', '+', '!', '*', '\'', '(', ')', ',']).contains c

def doHvis (flags : Flags) (c nextc : Byte) (extra : List Byte) : List Byte :=
  if httpSafe c then doSvis flags c nextc extra
  else [byte '%', xtoa (c >>> 4 &&& 0xf), xtoa (c &&& 0xf)]

/-- The characters of RFC 2045 that are escaped. -/
def mimeEscapes (c nextc : Byte) : Bool :=
  c != 10 &&
    ((isspace c && (nextc == 13 || nextc == 10)) ||
      (!isspace c && (c.toNat < 33 || (c.toNat > 60 && c.toNat < 62) || c.toNat > 126)) ||
      wcschr (ascii ['#', '$', '@', '[', '\\', ']', '^', '`', '\x7b', '|', '\x7d', '~']) c)

def doMvis (flags : Flags) (c nextc : Byte) (extra : List Byte) : List Byte :=
  if mimeEscapes c nextc then [byte '=', XTOA (c >>> 4 &&& 0xf), XTOA (c &&& 0xf)]
  else doSvis flags c nextc extra

def getvisfun (flags : Flags) : Flags → Byte → Byte → List Byte → List Byte :=
  if test flags VIS_HTTPSTYLE then doHvis
  else if test flags VIS_MIMESTYLE then doMvis
  else doSvis

/-! ## Strings -/

/-- A string up to its terminating zero. -/
def cstring (s : List Byte) : List Byte := s.takeWhile (· ≠ 0)

def charGlob : List Byte := ascii ['*', '?', '[', '#']

def charShell : List Byte :=
  ascii ['\'', '`', '"', ';', '&', '<', '>', '(', ')', '|', '\x7b', '\x7d', ']', '\\', '$', '!',
    '^', '~']

def makeextralist (flags : Flags) (src : List Byte) : List Byte :=
  cstring src ++ (if test flags VIS_GLOB then charGlob else []) ++
    (if test flags VIS_SHELL then charShell else []) ++
    (if test flags VIS_SP then [32] else []) ++ (if test flags VIS_TAB then [9] else []) ++
    (if test flags VIS_NL then [10] else []) ++ (if test flags VIS_DQ then [byte '"'] else []) ++
    if !test flags VIS_NOSLASH then [byte '\\'] else []

/-- The processing loop: `len` characters, each with the next one in view. -/
def visLoop (f : Byte → Byte → List Byte) : Nat → List Byte → List Byte
  | 0, _ => []
  | _ + 1, [] => []
  | len + 1, c :: src => f c (src.headD 0) ++ visLoop f len src

def SIZE_MAX : Nat := 2 ^ 64 - 1

/-- The limit of the C library. -/
def MB_LEN_MAX : Nat := 16

/-- `after` is the byte behind the source; it is looked at where the source is a single
character.  There is no result where the sizes of the buffers do not fit. -/
def strsvisx (mbsrc : List Byte) (after : Byte) (flags : Flags) (mbextra : List Byte) :
    Option (List Byte) :=
  let psrc := if mbsrc.length = 1 then mbsrc ++ [after] else mbsrc
  if psrc.length > (SIZE_MAX - 1) / 16 then none
  else
    let extra := makeextralist flags mbextra
    let dst := visLoop (fun c nextc => getvisfun flags flags c nextc extra) mbsrc.length psrc
    let out := cstring dst
    if out.length > (SIZE_MAX - 1) / MB_LEN_MAX then none else some out

end Netbase.Vis
