import Mathlib.Data.List.Basic
import Mathlib.Tactic.Common

/-!
# Folding lines

`fold` keeps the line that it reads in a buffer until the next character would be too wide for it,
and writes it with a newline behind it.  With `-s` it is broken at its last blank, and what is
behind the blank is moved down.  A store outside of what has been allocated is a fault.
-/

namespace Netbase.Fold

/-- `wchar_t` -/
abbrev Wide := UInt32

def backspace : Wide := 8

def tab : Wide := 9

def newline : Wide := 10

def return_ : Wide := 13

def blank : Wide := 32

/-- What the locale knows of a character: its columns, and the bytes that it is written as. -/
structure Locale where
  wcwidth : Wide → Int
  wcrtomb : Wide → Nat

structure Options where
  count_bytes : Bool
  split_words : Bool
  width : Nat
  deriving Repr, DecidableEq

inductive Fault where
  | outside
  deriving Repr, DecidableEq

/-- What is written: a character, and a newline that `fold` inserts.  Where a blank gives way to
the newline, it is known what of the line has been moved down and which character comes next. -/
inductive Put where
  | char (c : Wide)
  | fold (moved : Option (List Wide))
  deriving Repr, DecidableEq

/-- The buffer with its elements, and the line in it. -/
structure Line where
  buf : List Wide
  buf_max : Nat
  indx : Nat
  col : Nat
  deriving Repr, DecidableEq

section

variable (locale : Locale) (o : Options)

/-- `new_column_position` -/
def new_column_position (col : Nat) (ch : Wide) : Nat :=
  if o.count_bytes then col + locale.wcrtomb ch
  else if ch = backspace then if 0 < col then col - 1 else col
  else if ch = return_ then 0
  else if ch = tab then (col + 8) / 8 * 8
  else if 0 < locale.wcwidth ch then col + (locale.wcwidth ch).toNat
  else col

def columns (text : List Wide) : Nat := text.foldl (new_column_position locale o) 0

/-- The loop over the line for `last_space`. -/
def lastSpace : Nat → Option Nat → List Wide → Option Nat
  | _, last, [] => last
  | i, last, c :: rest => lastSpace (i + 1) (if c = blank then some i else last) rest

def Line.held (l : Line) : List Wide := l.buf.take l.indx

def Line.put (l : Line) (n : Nat) : List Put := (l.buf.take n).map .char

/-- `wmemmove` of the line behind a place, and the place behind it. -/
def Line.moveDown (l : Line) (place : Nat) : Line :=
  { l with
    buf := (l.buf.drop place).take (l.indx - place) ++ l.buf.drop (l.indx - place)
    indx := l.indx - place }

/-- What is done when a character is too wide for the line. -/
def Line.breakAt (l : Line) (ch : Wide) : List Put × Line :=
  match if o.split_words then lastSpace 0 none l.held else none with
  | some last_space =>
      let down := l.moveDown (last_space + 1)
      (l.put last_space ++ [.fold (some (down.held ++ [ch]))],
        { down with col := new_column_position locale o (columns locale o down.held) ch })
  | none => (l.put l.indx ++ [.fold none], { l with indx := 0, col := new_column_position locale o 0 ch })

/-- `sizeof (wchar_t)` -/
def wchar_size : Nat := 4

/-- `realloc` of so many bytes; what is new has any value. -/
def realloc (buf : List Wide) (bytes : Nat) : List Wide :=
  buf.take (bytes / wchar_size) ++ List.replicate (bytes / wchar_size - buf.length) 0

/-- The buffer is allocated in steps. -/
def Line.grow (l : Line) : Line :=
  if l.buf_max < l.indx + 1 then
    { l with buf := realloc l.buf (l.buf_max + 2048), buf_max := l.buf_max + 2048 }
  else l

/-- `buf[indx++] = ch` -/
def Line.push (l : Line) (ch : Wide) : Except Fault Line :=
  if l.indx < l.buf.length then .ok { l with buf := l.buf.set l.indx ch, indx := l.indx + 1 }
  else .error .outside

/-- What a character other than a newline does to the line. -/
def Line.next (l : Line) (ch : Wide) : Except Fault (List Put × Line) := do
  let col := new_column_position locale o l.col ch
  let (out, l) := if o.width < col then l.breakAt locale o ch else ([], { l with col })
  let l ← l.grow.push ch
  .ok (out, l)

def foldLoop : List Wide → Line → Except Fault (List Put × Line)
  | [], l => .ok (l.put l.indx, l)
  | ch :: input, l =>
      if ch = newline then do
        let (out, last) ← foldLoop input { l with col := 0, indx := 0 }
        .ok (l.put l.indx ++ .char newline :: out, last)
      else do
        let (out, l) ← l.next locale o ch
        let (more, last) ← foldLoop input l
        .ok (out ++ more, last)

/-- The buffer is kept from one file to the next. -/
structure Static where
  buf : List Wide
  buf_max : Nat
  deriving Repr, DecidableEq

/-- `fold` -/
def fold (kept : Static) (input : List Wide) : Except Fault (List Put × Static) := do
  let (out, l) ← foldLoop locale o input ⟨kept.buf, kept.buf_max, 0, 0⟩
  .ok (out, ⟨l.buf, l.buf_max⟩)

end

end Netbase.Fold
