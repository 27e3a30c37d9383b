import Mathlib.Logic.Function.Basic
import Netbase.Text.Decimal

/-!
# Hunks of a unified patch

`another_hunk` reads one hunk of the patch file into the arrays `p_line`,
`p_len` and `p_char`: entry 0 is the `***` row, entries `1..p_ptrn_lines` are
the old lines, entry `p_ptrn_lines + 1` is the `---` row and the rest up to
`p_end` are the new lines.  `pch_swap` exchanges the two halves.  The marks
`!` and blank lines belong to context diffs and do not occur here.
-/

namespace Netbase.Patch.Pch

open Netbase.Text

/-- The characters stored in `p_char`, with the stopper behind the last line. -/
inductive Mark where
  | header
  | split
  | context
  | delete
  | insert
  | stop
  deriving DecidableEq, Repr

/-- The fatal exits of the modelled functions. -/
inductive Fatal where
  /-- `malformed patch at line %ld: %s` -/
  | malformed (inputLine : Nat) (buf : List Byte)
  /-- `unexpected end of file in patch` -/
  | unexpectedEof
  /-- `Malformed patch at line %ld: expected '=' found '%c'` -/
  | expectedSplit (found : Mark)
  /-- `Malformed patch at line %ld: expected %ld lines, got %ld` -/
  | expectedLines (expected got : Nat)
  /-- `misordered hunks! output would be garbled` -/
  | misordered
  /-- `Out-of-sync patch, lines %ld,%ld--mangled text or line numbers, maybe?` -/
  | outOfSync (old new : Nat)
  /-- `Internal error: expected ' '` -/
  | expectedSpace
  deriving DecidableEq, Repr

/-- The C string at the front of a buffer. -/
def cstr (buf : List Byte) : List Byte := buf.takeWhile (· ≠ 0)

/-- Conversion of a length to the `short` of `p_len`. -/
def toShort (n : Int) : Int := Int.bmod n 65536

/-- The arrays `p_line`, `p_len` and `p_char`. -/
structure Slots where
  line : Nat → List Byte
  len : Nat → Int
  char : Nat → Mark

def Slots.put (slots : Slots) (i : Nat) (mark : Mark) (s : List Byte) : Slots :=
  { line := Function.update slots.line i s
    len := Function.update slots.len i (toShort s.length)
    char := Function.update slots.char i mark }

/-- Write a NUL into a string. -/
def cutAt (s : List Byte) (at_ : Int) : List Byte :=
  if 0 ≤ at_ then s.take at_.toNat else s

/-- `p_len[i] -= 1` followed by a NUL at the new end of `p_line[i]`. -/
def Slots.chop (slots : Slots) (i : Nat) : Slots :=
  { slots with
    line := Function.update slots.line i (cutAt (slots.line i) (toShort (slots.len i - 1)))
    len := Function.update slots.len i (toShort (slots.len i - 1)) }

structure Hunk where
  first : Int
  newfirst : Int
  ptrnLines : Nat
  replLines : Nat
  endLine : Nat
  context : Int
  slots : Slots

/-- The unread part of the patch file and the number of lines read. -/
structure Stream where
  rest : List Byte
  inputLine : Nat

/-! ## Reading a hunk -/

def getskiplinenum (s : List Byte) : Option (Nat × List Byte) :=
  if atol s < 0 then none else some ((atol s).toNat, s.dropWhile isdigit)

/-- A line number and, after a comma, a count that defaults to one. -/
def lineRange (s : List Byte) : Option (Nat × Nat × List Byte) :=
  match getskiplinenum s with
  | none => none
  | some (first, s) =>
      if s.head? = some (byte ',') then
        match getskiplinenum s.tail with
        | none => none
        | some (count, s) => some (first, count, s)
      else some (first, 1, s)

def skipSpace (s : List Byte) : List Byte :=
  if s.head? = some (byte ' ') then s.tail else s

/-- The header after `@@ -`: both first lines and both counts. -/
def readHeader (s : List Byte) : Option (Nat × Nat × Nat × Nat) :=
  if s = [] then none
  else
    match lineRange s with
    | none => none
    | some (first, ptrnLines, s) =>
        let s := skipSpace s
        if (first : Int) ≥ longMax - ptrnLines then none
        else if s.head? ≠ some (byte '+') ∨ s.tail = [] then none
        else
          match lineRange s.tail with
          | none => none
          | some (newfirst, replLines, s) =>
              if (skipSpace s).head? ≠ some (byte '@') then none
              else if (newfirst : Int) > longMax - replLines ∨
                  (ptrnLines : Int) ≥ longMax - replLines - 1 then none
              else some (first, ptrnLines, newfirst, replLines)

/-- Discard a `\ No newline at end of file` line; `none` when there is none. -/
def removeSpecialLine (rest : List Byte) : Option (List Byte) :=
  if rest.head? = some (byte '\\') then some (getline rest.tail).2 else none

/-- The state of the loop that fills a hunk. -/
structure Fill where
  fillold : Nat
  fillnew : Nat
  context : Int
  pContext : Int
  slots : Slots
  stream : Stream

/-- Store a new line, dropping its newline before a special line. -/
def Fill.addNew (ptrnLines : Nat) (fill : Fill) (mark : Mark) (s : List Byte) : Fill :=
  let slots := fill.slots.put fill.fillnew mark s
  match (if fill.fillold > ptrnLines then removeSpecialLine fill.stream.rest else none) with
  | none => { fill with fillnew := fill.fillnew + 1, slots := slots }
  | some rest =>
      { fill with
        fillnew := fill.fillnew + 1
        slots := slots.chop fill.fillnew
        stream := { fill.stream with rest := rest } }

/-- Store a deleted line, dropping its newline before a special line. -/
def Fill.addOld (ptrnLines : Nat) (fill : Fill) (s : List Byte) : Fill :=
  let slots := fill.slots.put fill.fillold .delete s
  match (if fill.fillold + 1 > ptrnLines then removeSpecialLine fill.stream.rest else none) with
  | none => { fill with fillold := fill.fillold + 1, slots := slots }
  | some rest =>
      { fill with
        fillold := fill.fillold + 1
        slots := slots.chop fill.fillold
        stream := { fill.stream with rest := rest } }

/--
Store a context line on the old side and return the copy for the new side.  A
special line shortens `p_len` of the old line but cuts the text of the copy.
-/
def Fill.addContext (ptrnLines : Nat) (fill : Fill) (s : List Byte) : Fill × List Byte :=
  let slots := fill.slots.put fill.fillold .context s
  match (if fill.fillold + 1 > ptrnLines then removeSpecialLine fill.stream.rest else none) with
  | none =>
      ({ fill with
          fillold := fill.fillold + 1, context := fill.context + 1, slots := slots }, s)
  | some rest =>
      let len := toShort (slots.len fill.fillold - 1)
      ({ fill with
          fillold := fill.fillold + 1
          context := fill.context + 1
          slots := { slots with len := Function.update slots.len fill.fillold len }
          stream := { fill.stream with rest := rest } },
        cutAt s len)

/-- A changed line after some context fixes `p_context`. -/
def Fill.endContext (fill : Fill) : Fill :=
  if fill.context > 0 then
    { fill with
      pContext := if fill.context < fill.pContext then fill.context else fill.pContext
      context := -1000 }
  else fill

/-- Take in one line of the hunk. -/
def fillLine (ptrnLines endLine : Nat) (fill : Fill) (buf : List Byte) : Except Fatal Fill :=
  -- a line that starts with a tab or is blank has lost its leading space
  let eaten := buf.head? = some (byte '\t') ∨ buf.head? = some nl
  let ch := if eaten then byte ' ' else buf.headD 0
  let s := if eaten then cstr buf else cstr buf.tail
  let malformed := Except.error (Fatal.malformed fill.stream.inputLine buf)
  if ch = byte '-' then
    if fill.fillold > ptrnLines then malformed
    else .ok (fill.addOld ptrnLines s).endContext
  else if ch = byte ' ' ∨ ch = byte '=' then
    if fill.fillold > ptrnLines then malformed
    else
      let (fill, s) := fill.addContext ptrnLines s
      if fill.fillnew > endLine then malformed
      else .ok (fill.addNew ptrnLines .context s)
  else if ch = byte '+' then
    if fill.fillnew > endLine then malformed
    else .ok (fill.addNew ptrnLines .insert s).endContext
  else malformed

/-- Read the lines of a hunk until both sides are complete. -/
def fillHunk (ptrnLines endLine : Nat) : Nat → Fill → Except Fatal Fill
  | 0, fill => .ok fill
  | fuel + 1, fill =>
      if fill.fillold ≤ ptrnLines ∨ fill.fillnew ≤ endLine then
        let stream : Stream :=
          { rest := (getline fill.stream.rest).2, inputLine := fill.stream.inputLine + 1 }
        let next := { fill with stream := stream }
        if fill.stream.rest = [] then
          -- at end of file, assume blank lines got chopped
          if (endLine : Int) - fill.fillnew < 3 then
            match fillLine ptrnLines endLine next [byte ' ', nl] with
            | .error e => .error e
            | .ok fill => fillHunk ptrnLines endLine fuel fill
          else .error .unexpectedEof
        else
          match fillLine ptrnLines endLine next (getline fill.stream.rest).1 with
          | .error e => .error e
          | .ok fill => fillHunk ptrnLines endLine fuel fill
      else .ok fill

def atSign : List Byte := ascii ['@', '@', ' ', '-']

/-- The row `*** a,b ****` or `--- a,b ----` that heads one half of a hunk. -/
def halfRow (star : Char) (first last : Int) : List Byte :=
  let number (n : Int) := (if n < 0 then [byte '-'] else []) ++ decimal n.natAbs
  List.replicate 3 (byte star) ++ [byte ' '] ++ number first ++ [byte ','] ++ number last ++
    [byte ' '] ++ List.replicate 4 (byte star) ++ [nl]

/-- The arrays before the first line of a hunk is read. -/
def startSlots (first newfirst : Int) (ptrnLines replLines : Nat) : Slots :=
  let empty : Slots := { line := fun _ => [], len := fun _ => 0, char := fun _ => .stop }
  (empty.put 0 .header (halfRow '*' first (first + ptrnLines - 1))).put (ptrnLines + 1) .split
    (halfRow '-' newfirst (newfirst + replLines - 1))

/-- The UNI_DIFF branch of `another_hunk`; `none` when the patch has no more hunks. -/
def anotherHunk (stream : Stream) : Except Fatal (Option Hunk × Stream) :=
  let buf := (getline stream.rest).1
  if stream.rest = [] ∨ buf.take 4 ≠ atSign then
    .ok (none, { stream with inputLine := stream.inputLine + 1 })
  else
    match readHeader (cstr (buf.drop 4)) with
    | none => .error (.malformed (stream.inputLine + 1) buf)
    | some (first, ptrnLines, newfirst, replLines) =>
        -- do append rather than insert
        let first : Int := if ptrnLines = 0 then first + 1 else first
        let endLine := ptrnLines + replLines + 1
        let fill : Fill :=
          { fillold := 1
            fillnew := ptrnLines + 2
            context := 0
            pContext := 100
            slots := startSlots first newfirst ptrnLines replLines
            stream := { rest := (getline stream.rest).2, inputLine := stream.inputLine + 1 } }
        match fillHunk ptrnLines endLine (endLine + 1) fill with
        | .error e => .error e
        | .ok fill =>
            .ok (some
              { first := first
                newfirst := newfirst
                ptrnLines := ptrnLines
                replLines := replLines
                endLine := endLine
                context := fill.pContext
                slots := fill.slots }, fill.stream)

/-! ## Swapping the halves -/

/-- Replace one character of a half row. -/
def recolour (old new : Char) (s : List Byte) : List Byte :=
  s.map fun b => if b = byte old then byte new else b

/-- `pch_swap`: the new half becomes the old one and the other way round. -/
def pchSwap (hunk : Hunk) : Except Fatal Hunk :=
  let source := hunk.slots
  let count := hunk.endLine - hunk.ptrnLines
  if source.char (hunk.ptrnLines + 1) ≠ .split then
    .error (.expectedSplit (source.char (hunk.ptrnLines + 1)))
  else if hunk.endLine + 1 - count ≠ hunk.ptrnLines + 1 then
    .error (.expectedLines (hunk.ptrnLines + 1) (hunk.endLine + 1 - count))
  else
    .ok
      { first := hunk.newfirst
        newfirst := hunk.first
        ptrnLines := hunk.replLines
        replLines := hunk.ptrnLines
        endLine := hunk.endLine
        context := hunk.context
        slots :=
          { line := fun n =>
              if n = 0 then recolour '-' '*' (source.line (hunk.ptrnLines + 1))
              else if n < count then source.line (hunk.ptrnLines + 1 + n)
              else if n = count then recolour '*' '-' (source.line 0)
              else source.line (n - count)
            len := fun n =>
              if n < count then source.len (hunk.ptrnLines + 1 + n) else source.len (n - count)
            char := fun n =>
              if n = 0 then .header
              else if n < count then
                if source.char (hunk.ptrnLines + 1 + n) = .insert then .delete
                else source.char (hunk.ptrnLines + 1 + n)
              else if n = count then .split
              else if n ≤ hunk.endLine then
                if source.char (n - count) = .delete then .insert else source.char (n - count)
              else .stop } }

end Netbase.Patch.Pch
