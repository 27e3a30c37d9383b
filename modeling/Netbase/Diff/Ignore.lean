import Netbase.Diff.Checked
import Netbase.Diff.Group
import Netbase.Diff.Sections

/-!
# Ignored changes

With `-I` a change is not collected when all of its lines match.  The header of a
unified hunk is taken from the first and the last change of a group; the body is
put together of lines of both files.  Where a change was left out in between, the
unchanged lines around it do not have to be as many in one file as in the other.
-/

namespace Netbase.Diff.Ignore

open Netbase.Lib
open Netbase.Lib.EditScript
open Netbase.Lib.Spans
open Netbase.Text
open Netbase.Unified
open Netbase.Diff.Check
open Netbase.Diff.Checked
open Netbase.Diff.Collision
open Netbase.Diff.Fetch
open Netbase.Diff.Output
open Netbase.Diff.Group
open Netbase.Diff.Context (Source uniRange dumpChange dumpChanges dumpUnifiedVec outputUnified)
open Netbase.Diff.Sections (sourceOf changesFor changesFor_eq)

/-! ## Printing -/

/-- A line without its newline. -/
def preadline (file : List Byte) (rlen off : Nat) : List Byte :=
  let line := (file.drop off).take rlen
  if line.getLast? = some nl then line.dropLast else line

/-- `ignoreline`; the pattern is given the line up to the first zero. -/
def ignoreline (ignore_re : List Byte → Bool) (line : List Byte) : Bool :=
  ignore_re (line.takeWhile (· ≠ 0))

/-- The test of `change`: do all lines of the change match? -/
def ignored (ignore_pats : Option (List Byte → Bool)) (source : Source) (next : Change) : Bool :=
  match ignore_pats with
  | none => false
  | some ignore_re =>
      (next.a > next.b ||
        (List.range' next.a (next.b + 1 - next.a)).all fun i =>
          ignoreline ignore_re (preadline source.file0 (source.ixold i - source.ixold (i - 1))
            (source.ixold (i - 1)))) &&
      (!(next.a > next.b || next.c ≤ next.d) ||
        (List.range' next.c (next.d + 1 - next.c)).all fun i =>
          ignoreline ignore_re (preadline source.file1 (source.ixnew i - source.ixnew (i - 1))
            (source.ixnew (i - 1))))

/-- A unified hunk: the ranges of its header, and its body. -/
structure Hunk where
  lowa : Nat
  upb : Nat
  lowc : Nat
  upd : Nat
  body : List Byte
  deriving DecidableEq, Repr

/-- `dump_unified_vec` -/
def hunkOf (context : Nat) (source : Source) (contextVec : List Change) : Option Hunk :=
  match contextVec.head?, contextVec.getLast? with
  | some first, some last =>
      let lowa := max 1 (first.a - context)
      let upb := min source.len0 (last.b + context)
      let lowc := max 1 (first.c - context)
      let upd := min source.len1 (last.d + context)
      some
        { lowa := lowa
          upb := upb
          lowc := lowc
          upd := upd
          body := dumpChanges source upd lowa lowc contextVec }
  | _, _ => none

def Hunk.text (hunk : Hunk) : List Byte :=
  ascii ['@', '@', ' ', '-'] ++ uniRange hunk.lowa hunk.upb ++ ascii [' ', '+'] ++
    uniRange hunk.lowc hunk.upd ++ ascii [' ', '@', '@', '\n'] ++ hunk.body

def groupsFor (context bound : Nat) (ignore_pats : Option (List Byte → Bool))
    (file0 file1 : List Byte) : List (List Change) :=
  groups context (ignored ignore_pats (sourceOf bound file0 file1)) (changesFor bound file0 file1)

/-- The hunks that are printed for two files. -/
def hunksFor (context bound : Nat) (ignore_pats : Option (List Byte → Bool))
    (file0 file1 : List Byte) : List Hunk :=
  (groupsFor context bound ignore_pats file0 file1).filterMap
    (hunkOf context (sourceOf bound file0 file1))

/-! ## Without patterns -/

/-- The report that goes on printing instead of collecting the groups. -/
def printedReport (context : Nat) (source : Source) (report : Report) : Context.Report :=
  { anychange := report.anychange
    contextVec := report.contextVec
    text := report.dumped.flatMap (dumpUnifiedVec context source) }

/-! ## The lines of a body -/

def countLines (marks : List Byte) (text : List Byte) : Nat :=
  (lines text).countP fun line => line.head?.any (marks.contains ·)

/-- What is printed behind a mark: a line, or one without its newline and the note about it. -/
def Closed (text : List Byte) : Prop := ∃ line, IsLine line ∧ text = Format.unified.lineText line

section

variable {marks : List Byte} {mark : Byte}

theorem countLines_line (marks : List Byte) {line : List Byte} (isLine : IsLine line)
    (terminated : Terminated line)
    (rest : List Byte) : countLines marks (line ++ rest) =
      (if line.head?.any (marks.contains ·) then 1 else 0) + countLines marks rest := by
  rw [countLines, lines_append isLine terminated, List.countP_cons, Nat.add_comm]
  rfl

theorem countLines_closed (body : mark ≠ nl) (note : ¬ byte '\\' ∈ marks) {text : List Byte}
    (closed : Closed text) (rest : List Byte) : countLines marks (mark :: (text ++ rest)) =
      (if mark ∈ marks then 1 else 0) + countLines marks rest := by
  obtain ⟨line, isLine, rfl⟩ := closed
  by_cases terminated : Terminated line
  · have whole := countLines_line marks (isLine_cons body isLine)
      ((terminated_cons isLine.nonempty).mpr terminated) rest
    rw [Format.lineText, if_pos terminated, List.append_nil]
    rw [List.cons_append] at whole
    simpa using whole
  · have clean : nl ∉ mark :: line := by
      simp [body.symm, isLine.clean_of_not_terminated terminated]
    have first := countLines_line marks (isLine_body clean) (terminated_body (mark :: line))
      (noNewline ++ rest)
    have second := countLines_line marks (show IsLine noNewline by decide)
      (show Terminated noNewline by decide) rest
    have head : noNewline.head? = some (byte '\\') := rfl
    rw [head, Option.any_some, if_neg (by simpa using note), Nat.zero_add] at second
    have text : mark :: (Format.unified.lineText line ++ rest) =
        mark :: line ++ [nl] ++ (noNewline ++ rest) := by
      rw [Format.lineText, if_neg terminated]
      simp [Format.eofText, Format.quiet]
    rw [text, first, second]
    simp

theorem countLines_open (marks : List Byte) (body : mark ≠ nl) {text : List Byte} (clean : nl ∉ text) {next : Byte}
    (body' : next ≠ nl) {line : List Byte} (isLine : IsLine line) (terminated : Terminated line)
    (rest : List Byte) : countLines marks (mark :: (text ++ next :: (line ++ rest))) =
      (if mark ∈ marks then 1 else 0) + countLines marks rest := by
  obtain ⟨front, inFront, rfl⟩ : ∃ front, nl ∉ front ∧ line = front ++ [nl] := by
    rcases isLine.cases with whole | ⟨nonempty, inside⟩
    · exact whole
    · exact absurd (List.mem_of_getLast? terminated) inside
  have whole : nl ∉ mark :: (text ++ next :: front) := by
    simp [body.symm, body'.symm, clean, inFront]
  have joined := countLines_line marks (isLine_body whole)
    (terminated_body (mark :: (text ++ next :: front))) rest
  have regroup : mark :: (text ++ next :: (front ++ [nl] ++ rest)) =
      mark :: (text ++ next :: front) ++ [nl] ++ rest := by simp
  rw [regroup, joined]
  simp

theorem countLines_last (body : mark ≠ nl) {text : List Byte} (clean : nl ∉ text) :
    countLines marks (mark :: text) = if mark ∈ marks then 1 else 0 := by
  rw [countLines, lines_unterminated (by simp) (by simp [body.symm, clean])]
  simp [List.countP_cons]

end

/-! ## What a body is made of -/

/-- The lines of a hunk with their marks, for what the tables show of both files. -/
def entries (olds news : List (List Byte)) (upd : Nat) : Nat → Nat → List Change →
    List (Char × List Byte)
  | _, lowc, [] => (between news lowc upd).map fun text => (' ', text)
  | lowa, lowc, cvp :: vec =>
      (if cvp.a ≤ cvp.b then
        (between olds lowa (cvp.a - 1)).map (fun text => (' ', text)) ++
          (between olds cvp.a cvp.b).map fun text => ('-', text)
        else (between news lowc (cvp.c - 1)).map fun text => (' ', text)) ++
        (between news cvp.c cvp.d).map (fun text => ('+', text)) ++
        entries olds news upd (cvp.b + 1) (cvp.d + 1) vec

def printedText (list : List (Char × List Byte)) : List Byte :=
  list.flatMap fun pair => byte pair.1 :: pair.2

theorem printedText_append (front back : List (Char × List Byte)) :
    printedText (front ++ back) = printedText front ++ printedText back := List.flatMap_append

theorem printedText_map (ch : Char) (texts : List (List Byte)) :
    printedText (texts.map fun text => (ch, text)) = texts.flatMap (byte ch :: ·) := by
  rw [printedText, List.flatMap_map]

/-- The places of the changes of a group between the ends of its ranges. -/
structure Fitting (lowa upb lowc upd : Nat) (vec : List Change) : Prop where
  old : Rising lowa (vec.map Sections.oldSpan)
  new : Rising lowc (vec.map Sections.newSpan)
  below : ∀ cvp ∈ vec, cvp.b ≤ upb ∧ cvp.d ≤ upd
  busy : ∀ cvp ∈ vec, cvp.a ≤ cvp.b ∨ cvp.c ≤ cvp.d
  positive : 0 < lowa ∧ 0 < lowc
  range : lowa ≤ upb + 1 ∧ lowc ≤ upd + 1

theorem Fitting.head {lowa upb lowc upd : Nat} {cvp : Change} {vec : List Change}
    (fitting : Fitting lowa upb lowc upd (cvp :: vec)) :
    lowa ≤ cvp.a ∧ cvp.a ≤ cvp.b + 1 ∧ cvp.b ≤ upb ∧ lowc ≤ cvp.c ∧ cvp.c ≤ cvp.d + 1 ∧ cvp.d ≤ upd :=
  have below := fitting.below cvp List.mem_cons_self
  ⟨fitting.old.1, fitting.old.2.1, below.1, fitting.new.1, fitting.new.2.1, below.2⟩

theorem Fitting.tail {lowa upb lowc upd : Nat} {cvp : Change} {vec : List Change}
    (fitting : Fitting lowa upb lowc upd (cvp :: vec)) :
    Fitting (cvp.b + 1) upb (cvp.d + 1) upd vec := by
  have below := fitting.below cvp List.mem_cons_self
  exact ⟨fitting.old.2.2, fitting.new.2.2,
    fun other later => fitting.below other (List.mem_cons_of_mem cvp later),
    fun other later => fitting.busy other (List.mem_cons_of_mem cvp later),
    ⟨Nat.succ_pos _, Nat.succ_pos _⟩, by omega⟩

section

variable {source : Source} {olds news : List (List Byte)} {lowa upb lowc upd : Nat}
  {vec : List Change}

/-- The body of a hunk is made of the lines that the tables show. -/
theorem dumpChanges_eq (shows_ : Shows .unified source.ixold source.file0 olds)
    (showsNew : Shows .unified source.ixnew source.file1 news)
    (fitting : Fitting lowa upb lowc upd vec) (bound : upb ≤ olds.length) (bound' : upd ≤ news.length) :
    dumpChanges source upd lowa lowc vec = printedText (entries olds news upd lowa lowc vec) := by
  have old {a b : Nat} (ch : Char) (positive : 0 < a) (inside : a ≤ b + 1) (bound : b ≤ olds.length) :
      source.old a b ch = (between olds a b).flatMap (byte ch :: ·) :=
    fetch_between shows_ positive inside bound (some ch)
  have new {a b : Nat} (ch : Char) (positive : 0 < a) (inside : a ≤ b + 1) (bound : b ≤ news.length) :
      source.new a b ch = (between news a b).flatMap (byte ch :: ·) :=
    fetch_between showsNew positive inside bound (some ch)
  induction vec generalizing lowa lowc with
  | nil =>
      obtain ⟨-, positive⟩ := fitting.positive
      rw [dumpChanges, entries, printedText_map, new ' ' positive fitting.range.2 bound']
  | cons cvp vec ih =>
      obtain ⟨a, ab, b, c, cd, d⟩ := fitting.head
      obtain ⟨positive, positive'⟩ := fitting.positive
      rw [dumpChanges, entries, ih fitting.tail, printedText_append, printedText_append,
        printedText_map]
      congr 1
      unfold dumpChange
      by_cases deletes : cvp.a ≤ cvp.b
      · rw [old ' ' positive (by omega) (by omega), old '-' (by omega) ab (by omega),
          if_pos deletes, if_pos deletes, printedText_append, printedText_map, printedText_map]
        by_cases inserts : cvp.c ≤ cvp.d
        · rw [if_pos ⟨deletes, inserts⟩, new '+' (by omega) cd (by omega)]
        · rw [if_neg fun both => inserts both.2, between_empty news (by omega : cvp.d < cvp.c)]
          simp
      · rw [if_neg deletes, if_neg fun both => deletes both.1, if_neg deletes, printedText_map,
          new ' ' positive' (by omega) (by omega), new '+' (by omega) cd (by omega)]

/-! ## Counting -/

/-- How many lines the unchanged stretches that are printed from the new file have more there
than in the old file. -/
def newStretches (upb upd : Nat) : Nat → Nat → List Change → Int
  | lowa, lowc, [] => ((upd : Int) - lowc) - (upb - lowa)
  | lowa, lowc, cvp :: vec =>
      (if cvp.a ≤ cvp.b then 0 else ((cvp.c : Int) - lowc) - (cvp.a - lowa)) +
        newStretches upb upd (cvp.b + 1) (cvp.d + 1) vec

/-- How many lines the unchanged stretches that are printed from the old file have more there
than in the new file. -/
def oldStretches : Nat → Nat → List Change → Int
  | _, _, [] => 0
  | lowa, lowc, cvp :: vec =>
      (if cvp.a ≤ cvp.b then ((cvp.a : Int) - lowa) - (cvp.c - lowc) else 0) +
        oldStretches (cvp.b + 1) (cvp.d + 1) vec

/-- Is the mark of a line one of these? -/
def hasMark (marks : List Char) (pair : Char × List Byte) : Bool := marks.contains pair.1

theorem countP_mark (marks : List Char) (ch : Char) (texts : List (List Byte)) :
    (texts.map fun text => (ch, text)).countP (hasMark marks) =
      if ch ∈ marks then texts.length else 0 := by
  rw [List.countP_map]
  by_cases inside : ch ∈ marks <;> simp [Function.comp_def, hasMark, inside]

theorem countP_entries (fitting : Fitting lowa upb lowc upd vec) (bound : upb ≤ olds.length)
    (bound' : upd ≤ news.length) :
    ((entries olds news upd lowa lowc vec).countP (hasMark [' ', '-']) : Int) =
        (upb + 1 - lowa) + newStretches upb upd lowa lowc vec ∧
      ((entries olds news upd lowa lowc vec).countP (hasMark [' ', '+']) : Int) =
        (upd + 1 - lowc) + oldStretches lowa lowc vec := by
  induction vec generalizing lowa lowc with
  | nil =>
      have range := fitting.range
      have length := length_between news fitting.positive.2 bound'
      rw [entries, countP_mark, countP_mark, if_pos (by simp), if_pos (by simp), length, newStretches,
        oldStretches]
      omega
  | cons cvp vec ih =>
      obtain ⟨a, ab, b, c, cd, d⟩ := fitting.head
      obtain ⟨positive, positive'⟩ := fitting.positive
      obtain ⟨old, new⟩ := ih fitting.tail
      have gap := length_between olds positive (show cvp.a - 1 ≤ olds.length by omega)
      have gapNew := length_between news positive' (show cvp.c - 1 ≤ news.length by omega)
      have own := length_between olds (show 0 < cvp.a by omega) (show cvp.b ≤ olds.length by omega)
      have ownNew := length_between news (show 0 < cvp.c by omega) (show cvp.d ≤ news.length by omega)
      rw [entries, newStretches, oldStretches]
      by_cases deletes : cvp.a ≤ cvp.b
      · rw [if_pos deletes, if_pos deletes, if_pos deletes]
        simp only [List.countP_append, countP_mark, gap, own, ownNew]
        simp
        omega
      · rw [if_neg deletes, if_neg deletes, if_neg deletes]
        simp only [List.countP_append, countP_mark, gapNew, ownNew]
        simp
        omega

end

end Netbase.Diff.Ignore
