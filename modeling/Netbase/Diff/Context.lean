import Netbase.Diff.Fetch
import Netbase.Diff.Output

/-!
# Unified hunks

In the unified format `change` collects changes in `context_vec` and prints them
as one hunk when the next change is more than `2 * diff_context` lines away.
`dump_unified_vec` adds the context lines around the changes, clipped at both
ends of the files.
-/

namespace Netbase.Diff.Context

open Netbase.Lib
open Netbase.Lib.EditScript
open Netbase.Text
open Netbase.Unified
open Netbase.Diff.Check
open Netbase.Diff.Fetch
open Netbase.Diff.Output

/-- The two files as `output` finds them. -/
structure Source where
  len0 : Nat
  len1 : Nat
  file0 : List Byte
  file1 : List Byte
  ixold : Table Nat
  ixnew : Table Nat

def Source.old (source : Source) (a b : Nat) (ch : Char) : List Byte :=
  (fetch .unified source.ixold a b source.file0 (some ch)).1

def Source.new (source : Source) (a b : Nat) (ch : Char) : List Byte :=
  (fetch .unified source.ixnew a b source.file1 (some ch)).1

/-- `uni_range` -/
def uniRange (a b : Nat) : List Byte :=
  if a < b then decimal a ++ [byte ','] ++ decimal (b - a + 1)
  else if a = b then decimal b
  else decimal b ++ ascii [',', '0']

/-- One change of a hunk, with the unchanged lines from `lowa` and `lowc` on. -/
def dumpChange (source : Source) (lowa lowc : Nat) (change : Change) : List Byte :=
  if change.a ≤ change.b ∧ change.c ≤ change.d then
    source.old lowa (change.a - 1) ' ' ++ source.old change.a change.b '-' ++
      source.new change.c change.d '+'
  else if change.a ≤ change.b then
    source.old lowa (change.a - 1) ' ' ++ source.old change.a change.b '-'
  else source.new lowc (change.c - 1) ' ' ++ source.new change.c change.d '+'

/-- The changes of a hunk and the context behind them; in the end `lowc` is `d + 1`. -/
def dumpChanges (source : Source) (upd : Nat) : Nat → Nat → List Change → List Byte
  | _, lowc, [] => source.new lowc upd ' '
  | lowa, lowc, change :: changes =>
      dumpChange source lowa lowc change ++
        dumpChanges source upd (change.b + 1) (change.d + 1) changes

/-- Dump the accumulated changes as one hunk. -/
def dumpUnifiedVec (context : Nat) (source : Source) (contextVec : List Change) : List Byte :=
  match contextVec.head?, contextVec.getLast? with
  | some first, some last =>
      let lowa := max 1 (first.a - context)
      let upb := min source.len0 (last.b + context)
      let lowc := max 1 (first.c - context)
      let upd := min source.len1 (last.d + context)
      ascii ['@', '@', ' ', '-'] ++ uniRange lowa upb ++ ascii [' ', '+'] ++ uniRange lowc upd ++
        ascii [' ', '@', '@', '\n'] ++ dumpChanges source upd lowa lowc contextVec
  | _, _ => []

/-- `anychange`, the accumulated changes, and what has been printed. -/
structure Report where
  anychange : Bool
  contextVec : List Change
  text : List Byte

/-- Print and forget the accumulated changes. -/
def Report.dump (context : Nat) (source : Source) (report : Report) : Report :=
  { report with
    contextVec := []
    text := report.text ++ dumpUnifiedVec context source report.contextVec }

/-- Is the change too far from the last accumulated one to share its hunk? -/
def Report.far (context : Nat) (report : Report) (next : Change) : Bool :=
  match report.contextVec.getLast? with
  | none => false
  | some last => next.a > last.b + 2 * context + 1 && next.c > last.d + 2 * context + 1

/-- `change` in the unified format. -/
def change (context : Nat) (source : Source) (report : Report) (next : Change) : Report :=
  if next.a > next.b ∧ next.c > next.d then report
  else
    let report :=
      if report.anychange = false then { report with anychange := true }
      else if report.far context next then report.dump context source
      else report
    { report with contextVec := report.contextVec ++ [next] }

/-- `output` in the unified format, without the two header lines. -/
def outputUnified (context : Nat) (source : Source) (J : Table Nat) : List Byte :=
  let report := (forwardChanges source.len0 source.len1 J).foldl (change context source)
    { anychange := false, contextVec := [], text := [] }
  if report.anychange then (report.dump context source).text else report.text

/-! ## Changes of blocks -/

section

variable {α : Type} {display : α → List Byte} {source : Source} {olds news : List α}

theorem changesOf_append (before beforeNew : Nat) (blocks more : List (Block α)) :
    changesOf before beforeNew (blocks ++ more) =
      changesOf before beforeNew blocks ++
        changesOf (before + (blocks.flatMap Block.old).length)
          (beforeNew + (blocks.flatMap Block.new).length) more := by
  induction blocks generalizing before beforeNew with
  | nil => rfl
  | cons block blocks ih =>
      simp only [List.cons_append, changesOf, ih, List.flatMap_cons, List.length_append,
        Nat.add_assoc]

theorem changesOf_last (before beforeNew : Nat) {blocks : List (Block α)} (nonempty : blocks ≠ []) :
    ∃ last, (changesOf before beforeNew blocks).getLast? = some last ∧
      last.b = before + (blocks.flatMap Block.old).length ∧
      last.d = beforeNew + (blocks.flatMap Block.new).length := by
  induction blocks generalizing before beforeNew with
  | nil => exact absurd rfl nonempty
  | cons block blocks ih =>
      cases blocks with
      | nil =>
          simp only [changesOf, List.getLast?_singleton]
          exact ⟨_, rfl, by simp, by simp⟩
      | cons next blocks =>
          obtain ⟨last, found, b, d⟩ := ih (before + block.old.length)
            (beforeNew + block.new.length) (by simp)
          refine ⟨last, ?_, ?_, ?_⟩
          · rw [changesOf, List.getLast?_cons_of_ne_nil (by simp [changesOf])]
            exact found
          · rw [b]
            simp [Nat.add_assoc]
          · rw [d]
            simp [Nat.add_assoc]

theorem changeOf_idle {before beforeNew : Nat} {block : Block α} :
    ((changeOf before beforeNew block).a > (changeOf before beforeNew block).b ∧
      (changeOf before beforeNew block).c > (changeOf before beforeNew block).d) ↔ block.Idle := by
  unfold changeOf Block.Idle Block.old Block.new
  dsimp only
  rw [List.length_append, List.length_append, ← List.length_eq_zero_iff, ← List.length_eq_zero_iff]
  omega

end

end Netbase.Diff.Context
