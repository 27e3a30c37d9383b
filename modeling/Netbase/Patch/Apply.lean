import Netbase.Patch.Locate

/-!
# Applying a located hunk

`apply_hunk` walks the old and the new half of a hunk in step.  Input lines are
copied to the output by `copy_till` just before a changed line needs it, so the
context lines of a hunk stay pending until the next change or until
`spew_output`.  `last_frozen_line` counts the input lines already copied or
deleted; `copy_till` refuses to go back behind it.
-/

namespace Netbase.Patch.Apply

open Netbase.Text
open Netbase.Patch.Input
open Netbase.Patch.Pch

/-- The texts printed around a change under `-D`. -/
structure Defines where
  ifDefined : List Byte
  notDefined : List Byte
  elseDefined : List Byte
  endDefined : List Byte

/-- `def_state` -/
inductive DefState where
  | outside
  | inIfndef
  | inIfdef
  | inElse
  deriving DecidableEq, Repr

/-- `last_frozen_line` and the bytes written to the output file. -/
structure Output where
  lastFrozenLine : Int
  ofp : List Byte

def Output.write (out : Output) (s : List Byte) : Output :=
  { out with ofp := out.ofp ++ s }

def dumpLine (input : PlanA) (line : Int) (writeNewline : Bool) (out : Output) : Output :=
  match input.ifetch line with
  | none => out
  | some s =>
      out.write (s.takeWhile (· ≠ nl) ++ if writeNewline then [nl] else [])

/-- The copying loop of `copy_till`, for the given number of lines. -/
def copyLines (input : PlanA) (lastline : Int) (endoffile : Bool) : Nat → Output → Output
  | 0, out => out
  | count + 1, out =>
      let next := out.lastFrozenLine + 1
      let newline := if next = lastline ∧ endoffile then !input.lastLineMissingEol else true
      copyLines input lastline endoffile count
        (dumpLine input next newline { out with lastFrozenLine := next })

def copyTill (input : PlanA) (lastline : Int) (endoffile : Bool) (out : Output) :
    Except Fatal Output :=
  if out.lastFrozenLine > lastline then .error .misordered
  else .ok (copyLines input lastline endoffile (lastline - out.lastFrozenLine).toNat out)

/-- Finish copying the input file to the output file. -/
def spewOutput (input : PlanA) (out : Output) : Except Fatal Output :=
  if input.inputLines = 0 then .ok out else copyTill input input.inputLines true out

/-- The state of the walk through a hunk. -/
structure Walk where
  old : Nat
  new : Nat
  defState : DefState
  out : Output

/-- Entering deleted text: `#ifndef`, or `#else` after inserted text. -/
def Walk.openDeleted (defines : Option Defines) (walk : Walk) (text : List Byte) : Walk :=
  match defines with
  | none => walk
  | some d =>
      match walk.defState with
      | .outside =>
          { walk with defState := .inIfndef, out := walk.out.write (d.notDefined ++ text) }
      | .inIfdef =>
          { walk with defState := .inElse, out := walk.out.write (d.elseDefined ++ text) }
      | _ => { walk with out := walk.out.write text }

/-- Entering inserted text: `#ifdef`, or `#else` after deleted text. -/
def Walk.openInserted (defines : Option Defines) (walk : Walk) : Walk :=
  match defines with
  | none => walk
  | some d =>
      match walk.defState with
      | .outside => { walk with defState := .inIfdef, out := walk.out.write d.ifDefined }
      | .inIfndef => { walk with defState := .inElse, out := walk.out.write d.elseDefined }
      | _ => walk

/-- Leaving changed text: `#endif`. -/
def Walk.close (defines : Option Defines) (walk : Walk) : Walk :=
  match defines with
  | none => walk
  | some d =>
      if walk.defState = .outside then walk
      else { walk with defState := .outside, out := walk.out.write d.endDefined }

/-- Copy the input up to the current old line of a hunk applied behind `before`. -/
def Walk.copyTill (input : PlanA) (before : Int) (walk : Walk) : Except Fatal Walk :=
  match Apply.copyTill input (before + walk.old - 1) false walk.out with
  | .error e => .error e
  | .ok out => .ok { walk with out := out }

def Walk.delete (defines : Option Defines) (hunk : Hunk) (walk : Walk) : Walk :=
  let opened := walk.openDeleted defines (hunk.slots.line walk.old)
  { opened with
    old := opened.old + 1
    out := { opened.out with lastFrozenLine := opened.out.lastFrozenLine + 1 } }

def Walk.print (hunk : Hunk) (walk : Walk) : Walk :=
  { walk with new := walk.new + 1, out := walk.out.write (hunk.slots.line walk.new) }

/-- The main loop of `apply_hunk`, `before` being the decremented `where`. -/
def walkHunk (input : PlanA) (defines : Option Defines) (hunk : Hunk) (before : Int) :
    Nat → Walk → Except Fatal Walk
  | 0, walk => .ok walk
  | fuel + 1, walk =>
      if walk.old ≤ hunk.ptrnLines then
        if hunk.slots.char walk.old = .delete then
          match walk.copyTill input before with
          | .error e => .error e
          | .ok walk => walkHunk input defines hunk before fuel (walk.delete defines hunk)
        else if walk.new > hunk.endLine then .ok walk
        else if hunk.slots.char walk.new = .insert then
          match walk.copyTill input before with
          | .error e => .error e
          | .ok walk =>
              walkHunk input defines hunk before fuel ((walk.openInserted defines).print hunk)
        else if hunk.slots.char walk.new ≠ hunk.slots.char walk.old then
          .error (.outOfSync walk.old walk.new)
        else if hunk.slots.char walk.new ≠ .context then .error .expectedSpace
        else
          walkHunk input defines hunk before fuel
            ({ walk with old := walk.old + 1, new := walk.new + 1 }.close defines)
      else .ok walk

def printInserted (hunk : Hunk) : Nat → Walk → Walk
  | 0, walk => walk
  | fuel + 1, walk =>
      if walk.new ≤ hunk.endLine ∧ hunk.slots.char walk.new = .insert then
        printInserted hunk fuel (walk.print hunk)
      else walk

/-- Step over the `---` row. -/
def skipSplit (hunk : Hunk) : Nat → Nat → Nat
  | 0, new => new
  | fuel + 1, new =>
      if hunk.slots.char new = .split then skipSplit hunk fuel (new + 1) else new

def firstNew (hunk : Hunk) : Nat := skipSplit hunk (hunk.endLine + 1) (hunk.ptrnLines + 1)

/-- Apply a hunk at line `where_` of the input. -/
def applyHunk (input : PlanA) (defines : Option Defines) (hunk : Hunk) (where_ : Int)
    (out : Output) : Except Fatal Output :=
  let before := where_ - 1
  let start : Walk := { old := 1, new := firstNew hunk, defState := .outside, out := out }
  match walkHunk input defines hunk before (hunk.ptrnLines + hunk.endLine + 1) start with
  | .error e => .error e
  | .ok walk =>
      if walk.new ≤ hunk.endLine ∧ hunk.slots.char walk.new = .insert then
        match walk.copyTill input before with
        | .error e => .error e
        | .ok walk =>
            .ok ((printInserted hunk (hunk.endLine + 1) (walk.openInserted defines)).close
              defines).out
      else .ok (walk.close defines).out

end Netbase.Patch.Apply
