import Netbase.Text.Lines

/-!
# Addresses of editor commands

What `applies` looks at: the addresses of a command, the flag of `!`, and the one start
line a range keeps.  Matching a regular expression is left to the cycle, which also says
whether its line is the last one.
-/

namespace Netbase.Sed

open Netbase.Text

/-- An address; the empty regular expression stands for the last one used. -/
inductive Addr (R : Type) where
  | AT_RE (r : Option R)
  | AT_LINE (l : Nat)
  | AT_RELLINE (l : Nat)
  | AT_LAST
  deriving Repr, DecidableEq

/-- What a cycle shows of its line: its number, whether it is the last one, and which
expressions match it. -/
structure Cycle (R : Type) where
  linenum : Nat
  lastline : Bool
  regexec : Option R → Bool

variable {R : Type}

/-- `MATCH`. -/
def Addr.matches (a : Addr R) (c : Cycle R) : Bool :=
  match a with
  | .AT_RE r => c.regexec r
  | .AT_LINE l => c.linenum == l
  | _ => c.lastline

/-- What `applies` finds: whether the command applies, whether this is the last line of
a range, and the start line from now on. -/
structure Applied where
  r : Bool
  lastaddr : Bool
  startline : Nat
  deriving Repr, DecidableEq

/-- `applies` in an open range. -/
def closesRange (a2 : Addr R) (startline : Nat) (c : Cycle R) : Applied :=
  match a2 with
  | .AT_RELLINE l =>
      if c.linenum - startline ≤ l then ⟨true, false, startline⟩ else ⟨false, false, 0⟩
  | .AT_LINE l =>
      if a2.matches c then ⟨true, true, 0⟩
      else if c.linenum > l then ⟨false, false, 0⟩
      else ⟨true, false, startline⟩
  | _ => if a2.matches c then ⟨true, true, 0⟩ else ⟨true, false, startline⟩

/-- The second address selects one line only. -/
def Addr.single (a2 : Addr R) (c : Cycle R) : Bool :=
  match a2 with
  | .AT_LINE l => c.linenum ≥ l
  | .AT_RELLINE l => l == 0
  | _ => false

/-- `applies` outside of a range. -/
def opensRange (a1 a2 : Addr R) (c : Cycle R) : Applied :=
  if a1.matches c then
    if a2.single c then ⟨true, true, 0⟩ else ⟨true, false, c.linenum⟩
  else ⟨false, false, 0⟩

/-- The addresses of a command, without the flag of `!`. -/
def addressed (a1 a2 : Option (Addr R)) (startline : Nat) (c : Cycle R) : Applied :=
  match a1, a2 with
  | none, none => ⟨true, false, startline⟩
  | some a1, none => ⟨a1.matches c, false, startline⟩
  | a1, some a2 =>
      if startline > 0 then closesRange a2 startline c
      else
        match a1 with
        | some a1 => opensRange a1 a2 c
        | none => ⟨false, false, 0⟩

/-- Whether a command applies to the line of a cycle. -/
def applies (a1 a2 : Option (Addr R)) (nonsel : Bool) (startline : Nat) (c : Cycle R) : Applied :=
  let found := addressed a1 a2 startline c
  { found with r := if nonsel then !found.r else found.r }

end Netbase.Sed
