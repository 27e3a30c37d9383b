import Mathlib
import Netbase.Text.Lines

/-!
# Splitting a file into pieces

The input comes in reads of any size.  A piece is begun when there is something
to write to it, and its file is named after its number.
-/

namespace Netbase.Split

open Netbase.Text

/-- The files written so far, each by its name; the last is the one that is open.  `fnum` counts
them. -/
structure State where
  files : List (List Byte × List Byte)
  fnum : Nat
  fileOpen : Bool

def State.start : State := ⟨[], 0, false⟩

/-- The last places of the suffix for `quot`, and what is left of it. -/
def fill : Nat → Nat → List Byte → List Byte × Nat
  | 0, quot, fpnt => (fpnt, quot)
  | i + 1, quot, fpnt => fill i (quot / 26) ((UInt8.ofNat (quot % 26) + byte 'a') :: fpnt)

section

variable (fname : List Byte) (sfxlen : Nat)

/-- The next output file; there are not too many. -/
def State.newfile (st : State) : Option State :=
  let (fpnt, quot) := fill sfxlen st.fnum []
  if quot > 0 then none
  else some { st with files := st.files ++ [(fname ++ fpnt, [])], fnum := st.fnum + 1 }

/-- All of a buffer is written to the open file. -/
def State.bigwrite (st : State) (buf : List Byte) : Option State :=
  match st.files.getLast? with
  | none => none
  | some (name, text) => some { st with files := st.files.dropLast ++ [(name, text ++ buf)] }

/-- The next output file unless there are to be no more. -/
def State.newpiece (st : State) (maxcnt nfiles : Int) : Option (State × Int) :=
  if maxcnt = 0 ∨ nfiles < maxcnt then (st.newfile fname sfxlen).map (·, nfiles + 1)
  else some (st, nfiles)

/-- The whole pieces that are left in the buffer. -/
def State.wholes (bytecnt : ℕ+) (maxcnt : Int) (st : State) (nfiles : Int) (C : List Byte) :
    Option (State × Int × List Byte) :=
  if C.length < bytecnt then some (st, nfiles, C)
  else do
    let (st, nfiles) ← st.newpiece fname sfxlen maxcnt nfiles
    let st ← st.bigwrite (C.take bytecnt)
    State.wholes bytecnt maxcnt st nfiles (C.drop bytecnt)
termination_by C.length
decreasing_by
  rw [List.length_drop]
  have := bytecnt.pos
  omega

/-- A read has a file to begin with. -/
def State.opened (maxcnt : Int) (st : State) (nfiles : Int) : Option (State × Int) :=
  if st.fileOpen then some (st, nfiles)
  else if maxcnt = 0 ∨ nfiles < maxcnt then
    (st.newfile fname sfxlen).map ({ · with fileOpen := true }, nfiles + 1)
  else some (st, nfiles)

/-- One read of `split1`, with the bytes of the open piece. -/
def State.read1 (bytecnt : ℕ+) (maxcnt : Int) (st : State) (nfiles : Int) (bcnt : Nat)
    (bfr : List Byte) : Option (State × Int × Nat) := do
  let (st, nfiles) ← st.opened fname sfxlen maxcnt nfiles
  if bcnt + bfr.length ≥ bytecnt then
    let dist := bytecnt - bcnt
    let st ← st.bigwrite (bfr.take dist)
    let (st, nfiles, C) ← st.wholes fname sfxlen bytecnt maxcnt nfiles (bfr.drop dist)
    if C.length ≠ 0 then
      let (st, nfiles) ← st.newpiece fname sfxlen maxcnt nfiles
      let st ← st.bigwrite C
      some (st, nfiles, C.length)
    else some ({ st with fileOpen := false }, nfiles, C.length)
  else
    let st ← st.bigwrite bfr
    some (st, nfiles, bcnt + bfr.length)

/-- Splits the input by bytes, into `maxcnt` files at most when that is not 0. -/
def State.split1 (bytecnt : ℕ+) (maxcnt : Int) : List (List Byte) → State → Int → Nat → Option State
  | [], st, _, _ => some st
  | bfr :: reads, st, nfiles, bcnt => do
      let (st, nfiles, bcnt) ← st.read1 fname sfxlen bytecnt maxcnt nfiles bcnt bfr
      State.split1 bytecnt maxcnt reads st nfiles bcnt

def split1 (bytecnt : ℕ+) (maxcnt : Int) (reads : List (List Byte)) : Option State :=
  State.split1 fname sfxlen bytecnt maxcnt reads .start 0 0

/-- The lines of one read; from `Cs` to `Ce` nothing has been written yet. -/
def State.scan (numlines : ℕ+) : List Byte → State → Nat → List Byte → Option (State × Nat)
  | [], st, lcnt, Cs => if Cs = [] then some (st, lcnt) else (st.bigwrite Cs).map (·, lcnt)
  | Ce :: rest, st, lcnt, Cs =>
      let lcnt := if Ce = nl then lcnt + 1 else lcnt
      if Ce = nl ∧ lcnt = numlines then do
        let st ← st.bigwrite (Cs ++ [Ce])
        let st ← if rest = [] then some { st with fileOpen := false } else st.newfile fname sfxlen
        State.scan numlines rest st 0 []
      else State.scan numlines rest st lcnt (Cs ++ [Ce])

/-- One read of `split2`, with the lines of the open piece. -/
def State.read2 (numlines : ℕ+) (st : State) (lcnt : Nat) (bfr : List Byte) :
    Option (State × Nat) := do
  let (st, _) ← st.opened fname sfxlen 0 0
  State.scan fname sfxlen numlines bfr st lcnt []

/-- Splits the input by lines. -/
def State.split2 (numlines : ℕ+) : List (List Byte) → State → Nat → Option State
  | [], st, _ => some st
  | bfr :: reads, st, lcnt => do
      let (st, lcnt) ← st.read2 fname sfxlen numlines lcnt bfr
      State.split2 numlines reads st lcnt

def split2 (numlines : ℕ+) (reads : List (List Byte)) : Option State :=
  State.split2 fname sfxlen numlines reads .start 0

/-- Splits a file of `size` bytes into `chunks` files; their number is handed on as an `int`. -/
def split3 (chunks : ℕ+) (size : Nat) (reads : List (List Byte)) : Option State :=
  if inside : (chunks : Nat) ≤ size then
    split1 fname sfxlen ⟨size / chunks, Nat.div_pos inside chunks.pos⟩
      ((chunks : Int).bmod (2 ^ 32)) reads
  else none

end

end Netbase.Split
