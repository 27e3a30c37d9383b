import Mathlib
import Netbase.Text.Lines

/-!
# Splitting a file by context

Lines read too far stay in the output file they were copied to: it becomes the
overflow file, is read again from a remembered place on, and is cut off there
when the next pattern is through.
-/

namespace Netbase.Csplit

open Netbase.Text

/-- The sizes of the line buffer and of the buffer for winding back. -/
structure Sizes where
  lineMax : Nat
  bufsiz : Nat
  line_pos : 1 < lineMax
  buf_pos : 0 < bufsiz

/-- The overflow file by its place among the files, with the place reading has come to. -/
structure Over where
  file : Nat
  pos : Nat

/-- The state between two files: what is unread of the input, and the files so far. -/
structure State where
  infile : List Byte
  eof : Bool
  files : List (List Byte)
  overfile : Option Over
  truncofs : Nat
  lineno : Int

def State.start (input : List Byte) : State := ⟨input, false, [], none, 0, 0⟩

/-- At most `size` bytes up to a newline, what is left, and whether the end of the file was met. -/
def fgets : Nat → List Byte → List Byte × List Byte × Bool
  | 0, src => ([], src, false)
  | _ + 1, [] => ([], [], true)
  | size + 1, c :: src =>
      if c = nl then ([c], src, false)
      else (c :: (fgets size src).1, (fgets size src).2.1, (fgets size src).2.2)

def State.unread (st : State) : List Byte :=
  match st.overfile with
  | none => []
  | some spill => (st.files.getD spill.file []).drop spill.pos

/-- A line of the input file; `eof` is its end-of-file indicator. -/
def State.getInput (sizes : Sizes) (st : State) : Option (List Byte) × State :=
  let line := (fgets (sizes.lineMax - 1) st.infile).1
  let st := { st with
    infile := (fgets (sizes.lineMax - 1) st.infile).2.1
    eof := st.eof || (fgets (sizes.lineMax - 1) st.infile).2.2 }
  if line = [] then (none, st) else (some line, { st with lineno := st.lineno + 1 })

def State.getLine (sizes : Sizes) (st : State) : Option (List Byte) × State :=
  match st.overfile with
  | none => st.getInput sizes
  | some spill =>
      let line := (fgets (sizes.lineMax - 1) st.unread).1
      if line = [] then st.getInput sizes
      else
        (some line, { st with
          overfile := some { spill with pos := spill.pos + line.length }, lineno := st.lineno + 1 })

/-- A string is written up to its NUL. -/
def fputs (p ofp : List Byte) : List Byte := ofp ++ p.takeWhile (· ≠ 0)

/-- A scan over a buffer from its end for the newline behind the `n`-th: the place `i` it stops at,
and what is left of `n`. -/
def scanBack : List Byte → Nat → Int → Nat × Int
  | [], i, n => (i, n)
  | c :: rest, i, n =>
      if c = nl then
        if n = 0 then (i, n - 1) else scanBack rest (i + 1) (n - 1)
      else scanBack rest (i + 1) n

/-- Winds a file back from the place `pos`, buffer by buffer; `blocks` whole buffers lie before it. -/
def windBack (sizes : Sizes) (ofp : List Byte) : Nat → Nat → Int → Option Nat
  | blocks, pos, n =>
      let start := if pos < sizes.bufsiz then 0 else pos - sizes.bufsiz
      let buf := (ofp.drop start).take sizes.bufsiz
      let nread := buf.length
      if nread = 0 then none
      else
        let (i, n) := scanBack buf.reverse 1 n
        let found := start + (nread + 1 - i)
        if start = 0 then some found
        else
          match blocks with
          | 0 => some found
          | blocks + 1 => if n > 0 then windBack sizes ofp blocks start n else some found

/-- The overflow file is cut off where the lines thrown back begin, and closed. -/
def State.tidy (st : State) : State :=
  match st.overfile with
  | none => st
  | some spill =>
      { st with files := st.files.modify spill.file (·.take st.truncofs), overfile := none }

/-- Throws the last `n` lines of the output file back. -/
def State.toomuch (sizes : Sizes) (st : State) (ofp : List Byte) (n : Nat) : Option State :=
  let st := st.tidy
  match windBack sizes ofp (ofp.length / sizes.bufsiz) ofp.length n with
  | none => none
  | some ofs =>
      some { st with
        lineno := st.lineno - n, files := st.files ++ [ofp],
        overfile := some ⟨st.files.length, ofs⟩, truncofs := ofs }

/-! ## Reading makes progress -/

theorem fgets_append (size : Nat) (src : List Byte) :
    (fgets size src).1 ++ (fgets size src).2.1 = src := by
  induction src generalizing size with
  | nil => cases size <;> rfl
  | cons c src ih =>
      cases size with
      | zero => rfl
      | succ size =>
          simp only [fgets]
          split
          · rfl
          · exact congrArg (c :: ·) (ih size)

/-- What is unread of both files. -/
def State.left (st : State) : Nat := st.unread.length + st.infile.length

theorem State.getInput_left {sizes : Sizes} {st next : State} {line : List Byte}
    (read : st.getInput sizes = (some line, next)) : next.left < st.left := by
  unfold State.getInput at read
  dsimp only at read
  split at read
  · cases read
  · rename_i nonempty
    cases read
    have whole := congrArg List.length (fgets_append (sizes.lineMax - 1) st.infile)
    have positive := List.length_pos_iff.mpr nonempty
    simp only [State.left, State.unread, List.length_append] at whole ⊢
    omega

theorem State.getLine_left {sizes : Sizes} {st next : State} {line : List Byte}
    (read : st.getLine sizes = (some line, next)) : next.left < st.left := by
  unfold State.getLine at read
  split at read
  · exact State.getInput_left read
  · rename_i spill file
    dsimp only at read
    split at read
    · exact State.getInput_left read
    · rename_i nonempty
      cases read
      have whole := congrArg List.length (fgets_append (sizes.lineMax - 1) st.unread)
      have positive := List.length_pos_iff.mpr nonempty
      simp only [State.left, State.unread, file, List.length_append, List.length_drop]
        at whole positive ⊢
      omega

/-! ## The patterns -/

def State.search (sizes : Sizes) (regexec : List Byte → Bool) (first : Bool) (ofp : List Byte)
    (st : State) : Option (List Byte × State) :=
  match _read : st.getLine sizes with
  | (none, _) => none
  | (some p, next) =>
      if first = false ∧ regexec p = true then some (fputs p ofp, next)
      else State.search sizes regexec false (fputs p ofp) next
termination_by st.left
decreasing_by exact State.getLine_left ‹_›

/-- At most `n` lines are copied. -/
def State.copy (sizes : Sizes) : Nat → List Byte → State → List Byte × State
  | 0, ofp, st => (ofp, st)
  | n + 1, ofp, st =>
      match st.getLine sizes with
      | (none, st) => (ofp, st)
      | (some p, st) => State.copy sizes n (fputs p ofp) st

/-- The lines of a file for a pattern with an offset, as they are when the overflow is dealt with. -/
def State.scan (sizes : Sizes) (regexec : List Byte → Bool) (ofs : Int) (st : State) :
    Option (List Byte × State) :=
  match st.search sizes regexec true [] with
  | none => none
  | some (ofp, st) => some (if ofs ≤ 0 then (ofp, st) else st.copy sizes (ofs - 1).toNat ofp)

/-- A new file for `/regexp/offset`. -/
def State.doRexp (sizes : Sizes) (regexec : List Byte → Bool) (ofs : Int) (st : State) :
    Option State :=
  match st.scan sizes regexec ofs with
  | none => none
  | some (ofp, st) =>
      if ofs ≤ 0 then st.toomuch sizes ofp (-ofs + 1).toNat
      else
        let st := st.tidy
        some { st with files := st.files ++ [ofp] }

/-- Copies lines until the next one is `lastline`; the end of the input is an error. -/
def State.copyTo (sizes : Sizes) : Nat → List Byte → State → Option (List Byte × State)
  | 0, ofp, st => some (ofp, st)
  | n + 1, ofp, st =>
      match st.getLine sizes with
      | (none, _) => none
      | (some p, st) => State.copyTo sizes n (fputs p ofp) st

/-- New files up to `lastline` and to every `tgtline` lines more. -/
def State.linenoLoop (sizes : Sizes) (maxfiles : Nat) (tgtline : Int) :
    Nat → Int → State → Option State
  | reps, lastline, st =>
      if st.files.length < maxfiles - 1 then
        match State.copyTo sizes (lastline - (st.lineno + 1)).toNat [] st with
        | none => none
        | some (ofp, st) =>
            let st := { st with files := st.files ++ [ofp] }
            match reps with
            | 0 => some st
            | reps + 1 => State.linenoLoop sizes maxfiles tgtline reps (lastline + tgtline) st
      else some st

def State.doLineno (sizes : Sizes) (maxfiles : Nat) (tgtline : Int) (reps : Nat) (st : State) :
    Option State :=
  if tgtline ≤ 0 then none
  else if tgtline ≤ st.lineno then none
  else st.linenoLoop sizes maxfiles tgtline reps tgtline

/-- A pattern; `regexec` is what its regular expression matches. -/
inductive Pattern
  | rexp (regexec : List Byte → Bool) (ofs : Int)
  | lineno (tgtline : Int)

/-- `do_rexp` with its repetitions. -/
def State.rexpLoop (sizes : Sizes) (maxfiles : Nat) (regexec : List Byte → Bool) (ofs : Int) :
    Nat → State → Option State
  | reps, st =>
      match st.doRexp sizes regexec ofs with
      | none => none
      | some st =>
          match reps with
          | 0 => some st
          | reps + 1 =>
              if st.files.length < maxfiles - 1 then
                State.rexpLoop sizes maxfiles regexec ofs reps st
              else some st

def State.run (sizes : Sizes) (maxfiles : Nat) : List (Pattern × Nat) → State → Option State
  | [], st => some st
  | (pattern, reps) :: argv, st =>
      if st.files.length < maxfiles - 1 then
        let made := match pattern with
          | .rexp regexec ofs => st.rexpLoop sizes maxfiles regexec ofs reps
          | .lineno tgtline => st.doLineno sizes maxfiles tgtline reps
        match made with
        | none => none
        | some st => State.run sizes maxfiles argv st
      else some st

def State.copyRest (sizes : Sizes) (ofp : List Byte) (st : State) : List Byte × State :=
  match _read : st.getLine sizes with
  | (none, next) => (ofp, next)
  | (some p, next) => State.copyRest sizes (fputs p ofp) next
termination_by st.left
decreasing_by exact State.getLine_left ‹_›

/-- The rest of the input goes to one more file, unless its end has been met. -/
def State.finish (sizes : Sizes) (st : State) : State :=
  if st.eof then st.tidy
  else
    let (ofp, st) := st.copyRest sizes []
    State.tidy { st with files := st.files ++ [ofp] }

/-- The files csplit leaves, unless it exits with an error.  Names have `sufflen` digits. -/
def csplit (sizes : Sizes) (sufflen : Nat) (argv : List (Pattern × Nat)) (input : List Byte) :
    Option (List (List Byte)) :=
  match State.run sizes (10 ^ sufflen) argv (.start input) with
  | none => none
  | some st => some (st.finish sizes).files

end Netbase.Csplit
