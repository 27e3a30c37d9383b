import Netbase.Awk.Fields

/-!
# The record and its fields

`$0` and the fields are built from each other only when they are read: `donefld`
tells that the fields are those of the record, `donerec` that the record is made
of the fields.  `inputFS` is the field separator of the time `$0` was set.
-/

namespace Netbase.Awk

open Netbase.Text

/-- The cell of NF: its string, if it was set by one, and its number. -/
structure Nf where
  sval : Option (List Byte)
  fval : ℚ
  deriving DecidableEq

def Nf.ofNat (n : Nat) : Nf := ⟨none, n⟩

structure State where
  FS : List Byte
  RS : List Byte
  OFS : List Byte
  inputFS : Option (List Byte)
  record : List Byte
  fldtab : Nat → List Byte
  lastfld : Nat
  NF : Nf
  donefld : Bool
  donerec : Bool

def State.start : State :=
  ⟨[blank], [nl], [blank], none, [], fun _ => [], 0, .ofNat 0, false, false⟩

/-- The conversion of a double to an int. -/
def trunc (f : ℚ) : ℤ := if 0 ≤ f then ⌊f⌋ else ⌈f⌉

def State.savefs (st : State) : State := { st with inputFS := some st.FS }

/-- Fields `n1` to `n2` become empty. -/
def State.cleanfld (st : State) (n1 n2 : Nat) : State :=
  { st with fldtab := fun i => if n1 ≤ i ∧ i ≤ n2 then [] else st.fldtab i }

/-- A new number of fields; a negative one is fatal. -/
def State.setlastfld (st : State) (f : ℚ) : Option State :=
  if trunc f < 0 then none
  else
    let n := (trunc f).toNat
    let st := if st.lastfld < n then st.cleanfld (st.lastfld + 1) n else st.cleanfld (n + 1) st.lastfld
    some { st with lastfld := n }

/-- `setfval` for NF, with a number of fields. -/
def State.setNf (st : State) (n : Nat) : State :=
  match { st with donerec := false }.setlastfld n with
  | none => st
  | some st => { st with NF := .ofNat n }

/-- Field `n` behind the last one. -/
def State.newfld (st : State) (n : Nat) : State :=
  { st.cleanfld (st.lastfld + 1) n with lastfld := n }.setNf n

def State.fldbld (awk : Interp) (st : State) : State :=
  if st.donefld then st
  else
    let st := if st.inputFS.isNone then st.savefs else st
    let fields := awk.split (st.inputFS.getD []) st.RS st.record
    let i := fields.length
    let st := { st with
      fldtab := fun j => if 1 ≤ j ∧ j ≤ i then fields.getD (j - 1) [] else st.fldtab j }
    let st := { st.cleanfld (i + 1) st.lastfld with lastfld := i, donefld := true }.setNf i
    { st with donerec := true }

/-- The record made of fields. -/
def joined (sep : List Byte) (NF : ℚ) (field : Nat → List Byte) : List Byte :=
  ((List.range (trunc NF).toNat).map fun i =>
    field (i + 1) ++ if ((i + 1 : Nat) : ℚ) < NF then sep else []).flatten

def State.recbld (st : State) : State :=
  if st.donerec then st
  else { st with record := joined st.OFS st.NF.fval st.fldtab, donerec := true }

/-- What a program does to the record; `$0` is field 0. -/
inductive Op
  | getrec (record : List Byte)
  | set (n : Nat) (s : List Byte)
  | setNF (s : List Byte)
  | setFS (s : List Byte)
  | setRS (s : List Byte)
  | setOFS (s : List Byte)
  | get (n : Nat)
  | getNF

/-- A value that is read. -/
inductive Value
  | text (s : List Byte)
  | number (cell : Nf)
  deriving DecidableEq

/-- A string becomes the record. -/
def State.setRecord (st : State) (s : List Byte) : State :=
  { { st with donefld := false, donerec := true }.savefs with record := s }

/-- `setsval` for a field. -/
def State.setField (st : State) (n : Nat) (s : List Byte) : State :=
  let st := { st with donerec := false }
  let st := if st.NF.fval < (n : ℚ) then st.newfld n else st
  { st with fldtab := Function.update st.fldtab n s }

/-- `setsval` for NF. -/
def State.setNFsval (awk : Interp) (st : State) (s : List Byte) : Option State :=
  { st with donerec := false, NF := ⟨some s, awk.number s⟩ }.setlastfld (awk.number s)

/-- One operation; `execute` builds a field or the record before it is assigned or read.  It gives
the values read, unless it is fatal. -/
def State.step (awk : Interp) (st : State) : Op → Option (List Value × State)
  | .getrec record => some ([], st.setRecord record)
  | .set 0 s => some ([], st.recbld.setRecord s)
  | .set (n + 1) s => some ([], (st.fldbld awk).setField (n + 1) s)
  | .setNF s => ((st.fldbld awk).setNFsval awk s).map fun st => ([], st)
  | .setFS s => some ([], { st with FS := s })
  | .setRS s => some ([], { st with RS := s })
  | .setOFS s => some ([], { st.recbld with OFS := s })
  | .get 0 => some ([.text st.recbld.record], st.recbld)
  | .get (n + 1) => some ([.text ((st.fldbld awk).fldtab (n + 1))], st.fldbld awk)
  | .getNF => some ([.number (st.fldbld awk).NF], st.fldbld awk)

/-- The values read by a sequence of operations, and whether it came to its end. -/
def State.run (awk : Interp) : State → List Op → List Value × Bool
  | _, [] => ([], true)
  | st, op :: ops =>
      match st.step awk op with
      | none => ([], false)
      | some (values, st) => (values ++ (State.run awk st ops).1, (State.run awk st ops).2)

end Netbase.Awk
