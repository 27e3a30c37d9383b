import Netbase.Lib.Buffer
import Netbase.Text.Lines
import Mathlib.Data.List.DropRight

/-!
# Copying and converting blocks

The read loop, the three conversions and the output of `dd`, over the memory its buffers
lie in.  The input comes as the bytes of one read after another; what a write does is
taken from a list that says how many bytes it takes, none where it is interrupted.  Every
store is checked against the buffer it goes to.  Statistics are left out.
-/

namespace Netbase.Dd

open Netbase.Text Netbase.Lib

inductive Fault where
  | overrun
  | seek
  deriving Repr, DecidableEq

inductive Cfunc where
  | copy
  | block
  | unblock
  deriving Repr, DecidableEq

structure Operands where
  cfunc : Cfunc
  sync : Bool
  osync : Bool
  sparse : Bool
  ctab : Option (Byte → Byte)
  cbsz : Nat

/-- One side of the copy: the memory block of its buffer, offsets in it and counts. -/
structure Io where
  db : Nat
  dbp : Nat
  dbcnt : Nat
  dbrcnt : Nat
  dbsz : Nat

/-- `writes` says what the next writes will do; `file` is the output file, and `seeks`
are the seeks made in it with the places they start from. -/
structure State where
  mem : Nat → List Byte
  inp : Io
  out : Io
  pending : Int
  intrunc : Bool
  file : List Byte
  pos : Nat
  seeks : List (Nat × Int)
  writes : List Nat

def Operands.translate (o : Operands) (c : Byte) : Byte :=
  match o.ctab with
  | none => c
  | some t => t c

def State.store (s : State) (db p : Nat) (bytes : List Byte) : Except Fault State :=
  match Lib.store (s.mem db) p bytes with
  | some buf => .ok { s with mem := fun b => if b = db then buf else s.mem b }
  | none => .error .overrun

/-! ## Output -/

/-- Write at the place of the file, over what is there and with zeros in front where the
file is shorter.  Where nothing is written the file stays as it is. -/
def State.write (s : State) (bytes : List Byte) : State :=
  if bytes = [] then s
  else
    { s with
      file := s.file.take s.pos ++ List.replicate (s.pos - s.file.length) 0 ++ bytes ++
        s.file.drop (s.pos + bytes.length)
      pos := s.pos + bytes.length }

/-- Seek from the place of the file. -/
def State.seekBy (s : State) (offset : Int) : Except Fault State :=
  if 0 ≤ (s.pos : Int) + offset then
    .ok { s with
      pos := ((s.pos : Int) + offset).toNat
      seeks := s.seeks ++ [(s.pos, offset)] }
  else .error .seek

/-- Seek past the pending hole, if there is one. -/
def State.seekPending (s : State) : Except Fault State :=
  if s.pending ≠ 0 then s.seekBy s.pending else .ok s

/-- The hole has been sought past. -/
def State.closeHole (s : State) : State := { s with pending := 0 }

/-- What the writes to come will do. -/
def State.setWrites (s : State) (writes : List Nat) : State := { s with writes := writes }

def allZero (bytes : List Byte) : Bool := bytes.all (· == 0)

/-- The writes of one block: zeros are left to a seek unless `force` is set. -/
def writeBlock (o : Operands) (force : Bool) : List Nat → Nat → Nat → State → Except Fault State
  | writes, outp, cnt, s =>
      if !force && o.sparse && allZero (slice (s.mem s.out.db) outp cnt) then
        .ok ({ s with pending := s.pending + cnt }.setWrites writes)
      else do
        let s ← s.seekPending
        match writes with
        | [] => .ok ((s.write (slice (s.mem s.out.db) outp cnt)).closeHole.setWrites [])
        | w :: writes =>
            let nw := min w cnt
            let s := (s.write (slice (s.mem s.out.db) outp nw)).closeHole
            if nw = cnt then .ok (s.setWrites writes)
            else writeBlock o force writes (outp + nw) (cnt - nw) s

def writeBlocks (o : Operands) (force : Bool) : Nat → Nat → Nat → State → Except Fault State
  | 0, _, _, s => .ok s
  | fuel + 1, n, outp, s => do
      let s ← writeBlock o force s.writes outp n s
      let s := { s with out := { s.out with dbcnt := s.out.dbcnt - n } }
      if s.out.dbcnt < s.out.dbsz then .ok s
      else writeBlocks o force fuel s.out.dbsz (outp + n) s

/-- Reassemble the output block. -/
def reassemble (s : State) : Except Fault State :=
  if s.out.dbcnt ≠ 0 then
    s.store s.out.db 0 (slice (s.mem s.out.db) (s.out.dbp - s.out.dbcnt) s.out.dbcnt)
  else .ok s

def ddOut (o : Operands) (force : Bool) (s : State) : Except Fault State := do
  let n := if force then s.out.dbcnt else s.out.dbsz
  let s ← writeBlocks o force (s.out.dbcnt + 1) n 0 s
  let s ← reassemble s
  .ok { s with out := { s.out with dbp := s.out.dbcnt } }

/-- Write out what is there as soon as it fills a block. -/
def flush (o : Operands) (s : State) : Except Fault State :=
  if s.out.dbcnt ≥ s.out.dbsz then ddOut o false s else .ok s

/-- Translate what has just been read, in place. -/
def translateInput (o : Operands) (s : State) : Except Fault State :=
  match o.ctab with
  | none => .ok s
  | some t =>
      s.store s.inp.db (s.inp.dbp - s.inp.dbrcnt)
        ((slice (s.mem s.inp.db) (s.inp.dbp - s.inp.dbrcnt) s.inp.dbrcnt).map t)

/-! ## No conversion of records -/

/-- `def`: the buffer is that of the output, too. -/
def defCopy (o : Operands) (s : State) : Except Fault State := do
  let s ← translateInput o s
  let s := { s with out := { s.out with dbp := s.inp.dbp, dbcnt := s.inp.dbcnt } }
  if s.inp.dbcnt ≥ s.out.dbsz then do
    let s ← ddOut o false s
    .ok { s with inp := { s.inp with dbp := s.out.dbp, dbcnt := s.out.dbcnt } }
  else .ok s

def defClose (s : State) : State :=
  if s.inp.dbcnt ≠ 0 then { s with out := { s.out with dbcnt := s.inp.dbcnt } } else s

/-- Move what is left of the input to the front of its buffer. -/
def moveInput (s : State) : Except Fault State :=
  s.store s.inp.db 0 (slice (s.mem s.inp.db) (s.inp.dbp - s.inp.dbcnt) s.inp.dbcnt)

/-! ## Lines to records -/

/-- The characters that are copied to the next record. -/
def nextRecord (o : Operands) (inp : Nat) (s : State) : List Byte :=
  (slice (s.mem s.inp.db) inp (min o.cbsz s.inp.dbcnt)).takeWhile (· ≠ nl)

/-- A short record is filled up; behind a full one the rest of the line is tossed. -/
def endRecord (o : Operands) (inp cnt : Nat) (s : State) : Except Fault (Nat × State) :=
  if cnt < o.cbsz then do
    let s ← s.store s.out.db (s.out.dbp + cnt)
      (List.replicate (o.cbsz - cnt) (o.translate (byte ' ')))
    .ok (inp, s)
  else
    let tossed := ((slice (s.mem s.inp.db) inp s.inp.dbcnt).takeWhile (· ≠ nl)).length
    if tossed = s.inp.dbcnt then
      .ok (inp + tossed, { s with inp := { s.inp with dbcnt := 0 }, intrunc := true })
    else
      .ok (inp + tossed + 1, { s with inp := { s.inp with dbcnt := s.inp.dbcnt - tossed - 1 } })

/-- A record goes out. -/
def emitRecord (o : Operands) (s : State) : Except Fault State :=
  flush o
    { s with out := { s.out with dbp := s.out.dbp + o.cbsz, dbcnt := s.out.dbcnt + o.cbsz } }

/-- The loop over the records.  A newline ends a record; one without a newline that is
not full waits for more input. -/
def blockRecords (o : Operands) : Nat → Nat → State → Except Fault State
  | 0, _, s => .ok s
  | fuel + 1, inp, s =>
      if s.inp.dbcnt = 0 then .ok s
      else do
        let text := nextRecord o inp s
        let ended := text.length < min o.cbsz s.inp.dbcnt
        let s ← s.store s.out.db s.out.dbp (text.map o.translate)
        if ¬ ended ∧ s.inp.dbcnt < o.cbsz then moveInput s
        else do
          let used := text.length + (if ended then 1 else 0)
          let next ← endRecord o (inp + used) text.length
            { s with inp := { s.inp with dbcnt := s.inp.dbcnt - used } }
          blockRecords o fuel next.1 (← emitRecord o next.2)

/-- The records of what stands in the input buffer. -/
def blockInput (o : Operands) (s : State) : Except Fault State := do
  let s ← blockRecords o s.inp.dbcnt (s.inp.dbp - s.inp.dbcnt) s
  .ok { s with inp := { s.inp with dbp := s.inp.dbcnt } }

/-- The end of a line that was too long has been read. -/
def State.skipLine (s : State) (tossed : Nat) : State :=
  { s with
    intrunc := false
    inp := { s.inp with dbcnt := s.inp.dbrcnt - tossed - 1, dbp := s.inp.dbrcnt } }

/-- `block`: in a line that is too long characters are tossed up to its newline. -/
def block (o : Operands) (s : State) : Except Fault State :=
  if s.intrunc then
    let tossed := ((slice (s.mem s.inp.db) 0 s.inp.dbrcnt).takeWhile (· ≠ nl)).length
    if tossed = s.inp.dbrcnt then .ok { s with inp := { s.inp with dbcnt := 0, dbp := 0 } }
    else blockInput o (s.skipLine tossed)
  else blockInput o s

/-- What is left in the input buffer is one more record. -/
def blockClose (o : Operands) (s : State) : Except Fault State :=
  if s.inp.dbcnt ≠ 0 then do
    let s ← s.store s.out.db s.out.dbp
      (slice (s.mem s.inp.db) (s.inp.dbp - s.inp.dbcnt) s.inp.dbcnt)
    let s ← s.store s.out.db (s.out.dbp + s.inp.dbcnt)
      (List.replicate (o.cbsz - s.inp.dbcnt) (o.translate (byte ' ')))
    .ok { s with out := { s.out with dbcnt := s.out.dbcnt + o.cbsz } }
  else .ok s

/-! ## Records to lines -/

/-- A record without its trailing blanks. -/
def stripBlanks (record : List Byte) : List Byte := record.rdropWhile (· = byte ' ')

def emitLine (record : List Byte) (s : State) : Except Fault State := do
  let line := stripBlanks record ++ [nl]
  let s ← s.store s.out.db s.out.dbp line
  .ok { s with
    out := { s.out with dbp := s.out.dbp + line.length, dbcnt := s.out.dbcnt + line.length } }

/-- The loop over the records that are complete. -/
def unblockRecords (o : Operands) : Nat → Nat → State → Except Fault State
  | 0, _, s => .ok s
  | fuel + 1, inp, s =>
      if s.inp.dbcnt < o.cbsz then .ok s
      else do
        let s ← emitLine (slice (s.mem s.inp.db) inp o.cbsz) s
        let s ← flush o s
        unblockRecords o fuel (inp + o.cbsz)
          { s with inp := { s.inp with dbcnt := s.inp.dbcnt - o.cbsz } }

/-- Move an incomplete record to the front of the input buffer. -/
def keepRecord (s : State) : Except Fault State :=
  if s.inp.dbcnt ≠ 0 then moveInput s else .ok s

def unblock (o : Operands) (s : State) : Except Fault State := do
  let s ← translateInput o s
  let s ← unblockRecords o s.inp.dbcnt 0 s
  let s ← keepRecord s
  .ok { s with inp := { s.inp with dbp := s.inp.dbcnt } }

def unblockClose (s : State) : Except Fault State :=
  if s.inp.dbcnt ≠ 0 then emitLine (slice (s.mem s.inp.db) 0 s.inp.dbcnt) s else .ok s

/-! ## The whole copy -/

/-- The conversion of what has arrived. -/
def convert (o : Operands) (s : State) : Except Fault State :=
  match o.cfunc with
  | .copy => defCopy o s
  | .block => block o s
  | .unblock => unblock o s

/-- What `sync` fills an input block with. -/
def Operands.filler (o : Operands) : Byte :=
  match o.cfunc with
  | .copy => 0
  | _ => byte ' '

/-- Clear the buffer first if doing `sync` on input. -/
def clearInput (o : Operands) (s : State) : Except Fault State :=
  if o.sync then s.store s.inp.db s.inp.dbp (List.replicate s.inp.dbsz o.filler) else .ok s

def readBlock (o : Operands) (chunk : List Byte) (s : State) : Except Fault State := do
  let s ← clearInput o s
  let s ← s.store s.inp.db s.inp.dbp chunk
  let n := if o.sync then s.inp.dbsz else chunk.length
  convert o
    { s with
      inp := { s.inp with dbrcnt := n, dbcnt := s.inp.dbcnt + n, dbp := s.inp.dbp + n } }

/-- `dd_in` up to the end of the file. -/
def ddIn (o : Operands) : List (List Byte) → State → Except Fault State
  | [], s => .ok { s with inp := { s.inp with dbrcnt := 0 } }
  | chunk :: rest, s => do ddIn o rest (← readBlock o chunk s)

def closeConversion (o : Operands) (s : State) : Except Fault State :=
  match o.cfunc with
  | .copy => .ok (defClose s)
  | .block => blockClose o s
  | .unblock => unblockClose s

/-- The last block of a hole is written, so that the file gets its length. -/
def fillHole (s : State) : Except Fault State :=
  if s.out.dbcnt = 0 ∧ s.pending ≠ 0 then do
    let s ← s.store s.out.db 0 (List.replicate s.out.dbsz 0)
    .ok { s with
      out := { s.out with dbcnt := s.out.dbsz, dbp := s.out.dbsz }
      pending := s.pending - s.out.dbsz }
  else .ok s

/-- With `osync` the last block is filled up. -/
def padOutput (o : Operands) (s : State) : Except Fault State :=
  if o.osync ∧ s.out.dbcnt < s.out.dbsz then do
    let s ← s.store s.out.db s.out.dbp (List.replicate (s.out.dbsz - s.out.dbcnt) 0)
    .ok { s with out := { s.out with dbcnt := s.out.dbsz } }
  else .ok s

def ddClose (o : Operands) (s : State) : Except Fault State := do
  let s ← closeConversion o s
  let s ← padOutput o s
  let s ← fillHole s
  if s.out.dbcnt ≠ 0 then ddOut o true s else .ok s

/-- The value left after a conversion to an unsigned int. -/
def uInt (n : Nat) : Nat := n % 4294967296

def bufferSize (o : Operands) (ibs obs : Nat) (db : Nat) : Nat :=
  match o.cfunc with
  | .copy => if db = 0 then obs + (ibs - 1) else 0
  | _ => if db = 0 then uInt (max ibs o.cbsz + o.cbsz) else uInt (obs + o.cbsz)

/-- The block of memory of the output buffer. -/
def Operands.outBuffer (o : Operands) : Nat :=
  match o.cfunc with
  | .copy => 0
  | _ => 1

/-- Before the first read, with an empty output file; what the buffers hold is left from
before. -/
def setup (o : Operands) (ibs obs : Nat) (old : Nat → Nat → Byte) (writes : List Nat) : State where
  mem := fun db => (List.range (bufferSize o ibs obs db)).map (old db)
  inp := { db := 0, dbp := 0, dbcnt := 0, dbrcnt := 0, dbsz := ibs }
  out := { db := o.outBuffer, dbp := 0, dbcnt := 0, dbrcnt := 0, dbsz := obs }
  pending := 0
  intrunc := false
  file := []
  pos := 0
  seeks := []
  writes := writes

/-- The whole run. -/
def dd (o : Operands) (ibs obs : Nat) (old : Nat → Nat → Byte) (writes : List Nat)
    (chunks : List (List Byte)) : Except Fault State := do
  ddClose o (← ddIn o chunks (setup o ibs obs old writes))

end Netbase.Dd
