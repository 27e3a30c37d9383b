import Netbase.Dd.Unblock

/-!
# What the conversions of records touch

`block` and `unblock` with every access checked, those that only look at bytes too.  They stay
inside the buffers where the sums that `setup` asks for are those of an unsigned int.
-/

namespace Netbase.Dd

open Netbase.Text Netbase.Lib

namespace Guarded

def look (s : State) (db p n : Nat) : Except Fault (List Byte) :=
  if p + n ≤ (s.mem db).length then .ok (slice (s.mem db) p n) else .error .overrun

/-- Look for a newline in some bytes: the bytes in front of it. -/
def scan (s : State) (db p n : Nat) : Except Fault (List Byte) := do
  let text := (slice (s.mem db) p n).takeWhile (· ≠ nl)
  let _ ← look s db p (min n (text.length + 1))
  .ok text

def translateInput (o : Operands) (s : State) : Except Fault State :=
  match o.ctab with
  | none => .ok s
  | some t => do
      let bytes ← look s s.inp.db (s.inp.dbp - s.inp.dbrcnt) s.inp.dbrcnt
      s.store s.inp.db (s.inp.dbp - s.inp.dbrcnt) (bytes.map t)

def moveInput (s : State) : Except Fault State := do
  let bytes ← look s s.inp.db (s.inp.dbp - s.inp.dbcnt) s.inp.dbcnt
  s.store s.inp.db 0 bytes

/-- `dd_out` takes what the buffer holds from its front. -/
def flush (o : Operands) (s : State) : Except Fault State :=
  if s.out.dbcnt ≥ s.out.dbsz then do
    let _ ← look s s.out.db 0 s.out.dbcnt
    ddOut o false s
  else .ok s

def endRecord (o : Operands) (inp cnt : Nat) (s : State) : Except Fault (Nat × State) :=
  if cnt < o.cbsz then do
    let s ← s.store s.out.db (s.out.dbp + cnt)
      (List.replicate (o.cbsz - cnt) (o.translate (byte ' ')))
    .ok (inp, s)
  else do
    let text ← scan s s.inp.db inp s.inp.dbcnt
    if text.length = s.inp.dbcnt then
      .ok (inp + text.length, { s with inp := { s.inp with dbcnt := 0 }, intrunc := true })
    else
      .ok (inp + text.length + 1,
        { s with inp := { s.inp with dbcnt := s.inp.dbcnt - text.length - 1 } })

def emitRecord (o : Operands) (s : State) : Except Fault State :=
  flush o
    { s with out := { s.out with dbp := s.out.dbp + o.cbsz, dbcnt := s.out.dbcnt + o.cbsz } }

def blockRecords (o : Operands) : Nat → Nat → State → Except Fault State
  | 0, _, s => .ok s
  | fuel + 1, inp, s =>
      if s.inp.dbcnt = 0 then .ok s
      else do
        let text ← scan s s.inp.db inp (min o.cbsz s.inp.dbcnt)
        let ended := text.length < min o.cbsz s.inp.dbcnt
        let s ← s.store s.out.db s.out.dbp (text.map o.translate)
        if ¬ ended ∧ s.inp.dbcnt < o.cbsz then moveInput s
        else do
          let used := text.length + (if ended then 1 else 0)
          let next ← endRecord o (inp + used) text.length
            { s with inp := { s.inp with dbcnt := s.inp.dbcnt - used } }
          blockRecords o fuel next.1 (← emitRecord o next.2)

def blockInput (o : Operands) (s : State) : Except Fault State := do
  let s ← blockRecords o s.inp.dbcnt (s.inp.dbp - s.inp.dbcnt) s
  .ok { s with inp := { s.inp with dbp := s.inp.dbcnt } }

def block (o : Operands) (s : State) : Except Fault State :=
  if s.intrunc then do
    let text ← scan s s.inp.db 0 s.inp.dbrcnt
    if text.length = s.inp.dbrcnt then .ok { s with inp := { s.inp with dbcnt := 0, dbp := 0 } }
    else blockInput o (s.skipLine text.length)
  else blockInput o s

def blockClose (o : Operands) (s : State) : Except Fault State :=
  if s.inp.dbcnt ≠ 0 then do
    let bytes ← look s s.inp.db (s.inp.dbp - s.inp.dbcnt) s.inp.dbcnt
    let s ← s.store s.out.db s.out.dbp bytes
    let s ← s.store s.out.db (s.out.dbp + s.inp.dbcnt)
      (List.replicate (o.cbsz - s.inp.dbcnt) (o.translate (byte ' ')))
    .ok { s with out := { s.out with dbcnt := s.out.dbcnt + o.cbsz } }
  else .ok s

def unblockRecords (o : Operands) : Nat → Nat → State → Except Fault State
  | 0, _, s => .ok s
  | fuel + 1, inp, s =>
      if s.inp.dbcnt < o.cbsz then .ok s
      else do
        let record ← look s s.inp.db inp o.cbsz
        let s ← emitLine record s
        let s ← flush o s
        unblockRecords o fuel (inp + o.cbsz)
          { s with inp := { s.inp with dbcnt := s.inp.dbcnt - o.cbsz } }

def keepRecord (s : State) : Except Fault State :=
  if s.inp.dbcnt ≠ 0 then moveInput s else .ok s

def unblock (o : Operands) (s : State) : Except Fault State := do
  let s ← translateInput o s
  let s ← unblockRecords o s.inp.dbcnt 0 s
  let s ← keepRecord s
  .ok { s with inp := { s.inp with dbp := s.inp.dbcnt } }

def unblockClose (s : State) : Except Fault State :=
  if s.inp.dbcnt ≠ 0 then do
    let record ← look s s.inp.db 0 s.inp.dbcnt
    emitLine record s
  else .ok s

def convert (o : Operands) (s : State) : Except Fault State :=
  match o.cfunc with
  | .copy => defCopy o s
  | .block => block o s
  | .unblock => unblock o s

def readBlock (o : Operands) (chunk : List Byte) (s : State) : Except Fault State := do
  let s ← clearInput o s
  let s ← s.store s.inp.db s.inp.dbp chunk
  let n := if o.sync then s.inp.dbsz else chunk.length
  convert o
    { s with
      inp := { s.inp with dbrcnt := n, dbcnt := s.inp.dbcnt + n, dbp := s.inp.dbp + n } }

def ddIn (o : Operands) : List (List Byte) → State → Except Fault State
  | [], s => .ok { s with inp := { s.inp with dbrcnt := 0 } }
  | chunk :: rest, s => do ddIn o rest (← readBlock o chunk s)

def closeConversion (o : Operands) (s : State) : Except Fault State :=
  match o.cfunc with
  | .copy => .ok (defClose s)
  | .block => blockClose o s
  | .unblock => unblockClose s

def ddClose (o : Operands) (s : State) : Except Fault State := do
  let s ← closeConversion o s
  let s ← padOutput o s
  let s ← fillHole s
  if s.out.dbcnt ≠ 0 then do
    let _ ← look s s.out.db 0 s.out.dbcnt
    ddOut o true s
  else .ok s

/-- The whole run. -/
def dd (o : Operands) (ibs obs : Nat) (old : Nat → Nat → Byte) (writes : List Nat)
    (chunks : List (List Byte)) : Except Fault State := do
  ddClose o (← ddIn o chunks (setup o ibs obs old writes))

/-! ## The run without the checks -/

theorem look_stopped (s : State) (db p n : Nat) :
    Stopped .overrun (look s db p n) (.ok (slice (s.mem db) p n)) := by
  unfold look
  split
  · exact .inr rfl
  · exact .inl rfl

theorem scan_stopped (s : State) (db p n : Nat) :
    Stopped .overrun (scan s db p n) (.ok ((slice (s.mem db) p n).takeWhile (· ≠ nl))) :=
  (look_stopped s db p _).after (.refl _)

theorem translateInput_stopped (o : Operands) (s : State) :
    Stopped .overrun (translateInput o s) (Dd.translateInput o s) := by
  unfold translateInput Dd.translateInput
  cases o.ctab with
  | none => exact .refl _
  | some t => exact (look_stopped s _ _ _).after (.refl _)

theorem moveInput_stopped (s : State) : Stopped .overrun (moveInput s) (Dd.moveInput s) :=
  (look_stopped s _ _ _).after (.refl _)

theorem flush_stopped (o : Operands) (s : State) :
    Stopped .overrun (flush o s) (Dd.flush o s) := by
  unfold flush Dd.flush
  split
  · exact (look_stopped s _ _ _).after (.refl _)
  · exact .refl _

theorem endRecord_stopped (o : Operands) (inp cnt : Nat) (s : State) :
    Stopped .overrun (endRecord o inp cnt s) (Dd.endRecord o inp cnt s) := by
  unfold endRecord Dd.endRecord
  split
  · exact .refl _
  · exact (scan_stopped s _ _ _).after (.refl _)

theorem blockRecords_stopped (o : Operands) (fuel : Nat) :
    ∀ inp s, Stopped .overrun (blockRecords o fuel inp s) (Dd.blockRecords o fuel inp s) := by
  induction fuel with
  | zero => exact fun _ _ => .refl _
  | succ fuel ih =>
      intro inp s
      unfold blockRecords Dd.blockRecords nextRecord
      split
      · exact .refl _
      · refine (scan_stopped s _ _ _).after ((Stopped.refl _).bind fun s' => ?_)
        split
        · exact moveInput_stopped s'
        · exact (endRecord_stopped o _ _ _).bind fun next =>
            (flush_stopped o _).bind fun s'' => ih _ s''

theorem blockInput_stopped (o : Operands) (s : State) :
    Stopped .overrun (blockInput o s) (Dd.blockInput o s) :=
  (blockRecords_stopped o _ _ s).bind fun _ => .refl _

theorem block_stopped (o : Operands) (s : State) :
    Stopped .overrun (block o s) (Dd.block o s) := by
  unfold block Dd.block
  split
  · refine (scan_stopped s _ _ _).after ?_
    simp only
    split
    · exact .refl _
    · exact blockInput_stopped o _
  · exact blockInput_stopped o s

theorem blockClose_stopped (o : Operands) (s : State) :
    Stopped .overrun (blockClose o s) (Dd.blockClose o s) := by
  unfold blockClose Dd.blockClose
  split
  · exact (look_stopped s _ _ _).after (.refl _)
  · exact .refl _

theorem unblockRecords_stopped (o : Operands) (fuel : Nat) :
    ∀ inp s, Stopped .overrun (unblockRecords o fuel inp s) (Dd.unblockRecords o fuel inp s) := by
  induction fuel with
  | zero => exact fun _ _ => .refl _
  | succ fuel ih =>
      intro inp s
      unfold unblockRecords Dd.unblockRecords
      split
      · exact .refl _
      · exact (look_stopped s _ _ _).after ((Stopped.refl _).bind fun s' =>
          (flush_stopped o s').bind fun s'' => ih _ _)

theorem unblock_stopped (o : Operands) (s : State) :
    Stopped .overrun (unblock o s) (Dd.unblock o s) := by
  refine (translateInput_stopped o s).bind fun s' => (unblockRecords_stopped o _ _ s').bind
    fun s'' => Stopped.bind ?_ fun _ => .refl _
  unfold keepRecord Dd.keepRecord
  split
  · exact moveInput_stopped s''
  · exact .refl _

theorem unblockClose_stopped (s : State) :
    Stopped .overrun (unblockClose s) (Dd.unblockClose s) := by
  unfold unblockClose Dd.unblockClose
  split
  · exact (look_stopped s _ _ _).after (.refl _)
  · exact .refl _

theorem convert_stopped (o : Operands) (s : State) :
    Stopped .overrun (convert o s) (Dd.convert o s) := by
  unfold convert Dd.convert
  cases o.cfunc with
  | copy => exact .refl _
  | block => exact block_stopped o s
  | unblock => exact unblock_stopped o s

theorem readBlock_stopped (o : Operands) (chunk : List Byte) (s : State) :
    Stopped .overrun (readBlock o chunk s) (Dd.readBlock o chunk s) :=
  (Stopped.refl _).bind fun _ => (Stopped.refl _).bind fun _ => convert_stopped o _

theorem ddIn_stopped (o : Operands) (chunks : List (List Byte)) :
    ∀ s, Stopped .overrun (ddIn o chunks s) (Dd.ddIn o chunks s) := by
  induction chunks with
  | nil => exact fun _ => .refl _
  | cons chunk rest ih => exact fun s => (readBlock_stopped o chunk s).bind ih

theorem ddClose_stopped (o : Operands) (s : State) :
    Stopped .overrun (ddClose o s) (Dd.ddClose o s) := by
  refine Stopped.bind ?_ fun s1 => (Stopped.refl _).bind fun s2 => (Stopped.refl _).bind fun s3 => ?_
  · unfold closeConversion Dd.closeConversion
    cases o.cfunc with
    | copy => exact .refl _
    | block => exact blockClose_stopped o s
    | unblock => exact unblockClose_stopped s
  · split
    · exact (look_stopped s3 _ _ _).after (.refl _)
    · exact .refl _

theorem dd_stopped (o : Operands) (ibs obs : Nat) (old : Nat → Nat → Byte) (writes : List Nat)
    (chunks : List (List Byte)) :
    Stopped .overrun (dd o ibs obs old writes chunks) (Dd.dd o ibs obs old writes chunks) :=
  (ddIn_stopped o chunks _).bind fun s => ddClose_stopped o s

end Guarded

end Netbase.Dd
