import Netbase.Text.Decimal

/-!
# Symbolic modes

`setmode` turns a symbolic mode into a list of commands, and `getmode` runs the
list on an old mode.  `compress_mode` merges every run of `+`, `-` and `X`
commands into at most one of each; the copy commands `u`, `g` and `o` read the
mode that the commands before them have made, so they end a run.
-/

namespace Netbase.Setmode

open Netbase.Text

/-- `mode_t` -/
abbrev Mode := BitVec 32

def S_IFDIR : Mode := 0o040000
def S_ISUID : Mode := 0o4000
def S_ISGID : Mode := 0o2000
def S_ISTXT : Mode := 0o1000
def S_IRWXU : Mode := 0o700
def S_IRWXG : Mode := 0o070
def S_IRWXO : Mode := 0o007
def S_IRUSR : Mode := 0o400
def S_IRGRP : Mode := 0o040
def S_IROTH : Mode := 0o004

/-- One permission of the user, the group and the others. -/
def forAll (other : Mode) : Mode := (other <<< 6) ||| (other <<< 3) ||| other

def S_IRALL : Mode := forAll 0o4
def S_IWALL : Mode := forAll 0o2
def S_IXALL : Mode := forAll 0o1

def STANDARD_BITS : Mode := S_ISUID ||| S_ISGID ||| S_IRWXU ||| S_IRWXG ||| S_IRWXO

/-- The values of `cmd` before the end of a list. -/
inductive Cmd where
  | user
  | group
  | other
  | set
  | clear
  | condX
  deriving DecidableEq, Repr

/-- The flags of `cmd2`. -/
structure Cmd2 where
  clr : Bool
  set : Bool
  gbits : Bool
  obits : Bool
  ubits : Bool
  deriving DecidableEq, Repr

def Cmd2.none : Cmd2 := { clr := false, set := false, gbits := false, obits := false, ubits := false }

structure BitCmd where
  cmd : Cmd
  cmd2 : Cmd2
  bits : Mode
  deriving DecidableEq, Repr

/-! ## Running a list -/

/-- The part of `getmode` that copies `value` around. -/
def copyBits (command : BitCmd) (value newmode : Mode) : Mode :=
  let clrval := if command.cmd2.set then S_IRWXO else value
  let clear (wanted : Bool) (shift : Nat) (mode : Mode) : Mode :=
    if command.cmd2.clr && wanted then mode &&& ~~~((clrval <<< shift) &&& command.bits) else mode
  let set (wanted : Bool) (shift : Nat) (mode : Mode) : Mode :=
    if command.cmd2.set && wanted then mode ||| ((value <<< shift) &&& command.bits) else mode
  let newmode := clear command.cmd2.obits 0
    (clear command.cmd2.gbits 3 (clear command.cmd2.ubits 6 newmode))
  set command.cmd2.obits 0 (set command.cmd2.gbits 3 (set command.cmd2.ubits 6 newmode))

/-- The condition of the `X` command, on the old mode. -/
def searchable (omode : Mode) : Bool := (omode &&& (S_IFDIR ||| S_IXALL)) != 0

def step (omode newmode : Mode) (command : BitCmd) : Mode :=
  match command.cmd with
  | .user => copyBits command ((newmode &&& S_IRWXU) >>> 6) newmode
  | .group => copyBits command ((newmode &&& S_IRWXG) >>> 3) newmode
  | .other => copyBits command (newmode &&& S_IRWXO) newmode
  | .set => newmode ||| command.bits
  | .clear => newmode &&& ~~~command.bits
  | .condX => if searchable omode then newmode ||| command.bits else newmode

def getmode (commands : List BitCmd) (omode : Mode) : Mode := commands.foldl (step omode) omode

/-! ## Building a list -/

/-- The operator of a clause. -/
inductive ModeOp where
  | plus
  | minus
  | equal
  deriving DecidableEq, Repr

/-- `addcmd` for `+`, `-`, `=` and `X`; a strict assignment clears first. -/
def addBits (op : ModeOp) (who perm mask : Mode) : List BitCmd :=
  let bits := (if who ≠ 0 then who else mask) &&& perm
  match op with
  | .equal =>
      [{ cmd := .clear, cmd2 := .none, bits := if who ≠ 0 then who else STANDARD_BITS },
        { cmd := .set, cmd2 := .none, bits := bits }]
  | .plus => [{ cmd := .set, cmd2 := .none, bits := bits }]
  | .minus => [{ cmd := .clear, cmd2 := .none, bits := bits }]

def addX (who permXbits mask : Mode) : List BitCmd :=
  [{ cmd := .condX, cmd2 := .none, bits := (if who ≠ 0 then who else mask) &&& permXbits }]

/-- `addcmd` for `u`, `g` and `o`. -/
def addCopy (cmd : Cmd) (who : Mode) (op : ModeOp) (mask : Mode) : List BitCmd :=
  let cmd2 : Cmd2 :=
    { clr := decide (op ≠ .plus)
      set := decide (op ≠ .minus)
      gbits := who = 0 || (who &&& S_IRGRP) != 0
      obits := who = 0 || (who &&& S_IROTH) != 0
      ubits := who = 0 || (who &&& S_IRUSR) != 0 }
  [{ cmd := cmd, cmd2 := cmd2, bits := if who ≠ 0 then BitVec.allOnes 32 else mask }]

/-- The letters before the operator. -/
def parseWho : Mode → List Byte → Mode × List Byte
  | who, [] => (who, [])
  | who, c :: p =>
      if c = byte 'a' then parseWho (who ||| STANDARD_BITS) p
      else if c = byte 'u' then parseWho (who ||| (S_ISUID ||| S_IRWXU)) p
      else if c = byte 'g' then parseWho (who ||| (S_ISGID ||| S_IRWXG)) p
      else if c = byte 'o' then parseWho (who ||| S_IRWXO) p
      else (who, c :: p)

/-- The state of the loop over the permissions of one operator. -/
structure Perms where
  who : Mode
  perm : Mode
  permXbits : Mode
  equalopdone : Bool
  commands : List BitCmd

/-- Are set-id and sticky bits meant? -/
def specialAllowed (who : Mode) : Bool := who = 0 || (who &&& ~~~S_IRWXO) != 0

/-- A copy letter: flush what has been collected, then copy. -/
def Perms.copy (state : Perms) (op : ModeOp) (mask : Mode) (cmd : Cmd) : Perms :=
  let flushed := if state.perm ≠ 0 then addBits op state.who state.perm mask else []
  let conditional := op = .plus ∧ state.permXbits ≠ 0
  { state with
    perm := 0
    permXbits := if conditional then 0 else state.permXbits
    equalopdone := if op = .equal then true else state.equalopdone
    commands := state.commands ++ flushed ++
      (if conditional then addX state.who state.permXbits mask else []) ++
      addCopy cmd state.who op mask }

/-- The end of the permissions: add what has not been added. -/
def Perms.close (state : Perms) (op : ModeOp) (mask : Mode) : Perms :=
  let adds := state.perm ≠ 0 ∨ (op = .equal ∧ state.equalopdone = false)
  { state with
    perm := 0
    permXbits := 0
    equalopdone := if adds ∧ op = .equal then true else state.equalopdone
    commands := state.commands ++
      (if adds then addBits op state.who state.perm mask else []) ++
      (if state.permXbits ≠ 0 then addX state.who state.permXbits mask else []) }

/-- The permissions behind an operator. -/
def parsePerms (op : ModeOp) (mask : Mode) : Perms → List Byte → Perms × List Byte
  | state, [] => (state.close op mask, [])
  | state, c :: p =>
      if c = byte 'r' then parsePerms op mask { state with perm := state.perm ||| S_IRALL } p
      else if c = byte 's' then
        parsePerms op mask
          { state with
            perm := if specialAllowed state.who then state.perm ||| (S_ISUID ||| S_ISGID)
              else state.perm } p
      else if c = byte 't' then
        parsePerms op mask
          (if specialAllowed state.who then
            { state with who := state.who ||| S_ISTXT, perm := state.perm ||| S_ISTXT }
          else state) p
      else if c = byte 'w' then parsePerms op mask { state with perm := state.perm ||| S_IWALL } p
      else if c = byte 'X' then parsePerms op mask { state with permXbits := S_IXALL } p
      else if c = byte 'x' then parsePerms op mask { state with perm := state.perm ||| S_IXALL } p
      else if c = byte 'u' then parsePerms op mask (state.copy op mask .user) p
      else if c = byte 'g' then parsePerms op mask (state.copy op mask .group) p
      else if c = byte 'o' then parsePerms op mask (state.copy op mask .other) p
      else (state.close op mask, c :: p)

def parseOp (c : Byte) : Option ModeOp :=
  if c = byte '+' then some .plus
  else if c = byte '-' then some .minus
  else if c = byte '=' then some .equal
  else none

/-- The operators of a clause and the clauses behind it, from `getop` on. -/
def parseClauses (mask : Mode) :
    Nat → Mode → Bool → List BitCmd → List Byte → Option (List BitCmd)
  | 0, _, _, _, _ => none
  | _ + 1, _, _, _, [] => none
  | fuel + 1, who, equalopdone, commands, c :: p =>
      match parseOp c with
      | none => none
      | some op =>
          let start : Perms :=
            { who := who &&& ~~~S_ISTXT
              perm := 0
              permXbits := 0
              equalopdone := if op = .equal then false else equalopdone
              commands := commands }
          let (done, rest) := parsePerms op mask start p
          match rest with
          | [] => some done.commands
          | d :: rest =>
              if d = byte ',' then
                let (who, rest) := parseWho 0 rest
                parseClauses mask fuel who done.equalopdone done.commands rest
              else parseClauses mask fuel done.who done.equalopdone done.commands (d :: rest)

/-- The list of a symbolic mode before it is compressed; `mask` is the inverted umask. -/
def symbolicCommands (mask : Mode) (p : List Byte) : Option (List BitCmd) :=
  let (who, rest) := parseWho 0 p
  parseClauses mask (p.length + 1) who false [] rest

/-! ## Compressing a list -/

/-- What a run of mask commands adds up to. -/
structure Masks where
  setbits : Mode
  clrbits : Mode
  Xbits : Mode

def Masks.zero : Masks := { setbits := 0, clrbits := 0, Xbits := 0 }

/-- Take in one mask command; `none` for a copy command. -/
def Masks.take (masks : Masks) (command : BitCmd) : Option Masks :=
  match command.cmd with
  | .clear =>
      some { setbits := masks.setbits &&& ~~~command.bits
             clrbits := masks.clrbits ||| command.bits
             Xbits := masks.Xbits &&& ~~~command.bits }
  | .set =>
      some { setbits := masks.setbits ||| command.bits
             clrbits := masks.clrbits &&& ~~~command.bits
             Xbits := masks.Xbits &&& ~~~command.bits }
  | .condX => some { masks with Xbits := masks.Xbits ||| (command.bits &&& ~~~masks.setbits) }
  | _ => none

/-- The commands written for a run, none for an empty mask. -/
def Masks.commands (masks : Masks) : List BitCmd :=
  (if masks.clrbits ≠ 0 then [{ cmd := .clear, cmd2 := .none, bits := masks.clrbits }] else []) ++
  (if masks.setbits ≠ 0 then [{ cmd := .set, cmd2 := .none, bits := masks.setbits }] else []) ++
  (if masks.Xbits ≠ 0 then [{ cmd := .condX, cmd2 := .none, bits := masks.Xbits }] else [])

/-- The loop of `compress_mode`, inside a run with the given masks. -/
def compressFrom : Masks → List BitCmd → List BitCmd
  | masks, [] => masks.commands
  | masks, command :: rest =>
      match masks.take command with
      | some masks => compressFrom masks rest
      | none => masks.commands ++ command :: compressFrom .zero rest

def compressMode (commands : List BitCmd) : List BitCmd := compressFrom .zero commands

/-- `setmode` on a symbolic mode. -/
def setmode (mask : Mode) (p : List Byte) : Option (List BitCmd) :=
  (symbolicCommands mask p).map compressMode

/-! ## Compressing keeps the meaning -/

/-- What a run does to a mode: clear, set, and set under the condition of `X`. -/
def Masks.apply (masks : Masks) (omode newmode : Mode) : Mode :=
  let mode := (newmode &&& ~~~masks.clrbits) ||| masks.setbits
  if searchable omode then mode ||| masks.Xbits else mode

theorem and_not_zero (mode : Mode) : mode &&& ~~~(0 : Mode) = mode := by
  ext i inside
  simp only [BitVec.ofNat_eq_ofNat, BitVec.getElem_and, BitVec.getElem_not, BitVec.getElem_zero,
    Bool.not_false, Bool.and_true]

theorem Masks.zero_apply (omode newmode : Mode) : Masks.zero.apply omode newmode = newmode := by
  unfold Masks.apply Masks.zero
  dsimp only
  rw [and_not_zero]
  simp

theorem Masks.commands_apply (masks : Masks) (omode newmode : Mode) :
    masks.commands.foldl (step omode) newmode = masks.apply omode newmode := by
  unfold Masks.commands Masks.apply
  rw [List.foldl_append, List.foldl_append]
  have cleared : (if masks.clrbits ≠ 0 then
      [({ cmd := .clear, cmd2 := .none, bits := masks.clrbits } : BitCmd)] else []).foldl
        (step omode) newmode = newmode &&& ~~~masks.clrbits := by
    split
    · rfl
    · next zero =>
        rw [not_not.mp zero, and_not_zero]
        rfl
  have set (mode : Mode) : (if masks.setbits ≠ 0 then
      [({ cmd := .set, cmd2 := .none, bits := masks.setbits } : BitCmd)] else []).foldl
        (step omode) mode = mode ||| masks.setbits := by
    split
    · rfl
    · next zero => simp [not_not.mp zero]
  have conditional (mode : Mode) : (if masks.Xbits ≠ 0 then
      [({ cmd := .condX, cmd2 := .none, bits := masks.Xbits } : BitCmd)] else []).foldl
        (step omode) mode = if searchable omode then mode ||| masks.Xbits else mode := by
    split
    · rfl
    · next zero => simp [not_not.mp zero]
  rw [cleared, set, conditional]

/-- Taking in a command and running it come to the same. -/
theorem Masks.take_apply {masks after : Masks} {command : BitCmd}
    (taken : masks.take command = some after) (omode newmode : Mode) :
    after.apply omode newmode = step omode (masks.apply omode newmode) command := by
  unfold Masks.take at taken
  unfold step
  split at taken
  · next clear =>
      cases taken
      rw [clear]
      unfold Masks.apply
      dsimp only
      -- bit by bit: a cleared bit is gone from every mask
      split
      · ext i inside
        simp only [BitVec.getElem_or, BitVec.getElem_and, BitVec.getElem_not]
        cases command.bits[i] <;> simp
      · ext i inside
        simp only [BitVec.getElem_or, BitVec.getElem_and, BitVec.getElem_not]
        cases command.bits[i] <;> simp
  · next set =>
      cases taken
      rw [set]
      unfold Masks.apply
      dsimp only
      split
      · ext i inside
        simp only [BitVec.getElem_or, BitVec.getElem_and, BitVec.getElem_not]
        cases command.bits[i] <;> simp
      · ext i inside
        simp only [BitVec.getElem_or, BitVec.getElem_and, BitVec.getElem_not]
        cases command.bits[i] <;> simp
  · next conditional =>
      cases taken
      rw [conditional]
      unfold Masks.apply
      dsimp only
      split
      · ext i inside
        simp only [BitVec.getElem_or, BitVec.getElem_and, BitVec.getElem_not]
        cases masks.setbits[i] <;> simp [Bool.or_assoc]
      · rfl
  · cases taken

/-- The loop keeps the meaning of what it has read and of what is still to come. -/
theorem compressFrom_run (masks : Masks) (commands : List BitCmd) (omode newmode : Mode) :
    (compressFrom masks commands).foldl (step omode) newmode =
      commands.foldl (step omode) (masks.apply omode newmode) := by
  induction commands generalizing masks newmode with
  | nil => exact masks.commands_apply omode newmode
  | cons command rest ih =>
      rw [compressFrom, List.foldl_cons]
      split
      · next after taken => rw [ih, Masks.take_apply taken]
      · next copied =>
          rw [List.foldl_append, masks.commands_apply, List.foldl_cons, ih, Masks.zero_apply]

theorem getmode_compressMode (commands : List BitCmd) (omode : Mode) :
    getmode (compressMode commands) omode = getmode commands omode := by
  rw [getmode, compressMode, compressFrom_run, Masks.zero_apply, getmode]

/--
`compress_mode` preserves the meaning of every list of commands, and with it that
of every symbolic mode.
-/
theorem compressMode_getmode :
    (∀ commands omode, getmode (compressMode commands) omode = getmode commands omode) ∧
      ∀ mask p omode, (setmode mask p).map (getmode · omode) =
        (symbolicCommands mask p).map (getmode · omode) := by
  refine ⟨getmode_compressMode, fun mask p omode => ?_⟩
  rw [setmode, Option.map_map]
  congr 1
  funext commands
  exact getmode_compressMode commands omode

/-! ## Compressing in place -/

end Netbase.Setmode
