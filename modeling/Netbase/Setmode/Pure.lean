import Netbase.Setmode.Mode

/-!
# Pure additions and pure removals

A mode string with one kind of operator should only add bits or only take bits
away.  Every command says what it can do to a single bit; the exception is `X`,
which adds execute bits behind any operator.
-/

namespace Netbase.Setmode

open Netbase.Text

/-- The bits of one mode are bits of another. -/
def Within (inner outer : Mode) : Prop := ∀ i, inner.getLsbD i = true → outer.getLsbD i = true

/-- Every operator in the string is this one. -/
def OnlyOp (op : ModeOp) (p : List Byte) : Prop := ∀ c ∈ p, ∀ found, parseOp c = some found → found = op

variable {op : ModeOp} {mask newmode omode : Mode} {list : List BitCmd} {i : Nat} {command : BitCmd}

theorem OnlyOp.suffix {p rest : List Byte} (only : OnlyOp op p) (left : rest <:+ p) :
    OnlyOp op rest :=
  fun c inside => only c (left.subset inside)

/-! ## The commands of one operator -/

/-- The commands that copy bits. -/
def Cmd.copies : Cmd → Bool
  | .user | .group | .other => true
  | _ => false

/-- A command that a clause with this operator can add. -/
inductive Adds (mask : Mode) (op : ModeOp) : BitCmd → Prop where
  | bits {who perm : Mode} {command : BitCmd} (added : command ∈ addBits op who perm mask) :
      Adds mask op command
  | cond {who perm : Mode} {command : BitCmd} (added : command ∈ addX who perm mask) :
      Adds mask op command
  | copy {cmd : Cmd} {who : Mode} {command : BitCmd} (copies : cmd.copies = true)
      (added : command ∈ addCopy cmd who op mask) : Adds mask op command

theorem Perms.copy_adds {state : Perms} {cmd : Cmd} (copies : cmd.copies = true)
    (known : ∀ command ∈ state.commands, Adds mask op command) :
    ∀ command ∈ (state.copy op mask cmd).commands, Adds mask op command := by
  intro command inside
  simp only [Perms.copy, List.mem_append] at inside
  rcases inside with ((old | flushed) | conditional) | copied
  · exact known command old
  · split at flushed
    · exact .bits flushed
    · cases flushed
  · split at conditional
    · exact .cond conditional
    · cases conditional
  · exact .copy copies copied

theorem Perms.close_adds {state : Perms} (known : ∀ command ∈ state.commands, Adds mask op command) :
    ∀ command ∈ (state.close op mask).commands, Adds mask op command := by
  intro command inside
  simp only [Perms.close, List.mem_append] at inside
  rcases inside with (old | flushed) | conditional
  · exact known command old
  · split at flushed
    · exact .bits flushed
    · cases flushed
  · split at conditional
    · exact .cond conditional
    · cases conditional

/-- What has been read adds commands of one operator and leaves an end of the string. -/
def Leaves (mask : Mode) (op : ModeOp) (p : List Byte) (read : Perms × List Byte) : Prop :=
  (∀ command ∈ read.1.commands, Adds mask op command) ∧ read.2 <:+ p

theorem Leaves.ite {p : List Byte} {letter : Prop} [Decidable letter] {yes no : Perms × List Byte}
    (first : Leaves mask op p yes) (second : Leaves mask op p no) :
    Leaves mask op p (if letter then yes else no) := by
  split
  · exact first
  · exact second

theorem parsePerms_adds (op : ModeOp) (mask : Mode) (p : List Byte) (state : Perms)
    (known : ∀ command ∈ state.commands, Adds mask op command) :
    (∀ command ∈ (parsePerms op mask state p).1.commands, Adds mask op command) ∧
      (parsePerms op mask state p).2 <:+ p := by
  induction p generalizing state with
  | nil => exact ⟨Perms.close_adds known, List.suffix_refl _⟩
  | cons c p ih =>
      have next (state : Perms) (known : ∀ command ∈ state.commands, Adds mask op command) :
          Leaves mask op (c :: p) (parsePerms op mask state p) :=
        ⟨(ih state known).1, (ih state known).2.trans (List.suffix_cons c p)⟩
      have sticky : ∀ command ∈ (if specialAllowed state.who then
          { state with who := state.who ||| S_ISTXT, perm := state.perm ||| S_ISTXT }
          else state).commands, Adds mask op command := by
        split
        · exact known
        · exact known
      show Leaves mask op (c :: p) (parsePerms op mask state (c :: p))
      rw [parsePerms]
      refine .ite (next _ known) (.ite (next _ known) (.ite (next _ sticky) (.ite (next _ known)
        (.ite (next _ known) (.ite (next _ known) ?_)))))
      -- the letters behind the bits copy the bits of a class
      exact .ite (next _ (Perms.copy_adds rfl known)) (.ite (next _ (Perms.copy_adds rfl known))
        (.ite (next _ (Perms.copy_adds rfl known)) ⟨Perms.close_adds known, List.suffix_refl _⟩))

theorem parseWho_suffix (p : List Byte) (who : Mode) : (parseWho who p).2 <:+ p := by
  induction p generalizing who with
  | nil => exact List.suffix_refl _
  | cons c p ih =>
      have next (who : Mode) : (parseWho who p).2 <:+ c :: p :=
        (ih who).trans (List.suffix_cons c p)
      rw [parseWho]
      split
      · exact next _
      · split
        · exact next _
        · split
          · exact next _
          · split
            · exact next _
            · exact List.suffix_refl _

theorem parseClauses_adds {fuel : Nat} {who : Mode} {equalopdone : Bool} {commands : List BitCmd}
    {p : List Byte} (only : OnlyOp op p) (known : ∀ command ∈ commands, Adds mask op command)
    (parsed : parseClauses mask fuel who equalopdone commands p = some list) :
    ∀ command ∈ list, Adds mask op command := by
  induction fuel generalizing who equalopdone commands p with
  | zero => cases parsed
  | succ fuel ih =>
      cases p with
      | nil => cases parsed
      | cons c p =>
          rw [parseClauses] at parsed
          split at parsed
          · cases parsed
          · next found operator =>
              have same : found = op := only c (List.mem_cons_self) found operator
              subst same
              dsimp only at parsed
              obtain ⟨added, left⟩ := parsePerms_adds found mask p
                { who := who &&& ~~~S_ISTXT, perm := 0, permXbits := 0
                  equalopdone := if found = .equal then false else equalopdone
                  commands := commands } known
              split at parsed
              · cases parsed
                exact added
              · next d rest ended =>
                  rw [ended] at left
                  have onlyRest : OnlyOp found (d :: rest) :=
                    only.suffix (left.trans (List.suffix_cons c p))
                  split at parsed
                  · exact ih (onlyRest.suffix ((parseWho_suffix rest 0).trans
                      (List.suffix_cons d rest))) added parsed
                  · exact ih onlyRest added parsed

theorem symbolicCommands_adds {p : List Byte} (only : OnlyOp op p)
    (parsed : symbolicCommands mask p = some list) :
    ∀ command ∈ list, Adds mask op command :=
  parseClauses_adds (only.suffix (parseWho_suffix p 0)) (by simp) parsed

/-! ## What one command does to one bit -/

theorem masked_clear {p : Prop} [Decidable p] {mode : Mode} (clear : mode.getLsbD i = false) :
    (if p then mode &&& mask else mode).getLsbD i = false := by
  split
  · rw [BitVec.getLsbD_and, clear, Bool.false_and]
  · exact clear

theorem joined_set {p : Prop} [Decidable p] {mode bits : Mode} (set : mode.getLsbD i = true) :
    (if p then mode ||| bits else mode).getLsbD i = true := by
  split
  · rw [BitVec.getLsbD_or, set, Bool.true_or]
  · exact set

/-- A copy without `CMD2_SET` sets no bit. -/
theorem copyBits_clears (removes : command.cmd2.set = false) {value : Mode}
    (clear : newmode.getLsbD i = false) :
    (copyBits command value newmode).getLsbD i = false := by
  unfold copyBits
  dsimp only
  rw [removes]
  simp only [Bool.false_and, Bool.false_eq_true, ↓reduceIte]
  exact masked_clear (masked_clear (masked_clear clear))

/-- A copy without `CMD2_CLR` clears no bit. -/
theorem copyBits_sets (grows : command.cmd2.clr = false) {value : Mode}
    (set : newmode.getLsbD i = true) :
    (copyBits command value newmode).getLsbD i = true := by
  unfold copyBits
  dsimp only
  rw [grows]
  simp only [Bool.false_and, Bool.false_eq_true, ↓reduceIte]
  exact joined_set (joined_set (joined_set set))

/-- A command that adds bits under the condition of `X`. -/
def Gives (omode : Mode) (command : BitCmd) (i : Nat) : Prop :=
  command.cmd = .condX ∧ searchable omode = true ∧ command.bits.getLsbD i = true

theorem step_copies (copies : command.cmd.copies = true) (omode newmode : Mode) :
    ∃ value, step omode newmode command = copyBits command value newmode := by
  unfold step
  split
  · exact ⟨_, rfl⟩
  · exact ⟨_, rfl⟩
  · exact ⟨_, rfl⟩
  · next other => simp [Cmd.copies, other] at copies
  · next other => simp [Cmd.copies, other] at copies
  · next other => simp [Cmd.copies, other] at copies

/-- Behind `-` only `X` sets a bit. -/
theorem step_minus (added : Adds mask .minus command) (clear : newmode.getLsbD i = false)
    (set : (step omode newmode command).getLsbD i = true) : Gives omode command i := by
  cases added with
  | bits added =>
      rw [List.mem_singleton.mp added] at set
      simp [step, clear] at set
  | cond added =>
      rw [List.mem_singleton.mp added] at set ⊢
      simp only [step] at set
      split at set
      · next allowed =>
          rw [BitVec.getLsbD_or, clear, Bool.false_or] at set
          exact ⟨rfl, allowed, set⟩
      · rw [clear] at set
        cases set
  | copy copies added =>
      have shape := List.mem_singleton.mp added
      have letter : command.cmd.copies = true := by rw [shape]; exact copies
      obtain ⟨value, copied⟩ := step_copies letter omode newmode
      rw [copied, copyBits_clears (by rw [shape]; rfl) clear] at set
      cases set

/-- Behind `+` nothing clears a bit. -/
theorem step_plus (added : Adds mask .plus command) (set : newmode.getLsbD i = true) :
    (step omode newmode command).getLsbD i = true := by
  cases added with
  | bits added =>
      rw [List.mem_singleton.mp added]
      simp [step, set]
  | cond added =>
      rw [List.mem_singleton.mp added]
      simp only [step]
      split
      · rw [BitVec.getLsbD_or, set, Bool.true_or]
      · exact set
  | copy copies added =>
      have shape := List.mem_singleton.mp added
      have letter : command.cmd.copies = true := by rw [shape]; exact copies
      obtain ⟨value, copied⟩ := step_copies letter omode newmode
      rw [copied, copyBits_sets (by rw [shape]; rfl) set]

/-- Running more commands on the mode that the first ones have made. -/
def runFrom (omode newmode : Mode) (commands : List BitCmd) : Mode :=
  commands.foldl (step omode) newmode

theorem runFrom_append (omode newmode : Mode) (front back : List BitCmd) :
    runFrom omode newmode (front ++ back) = runFrom omode (runFrom omode newmode front) back :=
  List.foldl_append

/-- Commands behind `+` keep every bit. -/
theorem runFrom_plus (added : ∀ command ∈ list, Adds mask .plus command)
    (set : newmode.getLsbD i = true) : (runFrom omode newmode list).getLsbD i = true := by
  induction list generalizing newmode with
  | nil => exact set
  | cons command list ih =>
      have next : (step omode newmode command).getLsbD i = true :=
        step_plus (added command List.mem_cons_self) set
      exact ih (fun other inside => added other (List.mem_cons_of_mem _ inside)) next

theorem runFrom_taken (set : newmode.getLsbD i = true)
    (clear : (runFrom omode newmode list).getLsbD i = false) :
    ∃ front command back, list = front ++ command :: back ∧
      (runFrom omode newmode front).getLsbD i = true ∧
      (step omode (runFrom omode newmode front) command).getLsbD i = false := by
  induction list generalizing newmode with
  | nil =>
      rw [runFrom, List.foldl_nil, set] at clear
      cases clear
  | cons command list ih =>
      cases next : (step omode newmode command).getLsbD i with
      | false => exact ⟨[], command, list, rfl, set, next⟩
      | true =>
          obtain ⟨front, taker, back, split, before, taken⟩ := ih next clear
          exact ⟨command :: front, taker, back, by rw [split, List.cons_append], before, taken⟩

/-- A bit that appears behind `-` comes from the last `X` that gives it, and stays. -/
theorem runFrom_given (added : ∀ command ∈ list, Adds mask .minus command)
    (clear : newmode.getLsbD i = false) (set : (runFrom omode newmode list).getLsbD i = true) :
    ∃ front command back, list = front ++ command :: back ∧ Gives omode command i ∧
      ∀ some_ more, back = some_ ++ more →
        (runFrom omode newmode (front ++ command :: some_)).getLsbD i = true := by
  induction list using List.reverseRecOn with
  | nil =>
      rw [runFrom, List.foldl_nil, clear] at set
      cases set
  | append_singleton list last ih =>
      have lastStep : runFrom omode newmode (list ++ [last]) =
          step omode (runFrom omode newmode list) last := runFrom_append omode newmode list [last]
      cases before : (runFrom omode newmode list).getLsbD i with
      | false =>
          have gives := step_minus (added last (by simp)) before (lastStep ▸ set)
          refine ⟨list, last, [], rfl, gives, fun some_ more split => ?_⟩
          rw [(List.append_eq_nil_iff.mp split.symm).1]
          exact set
      | true =>
          obtain ⟨front, command, back, split, gives, stays⟩ :=
            ih (fun other inside => added other (List.mem_append_left _ inside)) before
          refine ⟨front, command, back ++ [last], by rw [split]; simp, gives, ?_⟩
          intro some_ more cut
          rcases List.eq_nil_or_concat' more with rfl | ⟨init, final_, rfl⟩
          · rw [List.append_nil] at cut
            rw [← cut, ← List.cons_append, ← List.append_assoc, ← split]
            exact set
          · rw [← List.append_assoc] at cut
            exact stays some_ init (List.append_inj_left' cut rfl)

/-! ## Pure mode strings -/

/--
Every execute bit which an `X` gives and the old mode lacks is taken away again by
a later command.
-/
def Retracted (omode : Mode) (list : List BitCmd) : Prop :=
  ∀ front command back, list = front ++ command :: back →
    ∀ i, Gives omode command i → omode.getLsbD i = false →
      ∃ some_ taker more, back = some_ ++ taker :: more ∧
        (runFrom omode omode (front ++ command :: some_)).getLsbD i = true ∧
        (step omode (runFrom omode omode (front ++ command :: some_)) taker).getLsbD i = false

/-- An `X` command leaves its bits set. -/
theorem Gives.sets (gives : Gives omode command i) :
    (step omode newmode command).getLsbD i = true := by
  obtain ⟨conditional, allowed, inside⟩ := gives
  rw [step, conditional]
  dsimp only
  rw [if_pos allowed, BitVec.getLsbD_or, inside, Bool.or_true]

/-- Commands behind `-` add no bit exactly when every `X` is taken back. -/
theorem within_iff_retracted (added : ∀ command ∈ list, Adds mask .minus command) :
    Within (getmode list omode) omode ↔ Retracted omode list := by
  constructor
  · intro within front command back split i gives lacking
    have after : (runFrom omode omode (front ++ [command])).getLsbD i = true := by
      rw [runFrom_append]
      exact gives.sets
    have final_ : (runFrom omode (runFrom omode omode (front ++ [command])) back).getLsbD i =
        false := by
      rw [← runFrom_append, List.append_assoc, List.singleton_append, ← split]
      cases reached : (getmode list omode).getLsbD i with
      | false => exact reached
      | true => rw [within i reached] at lacking; cases lacking
    obtain ⟨some_, taker, more, cut, before, taken⟩ := runFrom_taken after final_
    rw [← runFrom_append, List.append_assoc, List.singleton_append] at before taken
    exact ⟨some_, taker, more, cut, before, taken⟩
  · intro retracted i reached
    cases held : omode.getLsbD i with
    | true => rfl
    | false =>
        obtain ⟨front, command, back, split, gives, stays⟩ := runFrom_given added held reached
        obtain ⟨some_, taker, more, cut, -, taken⟩ := retracted front command back split i gives held
        have kept := stays (some_ ++ [taker]) more (by rw [cut]; simp)
        rw [← List.cons_append, ← List.append_assoc, runFrom_append] at kept
        exact absurd (taken.symm.trans kept) (by decide)

/--
A mode string that only removes gives a subset of the old mode, and one that only
adds a superset, exactly when behind `-` every bit that an `X` gives is taken away
again.
-/
theorem pure_modes_iff {mask : Mode} {p : List Byte} {list compressed : List BitCmd}
    (parsed : symbolicCommands mask p = some list) (accepted : setmode mask p = some compressed)
    (omode : Mode) :
    (OnlyOp .minus p → Within (getmode compressed omode) omode) ∧
        (OnlyOp .plus p → Within omode (getmode compressed omode)) ↔
      (OnlyOp .minus p → Retracted omode list) := by
  have same : getmode compressed omode = getmode list omode := by
    rw [setmode, parsed, Option.map_some, Option.some.injEq] at accepted
    rw [← accepted, getmode_compressMode]
  rw [same]
  constructor
  · rintro ⟨removal, -⟩ only
    exact (within_iff_retracted (symbolicCommands_adds only parsed)).mp (removal only)
  · intro retracted
    refine ⟨fun only => ?_, fun only i set => ?_⟩
    · exact (within_iff_retracted (symbolicCommands_adds only parsed)).mpr (retracted only)
    · exact runFrom_plus (symbolicCommands_adds only parsed) set

/-- `go-w`, compressed -/
def goMinusW : List BitCmd := [{ cmd := .clear, cmd2 := .none, bits := 0o022 }]

/-- `go-w` only removes. -/
theorem pure_modes_removal :
    (OnlyOp .minus (ascii ['g', 'o', '-', 'w']) → Within (getmode goMinusW 0o666) 0o666) ∧
      (OnlyOp .plus (ascii ['g', 'o', '-', 'w']) → Within 0o666 (getmode goMinusW 0o666)) := by
  have parsed : symbolicCommands 0o755 (ascii ['g', 'o', '-', 'w']) = some goMinusW := rfl
  refine (pure_modes_iff parsed rfl 0o666).mpr fun _ front command back split i gives => ?_
  cases front with
  | nil =>
      cases split
      exact absurd gives.1 (by decide)
  | cons first front => exact absurd split (by simp [goMinusW])

/-- `a-X` gives an executable file the execute permissions that it lacks. -/
theorem minusX_adds :
    ∃ compressed, setmode 0o755 (ascii ['a', '-', 'X']) = some compressed ∧
      OnlyOp .minus (ascii ['a', '-', 'X']) ∧
      ¬ Within (getmode compressed 0o100) 0o100 := by
  refine ⟨_, rfl, by unfold OnlyOp; decide +kernel, fun within => ?_⟩
  exact absurd (within 0 (by decide)) (by decide)

end Netbase.Setmode
