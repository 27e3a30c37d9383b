import Netbase.Sed.FirstLine
import Netbase.Sed.Range

/-!
# Changing a range

The command `c` deletes the lines it selects and writes its text behind the last line of a range:
where `applies` has said that this is the last line, or at the end of the input.  A range that is
left because its last line lies behind is closed on a line that is not selected, so that nothing
has said so on the line before.
-/

namespace Netbase.Sed

open Netbase.Text

variable {R : Type}

/-- What a cycle writes: the text of the command, or the pattern space. -/
inductive Written where
  | text (t : List Byte)
  | space (line : List Byte)
  deriving Repr, DecidableEq

/-- `new:`, the end of a cycle. -/
def endCycle (nflag pd : Bool) (ps : Space) : List Written :=
  if !nflag && !pd then [.space (out ps.text ps.appendNewline)] else []

/-- `psl = 0` -/
def Space.clear (ps : Space) : Space :=
  { space := ps.space, len := 0, appendNewline := ps.appendNewline, inside := Nat.zero_le _,
    small := ps.small }

/-- The command `c` with what is behind `new`. -/
def commandC (nflag : Bool) (a2 : Option (Addr R)) (t : List Byte) (lastaddr : Bool) (c : Cycle R)
    (ps : Space) : List Written :=
  let pd := true
  (if a2.isNone || lastaddr || c.lastline then [.text t] else []) ++ endCycle nflag pd ps.clear

/-- A cycle that has come to the command. -/
structure Reached (R : Type) where
  cycle : Cycle R
  ps : Space

/-- What the command makes of a cycle: whether no range was open, and what is written if the line
is selected. -/
structure Changed where
  opens : Bool
  written : Option (List Written)
  deriving Repr, DecidableEq

/-- The last line of a range lies behind, for an address that counts lines. -/
def Addr.Behind (a2 : Addr R) (startline : Nat) (c : Cycle R) : Prop :=
  match a2 with
  | .AT_RELLINE l => startline + l < c.linenum
  | .AT_LINE l => l < c.linenum
  | _ => False

/-- The command with its two addresses. -/
structure Change (R : Type) where
  a1 : Addr R
  a2 : Addr R
  t : List Byte
  nflag : Bool

namespace Change

variable (cmd : Change R)

def applies (startline : Nat) (c : Cycle R) : Applied :=
  Sed.applies (some cmd.a1) (some cmd.a2) false startline c

def changed (startline : Nat) (reached : Reached R) : Changed where
  opens := startline == 0
  written :=
    let found := cmd.applies startline reached.cycle
    if found.r then
      some (commandC cmd.nflag (some cmd.a2) cmd.t found.lastaddr reached.cycle reached.ps)
    else none

def run : Nat → List (Reached R) → List Changed
  | _, [] => []
  | startline, reached :: rest =>
      cmd.changed startline reached ::
        run (cmd.applies startline reached.cycle).startline rest

/-- The start line behind a number of cycles. -/
def startlineBehind : Nat → List (Reached R) → Nat
  | startline, [] => startline
  | startline, reached :: rest =>
      startlineBehind (cmd.applies startline reached.cycle).startline rest

def Input : Nat → Nat → List (Reached R) → Prop
  | _, _, [] => True
  | startline, linenum, reached :: rest =>
      linenum < reached.cycle.linenum ∧ (rest ≠ [] → reached.cycle.lastline = false) ∧
        (rest = [] → (cmd.applies startline reached.cycle).r = true →
          reached.cycle.lastline = true) ∧
        Input (cmd.applies startline reached.cycle).startline reached.cycle.linenum rest

/-- A range is open whose last line lies behind. -/
def Passed (startline : Nat) (c : Cycle R) : Prop := 0 < startline ∧ cmd.a2.Behind startline c

/-- No cycle finds a range open whose last line lies behind. -/
def NonePassed (startline : Nat) (cycles : List (Reached R)) : Prop :=
  ∀ front reached back, cycles = front ++ reached :: back →
    ¬ cmd.Passed (cmd.startlineBehind startline front) reached.cycle

end Change

/-! ## Ranges -/

/-- The next line goes on with a range. -/
def continued : List Changed → Bool
  | [] => false
  | s :: _ => s.written.isSome && !s.opens

/-- A line in front of the first range. -/
def attach (w : List Written) : List (List (List Written)) → List (List (List Written))
  | [] => [[w]]
  | r :: rs => (w :: r) :: rs

def ranges : List Changed → List (List (List Written))
  | [] => []
  | s :: rest =>
      match s.written with
      | none => ranges rest
      | some w => if continued rest then attach w (ranges rest) else [w] :: ranges rest

/-- The text is written once, behind the last line of the range, and no line is written. -/
def Once (t : List Byte) (r : List (List Written)) : Prop :=
  ∃ n, r = List.replicate n [] ++ [[.text t]]

theorem once_single {t : List Byte} {w : List Written} : Once t [w] ↔ w = [.text t] := by
  constructor
  · rintro ⟨n, same⟩
    cases n with
    | zero => simpa using same
    | succ n => cases n <;> simp [List.replicate_succ] at same
  · rintro rfl
    exact ⟨0, rfl⟩

theorem once_cons {t : List Byte} {w : List Written} {r : List (List Written)} (more : r ≠ []) :
    Once t (w :: r) ↔ w = [] ∧ Once t r := by
  constructor
  · rintro ⟨n, same⟩
    cases n with
    | zero => exact absurd (List.cons.inj same).2 more
    | succ n =>
        rw [List.replicate_succ, List.cons_append, List.cons.injEq] at same
        exact ⟨same.1, n, same.2⟩
  · rintro ⟨rfl, n, rfl⟩
    exact ⟨n + 1, by rw [List.replicate_succ, List.cons_append]⟩

theorem ranges_nonempty (steps : List Changed) : ∀ r ∈ ranges steps, r ≠ [] := by
  induction steps with
  | nil => exact fun r member => absurd member List.not_mem_nil
  | cons s rest ih =>
      rw [ranges]
      split
      · exact ih
      · split
        · cases found : ranges rest with
          | nil =>
              intro r member
              rw [attach, List.mem_singleton] at member
              rw [member]
              exact List.cons_ne_nil _ _
          | cons r' rs =>
              intro r member
              rw [attach] at member
              rcases List.mem_cons.mp member with rfl | later
              · exact List.cons_ne_nil _ _
              · exact ih r (found ▸ List.mem_cons_of_mem _ later)
        · intro r member
          rcases List.mem_cons.mp member with rfl | later
          · exact List.cons_ne_nil _ _
          · exact ih r later

theorem ranges_continued {steps : List Changed} (more : continued steps = true) :
    ∃ r rs, ranges steps = r :: rs := by
  cases steps with
  | nil => cases more
  | cons s rest =>
      rw [ranges]
      simp only [continued, Bool.and_eq_true, Option.isSome_iff_exists] at more
      obtain ⟨w, written⟩ := more.1
      rw [written]
      simp only
      split
      · cases ranges rest with
        | nil => exact ⟨_, _, rfl⟩
        | cons r rs => exact ⟨_, _, rfl⟩
      · exact ⟨_, _, rfl⟩

def Answered (t : List Byte) (steps : List Changed) : Prop := ∀ r ∈ ranges steps, Once t r

theorem answered_cons (t : List Byte) (s : Changed) (rest : List Changed) :
    Answered t (s :: rest) ↔
      (∀ w, s.written = some w → w = if continued rest then [] else [.text t]) ∧
        Answered t rest := by
  unfold Answered
  rw [ranges]
  cases written : s.written with
  | none => simp
  | some w =>
      simp only [Option.some.injEq, forall_eq']
      cases more : continued rest with
      | false =>
          simp only [Bool.false_eq_true, if_false, List.forall_mem_cons, once_single]
      | true =>
          obtain ⟨r, rs, found⟩ := ranges_continued more
          have some_ := ranges_nonempty rest r (found ▸ List.mem_cons_self)
          simp only [if_true, found, attach, List.forall_mem_cons, once_cons some_, and_assoc]

/-! ## The command -/

section

variable (cmd : Change R)

theorem Change.applies_range (startline : Nat) (c : Cycle R) :
    cmd.applies startline c =
      if startline > 0 then closesRange cmd.a2 startline c else opensRange cmd.a1 cmd.a2 c :=
  Sed.applies_range cmd.a1 cmd.a2 startline c

variable {startline : Nat}

/-- An open range that has not been passed goes on, or ends on this line. -/
theorem closesRange_cases {a2 : Addr R} {c : Cycle R} (before : ¬ a2.Behind startline c) :
    closesRange a2 startline c = ⟨true, true, 0⟩ ∨
      closesRange a2 startline c = ⟨true, false, startline⟩ := by
  cases a2 with
  | AT_RELLINE l =>
      have within : c.linenum - startline ≤ l := by
        simp only [Addr.Behind] at before
        omega
      exact Or.inr (if_pos within)
  | AT_LINE l =>
      have within : ¬ c.linenum > l := before
      simp only [closesRange, if_neg within]
      split
      · exact Or.inl rfl
      · exact Or.inr rfl
  | AT_RE r =>
      simp only [closesRange]
      split
      · exact Or.inl rfl
      · exact Or.inr rfl
  | AT_LAST =>
      simp only [closesRange]
      split
      · exact Or.inl rfl
      · exact Or.inr rfl

theorem closesRange_passed {a2 : Addr R} {c : Cycle R} (behind : a2.Behind startline c) :
    closesRange a2 startline c = ⟨false, false, 0⟩ := by
  cases a2 with
  | AT_RELLINE l =>
      have beyond : ¬ c.linenum - startline ≤ l := by
        simp only [Addr.Behind] at behind
        omega
      exact if_neg beyond
  | AT_LINE l =>
      have other : ¬ (Addr.AT_LINE l : Addr R).matches c = true := by
        simp only [Addr.matches, beq_iff_eq]
        simp only [Addr.Behind] at behind
        omega
      simp only [closesRange, if_neg other]
      exact if_pos behind
  | AT_RE r => exact absurd behind id
  | AT_LAST => exact absurd behind id

/-- What `applies` finds on a line with no range passed: a line that is not selected, the last
line of a range, or a line behind which the range is open. -/
theorem Change.applies_cases {c : Cycle R} (positive : 0 < c.linenum)
    (before : ¬ cmd.Passed startline c) :
    cmd.applies startline c = ⟨false, false, 0⟩ ∨ cmd.applies startline c = ⟨true, true, 0⟩ ∨
      ∃ start, 0 < start ∧ cmd.applies startline c = ⟨true, false, start⟩ := by
  rw [Change.applies_range]
  by_cases opened : startline > 0
  · rw [if_pos opened]
    rcases closesRange_cases fun behind => before ⟨opened, behind⟩ with ends | goes
    · exact Or.inr (Or.inl ends)
    · exact Or.inr (Or.inr ⟨startline, opened, goes⟩)
  · rw [if_neg opened, opensRange]
    split
    · split
      · exact Or.inr (Or.inl rfl)
      · exact Or.inr (Or.inr ⟨c.linenum, positive, rfl⟩)
    · exact Or.inl rfl

theorem Change.continued_iff (opened : 0 < startline) (reached : Reached R)
    (rest : List (Reached R)) :
    continued (cmd.run startline (reached :: rest)) = true ↔
      ¬ cmd.Passed startline reached.cycle := by
  have started : (startline == 0) = false := by
    rw [beq_eq_false_iff_ne]
    omega
  rw [Change.run, continued, Change.changed, started]
  simp only [Bool.not_false, Bool.and_true]
  rw [Change.applies_range, if_pos opened]
  constructor
  · rintro selected ⟨-, behind⟩
    rw [closesRange_passed behind] at selected
    cases selected
  · intro before
    rcases closesRange_cases fun behind => before ⟨opened, behind⟩ with ends | goes
    · rw [ends]
      rfl
    · rw [goes]
      rfl

theorem Change.continued_closed (cycles : List (Reached R)) :
    continued (cmd.run 0 cycles) = false := by
  cases cycles with
  | nil => rfl
  | cons reached rest => exact Bool.and_false _

theorem commandC_written (nflag : Bool) (a2 : Addr R) (t : List Byte) (lastaddr : Bool)
    (c : Cycle R) (ps : Space) :
    commandC nflag (some a2) t lastaddr c ps =
      if lastaddr || c.lastline then [.text t] else [] := by
  simp [commandC, endCycle]

theorem Change.nonePassed_cons (startline : Nat) (reached : Reached R) (rest : List (Reached R)) :
    cmd.NonePassed startline (reached :: rest) ↔
      ¬ cmd.Passed startline reached.cycle ∧
        cmd.NonePassed (cmd.applies startline reached.cycle).startline rest := by
  constructor
  · intro none_
    exact ⟨none_ [] reached rest rfl, fun front later back split =>
      none_ (reached :: front) later back (by rw [split]; rfl)⟩
  · rintro ⟨first, others⟩ front later back split
    cases front with
    | nil =>
        rw [List.nil_append, List.cons.injEq] at split
        rwa [← split.1]
    | cons r front =>
        rw [List.cons_append, List.cons.injEq] at split
        have behind := others front later back split.2
        rwa [split.1] at behind

/-- The first cycle has not passed the range that is open. -/
def Change.Fresh (startline : Nat) (cycles : List (Reached R)) : Prop :=
  ∀ reached, cycles.head? = some reached → ¬ cmd.Passed startline reached.cycle

theorem Change.changed_iff {linenum : Nat} {reached : Reached R} {rest : List (Reached R)}
    (input : cmd.Input startline linenum (reached :: rest))
    (before : ¬ cmd.Passed startline reached.cycle) :
    (∀ w, (cmd.changed startline reached).written = some w →
        w = if continued (cmd.run (cmd.applies startline reached.cycle).startline rest) then []
          else [.text cmd.t]) ↔
      cmd.Fresh (cmd.applies startline reached.cycle).startline rest := by
  obtain ⟨increasing, early, final, -⟩ := input
  have closed : cmd.Fresh 0 rest := fun _ _ passed => absurd passed.1 (Nat.lt_irrefl 0)
  unfold Change.changed
  simp only [commandC_written]
  rcases cmd.applies_cases (by omega) before with same | same | ⟨start, opened, same⟩
  · rw [same]
    exact iff_of_true (fun w impossible => nomatch impossible) closed
  · rw [same]
    simp only [if_true, Option.some.injEq, forall_eq', Bool.true_or, cmd.continued_closed,
      Bool.false_eq_true, if_false]
    exact iff_of_true trivial closed
  · rw [same] at final ⊢
    simp only [if_true, Option.some.injEq, forall_eq', Bool.false_or]
    cases rest with
    | nil =>
        rw [final rfl rfl, Change.run, continued, if_pos rfl, if_neg Bool.false_ne_true]
        exact iff_of_true rfl fun _ impossible => nomatch impossible
    | cons next rest =>
        have fresh : cmd.Fresh start (next :: rest) ↔
            continued (cmd.run start (next :: rest)) = true := by
          rw [cmd.continued_iff opened]
          exact ⟨fun all => all next rfl, fun first r head => Option.some.inj head ▸ first⟩
        rw [early (List.cons_ne_nil _ _), fresh]
        cases continued (cmd.run start (next :: rest)) <;> simp

theorem Change.run_answered_iff (cycles : List (Reached R)) :
    ∀ {startline linenum : Nat}, cmd.Input startline linenum cycles →
      (Answered cmd.t (cmd.run startline cycles) ∧ cmd.Fresh startline cycles ↔
        cmd.NonePassed startline cycles) := by
  induction cycles with
  | nil =>
      intro startline linenum _
      refine iff_of_true ⟨fun r member => absurd member List.not_mem_nil,
        fun _ impossible => nomatch impossible⟩ ?_
      intro front reached back split
      cases front <;> cases split
  | cons reached rest ih =>
      intro startline linenum input
      have rest_ := ih input.2.2.2
      have first : cmd.Fresh startline (reached :: rest) ↔ ¬ cmd.Passed startline reached.cycle :=
        ⟨fun all => all reached rfl, fun first r head => Option.some.inj head ▸ first⟩
      rw [Change.run, answered_cons, cmd.nonePassed_cons, ← rest_, first]
      constructor
      · rintro ⟨⟨here, answered⟩, before⟩
        exact ⟨before, answered, (cmd.changed_iff input before).mp here⟩
      · rintro ⟨before, answered, fresh⟩
        exact ⟨⟨(cmd.changed_iff input before).mpr fresh, answered⟩, before⟩

/-- Every range is changed into the text once, behind its last line, if no cycle finds a range
open whose last line lies behind. -/
theorem Change.answered_iff {cycles : List (Reached R)} (input : cmd.Input 0 0 cycles) :
    Answered cmd.t (cmd.run 0 cycles) ↔ cmd.NonePassed 0 cycles := by
  rw [← cmd.run_answered_iff cycles input]
  exact (and_iff_left fun _ _ passed => absurd passed.1 (Nat.lt_irrefl 0)).symm

end

/-! ## Runs -/

def numbered (linenum : Nat) (lastline : Bool) : Reached Unit :=
  ⟨{ linenum := linenum, lastline := lastline, regexec := fun _ => false }, appended⟩

theorem answered_two :
    (⟨.AT_LINE 1, .AT_LINE 2, ascii ['X'], false⟩ : Change Unit).Input 0 0
        [numbered 1 false, numbered 2 false, numbered 3 true] ∧
      (Answered (ascii ['X']) ((⟨.AT_LINE 1, .AT_LINE 2, ascii ['X'], false⟩ : Change Unit).run 0
          [numbered 1 false, numbered 2 false, numbered 3 true]) ↔
        (⟨.AT_LINE 1, .AT_LINE 2, ascii ['X'], false⟩ : Change Unit).NonePassed 0
          [numbered 1 false, numbered 2 false, numbered 3 true]) := by
  have input : (⟨.AT_LINE 1, .AT_LINE 2, ascii ['X'], false⟩ : Change Unit).Input 0 0
      [numbered 1 false, numbered 2 false, numbered 3 true] := by
    simp only [Change.Input]
    decide
  exact ⟨input, Change.answered_iff _ input⟩

/-- `1,+1c\` on three lines: the text is not written. -/
theorem plusOne_unanswered :
    ¬ ∀ (cmd : Change Unit) (cycles : List (Reached Unit)), cmd.Input 0 0 cycles →
      Answered cmd.t (cmd.run 0 cycles) := by
  intro answered
  have input : (⟨.AT_LINE 1, .AT_RELLINE 1, ascii ['X'], false⟩ : Change Unit).Input 0 0
      [numbered 1 false, numbered 2 false, numbered 3 true] := by
    simp only [Change.Input]
    decide
  obtain ⟨n, same⟩ := answered _ _ input [[], []] (by decide)
  have last := congrArg List.getLast? same
  rw [List.getLast?_concat] at last
  cases last

end Netbase.Sed
