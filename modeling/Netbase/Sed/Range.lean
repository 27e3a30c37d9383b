import Netbase.Sed.Address

/-!
# Ranges of lines

A command with two addresses that is reached in every cycle, against the automaton its
two addresses describe.  The two part where a line directly behind a `+N` range opens the
next one: the range is only closed on that line, and the line is lost.
-/

namespace Netbase.Sed

variable {R : Type}

/-- A line of the input: whether it is the last one, and which expressions match it. -/
structure Line (R : Type) where
  lastline : Bool
  regexec : Option R → Bool

def Line.cycle (line : Line R) (linenum : Nat) : Cycle R :=
  { linenum := linenum, lastline := line.lastline, regexec := line.regexec }

def selections (a1 a2 : Addr R) (nonsel : Bool) : Nat → Nat → List (Line R) → List Bool
  | _, _, [] => []
  | startline, linenum, line :: rest =>
      let found := applies (some a1) (some a2) nonsel startline (line.cycle linenum)
      found.r :: selections a1 a2 nonsel found.startline (linenum + 1) rest

/-! ## The automaton -/

inductive RangeState where
  | idle
  | opened (start : Nat)
  deriving Repr, DecidableEq

/-- The line is the last one of the range opened on `start`. -/
def Addr.ends (a2 : Addr R) (start : Nat) (c : Cycle R) : Bool :=
  match a2 with
  | .AT_RELLINE l => c.linenum == start + l
  | a => a.matches c

def RangeState.next (a1 a2 : Addr R) (c : Cycle R) : RangeState → RangeState
  | .idle => if a1.matches c && !a2.single c then .opened c.linenum else .idle
  | .opened start => if a2.ends start c then .idle else .opened start

def RangeState.selects (a1 : Addr R) (c : Cycle R) : RangeState → Bool
  | .idle => a1.matches c
  | .opened _ => true

def rangeSelections (a1 a2 : Addr R) : RangeState → Nat → List (Line R) → List Bool
  | _, _, [] => []
  | q, linenum, line :: rest =>
      q.selects a1 (line.cycle linenum) ::
        rangeSelections a1 a2 (q.next a1 a2 (line.cycle linenum)) (linenum + 1) rest

/-- The line is the last of the lines counted by `+N`. -/
def RangeState.countedOut (a2 : Addr R) (c : Cycle R) (q : RangeState) : Bool :=
  match q, a2 with
  | .opened start, .AT_RELLINE l => c.linenum == start + l
  | _, _ => false

/-- No line directly behind a `+N` range matches the first address; `ended` says that
the line before was the last of such a range. -/
def Apart (a1 a2 : Addr R) : Bool → RangeState → Nat → List (Line R) → Prop
  | _, _, _, [] => True
  | ended, q, linenum, line :: rest =>
      (ended = true → a1.matches (line.cycle linenum) = false) ∧
        Apart a1 a2 (q.countedOut a2 (line.cycle linenum)) (q.next a1 a2 (line.cycle linenum))
          (linenum + 1) rest

/-! ## Side by side -/

/-- The start line says what the state of the automaton is; behind a `+N` range it has
not been cleared yet. -/
inductive Follows (a2 : Addr R) (linenum : Nat) : Bool → RangeState → Nat → Prop where
  | idle : Follows a2 linenum false .idle 0
  | opened {start : Nat} (positive : 0 < start) (before : start < linenum)
      (line : ∀ l, a2 = .AT_LINE l → linenum ≤ l)
      (relline : ∀ l, a2 = .AT_RELLINE l → linenum ≤ start + l) :
      Follows a2 linenum false (.opened start) start
  | late {start l : Nat} (positive : 0 < start) (counted : a2 = .AT_RELLINE l)
      (behind : linenum = start + l + 1) : Follows a2 linenum true .idle start

theorem opensRange_follows (a1 a2 : Addr R) {c : Cycle R} (positive : 0 < c.linenum) :
    (opensRange a1 a2 c).r = RangeState.idle.selects a1 c ∧
      Follows a2 (c.linenum + 1) false (RangeState.idle.next a1 a2 c)
        (opensRange a1 a2 c).startline := by
  unfold opensRange RangeState.selects RangeState.next
  by_cases first : a1.matches c = true
  · by_cases single : a2.single c = true
    · simp only [first, single, if_true, Bool.not_true, Bool.and_false, Bool.false_eq_true, if_false]
      exact ⟨trivial, .idle⟩
    · simp only [first, single, if_true, Bool.not_false, Bool.and_self, Bool.false_eq_true, if_false]
      refine ⟨trivial, .opened positive (Nat.lt_succ_self _) ?_ ?_⟩
      · rintro l rfl
        simp only [Addr.single, ge_iff_le, decide_eq_true_eq] at single
        omega
      · rintro l rfl
        simp only [Addr.single, beq_iff_eq] at single
        omega
  · simp only [first, Bool.false_and, Bool.false_eq_true, if_false]
    exact ⟨trivial, .idle⟩

theorem closesRange_follows (a1 a2 : Addr R) {c : Cycle R} {start : Nat}
    (follows : Follows a2 c.linenum false (.opened start) start) :
    (closesRange a2 start c).r = true ∧
      Follows a2 (c.linenum + 1) ((RangeState.opened start).countedOut a2 c)
        ((RangeState.opened start).next a1 a2 c) (closesRange a2 start c).startline := by
  cases follows with
  | opened positive before line relline =>
      cases a2 with
      | AT_RELLINE l =>
          have inside := relline l rfl
          have within : c.linenum - start ≤ l := by omega
          simp only [closesRange, within, if_true, RangeState.countedOut, RangeState.next, Addr.ends,
            beq_iff_eq]
          by_cases last : c.linenum = start + l
          · simp only [last, if_true, beq_self_eq_true]
            exact ⟨trivial, .late positive rfl rfl⟩
          · have more : (c.linenum == start + l) = false := by simpa using last
            simp only [last, if_false, more]
            refine ⟨trivial, .opened positive (by omega) (fun k impossible => nomatch impossible) ?_⟩
            intro k same
            cases same
            omega
      | AT_LINE l =>
          have inside := line l rfl
          simp only [closesRange, RangeState.countedOut, RangeState.next, Addr.ends, Addr.matches,
            beq_iff_eq]
          by_cases last : c.linenum = l
          · simp only [last, if_true]
            exact ⟨trivial, .idle⟩
          · have before' : ¬c.linenum > l := by omega
            simp only [last, if_false, before']
            refine ⟨trivial, .opened positive (by omega) ?_ (fun k impossible => nomatch impossible)⟩
            intro k same
            cases same
            omega
      | AT_RE r =>
          simp only [closesRange, RangeState.countedOut, RangeState.next, Addr.ends]
          by_cases last : (Addr.AT_RE r).matches c = true
          · simp only [last, if_true]
            exact ⟨trivial, .idle⟩
          · simp only [last, Bool.false_eq_true, if_false]
            exact ⟨trivial, .opened positive (by omega) (fun k impossible => nomatch impossible)
              (fun k impossible => nomatch impossible)⟩
      | AT_LAST =>
          simp only [closesRange, RangeState.countedOut, RangeState.next, Addr.ends]
          by_cases last : (Addr.AT_LAST : Addr R).matches c = true
          · simp only [last, if_true]
            exact ⟨trivial, .idle⟩
          · simp only [last, Bool.false_eq_true, if_false]
            exact ⟨trivial, .opened positive (by omega) (fun k impossible => nomatch impossible)
              (fun k impossible => nomatch impossible)⟩

/-- Behind a `+N` range the line is only used to close it. -/
theorem closesRange_late {a2 : Addr R} {c : Cycle R} {start l : Nat}
    (counted : a2 = .AT_RELLINE l) (behind : c.linenum = start + l + 1) :
    closesRange a2 start c = ⟨false, false, 0⟩ := by
  subst counted
  have beyond : ¬c.linenum - start ≤ l := by omega
  simp only [closesRange, beyond, if_false]

theorem map_not_injective (nonsel : Bool) {xs ys : List Bool} :
    xs.map (fun r => if nonsel then !r else r) = ys.map (fun r => if nonsel then !r else r) ↔
      xs = ys := by
  refine List.map_inj_right ?_
  intro a b
  cases nonsel <;> cases a <;> cases b <;> simp

/-- Line by line, with the flag of `!` taken off. -/
theorem selections_nonsel (a1 a2 : Addr R) (nonsel : Bool) (lines : List (Line R)) :
    ∀ startline linenum, selections a1 a2 nonsel startline linenum lines =
      (selections a1 a2 false startline linenum lines).map fun r => if nonsel then !r else r := by
  induction lines with
  | nil => exact fun _ _ => rfl
  | cons line rest ih =>
      intro startline linenum
      simp only [selections, List.map_cons, applies, Bool.false_eq_true, if_false]
      rw [ih]

theorem applies_range (a1 a2 : Addr R) (startline : Nat) (c : Cycle R) :
    applies (some a1) (some a2) false startline c =
      if startline > 0 then closesRange a2 startline c else opensRange a1 a2 c := by
  simp only [applies, addressed, Bool.false_eq_true, if_false]

/-- From corresponding states, the two select the same lines as long as no line behind a
`+N` range matches the first address. -/
theorem selections_follows (a1 a2 : Addr R) (lines : List (Line R)) :
    ∀ {linenum : Nat} {ended : Bool} {q : RangeState} {startline : Nat}, 0 < linenum →
      Follows a2 linenum ended q startline →
      (selections a1 a2 false startline linenum lines = rangeSelections a1 a2 q linenum lines ↔
        Apart a1 a2 ended q linenum lines) := by
  induction lines with
  | nil =>
      intro linenum ended q startline _ _
      exact iff_of_true rfl trivial
  | cons line rest ih =>
      intro linenum ended q startline positive follows
      simp only [selections, rangeSelections, Apart, applies_range, List.cons.injEq]
      cases follows with
      | idle =>
          obtain ⟨same, after⟩ := opensRange_follows a1 a2 (c := line.cycle linenum) positive
          rw [if_neg (Nat.lt_irrefl 0), same, ih (show 0 < linenum + 1 from Nat.succ_pos _) after]
          simp [RangeState.countedOut]
      | opened started before lineBound rellineBound =>
          obtain ⟨selected, after⟩ := closesRange_follows a1 a2 (c := line.cycle linenum)
            (.opened started before lineBound rellineBound)
          rw [if_pos started, selected, ih (show 0 < linenum + 1 from Nat.succ_pos _) after]
          simp [RangeState.selects]
      | late started counted behind =>
          rw [if_pos started, closesRange_late counted (c := line.cycle linenum) behind]
          by_cases opens : a1.matches (line.cycle linenum) = true
          · simp [RangeState.selects, opens]
          · have passed : RangeState.idle.next a1 a2 (line.cycle linenum) = .idle := by
              simp [RangeState.next, opens]
            rw [passed, ih (show 0 < linenum + 1 from Nat.succ_pos _) .idle]
            simp [RangeState.selects, opens, RangeState.countedOut]

/-- A command with two addresses selects the lines of the range automaton if and only if
no line directly behind the lines counted by `+N` matches the first address. -/
theorem selections_range_iff (a1 a2 : Addr R) (nonsel : Bool) (lines : List (Line R)) :
    selections a1 a2 nonsel 0 1 lines =
        (rangeSelections a1 a2 .idle 1 lines).map (fun r => if nonsel then !r else r) ↔
      Apart a1 a2 false .idle 1 lines := by
  rw [selections_nonsel, map_not_injective]
  exact selections_follows a1 a2 lines Nat.one_pos .idle

def lineOf (matched lastline : Bool) : Line Unit :=
  { lastline := lastline, regexec := fun _ => matched }

/-- `/a/,+1` on the lines `a`, `b`, `a`: the third line opens no range. -/
theorem selections_plus_one :
    selections (.AT_RE (some ())) (.AT_RELLINE 1) false 0 1
        [lineOf true false, lineOf false false, lineOf true true] ≠
      (rangeSelections (.AT_RE (some ())) (.AT_RELLINE 1) .idle 1
        [lineOf true false, lineOf false false, lineOf true true]).map
          fun r => if false then !r else r := by
  decide

end Netbase.Sed
