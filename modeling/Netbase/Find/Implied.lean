import Netbase.Find.Formplan

/-!
# The implied `-print`

Without an output primary `find_formplan` puts the arguments in parentheses and `-print`
behind them.  A closing parenthesis among the arguments that comes before its opening one is
then taken for the end of this bracket.
-/

namespace Netbase.Find

open Netbase.Lib

variable {α : Type}

/-- What the arguments ask for, with the implied `-print`. -/
def Asks (isoutput : α → Bool) (print : α) (argv : List (Word α)) (e : Expr α) : Prop :=
  if hasOutput isoutput argv then Reads .expression (significant argv) e
  else significant argv = [] ∧ e = .prim print ∨
    ∃ f, Reads .expression (significant argv) f ∧ e = .and f (.prim print)

/-- The plan is refused exactly if the arguments are no sentence, and otherwise it is
evaluated as the arguments are read. -/
structure Faithful (isoutput : α → Bool) (print : α) (argv : List (Word α)) : Prop where
  rejects : (∃ e, findFormplan isoutput print argv = .error e) ↔
    ¬ (significant argv = [] ∨ Sentence (significant argv))
  evaluates : ∀ plan e, findFormplan isoutput print argv = .ok plan →
    Asks isoutput print argv e → Says plan e

/-- The arguments in parentheses, with `-print` behind them. -/
def bracketed (print : α) (ws : List (Word α)) : List (Word α) :=
  .openparen :: ws ++ [.closeparen, .prim print]

def Word.weight : Word α → Int
  | .openparen => 1
  | .closeparen => -1
  | _ => 0

/-- Opening parentheses less closing ones. -/
def depth (ws : List (Word α)) : Int := (ws.map Word.weight).sum

/-- A closing parenthesis comes before its opening one. -/
def ClosesEarly (ws : List (Word α)) : Prop := ∃ front behind, ws = front ++ behind ∧ depth front < 0

@[simp]
theorem depth_nil : depth ([] : List (Word α)) = 0 := rfl

@[simp]
theorem depth_cons (w : Word α) (ws : List (Word α)) : depth (w :: ws) = w.weight + depth ws := by
  simp [depth]

@[simp]
theorem depth_append (ws vs : List (Word α)) : depth (ws ++ vs) = depth ws + depth vs := by
  simp [depth]

theorem front_cases {ws vs front behind : List (Word α)} (same : ws ++ vs = front ++ behind) :
    (∃ more, ws = front ++ more) ∨ ∃ more, front = ws ++ more ∧ vs = more ++ behind := by
  rcases List.append_eq_append_iff.mp same with ⟨more, left, right⟩ | ⟨more, left, right⟩
  · exact Or.inr ⟨more, left, right⟩
  · exact Or.inl ⟨more, left⟩

variable {ws : List (Word α)} {isoutput : α → Bool}

theorem Reads.nonempty {level : Level} {e : Expr α} (reads : Reads level ws e) : ws ≠ [] := by
  induction reads with
  | and first rest ih ih' => simp [ih]
  | single inner ih => exact ih
  | alone inner ih => exact ih
  | _ => simp

theorem Reads.balanced {level : Level} {e : Expr α} (reads : Reads level ws e) :
    depth ws = 0 ∧ ∀ front behind, ws = front ++ behind → 0 ≤ depth front := by
  have concat {ws vs : List (Word α)} (first : depth ws = 0 ∧
      ∀ front behind, ws = front ++ behind → 0 ≤ depth front) (second : depth vs = 0 ∧
      ∀ front behind, vs = front ++ behind → 0 ≤ depth front) : depth (ws ++ vs) = 0 ∧
      ∀ front behind, ws ++ vs = front ++ behind → 0 ≤ depth front := by
    refine ⟨by simp [first.1, second.1], fun front behind same => ?_⟩
    rcases front_cases same with ⟨more, rfl⟩ | ⟨more, rfl, rfl⟩
    · exact first.2 front more rfl
    · have tail := second.2 more behind rfl
      simp only [depth_append, first.1]
      omega
  have flat {w : Word α} (weightless : w.weight = 0) : depth [w] = 0 ∧
      ∀ front behind, [w] = front ++ behind → 0 ≤ depth front := by
    refine ⟨by simp [weightless], fun front behind same => ?_⟩
    cases front with
    | nil => exact le_refl _
    | cons first front =>
        obtain ⟨rfl, rest⟩ := List.cons_eq_cons.mp same
        obtain ⟨rfl, _⟩ := List.append_eq_nil_iff.mp rest.symm
        simp [weightless]
  induction reads with
  | prim a => exact flat rfl
  | @paren ws e inner ih =>
      refine ⟨by simp [Word.weight, ih.1], fun front behind same => ?_⟩
      cases front with
      | nil => exact le_refl _
      | cons first front =>
          obtain ⟨rfl, rest⟩ := List.cons_eq_cons.mp same
          rcases front_cases rest with ⟨more, rfl⟩ | ⟨more, rfl, last⟩
          · have inside := ih.2 front more rfl
            simp only [depth_cons, Word.weight]
            omega
          · have small : -1 ≤ depth more := by
              cases more with
              | nil => simp
              | cons w more =>
                  obtain ⟨rfl, none⟩ := List.cons_eq_cons.mp last
                  obtain ⟨rfl, _⟩ := List.append_eq_nil_iff.mp none.symm
                  simp [Word.weight]
            simp only [depth_cons, depth_append, Word.weight, ih.1]
            omega
  | not inner ih => exact concat (flat (w := .not) rfl) ih
  | single inner ih => exact ih
  | and first rest ih ih' => exact concat ih ih'
  | alone inner ih => exact ih
  | or first rest ih ih' => exact concat ih (concat (flat (w := .or) rfl) ih')

theorem Sentence.not_closesEarly (sentence : Sentence ws) :
    ¬ ClosesEarly ws := by
  rintro ⟨front, behind, rfl, negative⟩
  obtain ⟨e, reads⟩ := sentence
  exact absurd (reads.balanced.2 front behind rfl) (not_le.mpr negative)

theorem Reads.inside {level : Level} {vs : List (Word α)} {e : Expr α}
    (reads : Reads level vs e) :
    ∀ ws tail, vs = .openparen :: (ws ++ .closeparen :: tail) → depth ws = 0 →
      ¬ ClosesEarly ws → Sentence ws := by
  have first {ws vs ws' tail : List (Word α)} {e : Expr α} {level : Level}
      (front : Reads level ws e)
      (ih : ∀ ws' tail, ws = .openparen :: (ws' ++ .closeparen :: tail) → depth ws' = 0 →
        ¬ ClosesEarly ws' → Sentence ws')
      (same : ws ++ vs = .openparen :: (ws' ++ .closeparen :: tail)) (level0 : depth ws' = 0)
      (late : ¬ ClosesEarly ws') : Sentence ws' := by
    cases ws with
    | nil => exact absurd rfl front.nonempty
    | cons w ws =>
        obtain ⟨rfl, rest⟩ := List.cons_eq_cons.mp same
        have low : depth ws = -1 := by
          have zero := front.balanced.1
          simp only [depth_cons, Word.weight] at zero
          omega
        rcases front_cases rest with ⟨more, rfl⟩ | ⟨more, rfl, last⟩
        · cases more with
          | nil =>
              rw [List.append_nil] at low
              omega
          | cons c more =>
              have closing : c = .closeparen := by
                change ws' ++ c :: more ++ vs = _ at rest
                rw [List.append_assoc] at rest
                exact (List.cons_eq_cons.mp (List.append_cancel_left rest)).1
              subst closing
              exact ih ws' more rfl level0 late
        · exact absurd ⟨ws, more, rfl, by omega⟩ late
  induction reads with
  | prim a => intro ws tail same; cases same
  | @paren inside e inner ih =>
      intro ws tail same level0 late
      have rest := (List.cons_eq_cons.mp same).2
      rcases front_cases rest with ⟨more, rfl⟩ | ⟨more, rfl, last⟩
      · cases more with
        | nil =>
            rw [List.append_nil]  at inner
            exact ⟨e, inner⟩
        | cons c more =>
            have closing : c = .closeparen := by
              rw [List.append_assoc] at rest
              exact (List.cons_eq_cons.mp (List.append_cancel_left rest)).1
            subst closing
            have early := inner.balanced.2 (ws ++ [.closeparen]) more (by simp)
            simp only [depth_append, depth_cons, depth_nil, Word.weight, level0] at early
            omega
      · cases more with
        | nil => exact ⟨e, by rwa [List.append_nil]⟩
        | cons c more =>
            have ended := (List.cons_eq_cons.mp last).2
            simp at ended
  | not inner ih => intro ws tail same; cases same
  | single inner ih => exact ih
  | and front rest ih _ => exact fun ws tail same => first front ih same
  | alone inner ih => exact ih
  | or front rest ih _ => exact fun ws tail same => first front ih same

theorem Sentence.unbracket {print : α} (sentence : Sentence (bracketed print ws))
    (late : ¬ ClosesEarly ws) : Sentence ws := by
  obtain ⟨e, reads⟩ := sentence
  refine reads.inside ws [.prim print] (by simp [bracketed]) ?_ late
  have zero := reads.balanced.1
  simp only [bracketed, List.cons_append, depth_cons, depth_append, depth_nil, Word.weight] at zero
  omega

theorem Reads.bracket (print : α) {ws : List (Word α)} {e : Expr α}
    (reads : Reads .expression ws e) :
    Reads .expression (bracketed print ws) (.and e (.prim print)) := by
  have whole := Reads.and (.paren reads) (.single (.prim print))
  have same : bracketed print ws = (.openparen :: (ws ++ [.closeparen])) ++ [.prim print] := by
    simp [bracketed]
  rw [same]
  exact .alone whole

variable {argv : List (Word α)}

theorem significant_ne_nil :
    significant argv ≠ [] ↔ create argv ≠ [] := by
  rw [← map_word_create]
  simp

theorem hasOutput_nonempty (output : hasOutput isoutput argv = true) :
    create argv ≠ [] := by
  intro none
  obtain ⟨w, inside, is⟩ := List.any_eq_true.mp output
  cases w with
  | prim a =>
      have made : (Node.prim a) ∈ create argv := List.mem_filterMap.mpr ⟨_, inside, rfl⟩
      rw [none] at made
      cases made
  | _ => cases is

theorem findFormplan_output (output : hasOutput isoutput argv = true) (print : α) :
    findFormplan isoutput print argv = squish (create argv) := by
  simp only [findFormplan, output, if_true]
  rfl

theorem findFormplan_empty (none : hasOutput isoutput argv = false) (print : α)
    (empty : create argv = []) :
    findFormplan isoutput print argv = .ok [.prim print] := by
  rw [create] at empty
  simp only [findFormplan, none, empty]
  rfl

theorem findFormplan_implied (none : hasOutput isoutput argv = false) (print : α)
    (some : create argv ≠ []) :
    findFormplan isoutput print argv = squish (create (bracketed print argv)) := by
  have front : create (bracketed print argv) =
      .openparen :: create argv ++ [.closeparen, .prim print] := by
    rw [bracketed, List.cons_append, create_cons _ rfl, create_append]
    rfl
  rw [create] at some
  simp only [findFormplan, none, front]
  simp only [Bool.false_eq_true, if_false, List.isEmpty_iff, some]
  rfl

theorem significant_bracketed (print : α) (argv : List (Word α)) :
    significant (bracketed print argv) = bracketed print (significant argv) := by
  rw [bracketed, List.cons_append, significant_cons rfl, significant_append]
  rfl

/-- The plan does what the arguments read as, unless parentheses that close early are mended
by those of the implied `-print`. -/
theorem findFormplan_faithful_iff (isoutput : α → Bool) (print : α) (argv : List (Word α)) :
    Faithful isoutput print argv ↔
      hasOutput isoutput argv = true ∨ ¬ ClosesEarly (significant argv) ∨
        ¬ Sentence (bracketed print (significant argv)) := by
  by_cases output : hasOutput isoutput argv = true
  · have some := hasOutput_nonempty output
    have formed := findFormplan_output output print
    refine iff_of_true ⟨?_, ?_⟩ (Or.inl output)
    · rw [formed]
      constructor
      · rintro ⟨e, refused⟩ (none | ⟨f, reads⟩)
        · exact significant_ne_nil.mpr some none
        · obtain ⟨plan, made, _⟩ := squish_of_reads reads
          rw [made] at refused
          cases refused
      · intro no
        cases run : squish (create argv) with
        | error e => exact ⟨e, rfl⟩
        | ok plan => exact absurd (Or.inr (sentence_of_squish run some)) no
    · intro plan e made asks
      rw [Asks, if_pos output] at asks
      obtain ⟨plan', made', says'⟩ := squish_of_reads asks
      rw [formed, made'] at made
      cases made
      exact @says'
  · have none : hasOutput isoutput argv = false := by simpa using output
    by_cases some : create argv = []
    · have empty : significant argv = [] := by rw [← map_word_create, some]; rfl
      have formed := findFormplan_empty none print some
      refine iff_of_true ⟨?_, ?_⟩ (Or.inr (Or.inl ?_))
      · rw [formed]
        constructor
        · rintro ⟨e, refused⟩
          cases refused
        · exact fun no => absurd (Or.inl empty) no
      · intro plan e made asks
        rw [formed] at made
        cases made
        rw [Asks, if_neg output] at asks
        rcases asks with ⟨_, rfl⟩ | ⟨f, reads, _⟩
        · exact fun step s => rfl
        · exact absurd empty reads.nonempty
      · rintro ⟨front, behind, same, negative⟩
        rw [empty] at same
        obtain ⟨rfl, _⟩ := List.append_eq_nil_iff.mp same.symm
        exact absurd negative (by simp)
    · have formed := findFormplan_implied none print some
      have significance := significant_bracketed print argv
      have filled : create (bracketed print argv) ≠ [] := by
        rw [bracketed, List.cons_append, create_cons _ rfl]
        simp
      by_cases sentence : Sentence (significant argv)
      · refine iff_of_true ⟨?_, ?_⟩ (Or.inr (Or.inl sentence.not_closesEarly))
        · rw [formed]
          constructor
          · rintro ⟨e, refused⟩
            obtain ⟨f, reads⟩ := sentence
            have whole := reads.bracket print
            rw [← significance] at whole
            obtain ⟨plan, made, _⟩ := squish_of_reads whole
            rw [made] at refused
            cases refused
          · exact fun no => absurd (Or.inr sentence) no
        · intro plan e made asks
          rw [Asks, if_neg output] at asks
          rcases asks with ⟨empty, _⟩ | ⟨f, reads, rfl⟩
          · exact absurd empty (significant_ne_nil.mpr some)
          · have whole := reads.bracket print
            rw [← significance] at whole
            obtain ⟨plan', made', says'⟩ := squish_of_reads whole
            rw [formed, made'] at made
            cases made
            exact @says'
      · have improper : ¬ (significant argv = [] ∨ Sentence (significant argv)) := by
          rintro (empty | good)
          · exact significant_ne_nil.mpr some empty
          · exact sentence good
        have nothing : ∀ e, ¬ Asks isoutput print argv e := by
          intro e asks
          rw [Asks, if_neg output] at asks
          rcases asks with ⟨empty, _⟩ | ⟨f, reads, _⟩
          · exact improper (Or.inl empty)
          · exact sentence ⟨f, reads⟩
        cases run : squish (create (bracketed print argv)) with
        | error refusal =>
            refine iff_of_true ⟨?_, fun plan e _ asks => absurd asks (nothing e)⟩
              (Or.inr (Or.inr ?_))
            · rw [formed, run]
              exact iff_of_true ⟨refusal, rfl⟩ improper
            · rintro ⟨e, reads⟩
              rw [← significance] at reads
              obtain ⟨plan, made, _⟩ := squish_of_reads reads
              rw [made] at run
              cases run
        | ok plan =>
            have whole := sentence_of_squish run filled
            rw [significance] at whole
            refine iff_of_false ?_ ?_
            · rintro ⟨rejects, _⟩
              obtain ⟨e, refused⟩ := rejects.mpr improper
              rw [formed, run] at refused
              cases refused
            · rintro (bad | late | no)
              · exact output bad
              · exact sentence (whole.unbracket late)
              · exact no whole

/-- `-name a ) ( -name b` is accepted although its first parenthesis closes nothing. -/
theorem findFormplan_accepts_crossed :
    ¬ Faithful (fun _ => false) 0 [.prim 1, .closeparen, .openparen, .prim 2] := by
  intro faithful
  have crossed : ClosesEarly [.prim 1, .closeparen, .openparen, .prim 2] :=
    ⟨[.prim 1, .closeparen], [.openparen, .prim 2], rfl, by decide⟩
  obtain ⟨e, refused⟩ := faithful.rejects.mpr (by
    rintro (empty | sentence)
    · cases empty
    · exact sentence.not_closesEarly crossed)
  have made : findFormplan (fun _ => false) 0 [.prim 1, .closeparen, .openparen, .prim 2] =
      .ok [.expr [.prim 1], .expr [.prim 2], .prim 0] := rfl
  rw [made] at refused
  cases refused

end Netbase.Find
