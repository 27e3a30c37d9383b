import Mathlib.Logic.Nontrivial.Basic

/-!
# Templates

A template is a list of letters and holes; it is filled by putting a word in the place of each
hole.  What a template fills to for words of one letter tells the template.
-/

namespace Netbase.Lib

/-- A part of a template. -/
inductive TemplateSymbol (V α : Type*) where
  | letter (a : α)
  | hole (x : V)
  deriving DecidableEq

variable {V α : Type*}

def TemplateSymbol.fill (words : V → List α) : TemplateSymbol V α → List α
  | .letter a => [a]
  | .hole x => words x

def fill (words : V → List α) (template : List (TemplateSymbol V α)) : List α :=
  template.flatMap (TemplateSymbol.fill words)

@[simp] theorem fill_nil (words : V → List α) : fill words [] = [] := rfl

@[simp] theorem fill_cons (words : V → List α) (s : TemplateSymbol V α)
    (template : List (TemplateSymbol V α)) :
    fill words (s :: template) = s.fill words ++ fill words template := rfl

/-- One letter for one hole, and another one for the others. -/
def marking [DecidableEq V] (x : V) (a b : α) : V → List α := fun y => if y = x then [a] else [b]

theorem TemplateSymbol.fill_marking [DecidableEq V] (s : TemplateSymbol V α) (x : V) (a b : α) :
    ∃ c, s.fill (marking x a b) = [c] := by
  cases s with
  | letter c => exact ⟨c, rfl⟩
  | hole y =>
      by_cases here : y = x
      · exact ⟨a, if_pos here⟩
      · exact ⟨b, if_neg here⟩

section

variable [DecidableEq V] [Inhabited V] [Nontrivial α]

theorem TemplateSymbol.eq_of_fill {s t : TemplateSymbol V α}
    (same : ∀ x a b, s.fill (marking x a b) = t.fill (marking x a b)) : s = t := by
  cases s with
  | letter c =>
      cases t with
      | letter d => exact congrArg TemplateSymbol.letter (List.cons.inj (same default c c)).1
      | hole y =>
          obtain ⟨d, other⟩ := exists_ne c
          have filled := same y d d
          simp only [TemplateSymbol.fill, marking, if_true, List.cons.injEq] at filled
          exact absurd filled.1.symm other
  | hole y =>
      cases t with
      | letter d =>
          obtain ⟨c, other⟩ := exists_ne d
          have filled := same y c c
          simp only [TemplateSymbol.fill, marking, if_true, List.cons.injEq] at filled
          exact absurd filled.1 other
      | hole z =>
          by_contra differ
          obtain ⟨a, b, other⟩ := exists_pair_ne α
          have apart : z ≠ y := fun equal => differ (by rw [equal])
          have filled := same y a b
          simp only [TemplateSymbol.fill, marking, if_true, if_neg apart, List.cons.injEq] at filled
          exact other filled.1

theorem eq_of_fill {template : List (TemplateSymbol V α)} :
    ∀ {other : List (TemplateSymbol V α)},
      (∀ x a b, fill (marking x a b) template = fill (marking x a b) other) → template = other := by
  induction template with
  | nil =>
      intro other same
      cases other with
      | nil => rfl
      | cons t other =>
          obtain ⟨a, b, -⟩ := exists_pair_ne α
          obtain ⟨c, first⟩ := t.fill_marking default a b
          have filled := same default a b
          rw [fill_nil, fill_cons, first] at filled
          cases filled
  | cons s template ih =>
      intro other same
      cases other with
      | nil =>
          obtain ⟨a, b, -⟩ := exists_pair_ne α
          obtain ⟨c, first⟩ := s.fill_marking default a b
          have filled := same default a b
          rw [fill_nil, fill_cons, first] at filled
          cases filled
      | cons t other =>
          have parts : ∀ x a b, s.fill (marking x a b) = t.fill (marking x a b) ∧
              fill (marking x a b) template = fill (marking x a b) other := by
            intro x a b
            obtain ⟨c, first⟩ := s.fill_marking x a b
            obtain ⟨d, second⟩ := t.fill_marking x a b
            have filled := same x a b
            rw [fill_cons, fill_cons, first, second, List.singleton_append, List.singleton_append,
              List.cons.injEq] at filled
            exact ⟨by rw [first, second, filled.1], filled.2⟩
          rw [TemplateSymbol.eq_of_fill fun x a b => (parts x a b).1,
            ih fun x a b => (parts x a b).2]

end

end Netbase.Lib
