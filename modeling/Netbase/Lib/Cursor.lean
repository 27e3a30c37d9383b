import Mathlib.Data.List.Infix
import Netbase.Lib.Outcome

/-!
# Reading a terminated text through a pointer

A pointer into a text is what the text holds from there on, with the terminator as its
last symbol.  Reading behind the terminator is an error, so that a run without that
error has stayed inside.
-/

namespace Netbase.Lib

section Cursor

variable {α ε : Type} (nul : α) (stray : ε)

/-- A pointer that is inside a terminated text. -/
structure Inside (text s : List α) : Prop where
  somewhere : s ≠ []
  suffix : s <:+ text ++ [nul]

/-- The symbol under the pointer. -/
def look : List α → Except ε α
  | [] => .error stray
  | c :: _ => .ok c

/-- The first place from the pointer on that is looked for. -/
def search [DecidableEq α] (wanted : List α → Bool) : List α → Except ε (Option (List α))
  | [] => .error stray
  | c :: s =>
      if c = nul then .ok none
      else if wanted (c :: s) then .ok (some (c :: s))
      else search wanted s

variable {nul stray} {text s : List α} {c : α}

theorem Inside.start : Inside nul text (text ++ [nul]) :=
  ⟨List.append_ne_nil_of_right_ne_nil _ (List.cons_ne_nil _ _), List.suffix_refl _⟩

theorem Inside.next (inside : Inside nul text (c :: s)) (more : c ≠ nul) : Inside nul text s := by
  refine ⟨fun last => more ?_, (List.suffix_cons c s).trans inside.suffix⟩
  obtain ⟨front, whole⟩ := inside.suffix
  rw [last] at whole
  exact List.singleton_inj.mp (List.append_inj_right' whole rfl)

/-- Nothing is behind the terminator of a text that does not hold one. -/
theorem Inside.at_end (inside : Inside nul text (nul :: s)) (free : nul ∉ text) : s = [] := by
  obtain ⟨front, whole⟩ := inside.suffix
  rcases List.eq_nil_or_concat s with rfl | ⟨init, last, rfl⟩
  · rfl
  · refine absurd ?_ free
    have split : (front ++ nul :: init) ++ [last] = text ++ [nul] := by
      rw [← whole, List.append_assoc, List.cons_append, List.concat_eq_append]
    rw [← List.append_inj_left' split rfl]
    exact List.mem_append_right _ List.mem_cons_self

theorem Inside.cases (inside : Inside nul text s) : ∃ c rest, s = c :: rest := by
  cases s with
  | nil => exact absurd rfl inside.somewhere
  | cons c rest => exact ⟨c, rest, rfl⟩

theorem search_some [DecidableEq α] {wanted : List α → Bool} {p : List α}
    (run : search nul stray wanted (c :: s) = .ok (some p)) : c ≠ nul := by
  rintro rfl
  rw [search, if_pos rfl] at run
  cases run

theorem search_inside [DecidableEq α] (stray : ε) (wanted : List α → Bool) (inside : Inside nul text s) :
    ∃ found, search nul stray wanted s = .ok found ∧
      ∀ p, found = some p → Inside nul text p ∧ wanted p = true ∧ p <:+ s := by
  induction s with
  | nil => exact absurd rfl inside.somewhere
  | cons c s ih =>
      rw [search]
      by_cases last : c = nul
      · rw [if_pos last]
        exact ⟨none, rfl, fun p absent => nomatch absent⟩
      rw [if_neg last]
      by_cases here : wanted (c :: s) = true
      · rw [if_pos here]
        refine ⟨some (c :: s), rfl, ?_⟩
        rintro p ⟨⟩
        exact ⟨inside, here, List.suffix_refl _⟩
      · rw [if_neg here]
        obtain ⟨found, run, facts⟩ := ih (inside.next last)
        refine ⟨found, run, fun p is => ?_⟩
        obtain ⟨within, holds, behind⟩ := facts p is
        exact ⟨within, holds, behind.trans (List.suffix_cons c s)⟩

end Cursor

end Netbase.Lib
