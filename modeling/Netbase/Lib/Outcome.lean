import Mathlib.Logic.Basic

/-!
# Computations that end well or lose everything

What a run comes to that may stop with an error: something about its result where it
ends, something else where it stops.  Where the two exclude each other the run decides
between them.
-/

namespace Netbase.Lib

variable {ε α β : Type}

theorem except_bind_ok {x : Except ε α} {f : α → Except ε β} {b : β} :
    (x >>= f) = .ok b ↔ ∃ a, x = .ok a ∧ f a = .ok b := by
  cases x with
  | ok a =>
      constructor
      · exact fun run => ⟨a, rfl, run⟩
      · rintro ⟨_, same, run⟩
        cases same
        exact run
  | error e =>
      constructor
      · intro run
        cases run
      · rintro ⟨_, same, _⟩
        cases same

theorem exists_ok_iff {x : Except ε α} {a : α} (run : x = .ok a) {q : α → Prop} :
    (∃ a', x = .ok a' ∧ q a') ↔ q a := by
  subst run
  constructor
  · rintro ⟨a', same, holds⟩
    cases same
    exact holds
  · exact fun holds => ⟨a, rfl, holds⟩

theorem not_exists_ok {x : Except ε α} {e : ε} (stop : x = .error e) {q : α → Prop} :
    ¬ ∃ a', x = .ok a' ∧ q a' := by
  subst stop
  rintro ⟨a', same, -⟩
  cases same

/-- The run ends with `good`, or it stops and then `bad` holds. -/
def Outcome (good : α → Prop) (bad : Prop) : Except ε α → Prop
  | .ok a => good a
  | .error _ => bad

namespace Outcome

variable {good : α → Prop} {bad : Prop} {x : Except ε α}

theorem bind {f : α → Except ε β} {after : β → Prop} (first : Outcome good bad x)
    (rest : ∀ a, good a → Outcome after bad (f a)) : Outcome after bad (x >>= f) := by
  cases x with
  | ok a => exact rest a first
  | error e => exact first

theorem weaken {good' : α → Prop} {bad' : Prop} (outcome : Outcome good bad x)
    (post : ∀ a, good a → good' a) (fail : bad → bad') : Outcome good' bad' x := by
  cases x with
  | ok a => exact post a outcome
  | error e => exact fail outcome

/-- A run whose two ways out tell whether something holds. -/
theorem decides {p : Prop} {q : α → Prop} (outcome : Outcome good bad x)
    (post : ∀ a, good a → (q a ↔ p)) (fail : bad → ¬ p) : (∃ a, x = .ok a ∧ q a) ↔ p := by
  cases x with
  | ok a =>
      constructor
      · rintro ⟨_, same, holds⟩
        cases same
        exact (post a outcome).mp holds
      · exact fun holds => ⟨a, rfl, (post a outcome).mpr holds⟩
  | error e =>
      refine iff_of_false ?_ (fail outcome)
      rintro ⟨_, stopped, _⟩
      cases stopped

end Outcome

/-! ## Kinds of errors -/

section Ends

/-- The run ends with `good`, or stops with an error of a kind. -/
def Ends (good : α → Prop) (bad : ε → Prop) : Except ε α → Prop
  | .ok a => good a
  | .error e => bad e

variable {good : α → Prop} {bad : ε → Prop} {x : Except ε α}

theorem Ends.bind {f : α → Except ε β} {after : β → Prop} (first : Ends good bad x)
    (rest : ∀ a, good a → Ends after bad (f a)) : Ends after bad (x >>= f) := by
  cases x with
  | ok a => exact rest a first
  | error e => exact first

theorem Ends.weaken {good' : α → Prop} (ends : Ends good bad x)
    (post : ∀ a, good a → good' a) : Ends good' bad x := by
  cases x with
  | ok a => exact post a ends
  | error e => exact ends

theorem Ends.ne_error {e : ε} (ends : Ends good bad x) (other : ¬ bad e) : x ≠ .error e := by
  rintro rfl
  exact other ends

end Ends

/-- A run with checks: one of them stops it with `e`, or it is the other run. -/
def Stopped (e : ε) (x y : Except ε α) : Prop := x = .error e ∨ x = y

namespace Stopped

variable {e : ε} {x y : Except ε α}

theorem refl (x : Except ε α) : Stopped e x x := .inr rfl

theorem bind {f g : α → Except ε β} (first : Stopped e x y)
    (rest : ∀ a, Stopped e (f a) (g a)) : Stopped e (x >>= f) (y >>= g) := by
  rcases first with rfl | rfl
  · exact .inl rfl
  · cases x with
    | ok a => exact rest a
    | error e' => exact .inr rfl

theorem after {a : α} {f : α → Except ε β} {z : Except ε β} (first : Stopped e x (.ok a))
    (rest : Stopped e (f a) z) : Stopped e (x >>= f) z := by
  rcases first with rfl | rfl
  · exact .inl rfl
  · exact rest

end Stopped

end Netbase.Lib
