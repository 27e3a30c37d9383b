import Mathlib.Data.List.Basic

/-!
# Matching with wildcards

A pattern is a list of pieces: a piece that takes one symbol of a set, or a star
that absorbs any number of symbols.  A scan that falls back to the most recent star
only, and lets it absorb one more symbol, accepts what the recursive definition
accepts: an older star never has to absorb more, since what it would gain the newer
one absorbs as well.
-/

namespace Netbase.Lib.Wildcard

inductive Piece (ι : Type) where
  | star
  | one (i : ι)

/-- A star and where it goes on: the pieces behind it and the text that is left when it absorbs
one symbol more, if there is one more. -/
structure Back (ι α : Type) where
  rest : List (Piece ι)
  next : Option (List α)

/-- The text behind one symbol. -/
def behind {α : Type} : List α → Option (List α)
  | [] => none
  | _ :: t => some t

variable {ι α : Type} (accepts : ι → α → Bool)

/-- The recursive definition of matching. -/
def Matches : List (Piece ι) → List α → Prop
  | [], s => s = []
  | .one i :: ps, s => ∃ c t, s = c :: t ∧ accepts i c = true ∧ Matches ps t
  | .star :: ps, s => ∃ k, Matches ps (s.drop k)

def resume (go : List (Piece ι) → List α → Option (Back ι α) → Option Bool) :
    Option (Back ι α) → Option Bool
  | some ⟨rest, some next⟩ => go (.star :: rest) next (some ⟨rest, some next⟩)
  | _ => some false

/-- The scan, with a bound on its steps. -/
def scan : Nat → List (Piece ι) → List α → Option (Back ι α) → Option Bool
  | 0, _, _, _ => none
  | _ + 1, [], [], _ => some true
  | fuel + 1, [], _ :: _, back => resume (scan fuel) back
  | fuel + 1, .one _ :: _, [], back => resume (scan fuel) back
  | fuel + 1, .one i :: ps, c :: t, back =>
      if accepts i c then scan fuel ps t back else resume (scan fuel) back
  | fuel + 1, .star :: ps, s, _ => scan fuel ps s (some ⟨ps, behind s⟩)

variable {accepts} {ps : List (Piece ι)} {s t : List α}

/-- A star absorbs nothing, or one symbol and then it goes on. -/
theorem matches_star_iff : Matches accepts (.star :: ps) s ↔
    Matches accepts ps s ∨ ∃ t, behind s = some t ∧ Matches accepts (.star :: ps) t := by
  constructor
  · rintro ⟨k, matched⟩
    cases k with
    | zero => exact Or.inl matched
    | succ k =>
        cases s with
        | nil => exact Or.inl (by simpa using matched)
        | cons c s => exact Or.inr ⟨s, rfl, k, matched⟩
  · rintro (matched | ⟨t, rest, k, matched⟩)
    · exact ⟨0, matched⟩
    · cases s with
      | nil => cases rest
      | cons c s =>
          cases rest
          exact ⟨k + 1, matched⟩

theorem matches_star_of_drop {k : Nat} (matched : Matches accepts (.star :: ps) (s.drop k)) :
    Matches accepts (.star :: ps) s := by
  obtain ⟨j, matched⟩ := matched
  rw [List.drop_drop] at matched
  exact ⟨k + j, matched⟩

/-- Pieces that take one symbol each leave the text behind as many symbols. -/
theorem matches_behind_ones : ∀ {w : List ι} {s : List α},
    Matches accepts (w.map .one ++ ps) s → Matches accepts ps (s.drop w.length) := by
  intro w
  induction w with
  | nil => exact fun matched => matched
  | cons i w ih =>
      rintro s ⟨c, t, rfl, _, matched⟩
      exact ih matched

/-- What is known of the star to fall back to: only pieces for one symbol each have been passed
since it absorbed what it has. -/
def Tracked (ps : List (Piece ι)) (s : List α) : Option (Back ι α) → Prop
  | none => True
  | some back => ∃ (w : List ι) (from_ : List α),
      back.rest = w.map .one ++ ps ∧ back.next = behind from_ ∧ s = from_.drop w.length

/-- The pattern can still match, here or after falling back. -/
def Alive (accepts : ι → α → Bool) (ps : List (Piece ι)) (s : List α) (back : Option (Back ι α)) :
    Prop :=
  Matches accepts ps s ∨
    ∃ rest next, back = some ⟨rest, some next⟩ ∧ Matches accepts (.star :: rest) next

/-- How often the scan can still fall back. -/
def reach (s : List α) : Option (Back ι α) → Nat
  | none => s.length + 1
  | some ⟨_, none⟩ => 0
  | some ⟨_, some next⟩ => next.length + 1

theorem reach_behind (rest : List (Piece ι)) (s t : List α) :
    reach t (some (⟨rest, behind s⟩ : Back ι α)) = s.length := by
  cases s <;> rfl

theorem alive_at_star {back : Option (Back ι α)} (tracked : Tracked (.star :: ps) s back) :
    Alive accepts (.star :: ps) s back ↔ Matches accepts (.star :: ps) s := by
  refine ⟨?_, Or.inl⟩
  rintro (matched | ⟨rest, next, rfl, k, matched⟩)
  · exact matched
  · obtain ⟨w, from_, passed, left, rfl⟩ := tracked
    cases from_ with
    | nil => cases left
    | cons c u =>
        cases left
        dsimp only at passed
        rw [passed] at matched
        have later := matches_behind_ones matched
        rw [List.drop_drop] at later
        refine matches_star_of_drop (k := k + 1) ?_
        rw [List.drop_drop, show w.length + (k + 1) = (k + w.length) + 1 by omega]
        exact later

theorem alive_new_star : Alive accepts ps s (some ⟨ps, behind s⟩) ↔
    Matches accepts (.star :: ps) s := by
  rw [matches_star_iff, Alive]
  refine or_congr_right ⟨?_, ?_⟩
  · rintro ⟨rest, next, same, matched⟩
    injection same with same
    injection same with pieces texts
    subst pieces
    exact ⟨next, texts, matched⟩
  · rintro ⟨t, left, matched⟩
    exact ⟨ps, t, by rw [left], matched⟩

theorem Tracked.next {i : ι} {c : α} {back : Option (Back ι α)}
    (tracked : Tracked (.one i :: ps) (c :: t) back) : Tracked ps t back := by
  cases back with
  | none => trivial
  | some back =>
      obtain ⟨w, from_, passed, left, text⟩ := tracked
      refine ⟨w ++ [i], from_, by simp [passed], left, ?_⟩
      rw [List.length_append, List.length_singleton, ← List.drop_drop, ← text]
      rfl

/-- The text at a star is no longer than what the older star began at. -/
theorem Tracked.length_le {back : Option (Back ι α)} (tracked : Tracked ps s back) :
    s.length ≤ reach s back := by
  cases back with
  | none => exact Nat.le_succ _
  | some back =>
      obtain ⟨w, from_, passed, left, text⟩ := tracked
      obtain ⟨rest, next⟩ := back
      dsimp only at left
      rw [left, reach_behind, text, List.length_drop]
      exact Nat.sub_le _ _

theorem tracked_new_star : Tracked ps s (some ⟨ps, behind s⟩) := ⟨[], s, rfl, rfl, rfl⟩

theorem reach_tail_le (c : α) (t : List α) (back : Option (Back ι α)) :
    reach t back ≤ reach (c :: t) back := by
  rcases back with _ | ⟨rest, _ | next⟩
  · exact Nat.le_succ _
  · exact Nat.le_refl _
  · exact Nat.le_refl _

/-- The number of steps that is enough, where no list of pieces is longer than `n`. -/
def enough (n : Nat) (ps : List (Piece ι)) (s : List α) (back : Option (Back ι α)) : Nat :=
  (n + 3) * reach s back + ps.length + 1

theorem scan_alive (accepts : ι → α → Bool) {n : Nat} :
    ∀ fuel ps (s : List α) (back : Option (Back ι α)),
    enough n ps s back ≤ fuel → ps.length ≤ n → (∀ b, back = some b → b.rest.length ≤ n) →
    Tracked ps s back →
    ∃ result, scan accepts fuel ps s back = some result ∧
      (result = true ↔ Alive accepts ps s back) := by
  intro fuel
  induction fuel using Nat.strongRecOn with
  | ind fuel ih =>
      intro ps s back steps short shortBack tracked
      obtain ⟨fuel, rfl⟩ : ∃ f, fuel = f + 1 := ⟨fuel - 1, by unfold enough at steps; omega⟩
      have steps' : (n + 3) * reach s back + ps.length ≤ fuel := by unfold enough at steps; omega
      -- where nothing matches here, the scan goes on behind the star or fails
      have resumed : ¬ Matches accepts ps s → ∃ result,
          resume (scan accepts fuel) back = some result ∧
            (result = true ↔ Alive accepts ps s back) := by
        intro fails
        rcases back with _ | ⟨rest, _ | next⟩
        · exact ⟨false, rfl, iff_of_false Bool.false_ne_true (by simp [Alive, fails])⟩
        · exact ⟨false, rfl, iff_of_false Bool.false_ne_true (by simp [Alive, fails])⟩
        · have room : (n + 3) * next.length + (n + 3) ≤ fuel := by
            simp only [reach, Nat.mul_add, Nat.mul_one] at steps'
            omega
          obtain ⟨fuel, rfl⟩ : ∃ f, fuel = f + 1 := ⟨fuel - 1, by omega⟩
          have shortRest : rest.length ≤ n := shortBack _ rfl
          obtain ⟨result, run, found⟩ := ih fuel (by omega) rest next (some ⟨rest, behind next⟩)
            (by unfold enough; rw [reach_behind]; omega) shortRest
            (by rintro b ⟨⟩; exact shortRest) tracked_new_star
          refine ⟨result, run, found.trans ?_⟩
          rw [alive_new_star]
          simp [Alive, fails]
      cases ps with
      | nil =>
          cases s with
          | nil => exact ⟨true, rfl, iff_of_true rfl (Or.inl rfl)⟩
          | cons c t => exact resumed fun matched => by cases matched
      | cons p ps =>
          cases p with
          | one i =>
              cases s with
              | nil => exact resumed fun ⟨c, t, empty, _⟩ => by cases empty
              | cons c t =>
                  have here : Matches accepts (.one i :: ps) (c :: t) ↔
                      accepts i c = true ∧ Matches accepts ps t := by
                    constructor
                    · rintro ⟨d, u, same, taken⟩
                      cases same
                      exact taken
                    · exact fun taken => ⟨c, t, rfl, taken⟩
                  rw [scan]
                  by_cases taken : accepts i c = true
                  · rw [if_pos taken]
                    obtain ⟨result, run, found⟩ := ih fuel (by omega) ps t back
                      (by
                        have less := Nat.mul_le_mul_left (n + 3) (reach_tail_le c t back)
                        simp only [List.length_cons] at steps'
                        unfold enough
                        omega)
                      (by simp only [List.length_cons] at short; omega)
                      shortBack tracked.next
                    refine ⟨result, run, found.trans ?_⟩
                    rw [Alive, Alive, here, and_iff_right taken]
                  · rw [if_neg taken]
                    exact resumed fun matched => taken (here.mp matched).1
          | star =>
              have shortRest : ps.length ≤ n := by simp only [List.length_cons] at short; omega
              obtain ⟨result, run, found⟩ := ih fuel (by omega) ps s (some ⟨ps, behind s⟩)
                (by
                  have less := Nat.mul_le_mul_left (n + 3) tracked.length_le
                  simp only [List.length_cons] at steps'
                  unfold enough
                  rw [reach_behind]
                  omega)
                shortRest (by rintro b ⟨⟩; exact shortRest) tracked_new_star
              refine ⟨result, run, found.trans ?_⟩
              rw [alive_new_star, alive_at_star tracked]

theorem scan_matches (accepts : ι → α → Bool) (ps : List (Piece ι)) (s : List α) (fuel : Nat)
    (steps : (ps.length + 3) * (s.length + 1) + ps.length + 1 ≤ fuel) :
    ∃ result, scan accepts fuel ps s none = some result ∧
      (result = true ↔ Matches accepts ps s) := by
  obtain ⟨result, run, found⟩ := scan_alive accepts (n := ps.length) fuel ps s none
    steps (Nat.le_refl _) (fun b impossible => by cases impossible) trivial
  refine ⟨result, run, found.trans ?_⟩
  simp [Alive]

/-! ## The places a scan comes to -/

theorem matches_append {front : List (Piece ι)} : ∀ {u : List α}, Matches accepts front u →
    Matches accepts ps s → Matches accepts (front ++ ps) (u ++ s) := by
  induction front with
  | nil =>
      rintro u rfl matched
      exact matched
  | cons piece front ih =>
      intro u first matched
      cases piece with
      | one i =>
          obtain ⟨c, v, rfl, taken, first⟩ := first
          exact ⟨c, v ++ s, rfl, taken, ih first matched⟩
      | star =>
          obtain ⟨k, first⟩ := first
          refine ⟨min k u.length, ?_⟩
          have dropped : u.drop (min k u.length) = u.drop k := by
            rcases Nat.le_total k u.length with less | greater
            · rw [Nat.min_eq_left less]
            · rw [Nat.min_eq_right greater, List.drop_length, List.drop_eq_nil_of_le greater]
          show Matches accepts (front ++ ps) ((u ++ s).drop (min k u.length))
          rw [List.drop_append_of_le_length (Nat.min_le_right _ _), dropped]
          exact ih first matched

/-- The pieces `ps` are compared with `s`, since those in front of them have taken the text in
front of it. -/
def Reached (accepts : ι → α → Bool) (whole : List (Piece ι)) (text : List α)
    (ps : List (Piece ι)) (s : List α) : Prop :=
  ∃ front u, whole = front ++ ps ∧ text = u ++ s ∧ Matches accepts front u

/-- A star in front of `ps` goes on absorbing at `s`. -/
def Absorbing (accepts : ι → α → Bool) (whole : List (Piece ι)) (text : List α)
    (ps : List (Piece ι)) (s : List α) : Prop :=
  ∃ front u w, whole = front ++ .star :: ps ∧ text = u ++ w ++ s ∧ Matches accepts front u

variable {whole : List (Piece ι)} {text : List α}

theorem reached_start : Reached accepts whole text whole text := ⟨[], [], rfl, rfl, rfl⟩

theorem Reached.next {i : ι} {c : α} (reached : Reached accepts whole text (.one i :: ps) (c :: t))
    (taken : accepts i c = true) : Reached accepts whole text ps t := by
  obtain ⟨front, u, pieces, split, matched⟩ := reached
  have here : Matches accepts [.one i] [c] := ⟨c, [], rfl, taken, rfl⟩
  exact ⟨front ++ [.one i], u ++ [c], by simp [pieces], by simp [split],
    matches_append matched here⟩

theorem Reached.absorbing (reached : Reached accepts whole text (.star :: ps) s) :
    Absorbing accepts whole text ps s := by
  obtain ⟨front, u, pieces, split, matched⟩ := reached
  exact ⟨front, u, [], pieces, by rw [List.append_nil, split], matched⟩

theorem Absorbing.reached (absorbing : Absorbing accepts whole text ps s) :
    Reached accepts whole text ps s := by
  obtain ⟨front, u, w, pieces, split, matched⟩ := absorbing
  have all : Matches accepts [.star] w := ⟨w.length, List.drop_length⟩
  exact ⟨front ++ [.star], u ++ w, by simp [pieces], split, matches_append matched all⟩

theorem Absorbing.behind (absorbing : Absorbing accepts whole text ps s)
    (left : Wildcard.behind s = some t) : Absorbing accepts whole text ps t := by
  obtain ⟨front, u, w, pieces, split, matched⟩ := absorbing
  cases s with
  | nil => cases left
  | cons c s =>
      cases left
      exact ⟨front, u, w ++ [c], pieces, by simp [split], matched⟩

end Netbase.Lib.Wildcard
