import Mathlib.Tactic
import Netbase.Text.Lines

/-!
# Expanding tabs

`expand` writes blanks for a tab up to the next stop: every eighth column without stops,
every multiple of a single stop, and else the next stop of the list, behind whose last one
a tab is one blank.
-/

namespace Netbase.Tabs

open Netbase.Text

/-- The stops that both programs accept. -/
structure TabStops where
  stops : List Nat
  positive : ∀ t ∈ stops, 0 < t
  increasing : stops.Pairwise (· < ·)

/-- The column behind `do { putchar(' '); column++; } while (more column)`. -/
def blanksWhile (more : Nat → Bool) : Nat → Nat → Nat
  | 0, column => column
  | fuel + 1, column =>
      if more (column + 1) then blanksWhile more fuel (column + 1) else column + 1

def stopsBehind (tabstops : List Nat) (column : Nat) : List Nat :=
  tabstops.dropWhile (· ≤ column)

def tab (tabstops : List Nat) (column : Nat) : Nat :=
  match tabstops with
  | [] => blanksWhile (fun column => column &&& 7 ≠ 0) 8 column
  | [t] => blanksWhile (fun column => (column - 1) % t ≠ t - 1) t column
  | tabstops =>
      match stopsBehind tabstops column with
      | [] => column + 1
      | t :: _ => t

/-- What is written for a text that starts in a column. -/
def expand (tabstops : List Nat) : Nat → List Byte → List Byte
  | _, [] => []
  | column, c :: text =>
      if c = byte '\t' then
        List.replicate (tab tabstops column - column) (byte ' ') ++
          expand tabstops (tab tabstops column) text
      else if c = byte '\x08' then c :: expand tabstops (column - 1) text
      else if c = byte '\n' then c :: expand tabstops 0 text
      else c :: expand tabstops (column + 1) text

/-! ## Single intervals -/

theorem blanksWhile_eq {more : Nat → Bool} {stop : Nat} (fuel : Nat) :
    ∀ {column : Nat}, column < stop → stop ≤ column + fuel →
      (∀ c, column < c → c < stop → more c = true) → more stop = false →
      blanksWhile more fuel column = stop := by
  induction fuel with
  | zero =>
      intro column before enough
      omega
  | succ fuel ih =>
      intro column before enough inside last
      rw [blanksWhile]
      by_cases here : column + 1 = stop
      · rw [here, last, if_neg (by simp)]
      · rw [inside (column + 1) (by omega) (by omega), if_pos rfl]
        exact ih (by omega) (by omega) (fun c above below => inside c (by omega) below) last

theorem column_lt_multiple {d : Nat} (positive : 0 < d) (column : Nat) :
    column < (1 + column / d) * d ∧ (1 + column / d) * d ≤ column + d := by
  have split := Nat.div_add_mod column d
  have part := Nat.mod_lt column positive
  have same : (1 + column / d) * d = d + d * (column / d) := by ring
  omega

theorem multiple_least {d column c : Nat} (above : column < c) (multiple : d ∣ c) :
    (1 + column / d) * d ≤ c := by
  obtain ⟨k, rfl⟩ := multiple
  have more : column / d < k := Nat.div_lt_of_lt_mul above
  rw [Nat.mul_comm]
  exact Nat.mul_le_mul_left d (by omega)

theorem pred_mod_eq {d c : Nat} (positive : 0 < d) (some : 0 < c) :
    (c - 1) % d = d - 1 ↔ d ∣ c := by
  obtain ⟨c, rfl⟩ : ∃ k, c = k + 1 := ⟨c - 1, by omega⟩
  rw [Nat.add_sub_cancel, Nat.dvd_iff_mod_eq_zero, Nat.add_mod]
  have part := Nat.mod_lt c positive
  by_cases one : d = 1
  · subst one
    simp [Nat.mod_one]
  · rw [Nat.mod_eq_of_lt (show 1 < d by omega)]
    constructor
    · intro last
      rw [last, Nat.sub_add_cancel positive, Nat.mod_self]
    · intro zero
      by_contra other
      rw [Nat.mod_eq_of_lt (by omega)] at zero
      omega

/-- The length of an interval where there are not several stops. -/
def dstop (tabstops : List Nat) : Nat :=
  match tabstops with
  | [] => 8
  | t :: _ => t

theorem TabStops.dstop_pos (s : TabStops) : 0 < dstop s.stops := by
  cases same : s.stops with
  | nil => exact Nat.zero_lt_succ 7
  | cons t rest => exact s.positive t (by simp [same])

theorem tab_interval (s : TabStops) (few : s.stops.length ≤ 1) (column : Nat) :
    tab s.stops column = (1 + column / dstop s.stops) * dstop s.stops := by
  have positive := s.dstop_pos
  obtain ⟨before, near⟩ := column_lt_multiple positive column
  have whole : dstop s.stops ∣ (1 + column / dstop s.stops) * dstop s.stops := Dvd.intro_left _ rfl
  match same : s.stops with
  | [] =>
      rw [same] at before near whole
      show blanksWhile (fun column => column &&& 7 ≠ 0) 8 column = _
      refine blanksWhile_eq 8 before near ?_ ?_
      · intro c above below
        have bits : c &&& 7 = c % 8 := Nat.and_two_pow_sub_one_eq_mod c 3
        have other : ¬ 8 ∣ c := fun multiple => by
          have := multiple_least above multiple
          simp only [dstop] at below
          omega
        simpa [bits, Nat.dvd_iff_mod_eq_zero] using other
      · have bits (c : Nat) : c &&& 7 = c % 8 := Nat.and_two_pow_sub_one_eq_mod c 3
        simp [bits, dstop]
  | [t] =>
      rw [same] at positive before near whole
      simp only [dstop] at positive before near whole ⊢
      show blanksWhile (fun column => (column - 1) % t ≠ t - 1) t column = _
      refine blanksWhile_eq t before near ?_ ?_
      · intro c above below
        have other : ¬ t ∣ c := fun multiple => by
          have := multiple_least above multiple
          omega
        simpa [pred_mod_eq positive (show 0 < c by omega)] using other
      · simpa using (pred_mod_eq positive (by omega)).mpr whole
  | _ :: _ :: _ => simp [same] at few

/-! ## Several stops -/

def lastStop (tabstops : List Nat) : Nat := tabstops.getLastD 0

def stopBefore (tabstops : List Nat) : Nat := tabstops.dropLast.getLastD 0

theorem exists_stops {tabstops : List Nat} (several : 1 < tabstops.length) :
    ∃ front, tabstops = front ++ [stopBefore tabstops, lastStop tabstops] := by
  obtain ⟨rest, t, rfl⟩ := List.eq_nil_or_concat tabstops |>.resolve_left
    (fun none => by simp [none] at several)
  obtain ⟨front, p, rfl⟩ := List.eq_nil_or_concat rest |>.resolve_left
    (fun none => by simp [none] at several)
  exact ⟨front, by simp [stopBefore, lastStop]⟩

theorem TabStops.stopBefore_lt (s : TabStops) (several : 1 < s.stops.length) :
    0 < stopBefore s.stops ∧ stopBefore s.stops < lastStop s.stops := by
  obtain ⟨front, split⟩ := exists_stops several
  have increasing := s.increasing
  rw [split, List.pairwise_append] at increasing
  have inside : stopBefore s.stops ∈ front ++ [stopBefore s.stops, lastStop s.stops] := by simp
  refine ⟨s.positive _ (by rwa [← split] at inside), ?_⟩
  simpa using increasing.2.1

theorem TabStops.stopsBehind_cases (s : TabStops) (several : 1 < s.stops.length)
    (column : Nat) :
    (∃ t u rest, stopsBehind s.stops column = t :: u :: rest ∧ column < t ∧
        t ≤ stopBefore s.stops) ∨
      (stopBefore s.stops ≤ column ∧ column < lastStop s.stops ∧
        stopsBehind s.stops column = [lastStop s.stops]) ∨
      (lastStop s.stops ≤ column ∧ stopsBehind s.stops column = []) := by
  obtain ⟨front, split⟩ := exists_stops several
  have increasing := s.increasing
  rw [split] at increasing
  generalize stopBefore s.stops = p at *
  generalize lastStop s.stops = last at *
  rw [split]
  clear split
  unfold stopsBehind
  induction front with
  | nil =>
      simp only [List.nil_append, List.dropWhile_cons, List.dropWhile_nil, decide_eq_true_eq]
      by_cases first : p ≤ column
      · rw [if_pos first]
        by_cases second : last ≤ column
        · rw [if_pos second]
          exact Or.inr (Or.inr ⟨second, rfl⟩)
        · rw [if_neg second]
          exact Or.inr (Or.inl ⟨first, by omega, rfl⟩)
      · rw [if_neg first]
        exact Or.inl ⟨p, last, [], rfl, by omega, Nat.le_refl p⟩
  | cons t front ih =>
      rw [List.cons_append, List.pairwise_cons] at increasing
      rw [List.cons_append, List.dropWhile_cons]
      by_cases first : t ≤ column
      · rw [if_pos (by simpa using first)]
        exact ih increasing.2
      · rw [if_neg (by simpa using first)]
        have below : t < p := increasing.1 p (by simp)
        obtain ⟨u, rest, more⟩ : ∃ u rest, front ++ [p, last] = u :: rest := by
          cases front with
          | nil => exact ⟨p, [last], rfl⟩
          | cons u front => exact ⟨u, front ++ [p, last], rfl⟩
        exact Or.inl ⟨t, u, rest, by rw [more], by omega, by omega⟩

/-- Behind the first of the stops that are left the others are left. -/
theorem stopsBehind_next {tabstops : List Nat} (increasing : tabstops.Pairwise (· < ·))
    {column t : Nat} {rest : List Nat} (same : stopsBehind tabstops column = t :: rest) :
    stopsBehind tabstops t = rest := by
  unfold stopsBehind at same ⊢
  induction tabstops with
  | nil => cases same
  | cons u tabstops ih =>
      rw [List.pairwise_cons] at increasing
      rw [List.dropWhile_cons] at same ⊢
      split at same
      · have inside : t ∈ tabstops :=
          (List.dropWhile_suffix _).subset (same ▸ List.mem_cons_self)
        have behind := increasing.1 t inside
        rw [if_pos (by simpa using behind.le)]
        exact ih increasing.2 same
      · cases same
        rw [if_pos (by simp)]
        cases rest with
        | nil => rfl
        | cons v rest =>
            have behind := increasing.1 v List.mem_cons_self
            rw [List.dropWhile_cons, if_neg (by simpa using behind)]

theorem tab_several {tabstops : List Nat} (several : 1 < tabstops.length) (column : Nat) :
    tab tabstops column = (stopsBehind tabstops column).headD (column + 1) := by
  match tabstops with
  | [] => simp at several
  | [_] => simp at several
  | _ :: _ :: _ =>
      rw [tab.eq_3 _ _ (by simp) (by simp)]
      cases stopsBehind _ column with
      | nil => rfl
      | cons t rest => rfl

theorem lt_tab (s : TabStops) (column : Nat) : column < tab s.stops column := by
  by_cases few : s.stops.length ≤ 1
  · rw [tab_interval s few]
    exact (column_lt_multiple s.dstop_pos column).1
  · have several : 1 < s.stops.length := by omega
    rw [tab_several several]
    rcases s.stopsBehind_cases several column with
      ⟨t, u, rest, same, before, _⟩ | ⟨_, before, same⟩ | ⟨_, same⟩ <;> rw [same]
    · exact before
    · exact before
    · exact Nat.lt_succ_self column

theorem tab_last (s : TabStops) (several : 1 < s.stops.length) {column : Nat}
    (behind : stopBefore s.stops ≤ column) :
    tab s.stops column = max (lastStop s.stops) (column + 1) := by
  rw [tab_several several]
  rcases s.stopsBehind_cases several column with
    ⟨t, u, rest, same, before, low⟩ | ⟨_, before, same⟩ | ⟨past, same⟩ <;> rw [same]
  · omega
  · simp only [List.headD_cons]
    omega
  · simp only [List.headD_nil]
    omega

/-! ## Blanks and lines -/

/-- The column behind a text without backspaces and newlines. -/
def columnAfter (tabstops : List Nat) (column : Nat) (text : List Byte) : Nat :=
  text.foldl (fun column c => if c = byte '\t' then tab tabstops column else column + 1) column

theorem le_columnAfter (s : TabStops) (text : List Byte) :
    ∀ column, column ≤ columnAfter s.stops column text := by
  induction text with
  | nil => exact fun column => Nat.le_refl column
  | cons c text ih =>
      intro column
      refine Nat.le_trans ?_ (ih _)
      show column ≤ if c = byte '\t' then tab s.stops column else column + 1
      split
      · exact (lt_tab s column).le
      · exact Nat.le_succ column

/-- Tabs and spaces become as many blanks as they take columns. -/
theorem expand_blanks (s : TabStops) (text : List Byte) {run : List Byte} :
    ∀ {column : Nat}, (∀ c ∈ run, c = byte ' ' ∨ c = byte '\t') →
      expand s.stops column (run ++ text) =
        List.replicate (columnAfter s.stops column run - column) (byte ' ') ++
          expand s.stops (columnAfter s.stops column run) text := by
  induction run with
  | nil =>
      intro column _
      simp [columnAfter]
  | cons c run ih =>
      intro column blank
      have rest (next : Nat) : expand s.stops next (run ++ text) = _ :=
        ih fun c inside => blank c (by simp [inside])
      have further := le_columnAfter s run
      rcases blank c (by simp) with rfl | rfl
      · have same : columnAfter s.stops column (byte ' ' :: run) =
            columnAfter s.stops (column + 1) run := rfl
        have one : expand s.stops column (byte ' ' :: run ++ text) =
            byte ' ' :: expand s.stops (column + 1) (run ++ text) := by
          rw [List.cons_append, expand, if_neg (by decide), if_neg (by decide),
            if_neg (by decide)]
        have more := further (column + 1)
        rw [one, rest, same, ← List.cons_append, ← List.replicate_succ]
        congr 2
        omega
      · have same : columnAfter s.stops column (byte '\t' :: run) =
            columnAfter s.stops (tab s.stops column) run := rfl
        have more := further (tab s.stops column)
        have before := lt_tab s column
        rw [List.cons_append, expand, if_pos rfl, rest, same, ← List.append_assoc,
          List.replicate_append_replicate]
        congr 2
        omega

/-- A byte of a line that is neither a backspace nor a newline. -/
def Plain (c : Byte) : Prop := c ≠ byte '\x08' ∧ c ≠ byte '\n'

instance (c : Byte) : Decidable (Plain c) := inferInstanceAs (Decidable (_ ∧ _))

theorem expand_other {tabstops : List Nat} {column : Nat} {c : Byte} {text : List Byte}
    (plain : Plain c) (other : c ≠ byte '\t') :
    expand tabstops column (c :: text) = c :: expand tabstops (column + 1) text := by
  rw [expand, if_neg other, if_neg plain.1, if_neg plain.2]

theorem expand_length (s : TabStops) (several : 1 < s.stops.length) {body : List Byte} :
    ∀ {column : Nat}, (∀ c ∈ body, Plain c) → lastStop s.stops ≤ column + 1 →
      (expand s.stops column (body ++ [byte '\n'])).length = body.length + 1 := by
  induction body with
  | nil =>
      intro column _ _
      have newline : byte '\n' ≠ byte '\t' ∧ byte '\n' ≠ byte '\x08' := by decide
      rw [List.nil_append, expand, if_neg newline.1, if_neg newline.2, if_pos rfl]
      rfl
  | cons c body ih =>
      intro column plain near
      have rest (next : Nat) (near : lastStop s.stops ≤ next + 1) :
          (expand s.stops next (body ++ [byte '\n'])).length = _ :=
        ih (fun c inside => plain c (by simp [inside])) near
      rw [List.cons_append]
      by_cases tabbed : c = byte '\t'
      · have order := (s.stopBefore_lt several).2
        have next : tab s.stops column = column + 1 := by
          rw [tab_last s several (by omega)]
          omega
        rw [expand, if_pos tabbed, next, List.length_append, List.length_replicate,
          rest (column + 1) (by omega), List.length_cons]
        omega
      · rw [expand_other (plain c (by simp)) tabbed, List.length_cons,
          rest (column + 1) (by omega), List.length_cons]

end Netbase.Tabs
