import Netbase.Tabs.Expand

/-!
# Putting tabs in

`tabify` counts the column that the blanks lead to and writes tabs and spaces for it in
front of the next other character.  With several stops a tab behind the one before the last
is such a character, and counts for one column.  Behind the limit the line is copied.
-/

namespace Netbase.Tabs

open Netbase.Text

def limit (tabstops : List Nat) : Nat :=
  if tabstops.length ≤ 1 then 4294967295 else lastStop tabstops - 1

/-- The column that a blank is counted to, unless it is written as it is. -/
def counted (tabstops : List Nat) (dcol : Nat) (c : Byte) : Option Nat :=
  if c = byte ' ' then some (dcol + 1)
  else if c = byte '\t' then
    if tabstops.length ≤ 1 then some ((1 + dcol / dstop tabstops) * dstop tabstops)
    else
      match stopsBehind tabstops dcol with
      | t :: _ :: _ => if t - 1 < limit tabstops then some t else none
      | _ => none
  else none

/-- The tabs of a single interval, and the column behind them. -/
def intervalTabs (dstop dcol : Nat) : Nat → Nat → List Byte × Nat
  | 0, ocol => ([], ocol)
  | fuel + 1, ocol =>
      if (ocol + dstop) / dstop ≤ dcol / dstop then
        if dcol - ocol < 2 then ([], ocol)
        else
          let rest := intervalTabs dstop dcol fuel ((1 + ocol / dstop) * dstop)
          (byte '\t' :: rest.1, rest.2)
      else ([], ocol)

/-- The tabs of several stops, and the column behind them. -/
def stopTabs (dcol limit : Nat) : List Nat → Nat → List Byte × Nat
  | [], ocol => ([], ocol)
  | t :: stops, ocol =>
      if t ≤ dcol ∧ ocol < dcol ∧ ocol < limit then
        let rest := stopTabs dcol limit stops t
        (byte '\t' :: rest.1, rest.2)
      else ([], ocol)

/-- What is written for the blanks, and the column behind it. -/
def output (tabstops : List Nat) (dcol ocol : Nat) : List Byte × Nat :=
  let tabs :=
    if tabstops.length ≤ 1 then intervalTabs (dstop tabstops) dcol (dcol - ocol) ocol
    else stopTabs dcol (limit tabstops) (stopsBehind tabstops ocol) ocol
  let spaces := min dcol (limit tabstops) - tabs.2
  (tabs.1 ++ List.replicate spaces (byte ' '), tabs.2 + spaces)

/-- The rest of a line; `all` is the option for more than its first blanks. -/
def tabify (all : Bool) (tabstops : List Nat) : Nat → Nat → List Byte → List Byte
  | _, _, [] => []
  | dcol, ocol, c :: p =>
      match counted tabstops dcol c with
      | some dcol => tabify all tabstops dcol ocol p
      | none =>
          let out := output tabstops dcol ocol
          let moved :=
            if c = byte '\x08' then
              if 0 < out.2 then (dcol - 1, out.2 - 1) else (dcol, out.2)
            else (dcol + 1, out.2 + 1)
          out.1 ++ c ::
            if all && moved.1 < limit tabstops then tabify all tabstops moved.1 moved.2 p else p

/-! ## What is counted -/

theorem counted_space (tabstops : List Nat) (dcol : Nat) :
    counted tabstops dcol (byte ' ') = some (dcol + 1) := if_pos rfl

theorem counted_other {tabstops : List Nat} {dcol : Nat} {c : Byte} (space : c ≠ byte ' ')
    (tabbed : c ≠ byte '\t') : counted tabstops dcol c = none := by
  rw [counted, if_neg space, if_neg tabbed]

theorem counted_interval (s : TabStops) (few : s.stops.length ≤ 1) (dcol : Nat) :
    counted s.stops dcol (byte '\t') = some (tab s.stops dcol) := by
  rw [counted, if_neg (by decide), if_pos rfl, if_pos few, tab_interval s few]

theorem limit_several {tabstops : List Nat} (several : 1 < tabstops.length) :
    limit tabstops = lastStop tabstops - 1 := if_neg (by omega)

theorem TabStops.limit_pos (s : TabStops) : 0 < limit s.stops := by
  by_cases few : s.stops.length ≤ 1
  · rw [limit, if_pos few]
    decide
  · have order := s.stopBefore_lt (show 1 < s.stops.length by omega)
    rw [limit, if_neg few]
    omega

theorem counted_several (s : TabStops) (several : 1 < s.stops.length) (dcol : Nat) :
    counted s.stops dcol (byte '\t') =
      if dcol < stopBefore s.stops then some (tab s.stops dcol) else none := by
  have order := (s.stopBefore_lt several).2
  rw [counted, if_neg (by decide), if_pos rfl, if_neg (by omega), tab_several several,
    limit_several several]
  rcases s.stopsBehind_cases several dcol with
    ⟨t, u, rest, same, before, low⟩ | ⟨behind, _, same⟩ | ⟨past, same⟩ <;> rw [same]
  · simp only
    rw [if_pos (by omega), if_pos (by omega)]
    rfl
  · rw [if_neg (by omega)]
  · rw [if_neg (by omega)]

theorem counted_some (s : TabStops) {dcol next : Nat} {c : Byte}
    (count : counted s.stops dcol c = some next) :
    (c = byte ' ' ∨ c = byte '\t') ∧ next = columnAfter s.stops dcol [c] := by
  by_cases space : c = byte ' '
  · subst space
    rw [counted_space] at count
    exact ⟨Or.inl rfl, (Option.some.inj count).symm⟩
  · by_cases tabbed : c = byte '\t'
    · subst tabbed
      refine ⟨Or.inr rfl, ?_⟩
      by_cases few : s.stops.length ≤ 1
      · rw [counted_interval s few] at count
        exact (Option.some.inj count).symm
      · rw [counted_several s (by omega)] at count
        split at count
        · exact (Option.some.inj count).symm
        · cases count
    · rw [counted_other space tabbed] at count
      cases count

theorem columnAfter_append (tabstops : List Nat) (column : Nat) (front text : List Byte) :
    columnAfter tabstops column (front ++ text) =
      columnAfter tabstops (columnAfter tabstops column front) text :=
  List.foldl_append

theorem columnAfter_spaces (tabstops : List Nat) (n : Nat) :
    ∀ column, columnAfter tabstops column (List.replicate n (byte ' ')) = column + n := by
  induction n with
  | zero => exact fun column => rfl
  | succ n ih =>
      intro column
      have rest := ih (column + 1)
      rw [List.replicate_succ]
      show columnAfter tabstops (column + 1) (List.replicate n (byte ' ')) = _
      omega

/-! ## What is written for the blanks -/

theorem intervalTabs_blank (d dcol fuel : Nat) :
    ∀ {ocol : Nat}, ∀ c ∈ (intervalTabs d dcol fuel ocol).1, c = byte '\t' := by
  induction fuel with
  | zero => exact fun _ inside => absurd inside List.not_mem_nil
  | succ fuel ih =>
      intro ocol c inside
      rw [intervalTabs] at inside
      split at inside
      · split at inside
        · exact absurd inside List.not_mem_nil
        · rcases List.mem_cons.mp inside with same | more
          · exact same
          · exact ih c more
      · exact absurd inside List.not_mem_nil

theorem stopTabs_blank (dcol limit : Nat) (stops : List Nat) :
    ∀ {ocol : Nat}, ∀ c ∈ (stopTabs dcol limit stops ocol).1, c = byte '\t' := by
  induction stops with
  | nil => exact fun _ inside => absurd inside List.not_mem_nil
  | cons t stops ih =>
      intro ocol c inside
      rw [stopTabs] at inside
      split at inside
      · rcases List.mem_cons.mp inside with same | more
        · exact same
        · exact ih c more
      · exact absurd inside List.not_mem_nil

theorem output_blank (tabstops : List Nat) (dcol ocol : Nat) :
    ∀ c ∈ (output tabstops dcol ocol).1, c = byte ' ' ∨ c = byte '\t' := by
  intro c inside
  rcases List.mem_append.mp inside with tabs | spaces
  · split at tabs
    · exact Or.inr (intervalTabs_blank _ _ _ c tabs)
    · exact Or.inr (stopTabs_blank _ _ _ c tabs)
  · exact Or.inl (List.eq_of_mem_replicate spaces)

theorem intervalTabs_column (s : TabStops) (few : s.stops.length ≤ 1) (dcol fuel : Nat) :
    ∀ {ocol : Nat}, ocol ≤ dcol → dcol ≤ ocol + fuel →
      let tabs := intervalTabs (dstop s.stops) dcol fuel ocol
      columnAfter s.stops ocol tabs.1 = tabs.2 ∧ ocol ≤ tabs.2 ∧ tabs.2 ≤ dcol ∧
        (dcol / dstop s.stops ≤ tabs.2 / dstop s.stops ∨ dcol < tabs.2 + 2) ∧
        (tabs.2 = ocol ∨ dstop s.stops ∣ tabs.2 ∧ (dstop s.stops = 1 → tabs.2 < dcol)) := by
  have positive := s.dstop_pos
  induction fuel with
  | zero =>
      intro ocol le enough
      exact ⟨rfl, Nat.le_refl _, le, Or.inr (by simp only [intervalTabs]; omega), Or.inl rfl⟩
  | succ fuel ih =>
      intro ocol le enough
      have quotient : (ocol + dstop s.stops) / dstop s.stops = ocol / dstop s.stops + 1 :=
        Nat.add_div_right ocol positive
      obtain ⟨further, near⟩ := column_lt_multiple positive ocol
      rw [intervalTabs, quotient]
      by_cases room : ocol / dstop s.stops + 1 ≤ dcol / dstop s.stops
      · rw [if_pos room]
        by_cases close : dcol - ocol < 2
        · rw [if_pos close]
          exact ⟨rfl, Nat.le_refl _, le, Or.inr (by simp only; omega), Or.inl rfl⟩
        · rw [if_neg close]
          have inside : (1 + ocol / dstop s.stops) * dstop s.stops ≤ dcol := by
            rw [Nat.add_comm]
            exact (Nat.mul_le_mul_right _ room).trans (Nat.div_mul_le_self dcol _)
          obtain ⟨column, above, below, stops, last⟩ := ih inside (by omega)
          refine ⟨?_, Nat.le_trans (Nat.le_of_lt further) above, below, stops, ?_⟩
          · have first : columnAfter s.stops ocol [byte '\t'] =
                (1 + ocol / dstop s.stops) * dstop s.stops := (tab_interval s few ocol)
            have all := columnAfter_append s.stops ocol [byte '\t']
            simp only [List.singleton_append] at all
            rw [all, first, column]
          · rcases last with same | more
            · refine Or.inr ⟨?_, fun one => ?_⟩
              · simp only [same]
                exact Dvd.intro_left _ rfl
              · simp only [same]
                omega
            · exact Or.inr more
      · rw [if_neg room]
        exact ⟨rfl, Nat.le_refl _, le, Or.inl (by simp only; omega), Or.inl rfl⟩

/-- The last column that is reached in front of the limit: the last stop, unless the tab to
the stop before it leads to the limit. -/
def reach (tabstops : List Nat) : Nat :=
  if stopBefore tabstops + 1 < lastStop tabstops then lastStop tabstops
  else lastStop tabstops - 1

theorem stopTabs_column (s : TabStops) (several : 1 < s.stops.length) (dcol : Nat)
    (stops : List Nat) :
    ∀ {ocol : Nat}, stops = stopsBehind s.stops ocol → ocol ≤ dcol → ocol ≤ reach s.stops →
      (ocol < limit s.stops ∨ ocol ≤ stopBefore s.stops ∨ ocol = lastStop s.stops) →
      let tabs := stopTabs dcol (limit s.stops) stops ocol
      columnAfter s.stops ocol tabs.1 = tabs.2 ∧
        tabs.2 + (min dcol (limit s.stops) - tabs.2) = min dcol (reach s.stops) := by
  obtain ⟨first, order⟩ := s.stopBefore_lt several
  have bound := limit_several several
  have top : reach s.stops = lastStop s.stops ∧ stopBefore s.stops + 1 < lastStop s.stops ∨
      reach s.stops = lastStop s.stops - 1 ∧ lastStop s.stops ≤ stopBefore s.stops + 1 := by
    unfold reach
    split <;> omega
  induction stops with
  | nil =>
      intro ocol same le low place
      refine ⟨rfl, ?_⟩
      rcases s.stopsBehind_cases several ocol with
        ⟨t, u, rest, more, _, _⟩ | ⟨_, _, more⟩ | ⟨past, _⟩
      · cases same.trans more
      · cases same.trans more
      · simp only [stopTabs]
        omega
  | cons t stops ih =>
      intro ocol same le low place
      have next : tab s.stops ocol = t := by rw [tab_several several, ← same]; rfl
      have rest : stops = stopsBehind s.stops t :=
        (stopsBehind_next s.increasing same.symm).symm
      have stop : t ≤ stopBefore s.stops ∨ stopBefore s.stops ≤ ocol ∧ t = lastStop s.stops := by
        rcases s.stopsBehind_cases several ocol with
          ⟨t', u, rest, more, _, low⟩ | ⟨behind, _, more⟩ | ⟨_, more⟩
        · cases same.trans more
          exact Or.inl low
        · cases same.trans more
          exact Or.inr ⟨behind, rfl⟩
        · cases same.trans more
      rw [stopTabs]
      by_cases room : t ≤ dcol ∧ ocol < dcol ∧ ocol < limit s.stops
      · rw [if_pos room]
        obtain ⟨column, result⟩ := ih rest room.1 (by omega) (by omega)
        refine ⟨?_, result⟩
        have all := columnAfter_append s.stops ocol [byte '\t']
        simp only [List.singleton_append] at all
        have one : columnAfter s.stops ocol [byte '\t'] = t := next
        rw [all, one, column]
      · rw [if_neg room]
        refine ⟨rfl, ?_⟩
        simp only
        omega

/-- Blanks that lead to a column are not all written: beyond the limit, by a single interval
unless tabs alone lead there, by several stops from the column that is reached on, or from
the last stop on if a tab has been written for one column. -/
def Dropped (tabstops : List Nat) (moved : Bool) (dcol : Nat) : Prop :=
  if tabstops.length ≤ 1 then
    limit tabstops < dcol ∧ (dstop tabstops = 1 ∨ ¬ dstop tabstops ∣ dcol)
  else reach tabstops < dcol ∨ moved = true ∧ lastStop tabstops ≤ dcol

theorem output_interval (s : TabStops) (few : s.stops.length ≤ 1) {dcol ocol : Nat}
    (le : ocol ≤ dcol) (early : ocol < limit s.stops) :
    let out := output s.stops dcol ocol
    columnAfter s.stops ocol out.1 = out.2 ∧ out.2 ≤ dcol ∧
      (out.2 = dcol ↔ ¬ Dropped s.stops false dcol) := by
  have positive := s.dstop_pos
  obtain ⟨column, above, below, stops, last⟩ :=
    intervalTabs_column s few dcol (dcol - ocol) le (by omega)
  simp only [output, if_pos few]
  generalize intervalTabs (dstop s.stops) dcol (dcol - ocol) ocol = tabs at *
  rw [columnAfter_append, columnAfter_spaces, column]
  refine ⟨rfl, by omega, ?_⟩
  rw [Dropped, if_pos few]
  by_cases far : limit s.stops < dcol
  · -- the spaces end at the limit, so that only the tabs can lead to the column
    have exact_ : tabs.2 + (min dcol (limit s.stops) - tabs.2) = dcol ↔ tabs.2 = dcol := by
      omega
    rw [exact_]
    constructor
    · rintro rfl ⟨_, one | other⟩
      · rcases last with same | ⟨_, less⟩
        · omega
        · exact absurd (less one) (Nat.lt_irrefl _)
      · rcases last with same | ⟨whole, _⟩
        · omega
        · exact other whole
    · intro kept
      have whole : dstop s.stops ≠ 1 ∧ dstop s.stops ∣ dcol := by
        constructor
        · exact fun one => kept ⟨far, Or.inl one⟩
        · by_contra other
          exact kept ⟨far, Or.inr other⟩
      obtain ⟨k, rfl⟩ := whole.2
      rcases stops with all | near
      · rw [Nat.mul_div_cancel_left k positive] at all
        have more := (Nat.le_div_iff_mul_le positive).mp all
        rw [Nat.mul_comm] at more
        omega
      · rcases last with same | ⟨⟨j, same⟩, _⟩
        · omega
        · by_contra other
          have step : dstop s.stops * k = dstop s.stops * j + 1 := by omega
          have one : dstop s.stops ∣ 1 :=
            (Nat.dvd_add_right (Dvd.intro j rfl)).mp (step ▸ Dvd.intro k rfl)
          exact whole.1 (Nat.dvd_one.mp one)
  · exact iff_of_true (by omega) fun drop => far drop.1

theorem output_several (s : TabStops) (several : 1 < s.stops.length) {dcol ocol : Nat}
    (le : ocol ≤ dcol) (early : ocol < limit s.stops) :
    let out := output s.stops dcol ocol
    columnAfter s.stops ocol out.1 = out.2 ∧ out.2 = min dcol (reach s.stops) := by
  have bound := limit_several several
  have top : limit s.stops ≤ reach s.stops := by
    unfold reach
    split <;> omega
  obtain ⟨column, result⟩ := stopTabs_column s several dcol _ rfl le (by omega) (Or.inl early)
  simp only [output, if_neg (show ¬ s.stops.length ≤ 1 by omega)]
  rw [columnAfter_append, columnAfter_spaces, column]
  exact ⟨rfl, result⟩

theorem output_moved (s : TabStops) (several : 1 < s.stops.length) {dcol ocol column : Nat}
    (le : ocol ≤ dcol) (early : ocol < limit s.stops) (behind : stopBefore s.stops < ocol)
    (past : lastStop s.stops ≤ column) :
    let out := output s.stops dcol ocol
    (dcol < lastStop s.stops → columnAfter s.stops column out.1 = column + (dcol - ocol)) ∧
      (lastStop s.stops ≤ dcol → columnAfter s.stops column out.1 = column + 1) := by
  have bound := limit_several several
  have rest : stopsBehind s.stops ocol = [lastStop s.stops] := by
    rcases s.stopsBehind_cases several ocol with
      ⟨t, u, rest, _, _, low⟩ | ⟨_, _, same⟩ | ⟨past, _⟩
    · omega
    · exact same
    · omega
  simp only [output, if_neg (show ¬ s.stops.length ≤ 1 by omega), rest, stopTabs]
  by_cases room : lastStop s.stops ≤ dcol
  · rw [if_pos ⟨room, by omega, early⟩]
    refine ⟨fun less => by omega, fun _ => ?_⟩
    have one : columnAfter s.stops column [byte '\t'] = column + 1 := by
      have next : tab s.stops column = _ := tab_last s several (by omega)
      show tab s.stops column = _
      omega
    simp only
    rw [columnAfter_append, columnAfter_spaces, one]
    omega
  · rw [if_neg fun all => room all.1]
    refine ⟨fun _ => ?_, fun more => absurd more room⟩
    rw [List.nil_append, columnAfter_spaces]
    omega

end Netbase.Tabs
