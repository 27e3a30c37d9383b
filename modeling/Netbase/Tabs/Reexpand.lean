import Netbase.Tabs.Unexpand

/-!
# Expanding what has been unexpanded

A line is expanded as before exactly if no character of it is written behind blanks that
start in front of the limit and are dropped in part.
-/

namespace Netbase.Tabs

open Netbase.Text

/-- The column that is counted behind a text: blanks count to where they lead, and every
character that is written counts for one column. -/
def countedAfter (tabstops : List Nat) (dcol : Nat) (text : List Byte) : Nat :=
  text.foldl (fun dcol c => (counted tabstops dcol c).getD (dcol + 1)) dcol

def allCounted (tabstops : List Nat) : Nat → List Byte → Bool
  | _, [] => true
  | dcol, c :: run =>
      match counted tabstops dcol c with
      | some next => allCounted tabstops next run
      | none => false

def tabWritten (tabstops : List Nat) : Nat → List Byte → Bool
  | _, [] => false
  | dcol, c :: text =>
      match counted tabstops dcol c with
      | some next => tabWritten tabstops next text
      | none => c == byte '\t' || tabWritten tabstops (dcol + 1) text

/-- Nothing in front of a character is dropped: neither of the blanks that start in the given
column, nor of others that start in front of the limit. -/
def KeptFrom (tabstops : List Nat) (moved : Bool) (dcol : Nat) (line : List Byte) : Prop :=
  ∀ before run c after, line = before ++ run ++ c :: after →
    before = [] ∨ countedAfter tabstops dcol before < limit tabstops →
    allCounted tabstops (countedAfter tabstops dcol before) run = true →
    counted tabstops (countedAfter tabstops dcol (before ++ run)) c = none →
    ¬ Dropped tabstops (moved || tabWritten tabstops dcol before)
      (countedAfter tabstops dcol (before ++ run))

/-- Nothing is dropped of the blanks in front of a character that start in front of the
limit. -/
def Kept (tabstops : List Nat) (line : List Byte) : Prop :=
  ∀ before run c after, line = before ++ run ++ c :: after →
    countedAfter tabstops 0 before < limit tabstops →
    allCounted tabstops (countedAfter tabstops 0 before) run = true →
    counted tabstops (countedAfter tabstops 0 (before ++ run)) c = none →
    ¬ Dropped tabstops (tabWritten tabstops 0 before) (countedAfter tabstops 0 (before ++ run))

theorem kept_iff (s : TabStops) (line : List Byte) :
    Kept s.stops line ↔ KeptFrom s.stops false 0 line := by
  have start := s.limit_pos
  constructor
  · intro kept before run c after split room
    refine kept before run c after split ?_
    rcases room with rfl | room
    · exact start
    · exact room
  · intro kept before run c after split room
    exact kept before run c after split (Or.inr room)

variable {c : Byte} {tabstops : List Nat}

theorem counted_lt (s : TabStops) {dcol next : Nat} (count : counted s.stops dcol c = some next) :
    dcol < next := by
  obtain ⟨kind, rfl⟩ := counted_some s count
  show dcol < if c = byte '\t' then tab s.stops dcol else dcol + 1
  split
  · exact lt_tab s dcol
  · exact Nat.lt_succ_self dcol

theorem le_countedAfter (s : TabStops) (text : List Byte) :
    ∀ dcol, dcol ≤ countedAfter s.stops dcol text := by
  induction text with
  | nil => exact fun dcol => Nat.le_refl dcol
  | cons c text ih =>
      intro dcol
      refine Nat.le_trans ?_ (ih _)
      show dcol ≤ (counted s.stops dcol c).getD (dcol + 1)
      cases count : counted s.stops dcol c with
      | none => exact Nat.le_succ dcol
      | some next => exact (counted_lt s count).le

theorem countedAfter_some {dcol next : Nat} (count : counted tabstops dcol c = some next)
    (text : List Byte) :
    countedAfter tabstops dcol (c :: text) = countedAfter tabstops next text := by
  rw [countedAfter, List.foldl_cons, count]
  rfl

theorem countedAfter_none {dcol : Nat} (count : counted tabstops dcol c = none) (text : List Byte) :
    countedAfter tabstops dcol (c :: text) = countedAfter tabstops (dcol + 1) text := by
  rw [countedAfter, List.foldl_cons, count]
  rfl

theorem keptFrom_some (s : TabStops) {moved : Bool} {dcol next : Nat} {line : List Byte}
    (count : counted s.stops dcol c = some next) :
    KeptFrom s.stops moved dcol (c :: line) ↔ KeptFrom s.stops moved next line := by
  constructor
  · intro kept before run d after split room blank char
    have whole := kept (c :: before) run d after (by rw [split]; rfl)
    rw [List.cons_append, countedAfter_some count, countedAfter_some count, tabWritten, count]
      at whole
    rcases room with rfl | room
    · have first := kept [] (c :: run) d after (by rw [split]; rfl) (Or.inl rfl)
      rw [List.nil_append, countedAfter_some count] at first
      refine first ?_ char
      rw [show countedAfter s.stops dcol [] = dcol from rfl, allCounted, count]
      exact blank
    · exact whole (Or.inr room) blank char
  · intro kept before run d after split room blank char
    cases before with
    | nil =>
        cases run with
        | nil =>
            cases split
            rw [List.append_nil] at char
            exact absurd (count.symm.trans char) (by simp)
        | cons b run =>
            cases split
            rw [List.nil_append, countedAfter_some count] at char ⊢
            refine kept [] run d after rfl (Or.inl rfl) ?_ char
            rw [show countedAfter s.stops dcol [] = dcol from rfl, allCounted, count] at blank
            exact blank
    | cons b before =>
        cases split
        rw [List.cons_append, countedAfter_some count] at char ⊢
        rw [countedAfter_some count] at room blank
        rw [tabWritten, count]
        exact kept before run d after rfl (Or.inr (room.resolve_left (by simp))) blank char

theorem keptFrom_none (s : TabStops) {moved : Bool} {dcol : Nat} {line : List Byte}
    (count : counted s.stops dcol c = none) :
    KeptFrom s.stops moved dcol (c :: line) ↔
      ¬ Dropped s.stops moved dcol ∧ (dcol + 1 < limit s.stops →
        KeptFrom s.stops (moved || c == byte '\t') (dcol + 1) line) := by
  constructor
  · intro kept
    refine ⟨?_, fun room before run d after split before_room blank char => ?_⟩
    · have first := kept [] [] c line rfl (Or.inl rfl) rfl count
      simpa [tabWritten, countedAfter] using first
    · have whole := kept (c :: before) run d after (by rw [split]; rfl)
      rw [List.cons_append, countedAfter_none count, countedAfter_none count, tabWritten, count]
        at whole
      rw [Bool.or_assoc]
      refine whole (Or.inr ?_) blank char
      rcases before_room with rfl | early
      · exact room
      · exact early
  · rintro ⟨here, later⟩ before run d after split room blank char
    cases before with
    | nil =>
        cases run with
        | nil =>
            cases split
            simpa [tabWritten, countedAfter] using here
        | cons b run =>
            cases split
            rw [show countedAfter s.stops dcol [] = dcol from rfl, allCounted, count] at blank
            cases blank
    | cons b before =>
        cases split
        rw [List.cons_append, countedAfter_none count] at char ⊢
        rw [countedAfter_none count] at room blank
        rw [tabWritten, count, ← Bool.or_assoc]
        have early := room.resolve_left (by simp)
        have start := le_countedAfter s before (dcol + 1)
        exact later (by omega) before run d after rfl (Or.inr early) blank char

/-! ## The line from a character on -/

/-- The column of the text that has been written, where a tab may have been written for one
column. -/
def Stands (tabstops : List Nat) (moved : Bool) (ocol column : Nat) : Prop :=
  if moved then
    1 < tabstops.length ∧ stopBefore tabstops < ocol ∧ lastStop tabstops ≤ column
  else column = ocol

/-- The column that blanks lead to in the line itself. -/
def blankColumn (moved : Bool) (dcol ocol column : Nat) : Nat :=
  if moved then column + (dcol - ocol) else dcol

theorem dropped_limit (s : TabStops) {moved : Bool} {dcol : Nat}
    (drop : Dropped s.stops moved dcol) : limit s.stops < dcol := by
  unfold Dropped at drop
  split at drop
  · exact drop.1
  · next several =>
      have order := s.stopBefore_lt (show 1 < s.stops.length by omega)
      have bound := limit_several (show 1 < s.stops.length by omega)
      unfold reach at drop
      split at drop <;> omega

theorem output_cases (s : TabStops) {moved : Bool} {dcol ocol column : Nat}
    (stands : Stands s.stops moved ocol column) (le : ocol ≤ dcol)
    (early : ocol < limit s.stops) :
    let out := output s.stops dcol ocol
    let reached := columnAfter s.stops column out.1
    (Dropped s.stops moved dcol → reached < blankColumn moved dcol ocol column ∧
        (1 < s.stops.length → lastStop s.stops ≤ reached + 1)) ∧
      (¬ Dropped s.stops moved dcol → reached = blankColumn moved dcol ocol column ∧
        out.2 = dcol) := by
  intro out reached
  cases moved with
  | false =>
      obtain rfl : column = ocol := stands
      show (_ → reached < dcol ∧ _) ∧ (_ → reached = dcol ∧ _)
      by_cases few : s.stops.length ≤ 1
      · obtain ⟨same, below, kept⟩ : reached = out.2 ∧ out.2 ≤ dcol ∧
            (out.2 = dcol ↔ ¬ Dropped s.stops false dcol) := output_interval s few le early
        refine ⟨fun drop => ⟨?_, fun several => by omega⟩, fun keep => ?_⟩
        · have other : ¬ out.2 = dcol := fun all => kept.mp all drop
          omega
        · exact ⟨same.trans (kept.mpr keep), kept.mpr keep⟩
      · have several : 1 < s.stops.length := by omega
        obtain ⟨same, result⟩ : reached = out.2 ∧ out.2 = min dcol (reach s.stops) :=
          output_several s several le early
        have drop_iff : Dropped s.stops false dcol ↔ reach s.stops < dcol := by
          rw [Dropped, if_neg few]
          simp
        have top : lastStop s.stops ≤ reach s.stops + 1 := by
          unfold reach
          split <;> omega
        rw [drop_iff]
        exact ⟨fun drop => ⟨by omega, fun _ => by omega⟩, fun keep => ⟨by omega, by omega⟩⟩
  | true =>
      obtain ⟨several, behind, past⟩ : 1 < s.stops.length ∧ _ ∧ _ := stands
      obtain ⟨less, more⟩ : (dcol < lastStop s.stops → reached = column + (dcol - ocol)) ∧
          (lastStop s.stops ≤ dcol → reached = column + 1) :=
        output_moved s several le early behind past
      have result : out.2 = min dcol (reach s.stops) := (output_several s several le early).2
      have bound := limit_several several
      have top : reach s.stops = lastStop s.stops := by
        rw [reach, if_pos (by omega)]
      have drop_iff : Dropped s.stops true dcol ↔ lastStop s.stops ≤ dcol := by
        rw [Dropped, if_neg (by omega), top]
        simp only [true_and]
        omega
      rw [drop_iff]
      show (_ → reached < column + (dcol - ocol) ∧ _) ∧
        (_ → reached = column + (dcol - ocol) ∧ _)
      refine ⟨fun drop => ?_, fun keep => ?_⟩
      · have one := more drop
        exact ⟨by omega, fun _ => by omega⟩
      · exact ⟨less (by omega), by omega⟩

/-- What is expanded for a character alone. -/
def shown (tabstops : List Nat) (column : Nat) (c : Byte) : List Byte :=
  if c = byte '\t' then List.replicate (tab tabstops column - column) (byte ' ') else [c]

theorem expand_plain {column : Nat} (plain : Plain c) (text : List Byte) :
    expand tabstops column (c :: text) =
      shown tabstops column c ++ expand tabstops (columnAfter tabstops column [c]) text := by
  unfold shown
  by_cases tabbed : c = byte '\t'
  · subst tabbed
    rfl
  · rw [if_neg tabbed, expand_other plain tabbed]
    have next : columnAfter tabstops column [c] = column + 1 := if_neg tabbed
    rw [next]
    rfl

theorem expand_newline (tabstops : List Nat) (column : Nat) (text : List Byte) :
    expand tabstops column (byte '\n' :: text) = byte '\n' :: expand tabstops 0 text := by
  rw [expand, if_neg (by decide), if_neg (by decide), if_pos rfl]

/-- A character behind fewer blanks is not the character behind more of them. -/
theorem replicate_ne {x : Byte} {a b : Nat} (less : a < b) (other : c ≠ x) (left right : List Byte) :
    List.replicate a x ++ c :: left ≠ List.replicate b x ++ right := by
  intro same
  have here := congrArg (·[a]?) same
  simp [List.getElem?_append, less] at here
  exact other here

theorem tabify_none {dcol ocol : Nat} {p : List Byte} (count : counted tabstops dcol c = none)
    (other : c ≠ byte '\x08') :
    tabify true tabstops dcol ocol (c :: p) =
      (output tabstops dcol ocol).1 ++ c ::
        if dcol + 1 < limit tabstops then
          tabify true tabstops (dcol + 1) ((output tabstops dcol ocol).2 + 1) p
        else p := by
  rw [tabify, count]
  simp [if_neg other]

theorem dropped_ne (s : TabStops) {column reached real : Nat} {body : List Byte}
    (plain : ∀ c ∈ body, Plain c) (char : c ≠ byte ' ') (above : column ≤ reached)
    (less : reached < real) (tabbed : c = byte '\t' → 1 < s.stops.length)
    (near : 1 < s.stops.length → lastStop s.stops ≤ reached + 1) {p : List Byte}
    (line : c :: p = body ++ [byte '\n']) :
    List.replicate (reached - column) (byte ' ') ++ expand s.stops reached (c :: p) ≠
      List.replicate (real - column) (byte ' ') ++ expand s.stops real (c :: p) := by
  by_cases kind : c = byte '\t'
  · intro same
    have several := tabbed kind
    have lengths := congrArg List.length same
    have close := near several
    have first : (expand s.stops reached (body ++ [byte '\n'])).length = _ :=
      expand_length s several plain close
    have second : (expand s.stops real (body ++ [byte '\n'])).length = _ :=
      expand_length s several plain (by omega)
    rw [line, List.length_append, List.length_append, first, second, List.length_replicate,
      List.length_replicate] at lengths
    omega
  · obtain ⟨rest, head⟩ : ∃ rest, expand s.stops reached (c :: p) = c :: rest := by
      cases body with
      | nil =>
          cases line
          exact ⟨_, expand_newline s.stops reached []⟩
      | cons d body =>
          cases line
          exact ⟨_, expand_other (plain c List.mem_cons_self) kind⟩
    rw [head]
    exact replicate_ne (by omega) char _ _

theorem written_iff (s : TabStops) {moved : Bool} {dcol ocol column : Nat} {p body : List Byte}
    (plain : ∀ c ∈ body, Plain c) (line : c :: p = body ++ [byte '\n'])
    (stands : Stands s.stops moved ocol column) (le : ocol ≤ dcol) (early : ocol < limit s.stops)
    (count : counted s.stops dcol c = none) :
    let real := blankColumn moved dcol ocol column
    expand s.stops column (tabify true s.stops dcol ocol (c :: p)) =
        List.replicate (real - column) (byte ' ') ++ expand s.stops real (c :: p) ↔
      ¬ Dropped s.stops moved dcol ∧ (dcol + 1 < limit s.stops →
        expand s.stops real (c :: tabify true s.stops (dcol + 1) (dcol + 1) p) =
          expand s.stops real (c :: p)) := by
  intro real
  have space : c ≠ byte ' ' := by
    rintro rfl
    rw [counted_space] at count
    cases count
  have several : c = byte '\t' → 1 < s.stops.length := by
    rintro rfl
    by_contra few
    rw [counted_interval s (by omega)] at count
    cases count
  have backspace : c ≠ byte '\x08' := by
    cases body with
    | nil =>
        cases line
        decide
    | cons d body =>
        cases line
        exact (plain c List.mem_cons_self).1
  obtain ⟨drops, keeps⟩ := output_cases s stands le early
  rw [tabify_none count backspace, expand_blanks s _ (output_blank s.stops dcol ocol)]
  by_cases drop : Dropped s.stops moved dcol
  · have past := dropped_limit s drop
    obtain ⟨less, near⟩ := drops drop
    rw [if_neg (by omega)]
    exact iff_of_false (dropped_ne s plain space (le_columnAfter s _ column) less several near line)
      fun kept => kept.1 drop
  · obtain ⟨same, result⟩ := keeps drop
    rw [same, result, List.append_cancel_left_eq]
    by_cases more : dcol + 1 < limit s.stops
    · rw [if_pos more]
      exact ⟨fun rest => ⟨drop, fun _ => rest⟩, fun rest => rest.2 more⟩
    · rw [if_neg more]
      exact iff_of_true rfl ⟨drop, fun less => absurd less more⟩

theorem blankColumn_some (s : TabStops) {moved : Bool} {dcol ocol column next : Nat}
    (stands : Stands s.stops moved ocol column) (le : ocol ≤ dcol)
    (count : counted s.stops dcol c = some next) :
    columnAfter s.stops (blankColumn moved dcol ocol column) [c] =
      blankColumn moved next ocol column := by
  obtain ⟨kind, same⟩ := counted_some s count
  cases moved with
  | false => exact same.symm
  | true =>
      obtain ⟨several, behind, _⟩ : 1 < s.stops.length ∧ _ ∧ _ := stands
      rcases kind with rfl | rfl
      · rw [counted_space] at count
        cases count
        show column + (dcol - ocol) + 1 = column + (dcol + 1 - ocol)
        omega
      · rw [counted_several s several, if_neg (by omega)] at count
        cases count

/-- Behind a character that is written the text stands as before, or a tab has been written. -/
theorem stands_none (s : TabStops) {moved : Bool} {dcol ocol column : Nat}
    (stands : Stands s.stops moved ocol column) (le : ocol ≤ dcol)
    (count : counted s.stops dcol c = none) :
    Stands s.stops (moved || c == byte '\t') (dcol + 1)
      (columnAfter s.stops (blankColumn moved dcol ocol column) [c]) := by
  cases moved with
  | false =>
      obtain rfl : column = ocol := stands
      by_cases tabbed : c = byte '\t'
      · subst tabbed
        have several : 1 < s.stops.length := by
          by_contra few
          rw [counted_interval s (by omega)] at count
          cases count
        have behind : stopBefore s.stops ≤ dcol := by
          by_contra before
          rw [counted_several s several, if_pos (by omega)] at count
          cases count
        have next := tab_last s several behind
        refine ⟨several, by omega, ?_⟩
        show lastStop s.stops ≤ tab s.stops dcol
        omega
      · have other : (false || c == byte '\t') = false := by simpa using tabbed
        rw [other]
        exact if_neg tabbed
  | true =>
      obtain ⟨several, behind, past⟩ : 1 < s.stops.length ∧ _ ∧ _ := stands
      have further := le_columnAfter s [c] (blankColumn true dcol ocol column)
      refine ⟨several, by omega, past.trans (le_trans ?_ further)⟩
      exact Nat.le_add_right column (dcol - ocol)

theorem blankColumn_self {moved : Bool} {ocol column : Nat}
    (stands : Stands tabstops moved ocol column) : blankColumn moved ocol ocol column = column := by
  cases moved with
  | false => exact stands.symm
  | true =>
      show column + (ocol - ocol) = column
      omega

theorem expand_tabify_from (s : TabStops) {body : List Byte} :
    ∀ {moved : Bool} {dcol ocol column : Nat}, (∀ c ∈ body, Plain c) →
      Stands s.stops moved ocol column → ocol ≤ dcol → ocol < limit s.stops →
      (expand s.stops column (tabify true s.stops dcol ocol (body ++ [byte '\n'])) =
        List.replicate (blankColumn moved dcol ocol column - column) (byte ' ') ++
          expand s.stops (blankColumn moved dcol ocol column) (body ++ [byte '\n']) ↔
        KeptFrom s.stops moved dcol (body ++ [byte '\n'])) := by
  induction body with
  | nil =>
      intro moved dcol ocol column plain stands le early
      have count : counted s.stops dcol (byte '\n') = none :=
        counted_other (by decide) (by decide)
      have nothing (moved : Bool) (dcol : Nat) : KeptFrom s.stops moved dcol [] :=
        fun before run c after split => by simp at split
      refine (written_iff s plain rfl stands le early count).trans ?_
      rw [List.nil_append, keptFrom_none s count]
      exact and_congr_right fun _ => iff_of_true (fun _ => rfl) fun _ => nothing _ _
  | cons c body ih =>
      intro moved dcol ocol column plain stands le early
      have others : ∀ c ∈ body, Plain c := fun d inside => plain d (by simp [inside])
      rw [List.cons_append]
      cases count : counted s.stops dcol c with
      | some next =>
          have further := counted_lt s count
          have step := blankColumn_some s stands le count
          have single : ∀ d ∈ [c], d = byte ' ' ∨ d = byte '\t' := by
            simpa using (counted_some s count).1
          have shift (first : Nat) : expand s.stops first ([c] ++ (body ++ [byte '\n'])) = _ :=
            expand_blanks s _ single
          rw [keptFrom_some s count, ← ih others stands (by omega) early, tabify, count]
          simp only
          rw [← List.singleton_append (x := c), shift, step, ← List.append_assoc,
            List.replicate_append_replicate]
          have here : column ≤ blankColumn moved dcol ocol column := by
            cases moved with
            | false =>
                obtain rfl : column = ocol := stands
                exact le
            | true => exact Nat.le_add_right _ _
          have there := step ▸ le_columnAfter s [c] (blankColumn moved dcol ocol column)
          rw [show blankColumn moved dcol ocol column - column +
              (blankColumn moved next ocol column - blankColumn moved dcol ocol column) =
                blankColumn moved next ocol column - column by omega]
      | none =>
          refine (written_iff s plain List.cons_append.symm stands le early count).trans ?_
          rw [keptFrom_none s count]
          refine and_congr_right fun _ => forall_congr' fun room => ?_
          have stands' := stands_none s stands le count
          rw [← ih others stands' (Nat.le_refl _) room, blankColumn_self stands', Nat.sub_self,
            expand_plain (plain c List.mem_cons_self), expand_plain (plain c List.mem_cons_self),
            List.append_cancel_left_eq]
          rfl

/-- A line is expanded as before exactly if nothing in it is dropped. -/
theorem expand_tabify_iff (s : TabStops) (body : List Byte) (plain : ∀ c ∈ body, Plain c) :
    expand s.stops 0 (tabify true s.stops 0 0 (body ++ [byte '\n'])) =
        expand s.stops 0 (body ++ [byte '\n']) ↔
      Kept s.stops (body ++ [byte '\n']) := by
  have stands : Stands s.stops false 0 0 := rfl
  rw [kept_iff, ← expand_tabify_from s plain stands (Nat.le_refl 0) s.limit_pos]
  rfl

def fourEight : TabStops := ⟨[4, 8], by decide, by decide⟩

/-- Blanks that lead to the last stop. -/
theorem kept_fourEight :
    Kept fourEight.stops (List.replicate 8 (byte ' ') ++ [byte 'b', byte '\n']) :=
  (expand_tabify_iff fourEight (List.replicate 8 (byte ' ') ++ [byte 'b'])
    (by decide +kernel)).mp (by decide)

/-- Of blanks that lead further the rest is lost. -/
theorem tabify_drops :
    tabify true fourEight.stops 0 0
        (List.replicate 15 (byte ' ') ++ [byte 'b', byte '\n']) =
        [byte '\t', byte '\t', byte 'b', byte '\n'] ∧
      expand fourEight.stops 0 (tabify true fourEight.stops 0 0
        (List.replicate 15 (byte ' ') ++ [byte 'b', byte '\n'])) ≠
        expand fourEight.stops 0 (List.replicate 15 (byte ' ') ++ [byte 'b', byte '\n']) := by
  decide

end Netbase.Tabs
