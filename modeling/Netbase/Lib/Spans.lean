import Mathlib.Data.List.Basic

/-!
# Numbered items

The items of a list are numbered from 1.  Spans are ranges of numbers with a mark;
a range that ends before it starts is empty.  When the spans rise, marking every
item of a range by the span that holds its number is the same as going through the
spans one after the other.
-/

namespace Netbase.Lib.Spans

variable {α β : Type}

/-- The items with the numbers `low..up`. -/
def between (items : List α) (low up : Nat) : List α := (items.drop (low - 1)).take (up + 1 - low)

@[ext]
structure Span (β : Type) where
  first : Nat
  last : Nat
  mark : β
  deriving DecidableEq, Repr

def markAt (blank : β) (spans : List (Span β)) (i : Nat) : β :=
  match spans.find? fun span => span.first ≤ i && i ≤ span.last with
  | some span => span.mark
  | none => blank

/-- The items with the numbers `low..up` and their marks. -/
def marked (mark : Nat → β) (items : List α) (low up : Nat) : List (β × α) :=
  (between items low up).mapIdx fun k item => (mark (low + k), item)

/-- The spans follow each other from `low` on. -/
def Rising : Nat → List (Span β) → Prop
  | _, [] => True
  | low, span :: spans =>
      low ≤ span.first ∧ span.first ≤ span.last + 1 ∧ Rising (span.last + 1) spans

def walk (blank : β) (items : List α) (up : Nat) : Nat → List (Span β) → List (β × α)
  | low, [] => (between items low up).map fun item => (blank, item)
  | low, span :: spans =>
      (between items low (span.first - 1)).map (fun item => (blank, item)) ++
        (between items span.first span.last).map (fun item => (span.mark, item)) ++
        walk blank items up (span.last + 1) spans

/-- The items of `low..up` outside of the spans. -/
def gaps (items : List α) (up : Nat) : Nat → List (Span β) → List α
  | low, [] => between items low up
  | low, span :: spans =>
      between items low (span.first - 1) ++ gaps items up (span.last + 1) spans

section

variable (items : List α) {low mid up : Nat}

theorem between_append (positive : 0 < low) (inside : low ≤ mid + 1) (below : mid ≤ up) :
    between items low up = between items low mid ++ between items (mid + 1) up := by
  unfold between
  have total : up + 1 - low = (mid + 1 - low) + (up + 1 - (mid + 1)) := by omega
  have place : low - 1 + (mid + 1 - low) = mid + 1 - 1 := by omega
  rw [total, List.take_add, List.drop_drop, place]

theorem between_empty (empty : up < low) : between items low up = [] := by
  rw [between, Nat.sub_eq_zero_of_le empty, List.take_zero]

theorem length_between (positive : 0 < low) (inside : up ≤ items.length) :
    (between items low up).length = up + 1 - low := by
  rw [between, List.length_take, List.length_drop]
  omega

theorem between_split (positive : 0 < low) (inside : low ≤ up + 1) :
    items = items.take (low - 1) ++ between items low up ++ items.drop up := by
  have behind : items.drop up = (items.drop (low - 1)).drop (up + 1 - low) := by
    rw [List.drop_drop]
    congr 1
    omega
  rw [between, behind, List.append_assoc, List.take_append_drop, List.take_append_drop]

variable {items}

theorem mem_between {item : α} (listed : item ∈ between items low up) (positive : 0 < low) :
    ∃ k, low ≤ k ∧ k ≤ up ∧ items[k - 1]? = some item := by
  obtain ⟨k, here⟩ := List.mem_iff_getElem?.mp listed
  rw [between, List.getElem?_take] at here
  split at here
  · next less =>
      rw [List.getElem?_drop] at here
      have place : low + k - 1 = low - 1 + k := by omega
      exact ⟨low + k, by omega, by omega, by rw [place]; exact here⟩
  · cases here

theorem between_middle (front middle back : List α) (split : items = front ++ middle ++ back)
    (first : low = front.length + 1) (last : up = front.length + middle.length) :
    between items low up = middle := by
  subst split first last
  have count : front.length + middle.length + 1 - (front.length + 1) = middle.length := by omega
  rw [between, count, Nat.add_sub_cancel, List.append_assoc, List.drop_left, List.take_left]

variable {mark other : Nat → β} {blank : β}

theorem between_map {γ : Type} (f : α → γ) : between (items.map f) low up = (between items low up).map f := by
  rw [between, between, List.map_take, List.map_drop]

theorem marked_map {γ : Type} (f : α → γ) :
    marked mark (items.map f) low up =
      (marked mark items low up).map fun pair => (pair.1, f pair.2) := by
  refine List.ext_getElem? fun k => ?_
  rw [marked, marked, between_map, List.getElem?_mapIdx, List.getElem?_map, List.getElem?_map,
    List.getElem?_mapIdx]
  cases (between items low up)[k]? <;> rfl

theorem map_snd_marked : (marked mark items low up).map Prod.snd = between items low up := by
  refine List.ext_getElem? fun k => ?_
  rw [marked, List.getElem?_map, List.getElem?_mapIdx]
  cases (between items low up)[k]? <;> rfl

theorem marked_congr (same : ∀ i, low ≤ i → i ≤ up → mark i = other i) :
    marked mark items low up = marked other items low up := by
  refine List.ext_getElem? fun k => ?_
  rw [marked, marked, List.getElem?_mapIdx, List.getElem?_mapIdx]
  cases found : (between items low up)[k]? with
  | none => rfl
  | some item =>
      have bound := (List.getElem?_eq_some_iff.mp found).1
      have count := List.length_take_le (up + 1 - low) (items.drop (low - 1))
      rw [between] at bound
      rw [Option.map_some, Option.map_some, same (low + k) (by omega) (by omega)]

theorem marked_const (same : ∀ i, low ≤ i → i ≤ up → mark i = blank) :
    marked mark items low up = (between items low up).map fun item => (blank, item) := by
  rw [marked_congr same, marked]
  refine List.ext_getElem? fun k => ?_
  rw [List.getElem?_mapIdx, List.getElem?_map]

theorem marked_append (positive : 0 < low) (inside : low ≤ mid + 1) (below : mid ≤ up)
    (bound : mid ≤ items.length) :
    marked mark items low up = marked mark items low mid ++ marked mark items (mid + 1) up := by
  have length := length_between items positive bound
  have place (k : Nat) : low + (k + (mid + 1 - low)) = mid + 1 + k := by omega
  rw [marked, between_append items positive inside below, List.mapIdx_append, length]
  simp only [place]
  rfl

theorem mem_marked {pair : β × α} (listed : pair ∈ marked mark items low up) (positive : 0 < low) :
    ∃ k, low ≤ k ∧ k ≤ up ∧ items[k - 1]? = some pair.2 ∧ pair.1 = mark k := by
  obtain ⟨k, here⟩ := List.mem_iff_getElem?.mp listed
  rw [marked, List.getElem?_mapIdx, Option.map_eq_some_iff] at here
  obtain ⟨item, found, rfl⟩ := here
  rw [between, List.getElem?_take] at found
  split at found
  · next less =>
      rw [List.getElem?_drop] at found
      have place : low + k - 1 = low - 1 + k := by omega
      exact ⟨low + k, by omega, by omega, by rw [place]; exact found, rfl⟩
  · cases found

theorem marked_empty (empty : up < low) : marked mark items low up = [] := by
  rw [marked, between_empty items empty, List.mapIdx_nil]

theorem marked_cons (positive : 0 < low) (inside : low ≤ up) {item : α}
    (found : items[low - 1]? = some item) :
    marked mark items low up = (mark low, item) :: marked mark items (low + 1) up := by
  have bound := (List.getElem?_eq_some_iff.mp found).1
  have one : between items low low = [item] := by
    rw [between, Nat.add_sub_cancel_left, List.take_one, List.head?_drop, found]
    rfl
  rw [marked_append positive (Nat.le_succ low) inside (by omega), marked, one, List.mapIdx_singleton]
  rfl

end

section

variable {items : List α} {blank : β} {spans : List (Span β)} {low up i : Nat}

theorem Rising.le (rising : Rising low spans) {span : Span β} (listed : span ∈ spans) :
    low ≤ span.first ∧ span.first ≤ span.last + 1 := by
  induction spans generalizing low with
  | nil => cases listed
  | cons first spans ih =>
      rcases List.mem_cons.mp listed with rfl | later
      · exact ⟨rising.1, rising.2.1⟩
      · have := ih rising.2.2 later
        exact ⟨by have := rising.1; have := rising.2.1; omega, this.2⟩

theorem Rising.mono (rising : Rising low spans) {least : Nat} (below : least ≤ low) :
    Rising least spans := by
  cases spans with
  | nil => trivial
  | cons span spans => exact ⟨Nat.le_trans below rising.1, rising.2⟩

theorem Rising.sublist {some_ : List (Span β)} (sub : some_.Sublist spans) (rising : Rising low spans) :
    Rising low some_ := by
  induction sub generalizing low with
  | slnil => trivial
  | cons span sub ih =>
      exact (ih rising.2.2).mono (Nat.le_trans rising.1 rising.2.1)
  | cons_cons span sub ih => exact ⟨rising.1, rising.2.1, ih rising.2.2⟩

theorem Rising.apart {front back : List (Span β)} (rising : Rising low (front ++ back))
    {one other : Span β} (first : one ∈ front) (second : other ∈ back) : one.last < other.first := by
  induction front generalizing low with
  | nil => cases first
  | cons span front ih =>
      rcases List.mem_cons.mp first with rfl | later
      · exact (rising.2.2.le (List.mem_append_right front second)).1
      · exact ih rising.2.2 later

theorem markAt_none (outside : ∀ span ∈ spans, ¬ (span.first ≤ i ∧ i ≤ span.last)) :
    markAt blank spans i = blank := by
  have none_ : spans.find? (fun span => span.first ≤ i && i ≤ span.last) = none := by
    rw [List.find?_eq_none]
    intro span listed
    simpa using outside span listed
  rw [markAt, none_]

theorem markAt_here {span : Span β} (first : span.first ≤ i) (last : i ≤ span.last) :
    markAt blank (span :: spans) i = span.mark := by
  simp [markAt, first, last]

theorem markAt_later {span : Span β} (outside : ¬ (span.first ≤ i ∧ i ≤ span.last)) :
    markAt blank (span :: spans) i = markAt blank spans i := by
  rw [markAt, List.find?_cons_of_neg (by simpa using outside), ← markAt]

/-- Spans that do not hold the number may be left out on both sides. -/
theorem markAt_middle (front back : List (Span β))
    (before : ∀ span ∈ front, ¬ (span.first ≤ i ∧ i ≤ span.last))
    (behind : ∀ span ∈ back, ¬ (span.first ≤ i ∧ i ≤ span.last)) :
    markAt blank (front ++ spans ++ back) i = markAt blank spans i := by
  induction front with
  | nil =>
      rw [List.nil_append]
      induction spans with
      | nil =>
          rw [List.nil_append, markAt_none behind]
          rfl
      | cons span spans ih =>
          by_cases here : span.first ≤ i ∧ i ≤ span.last
          · rw [List.cons_append, markAt_here here.1 here.2, markAt_here here.1 here.2]
          · rw [List.cons_append, markAt_later here, markAt_later here, ih]
  | cons span front ih =>
      rw [List.cons_append, List.cons_append, markAt_later (before span List.mem_cons_self)]
      exact ih fun other later => before other (List.mem_cons_of_mem span later)

theorem markAt_filter {γ : Type} {list : List γ} (toSpan : γ → Span β) (kept : γ → Bool)
    (empty : ∀ x ∈ list, ¬ kept x = true → (toSpan x).last < (toSpan x).first) :
    markAt blank ((list.filter kept).map toSpan) i = markAt blank (list.map toSpan) i := by
  induction list with
  | nil => rfl
  | cons x list ih =>
      have rest := ih fun other later => empty other (List.mem_cons_of_mem x later)
      rw [List.filter_cons, List.map_cons]
      split
      · rw [List.map_cons]
        by_cases here : (toSpan x).first ≤ i ∧ i ≤ (toSpan x).last
        · rw [markAt_here here.1 here.2, markAt_here here.1 here.2]
        · rw [markAt_later here, markAt_later here, rest]
      · next dropped =>
          have none_ := empty x List.mem_cons_self dropped
          rw [rest, markAt_later (by omega)]

theorem marked_eq_walk (rising : Rising low spans) (below : ∀ span ∈ spans, span.last ≤ up)
    (positive : 0 < low) (inside : low ≤ up + 1) (bound : up ≤ items.length) :
    marked (markAt blank spans) items low up = walk blank items up low spans := by
  induction spans generalizing low with
  | nil => exact marked_const fun _ _ _ => rfl
  | cons span spans ih =>
      obtain ⟨first, range, rest⟩ := rising
      have last := below span List.mem_cons_self
      have place : span.first - 1 + 1 = span.first := by omega
      rw [marked_append positive (by omega : low ≤ span.first - 1 + 1) (by omega) (by omega), place,
        marked_append (by omega) range last (by omega), walk, List.append_assoc]
      congr 1
      · refine marked_const fun i after until_ => markAt_none fun other listed => ?_
        rcases List.mem_cons.mp listed with rfl | later
        · omega
        · have := rest.le later
          omega
      · congr 1
        · exact marked_const fun i after until_ => markAt_here after until_
        · rw [← ih rest (fun other later => below other (List.mem_cons_of_mem span later))
            (Nat.succ_pos _) (by omega)]
          exact marked_congr fun i after until_ => markAt_later (by omega)

theorem filter_map_mark [DecidableEq β] (mark : β) (list : List α) :
    (((list.map fun item => (mark, item)).filter fun pair => pair.1 = blank).map Prod.snd) =
      if mark = blank then list else [] := by
  induction list with
  | nil => simp
  | cons item list ih =>
      rw [List.map_cons, List.filter_cons]
      by_cases same : mark = blank <;> simp_all

theorem filter_walk [DecidableEq β] (other : ∀ span ∈ spans, span.mark ≠ blank) :
    ((walk blank items up low spans).filter fun pair => pair.1 = blank).map Prod.snd =
      gaps items up low spans := by
  induction spans generalizing low with
  | nil => rw [walk, filter_map_mark, if_pos rfl, gaps]
  | cons span spans ih =>
      rw [walk, List.filter_append, List.filter_append, List.map_append, List.map_append,
        ih fun another later => other another (List.mem_cons_of_mem span later), filter_map_mark,
        filter_map_mark, if_pos rfl, if_neg (other span List.mem_cons_self), List.append_nil, gaps]

theorem gaps_empty (rising : Rising low spans) (empty : ∀ span ∈ spans, span.last < span.first)
    (below : ∀ span ∈ spans, span.last ≤ up) (positive : 0 < low) (inside : low ≤ up + 1) :
    gaps items up low spans = between items low up := by
  induction spans generalizing low with
  | nil => rfl
  | cons span spans ih =>
      obtain ⟨first, range, rest⟩ := rising
      have none_ := empty span List.mem_cons_self
      have last := below span List.mem_cons_self
      have place : span.first - 1 = span.last := by omega
      rw [gaps, ih rest (fun other later => empty other (List.mem_cons_of_mem span later))
        (fun other later => below other (List.mem_cons_of_mem span later)) (Nat.succ_pos _) (by omega),
        place, ← between_append items positive (by omega) last]

end

/-! ## Spans from rows -/

/-- Some items outside of the spans, and the items of the span behind them. -/
structure Row (α β : Type) where
  kept : List α
  own : List α
  mark : β

def Row.items (row : Row α β) : List α := row.kept ++ row.own

/-- The spans of rows that follow each other behind the item with the given number. -/
def rowSpans : Nat → List (Row α β) → List (Span β)
  | _, [] => []
  | before, row :: rows =>
      { first := before + row.kept.length + 1
        last := before + row.items.length
        mark := row.mark } :: rowSpans (before + row.items.length) rows

section

variable {rows : List (Row α β)} {before low : Nat}

theorem length_items (row : Row α β) : row.items.length = row.kept.length + row.own.length :=
  List.length_append

theorem rowSpans_rising (below : low ≤ before + 1) : Rising low (rowSpans before rows) := by
  induction rows generalizing before low with
  | nil => trivial
  | cons row rows ih =>
      have length := length_items row
      exact ⟨by dsimp only; omega, by dsimp only; omega, ih (Nat.le_refl _)⟩

theorem gaps_rows {items trail : List α} (front back : List α)
    (split : items = front ++ rows.flatMap Row.items ++ trail ++ back) {up : Nat}
    (end_ : up = front.length + (rows.flatMap Row.items).length + trail.length) :
    gaps items up (front.length + 1) (rowSpans front.length rows) =
      rows.flatMap Row.kept ++ trail := by
  induction rows generalizing front with
  | nil =>
      exact between_middle front trail back (by simpa using split) rfl (by simpa using end_)
  | cons row rows ih =>
      have rest := ih (front ++ row.items) (by rw [split]; simp) (by
        rw [end_, List.flatMap_cons, List.length_append, List.length_append]
        omega)
      rw [List.length_append] at rest
      rw [rowSpans, gaps, rest, Nat.add_sub_cancel,
        between_middle front row.kept (row.own ++ rows.flatMap Row.items ++ trail ++ back)
          (by rw [split]; simp [Row.items]) rfl rfl, List.flatMap_cons, List.append_assoc]

end

end Netbase.Lib.Spans
