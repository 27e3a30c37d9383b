import Netbase.Diff.Ignore

/-!
# Counting the lines of a hunk

The counts of a header are those of its ranges.  The lines of the body are counted
in the text: the stretches between the changes come from one file only, and a new
line that `check` has cut short runs into the next one.
-/

namespace Netbase.Diff.Tally

open Netbase.Lib
open Netbase.Lib.EditScript
open Netbase.Lib.Spans
open Netbase.Text
open Netbase.Unified
open Netbase.Diff.Check
open Netbase.Diff.Checked
open Netbase.Diff.Collision
open Netbase.Diff.Fetch
open Netbase.Diff.Output
open Netbase.Diff.Group
open Netbase.Diff.Ignore
open Netbase.Diff.Context (Source uniRange dumpChanges)
open Netbase.Diff.Sections (sourceOf changesFor changesFor_eq changesFor_cut flatten_cutLines oldSpan
  newSpan)

/-! ## The lines from the last change on -/

/-- The mark of a new line from the last change on: its own lines, and the context behind it. -/
def newRun (last : Change) (k : Nat) : Char := if k ≤ last.d then '+' else ' '

section

variable {olds news : List (List Byte)} {lowa upb lowc upd : Nat} {vec : List Change}
  {last : Change}

theorem newRun_tail (news : List (List Byte)) (positive : 0 < last.c)
    (range : last.c ≤ last.d + 1) (below : last.d ≤ upd) (bound : upd ≤ news.length) :
    (between news last.c last.d).map (fun text => ('+', text)) ++
        (between news (last.d + 1) upd).map (fun text => (' ', text)) =
      marked (newRun last) news last.c upd := by
  rw [marked_append positive range below (by omega)]
  congr 1
  · exact (marked_const fun i _ until_ => if_pos until_).symm
  · exact (marked_const fun i after _ => if_neg (by omega)).symm

/-- A line in front of the last change: an old one, or a new one with a smaller number. -/
def Early (olds news : List (List Byte)) (last : Change) (pair : Char × List Byte) : Prop :=
  pair.1 ∈ [' ', '-', '+'] ∧
    (pair.2 ∈ olds ∨ ∃ k, 0 < k ∧ k < last.c ∧ news[k - 1]? = some pair.2)

theorem early_old (ch : Char) (mark : ch ∈ [' ', '-', '+']) {a b : Nat} (positive : 0 < a) :
    ∀ pair ∈ (between olds a b).map fun text => (ch, text), Early olds news last pair := by
  intro pair listed
  obtain ⟨text, inside, rfl⟩ := List.mem_map.mp listed
  obtain ⟨k, _, _, found⟩ := mem_between inside positive
  exact ⟨mark, Or.inl (List.mem_of_getElem? found)⟩

theorem early_new (ch : Char) (mark : ch ∈ [' ', '-', '+']) {c d : Nat} (positive : 0 < c)
    (before : d < last.c) :
    ∀ pair ∈ (between news c d).map fun text => (ch, text), Early olds news last pair := by
  intro pair listed
  obtain ⟨text, inside, rfl⟩ := List.mem_map.mp listed
  obtain ⟨k, low, up, found⟩ := mem_between inside positive
  exact ⟨mark, Or.inr ⟨k, by omega, by omega, found⟩⟩

theorem forall_append {P : Char × List Byte → Prop} {front back : List (Char × List Byte)}
    (left : ∀ pair ∈ front, P pair) (right : ∀ pair ∈ back, P pair) :
    ∀ pair ∈ front ++ back, P pair := fun pair listed =>
  (List.mem_append.mp listed).elim (left pair) (right pair)

theorem entries_split (fitting : Fitting lowa upb lowc upd vec) (bound : upd ≤ news.length)
    (final : vec.getLast? = some last) :
    ∃ front, entries olds news upd lowa lowc vec = front ++ marked (newRun last) news last.c upd ∧
      ∀ pair ∈ front, Early olds news last pair := by
  induction vec generalizing lowa lowc with
  | nil => cases final
  | cons cvp vec ih =>
      obtain ⟨a, ab, b, c, cd, d⟩ := fitting.head
      obtain ⟨positive, positive'⟩ := fitting.positive
      have place : cvp.c ≤ last.c := by
        rcases List.eq_nil_or_concat' vec with rfl | ⟨init, final_, rfl⟩
        · cases final
          exact Nat.le_refl _
        · rw [← List.cons_append, List.getLast?_concat] at final
          have same : final_ = last := Option.some.inj final
          subst same
          have rising := fitting.new
          rw [← List.cons_append, List.map_append] at rising
          have apart := rising.apart (List.mem_map_of_mem List.mem_cons_self)
            (List.mem_map_of_mem (List.mem_singleton_self final_))
          dsimp only [newSpan] at apart
          omega
      have head : ∀ pair ∈ (if cvp.a ≤ cvp.b then
          (between olds lowa (cvp.a - 1)).map (fun text => (' ', text)) ++
            (between olds cvp.a cvp.b).map fun text => ('-', text)
          else (between news lowc (cvp.c - 1)).map fun text => (' ', text)),
          Early olds news last pair := by
        split
        · exact forall_append (early_old ' ' (by decide) positive)
            (early_old '-' (by decide) (by omega))
        · exact early_new ' ' (by decide) positive' (by omega)
      cases vec with
      | nil =>
          have same : cvp = last := Option.some.inj final
          subst same
          refine ⟨_, ?_, head⟩
          rw [entries, entries, List.append_assoc, newRun_tail news (by omega) cd d bound]
      | cons next vec =>
          rw [List.getLast?_cons_cons] at final
          obtain ⟨front, rest, all⟩ := ih fitting.tail final
          have apart : cvp.d < last.c :=
            (fitting.tail.new.le (List.mem_map_of_mem (List.mem_of_getLast? final))).1
          refine ⟨_, ?_, forall_append (forall_append head
            (early_new (c := cvp.c) '+' (by decide) (by omega) apart)) all⟩
          rw [entries, rest, ← List.append_assoc]

end

/-! ## Counting a text -/

structure Side (marks : List Char) (bytes : List Byte) : Prop where
  same : ∀ ch ∈ [' ', '-', '+'], byte ch ∈ bytes ↔ ch ∈ marks
  note : byte '\\' ∉ bytes

theorem forall_marks {property : Char → Prop} (both : property ' ') (old : property '-')
    (new : property '+') : ∀ ch ∈ [' ', '-', '+'], property ch := by
  intro ch member
  rw [List.mem_cons, List.mem_cons, List.mem_singleton] at member
  rcases member with rfl | rfl | rfl
  · exact both
  · exact old
  · exact new

theorem side_old : Side [' ', '-'] [byte ' ', byte '-'] :=
  ⟨forall_marks (by decide) (by decide) (by decide), by decide⟩

theorem side_new : Side [' ', '+'] [byte ' ', byte '+'] :=
  ⟨forall_marks (by decide) (by decide) (by decide), by decide⟩

theorem mark_ne_nl : ∀ ch ∈ [' ', '-', '+'], byte ch ≠ nl :=
  forall_marks (by decide) (by decide) (by decide)

section

variable {marks : List Char} {bytes : List Byte}

theorem countLines_printed (side : Side marks bytes) {list : List (Char × List Byte)}
    (closed : ∀ pair ∈ list, pair.1 ∈ [' ', '-', '+'] ∧ Closed pair.2) (rest : List Byte) :
    countLines bytes (printedText list ++ rest) =
      list.countP (hasMark marks) + countLines bytes rest := by
  induction list with
  | nil => simp [printedText]
  | cons pair list ih =>
      obtain ⟨mark, text⟩ := closed pair List.mem_cons_self
      have here := countLines_closed (mark_ne_nl pair.1 mark) side.note text
        (printedText list ++ rest)
      have later := ih fun other inside => closed other (List.mem_cons_of_mem pair inside)
      have step : countLines bytes (printedText (pair :: list) ++ rest) =
          (if byte pair.1 ∈ bytes then 1 else 0) + countLines bytes (printedText list ++ rest) := by
        rw [← here]
        simp [printedText]
      rw [step, later, List.countP_cons]
      simp only [side.same pair.1 mark, hasMark, List.contains_iff_mem]
      omega

theorem countLines_nil (bytes : List Byte) : countLines bytes [] = 0 := rfl

theorem countLines_cut (side : Side marks bytes) {front back : List (Char × List Byte)}
    {ch next : Char} {text line : List Byte}
    (closed : ∀ pair ∈ front, pair.1 ∈ [' ', '-', '+'] ∧ Closed pair.2)
    (closed' : ∀ pair ∈ back, pair.1 ∈ [' ', '-', '+'] ∧ Closed pair.2)
    (mark : ch ∈ [' ', '-', '+']) (mark' : next ∈ [' ', '-', '+']) (clean : nl ∉ text)
    (isLine : IsLine line) (terminated : Terminated line) :
    countLines bytes (printedText (front ++ (ch, text) :: (next, line) :: back)) +
        (if next ∈ marks then 1 else 0) =
      (front ++ (ch, text) :: (next, line) :: back).countP (hasMark marks) := by
  have open_ := countLines_open bytes (mark_ne_nl ch mark) clean (mark_ne_nl next mark')
    isLine terminated (printedText back ++ [])
  have behind := countLines_printed side closed' []
  have whole := countLines_printed side closed
    (byte ch :: (text ++ byte next :: (line ++ (printedText back ++ []))))
  have regroup : printedText (front ++ (ch, text) :: (next, line) :: back) =
      printedText front ++ byte ch :: (text ++ byte next :: (line ++ (printedText back ++ []))) := by
    simp [printedText]
  rw [regroup, whole, open_, behind, countLines_nil, List.countP_append, List.countP_cons,
    List.countP_cons]
  simp only [side.same ch mark, hasMark, List.contains_iff_mem]
  omega

theorem countLines_cut_last (side : Side marks bytes) {front : List (Char × List Byte)}
    {ch : Char} {text : List Byte}
    (closed : ∀ pair ∈ front, pair.1 ∈ [' ', '-', '+'] ∧ Closed pair.2)
    (mark : ch ∈ [' ', '-', '+']) (clean : nl ∉ text) :
    countLines bytes (printedText (front ++ [(ch, text)])) =
      (front ++ [(ch, text)]).countP (hasMark marks) := by
  have whole := countLines_printed side closed (byte ch :: text)
  have regroup : printedText (front ++ [(ch, text)]) = printedText front ++ byte ch :: text := by
    simp [printedText]
  rw [regroup, whole, countLines_last (mark_ne_nl ch mark) clean, List.countP_append,
    List.countP_cons, List.countP_nil]
  simp only [side.same ch mark, hasMark, List.contains_iff_mem]
  omega

end

/-! ## The groups of two files -/

section

variable {context bound : Nat} {ignored : Change → Bool} {file0 file1 : List Byte}
  {vec : List Change}

theorem Rising.of_head {low least : Nat} {spans : List (Span Char)} (rising : Rising low spans)
    (head : ∀ span, spans.head? = some span → least ≤ span.first) : Rising least spans := by
  cases spans with
  | nil => trivial
  | cons span spans => exact ⟨head span rfl, rising.2⟩

theorem changesFor_rising (bound : Nat) (file0 file1 : List Byte) :
    Rising 1 ((changesFor bound file0 file1).map oldSpan) ∧
      Rising 1 ((changesFor bound file0 file1).map newSpan) ∧
      ∀ cvp ∈ changesFor bound file0 file1,
        cvp.b ≤ (lines file0).length ∧ cvp.d ≤ (lines file1).length := by
  obtain ⟨blocks, changes, tiles⟩ := forwardChanges_tiles (checked_pairs bound file0 file1)
  rw [changesFor_eq, changes, Sections.changesOf_oldSpan, Sections.changesOf_newSpan]
  refine ⟨rowSpans_rising (Nat.le_refl _), rowSpans_rising (Nat.le_refl _), fun cvp listed => ?_⟩
  have bounds := Sections.changesOf_bounds listed
  have old := congrArg List.length tiles.old
  have new := congrArg List.length tiles.new
  omega

theorem groups_sublist (listed : vec ∈ groups context ignored (changesFor bound file0 file1)) :
    vec.Sublist (changesFor bound file0 file1) ∧ ∀ cvp ∈ vec, live ignored cvp = true := by
  obtain ⟨front, back, placed⟩ := groups_placed listed
  have inside : vec.Sublist (collected ignored (changesFor bound file0 file1)) := by
    rw [placed.split]
    exact (List.sublist_append_right front vec).trans (List.sublist_append_left _ back)
  exact ⟨inside.trans List.filter_sublist, fun cvp here =>
    (List.mem_filter.mp (inside.subset here)).2⟩

theorem groups_fitting (listed : vec ∈ groups context ignored (changesFor bound file0 file1)) :
    ∃ first last, vec.head? = some first ∧ vec.getLast? = some last ∧
      Fitting (max 1 (first.a - context)) (min (lines file0).length (last.b + context))
        (max 1 (first.c - context)) (min (lines file1).length (last.d + context)) vec := by
  obtain ⟨inside, live_⟩ := groups_sublist listed
  obtain ⟨front, back, placed⟩ := groups_placed listed
  obtain ⟨old, new, bounds⟩ := changesFor_rising bound file0 file1
  have oldRising := old.sublist (inside.map oldSpan)
  have newRising := new.sublist (inside.map newSpan)
  obtain ⟨init, last, rfl⟩ := (List.eq_nil_or_concat' vec).resolve_left placed.nonempty
  obtain ⟨first, head⟩ : ∃ first, (init ++ [last]).head? = some first :=
    ⟨_, List.head?_eq_some_head (by simp)⟩
  have firstIn : first ∈ init ++ [last] := List.mem_of_head? head
  have firstOld := oldRising.le (List.mem_map_of_mem firstIn)
  have firstNew := newRising.le (List.mem_map_of_mem firstIn)
  dsimp only [oldSpan, newSpan] at firstOld firstNew
  have below : ∀ cvp ∈ init ++ [last], cvp.b ≤ min (lines file0).length (last.b + context) ∧
      cvp.d ≤ min (lines file1).length (last.d + context) := by
    intro cvp here
    have bound_ := bounds cvp (inside.subset here)
    have lastIn : last ∈ [last] := List.mem_singleton_self last
    rcases List.mem_append.mp here with before | final
    · rw [List.map_append] at oldRising newRising
      have apart := oldRising.apart (List.mem_map_of_mem before) (List.mem_map_of_mem lastIn)
      have apart' := newRising.apart (List.mem_map_of_mem before) (List.mem_map_of_mem lastIn)
      have range := (old.le (List.mem_map_of_mem (inside.subset
        (List.mem_append_right init lastIn)))).2
      have range' := (new.le (List.mem_map_of_mem (inside.subset
        (List.mem_append_right init lastIn)))).2
      dsimp only [oldSpan, newSpan] at apart apart' range range'
      omega
    · rw [List.mem_singleton.mp final] at bound_ ⊢
      omega
  have firstBelow := below first firstIn
  refine ⟨first, last, head, List.getLast?_concat, ?_⟩
  refine
    { old := Rising.of_head oldRising fun span here => ?_
      new := Rising.of_head newRising fun span here => ?_
      below := below
      busy := fun cvp here => ?_
      positive := by omega
      range := by omega }
  · rw [List.head?_map, head] at here
    cases here
    dsimp only [oldSpan]
    omega
  · rw [List.head?_map, head] at here
    cases here
    dsimp only [newSpan]
    omega
  · have busy := (live_iff.mp (live_ cvp here)).1
    omega

end

/-! ## The line that is cut short -/

/-- The number of the new line that `check` cuts short: the one that the last old line is paired
with, when it goes on behind an old line without a newline.  Zero when there is none. -/
def cutNumber (bound : Nat) (file0 file1 : List Byte) : Nat :=
  let j := unravelled bound file0 file1 (lines file0).length
  match (lines file0)[(lines file0).length - 1]?, (lines file1)[j - 1]? with
  | some line, some longer =>
      if j ≠ 0 ∧ ¬ Terminated line ∧ line <+: longer ∧
          (longer.drop line.length).head?.any (· ≠ nl) then j
      else 0
  | _, _ => 0

section

variable {bound : Nat} {file0 file1 : List Byte}

theorem cutNumber_eq {line : List Byte} {next : Byte} {more : List Byte}
    (cut : Cut (lines file0) (lines file1) (unravelled bound file0 file1) line next more) :
    cutNumber bound file0 file1 = unravelled bound file0 file1 (lines file0).length := by
  have goes : (((line ++ next :: more).drop line.length).head?.any fun c => c ≠ nl) = true := by
    rw [List.drop_left]
    simp [cut.inside]
  unfold cutNumber
  dsimp only
  rw [cut.last, cut.longer]
  exact if_pos ⟨cut.paired, cut.unterminated, List.prefix_append _ _, goes⟩

theorem cutNumber_zero (whole : ¬ Stops bound file0 file1) : cutNumber bound file0 file1 = 0 := by
  unfold cutNumber
  dsimp only
  split
  · next line longer last found =>
      rw [if_neg]
      rintro ⟨paired, unterminated, ⟨rest, rfl⟩, goes⟩
      rw [List.drop_left] at goes
      cases rest with
      | nil => simp at goes
      | cons next more =>
          exact whole ⟨line, next, more, last, unterminated, paired, found, by simpa using goes⟩
  · rfl

/-- The texts of the new file when line `j` is printed without its end. -/
structure Cutoff (news : List (List Byte)) (j : Nat) : Prop where
  inside : 0 < j ∧ j ≤ news.length
  clean : ∀ text, news[j - 1]? = some text → nl ∉ text
  closed : ∀ k text, k + 1 ≠ j → news[k]? = some text → Closed text
  behind : ∀ k text, j ≤ k → news[k]? = some text → IsLine text ∧ Terminated text

theorem closed_terminated {line : List Byte} (isLine : IsLine line) (terminated : Terminated line) :
    Closed line := ⟨line, isLine, by simp [Format.lineText, terminated]⟩

theorem cutoff_of_cut {olds news : List (List Byte)} {J : Table Nat} {line : List Byte} {next : Byte}
    {more : List Byte} (orderedOld : LineList olds) (ordered : LineList news)
    (cut : Cut olds news J line next more) :
    Cutoff ((cutLines news (J olds.length) line next more).take news.length) (J olds.length) := by
  have paired := cut.paired
  have bound := (List.getElem?_eq_some_iff.mp cut.longer).1
  have front : (news.take (J olds.length - 1)).length = J olds.length - 1 := by
    rw [List.length_take]
    omega
  have restLine := cut.orderedRest ordered
  have restEnds (k : Nat) (less : k < news.length - J olds.length) := cut.terminatedRest ordered less
  have behind : ∀ k text, J olds.length ≤ k →
      ((cutLines news (J olds.length) line next more).take news.length)[k]? = some text →
        IsLine text ∧ Terminated text := by
    intro k text after found
    have inside := (List.getElem?_eq_some_iff.mp found).1
    rw [List.length_take] at inside
    obtain ⟨i, rfl⟩ : ∃ i, k = J olds.length - 1 + (i + 1) := ⟨k - J olds.length, by omega⟩
    rw [List.getElem?_take_of_lt (by omega), cutLines,
      List.getElem?_append_right (by omega), front, Nat.add_sub_cancel_left,
      List.getElem?_cons_succ] at found
    obtain ⟨other, here, ends⟩ := restEnds i (by omega)
    rw [here] at found
    cases found
    exact ⟨restLine.isLine (List.mem_of_getElem? here), ends⟩
  refine ⟨⟨by omega, ?_⟩, fun text found => ?_, fun k text other found => ?_, behind⟩
  · rw [List.length_take, cutLines, List.length_append, List.length_cons, front]
    omega
  · rw [List.getElem?_take_of_lt (by omega), cutLines, List.getElem?_append_right (by omega), front,
      Nat.sub_self] at found
    cases found
    have last := orderedOld.isLine (List.mem_of_getElem? cut.last)
    simp [last.clean_of_not_terminated cut.unterminated, Ne.symm cut.inside]
  · by_cases before : k < J olds.length - 1
    · rw [List.getElem?_take_of_lt (by omega), cutLines, List.getElem?_append_left (by omega),
        List.getElem?_take_of_lt before] at found
      refine closed_terminated (ordered.isLine (List.mem_of_getElem? found)) ?_
      by_contra unterminated
      have := ordered.last_of_open found unterminated
      omega
    · obtain ⟨isLine, ends⟩ := behind k text (by omega) found
      exact closed_terminated isLine ends

theorem tables (bound : Nat) (file0 file1 : List Byte) :
    Shows .unified (checked bound file0 file1).ixold file0
        ((lines file0).map Format.unified.lineText) ∧
      ∃ news, news.length = (lines file1).length ∧
        Shows .unified (checked bound file0 file1).ixnew file1 news ∧
        (cutNumber bound file0 file1 = 0 ∧ (∀ text ∈ news, Closed text) ∨
          Cutoff news (cutNumber bound file0 file1)) := by
  have ordered := lines_lineList file1
  have shown_ {ix : Table Nat} {file : List Byte} (indexed : Indexed (lines file) ix) :
      Shows .unified ix file ((lines file).map Format.unified.lineText) := by
    have shows_ := shows_of_indexed (show Format.unified ≠ .edit by decide) (lines_lineList file)
      indexed
    rwa [flatten_lines] at shows_
  by_cases stops : Stops bound file0 file1
  · obtain ⟨line, next, more, cut⟩ := stops
    obtain ⟨indexed, ixnew, -⟩ := check_cut (lines_lineList file0) ordered
      (unravelled_rises bound file0 file1) cut
    rw [← checked_eq] at indexed ixnew
    have paired := cut.paired
    have shows_ := shows_of_exact (show Format.unified ≠ .edit by decide) ixnew
    rw [flatten_cutLines (Nat.pos_of_ne_zero paired) cut.longer, flatten_lines] at shows_
    refine ⟨shown_ indexed, _, ?_, shows_, Or.inr ?_⟩
    · rw [List.length_take, cutLines, List.length_append, List.length_cons, List.length_append,
        List.length_take, List.length_drop]
      split <;> simp <;> omega
    · rw [cutNumber_eq cut]
      exact cutoff_of_cut (lines_lineList file0) ordered cut
  · obtain ⟨indexed, indexedNew⟩ := checked_indexed stops
    refine ⟨shown_ indexed, _, List.length_map _, shown_ indexedNew,
      Or.inl ⟨cutNumber_zero stops, fun text listed => ?_⟩⟩
    obtain ⟨line, here, rfl⟩ := List.mem_map.mp listed
    exact ⟨line, ordered.isLine here, rfl⟩

end

/-! ## The count of a body -/

section

variable {olds news : List (List Byte)} {marks : List Char} {bytes : List Byte} {last : Change}
  {front : List (Char × List Byte)} {j upd : Nat}

theorem newRun_mark (last : Change) (k : Nat) : newRun last k ∈ [' ', '-', '+'] := by
  unfold newRun
  split <;> decide

theorem countLines_whole (side : Side marks bytes)
    (early : ∀ pair ∈ front, Early olds news last pair) (positive : 0 < last.c)
    (closedOld : ∀ text ∈ olds, Closed text) (closed : ∀ text ∈ news, Closed text) :
    countLines bytes (printedText (front ++ marked (newRun last) news last.c upd)) =
      (front ++ marked (newRun last) news last.c upd).countP (hasMark marks) := by
  have closedFront : ∀ pair ∈ front, pair.1 ∈ [' ', '-', '+'] ∧ Closed pair.2 := by
    intro pair listed
    obtain ⟨mark, old | ⟨k, _, _, found⟩⟩ := early pair listed
    · exact ⟨mark, closedOld _ old⟩
    · exact ⟨mark, closed _ (List.mem_of_getElem? found)⟩
  have closedRun : ∀ pair ∈ marked (newRun last) news last.c upd,
      pair.1 ∈ [' ', '-', '+'] ∧ Closed pair.2 := by
    intro pair listed
    obtain ⟨k, _, _, found, mark⟩ := mem_marked listed positive
    exact ⟨mark ▸ newRun_mark last k, closed _ (List.mem_of_getElem? found)⟩
  have all := countLines_printed side (forall_append closedFront closedRun) []
  rwa [List.append_nil, countLines_nil] at all

theorem countLines_cutoff (side : Side marks bytes)
    (early : ∀ pair ∈ front, Early olds news last pair) (positive : 0 < last.c)
    (closedOld : ∀ text ∈ olds, Closed text) (cutoff : Cutoff news j) (place : last.c ≤ j)
    (bound : upd ≤ news.length) :
    countLines bytes (printedText (front ++ marked (newRun last) news last.c upd)) +
        (if j < upd ∧ newRun last (j + 1) ∈ marks then 1 else 0) =
      (front ++ marked (newRun last) news last.c upd).countP (hasMark marks) := by
  have closedFront : ∀ pair ∈ front, pair.1 ∈ [' ', '-', '+'] ∧ Closed pair.2 := by
    intro pair listed
    obtain ⟨mark, old | ⟨k, low, less, found⟩⟩ := early pair listed
    · exact ⟨mark, closedOld _ old⟩
    · exact ⟨mark, cutoff.closed (k - 1) _ (by omega) found⟩
  have closedRun (low up : Nat) (low_ : 0 < low) (away : up < j ∨ j < low) :
      ∀ pair ∈ marked (newRun last) news low up, pair.1 ∈ [' ', '-', '+'] ∧ Closed pair.2 := by
    intro pair listed
    obtain ⟨k, first, final, found, mark⟩ := mem_marked listed low_
    exact ⟨mark ▸ newRun_mark last k, cutoff.closed (k - 1) _ (by omega) found⟩
  by_cases short : upd < j
  · have all := countLines_printed side (forall_append closedFront
      (closedRun _ _ positive (Or.inl short))) []
    rw [List.append_nil, countLines_nil, Nat.add_zero] at all
    rw [all, if_neg (by omega), Nat.add_zero]
  · obtain ⟨text, found⟩ : ∃ text, news[j - 1]? = some text :=
      ⟨_, List.getElem?_eq_getElem (by omega)⟩
    have begin_ : marked (newRun last) news last.c upd =
        marked (newRun last) news last.c (j - 1) ++
          (newRun last j, text) :: marked (newRun last) news (j + 1) upd := by
      have back : j - 1 + 1 = j := by omega
      rw [marked_append positive (by omega : last.c ≤ j - 1 + 1) (by omega) (by omega), back,
        marked_cons (by omega) (by omega) found]
    have closedBefore := forall_append closedFront (closedRun _ _ positive
      (Or.inl (by omega : j - 1 < j)))
    have clean := cutoff.clean text found
    rw [begin_, ← List.append_assoc]
    by_cases end_ : upd = j
    · rw [marked_empty (show upd < j + 1 by omega), if_neg (by omega), Nat.add_zero]
      exact countLines_cut_last side closedBefore (newRun_mark last j) clean
    · obtain ⟨line, next⟩ : ∃ line, news[j + 1 - 1]? = some line :=
        ⟨_, List.getElem?_eq_getElem (by omega)⟩
      obtain ⟨isLine, terminated⟩ := cutoff.behind (j + 1 - 1) line (by omega) next
      have counted := countLines_cut side closedBefore
        (closedRun (j + 1 + 1) upd (by omega) (Or.inr (by omega)))
        (newRun_mark last j) (newRun_mark last (j + 1)) clean isLine terminated
      have less : j < upd := by omega
      rw [marked_cons (by omega) (by omega) next, ← counted]
      simp only [less, true_and]

end

/-! ## Headers and bodies -/

/-- The count in a header. -/
def uniCount (a b : Nat) : Nat := b + 1 - a

def Counted (hunk : Hunk) : Prop :=
  countLines [byte ' ', byte '-'] hunk.body = uniCount hunk.lowa hunk.upb ∧
    countLines [byte ' ', byte '+'] hunk.body = uniCount hunk.lowc hunk.upd

instance (hunk : Hunk) : Decidable (Counted hunk) := inferInstanceAs (Decidable (_ ∧ _))

/-- Both ranges of a hunk lie before those of the next. -/
def Before (hunk next : Hunk) : Prop :=
  (hunk.lowa < next.lowa ∧ hunk.upb < next.lowa) ∧ hunk.lowc < next.lowc ∧ hunk.upd < next.lowc

/-- The unchanged stretches that the body of a group takes from one file are in total as long as
those in the other; a new line that has been cut short makes up for one line. -/
def Even (context bound : Nat) (file0 file1 : List Byte) (vec : List Change) : Prop :=
  ∀ first last, vec.head? = some first → vec.getLast? = some last →
    let lowa := max 1 (first.a - context)
    let upb := min (lines file0).length (last.b + context)
    let lowc := max 1 (first.c - context)
    let upd := min (lines file1).length (last.d + context)
    let j := cutNumber bound file0 file1
    newStretches upb upd lowa lowc vec = (if last.d < j ∧ j < upd then 1 else 0) ∧
      oldStretches lowa lowc vec = if 0 < j ∧ j < upd then 1 else 0

section

variable {context bound : Nat} {ignored : Change → Bool} {ignore_pats : Option (List Byte → Bool)}
  {file0 file1 : List Byte} {vec : List Change} {hunk : Hunk}

theorem cut_place {last : Change} (listed : last ∈ changesFor bound file0 file1)
    (positive : 0 < cutNumber bound file0 file1) :
    last.c ≤ cutNumber bound file0 file1 ∧
      (last.d < cutNumber bound file0 file1 ∨ last.d = (lines file1).length) := by
  have stops : Stops bound file0 file1 := by
    by_contra whole
    rw [cutNumber_zero whole] at positive
    exact Nat.lt_irrefl 0 positive
  obtain ⟨line, next, more, cut⟩ := stops
  obtain ⟨front, final, changes, -, first, end_⟩ := changesFor_cut cut
  have rising := (changesFor_rising bound file0 file1).2.1
  have range := (rising.le (List.mem_map_of_mem listed)).2
  rw [cutNumber_eq cut]
  rw [changes] at listed rising
  rw [List.map_append] at rising
  rcases List.mem_append.mp listed with before | here
  · have apart := rising.apart (List.mem_map_of_mem before)
      (List.mem_map_of_mem (List.mem_singleton_self final))
    dsimp only [newSpan] at apart range
    exact ⟨by omega, Or.inl (by omega)⟩
  · rw [List.mem_singleton.mp here]
    exact ⟨first, Or.inr end_⟩

theorem countLines_hunk {marks : List Char} {bytes : List Byte} (side : Side marks bytes)
    {olds news : List (List Byte)} {lowa upb lowc upd : Nat} {last : Change}
    (closedOld : ∀ text ∈ olds, Closed text)
    (ends : cutNumber bound file0 file1 = 0 ∧ (∀ text ∈ news, Closed text) ∨
      Cutoff news (cutNumber bound file0 file1))
    (fitting : Fitting lowa upb lowc upd vec) (final : vec.getLast? = some last)
    (listed : last ∈ changesFor bound file0 file1) (below : upd ≤ news.length) :
    countLines bytes (printedText (entries olds news upd lowa lowc vec)) +
        (if 0 < cutNumber bound file0 file1 ∧ cutNumber bound file0 file1 < upd ∧
          newRun last (cutNumber bound file0 file1 + 1) ∈ marks then 1 else 0) =
      (entries olds news upd lowa lowc vec).countP (hasMark marks) := by
  obtain ⟨front, split, early⟩ : ∃ front, entries olds news upd lowa lowc vec =
      front ++ marked (newRun last) news last.c upd ∧ ∀ pair ∈ front, Early olds news last pair :=
    entries_split fitting below final
  have positive : 0 < last.c :=
    Nat.lt_of_lt_of_le fitting.positive.2
      (fitting.new.le (List.mem_map_of_mem (List.mem_of_getLast? final))).1
  rw [split]
  rcases ends with ⟨zero, closed⟩ | cutoff
  · rw [zero, if_neg (by omega), Nat.add_zero]
    exact countLines_whole side early positive closedOld closed
  · have inside := cutoff.inside
    have place := (cut_place listed inside.1).1
    have counted := countLines_cutoff side early positive closedOld cutoff place below
    rw [← counted]
    simp only [inside.1, true_and]

theorem counted_iff (listed : vec ∈ groupsFor context bound ignore_pats file0 file1)
    (dumped : hunkOf context (sourceOf bound file0 file1) vec = some hunk) :
    Counted hunk ↔ Even context bound file0 file1 vec := by
  obtain ⟨first, last, head, final, fitting⟩ := groups_fitting listed
  obtain ⟨shows_, news, length, showsNew, ends⟩ := tables bound file0 file1
  have member : last ∈ changesFor bound file0 file1 :=
    (groups_sublist listed).1.subset (List.mem_of_getLast? final)
  have place := cut_place member
  have closedOld : ∀ text ∈ (lines file0).map Format.unified.lineText, Closed text := by
    intro text inside
    obtain ⟨line, here, rfl⟩ := List.mem_map.mp inside
    exact ⟨line, (lines_lineList file0).isLine here, rfl⟩
  unfold hunkOf at dumped
  rw [head, final, Sections.sourceOf_len0, Sections.sourceOf_len1] at dumped
  cases dumped
  have even : Even context bound file0 file1 vec ↔
      newStretches (min (lines file0).length (last.b + context))
          (min (lines file1).length (last.d + context)) (max 1 (first.a - context))
          (max 1 (first.c - context)) vec =
        (if last.d < cutNumber bound file0 file1 ∧
          cutNumber bound file0 file1 < min (lines file1).length (last.d + context) then 1 else 0) ∧
      oldStretches (max 1 (first.a - context)) (max 1 (first.c - context)) vec =
        if 0 < cutNumber bound file0 file1 ∧
          cutNumber bound file0 file1 < min (lines file1).length (last.d + context) then 1 else 0 := by
    unfold Even
    rw [head, final]
    exact ⟨fun all => all first last rfl rfl, fun both one other same same' => by
      cases same
      cases same'
      exact both⟩
  rw [even]
  unfold Counted uniCount
  dsimp only
  have upb : min (lines file0).length (last.b + context) ≤
      ((lines file0).map Format.unified.lineText).length := by
    rw [List.length_map]
    exact Nat.min_le_left _ _
  have upd : min (lines file1).length (last.d + context) ≤ news.length := by
    rw [length]
    exact Nat.min_le_left _ _
  have range := fitting.range
  generalize min (lines file0).length (last.b + context) = upb_ at *
  generalize min (lines file1).length (last.d + context) = upd_ at *
  generalize max 1 (first.a - context) = lowa at *
  generalize max 1 (first.c - context) = lowc at *
  have body : dumpChanges (sourceOf bound file0 file1) upd_ lowa lowc vec = _ :=
    dumpChanges_eq shows_ showsNew fitting upb upd
  obtain ⟨old, new⟩ := countP_entries fitting upb upd
  have oldCount := countLines_hunk side_old closedOld ends fitting final member upd
  have newCount := countLines_hunk side_new closedOld ends fitting final member upd
  rw [body]
  generalize cutNumber bound file0 file1 = j at *
  have markOld : (0 < j ∧ j < upd_ ∧ newRun last (j + 1) ∈ [' ', '-']) ↔ (last.d < j ∧ j < upd_) := by
    unfold newRun
    split
    · simp
      omega
    · simp
      omega
  have markNew : (0 < j ∧ j < upd_ ∧ newRun last (j + 1) ∈ [' ', '+']) ↔ (0 < j ∧ j < upd_) := by
    unfold newRun
    split <;> simp
  simp only [markOld] at oldCount
  simp only [markNew] at newCount
  constructor
  · rintro ⟨left, right⟩
    constructor
    · split at oldCount <;> split <;> omega
    · split at newCount <;> split <;> omega
  · rintro ⟨left, right⟩
    constructor
    · split at oldCount <;> split at left <;> omega
    · split at newCount <;> split at right <;> omega

/-! ## All hunks -/

theorem isChain_filterMap {α β : Type} {R : α → α → Prop} {S : β → β → Prop} {f : α → Option β}
    {list : List α} (chain : list.IsChain R) (all : ∀ x ∈ list, ∃ b, f x = some b)
    (step : ∀ x ∈ list, ∀ y ∈ list, R x y → ∀ b c, f x = some b → f y = some c → S b c) :
    (list.filterMap f).IsChain S := by
  induction list with
  | nil => exact List.isChain_nil
  | cons x list ih =>
      obtain ⟨b, found⟩ := all x List.mem_cons_self
      have rest := ih chain.tail (fun y later => all y (List.mem_cons_of_mem x later))
        fun y later z last => step y (List.mem_cons_of_mem x later) z (List.mem_cons_of_mem x last)
      rw [List.filterMap_cons_some found]
      cases list with
      | nil => exact List.isChain_singleton b
      | cons y list =>
          have second : y ∈ x :: y :: list := List.mem_cons_of_mem x List.mem_cons_self
          obtain ⟨c, next⟩ := all y second
          rw [List.filterMap_cons_some next] at rest ⊢
          exact List.isChain_cons_cons.mpr
            ⟨step x List.mem_cons_self y second (List.isChain_cons_cons.mp chain).1 b c found next, rest⟩

theorem hunkOf_some (listed : vec ∈ groups context ignored (changesFor bound file0 file1))
    (source : Source) : ∃ hunk, hunkOf context source vec = some hunk := by
  obtain ⟨first, last, head, final, -⟩ := groups_fitting listed
  unfold hunkOf
  rw [head, final]
  exact ⟨_, rfl⟩

theorem hunksFor_chain (context bound : Nat) (ignore_pats : Option (List Byte → Bool))
    (file0 file1 : List Byte) : (hunksFor context bound ignore_pats file0 file1).IsChain Before := by
  have chain := List.isChain_getLast_head_splitBy (fun prev next => !far context prev next)
    (collected (ignored ignore_pats (sourceOf bound file0 file1)) (changesFor bound file0 file1))
  rw [← groups_eq] at chain
  refine isChain_filterMap chain (fun vec listed => hunkOf_some listed _) ?_
  rintro vec listed other listed' ⟨full, full', apart⟩ hunk next dumped dumped'
  obtain ⟨first, last, head, final, fitting⟩ := groups_fitting listed
  obtain ⟨first', last', head', final', -⟩ := groups_fitting listed'
  rw [List.getLast?_eq_some_getLast full] at final
  rw [List.head?_eq_some_head full'] at head'
  have apart_ : far context last first' = true := by
    cases final
    cases head'
    simpa using apart
  obtain ⟨old, new⟩ := far_iff.mp apart_
  have range := fitting.range
  rw [hunkOf, head, List.getLast?_eq_some_getLast full, final, Sections.sourceOf_len0,
    Sections.sourceOf_len1] at dumped
  rw [hunkOf, List.head?_eq_some_head full', head', final', Sections.sourceOf_len0,
    Sections.sourceOf_len1] at dumped'
  cases dumped
  cases dumped'
  unfold Before
  dsimp only
  omega

end

end Netbase.Diff.Tally
