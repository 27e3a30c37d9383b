import Netbase.Fold.Folded

/-!
# The line buffer

The buffer holds the text that is held back.  `realloc` is asked for bytes where the code counts
elements, so that a text of 512 characters fills the first allocation.
-/

namespace Netbase.Fold

/-- What is known of the buffer: a step of the allocation has a quarter of its elements. -/
def Allocated (buf : List Wide) (buf_max : Nat) : Prop :=
  buf.length = buf_max / 4 ∧ buf_max % 2048 = 0

section

variable {locale : Locale} {o : Options}

/-- The buffer holds a text. -/
structure Line.Holds (l : Line) (held : List Wide) : Prop where
  allocated : Allocated l.buf l.buf_max
  indx : l.indx = held.length
  prefix_ : held <+: l.buf

variable {l : Line}

theorem Line.Holds.at_column {held : List Wide} (holds : l.Holds held) (col : Nat) :
    { l with col }.Holds held := ⟨holds.allocated, holds.indx, holds.prefix_⟩

theorem Line.Holds.empty {held : List Wide} (holds : l.Holds held) (col : Nat) :
    { l with indx := 0, col }.Holds [] := ⟨holds.allocated, rfl, List.nil_prefix⟩

theorem Line.Holds.held {held : List Wide} (holds : l.Holds held) : l.held = held := by
  rw [Line.held, holds.indx]
  exact (List.prefix_iff_eq_take.mp holds.prefix_).symm

theorem Line.Holds.put {held front rest : List Wide} (holds : l.Holds held)
    (same : held = front ++ rest) : l.put front.length = front.map .char := by
  have known : front <+: l.buf := (same ▸ List.prefix_append front rest).trans holds.prefix_
  rw [Line.put, ← List.prefix_iff_eq_take.mp known]

theorem length_realloc (buf : List Wide) (bytes : Nat) (grows : buf.length ≤ bytes / wchar_size) :
    buf <+: realloc buf bytes ∧ (realloc buf bytes).length = bytes / wchar_size := by
  unfold realloc
  rw [List.take_of_length_le grows]
  refine ⟨List.prefix_append _ _, ?_⟩
  rw [List.length_append, List.length_replicate]
  omega

theorem Line.Holds.grow {held : List Wide} (holds : l.Holds held) :
    l.grow.Holds held ∧ (held.length < 512 → l.grow.indx < l.grow.buf.length) := by
  obtain ⟨⟨length, steps⟩, indx, known⟩ := holds
  unfold Line.grow
  split
  · next small =>
      have quarter : (l.buf_max + 2048) / wchar_size = l.buf_max / 4 + 512 := by
        unfold wchar_size
        omega
      obtain ⟨kept, longer⟩ := length_realloc l.buf (l.buf_max + 2048) (by omega)
      rw [quarter] at longer
      refine ⟨⟨⟨?_, ?_⟩, indx, known.trans kept⟩, fun few => ?_⟩
      · rw [longer]
        simp only
        omega
      · simp only
        omega
      · show l.indx < _
        rw [longer]
        omega
  · next enough =>
      refine ⟨⟨⟨length, steps⟩, indx, known⟩, fun few => ?_⟩
      omega

theorem Line.Holds.push {held : List Wide} (holds : l.Holds held) (ch : Wide)
    (inside : l.indx < l.buf.length) :
    ∃ l', l.push ch = .ok l' ∧ l'.Holds (held ++ [ch]) ∧ l'.col = l.col ∧
      l'.buf_max = l.buf_max := by
  refine ⟨_, if_pos inside, ⟨?_, ?_, ?_⟩, rfl, rfl⟩
  · exact ⟨(List.length_set ..).trans holds.allocated.1, holds.allocated.2⟩
  · rw [List.length_append, List.length_singleton, ← holds.indx]
  · obtain ⟨rest, same⟩ := holds.prefix_
    rw [holds.indx, ← same, List.length_append] at inside
    obtain ⟨old, rest, rfl⟩ := List.exists_cons_of_length_pos (l := rest) (by omega)
    simp only [holds.indx, ← same]
    rw [List.set_append_right _ _ (Nat.le_refl _), Nat.sub_self, List.set_cons_zero]
    exact ⟨rest, List.append_assoc held [ch] rest⟩

theorem Line.Holds.moveDown {held front back : List Wide} (holds : l.Holds held)
    (same : held = front ++ blank :: back) : (l.moveDown (front.length + 1)).Holds back := by
  obtain ⟨rest, whole⟩ := holds.prefix_
  have indx : l.indx = front.length + 1 + back.length := by
    rw [holds.indx, same, List.length_append, List.length_cons]
    omega
  have few : l.indx - (front.length + 1) = back.length := by omega
  have behind : l.buf.drop (front.length + 1) = back ++ rest := by
    rw [← whole, same, List.append_assoc, List.cons_append, List.append_cons]
    exact List.drop_left' (by rw [List.length_append, List.length_singleton])
  unfold Line.moveDown
  rw [few, behind, List.take_left]
  refine ⟨⟨?_, holds.allocated.2⟩, rfl, List.prefix_append _ _⟩
  have inside : back.length ≤ l.buf.length := by
    rw [← whole, same]
    simp only [List.length_append, List.length_cons]
    omega
  rw [← holds.allocated.1, List.length_append, List.length_drop]
  omega

/-- The buffer holds a text, and the column is the one behind it. -/
structure Line.Represents (locale : Locale) (o : Options) (l : Line) (held : List Wide) : Prop where
  holds : l.Holds held
  col : l.col = columns locale o held

/-- `last_space` is where the text is broken. -/
theorem lastSpace_split {held : List Wide} (holds : l.Holds held) :
    (if o.split_words then lastSpace 0 none l.held else none) =
      (o.split held).map fun split => split.1.length := by
  rw [holds.held, lastSpace_eq]
  unfold Options.split
  cases o.split_words with
  | false => rfl
  | true =>
      rw [if_pos rfl, if_pos rfl]
      cases splitBlank held with
      | none => rfl
      | some split => exact congrArg some (Nat.zero_add _)

theorem breakAt_whole {held : List Wide} (holds : l.Holds held) {ch : Wide}
    (split : o.split held = none) :
    l.breakAt locale o ch =
      (held.map .char ++ [.fold none],
        { l with indx := 0, col := new_column_position locale o 0 ch }) := by
  have written := holds.put (List.append_nil held).symm
  unfold Line.breakAt
  rw [lastSpace_split holds, split, holds.indx, ← written]
  rfl

theorem breakAt_words {held front back : List Wide} (holds : l.Holds held) {ch : Wide}
    (split : o.split held = some (front, back)) (same : held = front ++ blank :: back) :
    l.breakAt locale o ch =
      (front.map .char ++ [.fold (some (back ++ [ch]))],
        { l.moveDown (front.length + 1) with
          col := new_column_position locale o (columns locale o back) ch }) := by
  have down := (holds.moveDown same).held
  unfold Line.breakAt
  rw [lastSpace_split holds, split]
  simp only [Option.map_some, down, holds.put same]

theorem Line.Represents.next {l : Line} {held : List Wide}
    (represents : l.Represents locale o held) {ch : Wide} (other : ch ≠ newline) :
    ∃ (l₀ : Line) (left : List Wide), l₀.Holds left ∧
      l₀.col = columns locale o (left ++ [ch]) ∧ l₀.buf_max = l.buf_max ∧
      left.length ≤ held.length ∧ (step locale o held ch).2 = left ++ [ch] ∧
      l.next locale o ch =
        (l₀.grow.push ch).map fun l => ((step locale o held ch).1, l) := by
  have result : ∀ {out : List Put} {l₀ : Line},
      (if o.width < new_column_position locale o l.col ch then l.breakAt locale o ch
        else ([], { l with col := new_column_position locale o l.col ch })) = (out, l₀) →
      l.next locale o ch = (l₀.grow.push ch).map fun l => (out, l) := by
    intro out l₀ same
    dsimp only [Line.next]
    rw [same]
    show (l₀.grow.push ch >>= fun l => Except.ok (out, l)) = _
    cases l₀.grow.push ch <;> rfl
  have col : new_column_position locale o l.col ch = columns locale o (held ++ [ch]) := by
    rw [represents.col, columns_concat]
  rw [col] at result
  have stepped := step_stepped locale o held ch
  generalize step locale o held ch = written at stepped
  cases stepped with
  | newline same => exact absurd same other
  | kept _ fits =>
      refine ⟨_, held, represents.holds.at_column _, rfl, rfl, Nat.le_refl _, rfl, ?_⟩
      exact result (if_neg (Nat.not_lt.mpr fits))
  | whole _ wide split =>
      refine ⟨_, [], represents.holds.empty _, rfl, rfl, Nat.zero_le _, rfl,
        result ((if_pos wide).trans ?_)⟩
      rw [breakAt_whole represents.holds split]
      rfl
  | words _ wide words split same clean =>
      refine ⟨_, _, (represents.holds.moveDown same).at_column _, rfl, rfl, ?_, rfl,
        result ((if_pos wide).trans ?_)⟩
      · rw [same, List.length_append, List.length_cons]
        omega
      rw [breakAt_words represents.holds split same, ← columns_concat]
      rfl

theorem Line.Represents.start {held : List Wide} (represents : l.Represents locale o held) :
    { l with col := 0, indx := 0 }.Represents locale o [] :=
  ⟨represents.holds.empty 0, rfl⟩

theorem Line.Represents.step {held : List Wide} (represents : l.Represents locale o held)
    {ch : Wide} (other : ch ≠ newline) :
    (l.next locale o ch = .error .outside ∧ 512 < (step locale o held ch).2.length) ∨
      ∃ l', l.next locale o ch = .ok ((Fold.step locale o held ch).1, l') ∧
        l'.Represents locale o (Fold.step locale o held ch).2 ∧
        (l.buf_max ≤ 2048 → held.length ≤ 512 → l'.buf_max ≤ 2048) := by
  obtain ⟨l₀, left, holds, col, limit, shorter, same, result⟩ := represents.next other
  obtain ⟨grown, room⟩ := holds.grow
  have column : l₀.grow.col = l₀.col := by
    unfold Line.grow
    split <;> rfl
  rw [result, same]
  by_cases inside : l₀.grow.indx < l₀.grow.buf.length
  · obtain ⟨l', pushed, holds', col', limit'⟩ := grown.push ch inside
    rw [pushed]
    refine Or.inr ⟨l', rfl, ⟨holds', col'.trans (column.trans col)⟩, fun once few => ?_⟩
    rw [limit', Line.grow]
    split
    · next small =>
        have steps := holds.allocated.2
        have indx := holds.indx
        simp only
        omega
    · rwa [limit]
  · refine Or.inl ⟨?_, ?_⟩
    · rw [Line.push, if_neg inside]
      rfl
    · have many := Nat.le_of_not_lt fun few => inside (room few)
      rw [List.length_append, List.length_singleton]
      omega

theorem foldLoop_folded (input : List Wide) :
    ∀ {l : Line} {held : List Wide}, l.Represents locale o held →
      (foldLoop locale o input l = .error .outside ∧
          ∃ text ∈ helds locale o held input, 512 < text.length) ∨
        ∃ last, foldLoop locale o input l = .ok (folded locale o held input, last) ∧
          Allocated last.buf last.buf_max := by
  induction input with
  | nil =>
      intro l held represents
      have written := represents.holds.put (List.append_nil held).symm
      refine Or.inr ⟨l, ?_, represents.holds.allocated⟩
      rw [foldLoop, represents.holds.indx, written, folded]
  | cons ch input ih =>
      intro l held represents
      rw [foldLoop, folded, helds]
      by_cases ends : ch = newline
      · have written := represents.holds.put (List.append_nil held).symm
        have stepped : step locale o held ch = (held.map .char ++ [.char newline], []) :=
          if_pos ends
        rw [if_pos ends, stepped]
        rcases ih represents.start with ⟨outside, text, member, long⟩ | ⟨last, result, kept⟩
        · rw [outside]
          exact Or.inl ⟨rfl, text, List.mem_cons_of_mem _ member, long⟩
        · rw [result]
          refine Or.inr ⟨last, ?_, kept⟩
          show Except.ok (l.put l.indx ++ .char newline :: folded locale o [] input, last) = _
          rw [represents.holds.indx, written, List.append_assoc]
          rfl
      · rw [if_neg ends]
        rcases represents.step ends with ⟨outside, long⟩ | ⟨l', result, represents', -⟩
        · rw [outside]
          exact Or.inl ⟨rfl, _, List.mem_cons_self, long⟩
        · rw [result]
          rcases ih represents' with ⟨outside, text, member, long⟩ | ⟨last, more, kept⟩
          · refine Or.inl ⟨?_, text, List.mem_cons_of_mem _ member, long⟩
            show (foldLoop locale o input l' >>= _) = _
            rw [outside]
            rfl
          · refine Or.inr ⟨last, ?_, kept⟩
            show (foldLoop locale o input l' >>= _) = _
            rw [more]
            rfl

theorem Line.Holds.length_le {held : List Wide} (holds : l.Holds held) (once : l.buf_max ≤ 2048) :
    held.length ≤ 512 := by
  have inside := holds.prefix_.length_le
  have quarter := holds.allocated.1
  omega

/-- After one allocation at most the buffer never holds more than its elements. -/
theorem foldLoop_short (input : List Wide) :
    ∀ {l : Line} {held : List Wide} {result : List Put × Line}, l.Represents locale o held →
      l.buf_max ≤ 2048 → foldLoop locale o input l = .ok result →
      ∀ text ∈ helds locale o held input, text.length ≤ 512 := by
  induction input with
  | nil => exact fun _ _ _ _ member => absurd member List.not_mem_nil
  | cons ch input ih =>
      intro l held result represents once folds text member
      rw [foldLoop] at folds
      rw [helds, List.mem_cons] at member
      by_cases ends : ch = newline
      · have stepped : (step locale o held ch).2 = [] := by rw [step, if_pos ends]
        rw [stepped] at member
        rw [if_pos ends] at folds
        rcases member with rfl | later
        · exact Nat.zero_le _
        · cases rest : foldLoop locale o input { l with col := 0, indx := 0 } with
          | error e =>
              rw [rest] at folds
              cases folds
          | ok more => exact ih represents.start once rest text later
      · rw [if_neg ends] at folds
        rcases represents.step ends with ⟨outside, -⟩ | ⟨l', next, represents', limit⟩
        · rw [outside] at folds
          cases folds
        · have once' := limit once (represents.holds.length_le once)
          rw [next] at folds
          rcases member with rfl | later
          · exact represents'.holds.length_le once'
          · cases rest : foldLoop locale o input l' with
            | error e =>
                simp only [bind, Except.bind, rest] at folds
                cases folds
            | ok more => exact ih represents' once' rest text later

theorem helds_whole (input : List Wide) :
    ∀ {held : List Wide}, newline ∉ input →
      (∀ front, front <+: input → columns locale o (held ++ front) ≤ o.width) → input ≠ [] →
      held ++ input ∈ helds locale o held input := by
  induction input with
  | nil => exact fun _ _ some_ => absurd rfl some_
  | cons ch input ih =>
      intro held clean fits _
      rw [List.mem_cons, not_or] at clean
      have one : columns locale o (held ++ [ch]) ≤ o.width := fits [ch] (List.prefix_append _ input)
      have stepped : step locale o held ch = ([], held ++ [ch]) := by
        rw [step, if_neg (Ne.symm clean.1), if_pos one]
      rw [helds, stepped]
      show held ++ ch :: input ∈ (held ++ [ch]) :: helds locale o (held ++ [ch]) input
      rw [List.append_cons held ch input]
      by_cases last : input = []
      · rw [last, List.append_nil]
        exact List.mem_cons_self
      · refine List.mem_cons_of_mem _ (ih clean.2 (fun front inside => ?_) last)
        rw [← List.append_cons]
        exact fits (ch :: front) (List.cons_prefix_cons.mpr ⟨rfl, inside⟩)

end

/-- A line of a file is begun with nothing moved down unless a blank was dropped for it. -/
theorem lines_moved {out : List Put} (none_ : ∀ moved, .fold moved ∈ out → moved = none) :
    ∀ {line : OutputLine}, line.moved = none → ∀ l ∈ lines line out, l.moved = none := by
  induction out with
  | nil =>
      intro line plain l member
      rw [lines, List.mem_singleton] at member
      rwa [member]
  | cons p out ih =>
      intro line plain l member
      have rest := @ih fun moved member => none_ moved (List.mem_cons_of_mem _ member)
      cases p with
      | char c =>
          rw [lines] at member
          split at member
          · rcases List.mem_cons.mp member with rfl | later
            · exact plain
            · exact rest rfl l later
          · refine rest ?_ l member
            exact plain
      | fold moved =>
          rw [lines] at member
          rcases List.mem_cons.mp member with rfl | later
          · exact plain
          · exact rest (none_ moved List.mem_cons_self) l later

/-- Reading the newlines that are inserted at a blank as that blank gives the input back, and with
no `-s` deleting them does. A line whose characters fit is not too wide, unless what was moved down
for it is. Nothing is stored outside of the buffer as long as it holds 512 characters at most. -/
theorem fold_folds (locale : Locale) (o : Options) {kept : Static}
    (allocated : Allocated kept.buf kept.buf_max) (input : List Wide) :
    (∀ out last, fold locale o kept input = .ok (out, last) →
      Allocated last.buf last.buf_max ∧ unfolded out = input ∧
        (∀ line ∈ lines ⟨none, []⟩ out, NotWide locale o line) ∧
        (o.split_words = false →
          deleted out = input ∧ ∀ line ∈ lines ⟨none, []⟩ out, line.moved = none)) ∧
      ((∀ text ∈ helds locale o [] input, text.length ≤ 512) →
        ∃ out last, fold locale o kept input = .ok (out, last)) := by
  have represents : Line.Represents locale o ⟨kept.buf, kept.buf_max, 0, 0⟩ [] :=
    ⟨⟨allocated, rfl, List.nil_prefix⟩, rfl⟩
  rcases foldLoop_folded input represents with ⟨outside, text, member, long⟩ | ⟨l, result, after⟩
  · have fails : fold locale o kept input = .error .outside := by
      rw [fold, outside]
      rfl
    refine ⟨fun out last same => ?_, fun short => ?_⟩
    · cases fails.symm.trans same
    · exact absurd (short text member) (Nat.not_le.mpr long)
  · have writes : fold locale o kept input =
        .ok (folded locale o [] input, ⟨l.buf, l.buf_max⟩) := by
      rw [fold, result]
      rfl
    refine ⟨fun out last same => ?_, fun _ => ⟨_, _, writes⟩⟩
    cases writes.symm.trans same
    have whole : unfolded (folded locale o [] input) = input := unfolded_folded input []
    refine ⟨after, whole, folded_notWide input holding_nil, fun plain => ?_⟩
    have none_ : ∀ moved, .fold moved ∈ folded locale o [] input → moved = none :=
      folded_plain plain input []
    exact ⟨(deleted_eq_unfolded _ none_).trans whole, lines_moved none_ rfl⟩

/-- The first buffer is stored outside of exactly if it is to hold more than 512 characters. -/
theorem fold_outside_iff (locale : Locale) (o : Options) (input : List Wide) :
    fold locale o ⟨[], 0⟩ input = .error .outside ↔
      ∃ text ∈ helds locale o [] input, 512 < text.length := by
  have represents : Line.Represents locale o ⟨[], 0, 0, 0⟩ [] :=
    ⟨⟨⟨rfl, rfl⟩, rfl, List.nil_prefix⟩, rfl⟩
  rcases foldLoop_folded input represents with ⟨outside, long⟩ | ⟨l, result, -⟩
  · refine iff_of_true ?_ long
    rw [fold, outside]
    rfl
  · refine iff_of_false (fun same => ?_) ?_
    · rw [fold, result] at same
      cases same
    · rintro ⟨text, member, long⟩
      have short := foldLoop_short input represents (Nat.zero_le _) result text member
      omega

/-- With `-b` and characters of one byte the columns are the characters. -/
theorem columns_bytes {locale : Locale} {o : Options} (bytes : o.count_bytes = true)
    (one : ∀ c, locale.wcrtomb c = 1) (text : List Wide) :
    columns locale o text = text.length := by
  have counted : ∀ (text : List Wide) (col : Nat),
      text.foldl (new_column_position locale o) col = col + text.length := by
    intro text
    induction text with
    | nil => exact fun _ => rfl
    | cons c text ih =>
        intro col
        rw [List.foldl_cons, ih, new_column_position, if_pos bytes, one, List.length_cons]
        omega
  rw [columns, counted, Nat.zero_add]

/-- A line of more than 512 such characters within the width overruns the first buffer. -/
theorem fold_overrun {locale : Locale} {o : Options} (bytes : o.count_bytes = true)
    (one : ∀ c, locale.wcrtomb c = 1) {input : List Wide} (clean : newline ∉ input)
    (long : 512 < input.length) (fits : input.length ≤ o.width) :
    fold locale o ⟨[], 0⟩ input = .error .outside := by
  refine (fold_outside_iff locale o input).mpr ⟨[] ++ input, ?_, long⟩
  refine helds_whole input clean (fun front inside => ?_) ?_
  · rw [columns_bytes bytes one]
    exact Nat.le_trans inside.length_le fits
  · rintro rfl
    exact absurd long (Nat.not_lt_zero _)

def posix : Locale := ⟨fun c => if 32 ≤ c ∧ c < 127 then 1 else -1, fun _ => 1⟩

/-- `ab c` in two columns -/
theorem fold_folds_two :
    ∃ out last, fold posix ⟨false, true, 2⟩ ⟨[], 0⟩ [97, 98, 32, 99] = .ok (out, last) ∧
      unfolded out = [97, 98, 32, 99] := by
  have allocated : Allocated (Static.mk [] 0).buf (Static.mk [] 0).buf_max := ⟨rfl, rfl⟩
  obtain ⟨writes, stores⟩ := fold_folds posix ⟨false, true, 2⟩ allocated [97, 98, 32, 99]
  obtain ⟨out, last, result⟩ := stores (by decide)
  exact ⟨out, last, result, (writes out last result).2.1⟩

/-- The blank of `a b` is dropped in two columns; ` abcdefgh` and a tab are folded to a line of 16
columns where the width is 10; and the 513th character of a line is stored outside of the
buffer. -/
theorem fold_not_restored :
    (¬ ∀ (o : Options) (input : List Wide),
      ∃ out last, fold posix o ⟨[], 0⟩ input = .ok (out, last) ∧ deleted out = input) ∧
    (fold posix ⟨false, true, 10⟩ ⟨[], 0⟩ [32, 97, 98, 99, 100, 101, 102, 103, 104, 9]).map
        (fun result => (lines ⟨none, []⟩ result.1).map OutputLine.text) =
      .ok [[], [97, 98, 99, 100, 101, 102, 103, 104, 9]] ∧
    columns posix ⟨false, true, 10⟩ [97, 98, 99, 100, 101, 102, 103, 104, 9] = 16 ∧
    fold posix ⟨true, false, 600⟩ ⟨[], 0⟩ (List.replicate 513 97) = .error .outside := by
  refine ⟨fun all => ?_, by decide +kernel, by decide +kernel, ?_⟩
  · obtain ⟨out, last, result, same⟩ := all ⟨false, true, 2⟩ [97, 32, 98]
    have folded : (fold posix ⟨false, true, 2⟩ ⟨[], 0⟩ [97, 32, 98]).map Prod.fst =
        .ok [.char 97, .fold (some [98]), .char 98] := by decide +kernel
    rw [result] at folded
    have written : out = [.char 97, .fold (some [98]), .char 98] := Except.ok.inj folded
    rw [written] at same
    exact absurd same (by decide)
  · refine fold_overrun rfl (fun _ => rfl) ?_ ?_ ?_
    · rw [List.mem_replicate]
      exact fun same => absurd same.2 (by decide)
    · rw [List.length_replicate]
      decide
    · rw [List.length_replicate]
      decide

end Netbase.Fold
