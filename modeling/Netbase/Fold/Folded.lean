import Netbase.Fold.Line

/-!
# What folding keeps

The text that is held back is all that the next step depends on; the buffer holds it as long as it
was allocated large enough.  Deleting the inserted newlines, or reading them as the blank that was
dropped for them, gives the input back, and a line is no wider than what it was begun with or the
width.
-/

namespace Netbase.Fold

/-! ## Folding a text -/

/-- A text at its last blank. -/
def splitBlank : List Wide → Option (List Wide × List Wide)
  | [] => none
  | c :: rest =>
      match splitBlank rest with
      | some (front, back) => some (c :: front, back)
      | none => if c = blank then some ([], rest) else none

/-- With `-s` a text is broken at its last blank. -/
def Options.split (o : Options) (held : List Wide) : Option (List Wide × List Wide) :=
  if o.split_words then splitBlank held else none

section

variable (locale : Locale) (o : Options)

/-- What a character adds to the output, and the text that is held then. -/
def step (held : List Wide) (ch : Wide) : List Put × List Wide :=
  if ch = newline then (held.map .char ++ [.char newline], [])
  else if columns locale o (held ++ [ch]) ≤ o.width then ([], held ++ [ch])
  else
    match o.split held with
    | some (front, back) => (front.map .char ++ [.fold (some (back ++ [ch]))], back ++ [ch])
    | none => (held.map .char ++ [.fold none], [ch])

def folded (held : List Wide) : List Wide → List Put
  | [] => held.map .char
  | ch :: input => (step locale o held ch).1 ++ folded (step locale o held ch).2 input

/-- The texts that are held on the way. -/
def helds (held : List Wide) : List Wide → List (List Wide)
  | [] => []
  | ch :: input => (step locale o held ch).2 :: helds (step locale o held ch).2 input

end

/-- The output without the inserted newlines. -/
def deleted (out : List Put) : List Wide :=
  out.flatMap fun
    | .char c => [c]
    | .fold _ => []

/-- The output with the blanks that have been dropped in place of their newlines. -/
def unfolded (out : List Put) : List Wide :=
  out.flatMap fun
    | .char c => [c]
    | .fold none => []
    | .fold (some _) => [blank]

structure OutputLine where
  moved : Option (List Wide)
  text : List Wide
  deriving Repr, DecidableEq

def lines (line : OutputLine) : List Put → List OutputLine
  | [] => [line]
  | .char c :: rest =>
      if c = newline then line :: lines ⟨none, []⟩ rest
      else lines { line with text := line.text ++ [c] } rest
  | .fold moved :: rest => line :: lines ⟨moved, []⟩ rest

section

variable {locale : Locale} {o : Options}

/-! ## The last blank -/

theorem splitBlank_cases (held : List Wide) :
    (splitBlank held = none ∧ blank ∉ held) ∨
      ∃ front back, splitBlank held = some (front, back) ∧ held = front ++ blank :: back ∧
        blank ∉ back := by
  induction held with
  | nil => exact Or.inl ⟨rfl, List.not_mem_nil⟩
  | cons c rest ih =>
      rw [splitBlank]
      rcases ih with ⟨none_, clean⟩ | ⟨front, back, split, whole, clean⟩
      · rw [none_]
        by_cases here : c = blank
        · exact Or.inr ⟨[], rest, if_pos here, by rw [here, List.nil_append], clean⟩
        · refine Or.inl ⟨if_neg here, ?_⟩
          rw [List.mem_cons, not_or]
          exact ⟨Ne.symm here, clean⟩
      · rw [split]
        exact Or.inr ⟨c :: front, back, rfl, by rw [whole, List.cons_append], clean⟩

theorem lastSpace_eq (held : List Wide) :
    ∀ (i : Nat) (last : Option Nat), lastSpace i last held =
      match splitBlank held with
      | some (front, _) => some (i + front.length)
      | none => last := by
  induction held with
  | nil => exact fun _ _ => rfl
  | cons c rest ih =>
      intro i last
      rw [lastSpace, ih, splitBlank]
      cases splitBlank rest with
      | some split => exact congrArg some (by rw [List.length_cons]; omega)
      | none => by_cases here : c = blank <;> simp [here]

/-! ## The output -/

theorem unfolded_append (out more : List Put) :
    unfolded (out ++ more) = unfolded out ++ unfolded more := List.flatMap_append

theorem unfolded_chars (text : List Wide) : unfolded (text.map .char) = text := by
  induction text with
  | nil => rfl
  | cons c text ih => exact congrArg (c :: ·) ih

theorem split_cases (o : Options) (held : List Wide) :
    o.split held = none ∨
      ∃ front back, o.split_words = true ∧ o.split held = some (front, back) ∧
        held = front ++ blank :: back ∧ blank ∉ back := by
  unfold Options.split
  cases o.split_words with
  | false => exact Or.inl rfl
  | true =>
      rcases splitBlank_cases held with ⟨none_, -⟩ | ⟨front, back, split, whole⟩
      · exact Or.inl none_
      · exact Or.inr ⟨front, back, rfl, split, whole⟩

/-- What a step can be. -/
inductive Stepped (locale : Locale) (o : Options) (held : List Wide) (ch : Wide) :
    List Put × List Wide → Prop where
  | newline (same : ch = newline) :
      Stepped locale o held ch (held.map .char ++ [.char ch], [])
  | kept (other : ch ≠ newline) (fits : columns locale o (held ++ [ch]) ≤ o.width) :
      Stepped locale o held ch ([], held ++ [ch])
  | whole (other : ch ≠ newline) (wide : o.width < columns locale o (held ++ [ch]))
      (split : o.split held = none) :
      Stepped locale o held ch (held.map .char ++ [.fold none], [ch])
  | words {front back : List Wide} (other : ch ≠ newline)
      (wide : o.width < columns locale o (held ++ [ch])) (words : o.split_words = true)
      (split : o.split held = some (front, back)) (same : held = front ++ blank :: back)
      (clean : blank ∉ back) :
      Stepped locale o held ch
        (front.map .char ++ [.fold (some (back ++ [ch]))], back ++ [ch])

theorem step_stepped (locale : Locale) (o : Options) (held : List Wide) (ch : Wide) :
    Stepped locale o held ch (step locale o held ch) := by
  unfold step
  by_cases ends : ch = newline
  · rw [if_pos ends, ← ends]
    exact .newline ends
  rw [if_neg ends]
  by_cases fits : columns locale o (held ++ [ch]) ≤ o.width
  · rw [if_pos fits]
    exact .kept ends fits
  rw [if_neg fits]
  have wide := Nat.lt_of_not_le fits
  rcases split_cases o held with none_ | ⟨front, back, words, split, same, clean⟩
  · rw [none_]
    exact .whole ends wide none_
  · rw [split]
    exact .words ends wide words split same clean

theorem step_unfolded (held : List Wide) (ch : Wide) :
    unfolded (step locale o held ch).1 ++ (step locale o held ch).2 = held ++ [ch] := by
  have stepped := step_stepped locale o held ch
  generalize step locale o held ch = result at stepped
  cases stepped with
  | newline _ =>
      rw [unfolded_append, unfolded_chars]
      exact List.append_nil _
  | kept _ _ => rfl
  | whole _ _ _ =>
      rw [unfolded_append, unfolded_chars]
      simp [unfolded]
  | words _ _ _ _ same _ =>
      rw [unfolded_append, unfolded_chars, same]
      simp [unfolded]

theorem unfolded_folded (input : List Wide) :
    ∀ held, unfolded (folded locale o held input) = held ++ input := by
  induction input with
  | nil =>
      intro held
      rw [folded, unfolded_chars, List.append_nil]
  | cons ch input ih =>
      intro held
      rw [folded, unfolded_append, ih, ← List.append_assoc, step_unfolded, ← List.append_cons]

/-- Without `-s` nothing is moved down. -/
theorem folded_plain (plain : o.split_words = false) (input : List Wide) :
    ∀ held moved, .fold moved ∈ folded locale o held input → moved = none := by
  induction input with
  | nil =>
      intro held moved member
      rw [folded, List.mem_map] at member
      obtain ⟨c, -, same⟩ := member
      cases same
  | cons ch input ih =>
      intro held moved member
      rw [folded, List.mem_append] at member
      rcases member with here | later
      · have stepped := step_stepped locale o held ch
        generalize step locale o held ch = result at stepped here
        cases stepped with
        | newline _ => simp at here
        | kept _ _ => cases here
        | whole _ _ _ => simpa using here
        | words _ _ words _ _ _ => cases plain.symm.trans words
      · exact ih _ _ later

theorem deleted_eq_unfolded (out : List Put) (none_ : ∀ moved, .fold moved ∈ out → moved = none) :
    deleted out = unfolded out := by
  induction out with
  | nil => rfl
  | cons p out ih =>
      have rest := ih fun moved member => none_ moved (List.mem_cons_of_mem _ member)
      unfold deleted unfolded at rest ⊢
      rw [List.flatMap_cons, List.flatMap_cons, rest]
      cases p with
      | char c => rfl
      | fold moved =>
          rw [none_ moved List.mem_cons_self]

/-! ## The lines -/

theorem lines_chars (text : List Wide) (rest : List Put) :
    ∀ {line : OutputLine}, newline ∉ text →
      lines line (text.map .char ++ rest) = lines { line with text := line.text ++ text } rest := by
  induction text with
  | nil => exact fun {line} _ => by rw [List.append_nil]; rfl
  | cons c text ih =>
      intro line clean
      rw [List.mem_cons, not_or] at clean
      rw [List.map_cons, List.cons_append, lines, if_neg (Ne.symm clean.1), ih clean.2,
        ← List.append_cons]

theorem columns_concat (text : List Wide) (ch : Wide) :
    columns locale o (text ++ [ch]) =
      new_column_position locale o (columns locale o text) ch := List.foldl_concat _ _ _ _

theorem columns_blank (text : List Wide) :
    columns locale o text ≤ columns locale o (text ++ [blank]) := by
  rw [columns_concat]
  unfold new_column_position
  split_ifs with bytes backspace _ return_ tab
  · exact Nat.le_add_right _ _
  · exact absurd backspace (by decide)
  · exact Nat.le_refl _
  · exact absurd return_ (by decide)
  · exact absurd tab (by decide)
  · exact Nat.le_add_right _ _
  · exact Nat.le_refl _

def NotWide (locale : Locale) (o : Options) (line : OutputLine) : Prop :=
  (∀ c ∈ line.text, columns locale o [c] ≤ o.width) →
    (∀ moved, line.moved = some moved → columns locale o moved ≤ o.width) →
    columns locale o line.text ≤ o.width

/-- The text that is held was begun with a part that has not been tested: nothing, the character
that was too wide for the line in front, or what was moved down with it.  The rest has been. -/
structure Holding (locale : Locale) (o : Options) (moved : Option (List Wide))
    (start held : List Wide) : Prop where
  clean : newline ∉ held
  front : start <+: held
  blank_last : ∀ before behind, start = before ++ blank :: behind → behind = []
  begun : moved = some start ∨ moved = none ∧ start.length ≤ 1
  tested : columns locale o start ≤ o.width → ∀ text, start <+: text → text <+: held →
    columns locale o text ≤ o.width

theorem holding_nil : Holding locale o none [] [] where
  clean := List.not_mem_nil
  front := List.prefix_rfl
  blank_last := fun before behind same => by cases before <;> cases same
  begun := Or.inr ⟨rfl, Nat.zero_le _⟩
  tested := fun narrow text _ front => by rwa [List.prefix_nil.mp front]

theorem holding_start {moved : Option (List Wide)} {start : List Wide} (clean : newline ∉ start)
    (blank_last : ∀ before behind, start = before ++ blank :: behind → behind = [])
    (begun : moved = some start ∨ moved = none ∧ start.length ≤ 1) :
    Holding locale o moved start start where
  clean := clean
  front := List.prefix_rfl
  blank_last := blank_last
  begun := begun
  tested := fun narrow text front behind => by
    rwa [← front.eq_of_length_le behind.length_le]

theorem Holding.keep {moved : Option (List Wide)} {start held : List Wide}
    (holding : Holding locale o moved start held) {ch : Wide} (other : ch ≠ newline)
    (fits : columns locale o (held ++ [ch]) ≤ o.width) :
    Holding locale o moved start (held ++ [ch]) where
  clean := by
    rw [List.mem_append, List.mem_singleton, not_or]
    exact ⟨holding.clean, Ne.symm other⟩
  front := holding.front.trans (List.prefix_append _ _)
  blank_last := holding.blank_last
  begun := holding.begun
  tested := fun narrow text front behind => by
    rcases List.prefix_concat_iff.mp behind with whole | inside
    · rwa [whole]
    · exact holding.tested narrow text front inside

theorem Holding.notWide {moved : Option (List Wide)} {start held text : List Wide}
    (holding : Holding locale o moved start held)
    (written : text = held ∨ ∃ back, held = text ++ blank :: back) :
    NotWide locale o ⟨moved, text⟩ := by
  intro each first
  have inside : text <+: held := by
    rcases written with rfl | ⟨back, rfl⟩
    · exact List.prefix_rfl
    · exact List.prefix_append _ _
  by_cases begins : start <+: text
  · refine holding.tested ?_ text begins inside
    rcases holding.begun with same | ⟨-, short⟩
    · exact first start same
    · match start with
      | [] => exact Nat.zero_le _
      | [c] => exact each c (begins.subset List.mem_cons_self)
      | _ :: _ :: _ => exact absurd short (by simp)
  · -- the line was broken at the blank that its first part ends in
    obtain ⟨back, rfl⟩ := written.resolve_left fun same => begins (same ▸ holding.front)
    have shorter : text <+: start :=
      (List.prefix_or_prefix_of_prefix inside holding.front).resolve_right begins
    obtain ⟨rest, rfl⟩ := shorter
    have behind := (List.prefix_append_right_inj text).mp holding.front
    match rest with
    | [] => exact absurd ⟨[], by rw [List.append_nil, List.append_nil]⟩ begins
    | c :: rest =>
        obtain ⟨rfl, -⟩ := List.cons_prefix_cons.mp behind
        obtain rfl := holding.blank_last text rest rfl
        rcases holding.begun with same | ⟨-, short⟩
        · exact Nat.le_trans (columns_blank text) (first _ same)
        · have empty : text = [] := by
            rw [← List.length_eq_zero_iff]
            rw [List.length_append, List.length_singleton] at short
            omega
          rw [empty]
          exact Nat.zero_le _

theorem blank_last {back : List Wide} {ch : Wide} (clean : blank ∉ back) :
    ∀ before behind, back ++ [ch] = before ++ blank :: behind → behind = [] := by
  intro before behind same
  rcases List.eq_nil_or_concat behind with none_ | ⟨between, last, rfl⟩
  · exact none_
  · rw [List.concat_eq_append, ← List.cons_append, ← List.append_assoc] at same
    obtain ⟨inside, -⟩ := List.append_inj' same rfl
    rw [inside] at clean
    exact absurd (List.mem_append_right before List.mem_cons_self) clean

theorem folded_notWide (input : List Wide) :
    ∀ {moved : Option (List Wide)} {start held : List Wide}, Holding locale o moved start held →
      ∀ line ∈ lines ⟨moved, []⟩ (folded locale o held input), NotWide locale o line := by
  induction input with
  | nil =>
      intro moved start held holding line member
      have whole : lines ⟨moved, []⟩ (held.map .char ++ []) = lines ⟨moved, held⟩ [] :=
        lines_chars held [] holding.clean
      rw [List.append_nil] at whole
      rw [folded, whole, lines, List.mem_singleton] at member
      rw [member]
      exact holding.notWide (Or.inl rfl)
  | cons ch input ih =>
      intro moved start held holding line member
      have flushed : ∀ {text : List Wide} {rest : List Put}, newline ∉ text →
          lines ⟨moved, []⟩ (text.map .char ++ rest) = lines ⟨moved, text⟩ rest :=
        fun clean => lines_chars _ _ clean
      rw [folded] at member
      have stepped := step_stepped locale o held ch
      generalize step locale o held ch = result at stepped member
      cases stepped with
      | newline same =>
          rw [List.append_assoc, flushed holding.clean, List.singleton_append, lines, if_pos same,
            List.mem_cons] at member
          rcases member with rfl | later
          · exact holding.notWide (Or.inl rfl)
          · exact ih holding_nil line later
      | kept other fits => exact ih (holding.keep other fits) line member
      | whole other wide split =>
          rw [List.append_assoc, flushed holding.clean, List.singleton_append, lines,
            List.mem_cons] at member
          rcases member with rfl | later
          · exact holding.notWide (Or.inl rfl)
          · refine ih (holding_start ?_ ?_ (Or.inr ⟨rfl, Nat.le_refl _⟩)) line later
            · rw [List.mem_singleton]
              exact Ne.symm other
            · exact @blank_last [] ch List.not_mem_nil
      | words other wide words split same clean =>
          have front := holding.clean
          rw [same, List.mem_append, List.mem_cons, not_or, not_or] at front
          rw [List.append_assoc, flushed front.1, List.singleton_append, lines,
            List.mem_cons] at member
          rcases member with rfl | later
          · exact holding.notWide (Or.inr ⟨_, same⟩)
          · refine ih (holding_start ?_ (blank_last clean) (Or.inl rfl)) line later
            rw [List.mem_append, List.mem_singleton, not_or]
            exact ⟨front.2.2, Ne.symm other⟩

end

end Netbase.Fold
