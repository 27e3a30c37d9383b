import Netbase.Patch.Pch

/-!
# Indented patches

`intuit_diff_type` looks for the first line of a diff behind its indentation and
keeps the column where that line starts in `p_indent`; `pgetline` takes as many
columns off every line.  Both count a tab as a jump to the next tab stop, the one
to every eighth column and the other one not quite.
-/

namespace Netbase.Patch.Indent

open Netbase.Text
open Netbase.Patch.Pch

/-- The characters that count as indentation. -/
def indents (c : Byte) : Bool := c == byte ' ' || c == byte '\t' || c == byte 'X'

/-- The column behind a character, with tabs as the loop counts them. -/
def column (modulus indent : Nat) (c : Byte) : Nat :=
  if c = byte '\t' then indent + (8 - indent % modulus) else indent + 1

def columns (modulus indent : Nat) (s : List Byte) : Nat := s.foldl (column modulus) indent

/-! ## Finding the patch -/

inductive DiffType where
  | CONTEXT_DIFF
  | NEW_CONTEXT_DIFF
  | NORMAL_DIFF
  | ED_DIFF
  | UNI_DIFF
  deriving DecidableEq, Repr

/-- What `intuit_diff_type` finds: the kind, `p_indent` and `p_sline`. -/
structure Found where
  retval : DiffType
  pIndent : Nat
  pSline : Nat
  deriving DecidableEq, Repr

/-- The state between two lines; `fclLine` is the line of the first command. -/
structure Scan where
  inputLine : Nat
  pIndent : Nat
  fclLine : Option Nat
  lastLineWasCommand : Bool
  starsLastLine : Bool

def indentOf (buf : List Byte) : Nat := columns 8 0 (buf.takeWhile indents)

/-- A line like `12,13d`. -/
def isCommand (s : List Byte) : Bool :=
  let t := s.dropWhile fun c => isdigit c || c == byte ','
  isdigit (s.headD 0) && (t.headD 0 == byte 'd' || t.headD 0 == byte 'c' || t.headD 0 == byte 'a')

def stars (n : Nat) : List Byte := List.replicate n (byte '*')

/-- The character before the newline of a context header is a star in the new style. -/
def newStyle (s : List Byte) : Bool := (s.takeWhile (· ≠ nl)).getLast? == some (byte '*')

/-- The kinds that a line may be recognised as, by the switches given. -/
def wanted (diffType : Option DiffType) (kind : DiffType) : Bool :=
  diffType == none || diffType == some kind

/-- Take note of the first command. -/
def Scan.noteCommand (scan : Scan) (indent : Nat) (command : Bool) : Scan :=
  if scan.fclLine = none ∧ command = true then
    { scan with fclLine := some scan.inputLine, pIndent := indent }
  else scan

def Scan.next (scan : Scan) (thisIsACommand starsThisLine : Bool) : Scan :=
  { scan with
    inputLine := scan.inputLine + 1
    lastLineWasCommand := thisIsACommand
    starsLastLine := starsThisLine }

/-- The loop over the lines; names of files are left out. -/
def intuitFrom (diffType : Option DiffType) : Scan → List (List Byte) → Option Found
  | scan, [] =>
      -- nothing but deletes
      scan.fclLine.map fun line => { retval := .ED_DIFF, pIndent := scan.pIndent, pSline := line }
  | scan, buf :: rest =>
      let indent := indentOf buf
      let s := buf.dropWhile indents
      let thisIsACommand := isCommand s
      let scan := scan.noteCommand indent thisIsACommand
      let here (retval : DiffType) (line : Nat) : Option Found :=
        some { retval := retval, pIndent := indent, pSline := line }
      let starsThisLine := (stars 8).isPrefixOf s
      if wanted diffType .ED_DIFF ∧ scan.fclLine.isSome = true ∧ cstr s = ascii ['.', '\n'] then
        here .ED_DIFF (scan.fclLine.getD 0)
      else if wanted diffType .UNI_DIFF ∧ atSign.isPrefixOf s then here .UNI_DIFF scan.inputLine
      else if wanted diffType .CONTEXT_DIFF ∧ scan.starsLastLine = true ∧
          (stars 3 ++ [byte ' ']).isPrefixOf s then
        here (if newStyle s then .NEW_CONTEXT_DIFF else .CONTEXT_DIFF) (scan.inputLine - 1)
      else if wanted diffType .NORMAL_DIFF ∧ scan.lastLineWasCommand = true ∧
          ((ascii ['<', ' ']).isPrefixOf s ∨ (ascii ['>', ' ']).isPrefixOf s) then
        here .NORMAL_DIFF (scan.inputLine - 1)
      else intuitFrom diffType (scan.next thisIsACommand starsThisLine) rest

/-- The state before the first line of the file. -/
def Scan.start : Scan :=
  { inputLine := 1
    pIndent := 0
    fclLine := none
    lastLineWasCommand := false
    starsLastLine := false }

def intuitDiffType (diffType : Option DiffType) (file : List (List Byte)) : Option Found :=
  intuitFrom diffType Scan.start file

/-! ## Reading a line -/

/-- The loop of `pgetline`. -/
def strip (pIndent : Nat) : Nat → List Byte → List Byte
  | _, [] => []
  | indent, c :: s =>
      if indent < pIndent ∧ indents c = true then strip pIndent (column 7 indent c) s else c :: s

/-- The line that is left in the buffer, as a C string. -/
def pgetline (pIndent : Nat) (line : List Byte) : List Byte :=
  cstr (if pIndent = 0 then line else strip pIndent 0 line)

/-! ## The indentation of a patch -/

/-- A string of spaces and tabs. -/
def Blank (w : List Byte) : Prop := ∀ c ∈ w, c = byte ' ' ∨ c = byte '\t'

variable {w : List Byte}

theorem Blank.indents (blank : Blank w) : ∀ c ∈ w, indents c = true := by
  intro c inside
  rcases blank c inside with rfl | rfl
  · rfl
  · rfl

theorem column_lt (modulus indent : Nat) (positive : 0 < modulus) (small : modulus ≤ 8) (c : Byte) :
    indent < column modulus indent c := by
  unfold column
  have rest := Nat.mod_lt indent positive
  split
  · omega
  · omega

theorem columns_le (modulus indent : Nat) (positive : 0 < modulus) (small : modulus ≤ 8)
    (s : List Byte) : indent ≤ columns modulus indent s := by
  induction s generalizing indent with
  | nil => exact Nat.le_refl _
  | cons c s ih =>
      have first := column_lt modulus indent positive small c
      have rest := ih (column modulus indent c)
      rw [columns] at rest
      rw [columns, List.foldl_cons]
      omega

theorem dropWhile_indented (blank : Blank w) (line : List Byte) :
    (w ++ line).dropWhile indents = line.dropWhile indents :=
  List.dropWhile_append_of_pos blank.indents

theorem takeWhile_indented (blank : Blank w) (line : List Byte) :
    (w ++ line).takeWhile indents = w ++ line.takeWhile indents :=
  List.takeWhile_append_of_pos blank.indents

theorem indentOf_indented (blank : Blank w) {line : List Byte} (flush : indentOf line = 0) :
    indentOf (w ++ line) = columns 8 0 w := by
  have none_ : line.takeWhile indents = [] := by
    cases lead : line.takeWhile indents with
    | nil => rfl
    | cons c lead' =>
        have first := column_lt 8 0 (by decide) (by decide) c
        have rest := columns_le 8 (column 8 0 c) (by decide) (by decide) lead'
        rw [columns] at rest
        rw [indentOf, lead, columns, List.foldl_cons] at flush
        omega
  rw [indentOf, takeWhile_indented blank, none_, List.append_nil]

/-- Two scans that differ in `p_indent` only: where it has been set from a line without
indentation, the other one has the common indentation. -/
structure Behind (w : List Byte) (scan other : Scan) : Prop where
  inputLine : other.inputLine = scan.inputLine
  fclLine : other.fclLine = scan.fclLine
  lastLineWasCommand : other.lastLineWasCommand = scan.lastLineWasCommand
  starsLastLine : other.starsLastLine = scan.starsLastLine
  indent : scan.fclLine.isSome = true → scan.pIndent = 0 → other.pIndent = columns 8 0 w

theorem Behind.noteCommand {scan other : Scan} (behind : Behind w scan other) (blank : Blank w)
    (line : List Byte) (command : Bool) :
    Behind w (scan.noteCommand (indentOf line) command)
      (other.noteCommand (indentOf (w ++ line)) command) := by
  unfold Scan.noteCommand
  rw [behind.fclLine]
  split
  · exact
      { inputLine := behind.inputLine
        fclLine := congrArg some behind.inputLine
        lastLineWasCommand := behind.lastLineWasCommand
        starsLastLine := behind.starsLastLine
        indent := fun _ flush => indentOf_indented blank flush }
  · exact behind

theorem Behind.next {w : List Byte} {scan other : Scan} (behind : Behind w scan other)
    (thisIsACommand starsThisLine : Bool) :
    Behind w (scan.next thisIsACommand starsThisLine) (other.next thisIsACommand starsThisLine) where
  inputLine := congrArg (· + 1) behind.inputLine
  fclLine := behind.fclLine
  lastLineWasCommand := rfl
  starsLastLine := rfl
  indent := behind.indent

theorem intuitFrom_indented (blank : Blank w) {diffType : Option DiffType}
    {lines : List (List Byte)} {scan other : Scan} {found : Found} (behind : Behind w scan other)
    (result : intuitFrom diffType scan lines = some found) (flush : found.pIndent = 0) :
    intuitFrom diffType other (lines.map (w ++ ·)) =
      some { found with pIndent := columns 8 0 w } := by
  induction lines generalizing scan other with
  | nil =>
      obtain ⟨line, command, same⟩ := Option.map_eq_some_iff.mp result
      subst same
      rw [List.map_nil, intuitFrom, behind.fclLine, command, Option.map_some,
        behind.indent (by rw [command]; rfl) flush]
  | cons line lines ih =>
      have noted := behind.noteCommand blank line (isCommand (line.dropWhile indents))
      rw [intuitFrom] at result
      rw [List.map_cons, intuitFrom, dropWhile_indented blank]
      dsimp only at result ⊢
      rw [noted.fclLine, noted.inputLine, noted.starsLastLine, noted.lastLineWasCommand]
      split at result
      · next done =>
          cases result
          rw [if_pos done, indentOf_indented blank flush]
      · next notEd =>
          rw [if_neg notEd]
          split at result
          · next done =>
              cases result
              rw [if_pos done, indentOf_indented blank flush]
          · next notUni =>
              rw [if_neg notUni]
              split at result
              · next done =>
                  cases result
                  rw [if_pos done, indentOf_indented blank flush]
              · next notContext =>
                  rw [if_neg notContext]
                  split at result
                  · next done =>
                      cases result
                      rw [if_pos done, indentOf_indented blank flush]
                  · next notNormal =>
                      rw [if_neg notNormal]
                      exact ih (noted.next _ _) result

/-! ## Stripping the indentation -/

theorem strip_split (pIndent indent : Nat) (s : List Byte) :
    ∃ gone, s = gone ++ strip pIndent indent s ∧ ∀ c ∈ gone, indents c = true := by
  induction s generalizing indent with
  | nil => exact ⟨[], rfl, fun c inside => absurd inside (List.not_mem_nil)⟩
  | cons c s ih =>
      rw [strip]
      split
      · next counted =>
          obtain ⟨gone, split, blank⟩ := ih (column 7 indent c)
          refine ⟨c :: gone, by rw [List.cons_append, ← split], fun d inside => ?_⟩
          rcases List.mem_cons.mp inside with rfl | later
          · exact counted.2
          · exact blank d later
      · exact ⟨[], rfl, fun c inside => absurd inside (List.not_mem_nil)⟩

theorem cstr_indented {gone : List Byte} (blank : ∀ c ∈ gone, indents c = true) (s : List Byte) :
    cstr (gone ++ s) = gone ++ cstr s := by
  refine List.takeWhile_append_of_pos fun c inside => ?_
  have counted := blank c inside
  simp only [ne_eq, decide_not, Bool.not_eq_true', decide_eq_false_iff_not]
  rintro rfl
  exact absurd counted (by decide)

/-- The string is taken off to its end, and not beyond. -/
def Taken (pIndent indent : Nat) (w : List Byte) : Prop :=
  ∀ front back, w = front ++ back → back ≠ [] → columns 7 indent front < pIndent

theorem taken_cons {pIndent indent : Nat} {c : Byte} :
    Taken pIndent indent (c :: w) ↔ indent < pIndent ∧ Taken pIndent (column 7 indent c) w := by
  constructor
  · intro taken
    refine ⟨taken [] (c :: w) rfl (List.cons_ne_nil c w), fun front back split more => ?_⟩
    exact taken (c :: front) back (by rw [split, List.cons_append]) more
  · rintro ⟨first, rest⟩ front back split more
    cases front with
    | nil => exact first
    | cons head front =>
        cases split
        exact rest front back rfl more

theorem strip_taken {pIndent indent : Nat} (blank : Blank w) (taken : Taken pIndent indent w)
    (line : List Byte) :
    strip pIndent indent (w ++ line) = strip pIndent (columns 7 indent w) line := by
  induction w generalizing indent with
  | nil => rfl
  | cons c w ih =>
      obtain ⟨first, rest⟩ := taken_cons.mp taken
      rw [List.cons_append, strip, if_pos ⟨first, blank.indents c List.mem_cons_self⟩,
        ih (fun d inside => blank d (List.mem_cons_of_mem _ inside)) rest]
      rfl

/-- Where the count reaches `p_indent` inside the string the rest of it is left. -/
theorem strip_early {pIndent indent : Nat} (early : ¬ Taken pIndent indent w) (line : List Byte) :
    ∃ left, left ≠ [] ∧ left <:+ w ∧ strip pIndent indent (w ++ line) = left ++ line := by
  induction w generalizing indent with
  | nil =>
      exact absurd
        (fun front back split more => absurd (List.append_eq_nil_iff.mp split.symm).2 more) early
  | cons c w ih =>
      rw [List.cons_append, strip]
      split
      · next counted =>
          obtain ⟨left, some_, suffix, result⟩ :=
            ih (fun taken => early (taken_cons.mpr ⟨counted.1, taken⟩))
          exact ⟨left, some_, suffix.trans (List.suffix_cons c w), result⟩
      · exact ⟨c :: w, List.cons_ne_nil c w, List.suffix_refl _, by rw [List.cons_append]⟩

/-- The text of a line starts with a character that counts as indentation. -/
def startsIndented (line : List Byte) : Bool := line.head?.any indents

/-- Behind the common indentation nothing more goes exactly when the count has reached
`p_indent` or the text does not start with indentation of its own. -/
theorem strip_text (pIndent indent : Nat) (line : List Byte) :
    cstr (strip pIndent indent line) = cstr line ↔
      pIndent ≤ indent ∨ startsIndented line = false := by
  cases line with
  | nil => exact ⟨fun _ => Or.inr rfl, fun _ => rfl⟩
  | cons c line =>
      have starts : startsIndented (c :: line) = indents c := by simp [startsIndented]
      rw [strip, starts]
      split
      · next counted =>
          constructor
          · intro same
            obtain ⟨gone, split, blank⟩ := strip_split pIndent (column 7 indent c) line
            have whole : cstr (c :: line) =
                c :: (gone ++ cstr (strip pIndent (column 7 indent c) line)) := by
              rw [← cstr_indented blank, ← split]
              exact cstr_indented (fun d inside => List.mem_singleton.mp inside ▸ counted.2) line
            have lengths := congrArg List.length (same.trans whole)
            rw [List.length_cons, List.length_append] at lengths
            omega
          · rintro (reached | plain)
            · exact absurd counted.1 (Nat.not_lt.mpr reached)
            · rw [counted.2] at plain
              cases plain
      · next stopped =>
          refine ⟨fun _ => ?_, fun _ => rfl⟩
          cases blank : indents c with
          | false => exact Or.inr rfl
          | true => exact Or.inl (Nat.le_of_not_lt fun less => stopped ⟨less, blank⟩)

theorem pgetline_iff (blank : Blank w) (line : List Byte) :
    pgetline (columns 8 0 w) (w ++ line) = cstr line ↔
      Taken (columns 8 0 w) 0 w ∧
        (columns 8 0 w ≤ columns 7 0 w ∨ startsIndented line = false) := by
  have whole : pgetline (columns 8 0 w) (w ++ line) =
      cstr (strip (columns 8 0 w) 0 (w ++ line)) := by
    unfold pgetline
    split
    · next none_ =>
        rw [none_]
        cases w ++ line with
        | nil => rfl
        | cons c rest => rw [strip, if_neg fun counted => Nat.not_lt_zero 0 counted.1]
    · rfl
  rw [whole]
  by_cases taken : Taken (columns 8 0 w) 0 w
  · rw [strip_taken blank taken, strip_text]
    exact ⟨fun rest => ⟨taken, rest⟩, fun both => both.2⟩
  · obtain ⟨left, some_, suffix, result⟩ := strip_early taken line
    have inside : ∀ c ∈ left, indents c = true := fun c member =>
      blank.indents c (suffix.subset member)
    rw [result, cstr_indented inside]
    refine ⟨fun same => ?_, fun both => absurd both.1 taken⟩
    have lengths := congrArg List.length same
    have positive := List.length_pos_of_ne_nil some_
    rw [List.length_append] at lengths
    omega

/-- The columns of a string of spaces and tabs agree where they are needed. -/
def ColumnsAgree (w : List Byte) (lines : List (List Byte)) : Prop :=
  Taken (columns 8 0 w) 0 w ∧
    (columns 8 0 w ≤ columns 7 0 w ∨ ∀ line ∈ lines, startsIndented line = false)

/--
A patch behind a common indentation is found like the patch itself, and `p_indent` is the
column where the indentation ends.  Every line is then read without exactly that
indentation if and only if the columns of `pgetline` reach `p_indent` at the end of it and
not before, or do not reach it and no line starts with a blank, a tab or an `X`.
-/
theorem pgetline_indented_iff {w : List Byte} (blank : Blank w) {diffType : Option DiffType}
    {lines : List (List Byte)} {found : Found} (patch : intuitDiffType diffType lines = some found)
    (flush : found.pIndent = 0) :
    ∃ indented, intuitDiffType diffType (lines.map (w ++ ·)) = some indented ∧
      ((∀ line ∈ lines, pgetline indented.pIndent (w ++ line) = cstr line) ↔
        ColumnsAgree w lines) := by
  have behind : Behind w Scan.start Scan.start :=
    { inputLine := rfl
      fclLine := rfl
      lastLineWasCommand := rfl
      starsLastLine := rfl
      indent := fun command => by cases command }
  refine ⟨_, intuitFrom_indented blank behind patch flush, ?_⟩
  dsimp only
  simp only [pgetline_iff blank]
  have some_ : ∃ line, line ∈ lines := by
    cases lines with
    | nil => cases patch
    | cons line rest => exact ⟨line, List.mem_cons_self⟩
  obtain ⟨first, inside⟩ := some_
  constructor
  · intro each
    refine ⟨(each first inside).1, ?_⟩
    by_cases reached : columns 8 0 w ≤ columns 7 0 w
    · exact Or.inl reached
    · exact Or.inr fun line member => (each line member).2.resolve_left reached
  · rintro ⟨taken, reached | plain⟩ line member
    · exact ⟨taken, Or.inl reached⟩
    · exact ⟨taken, Or.inr (plain line member)⟩

/-- A small unified patch: a header, a context line and a new one. -/
def smallPatch : List (List Byte) :=
  [ascii ['@', '@', ' ', '-', '1', ' ', '+', '1', ',', '2', ' ', '@', '@', '
'],
    ascii [' ', 'a', '
'], ascii ['+', 'b', '
']]

/-- Behind one tab it is read as it is. -/
theorem smallPatch_one_tab :
    ∃ indented, intuitDiffType none (smallPatch.map ([byte '	'] ++ ·)) = some indented ∧
      ((∀ line ∈ smallPatch, pgetline indented.pIndent ([byte '	'] ++ line) = cstr line) ↔
        ColumnsAgree [byte '	'] smallPatch) :=
  pgetline_indented_iff (by unfold Blank; decide +kernel)
    (rfl : intuitDiffType none smallPatch = some { retval := .UNI_DIFF, pIndent := 0, pSline := 1 })
    rfl

/-- Behind two tabs its context line loses its blank. -/
theorem smallPatch_two_tabs :
    intuitDiffType none (smallPatch.map ([byte '	', byte '	'] ++ ·)) =
        some { retval := .UNI_DIFF, pIndent := 16, pSline := 1 } ∧
      pgetline 16 ([byte '	', byte '	'] ++ ascii [' ', 'a', '
']) = ascii ['a', '
'] := by
  decide

end Netbase.Patch.Indent
