import Mathlib.Data.List.Basic
import Netbase.Text.Lines

/-!
# The listing of the pattern space

`lputs` writes the pattern space for the `l` command in the C locale.  What is read from a listing
are the pattern spaces that it may come from.
-/

namespace Netbase.Sed

open Netbase.Text

/-- `iswprint` -/
def isPrint (c : Byte) : Bool := decide (32 ≤ c ∧ c ≤ 126)

/-- `escapes` -/
def escapes : List Byte := [byte '\\', 7, 8, 12, 13, 9, 11]

/-- The letters behind the backslash. -/
def letters : List Byte := ascii ['\\', 'a', 'b', 'f', 'r', 't', 'v']

/-- The place of a byte in `escapes` gives the letter; there is none for NUL. -/
def letterOf (c : Byte) : Option Byte := if c = 0 then none else (escapes.zip letters).lookup c

/-- `%03o` -/
def octal (c : Byte) : List Byte :=
  [48 + c / 64, 48 + c / 8 % 8, 48 + c % 8]

/-- How a byte that is no newline is shown: printing bytes are tried first. -/
def shown (c : Byte) : List Byte :=
  if isPrint c then [c]
  else
    match letterOf c with
    | some l => [byte '\\', l]
    | none => byte '\\' :: octal c

/-- The mark of a line that goes on. -/
def mark (termwidth col width : Nat) : List Byte :=
  if termwidth ≤ col + width then [byte '\\', nl] else []

/-- The column at which something is written that has a width. -/
def place (termwidth col width : Nat) : Nat := if termwidth ≤ col + width then 0 else col

/-- The loop of `lputs`. -/
def lputsLoop (termwidth : Nat) : Nat → List Byte → List Byte
  | col, [] => mark termwidth col 1 ++ [byte '$', nl]
  | col, c :: s =>
      if c = nl then mark termwidth col 1 ++ [byte '$', nl] ++ lputsLoop termwidth 0 s
      else
        mark termwidth col (shown c).length ++ shown c ++
          lputsLoop termwidth (place termwidth col (shown c).length + (shown c).length) s

/-- `lputs` -/
def lputs (termwidth : Nat) (s : List Byte) : List Byte :=
  lputsLoop (if termwidth = 0 then 1 else termwidth) 0 s

/-! ## Reading a listing -/

def Escaped (c : Byte) : Prop := c ≠ nl ∧ isPrint c = false

instance (c : Byte) : Decidable (Escaped c) := inferInstanceAs (Decidable (_ ∧ _))

def ofLetter (l : Byte) : Option Byte := (letters.zip escapes).lookup l

/-- The byte for three digits behind a backslash, of those that are written so. -/
def ofOctal (a b d : Byte) : Option Byte :=
  let v := 64 * (a - 48) + 8 * (b - 48) + (d - 48)
  if Escaped v ∧ letterOf v = none ∧ octal v = [a, b, d] then some v else none

/-- An escape behind a backslash. -/
def readEscape : List Byte → Option (Byte × List Byte)
  | [] => none
  | l :: rest =>
      match ofLetter l with
      | some c => some (c, rest)
      | none =>
          match rest with
          | b :: d :: rest' => (ofOctal l b d).map fun c => (c, rest')
          | _ => none

variable {c : Byte}

theorem readEscape_shorter {s rest : List Byte} (read : readEscape s = some (c, rest)) :
    rest.length < s.length := by
  unfold readEscape at read
  split at read
  · cases read
  · next l rest' =>
      split at read
      · cases read
        exact Nat.lt_succ_self _
      · split at read
        · next b d rest'' =>
            obtain ⟨v, -, same⟩ := Option.map_eq_some_iff.mp read
            cases same
            simp only [List.length_cons]
            omega
        · cases read

/-- The escapes of a text are decoded; a backslash in front of nothing of the kind is one. -/
def decode (s : List Byte) : List Byte :=
  match s with
  | [] => []
  | c :: s =>
      if c = byte '\\' then
        match _read : readEscape s with
        | some (b, rest) => b :: decode rest
        | none => c :: decode s
      else c :: decode s
termination_by s.length
decreasing_by
  · have shorter := readEscape_shorter _read
    simp only [List.length_cons]
    omega
  · exact Nat.lt_succ_self _
  · exact Nat.lt_succ_self _

/-- Lines that go on are joined, and the mark of the end is taken from the others. -/
def joinLines : List Byte → List Byte
  | 92 :: 10 :: rest => joinLines rest
  | [36, 10] => []
  | 36 :: 10 :: rest => nl :: joinLines rest
  | b :: rest => b :: joinLines rest
  | [] => []

/-- The text of a pattern space without marks. -/
def spelled (s : List Byte) : List Byte := s.flatMap fun c => if c = nl then [nl] else shown c

/-- A byte that is written as an escape, or the text of its escape, stands where the text would be
written on one line. -/
def Spot (termwidth col : Nat) (s : List Byte) : Prop :=
  ∃ c rest, Escaped c ∧ (s = c :: rest ∨ s = shown c ++ rest) ∧
    place termwidth col 1 + (shown c).length < termwidth

/-- Somewhere in the pattern space is such a spot. -/
def Ambiguous (termwidth : Nat) : Nat → List Byte → Prop
  | _, [] => False
  | col, c :: s =>
      if c = nl then Ambiguous termwidth 0 s
      else
        Spot termwidth col (c :: s) ∨
          Ambiguous termwidth (place termwidth col (shown c).length + (shown c).length) s

/-- Somewhere a backslash stands in front of what reads as the rest of an escape. -/
def Misread : List Byte → Prop
  | [] => False
  | c :: s => c = byte '\\' ∧ (readEscape (spelled s)).isSome = true ∨ Misread s

/-! ## Bytes -/

/-- What the text of an escape is made of. -/
def plainText (b : Byte) : Prop := isPrint b = true ∧ b ≠ nl ∧ b ≠ byte '\\' ∧ b ≠ byte '$'

instance (b : Byte) : Decidable (plainText b) := inferInstanceAs (Decidable (_ ∧ _))

theorem shown_printing (printing : isPrint c = true) : shown c = [c] := if_pos printing

/-- The text of an escape is a letter or three digits. -/
def Tells (c : Byte) : List Byte → Prop
  | [l] => ofLetter l = some c
  | [a, b, d] => ofLetter a = none ∧ ofOctal a b d = some c
  | _ => False

instance (c : Byte) (text : List Byte) : Decidable (Tells c text) := by
  unfold Tells
  split <;> infer_instance

theorem escape_facts (c : Byte) :
    (Escaped c → shown c = byte '\\' :: (shown c).tail ∧ (shown c).tail ≠ [] ∧
        (shown c).tail.all (fun b => decide (plainText b)) = true ∧ Tells c (shown c).tail) ∧
      (ofLetter c = some (byte '\\') → c = byte '\\') := by
  revert c
  apply forall_byte
  decide +kernel

theorem shown_escaped (escaped : Escaped c) :
    shown c = byte '\\' :: (shown c).tail ∧ (shown c).tail ≠ [] ∧
      ∀ b ∈ (shown c).tail, plainText b := by
  obtain ⟨front, some_, plain, -⟩ := (escape_facts c).1 escaped
  exact ⟨front, some_, fun b member => of_decide_eq_true (List.all_eq_true.mp plain b member)⟩

theorem shown_tells (escaped : Escaped c) : Tells c (shown c).tail :=
  ((escape_facts c).1 escaped).2.2.2

theorem readEscape_shown (escaped : Escaped c) (rest : List Byte) :
    readEscape ((shown c).tail ++ rest) = some (c, rest) := by
  have tells := shown_tells escaped
  generalize (shown c).tail = text at tells
  unfold Tells at tells
  split at tells
  · simp only [List.singleton_append, readEscape, tells]
  · next a b d => simp only [List.cons_append, List.nil_append, readEscape, tells.1, tells.2, Option.map_some]
  · exact absurd tells id

/-- Of two texts of escapes neither is the start of the other. -/
theorem shown_inj {d : Byte} (escaped : Escaped c) (escaped' : Escaped d) {x y : List Byte}
    (same : shown c ++ x = shown d ++ y) : c = d := by
  rw [(shown_escaped escaped).1, (shown_escaped escaped').1, List.cons_append, List.cons_append,
    List.cons.injEq] at same
  have read := readEscape_shown escaped x
  rw [same.2, readEscape_shown escaped' y] at read
  exact (congrArg Prod.fst (Option.some.inj read)).symm

/-- A byte that is no newline is shown as itself or as an escape. -/
theorem printing_or_escaped (other : c ≠ nl) : isPrint c = true ∨ Escaped c := by
  cases printing : isPrint c with
  | true => exact .inl rfl
  | false => exact .inr ⟨other, printing⟩

theorem nl_ne_printing (printing : isPrint c = true) : c ≠ nl := by
  rintro rfl
  cases printing

/-! ## Listings that are the same -/

section

variable {w col : Nat} {s t : List Byte}

theorem mark_cases (w col width : Nat) :
    mark w col width = [] ∧ place w col width = col ∧ col + width < w ∨
      mark w col width = [byte '\\', nl] ∧ place w col width = 0 ∧ w ≤ col + width := by
  unfold mark place
  split
  · next long => exact .inr ⟨rfl, rfl, long⟩
  · next short => exact .inl ⟨rfl, rfl, by omega⟩

theorem lputsLoop_nil : lputsLoop w col [] = mark w col 1 ++ [byte '$', nl] := rfl

theorem lputsLoop_newline :
    lputsLoop w col (nl :: s) = mark w col 1 ++ byte '$' :: nl :: lputsLoop w 0 s := by
  rw [lputsLoop, if_pos rfl, List.append_assoc]
  rfl

variable {c : Byte}

theorem lputsLoop_shown (other : c ≠ nl) :
    lputsLoop w col (c :: s) = mark w col (shown c).length ++ (shown c ++
      lputsLoop w (place w col (shown c).length + (shown c).length) s) := by
  rw [lputsLoop, if_neg other, List.append_assoc]

theorem lputsLoop_printing (printing : isPrint c = true) :
    lputsLoop w col (c :: s) = mark w col 1 ++ c :: lputsLoop w (place w col 1 + 1) s := by
  rw [lputsLoop_shown (nl_ne_printing printing), shown_printing printing]
  rfl

theorem lputsLoop_head (w col : Nat) (s x : List Byte) : lputsLoop w col s ≠ nl :: x := by
  have start (width : Nat) {b : Byte} {y : List Byte} (other : b ≠ nl) :
      mark w col width ++ b :: y ≠ nl :: x := by
    rcases mark_cases w col width with ⟨none_, -⟩ | ⟨folds, -⟩
    · rw [none_]
      exact fun same => other (List.cons.inj same).1
    · rw [folds]
      exact fun same => absurd (List.cons.inj same).1 (by decide)
  cases s with
  | nil => exact start 1 (by decide)
  | cons c s =>
      by_cases newline : c = nl
      · rw [newline, lputsLoop_newline]
        exact start 1 (by decide)
      · rw [lputsLoop_shown newline]
        rcases printing_or_escaped newline with printing | escaped
        · rw [shown_printing printing]
          exact start 1 newline
        · rw [(shown_escaped escaped).1]
          exact start _ (by decide)

theorem lputsLoop_ne_nil (w col : Nat) (s : List Byte) : lputsLoop w col s ≠ [] := by
  cases s with
  | nil => simp [lputsLoop_nil]
  | cons c s =>
      by_cases newline : c = nl
      · simp [newline, lputsLoop_newline]
      · rw [lputsLoop_shown newline]
        rcases printing_or_escaped newline with printing | escaped
        · simp [shown_printing printing]
        · rw [(shown_escaped escaped).1]
          simp

/-- Behind its mark a newline is not written as anything else. -/
theorem end_ne_shown (other : c ≠ nl) (x y : List Byte) (n : Nat) :
    mark w col 1 ++ byte '$' :: nl :: x ≠
      mark w col (shown c).length ++ (shown c ++ lputsLoop w n y) := by
  intro same
  rcases printing_or_escaped other with printing | escaped
  · rw [shown_printing printing] at same
    have behind := List.append_cancel_left same
    exact lputsLoop_head w n y x (List.cons.inj behind).2.symm
  · obtain ⟨text, some_, -⟩ := shown_escaped escaped
    have long : 1 < (shown c).length := by
      rw [text, List.length_cons]
      have positive := List.length_pos_iff.mpr some_
      omega
    rcases mark_cases w col 1 with ⟨none_, -, short⟩ | ⟨folds, -, wide⟩
    · rcases mark_cases w col (shown c).length with ⟨none', -⟩ | ⟨folds', -⟩
      · rw [none_, none', text] at same
        exact absurd (List.cons.inj same).1 (by decide)
      · rw [none_, folds'] at same
        exact absurd (List.cons.inj same).1 (by decide)
    · rcases mark_cases w col (shown c).length with ⟨-, -, narrow⟩ | ⟨folds', -⟩
      · omega
      · rw [folds, folds', text] at same
        have behind := List.append_cancel_left same
        exact absurd (List.cons.inj behind).1 (by decide)

theorem lputsLoop_text (text : List Byte) :
    ∀ {col : Nat} {s x : List Byte}, (∀ b ∈ text, plainText b) →
      lputsLoop w col s = text ++ x → text = [] ∨
        col + text.length < w ∧ ∃ rest, s = text ++ rest := by
  induction text with
  | nil => exact fun _ _ => .inl rfl
  | cons b text ih =>
      intro col s x plain same
      obtain ⟨-, newline, backslash, dollar⟩ := plain b (List.mem_cons_self ..)
      have start (width : Nat) {y : List Byte} (marked : mark w col width ++ y = b :: (text ++ x)) :
          mark w col width = [] := by
        rcases mark_cases w col width with ⟨none_, -⟩ | ⟨folds, -⟩
        · exact none_
        · rw [folds] at marked
          exact absurd (List.cons.inj marked).1.symm backslash
      right
      rw [List.cons_append] at same
      cases s with
      | nil =>
          rw [lputsLoop_nil] at same
          rw [start 1 same] at same
          exact absurd (List.cons.inj same).1.symm dollar
      | cons c s =>
          by_cases other : c = nl
          · rw [other, lputsLoop_newline] at same
            rw [start 1 same] at same
            exact absurd (List.cons.inj same).1.symm dollar
          · rcases printing_or_escaped other with printing | escaped
            · rw [lputsLoop_printing printing] at same
              have unmarked := start 1 same
              rcases mark_cases w col 1 with ⟨-, here, short⟩ | ⟨folds, -⟩
              · rw [unmarked, here, List.nil_append, List.cons.injEq] at same
                obtain ⟨rfl, behind⟩ := same
                rcases ih (fun d inside => plain d (List.mem_cons_of_mem _ inside)) behind with
                  rfl | ⟨fits, rest, rfl⟩
                · exact ⟨short, s, rfl⟩
                · exact ⟨by rw [List.length_cons]; omega, rest, rfl⟩
              · rw [unmarked] at folds
                cases folds
            · rw [lputsLoop_shown other] at same
              rw [start _ same, (shown_escaped escaped).1] at same
              exact absurd (List.cons.inj same).1.symm backslash

theorem printing_shown {d : Byte} (printing : isPrint c = true) (escaped : Escaped d)
    (same : lputsLoop w col (c :: s) = lputsLoop w col (d :: t)) :
    ∃ rest, c :: s = shown d ++ rest ∧ place w col 1 + (shown d).length < w := by
  obtain ⟨text, some_, plain⟩ := shown_escaped escaped
  rw [lputsLoop_printing printing, lputsLoop_shown escaped.1] at same
  have long : 1 < (shown d).length := by
    rw [text, List.length_cons]
    have positive := List.length_pos_iff.mpr some_
    omega
  have unmarked : mark w col 1 = mark w col (shown d).length := by
    rcases mark_cases w col 1 with ⟨none_, -, short⟩ | ⟨folds, -, wide⟩
    · rcases mark_cases w col (shown d).length with ⟨none', -⟩ | ⟨folds', -⟩
      · rw [none_, none']
      · rw [none_, folds'] at same
        exact absurd (List.cons.inj same).2 (lputsLoop_head w _ s _)
    · rcases mark_cases w col (shown d).length with ⟨-, -, narrow⟩ | ⟨folds', -⟩
      · omega
      · rw [folds, folds']
  rw [unmarked] at same
  have behind := List.append_cancel_left same
  rw [text, List.cons_append, List.cons.injEq] at behind
  obtain ⟨rfl, behind⟩ := behind
  rcases lputsLoop_text _ plain behind with none_ | ⟨fits, rest, rfl⟩
  · exact absurd none_ some_
  · refine ⟨rest, ?_, ?_⟩
    · rw [text]
      rfl
    · rw [text, List.length_cons]
      omega

theorem lputsLoop_plain (text : List Byte) :
    ∀ {col : Nat}, (∀ b ∈ text, plainText b) → col + text.length < w →
      lputsLoop w col (text ++ t) = text ++ lputsLoop w (col + text.length) t := by
  induction text with
  | nil => exact fun _ _ => rfl
  | cons b text ih =>
      intro col plain short
      rw [List.length_cons] at short
      have here : place w col 1 = col ∧ mark w col 1 = [] := by
        rcases mark_cases w col 1 with ⟨none_, here, -⟩ | ⟨-, -, wide⟩
        · exact ⟨here, none_⟩
        · omega
      have rest := @ih (col + 1) (fun d inside => plain d (List.mem_cons_of_mem _ inside)) (by omega)
      rw [List.cons_append, lputsLoop_printing (plain b (List.mem_cons_self ..)).1, here.1, here.2,
        rest, List.length_cons]
      simp only [List.nil_append, List.cons_append, Nat.add_assoc, Nat.add_comm 1]

theorem lputsLoop_spelled {d : Byte} (escaped : Escaped d)
    (room : place w col 1 + (shown d).length < w) :
    lputsLoop w col (shown d ++ t) = lputsLoop w col (d :: t) := by
  obtain ⟨text, -, plain⟩ := shown_escaped escaped
  have length : (shown d).length = (shown d).tail.length + 1 := by
    rw [text]
    rfl
  have unmarked : mark w col (shown d).length = mark w col 1 ∧
      place w col (shown d).length = place w col 1 := by
    rcases mark_cases w col 1 with ⟨none_, here, -⟩ | ⟨folds, here, wide⟩
    · rcases mark_cases w col (shown d).length with ⟨none', here', -⟩ | ⟨-, -, wide⟩
      · rw [none_, none', here, here']
        exact ⟨rfl, rfl⟩
      · omega
    · rcases mark_cases w col (shown d).length with ⟨-, -, narrow⟩ | ⟨folds', here', -⟩
      · omega
      · rw [folds, folds', here, here']
        exact ⟨rfl, rfl⟩
  have behind := @lputsLoop_plain w t (shown d).tail (place w col 1 + 1) plain (by omega)
  have column : place w col 1 + 1 + (shown d).tail.length = place w col 1 + (shown d).length := by
    omega
  rw [lputsLoop_shown escaped.1, unmarked.1, unmarked.2]
  nth_rewrite 1 [text]
  rw [List.cons_append, lputsLoop_printing (by decide), behind, column]
  nth_rewrite 3 [text]
  rfl

theorem shown_ne_mark (escaped : Escaped c) (x y : List Byte) :
    shown c ++ x ≠ byte '\\' :: nl :: y := by
  intro same
  obtain ⟨text, some_, plain⟩ := shown_escaped escaped
  obtain ⟨b, more, tail⟩ := List.exists_cons_of_ne_nil some_
  rw [text, tail, List.cons_append, List.cons_append, List.cons.injEq, List.cons.injEq] at same
  exact (plain b (tail ▸ List.mem_cons_self ..)).2.1 same.2.1

theorem escaped_inj {d : Byte} (escaped : Escaped c) (escaped' : Escaped d)
    (same : lputsLoop w col (d :: t) = lputsLoop w col (c :: s)) : d = c := by
  rw [lputsLoop_shown escaped.1, lputsLoop_shown escaped'.1] at same
  rcases mark_cases w col (shown c).length with ⟨none_, -⟩ | ⟨folds, -⟩
  · rcases mark_cases w col (shown d).length with ⟨none', -⟩ | ⟨folds', -⟩
    · rw [none_, none'] at same
      exact shown_inj escaped' escaped same
    · rw [none_, folds'] at same
      exact absurd same.symm (shown_ne_mark escaped _ _)
  · rcases mark_cases w col (shown d).length with ⟨none', -⟩ | ⟨folds', -⟩
    · rw [folds, none'] at same
      exact absurd same (shown_ne_mark escaped' _ _)
    · rw [folds, folds'] at same
      exact shown_inj escaped' escaped (List.append_cancel_left same)

theorem spot_of_same {d : Byte} (newline : c ≠ nl) (newline' : d ≠ nl) (other : d ≠ c)
    (same : lputsLoop w col (d :: t) = lputsLoop w col (c :: s)) : Spot w col (c :: s) := by
  rcases printing_or_escaped newline with printing | escaped
  · rcases printing_or_escaped newline' with printing' | escaped'
    · rw [lputsLoop_printing printing, lputsLoop_printing printing'] at same
      exact absurd (List.cons.inj (List.append_cancel_left same)).1 other
    · obtain ⟨rest, begins, room⟩ := printing_shown printing escaped' same.symm
      exact ⟨d, rest, escaped', .inr begins, room⟩
  · rcases printing_or_escaped newline' with printing' | escaped'
    · obtain ⟨rest, -, room⟩ := printing_shown printing' escaped same
      exact ⟨c, s, escaped, .inl rfl, room⟩
    · exact absurd (escaped_inj escaped escaped' same) other

theorem ambiguous_of_same (s : List Byte) :
    ∀ {col : Nat} {t : List Byte}, lputsLoop w col t = lputsLoop w col s → t ≠ s →
      Ambiguous w col s := by
  induction s with
  | nil =>
      intro col t same other
      cases t with
      | nil => exact absurd rfl other
      | cons d t =>
          by_cases newline : d = nl
          · rw [newline, lputsLoop_newline, lputsLoop_nil] at same
            have behind := List.append_cancel_left same
            exact absurd (List.cons.inj (List.cons.inj behind).2).2 (lputsLoop_ne_nil w 0 t)
          · rw [lputsLoop_shown newline, lputsLoop_nil] at same
            exact absurd same.symm (end_ne_shown newline [] t _)
  | cons c s ih =>
      intro col t same other
      rw [Ambiguous]
      cases t with
      | nil =>
          by_cases newline : c = nl
          · rw [newline, lputsLoop_newline, lputsLoop_nil] at same
            have behind := List.append_cancel_left same
            exact absurd (List.cons.inj (List.cons.inj behind).2).2.symm (lputsLoop_ne_nil w 0 s)
          · rw [lputsLoop_shown newline, lputsLoop_nil] at same
            exact absurd same (end_ne_shown newline [] s _)
      | cons d t =>
          by_cases newline : c = nl
          · rw [if_pos newline]
            by_cases newline' : d = nl
            · rw [newline, newline', lputsLoop_newline, lputsLoop_newline] at same
              have behind := List.append_cancel_left same
              refine ih (List.cons.inj (List.cons.inj behind).2).2 fun equal => other ?_
              rw [newline, newline', equal]
            · rw [newline, lputsLoop_newline, lputsLoop_shown newline'] at same
              exact absurd same.symm (end_ne_shown newline' _ t _)
          · rw [if_neg newline]
            by_cases newline' : d = nl
            · rw [newline', lputsLoop_newline, lputsLoop_shown newline] at same
              exact absurd same (end_ne_shown newline _ s _)
            · by_cases equal : d = c
              · subst equal
                right
                rw [lputsLoop_shown newline, lputsLoop_shown newline] at same
                have behind := List.append_cancel_left (List.append_cancel_left same)
                exact ih behind fun equal => other (by rw [equal])
              · exact .inl (spot_of_same newline newline' equal same)

theorem same_of_ambiguous (s : List Byte) :
    ∀ {col : Nat}, Ambiguous w col s → ∃ t, lputsLoop w col t = lputsLoop w col s ∧ t ≠ s := by
  induction s with
  | nil => exact fun none_ => absurd none_ id
  | cons c s ih =>
      intro col ambiguous
      rw [Ambiguous] at ambiguous
      split at ambiguous
      · next newline =>
          obtain ⟨t, same, other⟩ := ih ambiguous
          refine ⟨c :: t, ?_, fun equal => other (List.cons.inj equal).2⟩
          rw [newline, lputsLoop_newline, lputsLoop_newline, same]
      · next newline =>
          rcases ambiguous with ⟨d, rest, escaped, begins, room⟩ | later
          · have different : shown d ++ rest ≠ d :: rest := by
              intro equal
              rw [(shown_escaped escaped).1] at equal
              have backslash := (List.cons.inj equal).1
              exact absurd escaped.2 (by rw [← backslash]; decide)
            rcases begins with begins | begins
            · rw [begins]
              exact ⟨_, lputsLoop_spelled escaped room, different⟩
            · rw [begins]
              exact ⟨_, (lputsLoop_spelled escaped room).symm, different.symm⟩
          · obtain ⟨t, same, other⟩ := ih later
            refine ⟨c :: t, ?_, fun equal => other (List.cons.inj equal).2⟩
            rw [lputsLoop_shown newline, lputsLoop_shown newline, same]

end

/-! ## Joining and decoding -/

theorem joinLines_mark (rest : List Byte) : joinLines (byte '\\' :: nl :: rest) = joinLines rest := by
  rw [show byte '\\' = 92 from rfl, show nl = 10 from rfl, joinLines]

theorem joinLines_end : joinLines [byte '$', nl] = [] := by
  rw [show byte '$' = 36 from rfl, show nl = 10 from rfl, joinLines]

theorem joinLines_newline {rest : List Byte} (more : rest ≠ []) :
    joinLines (byte '$' :: nl :: rest) = nl :: joinLines rest := by
  rw [show byte '$' = 36 from rfl, show nl = 10 from rfl, joinLines]
  · rfl
  · exact more

theorem joinLines_cons {b : Byte} {rest : List Byte} (stays : ∀ x, rest ≠ nl :: x) :
    joinLines (b :: rest) = b :: joinLines rest := by
  rw [joinLines]
  · rintro rest' rfl rfl
    exact stays rest' rfl
  · rintro rfl rfl
    exact stays [] rfl
  · rintro rest' rfl rfl
    exact stays rest' rfl

theorem joinLines_text (text : List Byte) {rest : List Byte} (clean : nl ∉ text)
    (stays : ∀ x, rest ≠ nl :: x) : joinLines (text ++ rest) = text ++ joinLines rest := by
  induction text with
  | nil => rfl
  | cons b text ih =>
      have stays' : ∀ x, text ++ rest ≠ nl :: x := by
        intro x same
        cases text with
        | nil => exact stays x same
        | cons d text =>
            have here := (List.cons.inj same).1
            exact clean (here ▸ List.mem_cons_of_mem _ (List.mem_cons_self ..))
      rw [List.cons_append, joinLines_cons stays', ih fun inside => clean (List.mem_cons_of_mem _ inside)]
      rfl

theorem nl_not_mem_shown (other : c ≠ nl) : nl ∉ shown c := by
  rcases printing_or_escaped other with printing | escaped
  · rw [shown_printing printing]
    exact fun inside => other (List.mem_singleton.mp inside).symm
  · obtain ⟨text, -, plain⟩ := shown_escaped escaped
    rw [text]
    intro inside
    rcases List.mem_cons.mp inside with same | inside
    · exact absurd same (by decide)
    · exact (plain nl inside).2.1 rfl

theorem joinLines_listing (w : Nat) (s : List Byte) :
    ∀ col, joinLines (lputsLoop w col s) = spelled s := by
  have marked (col width : Nat) (x : List Byte) :
      joinLines (mark w col width ++ x) = joinLines x := by
    rcases mark_cases w col width with ⟨none_, -⟩ | ⟨folds, -⟩
    · rw [none_]
      rfl
    · rw [folds]
      exact joinLines_mark x
  induction s with
  | nil =>
      intro col
      rw [lputsLoop_nil, marked, joinLines_end]
      rfl
  | cons c s ih =>
      intro col
      by_cases newline : c = nl
      · rw [newline, lputsLoop_newline, marked, joinLines_newline (lputsLoop_ne_nil w 0 s), ih]
        rfl
      · rw [lputsLoop_shown newline, marked, joinLines_text _ (nl_not_mem_shown newline)
          (lputsLoop_head w _ s), ih, spelled, spelled, List.flatMap_cons, if_neg newline]

theorem decode_nil : decode [] = [] := by rw [decode]

theorem decode_other (other : c ≠ byte '\\') (s : List Byte) :
    decode (c :: s) = c :: decode s := by
  rw [decode, if_neg other]

theorem decode_escape {s rest : List Byte} (read : readEscape s = some (c, rest)) :
    decode (byte '\\' :: s) = c :: decode rest := by
  rw [decode, if_pos rfl]
  split
  · next found =>
      cases found.symm.trans read
      rfl
  · next none_ => cases none_.symm.trans read

theorem decode_backslash {s : List Byte} (none_ : readEscape s = none) :
    decode (byte '\\' :: s) = byte '\\' :: decode s := by
  rw [decode, if_pos rfl]
  split
  · next found => cases found.symm.trans none_
  · rfl

theorem spelled_newline (s : List Byte) : spelled (nl :: s) = nl :: spelled s := rfl

theorem spelled_printing (printing : isPrint c = true) (s : List Byte) :
    spelled (c :: s) = c :: spelled s := by
  rw [spelled, List.flatMap_cons, if_neg (nl_ne_printing printing), shown_printing printing]
  rfl

theorem spelled_escaped (escaped : Escaped c) (s : List Byte) :
    spelled (c :: s) = byte '\\' :: ((shown c).tail ++ spelled s) := by
  rw [spelled, List.flatMap_cons, if_neg escaped.1]
  nth_rewrite 1 [(shown_escaped escaped).1]
  rfl

theorem decode_spelled (other : c ≠ byte '\\') (s : List Byte) :
    decode (spelled (c :: s)) = c :: decode (spelled s) := by
  by_cases newline : c = nl
  · rw [newline, spelled_newline, decode_other (by decide)]
  · rcases printing_or_escaped newline with printing | escaped
    · rw [spelled_printing printing, decode_other other]
    · rw [spelled_escaped escaped, decode_escape (readEscape_shown escaped _)]

theorem decode_of_not_misread (s : List Byte) (clear : ¬ Misread s) : decode (spelled s) = s := by
  induction s with
  | nil => exact decode_nil
  | cons c s ih =>
      obtain ⟨here, later⟩ := not_or.mp clear
      by_cases backslash : c = byte '\\'
      · have none_ : readEscape (spelled s) = none := by
          cases read : readEscape (spelled s) with
          | none => rfl
          | some found => exact absurd ⟨backslash, by rw [read]; rfl⟩ here
        rw [backslash, spelled_printing (by decide), decode_backslash none_, ih later]
      · rw [decode_spelled backslash, ih later]

theorem readEscape_backslash {s rest : List Byte}
    (read : readEscape s = some (byte '\\', rest)) : s = byte '\\' :: rest := by
  have letter (l : Byte) : ofLetter l = some (byte '\\') → l = byte '\\' := (escape_facts l).2
  unfold readEscape at read
  split at read
  · cases read
  · next l rest' =>
      split at read
      · next found =>
          cases read
          rw [letter l found]
      · split at read
        · obtain ⟨v, found, same⟩ := Option.map_eq_some_iff.mp read
          cases same
          unfold ofOctal at found
          simp only at found
          split at found
          · next valid =>
              rw [Option.some.inj found] at valid
              exact absurd valid.1 (by decide)
          · cases found
        · cases read

theorem backslash_read {s rest y : List Byte} {b : Byte}
    (read : readEscape (spelled s) = some (b, rest)) (same : b :: decode rest = byte '\\' :: y) :
    (∃ s', s = byte '\\' :: s' ∧ decode (spelled s') = y) ∨
      ∃ c s' d z, s = c :: s' ∧ Escaped c ∧ y = d :: z ∧ plainText d := by
  obtain ⟨rfl, behind⟩ := List.cons.inj same
  have begins := readEscape_backslash read
  cases s with
  | nil => cases begins
  | cons c s =>
      by_cases newline : c = nl
      · rw [newline, spelled_newline] at begins
        exact absurd (List.cons.inj begins).1 (by decide)
      · rcases printing_or_escaped newline with printing | escaped
        · rw [spelled_printing printing] at begins
          obtain ⟨rfl, rfl⟩ := List.cons.inj begins
          exact .inl ⟨s, rfl, behind⟩
        · obtain ⟨-, some_, plain⟩ := shown_escaped escaped
          obtain ⟨d, more, text⟩ := List.exists_cons_of_ne_nil some_
          have first := plain d (text ▸ List.mem_cons_self ..)
          rw [spelled_escaped escaped, text] at begins
          obtain ⟨-, rfl⟩ := List.cons.inj begins
          rw [List.cons_append, decode_other first.2.2.1] at behind
          exact .inr ⟨c, s, d, _, rfl, escaped, behind.symm, first⟩

theorem decode_ne_more (n : Nat) :
    ∀ (s : List Byte) (k : Nat), s.length ≤ n →
      decode (spelled s) ≠ List.replicate (k + 1) (byte '\\') ++ s := by
  induction n with
  | zero =>
      intro s k short
      rw [List.length_eq_zero_iff.mp (Nat.le_zero.mp short), spelled, List.flatMap_nil, decode_nil]
      exact nofun
  | succ n ih =>
      intro s k short same
      cases s with
      | nil =>
          rw [spelled, List.flatMap_nil, decode_nil] at same
          cases same
      | cons c s =>
          rw [List.length_cons] at short
          by_cases backslash : c = byte '\\'
          · subst backslash
            have shift (m : Nat) (x : List Byte) : List.replicate m (byte '\\') ++ byte '\\' :: x =
                List.replicate (m + 1) (byte '\\') ++ x := by
              rw [List.replicate_succ', List.append_assoc]
              rfl
            rw [spelled_printing (by decide), List.replicate_succ, List.cons_append] at same
            cases read : readEscape (spelled s) with
            | none =>
                rw [decode_backslash read, shift] at same
                exact ih s k (by omega) (List.cons.inj same).2
            | some found =>
                rw [decode_escape read] at same
                rcases backslash_read read same with ⟨s', rfl, behind⟩ | ⟨e, s', d, z, rfl, -, head, plain⟩
                · rw [shift, shift] at behind
                  rw [List.length_cons] at short
                  exact ih s' (k + 1) (by omega) behind
                · cases k with
                  | zero => exact plain.2.2.1 (List.cons.inj head).1.symm
                  | succ k => exact plain.2.2.1 (List.cons.inj head).1.symm
          · rw [decode_spelled backslash, List.replicate_succ, List.cons_append] at same
            exact backslash (List.cons.inj same).1

theorem misread_iff (s : List Byte) : decode (spelled s) = s ↔ ¬ Misread s := by
  refine ⟨fun same => ?_, decode_of_not_misread s⟩
  induction s with
  | nil => exact id
  | cons c s ih =>
      by_cases backslash : c = byte '\\'
      · subst backslash
        rw [spelled_printing (by decide)] at same
        cases read : readEscape (spelled s) with
        | none =>
            rw [decode_backslash read] at same
            rintro (⟨-, found⟩ | later)
            · rw [read] at found
              cases found
            · exact ih (List.cons.inj same).2 later
        | some found =>
            rw [decode_escape read] at same
            rcases backslash_read read same with ⟨s', rfl, behind⟩ | ⟨e, s', d, z, rfl, escaped, head, plain⟩
            · exact absurd behind (decode_ne_more _ s' 0 (Nat.le_refl _))
            · have printing := plain.1
              rw [← (List.cons.inj head).1, escaped.2] at printing
              cases printing
      · rw [decode_spelled backslash] at same
        rintro (⟨here, -⟩ | later)
        · exact backslash here
        · exact ih (List.cons.inj same).2 later

/-- A listing tells which pattern space it is of, and decoding its joined lines gives that back,
exactly where there is no ambiguous spot and no backslash is misread. -/
theorem lputs_tells_iff (termwidth : Nat) (s : List Byte) :
    (∀ t, lputs termwidth t = lputs termwidth s → t = s) ∧
        decode (joinLines (lputs termwidth s)) = s ↔
      ¬ Ambiguous (if termwidth = 0 then 1 else termwidth) 0 s ∧ ¬ Misread s := by
  refine and_congr ⟨fun only ambiguous => ?_, fun clear t same => ?_⟩ ?_
  · obtain ⟨t, same, other⟩ := same_of_ambiguous s ambiguous
    exact other (only t same)
  · by_contra other
    exact clear (ambiguous_of_same s same other)
  · rw [lputs, joinLines_listing]
    exact misread_iff s

/-- Two pattern spaces with one listing: a backslash and a letter, and the bell. -/
theorem lputs_same :
    ¬ ∀ s t, lputs 60 s = lputs 60 t → s = t := by
  intro tells
  have same := tells [byte '\\', byte 'a'] [7] (by decide)
  exact absurd same (by decide)

end Netbase.Sed
