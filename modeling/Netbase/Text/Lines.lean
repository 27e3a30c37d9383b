import Mathlib.Data.List.Basic
import Mathlib.Data.List.Infix

/-!
# Byte text and its lines

A file is a list of bytes.  A line is kept raw: it carries its newline when the
file has one there, so that a file is the concatenation of its lines and only
the last line can be unterminated.  `getline` is the stream view of the same
decomposition, used by every reader that consumes a file from the front.
-/

namespace Netbase.Text

abbrev Byte := UInt8

/-- The newline byte. -/
def nl : Byte := 10

def byte (c : Char) : Byte := UInt8.ofNat c.toNat

def ascii (text : List Char) : List Byte := text.map byte

theorem forall_byte {property : Byte → Prop} (all : ∀ k : Fin 256, property (UInt8.ofNat k))
    (c : Byte) : property c := by
  have checked := all ⟨c.toNat, c.toNat_lt⟩
  rwa [UInt8.ofNat_toNat] at checked

/-- The lines of a file, each with its newline when it has one. -/
def lines : List Byte → List (List Byte)
  | [] => []
  | b :: rest =>
      if b = nl then [b] :: lines rest
      else
        match lines rest with
        | [] => [[b]]
        | line :: more => (b :: line) :: more

/-- A raw line: nonempty, with a newline at most in the last place. -/
structure IsLine (line : List Byte) : Prop where
  nonempty : line ≠ []
  clean : nl ∉ line.dropLast

/-- A line that ends in its newline. -/
def Terminated (line : List Byte) : Prop := line.getLast? = some nl

instance (line : List Byte) : Decidable (IsLine line) :=
  decidable_of_iff (line ≠ [] ∧ nl ∉ line.dropLast) ⟨fun h => ⟨h.1, h.2⟩, fun h => ⟨h.1, h.2⟩⟩

instance (line : List Byte) : Decidable (Terminated line) :=
  inferInstanceAs (Decidable (_ = _))

/-- Raw lines in file order: all but the last one are terminated. -/
def LineList : List (List Byte) → Prop
  | [] => True
  | [line] => IsLine line
  | line :: next :: rest =>
      IsLine line ∧ Terminated line ∧ LineList (next :: rest)

@[simp]
theorem lines_nil : lines [] = [] := rfl

theorem lines_nl (rest : List Byte) : lines (nl :: rest) = [nl] :: lines rest := by
  simp [lines]

theorem flatten_lines (file : List Byte) : (lines file).flatten = file := by
  induction file with
  | nil => rfl
  | cons b rest ih =>
      unfold lines
      split
      · simp [ih]
      · cases h : lines rest with
        | nil =>
            rw [h] at ih
            simpa using ih
        | cons line more =>
            rw [h] at ih
            simpa using ih

theorem isLine_singleton (b : Byte) : IsLine [b] := by
  exact ⟨by simp, by simp⟩

variable {line : List Byte} {list : List (List Byte)}

variable {b : Byte} {rest : List (List Byte)} {k : Nat}

theorem isLine_cons (body : b ≠ nl) (isLine : IsLine line) :
    IsLine (b :: line) := by
  obtain ⟨nonempty, clean⟩ := isLine
  refine ⟨by simp, ?_⟩
  rw [List.dropLast_cons_of_ne_nil nonempty]
  simpa [List.mem_cons, Ne.symm body] using clean

theorem IsLine.uncons {c : Byte} {more : List Byte} (isLine : IsLine (b :: c :: more)) :
    b ≠ nl ∧ IsLine (c :: more) := by
  refine ⟨fun same => isLine.2 (by simp [same]), by simp, fun inside => isLine.2 ?_⟩
  simp only [List.dropLast_cons_cons, List.mem_cons]
  exact Or.inr inside

theorem IsLine.nl_last {front more : List Byte} (isLine : IsLine (front ++ nl :: more)) :
    more = [] := by
  by_contra follows
  refine isLine.clean ?_
  rw [List.dropLast_append_of_ne_nil (by simp), List.dropLast_cons_of_ne_nil follows]
  simp

theorem terminated_cons (nonempty : line ≠ []) :
    Terminated (b :: line) ↔ Terminated line := by
  unfold Terminated
  cases line with
  | nil => contradiction
  | cons c more => simp [List.getLast?_cons_cons]

theorem LineList.tail (ordered : LineList (line :: rest)) :
    LineList rest := by
  cases rest with
  | nil => trivial
  | cons next more => exact ordered.2.2

theorem LineList.behind {front rest : List (List Byte)} (ordered : LineList (front ++ rest)) :
    LineList rest := by
  induction front with
  | nil => exact ordered
  | cons line front ih => exact ih ordered.tail

theorem LineList.head (ordered : LineList (line :: rest)) :
    IsLine line := by
  cases rest with
  | nil => exact ordered
  | cons next more => exact ordered.1

theorem LineList.head_terminated (ordered : LineList (line :: rest)) (more : rest ≠ []) :
    Terminated line := by
  cases rest with
  | nil => contradiction
  | cons next rest => exact ordered.2.1

theorem LineList.cons {line : List Byte} {rest : List (List Byte)}
    (isLine : IsLine line) (terminated : rest ≠ [] → Terminated line)
    (ordered : LineList rest) : LineList (line :: rest) := by
  cases rest with
  | nil => exact isLine
  | cons next more => exact ⟨isLine, terminated (by simp), ordered⟩

theorem lines_lineList (file : List Byte) : LineList (lines file) := by
  induction file with
  | nil => trivial
  | cons b rest ih =>
      unfold lines
      split
      · next isNewline =>
          subst isNewline
          exact LineList.cons (isLine_singleton _) (fun _ => rfl) ih
      · next body =>
          cases h : lines rest with
          | nil => exact isLine_singleton b
          | cons line more =>
              rw [h] at ih
              refine LineList.cons (isLine_cons body ih.head) (fun nonempty => ?_) ih.tail
              exact (terminated_cons ih.head.1).mpr (ih.head_terminated nonempty)

theorem LineList.isLine (ordered : LineList list) (membership : line ∈ list) : IsLine line := by
  induction list with
  | nil => cases membership
  | cons first rest ih =>
      rcases List.mem_cons.mp membership with rfl | inRest
      · exact ordered.head
      · exact ih ordered.tail inRest

theorem lines_isLine {file : List Byte} (membership : line ∈ lines file) : IsLine line :=
  (lines_lineList file).isLine membership

theorem lines_append (isLine : IsLine line) (terminated : Terminated line) (rest : List Byte) :
    lines (line ++ rest) = line :: lines rest := by
  induction line with
  | nil => exact absurd rfl isLine.1
  | cons b tail ih =>
      cases tail with
      | nil =>
          have isNewline : b = nl := by simpa [Terminated] using terminated
          subst isNewline
          exact lines_nl rest
      | cons c more =>
          obtain ⟨body, inner⟩ := isLine.uncons
          have result := ih inner ((terminated_cons (by simp)).mp terminated)
          rw [List.cons_append, lines, if_neg body, result]

theorem lines_behind (front rest : List Byte) :
    lines (front ++ [nl] ++ rest) = lines (front ++ [nl]) ++ lines rest := by
  induction front with
  | nil => simp [lines]
  | cons b front ih =>
      have some : lines (front ++ [nl]) ≠ [] := by
        intro none
        have whole := flatten_lines (front ++ [nl])
        simp [none] at whole
      by_cases newline : b = nl
      · subst newline
        simp only [List.cons_append, lines_nl, ih]
      · obtain ⟨line, more, split⟩ := List.exists_cons_of_ne_nil some
        simp only [List.cons_append, lines, if_neg newline, ih, split]

theorem lines_length_le (text rest : List Byte) :
    (lines text).length ≤ (lines (text ++ rest)).length := by
  induction text with
  | nil => exact Nat.zero_le _
  | cons b text ih =>
      rw [List.cons_append, lines, lines]
      split
      · exact Nat.succ_le_succ ih
      · cases before : lines text with
        | nil => cases lines (text ++ rest) <;> simp
        | cons line more =>
            cases after : lines (text ++ rest) with
            | nil =>
                rw [before, after] at ih
                cases ih
            | cons line' more' =>
                rw [before, after] at ih
                exact ih

theorem isLine_body {body : List Byte} (clean : nl ∉ body) : IsLine (body ++ [nl]) :=
  ⟨by simp, by simpa using clean⟩

theorem terminated_body (body : List Byte) : Terminated (body ++ [nl]) := by
  simp [Terminated]

theorem lines_unterminated (nonempty : line ≠ []) (clean : nl ∉ line) :
    lines line = [line] := by
  induction line with
  | nil => contradiction
  | cons b tail ih =>
      have body : b ≠ nl := fun same => clean (by simp [same])
      cases tail with
      | nil => simp [lines, body]
      | cons c more =>
          have result := ih (by simp) (fun inside => clean (List.mem_cons_of_mem _ inside))
          rw [lines, if_neg body, result]

theorem IsLine.cases (isLine : IsLine line) :
    (∃ body, nl ∉ body ∧ line = body ++ [nl]) ∨ (line ≠ [] ∧ nl ∉ line) := by
  obtain ⟨nonempty, clean⟩ := isLine
  have split := List.dropLast_append_getLast nonempty
  by_cases newline : line.getLast nonempty = nl
  · left
    exact ⟨line.dropLast, clean, by rw [← split, newline]; simp⟩
  · right
    refine ⟨nonempty, fun inside => ?_⟩
    rw [← split, List.mem_append, List.mem_singleton] at inside
    rcases inside with inBody | same
    · exact clean inBody
    · exact newline same.symm

theorem IsLine.clean_of_not_terminated (isLine : IsLine line) (open_ : ¬ Terminated line) :
    nl ∉ line := by
  rcases isLine.cases with ⟨body, _, rfl⟩ | ⟨_, clean⟩
  · exact absurd (by simp [Terminated]) open_
  · exact clean

theorem LineList.split (ordered : LineList list) :
    (∀ line ∈ list, Terminated line) ∨
      ∃ init last, list = init ++ [last] ∧ (∀ line ∈ init, Terminated line) ∧
        IsLine last ∧ ¬ Terminated last := by
  induction list with
  | nil => exact Or.inl (by simp)
  | cons line rest ih =>
      by_cases terminated : Terminated line
      · rcases ih ordered.tail with all | ⟨init, last, rfl, all, isLine, unterminated⟩
        · left
          simpa [terminated] using all
        · right
          exact ⟨line :: init, last, rfl, by simpa [terminated] using all, isLine, unterminated⟩
      · have stop : rest = [] := by
          by_contra more
          exact terminated (ordered.head_terminated more)
        subst stop
        exact Or.inr ⟨[], line, rfl, by simp, ordered.head, terminated⟩

/-- The lines from line `k` on. -/
theorem LineList.drop (ordered : LineList list) (k : Nat) :
    LineList (list.drop k) := by
  rw [← List.take_append_drop k list] at ordered
  exact ordered.behind

theorem drop_found (found : list[k]? = some line) :
    list.drop k = line :: list.drop (k + 1) := by
  obtain ⟨inside, rfl⟩ := List.getElem?_eq_some_iff.mp found
  exact List.drop_eq_getElem_cons inside

theorem LineList.last_of_open (ordered : LineList list) (found : list[k]? = some line)
    (unterminated : ¬ Terminated line) :
    k + 1 = list.length := by
  have inside := (List.getElem?_eq_some_iff.mp found).1
  have behind := ordered.drop k
  rw [drop_found found] at behind
  by_contra more
  refine unterminated (behind.head_terminated (List.ne_nil_of_length_pos ?_))
  rw [List.length_drop]
  omega

theorem last_open (ordered : LineList list) (found : list[k]? = some line)
    (last : k + 1 = list.length) :
    (∃ other ∈ list, ¬ Terminated other) ↔ ¬ Terminated line := by
  refine ⟨?_, fun open_ => ⟨line, List.mem_of_getElem? found, open_⟩⟩
  rintro ⟨other, listed, open_⟩ terminated
  rcases ordered.split with all | ⟨init, final, rfl, -, -, unterminated⟩
  · exact open_ (all other listed)
  · have index : k = init.length := by simpa using last
    rw [index] at found
    simp at found
    exact unterminated (found ▸ terminated)

theorem getLast?_append_line (front : List Byte) {last : List Byte} (isLine : IsLine last) :
    (front ++ last).getLast? = last.getLast? := by
  rw [List.getLast?_append_of_ne_nil _ isLine.1]

/-! ## Stream reading -/

/-- Read one line from the front of a stream, its newline included. -/
def getline : List Byte → List Byte × List Byte
  | [] => ([], [])
  | b :: rest =>
      if b = nl then ([b], rest)
      else
        let inner := getline rest
        (b :: inner.1, inner.2)

/-- The lines of a nonempty stream are what successive `getline` calls return. -/
theorem lines_getline {stream : List Byte} (nonempty : stream ≠ []) :
    lines stream = (getline stream).1 :: lines (getline stream).2 := by
  induction stream with
  | nil => contradiction
  | cons b rest ih =>
      rw [lines, getline]
      split
      · rfl
      · cases rest with
        | nil => rfl
        | cons c more => rw [ih (by simp)]

theorem getline_append (stream : List Byte) :
    (getline stream).1 ++ (getline stream).2 = stream := by
  induction stream with
  | nil => rfl
  | cons b rest ih =>
      unfold getline
      split
      · rfl
      · simpa using ih

theorem getline_line (isLine : IsLine line) (terminated : Terminated line) (rest : List Byte) :
    getline (line ++ rest) = (line, rest) := by
  induction line with
  | nil => exact absurd rfl isLine.1
  | cons b tail ih =>
      cases tail with
      | nil =>
          have isNewline : b = nl := by simpa [Terminated] using terminated
          subst isNewline
          simp [getline]
      | cons c more =>
          obtain ⟨body, inner⟩ := isLine.uncons
          have result := ih inner ((terminated_cons (by simp)).mp terminated)
          rw [List.cons_append, getline, if_neg body, result]

theorem getline_unterminated {stream : List Byte} (clean : nl ∉ stream) :
    getline stream = (stream, []) := by
  induction stream with
  | nil => rfl
  | cons b rest ih =>
      have body : b ≠ nl := fun same => clean (by simp [same])
      rw [getline, if_neg body, ih (fun inside => clean (List.mem_cons_of_mem _ inside))]

/-- Reading from the lines of a file returns the first of them. -/
theorem getline_flatten (ordered : LineList (line :: rest)) :
    getline (line :: rest).flatten = (line, rest.flatten) := by
  by_cases terminated : Terminated line
  · exact getline_line ordered.head terminated _
  · have last : rest = [] := by
      by_contra more
      exact terminated (ordered.head_terminated more)
    subst last
    simpa using getline_unterminated (ordered.head.clean_of_not_terminated terminated)

end Netbase.Text
