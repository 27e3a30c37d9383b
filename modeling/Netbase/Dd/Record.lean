import Mathlib.Data.List.TakeWhile
import Netbase.Dd.Sending

/-!
# Records and lines

What the conversions of records are for: `block` makes a record of every line, and
`unblock` a line of every record.  What they may keep between two reads is the line that
has begun, unless it is long enough to have been sent.
-/

namespace Netbase.Dd

open Netbase.Text Netbase.Lib

/-- The characters of a line, without its newline. -/
def body (line : List Byte) : List Byte := line.takeWhile (· ≠ nl)

/-- The record of a line: cut or filled up with blanks, and translated. -/
def record (o : Operands) (line : List Byte) : List Byte :=
  ((body line).take o.cbsz ++ List.replicate (o.cbsz - (body line).length) (byte ' ')).map
    o.translate

def records (o : Operands) (text : List Byte) : List Byte := (lines text).flatMap (record o)

/-- The line that has begun. -/
def openLine (text : List Byte) : List Byte := text.rtakeWhile (· ≠ nl)

/-- What is kept of a text until the next read. -/
def kept (cbs : Nat) (text : List Byte) : List Byte :=
  if (openLine text).length < cbs then openLine text else []

/-- Nothing, or text that ends in a newline. -/
def Closed (text : List Byte) : Prop := text = [] ∨ ∃ front, text = front ++ [nl]

/-- Every read finds room behind what is kept of the bytes before it. -/
def ReadsFit (room : Nat) (keep : List Byte → Nat) : List Byte → List (List Byte) → Prop
  | _, [] => True
  | read, chunk :: rest => keep read + chunk.length ≤ room ∧ ReadsFit room keep (read ++ chunk) rest

theorem record_length (o : Operands) (line : List Byte) : (record o line).length = o.cbsz := by
  simp only [record, List.length_map, List.length_append, List.length_take, List.length_replicate]
  omega

theorem record_eq (o : Operands) (line : List Byte) :
    record o line = ((body line).take o.cbsz).map o.translate ++
      List.replicate (o.cbsz - ((body line).take o.cbsz).length) (o.translate (byte ' ')) := by
  have filling : o.cbsz - ((body line).take o.cbsz).length = o.cbsz - (body line).length := by
    rw [List.length_take]
    omega
  rw [record, List.map_append, List.map_replicate, filling]

theorem Closed.lines_append {text : List Byte} (closed : Closed text) (rest : List Byte) :
    lines (text ++ rest) = lines text ++ lines rest := by
  rcases closed with rfl | ⟨front, rfl⟩
  · rfl
  · exact lines_behind front rest

theorem Closed.line {text line : List Byte} : Closed (text ++ (line ++ [nl])) :=
  Or.inr ⟨text ++ line, (List.append_assoc _ _ _).symm⟩

theorem Closed.lines_line {text line : List Byte} (closed : Closed text) (clean : nl ∉ line) :
    lines (text ++ (line ++ [nl])) = lines text ++ [line ++ [nl]] := by
  have one := Text.lines_append (isLine_body clean) (terminated_body line) []
  rw [List.append_nil, lines_nil] at one
  rw [closed.lines_append, one]

theorem Closed.lines_more {text more : List Byte} (closed : Closed text) (some : more ≠ []) :
    (lines text).length < (lines (text ++ more)).length := by
  have positive : lines more ≠ [] := by
    intro none
    have whole := flatten_lines more
    rw [none] at whole
    exact some whole.symm
  have length := List.length_pos_iff.mpr positive
  rw [closed.lines_append, List.length_append]
  omega

theorem Closed.openLine_eq {text line : List Byte} (closed : Closed text) (clean : nl ∉ line) :
    openLine (text ++ line) = line := by
  have none : ∀ b ∈ line.reverse, decide (b ≠ nl) = true := by
    intro b inside
    have other : b ≠ nl := fun same => clean (same ▸ List.mem_reverse.mp inside)
    simpa using other
  rw [openLine, List.rtakeWhile, List.reverse_append, List.takeWhile_append_of_pos none]
  rcases closed with rfl | ⟨front, rfl⟩
  · simp
  · simp

theorem body_line {line : List Byte} (clean : nl ∉ line) (rest : List Byte) :
    body (line ++ nl :: rest) = line := by
  have none : ∀ b ∈ line, decide (b ≠ nl) = true := by
    intro b inside
    have other : b ≠ nl := fun same => clean (same ▸ inside)
    simpa using other
  rw [body, List.takeWhile_append_of_pos none]
  simp

theorem body_cases (text : List Byte) :
    (nl ∉ text ∧ body text = text) ∨
      nl ∉ body text ∧ ∃ rest, text = body text ++ nl :: rest := by
  have clean : nl ∉ body text := fun inside => by simpa using List.mem_takeWhile_imp inside
  have whole : body text ++ text.dropWhile (· ≠ nl) = text := List.takeWhile_append_dropWhile
  cases behind : text.dropWhile (· ≠ nl) with
  | nil =>
      rw [behind, List.append_nil] at whole
      exact Or.inl ⟨whole ▸ clean, whole⟩
  | cons b rest =>
      have head := List.head?_dropWhile_not (fun b => decide (b ≠ nl)) text
      rw [behind] at head
      have newline : b = nl := by simpa using head
      subst newline
      rw [behind] at whole
      exact Or.inr ⟨clean, rest, whole.symm⟩

theorem body_clean {line : List Byte} (clean : nl ∉ line) : body line = line := by
  refine List.takeWhile_eq_self_iff.mpr fun b inside => ?_
  have other : b ≠ nl := fun same => clean (same ▸ inside)
  simpa using other

theorem record_body (o : Operands) {line line' : List Byte} (same : body line = body line') :
    record o line = record o line' := by
  rw [record, record, same]

theorem Closed.lines_open {text line : List Byte} (closed : Closed text) (some : line ≠ [])
    (clean : nl ∉ line) : lines (text ++ line) = lines text ++ [line] := by
  rw [closed.lines_append, lines_unterminated some clean]

theorem Closed.records_open {text : List Byte} (closed : Closed text) (o : Operands)
    {line : List Byte} (some : line ≠ []) (clean : nl ∉ line) :
    records o (text ++ line) = records o text ++ record o line := by
  rw [records, closed.lines_open some clean, List.flatMap_append, List.flatMap_singleton, records]

theorem record_long (o : Operands) {line : List Byte} (clean : nl ∉ line)
    (long : o.cbsz ≤ line.length) (more : List Byte) : record o (line ++ more) = record o line := by
  have longer : o.cbsz ≤ (body (line ++ more)).length ∧
      (body (line ++ more)).take o.cbsz = line.take o.cbsz := by
    have front : ∀ b ∈ line, decide (b ≠ nl) = true := by
      intro b inside
      have other : b ≠ nl := fun same => clean (same ▸ inside)
      simpa using other
    rw [body, List.takeWhile_append_of_pos front, List.length_append,
      List.take_append_of_le_length long]
    exact ⟨by omega, rfl⟩
  have none : o.cbsz - (body (line ++ more)).length = o.cbsz - (body line).length := by
    rw [body_clean clean]
    omega
  rw [record, record, longer.2, none, body_clean clean]

theorem Closed.records_line {text : List Byte} (closed : Closed text) (o : Operands)
    {line data : List Byte} (clean : nl ∉ line) (same : body data = line) :
    records o (text ++ (line ++ [nl])) = records o text ++ record o data := by
  rw [records, closed.lines_line clean, List.flatMap_append, List.flatMap_singleton, records,
    record_body o ((body_line clean []).trans same.symm)]

end Netbase.Dd
