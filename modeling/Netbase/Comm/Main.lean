import Mathlib
import Netbase.Lib.Merge
import Netbase.Text.Lines

/-!
# Lines common to two files

The next lines of both files are compared, and the lesser one is printed, or
both as one when they are the same.  A line is read into a buffer of fixed size;
what does not fit is read past.
-/

namespace Netbase.Comm

open Netbase.Text Netbase.Lib.Merge

/-- A character is put into the line buffer; the last place is kept for the end of the string. -/
def store (maxlinelen : Nat) (buf : List Byte) (c : Byte) : List Byte :=
  if buf.length + 1 ≥ maxlinelen then buf else buf ++ [c]

/-- What is read up to a newline, what is left, and whether the end of the file was met. -/
def fill (maxlinelen : Nat) : List Byte → List Byte → List Byte × List Byte × Bool
  | [], buf => (buf, [], true)
  | c :: fp, buf => if c = nl then (buf, fp, false) else fill maxlinelen fp (store maxlinelen buf c)

/-- The string in the line buffer. -/
def cstring (buf : List Byte) : List Byte := buf.takeWhile (· ≠ 0)

def getnextln (maxlinelen : Nat) (fp : List Byte) : Option (List Byte) × List Byte :=
  let (buf, fp, eof) := fill maxlinelen fp []
  if eof = true ∧ buf.length = 0 then (none, fp) else (some (cstring buf), fp)

/-- The offsets of the columns that are printed. -/
def column (flag1 flag2 flag3 : Bool) : Side → Option (List Byte)
  | .left => if flag1 then some [] else none
  | .right => if flag2 then some (List.replicate flag1.toNat (byte '\t')) else none
  | .both => if flag3 then some (List.replicate (flag1.toNat + flag2.toNat) (byte '\t')) else none

section

variable (maxlinelen : Nat)

/-- Prints a line and the rest of its file.  A line is printed with the offset in front of it. -/
def show_ (offset : List Byte) : Nat → List Byte → List Byte → Option (List (List Byte × List Byte))
  | 0, _, _ => none
  | fuel + 1, buf, fp =>
      match getnextln maxlinelen fp with
      | (none, _) => some [(offset, buf)]
      | (some next, fp) => do
          let rest ← show_ offset fuel next fp
          return (offset, buf) :: rest

variable (compare : List Byte → List Byte → Ordering) (col : Side → Option (List Byte))

/-- What is printed from here on, when `read1` and `read2` tell which lines are to be read. -/
def loop : Nat → Bool → Bool → List Byte → List Byte → List Byte → List Byte →
    Option (List (List Byte × List Byte))
  | 0, _, _, _, _, _, _ => none
  | fuel + 1, read1, read2, line1, line2, fp1, fp2 =>
      let (next1, fp1) := if read1 then getnextln maxlinelen fp1 else (some line1, fp1)
      let (next2, fp2) := if read2 then getnextln maxlinelen fp2 else (some line2, fp2)
      match next1, next2 with
      | none, none => some []
      | none, some line2 =>
          match col .right with
          | none => some []
          | some col2 => show_ maxlinelen col2 (fp2.length + 1) line2 fp2
      | some line1, none =>
          match col .left with
          | none => some []
          | some col1 => show_ maxlinelen col1 (fp1.length + 1) line1 fp1
      | some line1, some line2 =>
          match compare line1 line2 with
          | .eq => do
              let rest ← loop fuel true true line1 line2 fp1 fp2
              return (col .both).toList.map (·, line1) ++ rest
          | .lt => do
              let rest ← loop fuel true false line1 line2 fp1 fp2
              return (col .left).toList.map (·, line1) ++ rest
          | .gt => do
              let rest ← loop fuel false true line1 line2 fp1 fp2
              return (col .right).toList.map (·, line2) ++ rest

/-- The lines that are printed, each with its offset. -/
def comm (fp1 fp2 : List Byte) : Option (List (List Byte × List Byte)) :=
  loop maxlinelen compare col (fp1.length + fp2.length + 1) true true [] [] fp1 fp2

end

/-! ## Lines -/

section

variable {maxlinelen : Nat}

/-- A line without its newline. -/
def body (line : List Byte) : List Byte := line.takeWhile (· ≠ nl)

/-- The strings that are read from a file. -/
def texts (maxlinelen : Nat) (file : List Byte) : List (List Byte) :=
  (lines file).map fun line => cstring ((body line).take (maxlinelen - 1))

theorem fill_eq (fp : List Byte) : ∀ {buf : List Byte}, buf.length ≤ maxlinelen - 1 →
    fill maxlinelen fp buf = ((buf ++ body fp).take (maxlinelen - 1),
      (fp.dropWhile (· ≠ nl)).tail, decide (fp.dropWhile (· ≠ nl) = [])) := by
  unfold body
  induction fp with
  | nil =>
      intro buf fits
      rw [fill, List.takeWhile_nil, List.append_nil, List.take_of_length_le fits]
      rfl
  | cons c fp ih =>
      intro buf fits
      rw [fill]
      by_cases newline : c = nl
      · simp [newline, List.take_of_length_le fits]
      · rw [if_neg newline, List.takeWhile_cons_of_pos (by simpa using newline),
          List.dropWhile_cons_of_pos (by simpa using newline)]
        unfold store
        split
        · have full : buf.length = maxlinelen - 1 := by omega
          rw [ih fits, List.take_append_of_le_length full.ge, List.take_append_of_le_length full.ge]
        · rw [ih (by rw [List.length_append, List.length_singleton]; omega), List.append_assoc,
            List.singleton_append]

theorem lines_cons {fp : List Byte} (some_ : fp ≠ []) :
    ∃ line, lines fp = line :: lines (fp.dropWhile (· ≠ nl)).tail ∧ body line = body fp := by
  unfold body
  induction fp with
  | nil => contradiction
  | cons c fp ih =>
      rw [lines]
      by_cases newline : c = nl
      · subst newline
        exact ⟨[nl], by simp, by simp⟩
      · rw [if_neg newline, List.takeWhile_cons_of_pos (by simpa using newline),
          List.dropWhile_cons_of_pos (by simpa using newline)]
        by_cases last : fp = []
        · subst last
          exact ⟨[c], rfl, by simp [newline]⟩
        · obtain ⟨line, first, same⟩ := ih last
          rw [first]
          exact ⟨c :: line, rfl, by rw [List.takeWhile_cons_of_pos (by simpa using newline), same]⟩

theorem getnextln_texts (room : 1 < maxlinelen) (fp : List Byte) :
    (getnextln maxlinelen fp).1 = (texts maxlinelen fp).head? ∧
      texts maxlinelen (getnextln maxlinelen fp).2 = (texts maxlinelen fp).tail := by
  unfold getnextln
  rw [fill_eq fp (Nat.zero_le _)]
  dsimp only
  by_cases empty : fp = []
  · subst empty
    simp [texts, body]
  · obtain ⟨line, first, same⟩ := lines_cons empty
    have read : ¬(decide (fp.dropWhile (· ≠ nl) = []) = true ∧
        (([] ++ body fp).take (maxlinelen - 1)).length = 0) := by
      rintro ⟨eof, zero⟩
      have whole := @List.takeWhile_append_dropWhile Byte (· ≠ nl) fp
      rw [of_decide_eq_true eof, List.append_nil] at whole
      rw [List.nil_append, body, whole, List.length_take] at zero
      have := List.length_pos_iff.mpr empty
      omega
    rw [if_neg read]
    unfold texts
    rw [first, List.map_cons, same]
    exact ⟨rfl, rfl⟩

variable {compare : List Byte → List Byte → Ordering} {col : Side → Option (List Byte)}

def printed (col : Side → Option (List Byte)) (merged : List (Side × List Byte)) :
    List (List Byte × List Byte) :=
  merged.flatMap fun item => (col item.1).toList.map (·, item.2)

theorem length_texts_le (fp : List Byte) : (texts maxlinelen fp).length ≤ fp.length := by
  rw [texts, List.length_map]
  induction fp with
  | nil => exact Nat.le_refl 0
  | cons c fp ih =>
      rw [lines]
      split
      · exact Nat.succ_le_succ ih
      · cases rest : lines fp with
        | nil => exact Nat.le_add_left _ _
        | cons line more =>
            rw [rest] at ih
            exact Nat.le_succ_of_le ih

theorem show_texts (room : 1 < maxlinelen) (offset : List Byte) (rest : List (List Byte)) :
    ∀ {fuel : Nat} {buf fp : List Byte}, texts maxlinelen fp = rest → rest.length < fuel →
      show_ maxlinelen offset fuel buf fp = some ((buf :: rest).map (offset, ·)) := by
  induction rest with
  | nil =>
      rintro (_ | fuel) buf fp same enough
      · exact absurd enough (Nat.not_lt_zero _)
      have next := (getnextln_texts room fp).1
      rw [same] at next
      rw [show_]
      cases read : getnextln maxlinelen fp with
      | mk line fp' =>
          rw [read] at next
          cases next
          rfl
  | cons text rest ih =>
      rintro (_ | fuel) buf fp same enough
      · exact absurd enough (Nat.not_lt_zero _)
      obtain ⟨next, left⟩ := getnextln_texts room fp
      rw [same] at next left
      rw [show_]
      cases read : getnextln maxlinelen fp with
      | mk line fp' =>
          rw [read] at next left
          cases next
          dsimp only
          rw [ih left (Nat.lt_of_succ_lt_succ enough)]
          rfl

/-- The texts that are left when the first may have been read already. -/
def pending (maxlinelen : Nat) (read : Bool) (line fp : List Byte) : List (List Byte) :=
  if read then texts maxlinelen fp else line :: texts maxlinelen fp

theorem pending_next (room : 1 < maxlinelen) (read : Bool) (line fp : List Byte) :
    ∃ fp', (if read then getnextln maxlinelen fp else (some line, fp)) =
        ((pending maxlinelen read line fp).head?, fp') ∧
      texts maxlinelen fp' = (pending maxlinelen read line fp).tail := by
  cases read with
  | false => exact ⟨fp, rfl, rfl⟩
  | true =>
      obtain ⟨next, left⟩ := getnextln_texts room fp
      exact ⟨(getnextln maxlinelen fp).2, Prod.ext next rfl, left⟩

theorem loop_merge (room : 1 < maxlinelen) (fuel : Nat) :
    ∀ {read1 read2 : Bool} {line1 line2 fp1 fp2 : List Byte} {xs ys : List (List Byte)},
      pending maxlinelen read1 line1 fp1 = xs → pending maxlinelen read2 line2 fp2 = ys →
      xs.length + ys.length < fuel →
      loop maxlinelen compare col fuel read1 read2 line1 line2 fp1 fp2 =
        some (printed col (merge compare xs ys)) := by
  have each (offset : List Byte) (texts : List (List Byte)) :
      texts.flatMap (fun text => [(offset, text)]) = texts.map (offset, ·) :=
    List.map_eq_flatMap.symm
  have shows {offset line fp : List Byte} {rest : List (List Byte)}
      (left : texts maxlinelen fp = rest) :
      show_ maxlinelen offset (fp.length + 1) line fp = some ((line :: rest).map (offset, ·)) :=
    show_texts room offset rest left (Nat.lt_succ_of_le (left ▸ length_texts_le fp))
  induction fuel with
  | zero => exact fun _ _ few => absurd few (Nat.not_lt_zero _)
  | succ fuel ih =>
      intro read1 read2 line1 line2 fp1 fp2 xs ys left right few
      obtain ⟨fp1', next1, rest1⟩ := pending_next room read1 line1 fp1
      obtain ⟨fp2', next2, rest2⟩ := pending_next room read2 line2 fp2
      rw [left] at next1 rest1
      rw [right] at next2 rest2
      rw [loop, next1, next2]
      cases xs with
      | nil =>
          cases ys with
          | nil =>
              rw [merge]
              rfl
          | cons y ys =>
              rw [merge]
              cases shown : col .right with
              | none => simp [printed, shown]
              | some offset =>
                  simp [printed, shown, shows rest2, List.flatMap_map, each]
      | cons x xs =>
          cases ys with
          | nil =>
              rw [merge]
              dsimp only [List.head?]
              cases shown : col .left with
              | none => simp [printed, shown]
              | some offset =>
                  simp [printed, shown, shows rest1, List.flatMap_map, each]
          | cons y ys =>
              rw [List.length_cons, List.length_cons] at few
              rw [merge]
              dsimp only [List.head?]
              cases order : compare x y with
              | eq =>
                  have rest := @ih true true x y fp1' fp2' _ _ rest1 rest2 (by simp; omega)
                  rw [rest]
                  rfl
              | lt =>
                  have rest := @ih true false x y fp1' fp2' xs (y :: ys) rest1
                    (congrArg (y :: ·) rest2) (by simp; omega)
                  dsimp only
                  rw [rest]
                  rfl
              | gt =>
                  have rest := @ih false true x y fp1' fp2' (x :: xs) ys
                    (congrArg (x :: ·) rest1) rest2 (by simp; omega)
                  rw [rest]
                  rfl

theorem comm_merge (room : 1 < maxlinelen) (fp1 fp2 : List Byte) :
    comm maxlinelen compare col fp1 fp2 =
      some (printed col (merge compare (texts maxlinelen fp1) (texts maxlinelen fp2))) :=
  loop_merge room _ rfl rfl
    (Nat.lt_succ_of_le (Nat.add_le_add (length_texts_le fp1) (length_texts_le fp2)))

theorem texts_short {fp : List Byte} (text : List Byte) (mem : text ∈ texts maxlinelen fp) :
    text.length ≤ maxlinelen - 1 := by
  obtain ⟨line, -, rfl⟩ := List.mem_map.mp mem
  exact (List.takeWhile_sublist _).length_le.trans (List.length_take_le _ _)

theorem texts_fit {fp : List Byte} (clean : 0 ∉ fp)
    (fits : ∀ line ∈ lines fp, (body line).length < maxlinelen) :
    texts maxlinelen fp = (lines fp).map body := by
  refine List.map_congr_left fun line mem => ?_
  have short := fits line mem
  have inside : ∀ c ∈ body line, c ≠ 0 := by
    intro c here zero
    have there := List.mem_flatten.mpr ⟨line, mem, (List.takeWhile_sublist _).subset here⟩
    rw [flatten_lines, zero] at there
    exact clean there
  rw [List.take_of_length_le (by omega), cstring, List.takeWhile_eq_self_iff]
  simpa using inside

end

/-- `LINE_MAX` and one. -/
def MAXLINELEN : Nat := 2049

/-- For sorted files whose lines fit in the buffer the printed lines are those of both files in
order: every line in the third column as often as in the file that has fewer of it, and the
surplus in the column of the other file. -/
theorem comm_columns (flag1 flag2 flag3 : Bool) (fp1 fp2 : List Byte) (clean1 : 0 ∉ fp1)
    (clean2 : 0 ∉ fp2) (fits1 : ∀ line ∈ lines fp1, (body line).length < MAXLINELEN)
    (fits2 : ∀ line ∈ lines fp2, (body line).length < MAXLINELEN)
    (sorted1 : Sorted Ord.compare ((lines fp1).map body))
    (sorted2 : Sorted Ord.compare ((lines fp2).map body)) :
    ∃ merged : List (Side × List Byte),
      comm MAXLINELEN Ord.compare (column flag1 flag2 flag3) fp1 fp2 =
        some (printed (column flag1 flag2 flag3) merged) ∧
      Sorted Ord.compare (merged.map Prod.snd) ∧
      ∀ line,
        merged.count (.both, line) =
          min (((lines fp1).map body).count line) (((lines fp2).map body).count line) ∧
        merged.count (.left, line) =
          ((lines fp1).map body).count line - ((lines fp2).map body).count line ∧
        merged.count (.right, line) =
          ((lines fp2).map body).count line - ((lines fp1).map body).count line := by
  have run := @comm_merge MAXLINELEN Ord.compare (column flag1 flag2 flag3) (by decide) fp1 fp2
  rw [texts_fit clean1 fits1, texts_fit clean2 fits2] at run
  exact ⟨_, run, merge_sorted sorted1 sorted2, merge_counts sorted1 sorted2⟩

theorem comm_columns_letters :
    ∃ merged : List (Side × List Byte),
      comm MAXLINELEN Ord.compare (column true true true) (ascii ['a', '\n', 'b', '\n'])
          (ascii ['b', '\n']) = some (printed (column true true true) merged) ∧
      Sorted Ord.compare (merged.map Prod.snd) ∧
      ∀ line,
        merged.count (.both, line) = min ([ascii ['a'], ascii ['b']].count line)
          ([ascii ['b']].count line) ∧
        merged.count (.left, line) = [ascii ['a'], ascii ['b']].count line -
          [ascii ['b']].count line ∧
        merged.count (.right, line) = [ascii ['b']].count line -
          [ascii ['a'], ascii ['b']].count line :=
  comm_columns true true true (ascii ['a', '\n', 'b', '\n']) (ascii ['b', '\n']) (by decide)
    (by decide) (by decide) (by decide) (by unfold Sorted; decide) (by unfold Sorted; decide)

/-- The end of a line that does not fit is not printed. -/
theorem comm_long : ¬∀ fp1 fp2 : List Byte, 0 ∉ fp1 → 0 ∉ fp2 →
    Sorted Ord.compare ((lines fp1).map body) → Sorted Ord.compare ((lines fp2).map body) →
    ∃ merged : List (Side × List Byte),
      comm MAXLINELEN Ord.compare (column true true true) fp1 fp2 =
        some (printed (column true true true) merged) ∧
      ∀ line, merged.count (.left, line) =
        ((lines fp1).map body).count line - ((lines fp2).map body).count line := by
  intro claim
  obtain ⟨a, size, all⟩ : ∃ a : List Byte, a.length = 2049 ∧ ∀ c ∈ a, c = byte 'a' :=
    ⟨List.replicate 2049 (byte 'a'), List.length_replicate, fun c => List.eq_of_mem_replicate⟩
  have none_ : a ≠ [] := fun empty => by simp [empty] at size
  have one := lines_unterminated none_ fun mem => absurd (all nl mem) (by decide)
  have text : body a = a := List.takeWhile_eq_self_iff.mpr fun c mem => by
    rw [all c mem]
    decide
  obtain ⟨merged, run, counts⟩ := claim a [] (fun mem => absurd (all 0 mem) (by decide)) (by simp)
    (by rw [one]; exact List.pairwise_singleton _ _) List.Pairwise.nil
  have count := counts a
  rw [one, List.map_singleton, text, List.count_singleton_self, lines_nil, List.map_nil,
    List.count_nil] at count
  have inside : (Side.left, a) ∈ merged := List.count_pos_iff.mp (by omega)
  have shown : ([], a) ∈ printed (column true true true) merged :=
    List.mem_flatMap.mpr ⟨_, inside, List.mem_singleton.mpr rfl⟩
  rw [comm_merge (by decide), Option.some.injEq] at run
  rw [← run] at shown
  obtain ⟨⟨side, line⟩, mem, same⟩ := List.mem_flatMap.mp shown
  obtain ⟨offset, -, pair⟩ := List.mem_map.mp same
  have whole : line = a := congrArg Prod.snd pair
  have short : line.length ≤ 2048 := by
    rcases mem_merge mem with left | right
    · exact texts_short line left
    · exact texts_short line right
  rw [whole] at short
  omega

end Netbase.Comm
