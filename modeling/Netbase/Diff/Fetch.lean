import Netbase.Diff.Check
import Netbase.Lib.Spans
import Netbase.Unified.Format

/-!
# Fetching lines

`fetch` prints a range of lines of one file.  It finds a line between two
neighbouring entries of an index table, so what it shows is what the table says;
it stops at the end of the file, and in an editor script at a line that is a
single dot.
-/

namespace Netbase.Diff.Fetch

open Netbase.Lib
open Netbase.Text
open Netbase.Unified
open Netbase.Diff.Check

/-- The values of `diff_format` that are modelled. -/
inductive Format where
  | normal
  | edit
  | reverse
  | nreverse
  | context
  | unified
  | ifdef
  deriving DecidableEq, Repr

/-- Does the format leave out the note about a missing newline? -/
def Format.quiet : Format → Bool
  | .edit => true
  | .reverse => true
  | .nreverse => true
  | _ => false

/-- Why the bytes of a line came to an end. -/
inductive Stop where
  | done
  | eof
  | dot
  deriving DecidableEq, Repr

/-- The text printed at the end of the file. -/
def Format.eofText (format : Format) : List Byte := if format.quiet then [] else nl :: noNewline

/-- The inner loop of `fetch`: `nc - j` bytes are left to print. -/
def fetchBytes (format : Format) : Nat → Nat → Byte → List Byte → List Byte × Stop
  | 0, _, _, _ => ([], .done)
  | _ + 1, _, _, [] => (format.eofText, .eof)
  | left + 1, j, lastc, c :: lb =>
      if format = .edit ∧ j = 1 ∧ c = nl ∧ lastc = byte '.' then ([byte '.', nl], .dot)
      else
        let (text, stop) := fetchBytes format left (j + 1) c lb
        (c :: text, stop)

/-- What stands before a line. -/
def markText (format : Format) : Option Char → List Byte
  | none => []
  | some ch =>
      if format = .ifdef then []
      else if format = .unified then [byte ch]
      else [byte ch, byte ' ']

/-- The outer loop of `fetch`, for the given number of lines from line `i` on. -/
def fetchLines (format : Format) (f : Table Nat) (a : Nat) (lb : List Byte) (ch : Option Char) :
    Nat → Nat → List Byte × Nat
  | 0, _ => ([], 0)
  | count + 1, i =>
      let (line, stop) := fetchBytes format (f i - f (i - 1)) 0 0 (lb.drop (f (i - 1)))
      let shown := markText format ch ++ line
      match stop with
      | .done =>
          let (rest, result) := fetchLines format f a lb ch count (i + 1)
          (shown ++ rest, result)
      | .eof => (shown, 0)
      | .dot => (shown, i - a + 1)

/-- The lines `a..b`: their text, and in an editor script where to restart. -/
def fetch (format : Format) (f : Table Nat) (a b : Nat) (lb : List Byte) (ch : Option Char) :
    List Byte × Nat :=
  if a > b then ([], 0) else fetchLines format f a lb ch (b + 1 - a) a

/-! ## What a table shows -/

/-- The text of a line, with a note when its newline is missing. -/
def Format.lineText (format : Format) (line : List Byte) : List Byte :=
  line ++ if Terminated line then [] else format.eofText

def Shows (format : Format) (ix : Table Nat) (lb : List Byte) (texts : List (List Byte)) : Prop :=
  ∀ k text, texts[k]? = some text →
    ∃ stop, fetchBytes format (ix (k + 1) - ix k) 0 0 (lb.drop (ix k)) = (text, stop) ∧
      (stop = .done ∨ stop = .eof ∧ k + 1 = texts.length)

section

variable {format : Format} {line : List Byte} {lb : List Byte} {ix : Table Nat}
  {texts front middle back : List (List Byte)}

theorem fetchBytes_exact (other : format ≠ .edit) (line rest : List Byte) (j : Nat) (lastc : Byte) :
    fetchBytes format line.length j lastc (line ++ rest) = (line, .done) := by
  induction line generalizing j lastc with
  | nil => rfl
  | cons c line ih =>
      rw [List.length_cons, List.cons_append, fetchBytes, if_neg fun all => other all.1, ih]

theorem fetchBytes_beyond (other : format ≠ .edit) {count : Nat} (more : line.length < count)
    (j : Nat) (lastc : Byte) :
    fetchBytes format count j lastc line = (line ++ format.eofText, .eof) := by
  induction line generalizing j lastc count with
  | nil =>
      obtain ⟨count, rfl⟩ : ∃ less, count = less + 1 := ⟨count - 1, by simp at more; omega⟩
      rfl
  | cons c line ih =>
      rw [List.length_cons] at more
      obtain ⟨count, rfl⟩ : ∃ less, count = less + 1 := ⟨count - 1, by omega⟩
      rw [fetchBytes, if_neg fun all => other all.1, ih (by omega)]
      rfl

theorem drop_offset (list : List (List Byte)) (k : Nat) :
    list.flatten.drop (offset list k) = (list.drop k).flatten := by
  have whole : list.flatten = (list.take k).flatten ++ (list.drop k).flatten := by
    rw [← List.flatten_append, List.take_append_drop]
  rw [whole, offset, List.drop_left]

theorem shows_of_indexed (other : format ≠ .edit) {list : List (List Byte)}
    (ordered : LineList list) (indexed : Indexed list ix) :
    Shows format ix list.flatten (list.map format.lineText) := by
  intro k text found
  rw [List.getElem?_map, Option.map_eq_some_iff] at found
  obtain ⟨line, here, rfl⟩ := found
  have inside := (List.getElem?_eq_some_iff.mp here).1
  have start : ix k = offset list k := (indexed k inside.le).exact fun last => by omega
  have stands := indexed (k + 1) inside
  have next := offset_succ here
  have stream : list.flatten.drop (ix k) = line ++ (list.drop (k + 1)).flatten := by
    rw [start, drop_offset, drop_found here, List.flatten_cons]
  rw [stream]
  by_cases terminated : Terminated line
  · have exact : ix (k + 1) = offset list (k + 1) := stands.exact fun last =>
      (last_open ordered here last.1).mp last.2 terminated
    have count : ix (k + 1) - ix k = line.length := by omega
    rw [count, fetchBytes_exact other]
    exact ⟨.done, by simp [Format.lineText, terminated], Or.inl rfl⟩
  · have last := ordered.last_of_open here terminated
    have beyond := stands.beyond last ⟨line, List.mem_of_getElem? here, terminated⟩
    have rest : list.drop (k + 1) = [] := List.drop_eq_nil_of_le (by omega)
    rw [rest, List.flatten_nil, List.append_nil, fetchBytes_beyond other (by omega)]
    exact ⟨.eof, by simp [Format.lineText, terminated], Or.inr ⟨rfl, by simpa using last⟩⟩

theorem shows_of_exact (other : format ≠ .edit) {list : List (List Byte)} {count : Nat}
    (exact : ∀ k, k ≤ count → ix k = offset list k) :
    Shows format ix list.flatten (list.take count) := by
  intro k text found
  have inside := (List.getElem?_eq_some_iff.mp found).1
  rw [List.length_take] at inside
  rw [List.getElem?_take_of_lt (by omega)] at found
  have next := offset_succ found
  have length : ix (k + 1) - ix k = text.length := by
    rw [exact k (by omega), exact (k + 1) (by omega)]
    omega
  rw [length, exact k (by omega), drop_offset, drop_found found, List.flatten_cons,
    fetchBytes_exact other]
  exact ⟨.done, rfl, Or.inl rfl⟩

theorem fetchLines_shows (front : List (List Byte))
    (shows_ : Shows format ix lb (front ++ middle ++ back)) (a : Nat) (ch : Option Char) :
    fetchLines format ix a lb ch middle.length (front.length + 1) =
      (middle.flatMap (markText format ch ++ ·), 0) := by
  induction middle generalizing front with
  | nil => rfl
  | cons text middle ih =>
      obtain ⟨stop, fetched, reason⟩ := shows_ front.length text (by simp)
      rw [List.length_cons, fetchLines, Nat.add_sub_cancel, fetched]
      rcases reason with rfl | ⟨rfl, last⟩
      · have rest := ih (front ++ [text]) (by simpa using shows_)
        rw [List.length_append, List.length_singleton] at rest
        rw [rest]
        simp
      · have none_ : middle = [] := by
          rw [List.length_append, List.length_append, List.length_cons] at last
          exact List.eq_nil_of_length_eq_zero (by omega)
        subst none_
        simp

theorem fetch_shows (shows_ : Shows format ix lb (front ++ middle ++ back)) (ch : Option Char)
    {a b : Nat} (first : a = front.length + 1) (last : b = front.length + middle.length) :
    fetch format ix a b lb ch = (middle.flatMap (markText format ch ++ ·), 0) := by
  subst first last
  unfold fetch
  split
  · next none_ =>
      have empty : middle = [] := List.eq_nil_of_length_eq_zero (by omega)
      rw [empty]
      rfl
  · have count : front.length + middle.length + 1 - (front.length + 1) = middle.length := by omega
    rw [count]
    exact fetchLines_shows front shows_ _ ch

theorem fetch_between {texts : List (List Byte)} (shows_ : Shows format ix lb texts) {a b : Nat}
    (positive : 0 < a) (inside : a ≤ b + 1) (bound : b ≤ texts.length) (ch : Option Char) :
    (fetch format ix a b lb ch).1 =
      (Spans.between texts a b).flatMap (markText format ch ++ ·) := by
  have split := Spans.between_split texts positive inside
  have length := Spans.length_between texts positive bound
  rw [split] at shows_
  rw [fetch_shows shows_ ch]
  · rw [List.length_take]
    omega
  · rw [List.length_take, length]
    omega

end

end Netbase.Diff.Fetch
