import Netbase.Diff.Check
import Netbase.Diff.Matching

/-!
# Hash collisions

The match vector pairs lines of equal hash.  `check` tells the pairs of equal
lines from the collisions, and behind a collision it has to find the ends of both
lines again.  It fails to do so in one place: behind the last line of an old file
that has no newline.
-/

namespace Netbase.Diff.Collision

open Netbase.Lib
open Netbase.Text
open Netbase.Diff.Check
open Netbase.Diff.Matching
open Netbase.Diff.Stone (matchVector)

/-- The vector that `unravel` leaves, for two files. -/
def unravelled (bound : Nat) (file0 file1 : List Byte) : Table Nat :=
  matchVector bound (prepare file0) (prepare file1)

/-- The state that `check` leaves, for two files. -/
def checked (bound : Nat) (file0 file1 : List Byte) : State :=
  check (prepare file0).length (prepare file1).length file0 file1 (unravelled bound file0 file1)

theorem unravelled_rises (bound : Nat) (file0 file1 : List Byte) :
    Rises (lines file0).length (lines file1).length (unravelled bound file0 file1) := by
  have nonzero : ∀ value ∈ prepare file1, value ≠ 0 := by
    intro value listed
    rw [prepare_eq, List.mem_map] at listed
    obtain ⟨line, inside, rfl⟩ := listed
    exact lineHash_ne_zero (lines_isLine inside).nonempty
  have matching := matchVector_isMatching bound (prepare file0) nonzero
  rw [prepare_eq, prepare_eq] at matching
  unfold unravelled
  rw [prepare_eq, prepare_eq]
  refine ⟨fun i k low less high => matching.rising i k low less (by simpa using high),
    fun i low high => ?_⟩
  simpa using matching.inside i low (by simpa using high)

theorem checked_eq (bound : Nat) (file0 file1 : List Byte) :
    checked bound file0 file1 =
      check (lines file0).length (lines file1).length (lines file0).flatten (lines file1).flatten
        (unravelled bound file0 file1) := by
  rw [checked, prepare_eq, prepare_eq, List.length_map, List.length_map, flatten_lines,
    flatten_lines]

/-- Exactly the pairs of equal lines stay, and every line is indexed by its end, but for the
last of each file. -/
structure Exact (olds news : List (List Byte)) (J : Table Nat) (state : State) : Prop where
  pairs : ∀ i, 0 < i → i ≤ olds.length → state.J i = agreed olds news J i
  old : ∀ i, i < olds.length → state.ixold i = offset olds i
  new : ∀ j, j < news.length → state.ixnew j = offset news j

section

variable {olds news : List (List Byte)} {J : Table Nat} {state : State} {line : List Byte}
  {next : Byte} {more : List Byte}

/-- The entry of the line that a cut leaves unread is too small. -/
theorem offset_cutLines (cut : Cut olds news J line next more) (ordered : LineList news)
    (inside : J olds.length < news.length) :
    offset (cutLines news (J olds.length) line next more) (J olds.length) <
      offset news (J olds.length) := by
  have paired := cut.paired
  have place : J olds.length - 1 + 1 = J olds.length := by omega
  have front : (news.take (J olds.length - 1)).length = J olds.length - 1 := by
    rw [List.length_take]
    omega
  have rest : more ≠ [] := by
    intro none_
    have longer := cut.longer
    rw [none_] at longer
    have last := ordered.last_of_open longer (by simp [Terminated, cut.inside])
    omega
  have whole := offset_succ cut.longer
  have placed := offset_append_right (news.take (J olds.length - 1)) ((line ++ [next]) ::
    ((if more = [] then [] else [more]) ++ news.drop (J olds.length))) 1
  have positive := List.length_pos_iff.mpr rest
  rw [front, place, ← cutLines, offset_cons] at placed
  rw [place, List.length_append, List.length_cons] at whole
  rw [placed, whole, offset, offset, List.length_append, List.length_singleton, List.take_zero,
    List.flatten_nil, List.length_nil]
  omega

end

/--
`check` leaves exactly the pairs of equal lines and indexes both files, unless the
last line of the old file has no newline and is paired with a line before the last
of the new file that goes on behind it.
-/
theorem check_exact_iff (bound : Nat) (file0 file1 : List Byte) :
    Exact (lines file0) (lines file1) (unravelled bound file0 file1) (checked bound file0 file1) ↔
      ∀ line next more,
        Cut (lines file0) (lines file1) (unravelled bound file0 file1) line next more →
        (lines file1).length ≤ unravelled bound file0 file1 (lines file0).length := by
  have ordered0 := lines_lineList file0
  have ordered1 := lines_lineList file1
  have rises := unravelled_rises bound file0 file1
  rw [checked_eq]
  generalize unravelled bound file0 file1 = J at *
  generalize lines file0 = olds at *
  generalize lines file1 = news at *
  by_cases uncut : ∃ line next more, Cut olds news J line next more
  · obtain ⟨line, next, more, cut⟩ := uncut
    obtain ⟨old, new, entries⟩ := check_cut ordered0 ordered1 rises cut
    constructor
    · intro exact other next' more' cut'
      by_contra inside
      have short := offset_cutLines cut ordered1 (by omega)
      rw [← new _ (by omega), exact.new _ (by omega)] at short
      exact Nat.lt_irrefl _ short
    · intro last
      have inside := last line next more cut
      refine ⟨fun i positive bound => ?_, fun i less => (old i less.le).inside less,
        fun j less => ?_⟩
      · rw [entries i positive, if_pos bound]
      · have front : j ≤ (news.take (J olds.length - 1)).length := by
          rw [List.length_take]
          omega
        rw [new j less.le, cutLines, offset_append_left front, offset_take (by omega)]
  · have none_ : ∀ line next more, ¬ Cut olds news J line next more :=
      fun line next more cut => uncut ⟨line, next, more, cut⟩
    obtain ⟨old, new, entries⟩ := check_spec ordered0 ordered1 rises none_
    refine iff_of_true ⟨fun i positive bound => ?_, fun i less => (old i less.le).inside less,
      fun j less => (new j less.le).inside less⟩
      fun line next more cut => absurd cut (none_ line next more)
    rw [entries i positive, if_pos bound]

/-- The lines `x` and `xR2Jj` have the same hash: a file that is only `x`, without a newline,
leaves `check` inside of the first line of the other file. -/
theorem check_not_exact :
    ¬ Exact (lines (ascii ['x'])) (lines (ascii ['x', 'R', '2', 'J', 'j', '\n', 'y', '\n']))
      (unravelled 256 (ascii ['x']) (ascii ['x', 'R', '2', 'J', 'j', '\n', 'y', '\n']))
      (checked 256 (ascii ['x']) (ascii ['x', 'R', '2', 'J', 'j', '\n', 'y', '\n'])) := by
  intro exact
  have entry := exact.new 1 (by decide +kernel)
  revert entry
  decide +kernel

end Netbase.Diff.Collision
