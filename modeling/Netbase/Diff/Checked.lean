import Netbase.Diff.Collision
import Netbase.Diff.Fetch
import Netbase.Diff.Output

/-!
# What `output` is given

The pairs that `check` leaves rise and join equal lines, so the changes of
`output` partition both files.  The tables index the lines of both files, unless
`check` stopped in the middle of a line.
-/

namespace Netbase.Diff.Checked

open Netbase.Lib
open Netbase.Text
open Netbase.Diff.Check
open Netbase.Diff.Collision
open Netbase.Diff.Output

section

variable {olds news : List (List Byte)} {J entries : Table Nat}

theorem agreed_cases (olds news : List (List Byte)) (J : Table Nat) (i : Nat) :
    agreed olds news J i = 0 ∨ agreed olds news J i = J i ∧ olds[i - 1]? = news[J i - 1]? := by
  unfold agreed
  split
  · next both => exact Or.inr ⟨rfl, both.2⟩
  · exact Or.inl rfl

theorem pairs_of_entries (rises : Rises olds.length news.length J)
    (entries_ : Entries olds news J olds.length entries) : Pairs olds news entries := by
  have entry (i : Nat) (positive : 0 < i) (inside : i ≤ olds.length) :
      entries i = 0 ∨ entries i = J i ∧ olds[i - 1]? = news[J i - 1]? := by
    rw [entries_ i positive, if_pos inside]
    exact agreed_cases olds news J i
  refine ⟨⟨fun i k positive less inside one other => ?_, fun i positive inside => ?_⟩,
    fun i positive inside nonzero => ?_⟩
  · have first := (entry i positive (by omega)).resolve_left one
    have second := (entry k (by omega) inside).resolve_left other
    rw [first.1] at one ⊢
    rw [second.1] at other ⊢
    exact rises.rising i k positive less inside one other
  · rcases entry i positive inside with zero | same
    · omega
    · rw [same.1]
      exact rises.inside i positive inside
  · have same := (entry i positive inside).resolve_left nonzero
    rw [same.1]
    exact same.2

end

/-- Does `check` stop in the middle of a line? -/
def Stops (bound : Nat) (file0 file1 : List Byte) : Prop :=
  ∃ line next more,
    Cut (lines file0) (lines file1) (unravelled bound file0 file1) line next more

variable (bound : Nat) (file0 file1 : List Byte)

theorem checked_pairs : Pairs (lines file0) (lines file1) (checked bound file0 file1).J := by
  have rises := unravelled_rises bound file0 file1
  rw [checked_eq]
  refine pairs_of_entries rises ?_
  by_cases stops : Stops bound file0 file1
  · obtain ⟨line, next, more, cut⟩ := stops
    exact (check_cut (lines_lineList file0) (lines_lineList file1) rises cut).2.2
  · exact (check_spec (lines_lineList file0) (lines_lineList file1) rises
      fun line next more cut => stops ⟨line, next, more, cut⟩).2.2

variable {bound file0 file1}

theorem checked_indexed (whole : ¬ Stops bound file0 file1) :
    Indexed (lines file0) (checked bound file0 file1).ixold ∧
      Indexed (lines file1) (checked bound file0 file1).ixnew := by
  have tables := check_spec (lines_lineList file0) (lines_lineList file1)
    (unravelled_rises bound file0 file1) fun line next more cut => whole ⟨line, next, more, cut⟩
  rw [checked_eq]
  exact ⟨tables.1, tables.2.1⟩

theorem not_stops (terminated : ¬ Open (lines file0)) : ¬ Stops bound file0 file1 :=
  fun ⟨line, _, _, cut⟩ =>
    terminated ⟨line, List.mem_of_getElem? cut.last, cut.unterminated⟩

theorem Indexed.exact {list : List (List Byte)} {ix : Table Nat} (indexed : Indexed list ix)
    (terminated : ¬ Open list) (k : Nat) (inside : k ≤ list.length) : ix k = offset list k :=
  (indexed k inside).exact fun both => terminated both.2

end Netbase.Diff.Checked
