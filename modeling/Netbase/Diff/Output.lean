import Netbase.Diff.Check
import Netbase.Unified.Format

/-!
# Output

`output` walks the match vector and passes every change to `change`: the lines
`a..b` of the old file give way to the lines `c..d` of the new one, and an empty
range is written with its end before its start.  The forward loop serves all
formats but the editor script, which the backward loop writes from the end of the
file to its front.  Both loops overwrite entries of `J` that they have passed.

Line numbers are C `int`s; they are counted in `Nat` here, with the subtractions
of the source kept where they stand.
-/

namespace Netbase.Diff.Output

open Netbase.Lib
open Netbase.Lib.EditScript
open Netbase.Text
open Netbase.Unified

/-! ## The loops -/

/-- The arguments of one call of `change`. -/
@[ext]
structure Change where
  a : Nat
  b : Nat
  c : Nat
  d : Nat
  deriving DecidableEq, Repr

/-- `while (i0 <= m && J[i0] == J[i0 - 1] + 1) i0++` -/
def passMatches (m : Nat) (J : Table Nat) : Nat → Nat → Nat
  | 0, i0 => i0
  | fuel + 1, i0 =>
      if i0 ≤ m ∧ J i0 = J (i0 - 1) + 1 then passMatches m J fuel (i0 + 1) else i0

/-- `while (i1 < m && J[i1 + 1] == 0) i1++` -/
def passDeleted (m : Nat) (J : Table Nat) : Nat → Nat → Nat
  | 0, i1 => i1
  | fuel + 1, i1 => if i1 < m ∧ J (i1 + 1) = 0 then passDeleted m J fuel (i1 + 1) else i1

/-- The forward loop from line `i0` on. -/
def forwardFrom (m : Nat) : Nat → Nat → Table Nat → List Change
  | 0, _, _ => []
  | fuel + 1, i0, J =>
      if i0 ≤ m then
        let i0 := passMatches m J (m + 1 - i0) i0
        let j0 := J (i0 - 1) + 1
        let i1 := passDeleted m J (m + 1 - i0) (i0 - 1)
        let j1 := J (i1 + 1) - 1
        { a := i0, b := i1, c := j0, d := j1 } :: forwardFrom m fuel (i1 + 1) (J.set i1 j1)
      else []

/-- `while (i0 >= 1 && J[i0] == J[i0 + 1] - 1 && J[i0] != 0) i0--` -/
def passMatchesBack (J : Table Nat) : Nat → Nat
  | 0 => 0
  | i0 + 1 =>
      if J (i0 + 1) = J (i0 + 2) - 1 ∧ J (i0 + 1) ≠ 0 then passMatchesBack J i0 else i0 + 1

/-- `while (i1 > 1 && J[i1 - 1] == 0) i1--` -/
def passDeletedBack (J : Table Nat) : Nat → Nat
  | 0 => 0
  | i1 + 1 => if 1 < i1 + 1 ∧ J i1 = 0 then passDeletedBack J i1 else i1 + 1

/-- The backward loop from line `i0` to the front. -/
def backwardFrom : Nat → Nat → Table Nat → List Change
  | 0, _, _ => []
  | fuel + 1, i0, J =>
      if 1 ≤ i0 then
        let i0 := passMatchesBack J i0
        let j0 := J (i0 + 1) - 1
        let i1 := passDeletedBack J (i0 + 1)
        let j1 := J (i1 - 1) + 1
        { a := i1, b := i0, c := j1, d := j0 } :: backwardFrom fuel (i1 - 1) (J.set i1 j1)
      else []

/-- The vector with an entry before the first line and one behind the last. -/
def guarded (len0 len1 : Nat) (J : Table Nat) : Table Nat := (J.set 0 0).set (len0 + 1) (len1 + 1)

/-- The change that is passed when the old file has no lines. -/
def wholeFile (len0 len1 : Nat) : List Change :=
  if len0 = 0 then [{ a := 1, b := 0, c := 1, d := len1 }] else []

def forwardChanges (len0 len1 : Nat) (J : Table Nat) : List Change :=
  forwardFrom len0 (2 * len0 + 1) 1 (guarded len0 len1 J) ++ wholeFile len0 len1

def backwardChanges (len0 len1 : Nat) (J : Table Nat) : List Change :=
  backwardFrom (2 * len0 + 1) len0 (guarded len0 len1 J) ++ wholeFile len0 len1

/-! ## The changes partition both files -/

section

variable {α : Type}

/-- The change of a block that follows the given numbers of old and new lines. -/
def changeOf (before beforeNew : Nat) (block : Block α) : Change :=
  { a := before + block.kept.length + 1
    b := before + block.old.length
    c := beforeNew + block.kept.length + 1
    d := beforeNew + block.new.length }

section

variable (before beforeNew : Nat) (block : Block α)

@[simp]
theorem changeOf_a : (changeOf before beforeNew block).a = before + block.kept.length + 1 := rfl

@[simp]
theorem changeOf_b : (changeOf before beforeNew block).b = before + block.old.length := rfl

@[simp]
theorem changeOf_c : (changeOf before beforeNew block).c = beforeNew + block.kept.length + 1 := rfl

@[simp]
theorem changeOf_d : (changeOf before beforeNew block).d = beforeNew + block.new.length := rfl

end

def changesOf : Nat → Nat → List (Block α) → List Change
  | _, _, [] => []
  | before, beforeNew, block :: blocks =>
      changeOf before beforeNew block ::
        changesOf (before + block.old.length) (beforeNew + block.new.length) blocks

/-- A match vector that rises and pairs equal lines. -/
structure Pairs (olds news : List α) (J : Table Nat) : Prop where
  rises : Check.Rises olds.length news.length J
  equal : ∀ i, 0 < i → i ≤ olds.length → J i ≠ 0 → olds[i - 1]? = news[J i - 1]?

structure Tiles (olds news : List α) (blocks : List (Block α)) : Prop where
  old : olds = blocks.flatMap Block.old
  new : news = blocks.flatMap Block.new
  changed : ∀ block ∈ blocks.dropLast, ¬ block.Idle
  apart : ∀ block ∈ blocks.tail, block.kept ≠ []

variable {J : Table Nat} {news olds : List α}

theorem guarded_inside {len0 len1 : Nat} {k : Nat} (positive : 0 < k) (inside : k ≤ len0) :
    guarded len0 len1 J k = J k := by
  rw [guarded, Table.set_other _ _ (by omega), Table.set_other _ _ (by omega)]

theorem guarded_last (len0 len1 : Nat) (J : Table Nat) :
    guarded len0 len1 J (len0 + 1) = len1 + 1 := Table.set_same _ _ _

theorem passMatches_spec {m : Nat} (J : Table Nat) (fuel : Nat) {i : Nat} (inside : i ≤ m)
    (enough : m - i ≤ fuel) :
    ∃ t, passMatches m J fuel (i + 1) = i + 1 + t ∧ i + t ≤ m ∧
      (∀ s, s < t → J (i + 1 + s) = J i + s + 1) ∧
      (i + t < m → J (i + t + 1) ≠ J i + t + 1) := by
  induction fuel generalizing i with
  | zero => exact ⟨0, rfl, inside, fun s none_ => absurd none_ (Nat.not_lt_zero s), by omega⟩
  | succ fuel ih =>
      rw [passMatches, Nat.add_sub_cancel]
      split
      · next next =>
          obtain ⟨t, result, bound, run, stop⟩ := ih (i := i + 1) next.1 (by omega)
          refine ⟨t + 1, by rw [result]; omega, by omega, fun s less => ?_, fun less => ?_⟩
          · cases s with
            | zero => exact next.2
            | succ s =>
                have := run s (by omega)
                have index : i + 1 + (s + 1) = i + 1 + 1 + s := by omega
                rw [index, this, next.2]
                omega
          · have := stop (by omega)
            have index : i + (t + 1) + 1 = i + 1 + t + 1 := by omega
            rw [index]
            rw [next.2] at this
            omega
      · next other =>
          refine ⟨0, rfl, inside, fun s none_ => absurd none_ (Nat.not_lt_zero s), fun less same => ?_⟩
          exact other ⟨less, same⟩

theorem passDeleted_spec {m : Nat} (J : Table Nat) (fuel : Nat) {i : Nat} (inside : i ≤ m)
    (enough : m - i ≤ fuel) :
    ∃ u, passDeleted m J fuel i = i + u ∧ i + u ≤ m ∧
      (∀ s, s < u → J (i + 1 + s) = 0) ∧ (i + u < m → J (i + u + 1) ≠ 0) := by
  induction fuel generalizing i with
  | zero => exact ⟨0, rfl, inside, fun s none_ => absurd none_ (Nat.not_lt_zero s), by omega⟩
  | succ fuel ih =>
      rw [passDeleted]
      split
      · next next =>
          obtain ⟨u, result, bound, run, stop⟩ := ih (i := i + 1) next.1 (by omega)
          refine ⟨u + 1, by rw [result]; omega, by omega, fun s less => ?_, fun less => ?_⟩
          · cases s with
            | zero => exact next.2
            | succ s =>
                have index : i + 1 + (s + 1) = i + 1 + 1 + s := by omega
                rw [index]
                exact run s (by omega)
          · have index : i + (u + 1) + 1 = i + 1 + u + 1 := by omega
            rw [index]
            exact stop (by omega)
      · next other =>
          exact ⟨0, rfl, inside, fun s none_ => absurd none_ (Nat.not_lt_zero s),
            fun less same => other ⟨less, same⟩⟩

/-- The forward loop has passed `i` old and `j` new lines. -/
structure Passed (olds news : List α) (J : Table Nat) (i j : Nat) (table : Table Nat) : Prop where
  inside : i ≤ olds.length
  insideNew : j ≤ news.length
  here : table i = j
  coming : ∀ k, i < k → table k = guarded olds.length news.length J k
  ahead : ∀ k, i < k → k ≤ olds.length → J k ≠ 0 → j < J k

theorem Pairs.run (pairs : Pairs olds news J) {i j t : Nat} (inside : i + t ≤ olds.length)
    (run : ∀ s, s < t → J (i + 1 + s) = j + s + 1) :
    (olds.drop i).take t = (news.drop j).take t := by
  refine List.ext_getElem? fun s => ?_
  rw [List.getElem?_take, List.getElem?_take]
  split
  · next less =>
      have entry := run s less
      have same := pairs.equal (i + 1 + s) (by omega) (by omega) (by omega)
      rw [entry] at same
      have left : i + 1 + s - 1 = i + s := by omega
      have right : j + s + 1 - 1 = j + s := by omega
      rw [List.getElem?_drop, List.getElem?_drop, ← left, same, right]
  · rfl

structure Turn (olds news : List α) (J : Table Nat) (i j : Nat) (table : Table Nat)
    (block : Block α) : Prop where
  old : olds.drop i = block.old ++ olds.drop (i + block.old.length)
  new : news.drop j = block.new ++ news.drop (j + block.new.length)
  passed : Passed olds news J (i + block.old.length) (j + block.new.length)
    (table.set (i + block.old.length) (j + block.new.length))
  loop : ∀ fuel, forwardFrom olds.length (fuel + 1) (i + 1) table =
    changeOf i j block :: forwardFrom olds.length fuel (i + block.old.length + 1)
      (table.set (i + block.old.length) (j + block.new.length))
  last : i + block.old.length = olds.length → j + block.new.length = news.length
  more : i + block.old.length < olds.length →
    J (i + block.old.length + 1) = j + block.new.length + 1 ∧ ¬ block.Idle
  matched : J (i + 1) = j + 1 → block.kept ≠ []

theorem drop_split (list : List α) (i k : Nat) :
    list.drop i = (list.drop i).take k ++ list.drop (i + k) := by
  rw [← List.drop_drop, List.take_append_drop]

theorem Passed.turn {J table : Table Nat} {i j : Nat} (pairs : Pairs olds news J)
    (passed : Passed olds news J i j table) (less : i < olds.length) :
    ∃ block, Turn olds news J i j table block := by
  obtain ⟨t, passes, insideT, run, stop⟩ :=
    passMatches_spec table (olds.length + 1 - (i + 1)) less.le (by omega)
  have place : i + 1 + t - 1 = i + t := by omega
  obtain ⟨u, deletes, insideU, gone, halt⟩ :=
    passDeleted_spec table (olds.length + 1 - (i + 1 + t)) insideT (by omega)
  rw [passed.here] at run stop
  have entry (k : Nat) (low : i < k) (high : k ≤ olds.length) : table k = J k := by
    rw [passed.coming k low, guarded_inside (by omega) high]
  have end_ : table (olds.length + 1) = news.length + 1 := by
    rw [passed.coming _ (by omega), guarded_last]
  have runJ : ∀ s, s < t → J (i + 1 + s) = j + s + 1 := fun s small => by
    rw [← entry _ (by omega) (by omega)]
    exact run s small
  have tableHere : table (i + t) = j + t := by
    cases t with
    | zero => exact passed.here
    | succ t =>
        have := run t (Nat.lt_succ_self t)
        rw [← Nat.add_assoc, Nat.add_right_comm, this]
        omega
  have insideJ : j + t ≤ news.length ∧ ∀ k, i + t < k → k ≤ olds.length → J k ≠ 0 → j + t < J k := by
    cases t with
    | zero => exact ⟨passed.insideNew, passed.ahead⟩
    | succ t =>
        have last := runJ t (Nat.lt_succ_self t)
        have bound := pairs.rises.inside (i + 1 + t) (by omega) (by omega)
        refine ⟨by omega, fun k above high nonzero => ?_⟩
        have rising := pairs.rises.rising (i + 1 + t) k (by omega) (by omega) high (by omega) nonzero
        omega
  -- the entry behind the deleted lines: a matched line or the guard
  have jump : j + t < table (i + t + u + 1) ∧ table (i + t + u + 1) ≤ news.length + 1 := by
    by_cases final : i + t + u = olds.length
    · rw [final, end_]
      omega
    · have matched := halt (by omega)
      rw [entry _ (by omega) (by omega)] at matched ⊢
      have bound := pairs.rises.inside (i + t + u + 1) (by omega) (by omega)
      have above := insideJ.2 (i + t + u + 1) (by omega) (by omega) matched
      omega
  let block : Block α :=
    { kept := (olds.drop i).take t
      deleted := (olds.drop (i + t)).take u
      inserted := (news.drop (j + t)).take (table (i + t + u + 1) - 1 - (j + t)) }
  have keptLength : block.kept.length = t := by simp [block]; omega
  have deletedLength : block.deleted.length = u := by simp [block]; omega
  have insertedLength : block.inserted.length = table (i + t + u + 1) - 1 - (j + t) := by
    simp [block]
    omega
  have oldLength : block.old.length = t + u := by
    rw [Block.old, List.length_append, keptLength, deletedLength]
  have newLength : j + block.new.length = table (i + t + u + 1) - 1 := by
    rw [Block.new, List.length_append, keptLength, insertedLength]
    omega
  have index : i + block.old.length = i + t + u := by rw [oldLength, Nat.add_assoc]
  refine ⟨block, ?_, ?_, ?_, fun fuel => ?_, fun final => ?_, fun short => ?_, fun matched => ?_⟩
  · have split := drop_split olds i t
    rw [drop_split olds (i + t) u] at split
    rw [index, split, ← List.append_assoc]
    rfl
  · have split := drop_split news j t
    rw [drop_split news (j + t) (table (i + t + u + 1) - 1 - (j + t)),
      ← pairs.run insideT runJ] at split
    have sum : j + t + (table (i + t + u + 1) - 1 - (j + t)) = table (i + t + u + 1) - 1 := by omega
    rw [sum] at split
    rw [newLength, split, ← List.append_assoc]
    rfl
  · rw [index, newLength]
    refine ⟨insideU, by omega, Table.set_same _ _ _, fun k above => ?_, fun k above high nonzero => ?_⟩
    · rw [Table.set_other _ _ (by omega)]
      exact passed.coming k (by omega)
    · by_cases first : k = i + t + u + 1
      · subst first
        rw [entry _ (by omega) high]
        omega
      · have matched := halt (by omega)
        rw [entry _ (by omega) (by omega)] at matched ⊢
        have rising := pairs.rises.rising (i + t + u + 1) k (by omega) (by omega) high matched nonzero
        omega
  · rw [changeOf, index, newLength, keptLength, forwardFrom, if_pos (Nat.succ_le_of_lt less)]
    dsimp only
    rw [passes, place, deletes, tableHere]
    have first : i + 1 + t = i + t + 1 := by omega
    rw [first]
  · rw [newLength]
    rw [index] at final
    rw [final, end_]
    rfl
  · rw [index] at short ⊢
    rw [newLength]
    have matched := entry (i + t + u + 1) (by omega) (by omega)
    refine ⟨by omega, fun idle => ?_⟩
    have noneDeleted : u = 0 := by rw [← deletedLength, idle.1, List.length_nil]
    have noneInserted := insertedLength
    rw [idle.2, List.length_nil] at noneInserted
    subst noneDeleted
    rw [Nat.add_zero] at *
    omega
  · have positive : 0 < t := by
      by_contra none_
      have zero : t = 0 := by omega
      subst zero
      have wrong := stop (by omega)
      rw [entry _ (by omega) (by omega)] at wrong
      exact wrong matched
    exact List.ne_nil_of_length_pos (by rw [keptLength]; exact positive)

theorem Passed.forward {J table : Table Nat} {i j : Nat} (pairs : Pairs olds news J)
    (passed : Passed olds news J i j table) (less : i < olds.length) (fuel : Nat)
    (enough : 2 * (olds.length - i) + (if J (i + 1) = j + 1 then 0 else 1) ≤ fuel) :
    ∃ block blocks, forwardFrom olds.length fuel (i + 1) table = changesOf i j (block :: blocks) ∧
      Tiles (olds.drop i) (news.drop j) (block :: blocks) ∧
      (J (i + 1) = j + 1 → block.kept ≠ []) := by
  induction fuel generalizing i j table with
  | zero => omega
  | succ fuel ih =>
      obtain ⟨block, turn⟩ := passed.turn pairs less
      rw [turn.loop fuel]
      by_cases final : i + block.old.length = olds.length
      · have finalNew := turn.last final
        have old := turn.old
        have new := turn.new
        rw [final, List.drop_length, List.append_nil] at old
        rw [finalNew, List.drop_length, List.append_nil] at new
        have final' : forwardFrom olds.length fuel (olds.length + 1)
            (table.set (i + block.old.length) (j + block.new.length)) = [] := by
          cases fuel with
          | zero => rfl
          | succ fuel => exact if_neg (by omega)
        refine ⟨block, [], ?_, ⟨by simpa using old, by simpa using new, by simp, by simp⟩,
          turn.matched⟩
        rw [final] at final' ⊢
        rw [final', changesOf, changesOf]
      · have inside := turn.passed.inside
        obtain ⟨matched, busy⟩ := turn.more (by omega)
        have spent : 2 * (olds.length - (i + block.old.length)) +
            (if J (i + block.old.length + 1) = j + block.new.length + 1 then 0 else 1) ≤ fuel := by
          rw [if_pos matched]
          by_cases moved : block.old = []
          · have unmatched : ¬ J (i + 1) = j + 1 := fun here =>
              turn.matched here (List.append_eq_nil_iff.mp moved).1
            rw [if_neg unmatched] at enough
            omega
          · have := List.length_pos_iff.mpr moved
            omega
        obtain ⟨first, blocks, loop, tiles, kept⟩ := ih turn.passed (by omega) spent
        refine ⟨block, first :: blocks, by rw [loop]; rfl, ⟨?_, ?_, ?_, ?_⟩, turn.matched⟩
        · rw [turn.old, tiles.old]
          rfl
        · rw [turn.new, tiles.new]
          rfl
        · intro other listed
          rw [List.dropLast_cons_of_ne_nil (by simp)] at listed
          rcases List.mem_cons.mp listed with rfl | later
          · exact busy
          · exact tiles.changed other later
        · intro other listed
          rcases List.mem_cons.mp listed with rfl | later
          · exact kept matched
          · exact tiles.apart other later

theorem forwardChanges_tiles (pairs : Pairs olds news J) :
    ∃ blocks, forwardChanges olds.length news.length J = changesOf 0 0 blocks ∧
      Tiles olds news blocks := by
  unfold forwardChanges wholeFile
  by_cases empty : olds.length = 0
  · have none_ := List.eq_nil_of_length_eq_zero empty
    refine ⟨[{ kept := [], deleted := [], inserted := news }], ?_, ?_⟩
    · rw [empty, if_pos rfl]
      simp [forwardFrom, changesOf, changeOf, Block.old, Block.new]
    · exact ⟨by simp [none_, Block.old], by simp [Block.new], by simp, by simp⟩
  · have start : Passed olds news J 0 0 (guarded olds.length news.length J) := by
      refine ⟨Nat.zero_le _, Nat.zero_le _, ?_, fun k _ => rfl, fun k _ _ => Nat.pos_of_ne_zero⟩
      rw [guarded, Table.set_other _ _ (by omega), Table.set_same]
    obtain ⟨block, blocks, loop, tiles, -⟩ := start.forward pairs (Nat.pos_of_ne_zero empty)
      (2 * olds.length + 1) (by split <;> omega)
    rw [if_neg empty, List.append_nil]
    exact ⟨block :: blocks, loop, tiles⟩

end

end Netbase.Diff.Output
