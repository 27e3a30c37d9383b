import Mathlib.Data.List.Basic

/-!
# Writing into a buffer that may be too short

Entries are written one after another; those that find no room are dropped.  In the end a mark is
stored behind what has been written, or over the last entry if the buffer is full.
-/

namespace Netbase.Lib

variable {α : Type}

/-- Store an entry at a place; none where that is outside of the buffer. -/
def storeAt (buf : List α) (place : Int) (x : α) : Option (List α) :=
  if 0 ≤ place ∧ place < buf.length then some (buf.set place.toNat x) else none

theorem storeAt_inside {buf : List α} {place : Nat} (inside : place < buf.length) (x : α) :
    storeAt buf place x = some (buf.set place x) :=
  if_pos ⟨Int.natCast_nonneg _, Int.ofNat_lt.mpr inside⟩

/-- A buffer and the place behind what has been written. -/
structure Sink (α : Type) where
  buf : List α
  next : Nat
  deriving Repr, DecidableEq

def Sink.put (s : Sink α) (x : α) : Sink α :=
  if s.next < s.buf.length then ⟨s.buf.set s.next x, s.next + 1⟩ else s

def Sink.puts (s : Sink α) (xs : List α) : Sink α := xs.foldl Sink.put s

/-- The end mark. -/
def Sink.close (s : Sink α) (mark : α) : Option (List α) :=
  if s.next = s.buf.length then storeAt s.buf ((s.next : Int) - 1) mark
  else storeAt s.buf s.next mark

/-- What a buffer becomes that a text has been written into. -/
structure Sink.Holds (orig written : List α) (s : Sink α) : Prop where
  next : s.next = min written.length orig.length
  buf : s.buf = written.take orig.length ++ orig.drop written.length

/-- The text as far as there is room for it in front of the mark, and the rest of the buffer. -/
def truncated (orig written : List α) (mark : α) : List α :=
  written.take (orig.length - 1) ++ mark :: orig.drop (min written.length (orig.length - 1) + 1)

namespace Sink

theorem holds_start (orig : List α) : Holds orig [] ⟨orig, 0⟩ where
  next := (Nat.zero_min _).symm
  buf := by simp

variable {orig written : List α} {s : Sink α}

theorem Holds.length (holds : Holds orig written s) : s.buf.length = orig.length := by
  rw [holds.buf, List.length_append, List.length_take, List.length_drop]
  omega

/-- Behind a text that fits the buffer is still as it was. -/
theorem Holds.split (holds : Holds orig written s) (room : written.length < orig.length) :
    s.next = written.length ∧ ∃ old, s.buf = written ++ old :: orig.drop (written.length + 1) := by
  refine ⟨by rw [holds.next, Nat.min_eq_left (Nat.le_of_lt room)], orig[written.length], ?_⟩
  rw [holds.buf, List.take_of_length_le (Nat.le_of_lt room),
    ← List.drop_eq_getElem_cons room]

theorem Holds.put (holds : Holds orig written s) (x : α) :
    Holds orig (written ++ [x]) (s.put x) := by
  unfold Sink.put
  by_cases room : written.length < orig.length
  · obtain ⟨place, old, split⟩ := holds.split room
    rw [if_pos (by rw [holds.length, place]; exact room), place, split]
    constructor
    · simp only [List.length_append, List.length_singleton]
      omega
    · rw [List.set_append_right _ _ (Nat.le_refl _), Nat.sub_self, List.set_cons_zero,
        List.take_of_length_le (by rw [List.length_append]; exact room)]
      simp
  · rw [if_neg (by rw [holds.length, holds.next]; omega)]
    have full : orig.length ≤ written.length := Nat.le_of_not_lt room
    constructor
    · rw [holds.next, List.length_append]
      omega
    · rw [holds.buf, List.take_append_of_le_length full, List.length_append,
        List.drop_eq_nil_of_le full, List.drop_eq_nil_of_le (Nat.le_add_right_of_le full)]

theorem puts_append (s : Sink α) (xs ys : List α) : s.puts (xs ++ ys) = (s.puts xs).puts ys :=
  List.foldl_append

theorem Holds.puts (xs : List α) :
    ∀ {written : List α} {s : Sink α}, Holds orig written s →
      Holds orig (written ++ xs) (s.puts xs) := by
  induction xs with
  | nil => exact fun {written} _ holds => (List.append_nil written).symm ▸ holds
  | cons x xs ih =>
      intro written s holds
      rw [List.append_cons]
      exact ih (holds.put x)

theorem Holds.close (holds : Holds orig written s) (some_ : orig ≠ []) (mark : α) :
    s.close mark = some (truncated orig written mark) := by
  have positive := List.length_pos_iff.mpr some_
  unfold Sink.close truncated
  by_cases room : written.length < orig.length
  · obtain ⟨place, old, split⟩ := holds.split room
    have inside : written.length < s.buf.length := by rwa [holds.length]
    rw [if_neg (by rw [holds.length, place]; omega), place, storeAt_inside inside, split,
      List.set_append_right _ _ (Nat.le_refl _), Nat.sub_self, List.set_cons_zero,
      Nat.min_eq_left (by omega), List.take_of_length_le (by omega)]
  · have full : orig.length ≤ written.length := Nat.le_of_not_lt room
    obtain ⟨last, length⟩ : ∃ last, orig.length = last + 1 :=
      ⟨orig.length - 1, (Nat.succ_pred_eq_of_pos positive).symm⟩
    have place : s.next = last + 1 := by rw [holds.next, Nat.min_eq_right full, length]
    have inside : last < s.buf.length := by rw [holds.length, length]; exact Nat.lt_succ_self _
    have before : ((last + 1 : Nat) : Int) - 1 = last := by omega
    have shorter : last < written.length := by omega
    rw [if_pos (by rw [holds.length, place, length]), place, before, storeAt_inside inside,
      holds.buf, length, Nat.add_sub_cancel, Nat.min_eq_right (Nat.le_of_lt shorter),
      List.take_succ_eq_append_getElem shorter, List.append_assoc,
      List.set_append_right _ _ (by rw [List.length_take]; omega), List.length_take,
      Nat.min_eq_left (Nat.le_of_lt shorter), Nat.sub_self, List.singleton_append, List.set_cons_zero,
      List.drop_eq_nil_of_le full, List.drop_eq_nil_of_le (Nat.le_of_eq length)]

end Sink

end Netbase.Lib
