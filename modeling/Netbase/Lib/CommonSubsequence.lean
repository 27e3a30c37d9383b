import Mathlib.Data.List.Basic
import Mathlib.Order.Bounds.Basic

/-!
# Longest common subsequences

The lengths of the common subsequences of two lists, how they grow when one list
gets one more element, and how a shared front or end can be taken off.
-/

namespace Netbase.Lib.CommonSubsequence

variable {α : Type}

/-- Two lists have a common subsequence of length `n`. -/
def Common (xs ys : List α) (n : Nat) : Prop :=
  ∃ zs : List α, zs.Sublist xs ∧ zs.Sublist ys ∧ zs.length = n

/-- The longest common subsequences have length `n`. -/
def Longest (xs ys : List α) (n : Nat) : Prop := IsGreatest {length | Common xs ys length} n

theorem Common.zero (xs ys : List α) : Common xs ys 0 :=
  ⟨[], List.nil_sublist xs, List.nil_sublist ys, rfl⟩

variable {n : Nat} {xs ys : List α}

theorem Common.mono {xs' ys' : List α} (common : Common xs ys n) (left : xs.Sublist xs')
    (right : ys.Sublist ys') : Common xs' ys' n := by
  obtain ⟨zs, inLeft, inRight, length⟩ := common
  exact ⟨zs, inLeft.trans left, inRight.trans right, length⟩

theorem Common.reverse (common : Common xs ys n) :
    Common xs.reverse ys.reverse n := by
  obtain ⟨zs, inLeft, inRight, length⟩ := common
  exact ⟨zs.reverse, inLeft.reverse, inRight.reverse, by simp [length]⟩

theorem common_snoc_iff {x : α} :
    Common (xs ++ [x]) ys (n + 1) ↔
      Common xs ys (n + 1) ∨ ∃ front back, ys = front ++ x :: back ∧ Common xs front n := by
  constructor
  · rintro ⟨zs, inLeft, inRight, length⟩
    obtain ⟨front, last, rfl, inFront, inLast⟩ := List.sublist_append_iff.mp inLeft
    rcases List.sublist_singleton.mp inLast with rfl | rfl
    · rw [List.append_nil] at inRight length
      exact Or.inl ⟨front, inFront, inRight, length⟩
    · obtain ⟨before, after, rfl, inBefore, inAfter⟩ := List.append_sublist_iff.mp inRight
      obtain ⟨skipped, back, rfl⟩ := List.append_of_mem (List.singleton_sublist.mp inAfter)
      refine Or.inr ⟨before ++ skipped, back, by simp, front, inFront, ?_, by simpa using length⟩
      exact inBefore.trans (List.sublist_append_left before skipped)
  · rintro (common | ⟨front, back, rfl, zs, inLeft, inFront, length⟩)
    · exact common.mono (List.sublist_append_left xs [x]) (List.Sublist.refl ys)
    · refine ⟨zs ++ [x], inLeft.append (List.Sublist.refl [x]), ?_, by simp [length]⟩
      exact inFront.append (List.singleton_sublist.mpr List.mem_cons_self)

/-- The recurrence for prefixes: the last element is matched at some position or not at all. -/
theorem common_take_succ_iff {x : α} {i last : Nat} (here : xs[i]? = some x) :
    Common (xs.take (i + 1)) (ys.take last) (n + 1) ↔
      Common (xs.take i) (ys.take last) (n + 1) ∨
        ∃ y < last, ys[y]? = some x ∧ Common (xs.take i) (ys.take y) n := by
  have grown : xs.take (i + 1) = xs.take i ++ [x] := by
    rw [List.take_add_one, here]
    rfl
  rw [grown, common_snoc_iff]
  refine or_congr Iff.rfl ⟨?_, ?_⟩
  · rintro ⟨front, back, split, common⟩
    have inside : front.length < (ys.take last).length := by simp [split]
    rw [List.length_take] at inside
    have found : (ys.take last)[front.length]? = some x := by simp [split]
    rw [List.getElem?_take_of_lt (by omega)] at found
    have same : ys.take front.length = front := by
      have shorter := congrArg (List.take front.length) split
      rwa [List.take_take, Nat.min_eq_left (by omega), List.take_left] at shorter
    exact ⟨front.length, by omega, found, same.symm ▸ common⟩
  · rintro ⟨y, inside, found, common⟩
    obtain ⟨bound, rfl⟩ := List.getElem?_eq_some_iff.mp found
    refine ⟨ys.take y, (ys.take last).drop (y + 1), ?_, common⟩
    have short : y < (ys.take last).length := by
      rw [List.length_take]
      omega
    have whole := List.take_append_drop y (ys.take last)
    rw [List.take_take, Nat.min_eq_left (by omega), List.drop_eq_getElem_cons short,
      List.getElem_take] at whole
    exact whole.symm

/-- A shared first element belongs to some longest common subsequence. -/
theorem Longest.cons {xs ys : List α} {n : Nat} (x : α) (longest : Longest xs ys n) :
    Longest (x :: xs) (x :: ys) (n + 1) := by
  obtain ⟨⟨zs, inLeft, inRight, length⟩, greatest⟩ := longest
  refine ⟨⟨x :: zs, inLeft.cons_cons x, inRight.cons_cons x, by simp [length]⟩, ?_⟩
  rintro _ ⟨ws, left, right, rfl⟩
  have shorter : ws.tail.length ≤ n := greatest ⟨ws.tail, left.tail, right.tail, rfl⟩
  rw [List.length_tail] at shorter
  omega

theorem Longest.append_left (shared : List α) (longest : Longest xs ys n) :
    Longest (shared ++ xs) (shared ++ ys) (shared.length + n) := by
  induction shared with
  | nil => simpa using longest
  | cons x shared ih =>
      rw [List.length_cons, Nat.add_right_comm]
      exact ih.cons x

theorem Longest.reverse (longest : Longest xs ys n) :
    Longest xs.reverse ys.reverse n := by
  refine ⟨longest.1.reverse, fun length common => longest.2 ?_⟩
  simpa using Common.reverse common

theorem Longest.append_right (shared : List α) (longest : Longest xs ys n) :
    Longest (xs ++ shared) (ys ++ shared) (n + shared.length) := by
  have turned := (longest.reverse.append_left shared.reverse).reverse
  simpa [Nat.add_comm] using turned

end Netbase.Lib.CommonSubsequence
