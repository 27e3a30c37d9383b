import Mathlib.Data.List.Count
import Mathlib.Order.Defs.LinearOrder

/-!
# Two sorted lists compared

The merge of two lists that tells of every item whether it comes from one of
them or is met in both.
-/

namespace Netbase.Lib.Merge

/-- Where an item of a merge comes from. -/
inductive Side
  | left
  | right
  | both
  deriving DecidableEq

section

variable {α : Type}

def merge (cmp : α → α → Ordering) : List α → List α → List (Side × α)
  | [], ys => ys.map (Side.right, ·)
  | x :: xs, [] => (x :: xs).map (Side.left, ·)
  | x :: xs, y :: ys =>
      match cmp x y with
      | .eq => (Side.both, x) :: merge cmp xs ys
      | .lt => (Side.left, x) :: merge cmp xs (y :: ys)
      | .gt => (Side.right, y) :: merge cmp (x :: xs) ys
termination_by xs ys => xs.length + ys.length

/-- Every item is no greater than the later ones. -/
def Sorted (cmp : α → α → Ordering) (xs : List α) : Prop := xs.Pairwise (cmp · · ≠ .gt)

theorem mem_merge {cmp : α → α → Ordering} {xs ys : List α} {side : Side} {z : α}
    (mem : (side, z) ∈ merge cmp xs ys) : z ∈ xs ∨ z ∈ ys := by
  fun_induction merge cmp xs ys with
  | case1 ys =>
      obtain ⟨y, inside, same⟩ := List.mem_map.mp mem
      cases same
      exact .inr inside
  | case2 x xs =>
      obtain ⟨y, inside, same⟩ := List.mem_map.mp mem
      cases same
      exact .inl inside
  | case3 x xs y ys order ih =>
      rcases List.mem_cons.mp mem with same | later
      · cases same
        exact .inl List.mem_cons_self
      · exact (ih later).imp (List.mem_cons_of_mem _) (List.mem_cons_of_mem _)
  | case4 x xs y ys order ih =>
      rcases List.mem_cons.mp mem with same | later
      · cases same
        exact .inl List.mem_cons_self
      · exact (ih later).imp_left (List.mem_cons_of_mem _)
  | case5 x xs y ys order ih =>
      rcases List.mem_cons.mp mem with same | later
      · cases same
        exact .inr List.mem_cons_self
      · exact (ih later).imp_right (List.mem_cons_of_mem _)

variable {cmp : α → α → Ordering} [Std.TransCmp cmp] {x y : α} {xs ys : List α}

theorem Sorted.above (sorted : Sorted cmp (y :: ys)) (less : cmp x y = .lt) :
    ∀ z ∈ y :: ys, cmp x z = .lt := by
  intro z mem
  rcases List.mem_cons.mp mem with rfl | later
  · exact less
  · exact Std.TransCmp.lt_of_lt_of_isLE less
      (Ordering.isLE_iff_ne_gt.mpr ((List.pairwise_cons.mp sorted).1 z later))

theorem Sorted.absent [BEq α] [LawfulBEq α] (sorted : Sorted cmp (y :: ys)) (less : cmp x y = .lt) :
    (y :: ys).count x = 0 := by
  refine List.count_eq_zero.mpr fun mem => ?_
  have loop := sorted.above less x mem
  cases loop.symm.trans (@Std.ReflCmp.compare_self α cmp _ x)

theorem merge_sorted [Std.LawfulEqCmp cmp] (left : Sorted cmp xs) (right : Sorted cmp ys) :
    Sorted cmp ((merge cmp xs ys).map Prod.snd) := by
  fun_induction merge cmp xs ys with
  | case1 ys =>
      rw [List.map_map]
      simpa [Function.comp_def] using right
  | case2 x xs =>
      rw [List.map_map]
      simpa [Function.comp_def] using left
  | case3 x xs y ys order ih =>
      cases Std.LawfulEqCmp.eq_of_compare order
      obtain ⟨leftHead, leftTail⟩ := List.pairwise_cons.mp left
      obtain ⟨rightHead, rightTail⟩ := List.pairwise_cons.mp right
      refine List.pairwise_cons.mpr ⟨fun _ mem => ?_, ih leftTail rightTail⟩
      obtain ⟨⟨side, z⟩, inside, rfl⟩ := List.mem_map.mp mem
      exact (mem_merge inside).elim (leftHead z) (rightHead z)
  | case4 x xs y ys order ih =>
      obtain ⟨head, tail⟩ := List.pairwise_cons.mp left
      refine List.pairwise_cons.mpr ⟨fun _ mem => ?_, ih tail right⟩
      obtain ⟨⟨side, z⟩, inside, rfl⟩ := List.mem_map.mp mem
      refine (mem_merge inside).elim (head z) fun later => ?_
      simp [right.above order z later]
  | case5 x xs y ys order ih =>
      obtain ⟨head, tail⟩ := List.pairwise_cons.mp right
      refine List.pairwise_cons.mpr ⟨fun _ mem => ?_, ih left tail⟩
      obtain ⟨⟨side, z⟩, inside, rfl⟩ := List.mem_map.mp mem
      refine (mem_merge inside).elim (fun later => ?_) (head z)
      simp [left.above (Std.OrientedCmp.lt_of_gt order) z later]

section Counts

variable [BEq α]

theorem count_head (x : α) (xs : List α) (z : α) :
    (x :: xs).count z = [x].count z + xs.count z := by
  rw [← List.count_append]
  rfl

theorem count_tagged (from_ side : Side) (x : α) (merged : List (Side × α)) (z : α) :
    ((from_, x) :: merged).count (side, z) =
      (if from_ = side then [x].count z else 0) + merged.count (side, z) := by
  have pair : ((from_, x) == (side, z)) = (decide (from_ = side) && x == z) := rfl
  rw [List.count_cons, Nat.add_comm, pair, List.count_singleton]
  by_cases same : from_ = side <;> simp [same]

theorem count_map (from_ side : Side) (xs : List α) (z : α) :
    (xs.map (from_, ·)).count (side, z) = if from_ = side then xs.count z else 0 := by
  induction xs with
  | nil => simp
  | cons x xs ih =>
      rw [List.map_cons, count_tagged, count_head x xs, ih]
      split <;> rfl

/-- Every item is met in both lists as often as in the one that has fewer, and the surplus comes
from the other. -/
theorem merge_counts [LawfulBEq α] [Std.LawfulEqCmp cmp] (left : Sorted cmp xs)
    (right : Sorted cmp ys) (z : α) :
    (merge cmp xs ys).count (Side.both, z) = min (xs.count z) (ys.count z) ∧
      (merge cmp xs ys).count (Side.left, z) = xs.count z - ys.count z ∧
      (merge cmp xs ys).count (Side.right, z) = ys.count z - xs.count z := by
  fun_induction merge cmp xs ys with
  | case1 ys => simp [count_map]
  | case2 x xs => simpa only [count_map] using ⟨by simp, by simp, by simp⟩
  | case3 x xs y ys order ih =>
      cases Std.LawfulEqCmp.eq_of_compare order
      have rest := ih left.tail right.tail
      rw [count_tagged, count_tagged, count_tagged, count_head x xs, count_head x ys]
      simp only [reduceCtorEq, if_true, if_false]
      omega
  | case4 x xs y ys order ih =>
      have rest := ih left.tail right
      have absent : 0 < [x].count z → (y :: ys).count z = 0 := fun here => by
        rw [List.mem_singleton.mp (List.count_pos_iff.mp here)]
        exact right.absent order
      rw [count_tagged, count_tagged, count_tagged, count_head x xs]
      simp only [reduceCtorEq, if_true, if_false]
      omega
  | case5 x xs y ys order ih =>
      have rest := ih left right.tail
      have absent : 0 < [y].count z → (x :: xs).count z = 0 := fun here => by
        rw [List.mem_singleton.mp (List.count_pos_iff.mp here)]
        exact left.absent (Std.OrientedCmp.lt_of_gt order)
      rw [count_tagged, count_tagged, count_tagged, count_head y ys]
      simp only [reduceCtorEq, if_true, if_false]
      omega

end Counts

end

end Netbase.Lib.Merge
