import Mathlib

/-!
# Lists apart

Two lists are apart when they differ at a first place: then neither is a front
of the other, and their order does not depend on what follows them.  Codes that
are pairwise apart can be put in front of other codes, and a reversal of the
symbols reverses their order.
-/

namespace Netbase.Lib

variable {α β : Type*} [LT α] [LT β]

/-- The left list is smaller at the first place where the lists differ. -/
inductive Apart : List α → List α → Prop where
  | here {a b : α} (less : a < b) (as bs : List α) : Apart (a :: as) (b :: bs)
  | later (a : α) {as bs : List α} (apart : Apart as bs) : Apart (a :: as) (a :: bs)

namespace Apart

theorem append {as bs : List α} (apart : Apart as bs) (xs ys : List α) :
    Apart (as ++ xs) (bs ++ ys) := by
  induction apart with
  | here less as bs => exact .here less (as ++ xs) (bs ++ ys)
  | later a _ ih => exact .later a ih

theorem prepend (front : List α) {as bs : List α} (apart : Apart as bs) :
    Apart (front ++ as) (front ++ bs) := by
  induction front with
  | nil => exact apart
  | cons a front ih => exact .later a ih

theorem map {f : α → β} (grows : ∀ a b, a < b → f a < f b) {as bs : List α}
    (apart : Apart as bs) : Apart (as.map f) (bs.map f) := by
  induction apart with
  | here less as bs => exact .here (grows _ _ less) (as.map f) (bs.map f)
  | later a _ ih => exact .later (f a) ih

theorem reverse_order {f : α → β} (falls : ∀ a b, a < b → f b < f a) {as bs : List α}
    (apart : Apart as bs) : Apart (bs.map f) (as.map f) := by
  induction apart with
  | here less as bs => exact .here (falls _ _ less) (bs.map f) (as.map f)
  | later a _ ih => exact .later (f a) ih

theorem not_prefix {α : Type*} [Preorder α] {as bs : List α} (apart : Apart as bs) :
    ¬ as <+: bs ∧ ¬ bs <+: as := by
  induction apart with
  | here less as bs =>
      rw [List.cons_prefix_cons, List.cons_prefix_cons]
      exact ⟨fun both => less.ne both.1, fun both => less.ne' both.1⟩
  | later a _ ih =>
      rw [List.cons_prefix_cons, List.cons_prefix_cons]
      exact ⟨fun both => ih.1 both.2, fun both => ih.2 both.2⟩

theorem lt {α : Type*} [LinearOrder α] {as bs : List α} (apart : Apart as bs) : as < bs := by
  induction apart with
  | here less as bs => exact List.cons_lt_cons_iff.mpr (Or.inl less)
  | later a _ ih => exact List.cons_lt_cons_iff.mpr (Or.inr ⟨rfl, ih⟩)

end Apart

end Netbase.Lib
