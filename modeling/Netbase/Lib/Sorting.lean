import Mathlib.Data.Int.Order.Basic
import Netbase.Lib.Table

/-!
# Sorting a table through a comparison function

A comparison function answers with the sign of an integer.  A part of a table is
sorted when no entry compares greater than a later one, and shuffled when a
permutation that only moves entries of the part takes one table to the other.
-/

namespace Netbase.Lib

variable {α : Type}

/-- The function compares in a total preorder. -/
structure Compares (f : α → α → Int) : Prop where
  flip : ∀ x y, f x y < 0 ↔ 0 < f y x
  trans : ∀ x y z, f x y ≤ 0 → f y z ≤ 0 → f x z ≤ 0

namespace Compares

variable {f : α → α → Int} {x y z : α}

theorem le_comm (compares : Compares f) : f x y ≤ 0 ↔ 0 ≤ f y x := by
  rw [← not_lt, ← not_lt, compares.flip y x]

theorem eq_comm (compares : Compares f) : f x y = 0 ↔ f y x = 0 := by
  have there : f x y ≤ 0 ↔ 0 ≤ f y x := compares.le_comm
  have back : f y x ≤ 0 ↔ 0 ≤ f x y := compares.le_comm
  omega

theorem self (compares : Compares f) : f x x = 0 := by
  have same : f x x ≤ 0 ↔ 0 ≤ f x x := compares.le_comm
  omega

theorem lt_of_lt_of_le (compares : Compares f) (left : f x y < 0) (right : f y z ≤ 0) :
    f x z < 0 := by
  by_contra above
  have back : f z x ≤ 0 := compares.le_comm.mpr (not_lt.mp above)
  have under : f y x ≤ 0 := compares.trans y z x right back
  have strict : 0 < f y x := (compares.flip x y).mp left
  omega

theorem lt_of_le_of_lt (compares : Compares f) (left : f x y ≤ 0) (right : f y z < 0) :
    f x z < 0 := by
  by_contra above
  have back : f z x ≤ 0 := compares.le_comm.mpr (not_lt.mp above)
  have under : f z y ≤ 0 := compares.trans z x y back left
  have strict : 0 < f z y := (compares.flip y z).mp right
  omega

/-- An entry and one that compares equal to it stand in the same relation to any third. -/
theorem right_congr (compares : Compares f) (same : f y z = 0) :
    (f x y < 0 ↔ f x z < 0) ∧ (f x y = 0 ↔ f x z = 0) ∧ (0 < f x y ↔ 0 < f x z) := by
  have mirrored : f z y = 0 := compares.eq_comm.mp same
  have below : f x y < 0 ↔ f x z < 0 :=
    ⟨fun less => compares.lt_of_lt_of_le less (Int.le_of_eq same),
      fun less => compares.lt_of_lt_of_le less (Int.le_of_eq mirrored)⟩
  have above : 0 < f x y ↔ 0 < f x z := by
    rw [← compares.flip, ← compares.flip]
    exact ⟨fun less => compares.lt_of_le_of_lt (Int.le_of_eq mirrored) less,
      fun less => compares.lt_of_le_of_lt (Int.le_of_eq same) less⟩
  exact ⟨below, by omega, above⟩

theorem left_congr (compares : Compares f) (same : f x y = 0) :
    (f x z < 0 ↔ f y z < 0) ∧ (f x z = 0 ↔ f y z = 0) ∧ (0 < f x z ↔ 0 < f y z) := by
  obtain ⟨below, equal, above⟩ := compares.right_congr (x := z) same
  rw [compares.flip, compares.flip] at below
  rw [compares.eq_comm, compares.eq_comm (x := z)] at equal
  rw [← compares.flip, ← compares.flip] at above
  exact ⟨above, equal, below⟩

end Compares

/-- No entry in `base..lim` compares greater than a later one there. -/
def Sorted (f : α → α → Int) (base lim : Nat) (a : Table α) : Prop :=
  ∀ i k, base ≤ i → i < k → k < lim → f (a i) (a k) ≤ 0

theorem Sorted.transfer {f : α → α → Int} {low high : Nat} {a b : Table α}
    (sorted : Sorted f low high a) (same : ∀ k, low ≤ k → k < high → b k = a k) :
    Sorted f low high b := by
  intro i k first before last
  rw [same i first (by omega), same k (by omega) last]
  exact sorted i k first before last

namespace Table

/-- Every entry in `low..high` is of a kind. -/
def On (P : α → Prop) (low high : Nat) (a : Table α) : Prop := ∀ i, low ≤ i → i < high → P (a i)

/-- The second table is the first with the entries in `base..lim` permuted. -/
def Shuffled (base lim : Nat) (table other : Table α) : Prop :=
  ∃ places : Equiv.Perm Nat, (∀ i, i < base ∨ lim ≤ i → places i = i) ∧
    ∀ i, other i = table (places i)

variable {base lim : Nat} {first second third : Table α}

theorem Shuffled.refl (table : Table α) : Shuffled base lim table table :=
  ⟨Equiv.refl Nat, fun _ _ => rfl, fun _ => rfl⟩

theorem Shuffled.trans (left : Shuffled base lim first second)
    (right : Shuffled base lim second third) : Shuffled base lim first third := by
  obtain ⟨places, outside, moved⟩ := left
  obtain ⟨further, beyond, movedAgain⟩ := right
  refine ⟨further.trans places, fun i away => ?_, fun i => ?_⟩
  · rw [Equiv.trans_apply, beyond i away, outside i away]
  · rw [movedAgain, moved, Equiv.trans_apply]

theorem Shuffled.widen {low high : Nat} (shuffled : Shuffled base lim first second)
    (below : low ≤ base) (above : lim ≤ high) : Shuffled low high first second := by
  obtain ⟨places, outside, moved⟩ := shuffled
  exact ⟨places, fun i away => outside i (by omega), moved⟩

theorem Shuffled.exchange {i j : Nat} (table : Table α) (left : base ≤ i ∧ i < lim)
    (right : base ≤ j ∧ j < lim) : Shuffled base lim table (table.exchange i j) := by
  refine ⟨Equiv.swap i j, fun k away => ?_, fun k => exchange_entry table i j k⟩
  exact Equiv.swap_apply_of_ne_of_ne (by omega) (by omega)

theorem Shuffled.outside (shuffled : Shuffled base lim first second) {i : Nat}
    (away : i < base ∨ lim ≤ i) : second i = first i := by
  obtain ⟨places, fixed, moved⟩ := shuffled
  rw [moved, fixed i away]

theorem Shuffled.on {P : α → Prop} (shuffled : Shuffled base lim first second)
    (all : first.On P base lim) : second.On P base lim := by
  obtain ⟨places, fixed, moved⟩ := shuffled
  intro i low high
  rw [moved]
  by_contra fails
  have away : places i < base ∨ lim ≤ places i := by
    by_contra inside
    exact fails (all _ (by omega) (by omega))
  have same : places i = i := places.injective (fixed _ away)
  omega

theorem Shuffled.on_apart {P : α → Prop} {low high : Nat}
    (shuffled : Shuffled base lim first second) (all : first.On P low high)
    (apart : high ≤ base ∨ lim ≤ low) : second.On P low high := by
  intro i start stop
  rw [shuffled.outside (by omega)]
  exact all i start stop

end Table

theorem Sorted.join {f : α → α → Int} (compares : Compares f) {base low high lim : Nat}
    {a : Table α} {pivot : α} (left : Sorted f base low a) (right : Sorted f high lim a)
    (below : a.On (f · pivot < 0) base low) (equal : a.On (f · pivot = 0) low high)
    (above : a.On (0 < f · pivot) high lim) : Sorted f base lim a := by
  intro i k first before last
  by_cases inLow : k < low
  · exact left i k first before inLow
  by_cases inHigh : high ≤ i
  · exact right i k inHigh before last
  have under : f (a i) pivot ≤ 0 := by
    by_cases leftOf : i < low
    · exact Int.le_of_lt (below i first leftOf)
    · exact Int.le_of_eq (equal i (by omega) (by omega))
  have beyond : 0 ≤ f (a k) pivot := by
    by_cases rightOf : high ≤ k
    · exact Int.le_of_lt (above k rightOf last)
    · exact Int.le_of_eq (equal k (by omega) (by omega)).symm
  exact compares.trans _ pivot _ under (compares.le_comm.mpr beyond)

end Netbase.Lib
