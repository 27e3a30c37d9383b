import Mathlib.Logic.Equiv.Basic

/-!
# Tables

A table is an array without bounds: every index has an entry.  Writing and
exchanging entries come with the equations that read them back, and two tables
are rearrangements of one another when a permutation that only moves the entries
`1..n` takes one to the other.
-/

namespace Netbase.Lib

@[ext]
structure Table (α : Type) where
  entry : Nat → α

namespace Table

variable {α : Type}

instance : CoeFun (Table α) fun _ => Nat → α := ⟨Table.entry⟩

/-- The table with one entry everywhere. -/
def fill (x : α) : Table α := ⟨fun _ => x⟩

def set (table : Table α) (i : Nat) (x : α) : Table α := ⟨Function.update table.entry i x⟩

@[simp]
theorem fill_entry (x : α) (i : Nat) : fill x i = x := rfl

theorem set_entry (table : Table α) (i k : Nat) (x : α) :
    table.set i x k = if k = i then x else table k := by
  simp [set, Function.update_apply]

@[simp]
theorem set_same (table : Table α) (i : Nat) (x : α) : table.set i x i = x := by
  simp [set_entry]

theorem set_other (table : Table α) {i k : Nat} (x : α) (other : k ≠ i) :
    table.set i x k = table k := by
  simp [set_entry, other]

def exchange (table : Table α) (i j : Nat) : Table α :=
  (table.set i (table j)).set j (table i)

theorem exchange_entry (table : Table α) (i j k : Nat) :
    table.exchange i j k = table (Equiv.swap i j k) := by
  unfold exchange
  rw [set_entry, set_entry, Equiv.swap_apply_def]
  by_cases second : k = j
  · subst second
    by_cases first : k = i <;> simp [first]
  · rw [if_neg second]
    by_cases first : k = i <;> simp [first, second]

theorem exchange_left (table : Table α) (i j : Nat) : table.exchange i j i = table j := by
  rw [exchange_entry, Equiv.swap_apply_left]

theorem exchange_right (table : Table α) (i j : Nat) : table.exchange i j j = table i := by
  rw [exchange_entry, Equiv.swap_apply_right]

theorem exchange_other (table : Table α) {i j k : Nat} (first : k ≠ i) (second : k ≠ j) :
    table.exchange i j k = table k := by
  rw [exchange_entry, Equiv.swap_apply_of_ne_of_ne first second]

/-- The second table is the first with its entries `1..n` permuted. -/
def Rearranged (n : Nat) (table other : Table α) : Prop :=
  ∃ places : Equiv.Perm Nat, (∀ i, i = 0 ∨ n < i → places i = i) ∧
    ∀ i, other i = table (places i)

theorem Rearranged.refl (n : Nat) (table : Table α) : Rearranged n table table :=
  ⟨Equiv.refl Nat, fun _ _ => rfl, fun _ => rfl⟩

theorem Rearranged.trans {n : Nat} {first second third : Table α}
    (left : Rearranged n first second) (right : Rearranged n second third) :
    Rearranged n first third := by
  obtain ⟨places, outside, moved⟩ := left
  obtain ⟨further, beyond, movedAgain⟩ := right
  refine ⟨further.trans places, fun i away => ?_, fun i => ?_⟩
  · rw [Equiv.trans_apply, beyond i away, outside i away]
  · rw [movedAgain, moved, Equiv.trans_apply]

theorem Rearranged.exchange {n i j : Nat} (table : Table α) (first : 0 < i ∧ i ≤ n)
    (second : 0 < j ∧ j ≤ n) : Rearranged n table (table.exchange i j) := by
  refine ⟨Equiv.swap i j, fun k away => ?_, fun k => exchange_entry table i j k⟩
  exact Equiv.swap_apply_of_ne_of_ne (by omega) (by omega)

/-- A permutation that fixes everything outside `1..n` maps `1..n` to itself. -/
theorem places_inside {n i : Nat} {places : Equiv.Perm Nat}
    (outside : ∀ i, i = 0 ∨ n < i → places i = i) (inside : 0 < i ∧ i ≤ n) :
    0 < places i ∧ places i ≤ n := by
  by_contra away
  have fixed : places (places i) = places i := outside (places i) (by omega)
  have same : places i = i := places.injective fixed
  omega

end Table

end Netbase.Lib
