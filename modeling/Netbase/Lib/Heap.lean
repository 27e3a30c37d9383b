import Netbase.Lib.Sorting

/-!
# Heaps in a table

The entries `1..n` of a table are a heap when none compares greater than its
parent, which stands at half its index.  Only the parents from `low` on are looked
at, so that a heap can be built from behind.
-/

namespace Netbase.Lib

variable {α : Type}

/-- No entry up to `n` whose parent stands at `low` or behind compares greater than it. -/
def Heap (f : α → α → Int) (low n : Nat) (a : Table α) : Prop :=
  ∀ k, 2 ≤ k → k ≤ n → low ≤ k / 2 → f (a k) (a (k / 2)) ≤ 0

/-- The entry at `i` may be too small for its place. -/
structure Sinking (f : α → α → Int) (low n : Nat) (a : Table α) (i : Nat) : Prop where
  rest : ∀ k, 2 ≤ k → k ≤ n → low ≤ k / 2 → k / 2 ≠ i → f (a k) (a (k / 2)) ≤ 0
  grand : ∀ k, k ≤ n → k / 2 = i → low ≤ i / 2 → f (a k) (a (i / 2)) ≤ 0

/-- Entry `j` is a child of entry `i`, and none of its children compares greater. -/
structure Greatest (f : α → α → Int) (n : Nat) (a : Table α) (i j : Nat) : Prop where
  child : j / 2 = i
  bound : j ≤ n
  greatest : ∀ k, k ≤ n → k / 2 = i → f (a k) (a j) ≤ 0

variable {f : α → α → Int} {low n i j : Nat} {a : Table α}

theorem Heap.sinking (heap : Heap f (i + 1) n a) (positive : 0 < i) : Sinking f i n a i where
  rest k first last up other := heap k first last (by omega)
  grand k _ _ up := absurd up (by omega)

theorem Sinking.settled (sinking : Sinking f low n a i)
    (children : ∀ k, k ≤ n → k / 2 = i → f (a k) (a i) ≤ 0) : Heap f low n a := by
  intro k first last up
  by_cases here : k / 2 = i
  · rw [here]
    exact children k last here
  · exact sinking.rest k first last up here

theorem Sinking.exchange (sinking : Sinking f low n a i) (positive : 0 < i)
    (greatest : Greatest f n a i j) (larger : f (a i) (a j) ≤ 0) :
    Sinking f low n (a.exchange i j) j where
  rest := by
    intro k first last up other
    have child := greatest.child
    by_cases isChild : k / 2 = i
    · rw [isChild, Table.exchange_left]
      by_cases same : k = j
      · rw [same, Table.exchange_right]
        exact larger
      · rw [Table.exchange_other a (by omega) same]
        exact greatest.greatest k last isChild
    · rw [Table.exchange_other a isChild other]
      by_cases here : k = i
      · rw [here, Table.exchange_left]
        exact sinking.grand j greatest.bound child (here ▸ up)
      · rw [Table.exchange_other a here (by omega)]
        exact sinking.rest k first last up isChild
  grand := by
    intro k last child up
    have parent := greatest.child
    rw [parent] at up ⊢
    rw [Table.exchange_left, Table.exchange_other a (by omega) (by omega), ← child]
    exact sinking.rest k (by omega) last (by omega) (by omega)

theorem Heap.raise (compares : Compares f) (heap : Heap f low n a) (positive : 0 < i)
    (here : low ≤ i) (greatest : Greatest f n a i j) : Heap f low n (a.set i (a j)) := by
  intro k first last up
  rw [Table.set_entry, Table.set_entry]
  have child := greatest.child
  by_cases isChild : k / 2 = i
  · rw [if_neg (by omega), if_pos isChild]
    exact greatest.greatest k last isChild
  · rw [if_neg isChild]
    by_cases same : k = i
    · rw [if_pos same]
      have under : f (a j) (a (j / 2)) ≤ 0 := heap j (by omega) greatest.bound (by omega)
      rw [child, ← same] at under
      exact compares.trans _ _ _ under (heap k first last up)
    · rw [if_neg same]
      exact heap k first last up

theorem Heap.lower (compares : Compares f) (heap : Heap f low n a) (inside : 2 ≤ i) (bound : i ≤ n)
    (here : low ≤ i / 2) : Heap f low n (a.set i (a (i / 2))) := by
  intro k first last up
  rw [Table.set_entry, Table.set_entry]
  by_cases isChild : k / 2 = i
  · rw [if_neg (by omega), if_pos isChild]
    have under : f (a k) (a (k / 2)) ≤ 0 := heap k first last up
    rw [isChild] at under
    exact compares.trans _ _ _ under (heap i inside bound here)
  · rw [if_neg isChild]
    by_cases same : k = i
    · rw [if_pos same, same]
      exact Int.le_of_eq compares.self
    · rw [if_neg same]
      exact heap k first last up

theorem Heap.place (heap : Heap f low n a) {x : α}
    (children : ∀ k, 2 ≤ k → k ≤ n → k / 2 = i → f (a k) x ≤ 0)
    (parent : 2 ≤ i → low ≤ i / 2 → f x (a (i / 2)) ≤ 0) : Heap f low n (a.set i x) := by
  intro k first last up
  rw [Table.set_entry, Table.set_entry]
  by_cases isChild : k / 2 = i
  · rw [if_neg (by omega), if_pos isChild]
    exact children k first last isChild
  · rw [if_neg isChild]
    by_cases same : k = i
    · rw [if_pos same, same]
      exact parent (same ▸ first) (same ▸ up)
    · rw [if_neg same]
      exact heap k first last up

theorem Heap.root (compares : Compares f) (heap : Heap f 1 n a) :
    ∀ k, 1 ≤ k → k ≤ n → f (a k) (a 1) ≤ 0 := by
  intro k
  induction k using Nat.strongRecOn with
  | ind k ih =>
      intro first last
      by_cases top : k = 1
      · rw [top]
        exact Int.le_of_eq compares.self
      · have parent : f (a (k / 2)) (a 1) ≤ 0 := ih (k / 2) (by omega) (by omega) (by omega)
        exact compares.trans _ _ _ (heap k (by omega) last (by omega)) parent

theorem Heap.shorten {m : Nat} {b : Table α} (heap : Heap f low n a) (shorter : m ≤ n)
    (same : ∀ k, k ≤ m → b k = a k) : Heap f low m b := by
  intro k first last up
  rw [same k last, same (k / 2) (by omega)]
  exact heap k first (by omega) up

end Netbase.Lib
