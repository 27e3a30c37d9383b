import Mathlib.Data.List.Basic

/-!
# Open addressing with downward probing

A table is a list of slots, each empty or holding one item.  A probe starts at a
home slot and moves down one slot at a time, from slot zero to the last one.
Items are found again as long as every stored item can be reached from its home
through full slots; filling the empty slot a probe stops at keeps that so.
-/

namespace Netbase.Lib.Probe

variable {α : Type}

/-- The slot probed after slot `i` of `count` slots. -/
def down (count i : Nat) : Nat :=
  if i = 0 then count - 1 else i - 1

/-- The number of probes between slot `i` and slot `j`. -/
def steps (count i j : Nat) : Nat :=
  if j ≤ i then i - j else count + i - j

theorem down_lt {count i : Nat} (bound : i < count) : down count i < count := by
  unfold down
  split <;> omega

theorem steps_lt {count i j : Nat} (iBound : i < count) (jBound : j < count) :
    steps count i j < count := by
  unfold steps
  split <;> omega

theorem steps_down {count i j : Nat} (iBound : i < count) (jBound : j < count)
    (differ : i ≠ j) : steps count (down count i) j + 1 = steps count i j := by
  unfold steps down
  split <;> split <;> split <;> omega

/-- Slot `j` is reached from slot `i` through full slots only. -/
inductive Reaches (slots : List (Option α)) : Nat → Nat → Prop
  | here (i : Nat) : Reaches slots i i
  | next {i j : Nat} {item : α} (full : slots[i]? = some (some item))
      (rest : Reaches slots (down slots.length i) j) : Reaches slots i j

/-- A probe from slot `i` stops at `place`, at an empty slot or at a hit. -/
inductive Probes (slots : List (Option α)) (hit : α → Bool) :
    Nat → Nat × Option α → Prop
  | empty {i : Nat} (free : slots[i]? = some none) : Probes slots hit i (i, none)
  | found {i : Nat} {item : α} (full : slots[i]? = some (some item))
      (hits : hit item = true) : Probes slots hit i (i, some item)
  | next {i : Nat} {item : α} {place : Nat × Option α}
      (full : slots[i]? = some (some item)) (misses : hit item = false)
      (rest : Probes slots hit (down slots.length i) place) :
      Probes slots hit i place

variable {slots : List (Option α)} {item : α}

theorem Probes.stop {hit : α → Bool} {i j : Nat} {result : Option α}
    (probe : Probes slots hit i (j, result)) :
    Reaches slots i j ∧ slots[j]? = some result ∧
      ∀ item, result = some item → hit item = true := by
  generalize hplace : (j, result) = place at probe
  induction probe with
  | empty free =>
      cases hplace
      exact ⟨Reaches.here _, free, by simp⟩
  | found full hits =>
      cases hplace
      exact ⟨Reaches.here _, full, by rintro item ⟨⟩; exact hits⟩
  | next full misses rest ih =>
      obtain ⟨reaches, held, hits⟩ := ih hplace
      exact ⟨Reaches.next full reaches, held, hits⟩

theorem Probes.isSome_of_reaches {hit : α → Bool} {i k : Nat} (reaches : Reaches slots i k)
    (held : slots[k]? = some (some item)) (hits : hit item = true) {j : Nat} {result : Option α}
    (probe : Probes slots hit i (j, result)) : ∃ other, result = some other := by
  induction reaches with
  | here i =>
      cases probe with
      | empty free => simp [held] at free
      | found full => exact ⟨_, rfl⟩
      | next full misses rest =>
          rw [held] at full
          cases full
          simp [hits] at misses
  | next full _ ih =>
      cases probe with
      | empty free => simp [full] at free
      | found _ => exact ⟨_, rfl⟩
      | next _ _ rest => exact ih held rest

def Chained (slots : List (Option α)) (home : α → Nat) : Prop :=
  ∀ (j : Nat) (item : α), slots[j]? = some (some item) → Reaches slots (home item) j

/-- No two slots hold items of one key. -/
def Distinct {β : Type} (slots : List (Option α)) (key : α → β) : Prop :=
  ∀ (i j : Nat) (left right : α), slots[i]? = some (some left) → slots[j]? = some (some right) →
    key left = key right → i = j

theorem Reaches.set {i j place : Nat} (reaches : Reaches slots i j)
    (free : slots[place]? = some none) :
    Reaches (slots.set place (some item)) i j := by
  induction reaches with
  | here i => exact Reaches.here i
  | @next i j held full _ ih =>
      have differ : place ≠ i := by
        rintro rfl
        simp [free] at full
      have kept : (slots.set place (some item))[i]? = some (some held) := by
        rw [List.getElem?_set_ne differ]
        exact full
      refine Reaches.next kept ?_
      rw [List.length_set]
      exact ih

theorem getElem?_set_full {place j : Nat} {held : α} (free : slots[place]? = some none)
    (full : (slots.set place (some item))[j]? = some (some held)) :
    (j = place ∧ held = item) ∨ slots[j]? = some (some held) := by
  by_cases same : place = j
  · subst same
    have bound : place < slots.length := (List.getElem?_eq_some_iff.mp free).1
    rw [List.getElem?_set_self bound] at full
    cases full
    exact Or.inl ⟨rfl, rfl⟩
  · rw [List.getElem?_set_ne same] at full
    exact Or.inr full

theorem Chained.replicate (count : Nat) (home : α → Nat) :
    Chained (List.replicate count (none : Option α)) home := by
  intro j item held
  simp [List.getElem?_replicate] at held

theorem Chained.set {home : α → Nat} (chained : Chained slots home) {place : Nat}
    (free : slots[place]? = some none) (reaches : Reaches slots (home item) place) :
    Chained (slots.set place (some item)) home := by
  intro j held full
  rcases getElem?_set_full free full with ⟨rfl, rfl⟩ | before
  · exact reaches.set free
  · exact (chained j held before).set free

theorem Distinct.replicate {β : Type} (count : Nat) (key : α → β) :
    Distinct (List.replicate count (none : Option α)) key := by
  intro i j left right held
  simp [List.getElem?_replicate] at held

theorem Distinct.set {β : Type} {key : α → β} (distinct : Distinct slots key) {place : Nat}
    (free : slots[place]? = some none) (unseen : ∀ held, some held ∈ slots → key held ≠ key item) :
    Distinct (slots.set place (some item)) key := by
  intro i j left right hleft hright same
  rcases getElem?_set_full free hleft with ⟨rfl, rfl⟩ | leftBefore <;>
    rcases getElem?_set_full free hright with ⟨rfl, rfl⟩ | rightBefore
  · rfl
  · exact absurd same.symm (unseen right (List.mem_of_getElem? rightBefore))
  · exact absurd same (unseen left (List.mem_of_getElem? leftBefore))
  · exact distinct i j left right leftBefore rightBefore same

theorem mem_set_iff {place : Nat} {held : α} (free : slots[place]? = some none) :
    some held ∈ slots.set place (some item) ↔ held = item ∨ some held ∈ slots := by
  have bound : place < slots.length := (List.getElem?_eq_some_iff.mp free).1
  constructor
  · intro member
    obtain ⟨j, full⟩ := List.mem_iff_getElem?.mp member
    rcases getElem?_set_full free full with ⟨_, same⟩ | before
    · exact Or.inl same
    · exact Or.inr (List.mem_of_getElem? before)
  · rintro (rfl | member)
    · exact List.mem_iff_getElem?.mpr ⟨place, List.getElem?_set_self bound⟩
    · obtain ⟨j, full⟩ := List.mem_iff_getElem?.mp member
      have differ : place ≠ j := by
        rintro rfl
        simp [free] at full
      exact List.mem_iff_getElem?.mpr ⟨j, by rw [List.getElem?_set_ne differ]; exact full⟩

theorem countP_set_full {place : Nat} (free : slots[place]? = some none) :
    (slots.set place (some item)).countP Option.isSome = slots.countP Option.isSome + 1 := by
  obtain ⟨bound, held⟩ := List.getElem?_eq_some_iff.mp free
  rw [List.countP_set bound, held]
  simp

theorem exists_empty (room : slots.countP Option.isSome < slots.length) :
    ∃ j : Nat, slots[j]? = some none := by
  by_contra full
  have all : ∀ slot ∈ slots, Option.isSome slot = true := by
    intro slot member
    cases slot with
    | none =>
        obtain ⟨j, held⟩ := List.mem_iff_getElem?.mp member
        exact absurd ⟨j, held⟩ full
    | some item => rfl
  have := List.countP_eq_length.mpr all
  omega

end Netbase.Lib.Probe
