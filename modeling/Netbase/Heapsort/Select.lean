import Netbase.Lib.Heap

/-!
# Heapsort

The code is written once, over any store of numbered elements and one scratch
element that can compare, copy and exchange them; an operation outside the
elements has no result.  It sorts every store whose operations do what they say.
-/

namespace Netbase.Heapsort

open Netbase.Lib

/-! ## The code -/

/-- What the macros do to the elements at the indices they are given. -/
structure Store (σ : Type) where
  /-- `compar(x, y)` -/
  compar : σ → Nat → Nat → Option Int
  /-- `compar(k, x)` -/
  comparKey : σ → Nat → Option Int
  /-- `SWAP(x, y)` -/
  swap : σ → Nat → Nat → Option σ
  /-- `COPY(x, y)` -/
  copy : σ → Nat → Nat → Option σ
  /-- `COPY(k, x)` -/
  save : σ → Nat → Option σ
  /-- `COPY(x, k)` -/
  restore : σ → Nat → Option σ

variable {σ : Type} (S : Store σ)

/-- The child that both macros take: the next one if it is there and the first compares less. -/
def takeChild (s : σ) (nmemb child_i : Nat) : Option Nat :=
  if child_i < nmemb then do
    let c ← S.compar s child_i (child_i + 1)
    some (if c < 0 then child_i + 1 else child_i)
  else some child_i

/-- `CREATE` -/
def create (nmemb : Nat) : Nat → Nat → σ → Option σ
  | 0, _, _ => none
  | fuel + 1, par_i, s =>
      if par_i * 2 ≤ nmemb then do
        let child_i ← takeChild S s nmemb (par_i * 2)
        let c ← S.compar s child_i par_i
        if c ≤ 0 then some s
        else
          let s ← S.swap s par_i child_i
          create nmemb fuel child_i s
      else some s

/-- The first loop: `l` goes down to 1. -/
def build (nmemb : Nat) : Nat → σ → Option σ
  | 0, s => some s
  | l + 1, s => (create S nmemb nmemb (l + 1) s).bind (build nmemb l)

/-- The first loop of `SELECT`: the hole goes down to a leaf. -/
def descend (nmemb : Nat) : Nat → Nat → σ → Option (Nat × σ)
  | 0, _, _ => none
  | fuel + 1, par_i, s =>
      if par_i * 2 ≤ nmemb then do
        let child_i ← takeChild S s nmemb (par_i * 2)
        let s ← S.copy s par_i child_i
        descend nmemb fuel child_i s
      else some (par_i, s)

/-- The second loop of `SELECT`: the hole goes up until the key fits. -/
def ascend : Nat → Nat → σ → Option σ
  | 0, _, _ => none
  | fuel + 1, child_i, s =>
      if child_i = 1 then S.restore s child_i
      else do
        let c ← S.comparKey s (child_i / 2)
        if c < 0 then S.restore s child_i
        else
          let s ← S.copy s child_i (child_i / 2)
          ascend fuel (child_i / 2) s

/-- `SELECT` -/
def select (nmemb : Nat) (s : σ) : Option σ := do
  let (par_i, s) ← descend S nmemb nmemb 1 s
  ascend S nmemb par_i s

/-- The second loop of `heapsort`. -/
def drain : Nat → σ → Option σ
  | nmemb + 2, s => do
      let s ← S.save s (nmemb + 2)
      let s ← S.copy s (nmemb + 2) 1
      let s ← select S (nmemb + 1) s
      drain (nmemb + 1) s
  | _, s => some s

/-- The two loops of `heapsort`. -/
def sort (nmemb : Nat) (s : σ) : Option σ := (build S nmemb (nmemb / 2) s).bind (drain S nmemb)

/-! ## What the operations are relied on to do -/

section Laws

variable {α ρ : Type}

/-- How a store shows its elements and its scratch element, and what it keeps. -/
structure Shown (σ α ρ : Type) where
  elements : σ → Table α
  key : σ → α
  kept : σ → ρ

/-- The state after an operation. -/
structure Becomes (V : Shown σ α ρ) (s s' : σ) (elements : Table α) (key : α) : Prop where
  elements : V.elements s' = elements
  key : V.key s' = key
  kept : V.kept s' = V.kept s

def Inside (total x : Nat) : Prop := 1 ≤ x ∧ x ≤ total

/-- Every operation inside the elements has its effect. -/
structure Lawful (S : Store σ) (f : α → α → Int) (total : Nat) (V : Shown σ α ρ) : Prop where
  compar : ∀ s x y, Inside total x → Inside total y →
    S.compar s x y = some (f (V.elements s x) (V.elements s y))
  comparKey : ∀ s x, Inside total x → S.comparKey s x = some (f (V.key s) (V.elements s x))
  swap : ∀ s x y, Inside total x → Inside total y → x ≠ y →
    ∃ s', S.swap s x y = some s' ∧ Becomes V s s' ((V.elements s).exchange x y) (V.key s)
  copy : ∀ s x y, Inside total x → Inside total y → x ≠ y →
    ∃ s', S.copy s x y = some s' ∧
      Becomes V s s' ((V.elements s).set x (V.elements s y)) (V.key s)
  save : ∀ s x, Inside total x →
    ∃ s', S.save s x = some s' ∧ Becomes V s s' (V.elements s) (V.elements s x)
  restore : ∀ s x, Inside total x →
    ∃ s', S.restore s x = some s' ∧ Becomes V s s' ((V.elements s).set x (V.key s)) (V.key s)

end Laws

/-! ## The loops -/

section Runs

variable {S} {α ρ : Type} {f : α → α → Int} {total n : Nat} {V : Shown σ α ρ}

theorem takeChild_greatest (compares : Compares f) (lawful : Lawful S f total V) (s : σ) {i : Nat}
    (bound : n ≤ total) (positive : 1 ≤ i) (inside : i * 2 ≤ n) :
    ∃ j, takeChild S s n (i * 2) = some j ∧ Greatest f n (V.elements s) i j := by
  unfold takeChild
  by_cases two : i * 2 < n
  · rw [if_pos two, lawful.compar s _ _ ⟨by omega, by omega⟩ ⟨by omega, by omega⟩,
      Option.bind_eq_bind, Option.bind_some]
    refine ⟨_, rfl, ?_⟩
    by_cases less : f (V.elements s (i * 2)) (V.elements s (i * 2 + 1)) < 0
    · rw [if_pos less]
      refine ⟨by omega, by omega, fun k last child => ?_⟩
      have either : k = i * 2 ∨ k = i * 2 + 1 := by omega
      rcases either with rfl | rfl
      · exact Int.le_of_lt less
      · exact Int.le_of_eq compares.self
    · rw [if_neg less]
      refine ⟨by omega, by omega, fun k last child => ?_⟩
      have either : k = i * 2 ∨ k = i * 2 + 1 := by omega
      rcases either with rfl | rfl
      · exact Int.le_of_eq compares.self
      · exact compares.le_comm.mpr (Int.not_lt.mp less)
  · rw [if_neg two]
    refine ⟨_, rfl, by omega, by omega, fun k last child => ?_⟩
    have only : k = i * 2 := by omega
    rw [only]
    exact Int.le_of_eq compares.self

/-- `CREATE` lets the entry it begins at sink to its place. -/
theorem create_run (compares : Compares f) (lawful : Lawful S f total V) (bound : n ≤ total)
    {low : Nat} : ∀ fuel i s, Sinking f low n (V.elements s) i → 1 ≤ i → i ≤ n → n < fuel + i →
    ∃ s', create S n fuel i s = some s' ∧ Heap f low n (V.elements s') ∧
      Table.Shuffled 1 (n + 1) (V.elements s) (V.elements s') ∧ V.kept s' = V.kept s := by
  intro fuel
  induction fuel with
  | zero =>
      intro i s sinking positive top short
      omega
  | succ fuel ih =>
      intro i s sinking positive top enough
      rw [create]
      by_cases inside : i * 2 ≤ n
      · obtain ⟨j, taken, greatest⟩ := takeChild_greatest compares lawful s bound positive inside
        have child := greatest.child
        have last := greatest.bound
        rw [if_pos inside, taken, Option.bind_eq_bind, Option.bind_some,
          lawful.compar s _ _ ⟨by omega, by omega⟩ ⟨positive, by omega⟩,
          Option.bind_eq_bind, Option.bind_some]
        by_cases settled : f (V.elements s j) (V.elements s i) ≤ 0
        · rw [if_pos settled]
          refine ⟨s, rfl, sinking.settled fun k lastOf childOf => ?_, Table.Shuffled.refl _, rfl⟩
          exact compares.trans _ _ _ (greatest.greatest k lastOf childOf) settled
        · obtain ⟨s', swapped, becomes⟩ :=
            lawful.swap s i j ⟨positive, by omega⟩ ⟨by omega, by omega⟩ (by omega)
          have larger : f (V.elements s i) (V.elements s j) ≤ 0 :=
            compares.le_comm.mpr (Int.le_of_lt (Int.not_le.mp settled))
          have sunk := sinking.exchange positive greatest larger
          rw [← becomes.elements] at sunk
          obtain ⟨t, run, heap, shuffled, kept⟩ := ih j s' sunk (by omega) last (by omega)
          rw [if_neg settled, swapped, Option.bind_eq_bind, Option.bind_some]
          refine ⟨t, run, heap, ?_, kept.trans becomes.kept⟩
          rw [becomes.elements] at shuffled
          exact (Table.Shuffled.exchange _ ⟨positive, by omega⟩ ⟨by omega, by omega⟩).trans shuffled
      · rw [if_neg inside]
        refine ⟨s, rfl, sinking.settled fun k last child => ?_, Table.Shuffled.refl _, rfl⟩
        omega

theorem build_run (compares : Compares f) (lawful : Lawful S f total V) (bound : n ≤ total) :
    ∀ l s, l ≤ n → Heap f (l + 1) n (V.elements s) →
    ∃ s', build S n l s = some s' ∧ Heap f 1 n (V.elements s') ∧
      Table.Shuffled 1 (n + 1) (V.elements s) (V.elements s') ∧ V.kept s' = V.kept s := by
  intro l
  induction l with
  | zero => exact fun s _ heap => ⟨s, rfl, heap, Table.Shuffled.refl _, rfl⟩
  | succ l ih =>
      intro s last heap
      have sinking := heap.sinking (Nat.succ_pos l)
      obtain ⟨t, made, heap', shuffled, kept⟩ :=
        create_run compares lawful bound n (l + 1) s sinking (by omega) last (by omega)
      obtain ⟨u, built, heap'', shuffled', kept'⟩ := ih t (by omega) heap'
      rw [build, made, Option.bind_some]
      exact ⟨u, built, heap'', shuffled.trans shuffled', kept'.trans kept⟩

theorem hole_moves (a : Table α) (x : α) {i j : Nat} (apart : i ≠ j) :
    (a.set i (a j)).set j x = (a.set i x).exchange i j := by
  refine Table.ext (funext fun k => ?_)
  simp only [Table.exchange, Table.set_entry]
  split_ifs <;> simp_all

theorem descend_run (compares : Compares f) (lawful : Lawful S f total V) (bound : n ≤ total) :
    ∀ fuel i s, Heap f 1 n (V.elements s) → 1 ≤ i → i ≤ n → n < fuel + i →
    ∃ i' s', descend S n fuel i s = some (i', s') ∧ Heap f 1 n (V.elements s') ∧
      1 ≤ i' ∧ i' ≤ n ∧ n < i' * 2 ∧ V.key s' = V.key s ∧ V.kept s' = V.kept s ∧
      Table.Shuffled 1 (n + 1) ((V.elements s).set i (V.key s))
        ((V.elements s').set i' (V.key s)) := by
  intro fuel
  induction fuel with
  | zero =>
      intro i s heap positive last short
      omega
  | succ fuel ih =>
      intro i s heap positive last enough
      rw [descend]
      by_cases inside : i * 2 ≤ n
      · obtain ⟨j, taken, greatest⟩ := takeChild_greatest compares lawful s bound positive inside
        have child := greatest.child
        have lastOf := greatest.bound
        obtain ⟨t, copied, becomes⟩ :=
          lawful.copy s i j ⟨positive, by omega⟩ ⟨by omega, by omega⟩ (by omega)
        have raised := heap.raise compares positive positive greatest
        rw [← becomes.elements] at raised
        obtain ⟨i', s', run, heap', low, high, leaf, key, kept, shuffled⟩ :=
          ih j t raised (by omega) lastOf (by omega)
        rw [if_pos inside, taken, Option.bind_eq_bind, Option.bind_some, copied,
          Option.bind_eq_bind, Option.bind_some]
        refine ⟨i', s', run, heap', low, high, leaf, key.trans becomes.key, kept.trans becomes.kept,
          ?_⟩
        rw [becomes.elements, becomes.key, hole_moves _ _ (by omega)] at shuffled
        exact (Table.Shuffled.exchange _ ⟨positive, by omega⟩ ⟨by omega, by omega⟩).trans shuffled
      · rw [if_neg inside]
        exact ⟨i, s, rfl, heap, positive, last, by omega, rfl, rfl, Table.Shuffled.refl _⟩

/-- The hole goes up, and what is below it never compares greater than the key. -/
theorem ascend_run (compares : Compares f) (lawful : Lawful S f total V) (bound : n ≤ total) :
    ∀ fuel i s, Heap f 1 n (V.elements s) → 1 ≤ i → i ≤ n → i ≤ fuel →
    (∀ k, 2 ≤ k → k ≤ n → k / 2 = i → f (V.elements s k) (V.key s) ≤ 0) →
    ∃ s', ascend S fuel i s = some s' ∧ Heap f 1 n (V.elements s') ∧ V.kept s' = V.kept s ∧
      Table.Shuffled 1 (n + 1) ((V.elements s).set i (V.key s)) (V.elements s') := by
  intro fuel
  induction fuel with
  | zero =>
      intro i s heap positive last short
      omega
  | succ fuel ih =>
      intro i s heap positive last enough children
      have done : (2 ≤ i → f (V.key s) (V.elements s (i / 2)) ≤ 0) →
          ∃ s', S.restore s i = some s' ∧ Heap f 1 n (V.elements s') ∧ V.kept s' = V.kept s ∧
            Table.Shuffled 1 (n + 1) ((V.elements s).set i (V.key s)) (V.elements s') := by
        intro parent
        obtain ⟨s', restored, becomes⟩ := lawful.restore s i ⟨positive, by omega⟩
        refine ⟨s', restored, ?_, becomes.kept, ?_⟩
        · rw [becomes.elements]
          exact heap.place children fun inside _ => parent inside
        · rw [becomes.elements]
          exact Table.Shuffled.refl _
      rw [ascend]
      by_cases top : i = 1
      · rw [if_pos top]
        exact done fun inside => absurd inside (by omega)
      rw [if_neg top, lawful.comparKey s _ ⟨by omega, by omega⟩, Option.bind_eq_bind,
        Option.bind_some]
      by_cases less : f (V.key s) (V.elements s (i / 2)) < 0
      · rw [if_pos less]
        exact done fun _ => Int.le_of_lt less
      · obtain ⟨t, copied, becomes⟩ :=
          lawful.copy s i (i / 2) ⟨positive, by omega⟩ ⟨by omega, by omega⟩ (by omega)
        have lowered := heap.lower compares (i := i) (by omega) last (by omega)
        rw [← becomes.elements] at lowered
        have under : f (V.elements s (i / 2)) (V.key s) ≤ 0 :=
          compares.le_comm.mpr (Int.not_lt.mp less)
        obtain ⟨s', run, heap', kept, shuffled⟩ :=
          ih (i / 2) t lowered (by omega) (by omega) (by omega) fun k first lastOf child => by
            rw [becomes.elements, becomes.key, Table.set_entry]
            by_cases same : k = i
            · rw [if_pos same]
              exact under
            · rw [if_neg same]
              have above : f (V.elements s k) (V.elements s (k / 2)) ≤ 0 :=
                heap k first lastOf (by omega)
              rw [child] at above
              exact compares.trans _ _ _ above under
        rw [if_neg less, copied, Option.bind_eq_bind, Option.bind_some]
        refine ⟨s', run, heap', kept.trans becomes.kept, ?_⟩
        rw [becomes.elements, becomes.key, hole_moves _ _ (by omega)] at shuffled
        exact (Table.Shuffled.exchange _ ⟨positive, by omega⟩ ⟨by omega, by omega⟩).trans shuffled

/-- `SELECT` makes a heap of the entries with the key in place of the first. -/
theorem select_run (compares : Compares f) (lawful : Lawful S f total V) (bound : n ≤ total)
    (first : 1 ≤ n) (s : σ) (heap : Heap f 1 n (V.elements s)) :
    ∃ s', select S n s = some s' ∧ Heap f 1 n (V.elements s') ∧ V.kept s' = V.kept s ∧
      Table.Shuffled 1 (n + 1) ((V.elements s).set 1 (V.key s)) (V.elements s') := by
  obtain ⟨i, t, down, heap', low, high, leaf, key, kept, shuffled⟩ :=
    descend_run compares lawful bound n 1 s heap (Nat.le_refl 1) first (by omega)
  obtain ⟨s', up, heap'', kept', shuffled'⟩ :=
    ascend_run compares lawful bound n i t heap' low high high fun k _ last child =>
      absurd child (by omega)
  rw [select, down, Option.bind_eq_bind, Option.bind_some]
  rw [key] at shuffled'
  exact ⟨s', up, heap'', kept'.trans kept, shuffled.trans shuffled'⟩

/-- The entries up to `n` do not compare greater than those behind. -/
def Under (f : α → α → Int) (n total : Nat) (a : Table α) : Prop :=
  ∀ k, n < k → k ≤ total → a.On (f · (a k) ≤ 0) 1 (n + 1)

/-- The second loop puts the root of a shrinking heap in front of what is sorted. -/
theorem drain_run (compares : Compares f) (lawful : Lawful S f total V) :
    ∀ n s, n ≤ total → Heap f 1 n (V.elements s) →
      Sorted f (n + 1) (total + 1) (V.elements s) → Under f n total (V.elements s) →
    ∃ s', drain S n s = some s' ∧ Sorted f 1 (total + 1) (V.elements s') ∧
      V.kept s' = V.kept s ∧ Table.Shuffled 1 (total + 1) (V.elements s) (V.elements s') := by
  intro n
  induction n with
  | zero => exact fun s _ _ sorted _ => ⟨s, rfl, sorted, rfl, Table.Shuffled.refl _⟩
  | succ n ih =>
      intro s bound heap sorted under
      cases n with
      | zero =>
          refine ⟨s, rfl, fun i k first before last => ?_, rfl, Table.Shuffled.refl _⟩
          by_cases one : i = 1
          · rw [one]
            exact under k (by omega) (by omega) 1 (Nat.le_refl 1) (by omega)
          · exact sorted i k (by omega) before last
      | succ n =>
          obtain ⟨t, saved, atSave⟩ := lawful.save s (n + 2) ⟨by omega, bound⟩
          obtain ⟨u, copied, atCopy⟩ :=
            lawful.copy t (n + 2) 1 ⟨by omega, bound⟩ ⟨Nat.le_refl 1, by omega⟩ (by omega)
          rw [atSave.elements] at atCopy
          have shorter : Heap f 1 (n + 1) (V.elements u) := by
            rw [atCopy.elements]
            exact heap.shorten (by omega) fun k last => Table.set_other _ _ (by omega)
          obtain ⟨v, selected, heap', kept, shuffled⟩ :=
            select_run compares lawful (by omega) (by omega) u shorter
          -- saving, copying and placing the key amount to one exchange
          have exchanged : (V.elements u).set 1 (V.key u) = (V.elements s).exchange (n + 2) 1 := by
            rw [atCopy.elements, atCopy.key, atSave.key]
            rfl
          rw [exchanged] at shuffled
          have behind : ∀ k, n + 2 < k → V.elements v k = V.elements s k := fun k far => by
            rw [shuffled.outside (Or.inr (by omega)), Table.exchange_other _ (by omega) (by omega)]
          have root : V.elements v (n + 2) = V.elements s 1 := by
            rw [shuffled.outside (Or.inr (by omega)), Table.exchange_left]
          have tail : Sorted f (n + 2) (total + 1) (V.elements v) := by
            intro i k first before last
            rw [behind k (by omega)]
            by_cases here : i = n + 2
            · rw [here, root]
              exact under k (by omega) (by omega) 1 (Nat.le_refl 1) (by omega)
            · rw [behind i (by omega)]
              exact sorted i k (by omega) before last
          have beneath : Under f (n + 1) total (V.elements v) := by
            intro k before last
            refine shuffled.on (P := (f · (V.elements v k) ≤ 0)) fun i first inside => ?_
            have among : f ((V.elements s).exchange (n + 2) 1 i) (V.elements s 1) ≤ 0 ∧
                ∀ k, n + 2 < k → k ≤ total →
                  f ((V.elements s).exchange (n + 2) 1 i) (V.elements s k) ≤ 0 := by
              by_cases one : i = 1
              · rw [one, Table.exchange_right]
                exact ⟨heap.root compares _ (by omega) (Nat.le_refl _), fun k far inside =>
                  under k far inside _ (by omega) (by omega)⟩
              · rw [Table.exchange_other _ (by omega) one]
                exact ⟨heap.root compares _ first (by omega), fun k far inside =>
                  under k far inside _ first (by omega)⟩
            by_cases here : k = n + 2
            · rw [here, root]
              exact among.1
            · rw [behind k (by omega)]
              exact among.2 k (by omega) last
          obtain ⟨s', drained, sorted', kept', shuffled'⟩ :=
            ih v (by omega) heap' tail beneath
          rw [drain, saved, Option.bind_eq_bind, Option.bind_some, copied, Option.bind_some,
            selected, Option.bind_some]
          refine ⟨s', drained, sorted', ?_, ?_⟩
          · rw [kept', kept, atCopy.kept, atSave.kept]
          · have once : Table.Shuffled 1 (total + 1) (V.elements s)
                ((V.elements s).exchange (n + 2) 1) :=
              Table.Shuffled.exchange _ ⟨by omega, by omega⟩ ⟨Nat.le_refl 1, by omega⟩
            exact (once.trans (shuffled.widen (Nat.le_refl 1) (by omega))).trans shuffled'

/-- The whole sort, over any store whose operations have their effects. -/
theorem sort_run (compares : Compares f) (lawful : Lawful S f total V) (s : σ) :
    ∃ s', sort S total s = some s' ∧ Sorted f 1 (total + 1) (V.elements s') ∧
      V.kept s' = V.kept s ∧ Table.Shuffled 1 (total + 1) (V.elements s) (V.elements s') := by
  have leaves : Heap f (total / 2 + 1) total (V.elements s) := fun k first last up => by omega
  obtain ⟨t, built, heap, shuffled, kept⟩ :=
    build_run compares lawful (Nat.le_refl total) (total / 2) s (by omega) leaves
  obtain ⟨s', drained, sorted, kept', shuffled'⟩ :=
    drain_run compares lawful total t (Nat.le_refl total) heap
      (fun i k first before last => by omega) (fun k before last => by omega)
  rw [sort, built, Option.bind_some]
  exact ⟨s', drained, sorted, kept'.trans kept, shuffled.trans shuffled'⟩

end Runs

end Netbase.Heapsort
