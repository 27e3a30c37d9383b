import Netbase.Lib.Sorting

/-!
# Quick sort with a pivot block

`qsort1` scans a stretch of an array from both ends towards a block of entries
that compare equal to the pivot, and the block moves towards whichever side turns
out to be the smaller one.  The array is a table, pointers into it are indices, and
every comparison and every exchange is checked against the stretch that is being
sorted: a call outside it has no result.
-/

namespace Netbase.Qsort

open Netbase.Lib

variable {α : Type}

/-! ## The code -/

/-- The locals `i`, `j`, `lptr` and `hptr` of `qsort1`. -/
structure Pointers where
  i : Nat
  j : Nat
  lptr : Nat
  hptr : Nat
  deriving DecidableEq

/-- A pointer into the stretch. -/
def Inside (base lim x : Nat) : Prop := base ≤ x ∧ x < lim

instance (base lim x : Nat) : Decidable (Inside base lim x) := inferInstanceAs (Decidable (_ ∧ _))

section Stretch

variable (f : α → α → Int) (base lim : Nat)

/-- `(*f)(*x, *y)` -/
def call (a : Table α) (x y : Nat) : Option Int :=
  if Inside base lim x ∧ Inside base lim y then some (f (a x) (a y)) else none

/-- `swap2(x, y)` -/
def swap2 (a : Table α) (x y : Nat) : Option (Table α) :=
  if Inside base lim x ∧ Inside base lim y then
    let t := a x
    let a := a.set x (a y)
    some (a.set y t)
  else none

/-- `swap3(x, y, z)` -/
def swap3 (a : Table α) (x y z : Nat) : Option (Table α) :=
  if Inside base lim x ∧ Inside base lim y ∧ Inside base lim z then
    let t := a x
    let a := a.set x (a z)
    let a := a.set z (a y)
    some (a.set y t)
  else none

/-- Where the body of the loop goes on: at its head, at `begin`, or behind the loop. -/
inductive Move (α : Type) where
  | head (a : Table α) (p : Pointers)
  | begun (a : Table α) (p : Pointers)
  | divided (a : Table α) (p : Pointers)

/-- The body of the loop up to `begin`. -/
def fromHead (a : Table α) (p : Pointers) : Option (Move α) :=
  if p.i < p.lptr then do
    let c ← call f base lim a p.i p.lptr
    if c = 0 then
      let a ← swap2 base lim a p.i (p.lptr - 1)
      some (.head a { p with lptr := p.lptr - 1 })
    else if c < 0 then some (.head a { p with i := p.i + 1 })
    else some (.begun a p)
  else some (.begun a p)

/-- The body of the loop from `begin` on. -/
def fromBegin (a : Table α) (p : Pointers) : Option (Move α) :=
  if p.hptr < p.j then do
    let c ← call f base lim a p.hptr p.j
    if c = 0 then
      let a ← swap2 base lim a (p.hptr + 1) p.j
      some (.begun a { p with hptr := p.hptr + 1 })
    else if 0 < c then
      if p.i = p.lptr then
        let a ← swap3 base lim a p.i (p.hptr + 1) p.j
        some (.begun a { p with hptr := p.hptr + 1, lptr := p.lptr + 1, i := p.lptr + 1 })
      else
        let a ← swap2 base lim a p.i p.j
        some (.head a { p with j := p.j - 1, i := p.i + 1 })
    else some (.begun a { p with j := p.j - 1 })
  else if p.i = p.lptr then some (.divided a p)
  else do
    let a ← swap3 base lim a p.j (p.lptr - 1) p.i
    some (.head a { p with lptr := p.lptr - 1, hptr := p.hptr - 1, j := p.hptr - 1 })

/-- The loop, with a bound on the number of moves. -/
def partition : Nat → Move α → Option (Table α × Pointers)
  | 0, _ => none
  | _ + 1, .divided a p => some (a, p)
  | fuel + 1, .head a p => (fromHead f base lim a p).bind (partition fuel)
  | fuel + 1, .begun a p => (fromBegin f base lim a p).bind (partition fuel)

/-- The pointers before the loop. -/
def Pointers.first (base lim : Nat) : Pointers :=
  { i := base, j := lim - 1, lptr := base + (lim - base) / 2, hptr := base + (lim - base) / 2 }

end Stretch

/-- `qsort1`, with a bound on the depth of the calls. -/
def qsort1 (f : α → α → Int) : Nat → Nat → Nat → Table α → Option (Table α)
  | 0, _, _, _ => none
  | fuel + 1, base, lim, a =>
      if (lim - base) / 2 = 0 then some a
      else
        match partition f base lim (2 * (lim - base) + 1) (.head a (Pointers.first base lim)) with
        | none => none
        | some (a, p) =>
            if lim - p.hptr ≤ p.lptr - base then
              (qsort1 f fuel (p.hptr + 1) lim a).bind (qsort1 f fuel base p.lptr)
            else
              (qsort1 f fuel base p.lptr a).bind (qsort1 f fuel (p.hptr + 1) lim)

/-! ## Exchanges -/

section Stretch

variable {f : α → α → Int} {base lim : Nat} {a b : Table α} {x y z k : Nat}

theorem call_inside (left : Inside base lim x) (right : Inside base lim y) :
    call f base lim a x y = some (f (a x) (a y)) :=
  if_pos ⟨left, right⟩

theorem swap2_inside (left : Inside base lim x) (right : Inside base lim y) :
    swap2 base lim a x y = some (a.exchange x y) :=
  if_pos ⟨left, right⟩

theorem swap3_inside (first : Inside base lim x) (second : Inside base lim y)
    (third : Inside base lim z) (apart : x ≠ y) :
    swap3 base lim a x y z = some ((a.exchange x z).exchange y z) := by
  rw [swap3, if_pos ⟨first, second, third⟩]
  refine congrArg some (Table.ext (funext fun k => ?_))
  simp only [Table.exchange, Table.set_entry]
  split_ifs <;> simp_all

theorem swap3_shuffled (first : Inside base lim x) (second : Inside base lim y)
    (third : Inside base lim z) :
    Table.Shuffled base lim a ((a.exchange x z).exchange y z) :=
  (Table.Shuffled.exchange a first third).trans (Table.Shuffled.exchange _ second third)

/-! ## The five regions -/

/-- What is known of the regions: smaller entries below `i`, the pivot block from `lptr` to
`hptr`, and greater entries above `j`. -/
structure Regions (f : α → α → Int) (base lim : Nat) (pivot : α) (a : Table α) (p : Pointers) :
    Prop where
  start : base ≤ p.i
  left : p.i ≤ p.lptr
  block : p.lptr ≤ p.hptr
  right : p.hptr ≤ p.j
  last : p.j < lim
  below : ∀ k, base ≤ k → k < p.i → f (a k) pivot < 0
  equal : ∀ k, p.lptr ≤ k → k ≤ p.hptr → f (a k) pivot = 0
  above : ∀ k, p.j < k → k < lim → 0 < f (a k) pivot

/-- The number of entries that have not been compared yet. -/
def Pointers.unknown (p : Pointers) : Nat := p.lptr - p.i + (p.j - p.hptr)

/-- What a move keeps: at `begin` the entry at `i` is greater than the pivot, unless `i` has
met the block. -/
def Sound (f : α → α → Int) (base lim : Nat) (pivot : α) : Move α → Prop
  | .head a p => Regions f base lim pivot a p
  | .begun a p => Regions f base lim pivot a p ∧ (p.i < p.lptr → 0 < f (a p.i) pivot)
  | .divided a p => Regions f base lim pivot a p ∧ p.unknown = 0

def Move.table : Move α → Table α
  | .head a _ | .begun a _ | .divided a _ => a

def Move.weight : Move α → Nat
  | .head _ p => 2 * p.unknown + 2
  | .begun _ p => 2 * p.unknown + 1
  | .divided _ _ => 0

/-- A move that keeps the regions, permutes the stretch and comes closer to the end. -/
def Advances (f : α → α → Int) (base lim : Nat) (pivot : α) (a : Table α) (weight : Nat)
    (move : Move α) : Prop :=
  Sound f base lim pivot move ∧ Table.Shuffled base lim a move.table ∧ move.weight < weight

variable {pivot : α} {p : Pointers}

theorem Regions.compare_left (compares : Compares f) (regions : Regions f base lim pivot a p) :
    (f (a k) (a p.lptr) < 0 ↔ f (a k) pivot < 0) ∧ (f (a k) (a p.lptr) = 0 ↔ f (a k) pivot = 0) ∧
      (0 < f (a k) (a p.lptr) ↔ 0 < f (a k) pivot) :=
  compares.right_congr (regions.equal p.lptr (Nat.le_refl _) regions.block)

theorem Regions.compare_right (compares : Compares f) (regions : Regions f base lim pivot a p) :
    (f (a p.hptr) (a k) < 0 ↔ 0 < f (a k) pivot) ∧ (f (a p.hptr) (a k) = 0 ↔ f (a k) pivot = 0) ∧
      (0 < f (a p.hptr) (a k) ↔ f (a k) pivot < 0) := by
  have same : f (a p.hptr) pivot = 0 := regions.equal p.hptr regions.block (Nat.le_refl _)
  obtain ⟨below, equal, above⟩ := compares.left_congr (z := a k) same
  rw [compares.flip pivot] at below
  rw [compares.eq_comm (x := pivot)] at equal
  rw [← compares.flip (a k) pivot] at above
  exact ⟨below, equal, above⟩

/-- An equal entry at `i` changes places with the one below the block. -/
theorem Regions.joinLeft (regions : Regions f base lim pivot a p) (apart : p.i < p.lptr)
    (same : f (a p.i) pivot = 0) :
    Regions f base lim pivot (a.exchange p.i (p.lptr - 1)) { p with lptr := p.lptr - 1 } where
  start := regions.start
  left := by dsimp; omega
  block := by have := regions.block; dsimp; omega
  right := regions.right
  last := regions.last
  below := by
    intro k low high
    dsimp only at high
    rw [Table.exchange_other _ (by omega) (by omega)]
    exact regions.below k low high
  equal := by
    intro k low high
    dsimp only at low high
    by_cases first : k = p.lptr - 1
    · rw [first, Table.exchange_right]
      exact same
    · rw [Table.exchange_other _ (by omega) first]
      exact regions.equal k (by omega) high
  above := by
    intro k low high
    have order := regions.block
    have further := regions.right
    dsimp only at low
    rw [Table.exchange_other _ (by omega) (by omega)]
    exact regions.above k low high

/-- An equal entry at `j` changes places with the one above the block. -/
theorem Regions.joinRight (regions : Regions f base lim pivot a p) (apart : p.hptr < p.j)
    (same : f (a p.j) pivot = 0) :
    Regions f base lim pivot (a.exchange (p.hptr + 1) p.j) { p with hptr := p.hptr + 1 } where
  start := regions.start
  left := regions.left
  block := by have := regions.block; dsimp; omega
  right := by dsimp; omega
  last := regions.last
  below := by
    intro k low high
    have order := regions.block
    have further := regions.left
    dsimp only at high
    rw [Table.exchange_other _ (by omega) (by omega)]
    exact regions.below k low high
  equal := by
    intro k low high
    dsimp only at low high
    by_cases first : k = p.hptr + 1
    · rw [first, Table.exchange_left]
      exact same
    · rw [Table.exchange_other _ first (by omega)]
      exact regions.equal k low (by omega)
  above := by
    intro k low high
    dsimp only at low
    rw [Table.exchange_other _ (by omega) (by omega)]
    exact regions.above k low high

theorem Regions.passLeft (regions : Regions f base lim pivot a p) (apart : p.i < p.lptr)
    (less : f (a p.i) pivot < 0) : Regions f base lim pivot a { p with i := p.i + 1 } where
  start := by have := regions.start; dsimp; omega
  left := apart
  block := regions.block
  right := regions.right
  last := regions.last
  below := by
    intro k low high
    dsimp only at high
    by_cases here : k = p.i
    · rw [here]
      exact less
    · exact regions.below k low (by omega)
  equal := regions.equal
  above := regions.above

theorem Regions.passRight (regions : Regions f base lim pivot a p) (apart : p.hptr < p.j)
    (greater : 0 < f (a p.j) pivot) : Regions f base lim pivot a { p with j := p.j - 1 } where
  start := regions.start
  left := regions.left
  block := regions.block
  right := by dsimp; omega
  last := by have := regions.last; dsimp; omega
  below := regions.below
  equal := regions.equal
  above := by
    intro k low high
    dsimp only at low
    by_cases here : k = p.j
    · rw [here]
      exact greater
    · exact regions.above k (by omega) high

/-- A greater entry at `i` and a smaller one at `j` change places. -/
theorem Regions.cross (regions : Regions f base lim pivot a p) (left : p.i < p.lptr)
    (right : p.hptr < p.j) (greater : 0 < f (a p.i) pivot) (less : f (a p.j) pivot < 0) :
    Regions f base lim pivot (a.exchange p.i p.j) { p with j := p.j - 1, i := p.i + 1 } where
  start := by have := regions.start; dsimp; omega
  left := left
  block := regions.block
  right := by dsimp; omega
  last := by have := regions.last; dsimp; omega
  below := by
    intro k low high
    have order := regions.block
    dsimp only at high
    by_cases here : k = p.i
    · rw [here, Table.exchange_left]
      exact less
    · rw [Table.exchange_other _ here (by omega)]
      exact regions.below k low (by omega)
  equal := by
    intro k low high
    dsimp only at low high
    rw [Table.exchange_other _ (by omega) (by omega)]
    exact regions.equal k low high
  above := by
    intro k low high
    have order := regions.block
    dsimp only at low
    by_cases here : k = p.j
    · rw [here, Table.exchange_right]
      exact greater
    · rw [Table.exchange_other _ (by omega) here]
      exact regions.above k (by omega) high

/-- Where `i` has met the block, a smaller entry at `j` goes below it and the block moves up. -/
theorem Regions.moveUp (regions : Regions f base lim pivot a p) (met : p.i = p.lptr)
    (right : p.hptr < p.j) (less : f (a p.j) pivot < 0) :
    Regions f base lim pivot ((a.exchange p.i p.j).exchange (p.hptr + 1) p.j)
      { p with hptr := p.hptr + 1, lptr := p.lptr + 1, i := p.lptr + 1 } where
  start := by have := regions.start; dsimp; omega
  left := Nat.le_refl _
  block := by have := regions.block; dsimp; omega
  right := by dsimp; omega
  last := regions.last
  below := by
    intro k low high
    have order := regions.block
    dsimp only at high
    rw [Table.exchange_other _ (by omega) (by omega)]
    by_cases here : k = p.i
    · rw [here, Table.exchange_left]
      exact less
    · rw [Table.exchange_other _ here (by omega)]
      exact regions.below k low (by omega)
  equal := by
    intro k low high
    have order := regions.block
    dsimp only at low high
    by_cases first : k = p.hptr + 1
    · rw [first, Table.exchange_left, Table.exchange_right, met]
      exact regions.equal p.lptr (Nat.le_refl _) order
    · rw [Table.exchange_other _ first (by omega), Table.exchange_other _ (by omega) (by omega)]
      exact regions.equal k (by omega) (by omega)
  above := by
    intro k low high
    have order := regions.block
    dsimp only at low
    rw [Table.exchange_other _ (by omega) (by omega), Table.exchange_other _ (by omega) (by omega)]
    exact regions.above k low high

/-- Where `j` has met the block, the greater entry at `i` goes above it and the block moves
down. -/
theorem Regions.moveDown (regions : Regions f base lim pivot a p) (met : p.hptr = p.j)
    (left : p.i < p.lptr) (greater : 0 < f (a p.i) pivot) :
    Regions f base lim pivot ((a.exchange p.j p.i).exchange (p.lptr - 1) p.i)
      { p with lptr := p.lptr - 1, hptr := p.hptr - 1, j := p.hptr - 1 } where
  start := regions.start
  left := by dsimp; omega
  block := by have := regions.block; dsimp; omega
  right := Nat.le_refl _
  last := by have := regions.last; dsimp; omega
  below := by
    intro k low high
    have order := regions.block
    dsimp only at high
    rw [Table.exchange_other _ (by omega) (by omega), Table.exchange_other _ (by omega) (by omega)]
    exact regions.below k low high
  equal := by
    intro k low high
    have order := regions.block
    dsimp only at low high
    by_cases first : k = p.lptr - 1
    · rw [first, Table.exchange_left, Table.exchange_right, ← met]
      exact regions.equal p.hptr order (Nat.le_refl _)
    · rw [Table.exchange_other _ first (by omega), Table.exchange_other _ (by omega) (by omega)]
      exact regions.equal k (by omega) (by omega)
  above := by
    intro k low high
    have order := regions.block
    dsimp only at low
    rw [Table.exchange_other _ (by omega) (by omega)]
    by_cases here : k = p.j
    · rw [here, Table.exchange_left]
      exact greater
    · rw [Table.exchange_other _ here (by omega)]
      exact regions.above k (by omega) high

/-! ## The loop -/

theorem fromHead_advances (compares : Compares f) (regions : Regions f base lim pivot a p) :
    ∃ move, fromHead f base lim a p = some move ∧
      Advances f base lim pivot a (2 * p.unknown + 2) move := by
  have start := regions.start
  have block := regions.block
  have right := regions.right
  have last := regions.last
  unfold fromHead
  by_cases apart : p.i < p.lptr
  · rw [if_pos apart, call_inside ⟨start, by omega⟩ ⟨by omega, by omega⟩, Option.bind_eq_bind,
      Option.bind_some]
    obtain ⟨less, equal, greater⟩ := regions.compare_left (k := p.i) compares
    by_cases same : f (a p.i) (a p.lptr) = 0
    · rw [if_pos same, swap2_inside ⟨start, by omega⟩ ⟨by omega, by omega⟩]
      refine ⟨_, rfl, regions.joinLeft apart (equal.mp same), ?_, ?_⟩
      · exact Table.Shuffled.exchange a ⟨start, by omega⟩ ⟨by omega, by omega⟩
      · simp only [Move.weight, Pointers.unknown]
        omega
    · rw [if_neg same]
      by_cases under : f (a p.i) (a p.lptr) < 0
      · rw [if_pos under]
        refine ⟨_, rfl, regions.passLeft apart (less.mp under), Table.Shuffled.refl a, ?_⟩
        simp only [Move.weight, Pointers.unknown]
        omega
      · rw [if_neg under]
        refine ⟨_, rfl, ⟨regions, fun _ => greater.mp (by omega)⟩, Table.Shuffled.refl a, ?_⟩
        simp only [Move.weight]
        omega
  · rw [if_neg apart]
    refine ⟨_, rfl, ⟨regions, fun less => absurd less apart⟩, Table.Shuffled.refl a, ?_⟩
    simp only [Move.weight]
    omega

theorem fromBegin_advances (compares : Compares f) (regions : Regions f base lim pivot a p)
    (greater : p.i < p.lptr → 0 < f (a p.i) pivot) :
    ∃ move, fromBegin f base lim a p = some move ∧
      Advances f base lim pivot a (2 * p.unknown + 1) move := by
  have start := regions.start
  have left := regions.left
  have block := regions.block
  have right := regions.right
  have last := regions.last
  unfold fromBegin
  by_cases apart : p.hptr < p.j
  · rw [if_pos apart, call_inside ⟨by omega, by omega⟩ ⟨by omega, last⟩, Option.bind_eq_bind,
      Option.bind_some]
    obtain ⟨above, equal, below⟩ := regions.compare_right (k := p.j) compares
    by_cases same : f (a p.hptr) (a p.j) = 0
    · rw [if_pos same, swap2_inside ⟨by omega, by omega⟩ ⟨by omega, last⟩]
      refine ⟨_, rfl, ⟨regions.joinRight apart (equal.mp same), fun less => ?_⟩, ?_, ?_⟩
      · dsimp only at less
        dsimp only
        rw [Table.exchange_other _ (by omega) (by omega)]
        exact greater less
      · exact Table.Shuffled.exchange a ⟨by omega, by omega⟩ ⟨by omega, last⟩
      · simp only [Move.weight, Pointers.unknown]
        omega
    · rw [if_neg same]
      by_cases larger : 0 < f (a p.hptr) (a p.j)
      · rw [if_pos larger]
        by_cases met : p.i = p.lptr
        · rw [if_pos met, swap3_inside ⟨start, by omega⟩ ⟨by omega, by omega⟩ ⟨by omega, last⟩
            (by omega)]
          refine ⟨_, rfl, ⟨regions.moveUp met apart (below.mp larger), fun less => ?_⟩, ?_, ?_⟩
          · exact absurd less (Nat.lt_irrefl _)
          · exact swap3_shuffled ⟨start, by omega⟩ ⟨by omega, by omega⟩ ⟨by omega, last⟩
          · simp only [Move.weight, Pointers.unknown]
            omega
        · rw [if_neg met, swap2_inside ⟨start, by omega⟩ ⟨by omega, last⟩]
          have unmet : p.i < p.lptr := by omega
          refine ⟨_, rfl, regions.cross unmet apart (greater unmet) (below.mp larger), ?_, ?_⟩
          · exact Table.Shuffled.exchange a ⟨start, by omega⟩ ⟨by omega, last⟩
          · simp only [Move.weight, Pointers.unknown]
            omega
      · rw [if_neg larger]
        have passed : 0 < f (a p.j) pivot := above.mp (by omega)
        refine ⟨_, rfl, ⟨regions.passRight apart passed, greater⟩, Table.Shuffled.refl a, ?_⟩
        simp only [Move.weight, Pointers.unknown]
        omega
  · rw [if_neg apart]
    have met : p.hptr = p.j := by omega
    by_cases done : p.i = p.lptr
    · rw [if_pos done]
      refine ⟨_, rfl, ⟨regions, ?_⟩, Table.Shuffled.refl a, ?_⟩
      · rw [Pointers.unknown]
        omega
      · exact Nat.succ_pos _
    · rw [if_neg done, swap3_inside ⟨by omega, last⟩ ⟨by omega, by omega⟩ ⟨start, by omega⟩
        (by omega)]
      have unmet : p.i < p.lptr := by omega
      refine ⟨_, rfl, regions.moveDown met unmet (greater unmet), ?_, ?_⟩
      · exact swap3_shuffled ⟨by omega, last⟩ ⟨by omega, by omega⟩ ⟨start, by omega⟩
      · simp only [Move.weight, Pointers.unknown]
        omega

theorem partition_divides (compares : Compares f) : ∀ fuel move,
    Sound f base lim pivot move → move.weight < fuel →
    ∃ b p, partition f base lim fuel move = some (b, p) ∧ Regions f base lim pivot b p ∧
      p.unknown = 0 ∧ Table.Shuffled base lim move.table b := by
  intro fuel
  induction fuel with
  | zero => exact fun move _ short => absurd short (Nat.not_lt_zero _)
  | succ fuel ih =>
      intro move sound short
      have further : ∀ {a : Table α} {weight : Nat} {next : Move α},
          Advances f base lim pivot a weight next → weight < fuel + 1 →
          ∃ b p, partition f base lim fuel next = some (b, p) ∧ Regions f base lim pivot b p ∧
            p.unknown = 0 ∧ Table.Shuffled base lim a b := by
        intro a weight next advances bound
        obtain ⟨kept, shuffled, closer⟩ := advances
        obtain ⟨b, p, run, regions, known, rest⟩ := ih next kept (by omega)
        exact ⟨b, p, run, regions, known, shuffled.trans rest⟩
      cases move with
      | head a p =>
          obtain ⟨next, step, advances⟩ := fromHead_advances compares sound
          rw [partition, step, Option.bind_some]
          exact further advances short
      | begun a p =>
          obtain ⟨next, step, advances⟩ := fromBegin_advances compares sound.1 sound.2
          rw [partition, step, Option.bind_some]
          exact further advances short
      | divided a p => exact ⟨a, p, rfl, sound.1, sound.2, Table.Shuffled.refl a⟩

theorem Regions.first (compares : Compares f) (a : Table α) (long : (lim - base) / 2 ≠ 0) :
    Regions f base lim (a (base + (lim - base) / 2)) a (Pointers.first base lim) where
  start := Nat.le_refl _
  left := Nat.le_add_right _ _
  block := Nat.le_refl _
  right := by simp only [Pointers.first]; omega
  last := by simp only [Pointers.first]; omega
  below := fun k low high => absurd high (by simp only [Pointers.first]; omega)
  equal := by
    intro k low high
    simp only [Pointers.first] at low high
    rw [Nat.le_antisymm high low]
    exact compares.self
  above := fun k low high => absurd low (by simp only [Pointers.first]; omega)

end Stretch

/-! ## The sort -/

section Whole

variable {f : α → α → Int} {base lim fuel : Nat} {a : Table α}

/-- A result that is a sorted permutation of the stretch. -/
def Sorts (f : α → α → Int) (base lim : Nat) (a : Table α) (result : Option (Table α)) : Prop :=
  ∃ b, result = some b ∧ Table.Shuffled base lim a b ∧ Sorted f base lim b

theorem Regions.sorted (compares : Compares f) {pivot : α} {b c : Table α} {p : Pointers}
    (regions : Regions f base lim pivot a p) (known : p.unknown = 0)
    (shuffled : Table.Shuffled base p.lptr a b ∧ Table.Shuffled (p.hptr + 1) lim b c ∨
      Table.Shuffled (p.hptr + 1) lim a b ∧ Table.Shuffled base p.lptr b c)
    (left : Sorted f base p.lptr c) (right : Sorted f (p.hptr + 1) lim c) :
    Table.Shuffled base lim a c ∧ Sorted f base lim c := by
  have start := regions.start
  have leftEnd := regions.left
  have order := regions.block
  have rightEnd := regions.right
  have last := regions.last
  rw [Pointers.unknown] at known
  have below : a.On (f · pivot < 0) base p.lptr :=
    fun k first last => regions.below k first (by omega)
  have equal : a.On (f · pivot = 0) p.lptr (p.hptr + 1) :=
    fun k first last => regions.equal k first (by omega)
  have above : a.On (0 < f · pivot) (p.hptr + 1) lim :=
    fun k first last => regions.above k (by omega) last
  rcases shuffled with ⟨one, two⟩ | ⟨one, two⟩
  · refine ⟨(one.widen (by omega) (by omega)).trans (two.widen (by omega) (by omega)), ?_⟩
    refine Sorted.join compares left right (two.on_apart (one.on below) (by omega)) ?_ ?_
    · exact two.on_apart (one.on_apart equal (by omega)) (by omega)
    · exact two.on (one.on_apart above (by omega))
  · refine ⟨(one.widen (by omega) (by omega)).trans (two.widen (by omega) (by omega)), ?_⟩
    refine Sorted.join compares left right (two.on (one.on_apart below (by omega))) ?_ ?_
    · exact two.on_apart (one.on_apart equal (by omega)) (by omega)
    · exact two.on_apart (one.on above) (by omega)

theorem qsort1_run (compares : Compares f) : ∀ fuel base lim (a : Table α),
    lim - base < fuel → Sorts f base lim a (qsort1 f fuel base lim a) := by
  intro fuel
  induction fuel with
  | zero => exact fun base lim a short => absurd short (Nat.not_lt_zero _)
  | succ fuel ih =>
      intro base lim a short
      rw [qsort1]
      by_cases long : (lim - base) / 2 = 0
      · rw [if_pos long]
        refine ⟨a, rfl, Table.Shuffled.refl a, fun i k first before last => ?_⟩
        omega
      rw [if_neg long]
      have regions := Regions.first compares a long
      have enough : (Move.head a (Pointers.first base lim)).weight < 2 * (lim - base) + 1 := by
        simp only [Move.weight, Pointers.unknown, Pointers.first]
        omega
      obtain ⟨b, p, run, divided, known, shuffled⟩ :=
        partition_divides compares _ (.head a (Pointers.first base lim)) regions enough
      have start := divided.start
      have left := divided.left
      have block := divided.block
      have right := divided.right
      have last := divided.last
      rw [Pointers.unknown] at known
      rw [run]
      dsimp only
      by_cases longer : lim - p.hptr ≤ p.lptr - base
      · rw [if_pos longer]
        obtain ⟨c, upper, moved, sorted⟩ := ih (p.hptr + 1) lim b (by omega)
        obtain ⟨d, lower, moved', sorted'⟩ := ih base p.lptr c (by omega)
        obtain ⟨rest, whole⟩ := divided.sorted compares known (Or.inr ⟨moved, moved'⟩) sorted'
          (sorted.transfer fun k first last => moved'.outside (Or.inr (by omega)))
        rw [upper, Option.bind_some]
        exact ⟨d, lower, shuffled.trans rest, whole⟩
      · rw [if_neg longer]
        obtain ⟨c, lower, moved, sorted⟩ := ih base p.lptr b (by omega)
        obtain ⟨d, upper, moved', sorted'⟩ := ih (p.hptr + 1) lim c (by omega)
        obtain ⟨rest, whole⟩ := divided.sorted compares known (Or.inl ⟨moved, moved'⟩)
          (sorted.transfer fun k first last => moved'.outside (Or.inl (by omega))) sorted'
        rw [lower, Option.bind_some]
        exact ⟨d, upper, shuffled.trans rest, whole⟩

/-- The stretch is sorted in place, and no comparison or exchange leaves it. -/
theorem qsort1_sorts (compares : Compares f) (base lim fuel : Nat) (enough : lim - base < fuel)
    (a : Table α) : ∃ b, qsort1 f fuel base lim a = some b ∧ Table.Shuffled base lim a b ∧
      Sorted f base lim b :=
  qsort1_run compares fuel base lim a enough

/-- Four numbers with a repeated one. -/
theorem qsort1_sorts_numbers :
    ∃ b, qsort1 (fun x y : Int => x - y) 5 0 4 ⟨fun i => [3, 1, 3, 2].getD i 0⟩ = some b ∧
      Table.Shuffled 0 4 ⟨fun i => [3, 1, 3, 2].getD i 0⟩ b ∧ Sorted (fun x y => x - y) 0 4 b :=
  qsort1_sorts ⟨fun x y => by omega, fun x y z => by omega⟩ 0 4 5 (by omega) _

end Whole

end Netbase.Qsort
