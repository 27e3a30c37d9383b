import Netbase.Heapsort.Select
import Netbase.Text.Lines

/-!
# Heapsort on bytes

The elements are blocks of `size` bytes behind one another, the scratch element is
a block that `malloc` returned, and the macros `SWAP` and `COPY` move the blocks byte
by byte.
-/

namespace Netbase.Heapsort

open Netbase.Lib Netbase.Text

/-! ## The code -/

/-- `SWAP` -/
def swapBytes : Nat → Table Byte → Nat → Nat → Table Byte
  | 0, m, _, _ => m
  | count + 1, m, a, b =>
      let tmp := m a
      let m := m.set a (m b)
      swapBytes count (m.set b tmp) (a + 1) (b + 1)

/-- `COPY` -/
def copyBytes : Nat → Table Byte → Nat → Nat → Table Byte
  | 0, m, _, _ => m
  | count + 1, m, tmp1, tmp2 => copyBytes count (m.set tmp1 (m tmp2)) (tmp1 + 1) (tmp2 + 1)

/-- The `size` bytes at an address. -/
def block (size : Nat) (m : Table Byte) (a : Nat) : Fin size → Byte := fun t => m (a + t)

/-- `base + x * size`, where `base` is `vbase - size`. -/
def address (vbase size x : Nat) : Nat := vbase + x * size - size

instance (total x : Nat) : Decidable (Inside total x) := inferInstanceAs (Decidable (_ ∧ _))

/-- The elements at `vbase` and the scratch element at `k`. -/
def bytes (vbase nmemb size k : Nat) (compar : (Fin size → Byte) → (Fin size → Byte) → Int) :
    Store (Table Byte) where
  compar m x y :=
    if Inside nmemb x ∧ Inside nmemb y then
      some (compar (block size m (address vbase size x)) (block size m (address vbase size y)))
    else none
  comparKey m x :=
    if Inside nmemb x then
      some (compar (block size m k) (block size m (address vbase size x)))
    else none
  swap m x y :=
    if Inside nmemb x ∧ Inside nmemb y then
      some (swapBytes size m (address vbase size x) (address vbase size y))
    else none
  copy m x y :=
    if Inside nmemb x ∧ Inside nmemb y then
      some (copyBytes size m (address vbase size x) (address vbase size y))
    else none
  save m x :=
    if Inside nmemb x then some (copyBytes size m k (address vbase size x)) else none
  restore m x :=
    if Inside nmemb x then some (copyBytes size m (address vbase size x) k) else none

def EINVAL : Int := 22

/-- What `heapsort` returns, and what it sets `errno` to. -/
structure Return where
  value : Int
  errno : Option Int
  memory : Table Byte

/-- `heapsort`, where `malloc` returns the address of the scratch element or nothing. -/
def heapsort (malloc : Option Nat) (vbase nmemb size : Nat)
    (compar : (Fin size → Byte) → (Fin size → Byte) → Int) (m : Table Byte) : Option Return :=
  if nmemb ≤ 1 then some { value := 0, errno := none, memory := m }
  else if size = 0 then some { value := -1, errno := some EINVAL, memory := m }
  else
    match malloc with
    | none => some { value := -1, errno := none, memory := m }
    | some k =>
        (sort (bytes vbase nmemb size k compar) nmemb m).map
          fun m => { value := 0, errno := none, memory := m }

/-! ## Blocks -/

def Disjoint (size a b : Nat) : Prop := a + size ≤ b ∨ b + size ≤ a

theorem Disjoint.symm {size a b : Nat} (apart : Disjoint size a b) : Disjoint size b a :=
  Or.comm.mp apart

section Blocks

variable {size a b c : Nat}

theorem copyBytes_entry : ∀ count (m : Table Byte) (a b x : Nat), Disjoint count a b →
    copyBytes count m a b x = if a ≤ x ∧ x < a + count then m (b + (x - a)) else m x := by
  intro count
  induction count with
  | zero =>
      intro m a b x _
      rw [if_neg (by omega)]
      rfl
  | succ count ih =>
      intro m a b x apart
      unfold Disjoint at apart
      rw [copyBytes, ih _ _ _ _ (by unfold Disjoint; omega)]
      by_cases here : x = a
      · rw [if_neg (by omega), if_pos (by omega), here, Table.set_same, Nat.sub_self, Nat.add_zero]
      by_cases inside : a + 1 ≤ x ∧ x < a + 1 + count
      · rw [if_pos inside, if_pos (by omega), Table.set_other _ _ (by omega)]
        congr 1
        omega
      · rw [if_neg inside, if_neg (by omega), Table.set_other _ _ here]

theorem swapBytes_entry : ∀ count (m : Table Byte) (a b x : Nat), Disjoint count a b →
    swapBytes count m a b x =
      if a ≤ x ∧ x < a + count then m (b + (x - a))
      else if b ≤ x ∧ x < b + count then m (a + (x - b)) else m x := by
  intro count
  induction count with
  | zero =>
      intro m a b x _
      rw [if_neg (by omega), if_neg (by omega)]
      rfl
  | succ count ih =>
      intro m a b x apart
      unfold Disjoint at apart
      have step : swapBytes (count + 1) m a b = swapBytes count (m.exchange a b) (a + 1) (b + 1) :=
        rfl
      rw [step, ih _ _ _ _ (by unfold Disjoint; omega)]
      by_cases first : x = a
      · rw [if_neg (by omega), if_neg (by omega), if_pos (by omega), first, Table.exchange_left,
          Nat.sub_self, Nat.add_zero]
      by_cases second : x = b
      · rw [if_neg (by omega), if_neg (by omega), if_neg (by omega), if_pos (by omega), second,
          Table.exchange_right, Nat.sub_self, Nat.add_zero]
      by_cases inside : a + 1 ≤ x ∧ x < a + 1 + count
      · rw [if_pos inside, if_pos (by omega), Table.exchange_other _ (by omega) (by omega)]
        congr 1
        omega
      by_cases within : b + 1 ≤ x ∧ x < b + 1 + count
      · rw [if_neg inside, if_pos within, if_neg (by omega), if_pos (by omega),
          Table.exchange_other _ (by omega) (by omega)]
        congr 1
        omega
      · rw [if_neg inside, if_neg within, if_neg (by omega), if_neg (by omega),
          Table.exchange_other _ first second]

theorem block_copy (m : Table Byte) (apart : Disjoint size a b) :
    block size (copyBytes size m a b) a = block size m b := by
  funext t
  rw [block, copyBytes_entry _ _ _ _ _ apart, if_pos (by omega), Nat.add_sub_cancel_left]
  rfl

theorem block_copy_other (m : Table Byte) (apart : Disjoint size a b) (away : Disjoint size c a) :
    block size (copyBytes size m a b) c = block size m c := by
  funext t
  unfold Disjoint at away
  rw [block, copyBytes_entry _ _ _ _ _ apart, if_neg (by omega)]
  rfl

theorem block_swap_left (m : Table Byte) (apart : Disjoint size a b) :
    block size (swapBytes size m a b) a = block size m b := by
  funext t
  rw [block, swapBytes_entry _ _ _ _ _ apart, if_pos (by omega), Nat.add_sub_cancel_left]
  rfl

theorem block_swap_right (m : Table Byte) (apart : Disjoint size a b) :
    block size (swapBytes size m a b) b = block size m a := by
  funext t
  have far := apart
  unfold Disjoint at far
  rw [block, swapBytes_entry _ _ _ _ _ apart, if_neg (by omega), if_pos (by omega),
    Nat.add_sub_cancel_left]
  rfl

theorem block_swap_other (m : Table Byte) (apart : Disjoint size a b) (left : Disjoint size c a)
    (right : Disjoint size c b) : block size (swapBytes size m a b) c = block size m c := by
  funext t
  unfold Disjoint at left right
  rw [block, swapBytes_entry _ _ _ _ _ apart, if_neg (by omega), if_neg (by omega)]
  rfl

end Blocks

/-! ## The elements -/

section Elements

variable {vbase nmemb size k : Nat} {compar : (Fin size → Byte) → (Fin size → Byte) → Int}

/-- An address in the array or in the scratch element. -/
def Owned (vbase nmemb size k x : Nat) : Prop :=
  vbase ≤ x ∧ x < vbase + nmemb * size ∨ k ≤ x ∧ x < k + size

instance (vbase nmemb size k x : Nat) : Decidable (Owned vbase nmemb size k x) :=
  inferInstanceAs (Decidable (_ ∨ _))

/-- The elements of the array, counted from 1. -/
def elements (vbase nmemb size : Nat) (m : Table Byte) : Table (Fin size → Byte) :=
  ⟨fun x => if Inside nmemb x then block size m (address vbase size x) else fun _ => 0⟩

/-- The elements, the scratch element, and the rest of the memory. -/
def shown (vbase nmemb size k : Nat) : Shown (Table Byte) (Fin size → Byte) (Nat → Byte) where
  elements := elements vbase nmemb size
  key m := block size m k
  kept m x := if Owned vbase nmemb size k x then 0 else m x

theorem address_bounds (vbase size : Nat) {x : Nat} (inside : Inside nmemb x) :
    vbase ≤ address vbase size x ∧ address vbase size x + size ≤ vbase + nmemb * size := by
  have low : 1 * size ≤ x * size := Nat.mul_le_mul_right size inside.1
  have high : x * size ≤ nmemb * size := Nat.mul_le_mul_right size inside.2
  unfold address
  omega

theorem address_apart (vbase size : Nat) {x y : Nat} (left : 1 ≤ x) (right : 1 ≤ y) (apart : x ≠ y) :
    Disjoint size (address vbase size x) (address vbase size y) := by
  have first : 1 * size ≤ x * size := Nat.mul_le_mul_right size left
  have second : 1 * size ≤ y * size := Nat.mul_le_mul_right size right
  have order : (x + 1) * size ≤ y * size ∨ (y + 1) * size ≤ x * size := by
    rcases Nat.lt_or_gt_of_ne apart with less | less
    · exact Or.inl (Nat.mul_le_mul_right size less)
    · exact Or.inr (Nat.mul_le_mul_right size less)
  rw [Nat.succ_mul, Nat.succ_mul] at order
  unfold Disjoint address
  omega

/-- The scratch element lies outside the array. -/
def Separate (vbase nmemb size k : Nat) : Prop := k + size ≤ vbase ∨ vbase + nmemb * size ≤ k

theorem Separate.disjoint (separate : Separate vbase nmemb size k) {x : Nat}
    (inside : Inside nmemb x) : Disjoint size k (address vbase size x) := by
  have bounds := address_bounds vbase size inside
  unfold Separate at separate
  unfold Disjoint
  omega

variable {m : Table Byte} {x y : Nat}

theorem elements_inside (m : Table Byte) (inside : Inside nmemb x) :
    elements vbase nmemb size m x = block size m (address vbase size x) :=
  if_pos inside

theorem elements_outside (m : Table Byte) (outside : ¬ Inside nmemb x) :
    elements vbase nmemb size m x = fun _ => 0 :=
  if_neg outside

theorem ne_of_inside (inside : Inside nmemb x) (outside : ¬ Inside nmemb y) : y ≠ x :=
  fun same => outside (same ▸ inside)

theorem elements_eq {m' : Table Byte} {a : Table (Fin size → Byte)}
    (inside : ∀ z, Inside nmemb z → block size m' (address vbase size z) = a z)
    (outside : ∀ z, ¬ Inside nmemb z → a z = fun _ => 0) : elements vbase nmemb size m' = a := by
  refine Table.ext (funext fun z => ?_)
  by_cases here : Inside nmemb z
  · rw [elements_inside m' here]
    exact inside z here
  · rw [elements_outside m' here]
    exact (outside z here).symm

theorem kept_copy (m : Table Byte) {a b : Nat} (apart : Disjoint size a b)
    (owned : ∀ t, a ≤ t → t < a + size → Owned vbase nmemb size k t) :
    (shown vbase nmemb size k).kept (copyBytes size m a b) = (shown vbase nmemb size k).kept m := by
  funext t
  simp only [shown]
  by_cases own : Owned vbase nmemb size k t
  · rw [if_pos own, if_pos own]
  · rw [if_neg own, if_neg own, copyBytes_entry _ _ _ _ _ apart,
      if_neg fun inside => own (owned t inside.1 inside.2)]

theorem owned_element (inside : Inside nmemb x) (t : Nat) (low : address vbase size x ≤ t)
    (high : t < address vbase size x + size) : Owned vbase nmemb size k t := by
  have bounds := address_bounds vbase size inside
  exact Or.inl ⟨by omega, by omega⟩

theorem swap_becomes (separate : Separate vbase nmemb size k) (m : Table Byte)
    (left : Inside nmemb x) (right : Inside nmemb y) (apart : x ≠ y) :
    Becomes (shown vbase nmemb size k) m
      (swapBytes size m (address vbase size x) (address vbase size y))
      ((elements vbase nmemb size m).exchange x y) (block size m k) := by
  have far := address_apart vbase size left.1 right.1 apart
  refine ⟨elements_eq (fun z inside => ?_) fun z outside => ?_, ?_, ?_⟩
  · by_cases first : z = x
    · rw [first, block_swap_left m far, Table.exchange_left, elements_inside m right]
    by_cases second : z = y
    · rw [second, block_swap_right m far, Table.exchange_right, elements_inside m left]
    · rw [block_swap_other m far (address_apart _ _ inside.1 left.1 first)
        (address_apart _ _ inside.1 right.1 second), Table.exchange_other _ first second,
        elements_inside m inside]
  · rw [Table.exchange_other _ (ne_of_inside left outside) (ne_of_inside right outside),
      elements_outside m outside]
  · exact block_swap_other m far (separate.disjoint left) (separate.disjoint right)
  · funext t
    simp only [shown]
    by_cases own : Owned vbase nmemb size k t
    · rw [if_pos own, if_pos own]
    · rw [if_neg own, if_neg own, swapBytes_entry _ _ _ _ _ far,
        if_neg fun inside => own (owned_element left t inside.1 inside.2),
        if_neg fun inside => own (owned_element right t inside.1 inside.2)]

theorem copy_becomes (separate : Separate vbase nmemb size k) (m : Table Byte) {b : Nat}
    (inside : Inside nmemb x) (apart : Disjoint size (address vbase size x) b) :
    Becomes (shown vbase nmemb size k) m (copyBytes size m (address vbase size x) b)
      ((elements vbase nmemb size m).set x (block size m b)) (block size m k) := by
  refine ⟨elements_eq (fun z within => ?_) fun z outside => ?_, ?_, ?_⟩
  · rw [Table.set_entry]
    by_cases here : z = x
    · rw [if_pos here, here]
      exact block_copy m apart
    · rw [if_neg here, block_copy_other m apart (address_apart _ _ within.1 inside.1 here),
        elements_inside m within]
  · rw [Table.set_other _ _ (ne_of_inside inside outside), elements_outside m outside]
  · exact block_copy_other m apart (separate.disjoint inside)
  · exact kept_copy m apart (owned_element inside)

theorem save_becomes (separate : Separate vbase nmemb size k) (m : Table Byte)
    (inside : Inside nmemb x) :
    Becomes (shown vbase nmemb size k) m (copyBytes size m k (address vbase size x))
      (elements vbase nmemb size m) (block size m (address vbase size x)) := by
  have apart := separate.disjoint inside
  refine ⟨elements_eq (fun z within => ?_) fun z => elements_outside m, ?_, ?_⟩
  · rw [block_copy_other m apart (separate.disjoint within).symm, elements_inside m within]
  · exact block_copy m apart
  · exact kept_copy m apart fun t low high => Or.inr ⟨low, high⟩

/-- The macros do to the elements what the store is relied on to do. -/
theorem bytes_lawful (compar : (Fin size → Byte) → (Fin size → Byte) → Int)
    (separate : Separate vbase nmemb size k) :
    Lawful (bytes vbase nmemb size k compar) compar nmemb (shown vbase nmemb size k) where
  compar m x y left right := by
    dsimp only [bytes, shown]
    rw [if_pos ⟨left, right⟩, elements_inside m left, elements_inside m right]
  comparKey m x inside := by
    dsimp only [bytes, shown]
    rw [if_pos inside, elements_inside m inside]
  swap m x y left right apart :=
    ⟨_, if_pos ⟨left, right⟩, swap_becomes separate m left right apart⟩
  copy m x y left right apart := by
    refine ⟨_, if_pos ⟨left, right⟩, ?_⟩
    have becomes := copy_becomes separate m left (address_apart _ _ left.1 right.1 apart)
    rw [← elements_inside m right] at becomes
    exact becomes
  save m x inside := by
    refine ⟨_, if_pos inside, ?_⟩
    have becomes := save_becomes separate m inside
    rw [← elements_inside m inside] at becomes
    exact becomes
  restore m x inside :=
    ⟨_, if_pos inside, copy_becomes separate m inside (separate.disjoint inside).symm⟩

end Elements

/-- The array is sorted in place, and no byte outside it and the scratch element changes. -/
theorem heapsort_sorts (vbase nmemb size k : Nat) (positive : 1 ≤ size)
    (separate : Separate vbase nmemb size k) (compar : (Fin size → Byte) → (Fin size → Byte) → Int)
    (compares : Compares compar) (m : Table Byte) :
    ∃ m', heapsort (some k) vbase nmemb size compar m =
        some { value := 0, errno := none, memory := m' } ∧
      Table.Shuffled 1 (nmemb + 1) (elements vbase nmemb size m) (elements vbase nmemb size m') ∧
      Sorted compar 1 (nmemb + 1) (elements vbase nmemb size m') ∧
      ∀ x, ¬ Owned vbase nmemb size k x → m' x = m x := by
  by_cases short : nmemb ≤ 1
  · refine ⟨m, if_pos short, Table.Shuffled.refl _, fun i k first before last => ?_, fun _ _ => rfl⟩
    omega
  · obtain ⟨m', sorts, sorted, kept, shuffled⟩ :=
      sort_run compares (bytes_lawful compar separate) m
    refine ⟨m', ?_, shuffled, sorted, fun x away => ?_⟩
    · rw [heapsort, if_neg short, if_neg (by omega), sorts]
      rfl
    · have same := congrFun kept x
      simp only [shown] at same
      rw [if_neg away, if_neg away] at same
      exact same

/-- Three elements of two bytes at address 10 are compared by their first bytes. -/
theorem heapsort_sorts_pairs :
    ∃ m', heapsort (some 0) 10 3 2 (fun a b => (a 0).toNat - (b 0).toNat)
        ⟨fun x => [5, 1, 3, 2, 5, 0].getD (x - 10) 0⟩ =
        some { value := 0, errno := none, memory := m' } ∧
      Table.Shuffled 1 4 (elements 10 3 2 ⟨fun x => [5, 1, 3, 2, 5, 0].getD (x - 10) 0⟩)
        (elements 10 3 2 m') ∧
      Sorted (fun a b => (a 0).toNat - (b 0).toNat) 1 4 (elements 10 3 2 m') ∧
      ∀ x, ¬ Owned 10 3 2 0 x →
        m' x = Table.entry ⟨fun x => [5, 1, 3, 2, 5, 0].getD (x - 10) 0⟩ x :=
  heapsort_sorts 10 3 2 0 (by decide) (by unfold Separate; decide) _
    ⟨fun a b => by omega, fun a b c => by omega⟩ _

end Netbase.Heapsort
