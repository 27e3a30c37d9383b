import Mathlib.Data.List.GetD
import Netbase.Lib.Table

/-!
# Equivalence classes of lines

`diff` takes the common ends off the two files (`prune`), sorts the remaining
lines of each by hash value (`sort`), replaces the value of each line of file 0
by the index of its class in file 1 and squeezes file 1 into the array `member`,
in which each class begins with a negative entry (`equiv`), and brings the class
indices back into the order of file 0 (`unsort`).  Arrays are functions on
indices, counted from 1 as in the source; the arrays that the source overlays on
one another are separate here, since no overlaid entry is read after it is written
over.
-/

namespace Netbase.Diff.Classes

open Netbase.Lib

/-- `struct line` -/
structure Line where
  serial : Nat
  value : Int
  deriving DecidableEq

/-! ## prune -/

/-- The number of equal values at the front of two files. -/
def commonFront : List Int → List Int → Nat
  | x :: xs, y :: ys => if x = y then commonFront xs ys + 1 else 0
  | _, _ => 0

/-- `pref` and `suff`: the lengths of the common ends. -/
def prune (file0 file1 : List Int) : Nat × Nat :=
  let pref := commonFront file0 file1
  (pref, commonFront (file0.drop pref).reverse (file1.drop pref).reverse)

/-- What is left of a file between its common ends. -/
def shortened (file : List Int) (pref suff : Nat) : List Int :=
  (file.drop pref).take (file.length - pref - suff)

/-- The array `sfile` with its serial numbers. -/
def numbered (values : List Int) : Table Line :=
  ⟨fun i => { serial := i, value := if i = 0 then 0 else values.getD (i - 1) 0 }⟩

/-! ## sort -/

/-- The order of the sort: by value, then by serial number. -/
def Below (left right : Line) : Prop :=
  left.value < right.value ∨ left.value = right.value ∧ left.serial < right.serial

instance (left right : Line) : Decidable (Below left right) :=
  inferInstanceAs (Decidable (_ ∨ _))

/-- The innermost loop: exchange entries `m` apart, going down from `i`. -/
def sink (m : Nat) : Nat → Table Line → Nat → Table Line
  | 0, a, _ => a
  | fuel + 1, a, i =>
      if i = 0 ∨ Below (a i) (a (i + m)) then a else sink m fuel (a.exchange i (i + m)) (i - m)

/-- One pass with gap `m`. -/
def gapPass (n m : Nat) (a : Table Line) : Table Line :=
  (List.range' 1 (n - m)).foldl (fun a j => sink m j a j) a

/-- The loop that sets the first gap. -/
def firstGap (n : Nat) : Nat → Nat → Nat → Nat
  | 0, _, m => m
  | fuel + 1, j, m => if j ≤ n then firstGap n fuel (2 * j) (2 * j - 1) else m

/-- The passes with gaps `m`, `m / 2`, ..., 1. -/
def gapPasses (n : Nat) : Nat → Nat → Table Line → Table Line
  | 0, _, a => a
  | fuel + 1, m, a => if m = 0 then a else gapPasses n fuel (m / 2) (gapPass n m a)

/-- Shell's sort of the entries `1..n`. -/
def sort (a : Table Line) (n : Nat) : Table Line :=
  let m := firstGap n (n + 1) 1 0
  gapPasses n m (m / 2) a

/-! ## equiv and unsort -/

def setValue (a : Table Line) (i : Nat) (value : Int) : Table Line :=
  a.set i { a i with value := value }

/-- The merging half of `equiv`: the values of `a` become indices of classes of `b`. -/
def classify (n m : Nat) (b : Table Line) : Nat → Table Line → Nat → Nat → Table Line
  | 0, a, _, _ => a
  | fuel + 1, a, i, j =>
      if i ≤ n then
        if j ≤ m then
          if (a i).value < (b j).value then classify n m b fuel (setValue a i 0) (i + 1) j
          else if (a i).value = (b j).value then
            classify n m b fuel (setValue a i j) (i + 1) j
          else classify n m b fuel a i (j + 1)
        else classify n m b fuel (setValue a i 0) (i + 1) j
      else a

/-- The squeezing half of `equiv`, behind entry `j`; the first of a class is negative. -/
def squeeze (m : Nat) (b : Table Line) : Nat → Nat → Table Int → Table Int
  | 0, _, c => c
  | fuel + 1, j, c =>
      if (b (j + 1)).value = (b j).value then
        squeeze m b fuel (j + 1) (c.set (j + 1) (b (j + 1)).serial)
      else if j + 1 ≤ m then
        squeeze m b fuel (j + 1) (c.set (j + 1) (-(b (j + 1)).serial))
      else c.set (j + 1) (-1)

/-- The array `member`. -/
def members (m : Nat) (b : Table Line) : Table Int :=
  let b := setValue b (m + 1) 0
  let c := Table.fill 0
  if 1 ≤ m then squeeze m b m 1 (c.set 1 (-(b 1).serial))
  else c.set 1 (-1)

/-- Bring the values back into the order of the serial numbers. -/
def unsort (f : Table Line) (l : Nat) : Table Int :=
  (List.range' 1 l).foldl (fun a i => a.set (f i).serial (f i).value) (Table.fill 0)

/-- The arrays `class` and `member` for two shortened files. -/
def classesOf (sfile0 sfile1 : List Int) : Table Int × Table Int :=
  let n := sfile0.length
  let m := sfile1.length
  let a := sort (numbered sfile0) n
  let b := sort (numbered sfile1) m
  (unsort (classify n m b (n + m + 1) a 1 1) n, members m b)

/-! ## The sort -/

theorem Below.trans {first second third : Line} (left : Below first second)
    (right : Below second third) : Below first third := by
  unfold Below at *
  omega

theorem below_of_not_below {left right : Line} (distinct : left.serial ≠ right.serial)
    (unordered : ¬ Below left right) : Below right left := by
  unfold Below at *
  omega

/-- All serial numbers differ. -/
def Distinct (a : Table Line) : Prop := ∀ i j, (a i).serial = (a j).serial → i = j

theorem numbered_distinct (values : List Int) : Distinct (numbered values) :=
  fun _ _ same => same

variable {a b : Table Line} {n i m : Nat}

theorem Distinct.rearranged (distinct : Distinct a) (moved : Table.Rearranged n a b) :
    Distinct b := by
  obtain ⟨places, -, entries⟩ := moved
  intro i j same
  rw [entries, entries] at same
  exact places.injective (distinct _ _ same)

theorem sink_rearranged (fuel : Nat) (inside : i + m ≤ n) :
    Table.Rearranged n a (sink m fuel a i) := by
  induction fuel generalizing a i with
  | zero => exact Table.Rearranged.refl n a
  | succ fuel ih =>
      rw [sink]
      split
      · exact Table.Rearranged.refl n a
      · next going =>
          have swapped := Table.Rearranged.exchange a (n := n) (i := i) (j := i + m)
            (by omega) (by omega)
          exact swapped.trans (ih (by omega))

theorem gapPass_rearranged (n m : Nat) (a : Table Line) :
    Table.Rearranged n a (gapPass n m a) := by
  have steps (js : List Nat) (inside : ∀ j ∈ js, j + m ≤ n) (a : Table Line) :
      Table.Rearranged n a (js.foldl (fun a j => sink m j a j) a) := by
    induction js generalizing a with
    | nil => exact Table.Rearranged.refl n a
    | cons j js ih =>
        have first := sink_rearranged (a := a) j (inside j List.mem_cons_self)
        exact first.trans (ih (fun k later => inside k (List.mem_cons_of_mem j later)) _)
  apply steps
  intro j listed
  have bounds := List.mem_range'_1.mp listed
  omega

theorem gapPasses_rearranged (n fuel m : Nat) (a : Table Line) :
    Table.Rearranged n a (gapPasses n fuel m a) := by
  induction fuel generalizing m a with
  | zero => exact Table.Rearranged.refl n a
  | succ fuel ih =>
      rw [gapPasses]
      split
      · exact Table.Rearranged.refl n a
      · exact (gapPass_rearranged n m a).trans (ih _ _)

/-- The entries `1..n` are in order. -/
def Sorted (n : Nat) (a : Table Line) : Prop :=
  ∀ i j, 0 < i → i < j → j ≤ n → Below (a i) (a j)

/-- The entries `1..n` are in order but for entry `hole`, which precedes all behind it. -/
structure SortedBut (n hole : Nat) (a : Table Line) : Prop where
  others : ∀ i j, 0 < i → i < j → j ≤ n → i ≠ hole → j ≠ hole → Below (a i) (a j)
  behind : ∀ j, hole < j → j ≤ n → Below (a hole) (a j)

variable {fuel j : Nat} {values : List Int}

theorem sink_sorted (distinct : Distinct a) (inside : i < n) (enough : i ≤ fuel)
    (but : SortedBut n (i + 1) a) :
    Sorted n (sink 1 fuel a i) := by
  induction fuel generalizing a i with
  | zero =>
      obtain rfl : i = 0 := by omega
      intro p q positive less bound
      by_cases first : p = 1
      · rw [first]
        exact but.behind q (by omega) bound
      · exact but.others p q positive less bound first (by omega)
  | succ fuel ih =>
      rw [sink]
      split
      · next stopped =>
          intro p q positive less bound
          by_cases atHole : p = i + 1
          · rw [atHole]
            exact but.behind q (by omega) bound
          · by_cases toHole : q = i + 1
            · rcases stopped with zero | ordered
              · omega
              · rw [toHole]
                by_cases last : p = i
                · rw [last]
                  exact ordered
                · exact (but.others p i positive (by omega) (by omega) atHole (by omega)).trans
                    ordered
            · exact but.others p q positive less bound atHole toHole
      · next going =>
          have positive : 0 < i := by omega
          have smaller : Below (a (i + 1)) (a i) := by
            refine below_of_not_below (fun same => ?_) fun ordered => going (Or.inr ordered)
            have equal := distinct _ _ same
            omega
          have swapped := Table.Rearranged.exchange a (n := n) (i := i) (j := i + 1)
            (by omega) (by omega)
          have hole : a.exchange i (i + 1) i = a (i + 1) := by
            rw [Table.exchange_entry, Equiv.swap_apply_left]
          have next : a.exchange i (i + 1) (i + 1) = a i := by
            rw [Table.exchange_entry, Equiv.swap_apply_right]
          have same (k : Nat) (away : k ≠ i) (beyond : k ≠ i + 1) :
              a.exchange i (i + 1) k = a k := by
            rw [Table.exchange_entry, Equiv.swap_apply_of_ne_of_ne away beyond]
          have index : i - 1 + 1 = i := by omega
          refine ih (distinct.rearranged swapped) (by omega) (by omega) ?_
          rw [index]
          constructor
          · intro p q low less bound notP notQ
            by_cases fromNext : p = i + 1
            · rw [fromNext, next, same q (by omega) (by omega)]
              exact but.others i q positive (by omega) bound (by omega) (by omega)
            · by_cases toNext : q = i + 1
              · rw [toNext, next, same p (by omega) (by omega)]
                exact but.others p i low (by omega) (by omega) (by omega) (by omega)
              · rw [same p notP fromNext, same q notQ toNext]
                exact but.others p q low less bound fromNext toNext
          · intro q less bound
            by_cases toNext : q = i + 1
            · rw [hole, toNext, next]
              exact smaller
            · rw [hole, same q (by omega) toNext]
              exact but.behind q (by omega) bound

theorem gapPass_sorted (distinct : Distinct a) :
    Sorted n (gapPass n 1 a) := by
  have steps (count : Nat) (inside : count < n ∨ count = 0) :
      Distinct ((List.range' 1 count).foldl (fun a j => sink 1 j a j) a) ∧
        Sorted (count + 1) ((List.range' 1 count).foldl (fun a j => sink 1 j a j) a) := by
    induction count with
    | zero => exact ⟨distinct, fun p q positive less bound => by omega⟩
    | succ count ih =>
        obtain ⟨still, sorted⟩ := ih (by omega)
        rw [List.range'_1_concat, List.foldl_append, Nat.add_comm 1 count]
        generalize (List.range' 1 count).foldl (fun a j => sink 1 j a j) a = b at still sorted
        refine ⟨still.rearranged (n := n) (sink_rearranged _ (by omega)), ?_⟩
        refine sink_sorted still (Nat.lt_succ_self _) (Nat.le_refl _) ⟨?_, ?_⟩
        · intro p q positive less bound _ notLast
          exact sorted p q positive less (by omega)
        · intro q less bound
          omega
  obtain ⟨-, sorted⟩ := steps (n - 1) (by omega)
  intro p q positive less bound
  exact sorted p q positive less (by omega)

theorem gapPasses_sorted (distinct : Distinct a) (positive : 0 < m) (enough : m ≤ fuel) :
    Sorted n (gapPasses n fuel m a) := by
  induction fuel generalizing m a with
  | zero => omega
  | succ fuel ih =>
      rw [gapPasses, if_neg (by omega)]
      by_cases last : m = 1
      · subst last
        cases fuel with
        | zero => exact gapPass_sorted distinct
        | succ fuel => exact gapPass_sorted distinct
      · exact ih (distinct.rearranged (gapPass_rearranged n m a)) (by omega) (by omega)

theorem firstGap_grows (below : m ≤ 2 * j - 1) :
    m ≤ firstGap n fuel j m := by
  induction fuel generalizing j m with
  | zero => exact Nat.le_refl m
  | succ fuel ih =>
      rw [firstGap]
      split
      · exact Nat.le_trans below (ih (by omega))
      · exact Nat.le_refl m

/-- `sort` permutes the entries `1..n` and puts them in order. -/
theorem sort_spec (distinct : Distinct a) :
    Table.Rearranged n a (sort a n) ∧ Sorted n (sort a n) := by
  refine ⟨gapPasses_rearranged _ _ _ _, ?_⟩
  by_cases short : n ≤ 1
  · intro p q positive less bound
    omega
  · have wide : 3 ≤ firstGap n (n + 1) 1 0 := by
      obtain ⟨fuel, rfl⟩ : ∃ fuel, n = fuel + 1 := ⟨n - 1, by omega⟩
      rw [firstGap, if_pos (by omega), firstGap, if_pos (by omega)]
      exact firstGap_grows (by omega)
    exact gapPasses_sorted distinct (by omega) (by omega)

/-! ## The classes -/

/-- The index that `equiv` gives to a value: the first entry of `b` that has it, or 0. -/
structure ClassIndex (m : Nat) (b : Table Line) (value index : Int) : Prop where
  absent : index = 0 → ∀ j, 0 < j → j ≤ m → (b j).value ≠ value
  present : index ≠ 0 → ∃ j : Nat, index = j ∧ 0 < j ∧ j ≤ m ∧ (b j).value = value ∧
    ∀ k, 0 < k → k < j → (b k).value < value

theorem setValue_other (a : Table Line) {k : Nat} (value : Int) (other : k ≠ i) :
    setValue a i value k = a k := Table.set_other a _ other

theorem setValue_same (a : Table Line) (i : Nat) (value : Int) :
    setValue a i value i = { a i with value := value } := Table.set_same a i _

theorem setValue_serial (a : Table Line) (i k : Nat) (value : Int) :
    (setValue a i value k).serial = (a k).serial := by
  by_cases same : k = i
  · rw [same, setValue_same]
  · rw [setValue_other a value same]

/-- The merge gives every line from `i` on its class and leaves the rest alone. -/
theorem classify_spec (sortedB : Sorted m b) (fuel : Nat)
    (sortedA : ∀ p q, i ≤ p → p < q → q ≤ n → Below (a p) (a q)) (positive : 0 < j)
    (limit : j ≤ m + 1) (enough : n + m + 2 ≤ fuel + i + j)
    (passed : i ≤ n → ∀ k, 0 < k → k < j → (b k).value < (a i).value) (k : Nat) :
    (classify n m b fuel a i j k).serial = (a k).serial ∧
      (k < i → classify n m b fuel a i j k = a k) ∧
      (i ≤ k → k ≤ n → ClassIndex m b (a k).value (classify n m b fuel a i j k).value) := by
  induction fuel generalizing a i j with
  | zero => exact ⟨rfl, fun _ => rfl, fun _ _ => by omega⟩
  | succ fuel ih =>
      rw [classify]
      by_cases more : i ≤ n
      · -- line `i` gets its index and the merge goes on behind it
        have settle (index : Int) (found : ClassIndex m b (a i).value index) :
            (classify n m b fuel (setValue a i index) (i + 1) j k).serial = (a k).serial ∧
              (k < i → classify n m b fuel (setValue a i index) (i + 1) j k = a k) ∧
              (i ≤ k → k ≤ n → ClassIndex m b (a k).value
                (classify n m b fuel (setValue a i index) (i + 1) j k).value) := by
          have later : ∀ p q, i + 1 ≤ p → p < q → q ≤ n →
              Below (setValue a i index p) (setValue a i index q) := by
            intro p q low less bound
            rw [setValue_other a index (by omega), setValue_other a index (by omega)]
            exact sortedA p q (by omega) less bound
          have still : i + 1 ≤ n → ∀ k, 0 < k → k < j →
              (b k).value < (setValue a i index (i + 1)).value := by
            intro bound q low less
            rw [setValue_other a index (by omega)]
            have before := passed more q low less
            have step := sortedA i (i + 1) (Nat.le_refl i) (by omega) bound
            unfold Below at step
            omega
          obtain ⟨serial, front, behind⟩ := ih later positive limit (by omega) still
          refine ⟨serial.trans (setValue_serial a i k index), fun less => ?_, fun low bound => ?_⟩
          · rw [front (by omega), setValue_other a index (by omega)]
          · by_cases here : k = i
            · rw [front (by omega), here, setValue_same]
              exact found
            · have next := behind (by omega) bound
              rwa [setValue_other a index here] at next
        rw [if_pos more]
        by_cases open_ : j ≤ m
        · rw [if_pos open_]
          by_cases less : (a i).value < (b j).value
          · rw [if_pos less]
            refine settle 0 ⟨fun _ q low bound => ?_, fun nonzero => absurd rfl nonzero⟩
            by_cases before : q < j
            · have smaller := passed more q low before
              omega
            · have rising : (b j).value ≤ (b q).value := by
                by_cases same : q = j
                · exact Int.le_of_eq (by rw [same])
                · have step := sortedB j q positive (by omega) bound
                  unfold Below at step
                  omega
              omega
          · rw [if_neg less]
            by_cases equal : (a i).value = (b j).value
            · rw [if_pos equal]
              refine settle j ⟨fun zero => ?_, fun _ => ?_⟩
              · omega
              · exact ⟨j, rfl, positive, open_, equal.symm, passed more⟩
            · rw [if_neg equal]
              refine ih sortedA (by omega) (by omega) (by omega) fun bound q low before => ?_
              by_cases last : q = j
              · rw [last]
                omega
              · exact passed bound q low (by omega)
        · rw [if_neg open_]
          refine settle 0 ⟨fun _ q low bound => ?_, fun nonzero => absurd rfl nonzero⟩
          have smaller := passed more q low (by omega)
          omega
      · rw [if_neg more]
        exact ⟨rfl, fun _ => rfl, fun _ _ => by omega⟩

/-- Entry `j` of `member`: the serial number, negative where a class begins. -/
def memberEntry (b : Table Line) (j : Nat) : Int :=
  if 1 < j ∧ (b j).value = (b (j - 1)).value then (b j).serial else -(b j).serial

theorem squeeze_spec (fuel : Nat) {c : Table Int} (positive : 0 < j) (inside : j ≤ m)
    (enough : m + 1 ≤ fuel + j) (ended : (b (m + 1)).value ≠ (b m).value)
    (filled : ∀ k, 0 < k → k ≤ j → c k = memberEntry b k) :
    (∀ k, 0 < k → k ≤ m → squeeze m b fuel j c k = memberEntry b k) ∧
      squeeze m b fuel j c (m + 1) = -1 := by
  induction fuel generalizing j c with
  | zero => omega
  | succ fuel ih =>
      have extend (entry : Int) (right : entry = memberEntry b (j + 1)) :
          ∀ k, 0 < k → k ≤ j + 1 → c.set (j + 1) entry k = memberEntry b k := by
        intro k low bound
        by_cases last : k = j + 1
        · rw [last, Table.set_same, right]
        · rw [Table.set_other c entry last]
          exact filled k low (by omega)
      rw [squeeze]
      by_cases same : (b (j + 1)).value = (b j).value
      · have inner : j ≠ m := fun last => ended (last ▸ same)
        rw [if_pos same]
        refine ih (by omega) (by omega) (by omega) (extend _ ?_)
        rw [memberEntry, if_pos ⟨by omega, same⟩]
      · rw [if_neg same]
        by_cases more : j + 1 ≤ m
        · rw [if_pos more]
          refine ih (by omega) more (by omega) (extend _ ?_)
          rw [memberEntry, if_neg fun both => same both.2]
        · obtain rfl : j = m := by omega
          rw [if_neg more]
          refine ⟨fun k low bound => ?_, Table.set_same c (j + 1) _⟩
          rw [Table.set_other c _ (by omega)]
          exact filled k low bound

/-- The array `member`, entry by entry. -/
theorem members_spec (nonzero : ∀ j, 0 < j → j ≤ m → (b j).value ≠ 0) :
    (∀ j, 0 < j → j ≤ m → members m b j = memberEntry b j) ∧ members m b (m + 1) = -1 := by
  unfold members
  split
  · next some =>
      have entries (j : Nat) (low : 0 < j) (bound : j ≤ m) :
          memberEntry (setValue b (m + 1) 0) j = memberEntry b j := by
        unfold memberEntry
        rw [setValue_other b 0 (by omega), setValue_other b 0 (by omega)]
      have ended : (setValue b (m + 1) 0 (m + 1)).value ≠ (setValue b (m + 1) 0 m).value := by
        rw [setValue_same, setValue_other b 0 (by omega)]
        exact (nonzero m (by omega) (Nat.le_refl m)).symm
      have spec := squeeze_spec m (c := (Table.fill 0).set 1
        (-((setValue b (m + 1) 0 1).serial : Int))) (Nat.one_pos) some (by omega) ended
        (fun k low bound => by
          obtain rfl : k = 1 := by omega
          simp [memberEntry])
      exact ⟨fun j low bound => (spec.1 j low bound).trans (entries j low bound), spec.2⟩
  · next none =>
      obtain rfl : m = 0 := by omega
      exact ⟨fun j low bound => by omega, Table.set_same _ _ _⟩

theorem unsort_spec {f : Table Line} {l : Nat} (distinct : Distinct f) :
    ∀ i, 0 < i → i ≤ l → unsort f l (f i).serial = (f i).value := by
  unfold unsort
  induction l with
  | zero => intro i low bound; omega
  | succ l ih =>
      intro i low bound
      rw [List.range'_1_concat, List.foldl_append, Nat.add_comm 1 l]
      show Table.set _ (f (l + 1)).serial (f (l + 1)).value (f i).serial = (f i).value
      by_cases last : i = l + 1
      · rw [last, Table.set_same]
      · rw [Table.set_other _ _ fun same => last (distinct _ _ same)]
        exact ih i low (by omega)

/-! ## The classes as lists -/

/-- The entries of `member` behind entry `j` up to the next class. -/
inductive Rest (member : Table Int) : Nat → List Nat → Prop where
  | stop {j : Nat} (ends : member (j + 1) ≤ 0) : Rest member j []
  | more {j y : Nat} {ys : List Nat} (entry : member (j + 1) = y) (positive : 0 < y)
      (rest : Rest member (j + 1) ys) : Rest member j (y :: ys)

/-- Entry `j` begins a class with the given serial numbers. -/
structure Lists (member : Table Int) (j : Nat) (ys : List Nat) : Prop where
  head : ∃ y rest, ys = y :: rest ∧ member j = -(y : Int) ∧ Rest member j rest
  rising : ys.Pairwise (· < ·)

/-- The lines of a class behind entry `j`, in rising order of their serial numbers. -/
theorem rest_of_members {member : Table Int} {value : Int} (sorted : Sorted m b)
    (serials : ∀ j, 0 < j → j ≤ m → 0 < (b j).serial)
    (entries : ∀ j, 0 < j → j ≤ m → member j = memberEntry b j) (ended : member (m + 1) = -1)
    (count : Nat) (left : j + count = m) (positive : 0 < j) (here : (b j).value = value) :
    ∃ rest, Rest member j rest ∧ ((b j).serial :: rest).Pairwise (· < ·) ∧
      ∀ y, y ∈ rest ↔ ∃ k, j < k ∧ k ≤ m ∧ (b k).value = value ∧ (b k).serial = y := by
  induction count generalizing j with
  | zero =>
      obtain rfl : j = m := by omega
      refine ⟨[], .stop (by rw [ended]; decide), List.pairwise_singleton _ _, fun y => ?_⟩
      simp only [List.not_mem_nil, false_iff]
      rintro ⟨k, above, below, -⟩
      omega
  | succ count ih =>
      have step := sorted j (j + 1) positive (by omega) (by omega)
      by_cases same : (b (j + 1)).value = value
      · obtain ⟨rest, follows, rising, membership⟩ := ih (by omega) (by omega) same
        have entry : member (j + 1) = (b (j + 1)).serial := by
          rw [entries (j + 1) (by omega) (by omega), memberEntry, if_pos]
          exact ⟨by omega, by simpa [here] using same⟩
        have less : (b j).serial < (b (j + 1)).serial := by
          unfold Below at step
          omega
        refine ⟨(b (j + 1)).serial :: rest,
          .more entry (serials (j + 1) (by omega) (by omega)) follows, ?_, fun y => ?_⟩
        · refine List.pairwise_cons.mpr ⟨fun y listed => ?_, rising⟩
          rcases List.mem_cons.mp listed with rfl | later
          · exact less
          · exact Nat.lt_trans less ((List.pairwise_cons.mp rising).1 y later)
        · rw [List.mem_cons, membership]
          constructor
          · rintro (rfl | ⟨k, above, below, found⟩)
            · exact ⟨j + 1, by omega, by omega, same, rfl⟩
            · exact ⟨k, by omega, below, found⟩
          · rintro ⟨k, above, below, found, serial⟩
            by_cases next : k = j + 1
            · exact Or.inl (by rw [← serial, next])
            · exact Or.inr ⟨k, by omega, below, found, serial⟩
      · have entry : member (j + 1) ≤ 0 := by
          rw [entries (j + 1) (by omega) (by omega), memberEntry, if_neg]
          · omega
          · rintro ⟨-, equal⟩
            exact same (by simpa [here] using equal)
        refine ⟨[], .stop entry, List.pairwise_singleton _ _, fun y => ?_⟩
        simp only [List.not_mem_nil, false_iff]
        rintro ⟨k, above, below, found, -⟩
        have greater : value < (b (j + 1)).value := by
          unfold Below at step
          omega
        by_cases next : k = j + 1
        · exact same (by rw [← next]; exact found)
        · have later := sorted (j + 1) k (by omega) (by omega) below
          unfold Below at later
          omega

/-- The value of line `i`, counted from 1. -/
def valueAt (values : List Int) (i : Nat) : Int := (numbered values i).value

theorem valueAt_eq (positive : 0 < i) :
    valueAt values i = values.getD (i - 1) 0 := if_neg (by omega)

theorem valueAt_mem (positive : 0 < i) (inside : i ≤ values.length) :
    valueAt values i ∈ values := by
  have bound : i - 1 < values.length := by omega
  rw [valueAt_eq positive, List.getD_eq_getElem _ _ bound]
  exact List.getElem_mem bound

theorem rearranged_lines (moved : Table.Rearranged values.length (numbered values) a) :
    (∀ i, (a i).value = valueAt values (a i).serial) ∧
      (∀ i, 0 < i → i ≤ values.length → 0 < (a i).serial ∧ (a i).serial ≤ values.length) ∧
      ∀ y, 0 < y → y ≤ values.length → ∃ i, 0 < i ∧ i ≤ values.length ∧ (a i).serial = y := by
  obtain ⟨places, outside, entries⟩ := moved
  refine ⟨fun i => by rw [entries]; rfl, fun i low high => ?_, fun y low high => ?_⟩
  · rw [entries]
    exact Table.places_inside outside ⟨low, high⟩
  · have back : ∀ i, i = 0 ∨ values.length < i → places.symm i = i := by
      intro i away
      rw [Equiv.symm_apply_eq, outside i away]
    obtain ⟨lowPlace, highPlace⟩ := Table.places_inside back ⟨low, high⟩
    refine ⟨places.symm y, lowPlace, highPlace, ?_⟩
    rw [entries, Equiv.apply_symm_apply]
    rfl

theorem classesOf_spec {sfile0 sfile1 : List Int} (nonzero : ∀ value ∈ sfile1, value ≠ 0)
    (positive : 0 < i) (inside : i ≤ sfile0.length) :
    ((classesOf sfile0 sfile1).1 i = 0 ∧
        ∀ y, 0 < y → y ≤ sfile1.length → valueAt sfile1 y ≠ valueAt sfile0 i) ∨
      ∃ (j : Nat) (ys : List Nat), 0 < j ∧ j ≤ sfile1.length ∧ (classesOf sfile0 sfile1).1 i = j ∧
        Lists (classesOf sfile0 sfile1).2 j ys ∧
        ∀ y, y ∈ ys ↔ 0 < y ∧ y ≤ sfile1.length ∧ valueAt sfile1 y = valueAt sfile0 i := by
  obtain ⟨movedA, sortedA⟩ := sort_spec (n := sfile0.length) (numbered_distinct sfile0)
  obtain ⟨movedB, sortedB⟩ := sort_spec (n := sfile1.length) (numbered_distinct sfile1)
  have distinct := (numbered_distinct sfile0).rearranged movedA
  unfold classesOf
  dsimp only
  generalize sort (numbered sfile0) sfile0.length = a at *
  generalize sort (numbered sfile1) sfile1.length = b at *
  obtain ⟨valueA, -, placeA⟩ := rearranged_lines movedA
  obtain ⟨valueB, serialB, placeB⟩ := rearranged_lines movedB
  have merged := classify_spec sortedB (sfile0.length + sfile1.length + 1) (a := a)
    (i := 1) (j := 1) (fun p q low less bound => sortedA p q low less bound) (by omega)
    (by omega) (by omega) (fun _ k low less => by omega)
  generalize classify sfile0.length sfile1.length b (sfile0.length + sfile1.length + 1) a 1 1 =
    indexed at *
  have unsorted := unsort_spec (f := indexed) (l := sfile0.length) fun p q same => by
    rw [(merged p).1, (merged q).1] at same
    exact distinct p q same
  obtain ⟨place, low, high, serial⟩ := placeA i positive inside
  have class_ := unsorted place low high
  rw [(merged place).1, serial] at class_
  have index := (merged place).2.2 low high
  rw [valueA, serial, ← class_] at index
  by_cases absent : unsort indexed sfile0.length i = 0
  · refine Or.inl ⟨absent, fun y lowY highY => ?_⟩
    obtain ⟨k, lowK, highK, found⟩ := placeB y lowY highY
    have differs := index.absent absent k lowK highK
    rwa [valueB, found] at differs
  · obtain ⟨j, equal, lowJ, highJ, same, before⟩ := index.present absent
    obtain ⟨entries, ended⟩ := members_spec (m := sfile1.length) (b := b) fun k lowK highK => by
      obtain ⟨lowY, highY⟩ := serialB k lowK highK
      rw [valueB]
      exact nonzero _ (valueAt_mem lowY highY)
    obtain ⟨rest, follows, rising, membership⟩ :=
      rest_of_members sortedB (fun k lowK highK => (serialB k lowK highK).1) entries ended
        (sfile1.length - j) (by omega) lowJ same
    have first : members sfile1.length b j = -((b j).serial : Int) := by
      rw [entries j lowJ highJ, memberEntry, if_neg]
      rintro ⟨more, equalBefore⟩
      have less := before (j - 1) (by omega) (by omega)
      omega
    refine Or.inr ⟨j, (b j).serial :: rest, lowJ, highJ, equal,
      ⟨⟨_, rest, rfl, first, follows⟩, rising⟩, fun y => ?_⟩
    rw [List.mem_cons, membership]
    constructor
    · rintro (rfl | ⟨k, above, highK, found, rfl⟩)
      · obtain ⟨lowY, highY⟩ := serialB j lowJ highJ
        exact ⟨lowY, highY, by rw [← valueB, same]⟩
      · obtain ⟨lowY, highY⟩ := serialB k (by omega) highK
        exact ⟨lowY, highY, by rw [← valueB, found]⟩
    · rintro ⟨lowY, highY, found⟩
      obtain ⟨k, lowK, highK, serialK⟩ := placeB y lowY highY
      rw [← serialK, ← valueB] at found
      by_cases here : k = j
      · exact Or.inl (by rw [← serialK, here])
      · refine Or.inr ⟨k, ?_, highK, found, serialK⟩
        by_contra notAbove
        have less := before k lowK (by omega)
        omega

end Netbase.Diff.Classes
