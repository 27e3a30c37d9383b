import Netbase.Diff.Stone

/-!
# The match vector

What `prune`, `sort`, `equiv`, `unsort`, `stone` and `unravel` compute together:
a matching of equal lines that rises in both files, and with `D_MINIMAL` one that
is as long as possible.
-/

namespace Netbase.Diff.Matching

open Netbase.Lib
open Netbase.Lib.CommonSubsequence
open Netbase.Diff.Classes
open Netbase.Diff.Stone

/-! ## The common ends -/

theorem commonFront_spec (xs ys : List Int) :
    commonFront xs ys ≤ xs.length ∧ commonFront xs ys ≤ ys.length ∧
      xs.take (commonFront xs ys) = ys.take (commonFront xs ys) := by
  induction xs generalizing ys with
  | nil => simp [commonFront]
  | cons x xs ih =>
      cases ys with
      | nil => simp [commonFront]
      | cons y ys =>
          rw [commonFront]
          split
          · next same =>
              obtain ⟨left, right, equal⟩ := ih ys
              simp [left, right, same, equal]
          · simp

theorem commonFront_self (xs : List Int) : commonFront xs xs = xs.length := by
  induction xs with
  | nil => rfl
  | cons x xs ih => rw [commonFront, if_pos rfl, ih, List.length_cons]

theorem prune_self (xs : List Int) : prune xs xs = (xs.length, 0) := by
  rw [prune, commonFront_self, List.drop_length]
  rfl

/-- The two files split into a common front, what is left of them, and a common end. -/
structure Split (file0 file1 : List Int) (pref suff : Nat) : Prop where
  parts : ∃ front back, front.length = pref ∧ back.length = suff ∧
    file0 = front ++ shortened file0 pref suff ++ back ∧
    file1 = front ++ shortened file1 pref suff ++ back

theorem split_end {file : List Int} {pref suff : Nat} (back : List Int)
    (ends : (file.drop pref).reverse.take suff = back.reverse) :
    file = file.take pref ++ shortened file pref suff ++ back := by
  have last : (file.drop pref).drop (file.length - pref - suff) = back := by
    have turned := congrArg List.reverse ends
    rwa [List.reverse_reverse, List.reverse_take, List.length_reverse, List.reverse_reverse,
      List.length_drop] at turned
  rw [shortened, List.append_assoc, ← last, List.take_append_drop, List.take_append_drop]

theorem prune_split (file0 file1 : List Int) :
    Split file0 file1 (prune file0 file1).1 (prune file0 file1).2 := by
  obtain ⟨left, right, front⟩ := commonFront_spec file0 file1
  obtain ⟨leftEnd, rightEnd, back⟩ := commonFront_spec
    (file0.drop (commonFront file0 file1)).reverse (file1.drop (commonFront file0 file1)).reverse
  unfold prune
  dsimp only
  generalize commonFront file0 file1 = pref at *
  generalize commonFront (file0.drop pref).reverse (file1.drop pref).reverse = suff at *
  rw [List.length_reverse, List.length_drop] at leftEnd rightEnd
  refine ⟨file0.take pref, ((file0.drop pref).reverse.take suff).reverse, ?_, ?_, ?_, ?_⟩
  · simp [left]
  · simp
    omega
  · exact split_end _ (List.reverse_reverse _).symm
  · rw [front]
    exact split_end _ (by rw [List.reverse_reverse, back])

/-! ## Unravelling -/

theorem followChain_spec {clist : List Cand} (pref fuel : Nat) {p : Nat} {pairs : List (Nat × Nat)}
    (J : Table Nat) (chain : Chain clist p pairs) (descends : Descends pairs)
    (enough : pairs.length < fuel) :
    (∀ pair ∈ pairs, followChain clist pref fuel p J (pair.1 + pref) = pair.2 + pref) ∧
      ∀ i, (∀ pair ∈ pairs, i ≠ pair.1 + pref) → followChain clist pref fuel p J i = J i := by
  induction chain generalizing fuel J with
  | root inside zero =>
      obtain ⟨fuel, rfl⟩ : ∃ less, fuel = less + 1 := ⟨fuel - 1, by omega⟩
      rw [followChain, if_pos zero]
      exact ⟨by simp, fun _ _ => rfl⟩
  | @link p pairs inside nonzero back rest ih =>
      obtain ⟨fuel, rfl⟩ : ∃ less, fuel = less + 1 := ⟨fuel - 1, by omega⟩
      rw [followChain, if_neg nonzero]
      obtain ⟨earlier, later⟩ := List.pairwise_cons.mp descends
      obtain ⟨recorded, untouched⟩ := ih fuel
        (J.set ((candAt clist p).x + pref) ((candAt clist p).y + pref)) later
        (by simpa using enough)
      constructor
      · intro pair listed
        rcases List.mem_cons.mp listed with rfl | inRest
        · rw [untouched _ fun other below => ?_, Table.set_same]
          have less := (earlier other below).1
          omega
        · exact recorded pair inRest
      · intro i away
        rw [untouched i fun other below => away other (List.mem_cons_of_mem _ below),
          Table.set_other _ _ (away _ List.mem_cons_self)]

/-- The entries of `J`: the common ends, the pairs of a chain, and zeros. -/
structure Recorded (len0 len1 pref suff : Nat) (pairs : List (Nat × Nat)) (J : Table Nat) :
    Prop where
  front : ∀ i ≤ pref, J i = i
  back : ∀ i, len0 - suff < i → pref < i → J i = i + len1 - len0
  pair : ∀ pair ∈ pairs, J (pair.1 + pref) = pair.2 + pref
  zero : ∀ i, pref < i → i ≤ len0 - suff → (∀ pair ∈ pairs, i ≠ pair.1 + pref) → J i = 0

/-- `J` comes from a chain of matches between the shortened files. -/
theorem matchVector_recorded (bound : Nat) (file0 : List Int) {file1 : List Int}
    (nonzero : ∀ value ∈ file1, value ≠ 0) :
    ∃ pairs, Recorded file0.length file1.length (prune file0 file1).1 (prune file0 file1).2 pairs
        (matchVector bound file0 file1) ∧
      (let sfile0 := shortened file0 (prune file0 file1).1 (prune file0 file1).2
       let sfile1 := shortened file1 (prune file0 file1).1 (prune file0 file1).2
       Matches (SameValue sfile0 sfile1) sfile0.length pairs.length pairs ∧
        (sfile1.length < bound → Longest sfile0 sfile1 pairs.length)) := by
  unfold matchVector
  generalize prune file0 file1 = ends
  obtain ⟨pref, suff⟩ := ends
  dsimp only
  generalize shorten0 : shortened file0 pref suff = sfile0
  generalize shorten1 : shortened file1 pref suff = sfile1
  have values : ∀ value ∈ sfile1, value ≠ 0 := fun value listed => by
    rw [← shorten1] at listed
    exact nonzero value (List.mem_of_mem_drop (List.mem_of_mem_take listed))
  have length0 : sfile0.length = file0.length - pref - suff := by
    rw [← shorten0, shortened, List.length_take, List.length_drop]
    omega
  obtain ⟨valid, reached⟩ := stone_spec sfile0 values bound
  generalize stone bound sfile0.length sfile1.length (classesOf sfile0 sfile1).1
    (classesOf sfile0 sfile1).2 = state at valid reached
  obtain ⟨pairs, chain, matches_⟩ := valid.chains state.k (Nat.le_refl _)
  have inside (pair : Nat × Nat) (listed : pair ∈ pairs) :
      0 < pair.1 ∧ pair.1 ≤ file0.length - pref - suff := by
    have same := (matches_.good pair listed).1
    exact ⟨same.low0, length0 ▸ same.high0⟩
  obtain ⟨recorded, untouched⟩ := followChain_spec pref state.clist.length
    (endMatches file0.length file1.length pref suff) chain matches_.descends
    (Nat.lt_of_le_of_lt chain.length_le chain.inside)
  refine ⟨pairs, ⟨fun i low => ?_, fun i high above => ?_, recorded, fun i low high away => ?_⟩,
    ?_, ?_⟩
  · refine (untouched i fun pair listed => ?_).trans (if_pos low)
    have := inside pair listed
    omega
  · refine (untouched i fun pair listed => ?_).trans ?_
    · have := inside pair listed
      omega
    · exact (if_neg (by omega)).trans (if_pos high)
  · exact (untouched i away).trans ((if_neg (by omega)).trans (if_neg (by omega)))
  · rw [matches_.length]
    exact matches_
  · intro wide
    rw [matches_.length]
    have common (l : Nat) : Common sfile0 sfile1 l ↔ l ≤ state.k := by
      have whole := (reached wide l sfile1.length).symm
      rw [List.take_length] at whole
      refine whole.trans ⟨fun both => both.1, fun low => ⟨low, ?_⟩⟩
      obtain ⟨others, chainOther, matchesOther⟩ := valid.chains l low
      rw [State.y, chainOther.top]
      cases others with
      | nil => exact Nat.zero_le _
      | cons last _ => exact (matchesOther.good last List.mem_cons_self).1.high1
    exact ⟨(common state.k).mpr (Nat.le_refl _), fun l reachedL => (common l).mp reachedL⟩

/-! ## The result -/

/-- The nonzero entries of `J` rise, and each pairs two lines of equal value. -/
structure IsMatching (file0 file1 : List Int) (J : Table Nat) : Prop where
  rising : ∀ i k, 0 < i → i < k → k ≤ file0.length → J i ≠ 0 → J k ≠ 0 → J i < J k
  inside : ∀ i, 0 < i → i ≤ file0.length → J i ≤ file1.length
  equal : ∀ i, 0 < i → i ≤ file0.length → J i ≠ 0 → file0[i - 1]? = file1[J i - 1]?

/-- The number of nonzero entries of `J`. -/
def matched (J : Table Nat) (len0 : Nat) : Nat :=
  ((List.range' 1 len0).filter fun i => J i ≠ 0).length

theorem Descends.lt_of_lt {pairs : List (Nat × Nat)} (descends : Descends pairs)
    {first second : Nat × Nat} (inFirst : first ∈ pairs) (inSecond : second ∈ pairs)
    (less : first.1 < second.1) : first.2 < second.2 := by
  induction pairs with
  | nil => cases inFirst
  | cons last pairs ih =>
      obtain ⟨earlier, rest⟩ := List.pairwise_cons.mp descends
      rcases List.mem_cons.mp inFirst with rfl | firstRest
      · rcases List.mem_cons.mp inSecond with rfl | secondRest
        · exact absurd less (Nat.lt_irrefl _)
        · have := (earlier second secondRest).1
          omega
      · rcases List.mem_cons.mp inSecond with rfl | secondRest
        · exact (earlier first firstRest).2
        · exact ih rest firstRest secondRest

section

variable {file0 file1 : List Int} {pref suff : Nat} {pairs : List (Nat × Nat)} {J : Table Nat}

theorem Recorded.cases (recorded : Recorded file0.length file1.length pref suff pairs J) {i : Nat}
    (nonzero : J i ≠ 0) :
    (i ≤ pref ∧ J i = i) ∨
      (pref < i ∧ file0.length - suff < i ∧ J i = i + file1.length - file0.length) ∨
      ∃ pair ∈ pairs, i = pair.1 + pref ∧ J i = pair.2 + pref := by
  by_cases front : i ≤ pref
  · exact Or.inl ⟨front, recorded.front i front⟩
  · by_cases back : file0.length - suff < i
    · exact Or.inr (Or.inl ⟨by omega, back, recorded.back i back (by omega)⟩)
    · by_cases paired : ∃ pair ∈ pairs, i = pair.1 + pref
      · obtain ⟨pair, listed, rfl⟩ := paired
        exact Or.inr (Or.inr ⟨pair, listed, rfl, recorded.pair pair listed⟩)
      · exact absurd (recorded.zero i (by omega) (by omega)
          fun pair listed same => paired ⟨pair, listed, same⟩) nonzero

theorem Split.lengths (split : Split file0 file1 pref suff) :
    file0.length = pref + (shortened file0 pref suff).length + suff ∧
      file1.length = pref + (shortened file1 pref suff).length + suff := by
  obtain ⟨front, back, lengthFront, lengthBack, whole0, whole1⟩ := split.parts
  have length0 := congrArg List.length whole0
  have length1 := congrArg List.length whole1
  simp only [List.length_append, lengthFront, lengthBack] at length0 length1
  exact ⟨length0, length1⟩

theorem getElem?_front {front middle back : List Int} {k : Nat} (inside : k < front.length) :
    (front ++ middle ++ back)[k]? = front[k]? := by
  rw [List.append_assoc, List.getElem?_append_left inside]

theorem getElem?_middle {front middle back : List Int} {k : Nat} (inside : k < middle.length) :
    (front ++ middle ++ back)[k + front.length]? = middle[k]? := by
  rw [List.append_assoc, List.getElem?_append_right (Nat.le_add_left _ _), Nat.add_sub_cancel,
    List.getElem?_append_left inside]

theorem getElem?_back {front middle back : List Int} (k : Nat) :
    (front ++ middle ++ back)[k + middle.length + front.length]? = back[k]? := by
  rw [List.getElem?_append_right (by rw [List.length_append]; omega), List.length_append]
  congr 1
  omega

theorem Recorded.isMatching (split : Split file0 file1 pref suff)
    (recorded : Recorded file0.length file1.length pref suff pairs J)
    (matches_ : Matches (SameValue (shortened file0 pref suff) (shortened file1 pref suff))
      (shortened file0 pref suff).length pairs.length pairs) : IsMatching file0 file1 J := by
  obtain ⟨length0, length1⟩ := split.lengths
  have pairInside (pair : Nat × Nat) (listed : pair ∈ pairs) :=
    (matches_.good pair listed).1
  constructor
  · intro i k low less high nonzeroI nonzeroK
    rcases recorded.cases nonzeroI with ⟨frontI, isI⟩ | ⟨aboveI, backI, isI⟩ | ⟨pairI, inI, atI, isI⟩
    · rcases recorded.cases nonzeroK with ⟨-, isK⟩ | ⟨-, backK, isK⟩ | ⟨pairK, inK, -, isK⟩
      · omega
      · omega
      · have := (pairInside pairK inK).low1
        omega
    · rcases recorded.cases nonzeroK with ⟨frontK, -⟩ | ⟨-, -, isK⟩ | ⟨pairK, inK, atK, -⟩
      · omega
      · omega
      · have := (pairInside pairK inK).high0
        omega
    · have same := pairInside pairI inI
      have highI := same.high1
      rcases recorded.cases nonzeroK with ⟨frontK, -⟩ | ⟨-, backK, isK⟩ | ⟨pairK, inK, atK, isK⟩
      · omega
      · omega
      · have order := Descends.lt_of_lt matches_.descends inI inK (by omega)
        omega
  · intro i low high
    by_cases zero : J i = 0
    · omega
    · rcases recorded.cases zero with ⟨front, isI⟩ | ⟨above, back, isI⟩ | ⟨pair, listed, atI, isI⟩
      · omega
      · omega
      · have := (pairInside pair listed).high1
        omega
  · intro i low high nonzero
    obtain ⟨front, back, rfl, rfl, whole0, whole1⟩ := split.parts
    generalize shortened file0 front.length back.length = sfile0 at *
    generalize shortened file1 front.length back.length = sfile1 at *
    rcases recorded.cases nonzero with ⟨inFront, isI⟩ | ⟨above, inBack, isI⟩ | ⟨pair, listed, atI, isI⟩
    · rw [whole0, whole1, isI, getElem?_front (by omega), getElem?_front (by omega)]
    · obtain ⟨k, rfl⟩ : ∃ k, i = k + sfile0.length + front.length + 1 :=
        ⟨i - 1 - sfile0.length - front.length, by omega⟩
      have index : J (k + sfile0.length + front.length + 1) - 1 =
          k + sfile1.length + front.length := by omega
      rw [index, Nat.add_sub_cancel, whole0, whole1, getElem?_back, getElem?_back]
    · have same := pairInside pair listed
      have index0 : i - 1 = pair.1 - 1 + front.length := by have := same.low0; omega
      have index1 : J i - 1 = pair.2 - 1 + front.length := by have := same.low1; omega
      have inside0 : pair.1 - 1 < sfile0.length := by have := same.low0; have := same.high0; omega
      have inside1 : pair.2 - 1 < sfile1.length := by have := same.low1; have := same.high1; omega
      rw [index1, index0, whole0, whole1, getElem?_middle inside0, getElem?_middle inside1,
        valueAt_getElem? _ inside0, valueAt_getElem? _ inside1, Nat.sub_add_cancel same.low0,
        Nat.sub_add_cancel same.low1, same.same]

/-- The nonzero entries are the common ends and the pairs. -/
theorem Recorded.matched_eq (split : Split file0 file1 pref suff)
    (recorded : Recorded file0.length file1.length pref suff pairs J)
    (matches_ : Matches (SameValue (shortened file0 pref suff) (shortened file1 pref suff))
      (shortened file0 pref suff).length pairs.length pairs) :
    matched J file0.length = pref + pairs.length + suff := by
  obtain ⟨length0, length1⟩ := split.lengths
  have pairInside (pair : Nat × Nat) (listed : pair ∈ pairs) :=
    (matches_.good pair listed).1
  have distinct : (pairs.map fun pair => pair.1 + pref).Nodup := by
    refine List.pairwise_map.mpr (matches_.descends.imp fun falls same => ?_)
    omega
  have middle (i : Nat) (listed : i ∈ pairs.map fun pair => pair.1 + pref) :
      ∃ pair ∈ pairs, pair.1 + pref = i ∧ pref < i ∧ i ≤ file0.length - suff := by
    obtain ⟨pair, inPairs, rfl⟩ := List.mem_map.mp listed
    have same := pairInside pair inPairs
    have low := same.low0
    have high := same.high0
    exact ⟨pair, inPairs, rfl, by omega, by omega⟩
  have ends : (List.range' 1 pref ++ (pairs.map fun pair => pair.1 + pref) ++
      List.range' (file0.length - suff + 1) suff).Nodup := by
    refine List.nodup_append.mpr ⟨List.nodup_append.mpr ⟨List.nodup_range', distinct, ?_⟩,
      List.nodup_range', ?_⟩
    · rintro i inFront k inMiddle rfl
      obtain ⟨-, -, -, low, -⟩ := middle i inMiddle
      have := List.mem_range'_1.mp inFront
      omega
    · rintro i inFirst k inBack rfl
      have := List.mem_range'_1.mp inBack
      rcases List.mem_append.mp inFirst with inFront | inMiddle
      · have := List.mem_range'_1.mp inFront
        omega
      · obtain ⟨-, -, -, -, high⟩ := middle i inMiddle
        omega
  have same : ((List.range' 1 file0.length).filter fun i => J i ≠ 0).Perm
      (List.range' 1 pref ++ (pairs.map fun pair => pair.1 + pref) ++
        List.range' (file0.length - suff + 1) suff) := by
    refine (List.perm_ext_iff_of_nodup (List.Pairwise.filter _ List.nodup_range') ends).mpr fun i => ?_
    simp only [List.mem_filter, List.mem_append, List.mem_range'_1, decide_eq_true_eq]
    constructor
    · rintro ⟨inside, nonzero⟩
      rcases recorded.cases nonzero with ⟨front, -⟩ | ⟨above, back, -⟩ | ⟨pair, listed, rfl, -⟩
      · exact Or.inl (Or.inl (by omega))
      · exact Or.inr (by omega)
      · exact Or.inl (Or.inr (List.mem_map.mpr ⟨pair, listed, rfl⟩))
    · rintro ((front | paired) | back)
      · exact ⟨by omega, by rw [recorded.front i (by omega)]; omega⟩
      · obtain ⟨pair, listed, rfl, low, high⟩ := middle i paired
        exact ⟨by omega, by
          have := (pairInside pair listed).low1
          rw [recorded.pair pair listed]
          omega⟩
      · exact ⟨by omega, by rw [recorded.back i (by omega) (by omega)]; omega⟩
  rw [matched, same.length_eq]
  simp [Nat.add_assoc]

end

/-- The hash values that `prepare` reads: no value is 0, and `len` is an `int`. -/
structure Hashed where
  values : List Int
  nonzero : ∀ value ∈ values, value ≠ 0
  fits : values.length ≤ 2147483647

theorem matchVector_isMatching (bound : Nat) (file0 : List Int) {file1 : List Int}
    (nonzero : ∀ value ∈ file1, value ≠ 0) :
    IsMatching file0 file1 (matchVector bound file0 file1) := by
  obtain ⟨pairs, recorded, matches_, -⟩ := matchVector_recorded bound file0 nonzero
  exact recorded.isMatching (prune_split file0 file1) matches_

theorem matchVector_self (bound : Nat) {file : List Int} (nonzero : ∀ value ∈ file, value ≠ 0) {i : Nat}
    (inside : i ≤ file.length) : matchVector bound file file i = i := by
  obtain ⟨pairs, recorded, -⟩ := matchVector_recorded bound file nonzero
  rw [prune_self] at recorded
  exact recorded.front i inside

/--
The match vector rises and pairs equal values whatever the bound; with
`D_MINIMAL` it is a longest common subsequence.
-/
theorem matchVector_longest (file0 file1 : Hashed) :
    (∀ bound, IsMatching file0.values file1.values
        (matchVector bound file0.values file1.values)) ∧
      Longest file0.values file1.values
        (matched (matchVector (tryBound true file0.values.length) file0.values file1.values)
          file0.values.length) := by
  have split := prune_split file0.values file1.values
  constructor
  · exact fun bound => matchVector_isMatching bound file0.values file1.nonzero
  · obtain ⟨pairs, recorded, matches_, longest⟩ :=
      matchVector_recorded (tryBound true file0.values.length) file0.values file1.nonzero
    rw [recorded.matched_eq split matches_]
    have lengths := split.lengths
    have fits := file1.fits
    obtain ⟨front, back, lengthFront, lengthBack, whole0, whole1⟩ := split.parts
    have wide : (shortened file1.values (prune file0.values file1.values).1
        (prune file0.values file1.values).2).length < tryBound true file0.values.length := by
      show _ < 4294967295
      omega
    have grown := ((longest wide).append_left front).append_right back
    rwa [← whole0, ← whole1, lengthFront, lengthBack] at grown

end Netbase.Diff.Matching
