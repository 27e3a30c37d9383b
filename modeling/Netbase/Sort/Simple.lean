import Mathlib.Data.List.Lex
import Netbase.Lib.Arranged
import Netbase.Text.Lines

/-!
# Records of sort and the insertion sort

A record is its key followed by its line.  Short blocks are sorted by
insertion from behind; when only one record of each key is to be written, a
duplicate loses its key length and goes below the record it repeats.
-/

namespace Netbase.Sort

open Netbase.Text Netbase.Lib

/-- A record: the key is the front of its data. -/
structure Rec where
  keylen : Int
  data : List Byte
  deriving DecidableEq

instance : Inhabited Rec := ⟨⟨0, []⟩⟩

namespace Rec

/-- The bytes of the key. -/
def key (hdr : Rec) : List Nat := (hdr.data.take hdr.keylen.toNat).map UInt8.toNat

def byteAt (hdr : Rec) (i : Nat) : Nat := (hdr.data.getD i 0).toNat

/-- A duplicate is not written out. -/
def dup (hdr : Rec) : Rec := { hdr with keylen := -1 }

/-- The key lies in the data. -/
structure Whole (hdr : Rec) : Prop where
  nonneg : 0 ≤ hdr.keylen
  inside : hdr.keylen ≤ hdr.data.length

end Rec

/-- Records are ordered by their keys, and struck out by their key length. -/
def records : Marking Rec (List Nat) where
  key := Rec.key
  live hdr := hdr.keylen ≠ -1
  strike := Rec.dup
  strike_live hdr := by simp [Rec.dup]

/-! ## The insertion sort -/

/-- The difference of the first bytes that differ from `i` on, or of the lengths. -/
def compare (s t : Rec) : Nat → Nat → Int
  | 0, _ => s.keylen - t.keylen
  | fuel + 1, i =>
      if s.keylen ≤ i ∨ t.keylen ≤ i then s.keylen - t.keylen
      else
        let r : Int := s.byteAt i - t.byteAt i
        if r ≠ 0 then r else compare s t fuel (i + 1)

/-- The record `akh` goes down over the `k` records above `a`. -/
def insertLoop (unique : Bool) (data_index a : Nat) (akh : Rec) : Nat → List Rec → List Rec
  | 0, arr => arr.set a akh
  | k + 1, arr =>
      let t := arr.getD (a + k) default
      let r := compare akh t akh.data.length data_index
      if t.keylen ≠ -1 ∧ 0 ≤ r then
        if r = 0 ∧ unique = true then (arr.set (a + k + 1) t).set (a + k) akh.dup
        else arr.set (a + k + 1) akh
      else insertLoop unique data_index a akh k (arr.set (a + k + 1) t)

/-- The `n` records from `a` on are sorted. -/
def simplesort (unique : Bool) (arr : List Rec) (a n data_index : Nat) : List Rec :=
  if n ≤ 1 then arr
  else
    (List.range' 1 (n - 1)).foldl
      (fun arr k => insertLoop unique data_index a (arr.getD (a + k) default) k arr) arr

/-! ## Comparison -/

/-- A record whose key starts with `w`. -/
structure Starts (w : List Nat) (hdr : Rec) : Prop where
  whole : hdr.Whole
  front : w <+: hdr.key

theorem Rec.Whole.length_key {hdr : Rec} (whole : hdr.Whole) :
    (hdr.key.length : Int) = hdr.keylen := by
  have nonneg := whole.nonneg
  have inside := whole.inside
  rw [Rec.key, List.length_map, List.length_take]
  omega

theorem Rec.Whole.live {hdr : Rec} (whole : hdr.Whole) : records.live hdr = true := by
  have nonneg := whole.nonneg
  simp only [records, ne_eq, decide_not, Bool.not_eq_true', decide_eq_false_iff_not]
  omega

variable {w : List Nat}

theorem Rec.Whole.byteAt_eq {hdr : Rec} {x : List Nat} {c : Nat} (split : hdr.key = w ++ c :: x) :
    hdr.byteAt w.length = c := by
  have found : hdr.key[w.length]? = some c := by rw [split]; simp
  rw [Rec.key, List.getElem?_map, Option.map_eq_some_iff] at found
  obtain ⟨b, taken, rfl⟩ := found
  rw [List.getElem?_take] at taken
  split at taken
  · rw [Rec.byteAt, List.getD_eq_getElem?_getD, taken, Option.getD_some]
  · cases taken

theorem append_lt_append {x y : List Nat} : w ++ x < w ++ y ↔ x < y := by
  induction w with
  | nil => rfl
  | cons c w ih => simpa [List.cons_append, List.cons_lt_cons_iff] using ih

/-- Behind a common front the comparison has the sign of the order of the keys. -/
theorem compare_tail {s t : Rec} (whole : s.Whole) (whole' : t.Whole) :
    ∀ (fuel : Nat) {w x y : List Nat}, s.key = w ++ x → t.key = w ++ y → x.length ≤ fuel →
      (compare s t fuel w.length = 0 ↔ x = y) ∧ (compare s t fuel w.length < 0 ↔ x < y) := by
  intro fuel
  induction fuel with
  | zero =>
      intro w x y split split' short
      obtain rfl : x = [] := List.length_eq_zero_iff.mp (Nat.le_zero.mp short)
      have length := whole.length_key
      have length' := whole'.length_key
      rw [split, List.length_append] at length
      rw [split', List.length_append] at length'
      rw [compare]
      cases y with
      | nil => simp at length length' ⊢; omega
      | cons d y => simp at length length' ⊢; omega
  | succ fuel ih =>
      intro w x y split split' short
      have length := whole.length_key
      have length' := whole'.length_key
      rw [split, List.length_append] at length
      rw [split', List.length_append] at length'
      rw [compare]
      cases x with
      | nil =>
          rw [if_pos (Or.inl (by simp at length; omega))]
          cases y with
          | nil => simp at length length' ⊢; omega
          | cons d y => simp at length length' ⊢; omega
      | cons c x =>
          cases y with
          | nil =>
              rw [if_pos (Or.inr (by simp at length'; omega))]
              simp at length length' ⊢
              omega
          | cons d y =>
              simp only [List.length_cons] at length length' short
              rw [if_neg (by omega), Rec.Whole.byteAt_eq split, Rec.Whole.byteAt_eq split']
              by_cases same : c = d
              · subst same
                have step := ih (w := w ++ [c]) (x := x) (y := y) (by simpa using split)
                  (by simpa using split') (by omega)
                rw [List.length_append, List.length_singleton] at step
                simpa [List.cons_lt_cons_iff] using step
              · have other : (c : Int) - d ≠ 0 := by omega
                simp only [other, ne_eq, not_false_eq_true, if_true, false_iff, List.cons.injEq,
                  List.cons_lt_cons_iff]
                omega

theorem compare_sign {s t : Rec} (starts : Starts w s) (starts' : Starts w t) :
    (compare s t s.data.length w.length = 0 ↔ s.key = t.key) ∧
      (compare s t s.data.length w.length < 0 ↔ s.key < t.key) := by
  obtain ⟨x, split⟩ := starts.front
  obtain ⟨y, split'⟩ := starts'.front
  have short : x.length ≤ s.data.length := by
    have length := starts.whole.length_key
    have inside := starts.whole.inside
    rw [← split, List.length_append] at length
    omega
  have signs := compare_tail starts.whole starts'.whole s.data.length split.symm split'.symm short
  rw [← split, ← split', append_lt_append, List.append_cancel_left_eq]
  exact signs

/-! ## Insertion -/

theorem insertLoop_insertBack (unique : Bool) {akh : Rec} (starts : Starts w akh) (pre : List Rec) :
    ∀ (k : Nat) (front : List Rec) (hole : Rec) (post : List Rec), front.length = k →
      (∀ t ∈ front, records.live t = true → Starts w t) →
      insertLoop unique w.length pre.length akh k (pre ++ front ++ hole :: post) =
        pre ++ (records.insertBack unique akh front.reverse).reverse ++ post := by
  intro k
  induction k with
  | zero =>
      intro front hole post length _
      obtain rfl := List.length_eq_zero_iff.mp length
      simp [insertLoop, Marking.insertBack]
  | succ k ih =>
      intro front hole post length alike
      obtain ⟨front, t, rfl⟩ : ∃ others last, front = others ++ [last] := by
        rcases List.eq_nil_or_concat front with rfl | ⟨others, last, rfl⟩
        · cases length
        · exact ⟨others, last, List.concat_eq_append⟩
      simp only [List.length_append, List.length_singleton, Nat.add_right_cancel_iff] at length
      subst length
      have found : (pre ++ (front ++ [t]) ++ hole :: post).getD (pre.length + front.length) default
          = t := by
        simp [List.getD_eq_getElem?_getD]
      have shifted (x : Rec) : (pre ++ (front ++ [t]) ++ hole :: post).set
          (pre.length + front.length + 1) x = pre ++ front ++ t :: x :: post := by
        simp [Nat.add_assoc]
      have lowered (x y : Rec) : (pre ++ front ++ t :: x :: post).set
          (pre.length + front.length) y = pre ++ front ++ y :: x :: post := by
        simp
      have deeper := ih front t (t :: post) rfl fun t' member =>
        alike t' (List.mem_append_left _ member)
      rw [insertLoop, found, shifted, shifted, lowered, deeper, List.reverse_append,
        List.reverse_singleton, List.singleton_append, Marking.insertBack]
      by_cases alive : records.live t = true
      · have signs : (compare akh t akh.data.length w.length = 0 ↔ records.key akh = records.key t) ∧
            (compare akh t akh.data.length w.length < 0 ↔ records.key akh < records.key t) :=
          compare_sign starts (alike t (by simp) alive)
        have alive' : t.keylen ≠ -1 := by simpa [records] using alive
        by_cases below : records.key akh < records.key t
        · rw [if_neg (fun both => absurd (signs.2.mpr below) (not_lt.mpr both.2)),
            if_neg (fun both => both.2 below)]
          simp
        · have above : t.keylen ≠ -1 ∧ 0 ≤ compare akh t akh.data.length w.length :=
            ⟨alive', not_lt.mp fun less => below (signs.2.mp less)⟩
          have reached : records.live t = true ∧ ¬ records.key akh < records.key t := ⟨alive, below⟩
          rw [if_pos above, if_pos reached]
          by_cases same : unique = true ∧ records.key akh = records.key t
          · have equal : compare akh t akh.data.length w.length = 0 ∧ unique = true :=
              ⟨signs.1.mpr same.2, same.1⟩
            rw [if_pos equal, if_pos same]
            simp [records]
          · have other : ¬ (compare akh t akh.data.length w.length = 0 ∧ unique = true) :=
              fun both => same ⟨both.2, signs.1.mp both.1⟩
            rw [if_neg other, if_neg same]
            simp
      · have dead : ¬ t.keylen ≠ -1 := by simpa [records] using alive
        rw [if_neg (fun both => dead both.1), if_neg (fun both => alive both.1)]
        simp

theorem simplesort_loop (unique : Bool) (pre post : List Rec) :
    ∀ (rest front out : List Rec), records.Arranged unique front out →
      (∀ hdr ∈ front ++ rest, Starts w hdr) →
      ∃ out', (List.range' front.length rest.length).foldl
          (fun arr k => insertLoop unique w.length pre.length
            (arr.getD (pre.length + k) default) k arr) (pre ++ out ++ (rest ++ post)) =
          pre ++ out' ++ post ∧ records.Arranged unique (front ++ rest) out' := by
  intro rest
  induction rest with
  | nil =>
      intro front out arranged _
      exact ⟨out, by simp, by simpa using arranged⟩
  | cons hdr rest ih =>
      intro front out arranged starts
      have same := arranged.length_eq
      have first := starts hdr (by simp)
      have found : (pre ++ out ++ (hdr :: rest ++ post)).getD (pre.length + front.length) default =
          hdr := by
        simp [List.getD_eq_getElem?_getD, ← same]
      have inserted := insertLoop_insertBack unique first pre front.length out hdr (rest ++ post)
        same fun t member alive =>
          starts t (List.mem_append_left _ (arranged.mem_input member alive))
      have next := arranged.insert first.whole.live
      obtain ⟨out', run, arranged'⟩ := ih (front ++ [hdr]) _ next (by simpa using starts)
      refine ⟨out', ?_, by simpa using arranged'⟩
      rw [List.length_cons, List.range'_succ, List.foldl_cons, found, List.cons_append, inserted]
      simpa using run

theorem simplesort_arranged (unique : Bool) (pre block post : List Rec)
    (starts : ∀ hdr ∈ block, Starts w hdr) :
    ∃ out, simplesort unique (pre ++ block ++ post) pre.length block.length w.length =
        pre ++ out ++ post ∧ records.Arranged unique block out := by
  cases block with
  | nil => exact ⟨[], rfl, Marking.arranged_nil⟩
  | cons hdr rest =>
      have one : records.Arranged unique [hdr] [hdr] :=
        Marking.arranged_singleton (starts hdr (by simp)).whole.live
      cases rest with
      | nil => exact ⟨[hdr], rfl, one⟩
      | cons next rest =>
          obtain ⟨out, run, arranged⟩ := simplesort_loop unique pre post (next :: rest) [hdr] [hdr]
            one starts
          refine ⟨out, ?_, arranged⟩
          rw [simplesort, if_neg (by simp)]
          simpa using run

end Netbase.Sort
