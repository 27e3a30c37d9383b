import Mathlib.Logic.Function.Basic
import Netbase.Lib.EndMark
import Netbase.Sort.Field
import Netbase.Text.Ctype

/-!
# Weights

`settables` fills the four weight tables and the two masks in one pass over the
byte values.  The record delimiter gets no weight of its own: its place in the tables
is the mark that ends a field in a key.
-/

namespace Netbase.Sort

open Netbase.Lib Netbase.Text

structure Tables where
  ascii : Byte → Byte
  Rascii : Byte → Byte
  Ftable : Byte → Byte
  RFtable : Byte → Byte
  itable : Byte → Bool
  dtable : Byte → Bool

/-- The tables, with `next_weight` and `rev_weight`. -/
structure Setting extends Tables where
  next_weight : Int
  rev_weight : Int

/-- Before the loop; the tables are static and hold zeros. -/
def Setting.start (REC_D : Byte) : Setting where
  ascii := Function.update (fun _ => 0) REC_D 0
  Rascii := Function.update (fun _ => 0) REC_D 255
  Ftable := Function.update (fun _ => 0) REC_D 0
  RFtable := Function.update (fun _ => 0) REC_D 255
  itable := fun _ => false
  dtable := fun _ => false
  next_weight := 1
  rev_weight := 254

/-- The body of the loop. -/
def Setting.step (REC_D : Byte) (s : Setting) (i : Byte) : Setting :=
  if i = REC_D then s
  else
    let next : Byte := UInt8.ofInt s.next_weight
    let rev : Byte := UInt8.ofInt s.rev_weight
    let new := s.Ftable i = 0
    { ascii := Function.update s.ascii i next
      Rascii := Function.update s.Rascii i rev
      Ftable :=
        if new then Function.update (Function.update s.Ftable i next) (tolower i) next else s.Ftable
      RFtable :=
        if new then Function.update (Function.update s.RFtable i rev) (tolower i) rev else s.RFtable
      itable := if i = nl ∨ isprint i then Function.update s.itable i true else s.itable
      dtable :=
        if i = nl ∨ i = byte '\t' ∨ i = byte ' ' ∨ isalnum i then Function.update s.dtable i true
        else s.dtable
      next_weight := s.next_weight + 1
      rev_weight := s.rev_weight - 1 }

def settables (REC_D : Byte) : Tables :=
  (((List.range 256).map UInt8.ofNat).foldl (Setting.step REC_D) (Setting.start REC_D)).toTables

/-- `weight_tables[flags & (R | F)]` -/
def Tables.weights (tables : Tables) (flags : Flags) : Byte → Byte :=
  match flags.R, flags.F with
  | false, false => tables.ascii
  | true, false => tables.Rascii
  | false, true => tables.Ftable
  | true, true => tables.RFtable

/-- The mask of a field; `-i` goes before `-d`. -/
def Tables.mask (tables : Tables) (flags : Flags) (c : Byte) : Bool :=
  if flags.I then tables.itable c else if flags.D then tables.dtable c else true

/-! ## What the tables hold -/

/-- The weight of a byte that is not the record delimiter. -/
def weight (REC_D c : Byte) : Byte :=
  UInt8.ofNat (if c.toNat < REC_D.toNat then c.toNat + 1 else c.toNat)

/-- The byte whose weight `Ftable` has: the capital of a small letter, unless it is the record
delimiter. -/
def folded (REC_D c : Byte) : Byte :=
  if islower c ∧ toupper c ≠ REC_D then toupper c else c

section

variable {REC_D : Byte}

variable {c i : Byte}

theorem toNat_weight (other : c ≠ REC_D) :
    (weight REC_D c).toNat = if c.toNat < REC_D.toNat then c.toNat + 1 else c.toNat := by
  have apart : c.toNat ≠ REC_D.toNat := fun same => other (UInt8.toNat_inj.mp same)
  have bound := REC_D.toNat_lt
  have small := c.toNat_lt
  rw [weight, UInt8.toNat_ofNat']
  split <;> omega

theorem weight_ne_zero (other : c ≠ REC_D) : weight REC_D c ≠ 0 := by
  intro zero
  have apart : c.toNat ≠ REC_D.toNat := fun same => other (UInt8.toNat_inj.mp same)
  have value := toNat_weight other
  rw [zero, UInt8.toNat_zero] at value
  split at value <;> omega

theorem weight_lt {d : Byte} (left : c ≠ REC_D) (right : d ≠ REC_D) :
    weight REC_D c < weight REC_D d ↔ c < d := by
  have apart' : d.toNat ≠ REC_D.toNat := fun same => right (UInt8.toNat_inj.mp same)
  rw [UInt8.lt_iff_toNat_lt, UInt8.lt_iff_toNat_lt, toNat_weight left, toNat_weight right]
  split <;> split <;> omega

theorem toNat_folded (c : Byte) :
    (folded REC_D c).toNat =
      if (97 ≤ c.toNat ∧ c.toNat ≤ 122) ∧ c.toNat - 32 ≠ REC_D.toNat then c.toNat - 32
      else c.toNat := by
  have upper := toNat_toupper c
  have same : toupper c = REC_D ↔ (toupper c).toNat = REC_D.toNat := UInt8.toNat_inj.symm
  unfold folded
  simp only [islower_iff, Ne, same, upper]
  by_cases small : 97 ≤ c.toNat ∧ c.toNat ≤ 122
  · simp only [small, and_self, if_true, true_and]
    split <;> simp [upper, small]
  · simp [small]

theorem folded_eq_iff (fixed : folded REC_D i = i) (other : i ≠ REC_D) (c : Byte) :
    folded REC_D c = i ↔ c = i ∨ c = tolower i := by
  have apart : i.toNat ≠ REC_D.toNat := fun same => other (UInt8.toNat_inj.mp same)
  rw [← UInt8.toNat_inj, toNat_folded] at fixed
  rw [← UInt8.toNat_inj, ← UInt8.toNat_inj, ← UInt8.toNat_inj, toNat_folded, toNat_tolower]
  split at fixed <;> split <;> split <;> omega

theorem folded_ne (moves : folded REC_D i ≠ i) (c : Byte) : folded REC_D c ≠ i := by
  rw [Ne, ← UInt8.toNat_inj, toNat_folded] at moves ⊢
  split at moves <;> split <;> omega

theorem folded_lt (moves : folded REC_D i ≠ i) :
    folded REC_D i ≠ REC_D ∧ (folded REC_D i).toNat < i.toNat := by
  rw [Ne, ← UInt8.toNat_inj, toNat_folded] at moves
  rw [Ne, ← UInt8.toNat_inj, toNat_folded]
  split at moves <;> split <;> omega

/-- The tables behind the bytes below `k`. -/
structure Filled (REC_D : Byte) (k : Nat) (s : Setting) : Prop where
  next : s.next_weight = if k ≤ REC_D.toNat then (k : Int) + 1 else k
  rev : s.rev_weight = 255 - s.next_weight
  ascii : ∀ c, s.ascii c = if c ≠ REC_D ∧ c.toNat < k then weight REC_D c else 0
  Rascii : ∀ c, s.Rascii c =
    if c = REC_D then 255 else if c.toNat < k then 255 - weight REC_D c else 0
  Ftable : ∀ c, s.Ftable c =
    if folded REC_D c ≠ REC_D ∧ (folded REC_D c).toNat < k then weight REC_D (folded REC_D c) else 0
  RFtable : ∀ c, s.RFtable c =
    if folded REC_D c ≠ REC_D ∧ (folded REC_D c).toNat < k then
      255 - weight REC_D (folded REC_D c)
    else if c = REC_D then 255 else 0
  itable : ∀ c, s.itable c = true ↔ (c ≠ REC_D ∧ c.toNat < k) ∧ (c = nl ∨ isprint c)
  dtable : ∀ c, s.dtable c = true ↔
    (c ≠ REC_D ∧ c.toNat < k) ∧ (c = nl ∨ c = byte '\t' ∨ c = byte ' ' ∨ isalnum c)

theorem filled_start : Filled REC_D 0 (Setting.start REC_D) where
  next := rfl
  rev := rfl
  ascii := fun c => by simp [Setting.start]
  Rascii := fun c => by simp [Setting.start, Function.update_apply]
  Ftable := fun c => by simp [Setting.start]
  RFtable := fun c => by simp [Setting.start, Function.update_apply]
  itable := fun c => by simp [Setting.start]
  dtable := fun c => by simp [Setting.start]

theorem Filled.counters {k : Nat} {s : Setting} (filled : Filled REC_D k s) (place : i.toNat = k)
    (other : i ≠ REC_D) :
    UInt8.ofInt s.next_weight = weight REC_D i ∧
      UInt8.ofInt s.rev_weight = 255 - weight REC_D i := by
  have apart : i.toNat ≠ REC_D.toNat := fun same => other (UInt8.toNat_inj.mp same)
  have cast : ∀ n : Nat, UInt8.ofInt n = UInt8.ofNat n := fun n =>
    UInt8.toNat_inj.mp (by simp [UInt8.ofInt]; omega)
  have next : UInt8.ofInt s.next_weight = weight REC_D i := by
    rw [filled.next, weight, place]
    rcases Nat.lt_or_gt_of_ne (place ▸ apart) with less | more
    · rw [if_pos less.le, if_pos less]
      exact cast (k + 1)
    · rw [if_neg (by omega), if_neg (by omega)]
      exact cast k
  refine ⟨next, ?_⟩
  rw [filled.rev, Int.sub_eq_add_neg, UInt8.ofInt_add, UInt8.ofInt_neg, next,
    UInt8.sub_eq_add_neg]
  rfl

theorem fold_step {k : Nat} {table base : Byte → Byte} (value : Byte → Byte) (holds : ∀ c, table c =
      if folded REC_D c ≠ REC_D ∧ (folded REC_D c).toNat < k then value (folded REC_D c) else base c)
    (place : i.toNat = k) (other : i ≠ REC_D) (c : Byte) :
    (if folded REC_D i = i then
        Function.update (Function.update table i (value i)) (tolower i) (value i)
      else table) c =
      if folded REC_D c ≠ REC_D ∧ (folded REC_D c).toNat < k + 1 then value (folded REC_D c)
      else base c := by
  have rest : folded REC_D c ≠ i → table c =
      if folded REC_D c ≠ REC_D ∧ (folded REC_D c).toNat < k + 1 then value (folded REC_D c)
      else base c := fun apart => by
    have ne : (folded REC_D c).toNat ≠ k := fun same =>
      apart (UInt8.toNat_inj.mp (same.trans place.symm))
    have below : (folded REC_D c).toNat < k + 1 ↔ (folded REC_D c).toNat < k := by omega
    simp only [holds, below]
  by_cases fixed : folded REC_D i = i
  · rw [if_pos fixed, Function.update_apply, Function.update_apply]
    have target := folded_eq_iff fixed other c
    by_cases same : folded REC_D c = i
    · have reached : (if folded REC_D c ≠ REC_D ∧ (folded REC_D c).toNat < k + 1 then
          value (folded REC_D c) else base c) = value i := by
        rw [if_pos ⟨by rw [same]; exact other, by rw [same]; omega⟩, same]
      rw [reached]
      rcases target.mp same with same | same <;> simp [same]
    · have apart := not_or.mp (mt target.mpr same)
      rw [if_neg apart.2, if_neg apart.1]
      exact rest same
  · rw [if_neg fixed]
    exact rest (folded_ne fixed c)

theorem mask_step {k : Nat} {mask : Byte → Bool} {accepts : Byte → Prop} [DecidablePred accepts]
    (holds : ∀ c, mask c = true ↔ (c ≠ REC_D ∧ c.toNat < k) ∧ accepts c) (place : i.toNat = k)
    (other : i ≠ REC_D) (c : Byte) :
    (if accepts i then Function.update mask i true else mask) c = true ↔
      (c ≠ REC_D ∧ c.toNat < k + 1) ∧ accepts c := by
  by_cases same : c = i
  · subst same
    have new : mask c ≠ true := fun wrong => by
      have := ((holds c).mp wrong).1.2
      omega
    split
    · next accepted => simp [other, accepted, place]
    · next refused => simp [refused, new]
  · have ne : c.toNat ≠ k := fun wrong => same (UInt8.toNat_inj.mp (wrong.trans place.symm))
    have old : (if accepts i then Function.update mask i true else mask) c = mask c := by
      split
      · rw [Function.update_of_ne same]
      · rfl
    rw [old, holds, show c.toNat < k + 1 ↔ c.toNat < k by omega]

theorem Filled.step {k : Nat} {s : Setting} (filled : Filled REC_D k s) (place : i.toNat = k) :
    Filled REC_D (k + 1) (s.step REC_D i) := by
  have below : ∀ c, c ≠ i → (c.toNat < k + 1 ↔ c.toNat < k) := fun c apart => by
    have ne : c.toNat ≠ k := fun same => apart (UInt8.toNat_inj.mp (same.trans place.symm))
    omega
  have here : i.toNat < k + 1 := by omega
  by_cases delimiter : i = REC_D
  · subst delimiter
    have rest : ∀ c, c ≠ i ∧ c.toNat < k + 1 ↔ c ≠ i ∧ c.toNat < k :=
      fun c => and_congr_right (below c)
    rw [Setting.step, if_pos rfl]
    refine ⟨?_, filled.rev, fun c => ?_, fun c => ?_, fun c => ?_, fun c => ?_, fun c => ?_,
      fun c => ?_⟩
    · rw [filled.next]
      split <;> split <;> omega
    · simp only [rest]
      exact filled.ascii c
    · rw [filled.Rascii]
      by_cases same : c = i
      · rw [if_pos same, if_pos same]
      · simp only [below c same]
    · simp only [rest]
      exact filled.Ftable c
    · simp only [rest]
      exact filled.RFtable c
    · rw [rest]
      exact filled.itable c
    · rw [rest]
      exact filled.dtable c
  · obtain ⟨next, rev⟩ := filled.counters place delimiter
    have apart : i.toNat ≠ REC_D.toNat := fun same => delimiter (UInt8.toNat_inj.mp same)
    have new : s.Ftable i = 0 ↔ folded REC_D i = i := by
      rw [filled.Ftable]
      constructor
      · intro zero
        by_contra moves
        obtain ⟨other, less⟩ := folded_lt moves
        rw [if_pos ⟨other, by omega⟩] at zero
        exact weight_ne_zero other zero
      · intro fixed
        rw [fixed, if_neg fun both => by omega]
    rw [Setting.step, if_neg delimiter]
    refine ⟨?_, ?_, fun c => ?_, fun c => ?_, fun c => ?_, fun c => ?_, fun c => ?_, fun c => ?_⟩
    · dsimp only
      rw [filled.next]
      split <;> split <;> omega
    · dsimp only
      rw [filled.rev]
      omega
    · dsimp only
      rw [next, Function.update_apply, filled.ascii]
      by_cases same : c = i
      · rw [if_pos same, same, if_pos ⟨delimiter, here⟩]
      · rw [if_neg same]
        simp only [below c same]
    · dsimp only
      rw [rev, Function.update_apply, filled.Rascii]
      by_cases same : c = i
      · rw [if_pos same, same, if_neg delimiter, if_pos here]
      · rw [if_neg same]
        simp only [below c same]
    · simp only [new, next]
      exact fold_step (weight REC_D) filled.Ftable place delimiter c
    · simp only [new, rev]
      exact fold_step (fun d => 255 - weight REC_D d) filled.RFtable place delimiter c
    · exact mask_step filled.itable place delimiter c
    · exact mask_step filled.dtable place delimiter c

theorem exists_filled (k : Nat) (le : k ≤ 256) :
    Filled REC_D k
      (((List.range k).map UInt8.ofNat).foldl (Setting.step REC_D) (Setting.start REC_D)) := by
  induction k with
  | zero => exact filled_start
  | succ k ih =>
      rw [List.range_succ, List.map_append, List.foldl_append]
      refine (ih (by omega)).step ?_
      rw [UInt8.toNat_ofNat', Nat.mod_eq_of_lt (by omega)]

theorem settables_ascii (c : Byte) :
    (settables REC_D).ascii c = if c = REC_D then 0 else weight REC_D c := by
  refine ((exists_filled 256 (Nat.le_refl _)).ascii c).trans ?_
  have small : c.toNat < 256 := c.toNat_lt
  by_cases same : c = REC_D <;> simp [same, small]

theorem settables_Rascii (c : Byte) :
    (settables REC_D).Rascii c = if c = REC_D then 255 else 255 - weight REC_D c := by
  refine ((exists_filled 256 (Nat.le_refl _)).Rascii c).trans ?_
  rw [if_pos (show c.toNat < 256 from c.toNat_lt)]

theorem eq_of_folded_eq (same : folded REC_D c = REC_D) : c = REC_D := by
  unfold folded at same
  split at same
  · next moved => exact absurd same moved.2
  · exact same

theorem settables_Ftable (c : Byte) :
    (settables REC_D).Ftable c =
      if folded REC_D c = REC_D then 0 else weight REC_D (folded REC_D c) := by
  refine ((exists_filled 256 (Nat.le_refl _)).Ftable c).trans ?_
  have small : (folded REC_D c).toNat < 256 := UInt8.toNat_lt _
  by_cases same : folded REC_D c = REC_D <;> simp [same, small]

theorem settables_RFtable (c : Byte) :
    (settables REC_D).RFtable c =
      if folded REC_D c = REC_D then 255 else 255 - weight REC_D (folded REC_D c) := by
  refine ((exists_filled 256 (Nat.le_refl _)).RFtable c).trans ?_
  have small : (folded REC_D c).toNat < 256 := UInt8.toNat_lt _
  by_cases same : folded REC_D c = REC_D
  · rw [if_neg (by simp [same]), if_pos (eq_of_folded_eq same), if_pos same]
  · simp [same, small]

theorem settables_itable (other : c ≠ REC_D) :
    (settables REC_D).itable c = (c = nl || isprint c) := by
  refine Bool.eq_iff_iff.mpr (((exists_filled 256 (Nat.le_refl _)).itable c).trans ?_)
  rw [and_iff_right ⟨other, c.toNat_lt⟩, Bool.or_eq_true, decide_eq_true_eq]

theorem settables_dtable (other : c ≠ REC_D) :
    (settables REC_D).dtable c = (c = nl || c = byte '\t' || c = byte ' ' || isalnum c) := by
  refine Bool.eq_iff_iff.mpr (((exists_filled 256 (Nat.le_refl _)).dtable c).trans ?_)
  rw [and_iff_right ⟨other, c.toNat_lt⟩]
  simp only [Bool.or_eq_true, decide_eq_true_eq, or_assoc]

/-- What a byte of a field counts as. -/
def target (REC_D : Byte) (fold : Bool) (c : Byte) : Byte := if fold then folded REC_D c else c

/-- The weight of a byte in the tables that are not reversed. -/
def level (REC_D : Byte) (fold : Bool) (c : Byte) : Byte :=
  if target REC_D fold c = REC_D then 0 else weight REC_D (target REC_D fold c)

theorem weights_eq (flags : Flags) (c : Byte) :
    (settables REC_D).weights flags c =
      if flags.R then 255 - level REC_D flags.F c else level REC_D flags.F c := by
  unfold Tables.weights level target
  rcases flags.R <;> rcases flags.F
  · simp [settables_ascii]
  · simp [settables_Ftable]
  · simp only [settables_Rascii, if_true, Bool.false_eq_true, if_false]
    split <;> rfl
  · simp only [settables_RFtable, if_true]
    split <;> rfl

theorem target_ne {fold : Bool} (other : c ≠ REC_D) : target REC_D fold c ≠ REC_D := by
  unfold target
  split
  · exact fun same => other (eq_of_folded_eq same)
  · exact other

theorem compare_bytes (a b : Byte) : Ord.compare a b = Ord.compare a.toNat b.toNat := by
  simp only [Ord.compare, compareOfLessAndEq, UInt8.lt_iff_toNat_lt, ← UInt8.toNat_inj]

theorem compare_reversed (a b : Byte) :
    Ord.compare (255 - a) (255 - b) = (Ord.compare a b).swap := by
  have bound := a.toNat_lt
  have bound' := b.toNat_lt
  have value : ∀ c : Byte, (255 - c).toNat = 255 - c.toNat := by
    apply forall_byte
    decide +kernel
  rw [compare_bytes, compare_bytes, value, value, Nat.compare_swap]
  rcases Nat.lt_trichotomy a.toNat b.toNat with less | same | more
  · rw [Nat.compare_eq_gt.mpr less, Nat.compare_eq_gt.mpr (by omega)]
  · rw [same, Nat.compare_eq_eq.mpr rfl, Nat.compare_eq_eq.mpr rfl]
  · rw [Nat.compare_eq_lt.mpr more, Nat.compare_eq_lt.mpr (by omega)]

theorem compare_weight {d : Byte} (left : c ≠ REC_D) (right : d ≠ REC_D) :
    Ord.compare (weight REC_D c) (weight REC_D d) = Ord.compare c d := by
  have less := weight_lt left right
  have more := weight_lt right left
  rw [UInt8.lt_iff_toNat_lt, UInt8.lt_iff_toNat_lt] at less more
  rw [compare_bytes, compare_bytes]
  rcases Nat.lt_trichotomy c.toNat d.toNat with smaller | same | greater
  · rw [Nat.compare_eq_lt.mpr smaller, Nat.compare_eq_lt.mpr (less.mpr smaller)]
  · rw [UInt8.toNat_inj.mp same]
    simp
  · rw [Nat.compare_eq_gt.mpr greater, Nat.compare_eq_gt.mpr (more.mpr greater)]

theorem weights_compare (flags : Flags) (c d : Byte) :
    Ord.compare ((settables REC_D).weights flags c) ((settables REC_D).weights flags d) =
      turned flags.R (Ord.compare (level REC_D flags.F c) (level REC_D flags.F d)) := by
  rw [weights_eq, weights_eq]
  unfold turned
  split
  · exact compare_reversed _ _
  · rfl

theorem level_of_ne {fold : Bool} (other : c ≠ REC_D) :
    level REC_D fold c = weight REC_D (target REC_D fold c) := if_neg (target_ne other)

/-- The end mark is none of the weights as long as the record delimiter is not folded. -/
theorem weights_codes {flags : Flags} (unfolded : flags.F = true → islower REC_D = false) :
    Codes (fun c d => Ord.compare (target REC_D flags.F c) (target REC_D flags.F d)) Ord.compare
      ((settables REC_D).weights flags) ((settables REC_D).weights flags REC_D) flags.R
      (· ≠ REC_D) := by
  have zero : level REC_D flags.F REC_D = 0 := by
    refine if_pos ?_
    unfold target folded
    split
    · next fold => rw [if_neg fun both => by simp [unfolded fold] at both]
    · rfl
  have positive : ∀ c, c ≠ REC_D → 0 < (level REC_D flags.F c).toNat := fun c other => by
    rw [level_of_ne other]
    exact Nat.pos_of_ne_zero fun none_ => weight_ne_zero (target_ne other) (UInt8.toNat_inj.mp none_)
  refine ⟨fun c d left right => ?_, fun c other => ?_, fun c other => ?_, ?_⟩
  · rw [weights_compare, level_of_ne left, level_of_ne right,
      compare_weight (target_ne left) (target_ne right)]
  · rw [weights_compare, zero, compare_bytes, UInt8.toNat_zero,
      Nat.compare_eq_lt.mpr (positive c other)]
  · rw [weights_compare, zero, compare_bytes, UInt8.toNat_zero,
      Nat.compare_eq_gt.mpr (positive c other)]
  · simp

theorem weights_clash {flags : Flags} (fold : flags.F = true) (small : islower REC_D = true) :
    (settables REC_D).weights flags REC_D = (settables REC_D).weights flags (toupper REC_D) := by
  have range := (islower_iff REC_D).mp small
  have upper := toNat_toupper REC_D
  rw [if_pos range] at upper
  have moved : folded REC_D REC_D = toupper REC_D := by
    refine if_pos ⟨small, fun same => ?_⟩
    rw [same] at upper
    omega
  have fixed : folded REC_D (toupper REC_D) = toupper REC_D := by
    rw [← UInt8.toNat_inj, toNat_folded, upper, if_neg (by omega)]
  rw [weights_eq, weights_eq]
  simp only [level, target, fold, if_true, moved, fixed]

end

end Netbase.Sort
