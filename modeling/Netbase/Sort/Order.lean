import Mathlib.Tactic
import Netbase.Lib.Apart
import Netbase.Sort.Scan

/-!
# The order of numeric keys

The key of a number is determined by its value, and the keys of two values are
apart in the order of the values.  With `-r` the sign of the value is inverted.
-/

namespace Netbase.Sort

open Netbase.Text Netbase.Lib

/-! ## Values -/

/-- The value of the digits of a number behind its sign. -/
def magnitude (t : List Byte) : ℚ :=
  (digitsValue 0 (wholeDigits t ++ fractionDigits t) : ℚ) / 10 ^ (fractionDigits t).length

/-- The value of the longest numeric front of a field. -/
def val (blank : Byte → Bool) (x : List Byte) : ℚ :=
  match x.dropWhile blank with
  | [] => 0
  | c :: t =>
      if c = byte '-' then -magnitude t
      else if c = byte '+' then magnitude t
      else magnitude (c :: t)

/-- The value of digits with the point behind the first of them. -/
def digitsRatio : List Nat → ℚ
  | [] => 0
  | d :: ds => d + digitsRatio ds / 10

/-- The same for the bytes of a mantissa. -/
def pairsValue : List Nat → ℚ
  | [] => 0
  | p :: ps => p + pairsValue ps / 100

theorem pairsValue_pairs (ds : List Nat) : pairsValue (pairs ds) = 10 * digitsRatio ds := by
  induction ds using pairs.induct with
  | case1 => simp [pairs, pairsValue, digitsRatio]
  | case2 d => simp [pairs, pairsValue, digitsRatio]
  | case3 d e ds ih =>
      rw [pairs, pairsValue, ih, digitsRatio, digitsRatio]
      push_cast
      ring

theorem pairsValue_strip (ps : List Nat) : pairsValue (strip ps) = pairsValue ps := by
  induction ps with
  | nil => rfl
  | cons p ps ih =>
      rw [strip_cons]
      split
      · next none =>
          rw [none.2, pairsValue] at ih
          rw [pairsValue, pairsValue, none.1, ← ih]
          simp
      · rw [pairsValue, pairsValue, ih]

theorem digitsValue_ratio {s : List Byte} (digits : ∀ c ∈ s, isdigit c = true) (v : Nat) :
    (digitsValue v s : ℚ) = v * 10 ^ s.length + digitsRatio (s.map digit) * 10 ^ s.length / 10 := by
  induction s generalizing v with
  | nil => simp [digitsValue, digitsRatio]
  | cons c s ih =>
      have rest := ih (fun d member => digits d (List.mem_cons_of_mem _ member))
        (10 * v + digit c)
      rw [digitsValue, if_pos (digits c (by simp))]
      change ((digitsValue (10 * v + digit c) s : Nat) : ℚ) = _
      rw [rest, List.map_cons, digitsRatio, List.length_cons, pow_succ]
      push_cast
      ring

theorem digitsValue_dropZeroes (s : List Byte) :
    digitsValue 0 (s.dropWhile (· = byte '0')) = digitsValue 0 s := by
  induction s with
  | nil => rfl
  | cons c s ih =>
      by_cases zero : c = byte '0'
      · rw [List.dropWhile_cons_of_pos (by simpa using zero), ih, zero]
        rfl
      · rw [List.dropWhile_cons_of_neg (by simpa using zero)]

variable {t : List Byte} {p : Nat} {ds : List Nat}

theorem isdigit_of_mem {c : Byte} (member : c ∈ wholeDigits t ++ fractionDigits t) :
    isdigit c = true := by
  rcases List.mem_append.mp member with whole | fraction
  · exact List.mem_takeWhile_imp whole
  · rw [fractionDigits] at fraction
    split at fraction
    · cases fraction
    · split at fraction
      · exact List.mem_takeWhile_imp fraction
      · cases fraction

theorem magnitude_eq (t : List Byte) :
    magnitude t = pairsValue (strip (pairs (leadingDigits t))) * 10 ^ (leadingExponent t - 1) := by
  have digits : ∀ c ∈ (wholeDigits t ++ fractionDigits t).dropWhile (· = byte '0'),
      isdigit c = true := fun c member =>
    isdigit_of_mem ((List.dropWhile_sublist _).subset member)
  have ten : (10 : ℚ) ≠ 0 := by norm_num
  have count : ((wholeDigits t ++ fractionDigits t).dropWhile (· = byte '0')).length =
      (leadingDigits t).length := by rw [leadingDigits, List.length_map]
  rw [magnitude, ← digitsValue_dropZeroes, digitsValue_ratio digits, count, pairsValue_strip,
    pairsValue_pairs, leadingExponent, ← leadingDigits, zpow_sub₀ ten, zpow_sub₀ ten,
    zpow_sub₀ ten, zpow_natCast, zpow_natCast, zpow_one]
  field_simp
  simp

/-! ## Exponents -/

variable {e e' : Int} {ps qs : List Nat}

theorem toNat_lowByte (nonneg : 0 ≤ e) (small : e < 256) :
    ((lowByte e).toNat : Int) = e := by
  rw [lowByte, UInt8.toNat_ofNat']
  omega

theorem lowByte_lt {a b : Int} (nonneg : 0 ≤ a) (less : a < b) (small : b < 256) :
    lowByte a < lowByte b := by
  have left := toNat_lowByte nonneg (less.trans small)
  have right := toNat_lowByte (nonneg.trans less.le) small
  rw [UInt8.lt_iff_toNat_lt]
  omega

theorem lowByte_mod (e : Int) : lowByte (e % 256) = lowByte e := by
  rw [lowByte, lowByte, Int.emod_emod]

theorem shiftBytes_apart (less : e < e') :
    ∀ k : Nat, e / 256 ^ k = e' / 256 ^ k → Apart (shiftBytes 0 e k) (shiftBytes 0 e' k) := by
  intro k
  induction k with
  | zero =>
      intro same
      simp only [pow_zero, Int.ediv_one] at same
      omega
  | succ k ih =>
      intro same
      rw [shiftBytes, shiftBytes, UInt8.zero_xor, UInt8.zero_xor]
      have positive : (0 : Int) < 256 ^ k := by positivity
      by_cases high : e / 256 ^ k = e' / 256 ^ k
      · rw [high]
        exact .later _ (ih high)
      · have order : e / 256 ^ k ≤ e' / 256 ^ k := Int.ediv_le_ediv positive less.le
        rw [pow_succ, ← Int.ediv_ediv_of_nonneg positive.le,
          ← Int.ediv_ediv_of_nonneg positive.le] at same
        rw [← lowByte_mod, ← lowByte_mod (e' / 256 ^ k)]
        refine .here (lowByte_lt (by omega) ?_ (by omega)) _ _
        omega

theorem moreBytes_eq {t : Nat} (small : t < 2 ^ 31) :
    moreBytes 4 t = if t < 256 then 0 else if t < 65536 then 1 else if t < 16777216 then 2 else 3 := by
  simp only [moreBytes]
  split_ifs <;> omega

theorem exponentBytes_cases (small : e.natAbs < 2 ^ 31) :
    (-60 < e ∧ e < 60 ∧ exponentBytes 0 e = [lowByte (e + 192)]) ∨
    (∃ c : Nat, c ≤ 3 ∧ 60 ≤ e ∧ e < 256 ^ (c + 1) ∧ (c = 0 ∨ 256 ^ c ≤ e) ∧
      exponentBytes 0 e = lowByte (252 + c) :: shiftBytes 0 e (c + 1)) ∨
    (∃ c : Nat, c ≤ 3 ∧ e ≤ -60 ∧ -256 ^ (c + 1) < e ∧ (c = 0 ∨ e ≤ -256 ^ c) ∧
      exponentBytes 0 e = lowByte (132 - c) :: shiftBytes 0 e (c + 1)) := by
  rw [exponentBytes]
  by_cases simple : e < 0x40 - (MAX_EXP_ENC : Int) ∧ -e < 0x40 - (MAX_EXP_ENC : Int)
  · rw [if_pos simple, UInt8.zero_xor]
    simp only [MAX_EXP_ENC, Nat.cast_ofNat] at simple
    exact Or.inl ⟨by omega, by omega, rfl⟩
  · right
    rw [if_neg simple]
    simp only [MAX_EXP_ENC, Nat.cast_ofNat] at simple
    have count := moreBytes_eq small
    dsimp only
    rw [UInt8.zero_xor]
    obtain ⟨c, few, exact, fits, needs⟩ : ∃ c : Nat, c ≤ 3 ∧ moreBytes 4 e.natAbs = c ∧
        e.natAbs < 256 ^ (c + 1) ∧ (c = 0 ∨ 256 ^ c ≤ e.natAbs) := by
      rw [count]
      split_ifs
      · exact ⟨0, by omega, rfl, by norm_num; omega, Or.inl rfl⟩
      · exact ⟨1, by omega, rfl, by norm_num; omega, Or.inr (by norm_num; omega)⟩
      · exact ⟨2, by omega, rfl, by norm_num; omega, Or.inr (by norm_num; omega)⟩
      · exact ⟨3, by omega, rfl, by norm_num; omega, Or.inr (by norm_num; omega)⟩
    have below : (e.natAbs : Int) < 256 ^ (c + 1) := by exact_mod_cast fits
    have above : c = 0 ∨ (256 : Int) ^ c ≤ e.natAbs := needs.imp_right fun le => by exact_mod_cast le
    rw [exact]
    by_cases negative : e < 0
    · right
      refine ⟨c, few, by omega, by omega, by omega, ?_⟩
      rw [if_pos negative]
      congr 2
      simp only [MAX_EXP_ENC, Nat.cast_ofNat]
      ring
    · left
      refine ⟨c, few, by omega, by omega, by omega, ?_⟩
      rw [if_neg negative]
      congr 2
      simp only [MAX_EXP_ENC, Nat.cast_ofNat]
      ring

theorem exponentBytes_apart (less : e < e') (small : e.natAbs < 2 ^ 31)
    (small' : e'.natAbs < 2 ^ 31) : Apart (exponentBytes 0 e) (exponentBytes 0 e') := by
  have grows {c d : Nat} (le : c + 1 ≤ d) : (256 : Int) ^ (c + 1) ≤ 256 ^ d :=
    pow_le_pow_right₀ (by norm_num) le
  rcases exponentBytes_cases small with ⟨above, below, bytes⟩ |
    ⟨c, few, least, below, above, bytes⟩ | ⟨c, few, most, below, above, bytes⟩ <;>
  rcases exponentBytes_cases small' with ⟨above', below', bytes'⟩ |
    ⟨c', few', least', below', above', bytes'⟩ | ⟨c', few', most', below', above', bytes'⟩ <;>
  rw [bytes, bytes']
  · exact .here (lowByte_lt (by omega) (by omega) (by omega)) _ _
  · exact .here (lowByte_lt (by omega) (by omega) (by omega)) _ _
  · omega
  · omega
  · rcases Nat.lt_trichotomy c c' with fewer | rfl | more
    · exact .here (lowByte_lt (by omega) (by omega) (by omega)) _ _
    · refine .later _ (shiftBytes_apart less _ ?_)
      rw [Int.ediv_eq_zero_of_lt (by omega) below, Int.ediv_eq_zero_of_lt (by omega) below']
    · have bound := grows (Nat.succ_le_of_lt more)
      omega
  · omega
  · exact .here (lowByte_lt (by omega) (by omega) (by omega)) _ _
  · exact .here (lowByte_lt (by omega) (by omega) (by omega)) _ _
  · rcases Nat.lt_trichotomy c c' with fewer | rfl | more
    · have bound := grows (Nat.succ_le_of_lt fewer)
      omega
    · refine .later _ (shiftBytes_apart less _ ?_)
      have high {f : Int} (negative : f ≤ -60) (inside : -256 ^ (c + 1) < f) :
          f / 256 ^ (c + 1) = -1 := by
        have positive : (0 : Int) < 256 ^ (c + 1) := by positivity
        rw [Int.ediv_eq_iff_of_pos positive]
        omega
      rw [high most below, high most' below']
    · exact .here (lowByte_lt (by omega) (by omega) (by omega)) _ _

/-! ## Mantissas -/

/-- The bytes of a mantissa as they are written. -/
structure Normal (ps : List Nat) : Prop where
  small : ∀ p ∈ ps, p < 100
  stripped : strip ps = ps

theorem Normal.tail (normal : Normal (p :: ps)) : Normal ps := by
  refine ⟨fun q member => normal.small q (List.mem_cons_of_mem _ member), ?_⟩
  have stripped := normal.stripped
  rw [strip_cons] at stripped
  split at stripped
  · cases stripped
  · exact (List.cons_eq_cons.mp stripped).2

theorem pairsValue_nonneg (ps : List Nat) : 0 ≤ pairsValue ps := by
  induction ps with
  | nil => exact le_refl _
  | cons p ps ih =>
      rw [pairsValue]
      positivity

theorem pairsValue_lt (small : ∀ p ∈ ps, p < 100) : pairsValue ps < 100 := by
  induction ps with
  | nil => norm_num [pairsValue]
  | cons p ps ih =>
      have rest := ih fun q member => small q (List.mem_cons_of_mem _ member)
      have first : (p : ℚ) ≤ 99 := by exact_mod_cast Nat.le_of_lt_succ (small p (by simp))
      rw [pairsValue]
      linarith

theorem mantissaByte_lt {q : Nat} (less : p < q) (small : q < 100) :
    mantissaByte 0 p < mantissaByte 0 q := by
  rw [mantissaByte, mantissaByte, UInt8.zero_xor, UInt8.zero_xor, UInt8.lt_iff_toNat_lt,
    UInt8.toNat_ofNat', UInt8.toNat_ofNat']
  omega

theorem zero_lt_mantissaByte (small : p < 100) : 0 < mantissaByte 0 p := by
  rw [mantissaByte, UInt8.zero_xor, UInt8.lt_iff_toNat_lt, UInt8.toNat_ofNat']
  simp only [UInt8.toNat_zero]
  omega

theorem mantissa_apart (small : ∀ p ∈ ps, p < 100) (small' : ∀ q ∈ qs, q < 100)
    (less : pairsValue ps < pairsValue qs) :
    Apart (ps.map (mantissaByte 0) ++ [0]) (qs.map (mantissaByte 0) ++ [0]) := by
  induction ps generalizing qs with
  | nil =>
      cases qs with
      | nil => exact absurd less (lt_irrefl _)
      | cons q qs => exact .here (zero_lt_mantissaByte (small' q (by simp))) _ _
  | cons p ps ih =>
      have nonneg := pairsValue_nonneg ps
      rw [pairsValue] at less
      cases qs with
      | nil =>
          rw [pairsValue] at less
          linarith
      | cons q qs =>
          have below' := pairsValue_lt fun r member => small' r (List.mem_cons_of_mem _ member)
          rw [pairsValue] at less
          rcases Nat.lt_trichotomy p q with smaller | rfl | larger
          · exact .here (mantissaByte_lt smaller (small' q (by simp))) _ _
          · refine .later _ (ih (fun r member => small r (List.mem_cons_of_mem _ member))
              (fun r member => small' r (List.mem_cons_of_mem _ member)) ?_)
            linarith
          · have apart : (q : ℚ) + 1 ≤ p := by exact_mod_cast larger
            linarith

theorem pairsValue_eq_zero (normal : Normal ps) (zero : pairsValue ps = 0) :
    ps = [] := by
  induction ps with
  | nil => rfl
  | cons p ps ih =>
      have nonneg := pairsValue_nonneg ps
      rw [pairsValue] at zero
      have none := ih normal.tail (by linarith)
      have first : p = 0 := by
        have value : (p : ℚ) = 0 := by linarith
        exact_mod_cast value
      have stripped := normal.stripped
      rw [none, first] at stripped
      cases stripped

theorem pairsValue_injective (normal : Normal ps) (normal' : Normal qs)
    (same : pairsValue ps = pairsValue qs) : ps = qs := by
  induction ps generalizing qs with
  | nil => exact (pairsValue_eq_zero normal' same.symm).symm
  | cons p ps ih =>
      cases qs with
      | nil => exact pairsValue_eq_zero normal same
      | cons q qs =>
          have below := pairsValue_lt normal.tail.small
          have below' := pairsValue_lt normal'.tail.small
          have nonneg := pairsValue_nonneg ps
          have nonneg' := pairsValue_nonneg qs
          rw [pairsValue, pairsValue] at same
          have first : p = q := by
            rcases Nat.lt_trichotomy p q with smaller | equal | larger
            · have apart : (p : ℚ) + 1 ≤ q := by exact_mod_cast smaller
              linarith
            · exact equal
            · have apart : (q : ℚ) + 1 ≤ p := by exact_mod_cast larger
              linarith
          subst first
          rw [ih normal.tail normal'.tail (by linarith)]

/-! ## Keys of values -/

def positiveKey (e : Int) (ps : List Nat) : List Byte :=
  exponentBytes 0 e ++ ps.map (mantissaByte 0) ++ [0]

/-- The exponent and the mantissa of a positive value. -/
structure Scaled (e : Int) (ps : List Nat) : Prop where
  normal : Normal ps
  least : 10 ≤ pairsValue ps
  small : e.natAbs < 2 ^ 31

def complement (b : Byte) : Byte := 0xff ^^^ b

theorem toNat_complement (c : Byte) : (complement c).toNat = 255 - c.toNat := by
  have negated : complement c = ~~~c := UInt8.neg_one_xor
  rw [negated, UInt8.toNat_not]
  rfl

theorem complement_lt {a b : Byte} (less : a < b) : complement b < complement a := by
  have small : b.toNat < 256 := b.toNat_lt
  rw [UInt8.lt_iff_toNat_lt] at less ⊢
  rw [toNat_complement, toNat_complement]
  omega

inductive Keyed : ℚ → List Byte → Prop where
  | zero : Keyed 0 [0x80]
  | positive {e : Int} {ps : List Nat} (scaled : Scaled e ps) :
      Keyed (pairsValue ps * 10 ^ (e - 1)) (positiveKey e ps)
  | negative {e : Int} {ps : List Nat} (scaled : Scaled e ps) :
      Keyed (-(pairsValue ps * 10 ^ (e - 1))) ((positiveKey e ps).map complement)

theorem Scaled.positive (scaled : Scaled e ps) :
    0 < pairsValue ps * 10 ^ (e - 1) := by
  have least := scaled.least
  positivity

theorem Scaled.bounds (scaled : Scaled e ps) :
    (10 : ℚ) ^ e ≤ pairsValue ps * 10 ^ (e - 1) ∧ pairsValue ps * 10 ^ (e - 1) < 10 ^ (e + 1) := by
  have ten : (10 : ℚ) ≠ 0 := by norm_num
  have scale : (0 : ℚ) < 10 ^ (e - 1) := by positivity
  have most := pairsValue_lt scaled.normal.small
  have low : (10 : ℚ) ^ e = 10 * 10 ^ (e - 1) := by
    rw [← zpow_one_add₀ ten]
    congr 1
    ring
  have high : (10 : ℚ) ^ (e + 1) = 100 * 10 ^ (e - 1) := by
    rw [zpow_add_one₀ ten, low]
    ring
  rw [high, low]
  exact ⟨mul_le_mul_of_nonneg_right scaled.least scale.le, mul_lt_mul_of_pos_right most scale⟩

theorem Scaled.lt_of_exponent_lt (scaled : Scaled e ps) (scaled' : Scaled e' qs) (less : e < e') :
    pairsValue ps * 10 ^ (e - 1) < pairsValue qs * 10 ^ (e' - 1) :=
  scaled.bounds.2.trans_le
    ((zpow_le_zpow_right₀ (by norm_num) (by omega)).trans scaled'.bounds.1)

theorem positiveKey_apart (scaled : Scaled e ps) (scaled' : Scaled e' qs)
    (less : pairsValue ps * 10 ^ (e - 1) < pairsValue qs * 10 ^ (e' - 1)) :
    Apart (positiveKey e ps) (positiveKey e' qs) := by
  rw [positiveKey, positiveKey, List.append_assoc, List.append_assoc]
  rcases lt_trichotomy e e' with smaller | rfl | larger
  · exact (exponentBytes_apart smaller scaled.small scaled'.small).append _ _
  · have scale : (0 : ℚ) < 10 ^ (e - 1) := by positivity
    exact (mantissa_apart scaled.normal.small scaled'.normal.small
      (lt_of_mul_lt_mul_right less scale.le)).prepend _
  · exact absurd less (scaled'.lt_of_exponent_lt scaled larger).not_gt

theorem positiveKey_unique (scaled : Scaled e ps) (scaled' : Scaled e' qs)
    (same : pairsValue ps * 10 ^ (e - 1) = pairsValue qs * 10 ^ (e' - 1)) :
    positiveKey e ps = positiveKey e' qs := by
  rcases lt_trichotomy e e' with smaller | rfl | larger
  · exact absurd same (scaled.lt_of_exponent_lt scaled' smaller).ne
  · have scale : (10 : ℚ) ^ (e - 1) ≠ 0 := by positivity
    rw [pairsValue_injective scaled.normal scaled'.normal (mul_right_cancel₀ scale same)]
  · exact absurd same (scaled'.lt_of_exponent_lt scaled larger).ne'

theorem positiveKey_head (scaled : Scaled e ps) :
    ∃ b rest, positiveKey e ps = b :: rest ∧ 0x80 < b := by
  have above {f : Int} (low : 128 < f) (high : f < 256) : 0x80 < lowByte f := by
    have less := lowByte_lt (a := 128) (by norm_num) low high
    exact less
  rw [positiveKey]
  rcases exponentBytes_cases scaled.small with ⟨_, _, bytes⟩ | ⟨c, few, _, _, _, bytes⟩ |
    ⟨c, few, _, _, _, bytes⟩ <;> rw [bytes]
  · exact ⟨_, _, rfl, above (by omega) (by omega)⟩
  · exact ⟨_, _, rfl, above (by omega) (by omega)⟩
  · exact ⟨_, _, rfl, above (by omega) (by omega)⟩

theorem zero_apart (scaled : Scaled e ps) :
    Apart [0x80] (positiveKey e ps) := by
  obtain ⟨b, rest, split, above⟩ := positiveKey_head scaled
  rw [split]
  exact .here above _ _

theorem apart_zero (scaled : Scaled e ps) :
    Apart ((positiveKey e ps).map complement) [0x80] := by
  obtain ⟨b, rest, split, above⟩ := positiveKey_head scaled
  have below : complement b < 0x80 := by
    have less := complement_lt above
    have half : complement 0x80 < 0x80 := by decide
    exact UInt8.lt_trans less half
  rw [split]
  exact .here below _ _

theorem Keyed.apart {v w : ℚ} {k l : List Byte} (keyed : Keyed v k) (keyed' : Keyed w l)
    (less : v < w) : Apart k l := by
  cases keyed with
  | zero =>
      cases keyed' with
      | zero => exact absurd less (lt_irrefl 0)
      | positive scaled => exact zero_apart scaled
      | negative scaled =>
          have amount := scaled.positive
          linarith
  | positive scaled =>
      have amount := scaled.positive
      cases keyed' with
      | zero => linarith
      | positive scaled' => exact positiveKey_apart scaled scaled' less
      | negative scaled' =>
          have amount' := scaled'.positive
          linarith
  | negative scaled =>
      cases keyed' with
      | zero => exact apart_zero scaled
      | positive scaled' =>
          obtain ⟨b, rest, split, above⟩ := positiveKey_head scaled
          obtain ⟨b', rest', split', above'⟩ := positiveKey_head scaled'
          have below : complement b < b' := by
            have less := complement_lt above
            have half : complement 0x80 < 0x80 := by decide
            exact UInt8.lt_trans (UInt8.lt_trans less half) above'
          rw [split, split']
          exact .here below _ _
      | negative scaled' =>
          exact (positiveKey_apart scaled' scaled (neg_lt_neg_iff.mp less)).reverse_order
            fun _ _ => complement_lt

theorem Keyed.unique {v : ℚ} {k l : List Byte} (keyed : Keyed v k) (keyed' : Keyed v l) :
    k = l := by
  generalize same : v = w at keyed'
  cases keyed with
  | zero =>
      cases keyed' with
      | zero => rfl
      | positive scaled => exact absurd same scaled.positive.ne
      | negative scaled => exact absurd same (neg_neg_of_pos scaled.positive).ne'
  | positive scaled =>
      have amount := scaled.positive
      cases keyed' with
      | zero => exact absurd same amount.ne'
      | positive scaled' => exact positiveKey_unique scaled scaled' same
      | negative scaled' =>
          have amount' := scaled'.positive
          linarith
  | negative scaled =>
      have amount := scaled.positive
      cases keyed' with
      | zero => linarith
      | positive scaled' =>
          have amount' := scaled'.positive
          linarith
      | negative scaled' => rw [positiveKey_unique scaled scaled' (neg_injective same)]

/-! ## The keys of fields -/

theorem exponentBytes_map (negate : Byte) (e : Int) :
    exponentBytes negate e = (exponentBytes 0 e).map (negate ^^^ ·) := by
  have shift : ∀ k, shiftBytes negate e k = (shiftBytes 0 e k).map (negate ^^^ ·) := by
    intro k
    induction k with
    | zero => rfl
    | succ k ih => rw [shiftBytes, shiftBytes, List.map_cons, UInt8.zero_xor, ih]
  rw [exponentBytes, exponentBytes]
  split
  · simp
  · dsimp only
    rw [List.map_cons, UInt8.zero_xor, shift]

theorem leadingDigits_lt {d : Nat} (member : d ∈ leadingDigits t) : d < 10 := by
  obtain ⟨c, inside, rfl⟩ := List.mem_map.mp member
  exact digit_lt (isdigit_of_mem ((List.dropWhile_sublist _).subset inside))

theorem pairs_lt (small : ∀ d ∈ ds, d < 10) : ∀ p ∈ pairs ds, p < 100 := by
  induction ds using pairs.induct with
  | case1 => simp [pairs]
  | case2 d =>
      have least := small d (by simp)
      simp only [pairs, List.mem_singleton, forall_eq]
      omega
  | case3 d e ds ih =>
      intro p member
      have first := small d (by simp)
      have second := small e (by simp)
      rcases List.mem_cons.mp member with rfl | behind
      · omega
      · exact ih (fun f inside => small f (by simp [inside])) p behind

theorem strip_subset (member : p ∈ strip ps) : p ∈ ps := by
  induction ps with
  | nil => exact member
  | cons q ps ih =>
      rw [strip_cons] at member
      split at member
      · cases member
      · rcases List.mem_cons.mp member with rfl | behind
        · exact List.mem_cons_self
        · exact List.mem_cons_of_mem _ (ih behind)

theorem strip_strip (ps : List Nat) : strip (strip ps) = strip ps := by
  induction ps with
  | nil => rfl
  | cons p ps ih =>
      rw [strip_cons]
      split
      · rfl
      · next some => rw [strip_cons, ih, if_neg some]

theorem normal_strip (small : ∀ d ∈ ds, d < 10) : Normal (strip (pairs ds)) :=
  ⟨fun p member => pairs_lt small p (strip_subset member), strip_strip _⟩

theorem leadingDigits_head {d : Nat} (split : leadingDigits t = d :: ds) : 1 ≤ d := by
  obtain ⟨c, rest, found, rfl, rfl⟩ := List.map_eq_cons_iff.mp split
  have other : c ≠ byte '0' := by simpa using dropWhile_head found
  have isDigit : isdigit c = true := by
    refine isdigit_of_mem (t := t) ((List.dropWhile_sublist (fun c => decide (c = byte '0'))).subset ?_)
    rw [found]
    exact List.mem_cons_self
  have value : c.toNat ≠ 48 := fun same => other (UInt8.toNat_inj.mp same)
  simp only [isdigit, Bool.and_eq_true, decide_eq_true_eq] at isDigit
  rw [digit]
  omega

theorem digitsRatio_nonneg (ds : List Nat) : 0 ≤ digitsRatio ds := by
  induction ds with
  | nil => exact le_refl _
  | cons d ds ih =>
      rw [digitsRatio]
      positivity

theorem digits_sublist (t : List Byte) :
    (wholeDigits t ++ fractionDigits t).Sublist (t.filter isdigit) := by
  have front (s : List Byte) : (s.takeWhile isdigit).Sublist (s.filter isdigit) := by
    have kept : (s.takeWhile isdigit).filter isdigit = s.takeWhile isdigit :=
      List.filter_eq_self.mpr fun c member => List.mem_takeWhile_imp member
    rw [← kept]
    exact (List.takeWhile_sublist _).filter _
  have whole : (wholeDigits t).filter isdigit = wholeDigits t :=
    List.filter_eq_self.mpr fun c member => List.mem_takeWhile_imp member
  have split : t.filter isdigit = wholeDigits t ++ (t.dropWhile isdigit).filter isdigit := by
    conv_lhs => rw [← List.takeWhile_append_dropWhile (p := isdigit) (l := t)]
    rw [List.filter_append, ← wholeDigits, whole]
  rw [split, fractionDigits]
  refine (List.Sublist.refl _).append ?_
  split
  · exact List.nil_sublist _
  · next c rest found =>
      split
      · rw [found]
        exact (front rest).trans ((List.sublist_cons_self c rest).filter _)
      · exact List.nil_sublist _

theorem scaled_leading (some : leadingDigits t ≠ []) (few : (t.filter isdigit).length < 2 ^ 31) :
    Scaled (leadingExponent t) (strip (pairs (leadingDigits t))) := by
  obtain ⟨d, ds, split⟩ := List.exists_cons_of_ne_nil some
  refine ⟨normal_strip fun d member => leadingDigits_lt member, ?_, ?_⟩
  · have first : (1 : ℚ) ≤ d := by exact_mod_cast leadingDigits_head split
    have rest := digitsRatio_nonneg ds
    rw [pairsValue_strip, pairsValue_pairs, split, digitsRatio]
    linarith
  · have total := (digits_sublist t).length_le
    have leading : (leadingDigits t).length ≤ (wholeDigits t ++ fractionDigits t).length := by
      rw [leadingDigits, List.length_map]
      exact (List.dropWhile_sublist _).length_le
    have positive : 0 < (leadingDigits t).length := by simp [split]
    rw [List.length_append] at total leading
    rw [leadingExponent]
    omega

theorem keyed_magnitude (t : List Byte) (few : (t.filter isdigit).length < 2 ^ 31) :
    Keyed (magnitude t) (magnitudeKey 0 t) ∧ Keyed (-magnitude t) (magnitudeKey 0xff t) := by
  rw [magnitude_eq, magnitudeKey, magnitudeKey]
  by_cases none : leadingDigits t = []
  · rw [if_pos none, if_pos none, none]
    have zero : pairsValue (strip (pairs [])) = 0 := rfl
    rw [zero, zero_mul, neg_zero]
    exact ⟨.zero, .zero⟩
  · have scaled := scaled_leading none few
    rw [if_neg none, if_neg none]
    refine ⟨.positive scaled, ?_⟩
    have inverted : exponentBytes 0xff (leadingExponent t) ++
        (strip (pairs (leadingDigits t))).map (mantissaByte 0xff) ++ [0xff] =
        (positiveKey (leadingExponent t) (strip (pairs (leadingDigits t)))).map complement := by
      have byte : complement ∘ mantissaByte 0 = mantissaByte 0xff := by
        funext p
        rw [Function.comp_apply, complement, mantissaByte, UInt8.zero_xor]
        rfl
      rw [positiveKey, List.map_append, List.map_append, List.map_map, byte,
        exponentBytes_map 0xff]
      rfl
    rw [inverted]
    exact .negative scaled

theorem skipBlanks_text (blank : Byte → Bool) (x beyond : List Byte) :
    (x.dropWhile blank = [] → (skipBlanks blank (x ++ beyond) x.length).2 = 0) ∧
      (x.dropWhile blank ≠ [] → skipBlanks blank (x ++ beyond) x.length =
        (x.dropWhile blank ++ beyond, (x.dropWhile blank).length)) := by
  induction x with
  | nil =>
      refine ⟨fun _ => ?_, fun some => absurd rfl some⟩
      rw [List.nil_append, List.length_nil]
      induction beyond with
      | nil => rfl
      | cons c beyond ih =>
          rw [skipBlanks]
          split
          · exact ih
          · rfl
  | cons c x ih =>
      rw [List.cons_append, List.length_cons, skipBlanks, Nat.add_sub_cancel]
      cases isBlank : blank c with
      | true =>
          rw [if_pos rfl, List.dropWhile_cons_of_pos isBlank]
          exact ih
      | false =>
          rw [if_neg (by simp), List.dropWhile_cons_of_neg (by simp [isBlank])]
          exact ⟨fun none => (nomatch none), fun _ => rfl⟩

/-- Behind `lineend` there is nothing but zero. -/
theorem unsigned_end (negate : Byte) (room : Nat) (mem : List Byte) :
    unsigned negate room mem 0 = some [0x80] := by
  rw [unsigned, eatZeroes]
  dsimp only
  rw [if_neg]
  rintro ⟨_, some⟩
  split at some <;> exact some rfl

theorem filter_dropWhile_le (blank : Byte → Bool) (x : List Byte) :
    ((x.dropWhile blank).filter isdigit).length ≤ (x.filter isdigit).length :=
  ((List.dropWhile_sublist blank).filter _).length_le

def numberKey (blank : Byte → Bool) (x : List Byte) (reverse : Bool) : List Byte :=
  let negate : Byte := if reverse then 0xff else 0
  match x.dropWhile blank with
  | [] => [0x80]
  | c :: t =>
      if c = byte '-' then magnitudeKey (negate ^^^ 0xff) t
      else if c = byte '+' then magnitudeKey negate t
      else magnitudeKey negate (c :: t)

theorem number_writes (blank : Byte → Bool) (x beyond : List Byte) (reverse : Bool) (room : Nat) :
    Writes (numberKey blank x reverse) (7 + x.length ≤ room)
      (number blank room (x ++ beyond) x.length reverse) := by
  have short : (x.dropWhile blank).length ≤ x.length := (List.dropWhile_sublist blank).length_le
  obtain ⟨blanks, text⟩ := skipBlanks_text blank x beyond
  have limit : MAX_EXP_ENC = 4 := rfl
  have checked {k : List Byte} {result : Option (List Byte)}
      (writes : Writes k (6 + x.length ≤ room - 1) result) :
      Writes k (7 + x.length ≤ room) (if room - 1 < 1 + MAX_EXP_ENC then none else result) := by
    split
    · exact ⟨fun _ same => (nomatch same), fun roomy => absurd roomy (by omega)⟩
    · exact ⟨writes.1, fun roomy => writes.2 (by omega)⟩
  rw [number, numberKey]
  dsimp only
  cases behind : x.dropWhile blank with
  | nil =>
      rw [blanks behind, Nat.zero_sub, unsigned_end, unsigned_end, unsigned_end, ite_self, ite_self]
      exact checked (Writes.some _ _)
  | cons c t =>
      have skipped := text (by simp [behind])
      rw [behind] at skipped short
      rw [List.length_cons] at skipped short
      have head : peek (c :: t ++ beyond) = c := rfl
      rw [skipped, head, List.cons_append, List.tail_cons, Nat.add_sub_cancel]
      refine checked ?_
      dsimp only
      by_cases minus : c = byte '-'
      · rw [if_pos minus, if_pos minus]
        obtain ⟨same, ends⟩ := unsigned_text ((if reverse then 0xff else 0) ^^^ 0xff) (room - 1) t
          beyond
        exact ⟨same, fun roomy => ends (by omega)⟩
      · rw [if_neg minus, if_neg minus]
        by_cases plus : c = byte '+'
        · rw [if_pos plus, if_pos plus]
          obtain ⟨same, ends⟩ := unsigned_text (if reverse then 0xff else 0) (room - 1) t beyond
          exact ⟨same, fun roomy => ends (by omega)⟩
        · rw [if_neg plus, if_neg plus]
          obtain ⟨same, ends⟩ := unsigned_text (if reverse then 0xff else 0) (room - 1) (c :: t)
            beyond
          exact ⟨same, fun roomy => ends (by rw [List.length_cons]; omega)⟩

/-- A number does not depend on what lies behind its field. -/
theorem number_beyond (blank : Byte → Bool) (room : Nat) (x beyond beyond' : List Byte)
    (reverse : Bool) :
    number blank room (x ++ beyond) x.length reverse =
      number blank room (x ++ beyond') x.length reverse := by
  obtain ⟨blanks, text⟩ := skipBlanks_text blank x beyond
  obtain ⟨blanks', text'⟩ := skipBlanks_text blank x beyond'
  rw [number, number]
  dsimp only
  cases behind : x.dropWhile blank with
  | nil =>
      rw [blanks behind, blanks' behind, Nat.zero_sub]
      simp only [unsigned_end, ite_self]
  | cons c t =>
      have head : ∀ more, peek (c :: t ++ more) = c := fun _ => rfl
      have rest := fun negate => unsigned_beyond negate (room - 1) t beyond beyond'
      have all := fun negate => unsigned_beyond negate (room - 1) (c :: t) beyond beyond'
      rw [text (by simp [behind]), text' (by simp [behind]), behind]
      dsimp only
      rw [head, head, List.cons_append, List.cons_append, List.tail_cons, List.tail_cons,
        List.length_cons, Nat.add_sub_cancel, rest, rest, ← List.length_cons, ← List.cons_append,
        ← List.cons_append, all]

theorem numberKey_keyed (blank : Byte → Bool) (x : List Byte) (reverse : Bool)
    (few : (x.filter isdigit).length < 2 ^ 31) :
    Keyed (if reverse then -val blank x else val blank x) (numberKey blank x reverse) := by
  have fewer := (filter_dropWhile_le blank x).trans_lt few
  rw [val, numberKey]
  cases behind : x.dropWhile blank with
  | nil =>
      simp only [neg_zero, ite_self]
      exact .zero
  | cons c t =>
      rw [behind] at fewer
      have fewT : (t.filter isdigit).length < 2 ^ 31 :=
        (((List.sublist_cons_self c t).filter _).length_le).trans_lt fewer
      obtain ⟨plain, opposite⟩ := keyed_magnitude t fewT
      obtain ⟨plainAll, oppositeAll⟩ := keyed_magnitude (c :: t) fewer
      dsimp only
      by_cases minus : c = byte '-'
      · simp only [if_pos minus]
        cases reverse with
        | false => exact opposite
        | true => simpa using plain
      · simp only [if_neg minus]
        by_cases plus : c = byte '+'
        · simp only [if_pos plus]
          cases reverse with
          | false => exact plain
          | true => exact opposite
        · simp only [if_neg plus]
          cases reverse with
          | false => exact plainAll
          | true => exact oppositeAll

/-- Two fields have keys that compare bytewise as their values do, with `-r` the other way
round; keys are equal when the values are, and none is a proper front of another. -/
theorem number_embeds (blank : Byte → Bool) (reverse : Bool) {x y : List Byte}
    (beyond beyond' : List Byte) (few : (x.filter isdigit).length < 2 ^ 31)
    (few' : (y.filter isdigit).length < 2 ^ 31) :
    ∃ kx ky,
      (∀ room, (∀ k, number blank room (x ++ beyond) x.length reverse = some k → k = kx) ∧
        (7 + x.length ≤ room → (number blank room (x ++ beyond) x.length reverse).isSome)) ∧
      (∀ room, (∀ k, number blank room (y ++ beyond') y.length reverse = some k → k = ky) ∧
        (7 + y.length ≤ room → (number blank room (y ++ beyond') y.length reverse).isSome)) ∧
      (kx.map UInt8.toNat < ky.map UInt8.toNat ↔
        if reverse then val blank y < val blank x else val blank x < val blank y) ∧
      (kx = ky ↔ val blank x = val blank y) ∧ (kx <+: ky → kx = ky) := by
  have keyed := numberKey_keyed blank x reverse few
  have keyed' := numberKey_keyed blank y reverse few'
  refine ⟨_, _, number_writes blank x beyond reverse, number_writes blank y beyond' reverse, ?_⟩
  generalize numberKey blank x reverse = kx at keyed ⊢
  generalize numberKey blank y reverse = ky at keyed' ⊢
  have orders : (if reverse then val blank y < val blank x else val blank x < val blank y) ↔
      (if reverse then -val blank x else val blank x) <
        (if reverse then -val blank y else val blank y) := by
    cases reverse <;> simp
  have equals : val blank x = val blank y ↔ (if reverse then -val blank x else val blank x) =
      (if reverse then -val blank y else val blank y) := by
    cases reverse <;> simp
  rw [orders, equals]
  generalize (if reverse then -val blank x else val blank x) = v at keyed ⊢
  generalize (if reverse then -val blank y else val blank y) = w at keyed' ⊢
  have bytes {k l : List Byte} (apart : Apart k l) :
      k.map UInt8.toNat < l.map UInt8.toNat ∧ ¬ k <+: l ∧ ¬ l <+: k := by
    have mapped : Apart (k.map UInt8.toNat) (l.map UInt8.toNat) :=
      apart.map fun a b less => UInt8.lt_iff_toNat_lt.mp less
    exact ⟨mapped.lt, fun front => mapped.not_prefix.1 (front.map _),
      fun front => mapped.not_prefix.2 (front.map _)⟩
  rcases lt_trichotomy v w with less | rfl | more
  · obtain ⟨order, notFront, _⟩ := bytes (keyed.apart keyed' less)
    refine ⟨iff_of_true order less, iff_of_false ?_ less.ne, fun front => absurd front notFront⟩
    rintro rfl
    exact lt_irrefl _ order
  · obtain rfl := keyed.unique keyed'
    exact ⟨iff_of_false (lt_irrefl _) (lt_irrefl _), iff_of_true rfl rfl, fun _ => rfl⟩
  · obtain ⟨order, _, notFront⟩ := bytes (keyed'.apart keyed more)
    refine ⟨iff_of_false order.not_gt more.not_gt, iff_of_false ?_ more.ne',
      fun front => absurd front notFront⟩
    rintro rfl
    exact lt_irrefl _ order

/-- A negative number with leading blanks and zeroes, and a fraction behind many zeroes. -/
theorem number_embeds_mixed :
    ∃ kx ky,
      (∀ room, (∀ k, number (· = byte ' ') room (ascii [' ', '-', '0', '1', '2', '.', '5', '0', 'x'])
          9 false = some k → k = kx) ∧
        (7 + 9 ≤ room → (number (· = byte ' ') room
          (ascii [' ', '-', '0', '1', '2', '.', '5', '0', 'x']) 9 false).isSome)) ∧
      (∀ room, (∀ k, number (· = byte ' ') room (ascii ['.', '0', '0', '7', '\n']) 4 false =
          some k → k = ky) ∧
        (7 + 4 ≤ room →
          (number (· = byte ' ') room (ascii ['.', '0', '0', '7', '\n']) 4 false).isSome)) ∧
      (kx.map UInt8.toNat < ky.map UInt8.toNat ↔
        val (· = byte ' ') (ascii [' ', '-', '0', '1', '2', '.', '5', '0', 'x']) <
          val (· = byte ' ') (ascii ['.', '0', '0', '7'])) ∧
      (kx = ky ↔ val (· = byte ' ') (ascii [' ', '-', '0', '1', '2', '.', '5', '0', 'x']) =
        val (· = byte ' ') (ascii ['.', '0', '0', '7'])) ∧ (kx <+: ky → kx = ky) :=
  number_embeds (· = byte ' ') false (x := ascii [' ', '-', '0', '1', '2', '.', '5', '0', 'x'])
    (y := ascii ['.', '0', '0', '7']) [] (ascii ['\n']) (by decide) (by decide)

end Netbase.Sort
