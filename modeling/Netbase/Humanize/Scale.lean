import Netbase.Humanize.Fit

/-!
# Rounding and the choice of a scale

At a fixed scale a number is rounded where its hundredfold fits into an `int64_t`, and cut
off where it does not.  The chosen scale is the least one that fits, as long as the
threshold of the division does not wrap around, allows for the rounding as it is done, and
counts the columns that are there.
-/

namespace Netbase.Humanize

open Netbase.Text Netbase.Lib.Rounding

/-- The number at a scale, rounded to the nearest integer. -/
def Call.exact (c : Call) (i : Nat) : Nat := rounded c.bytes.natAbs (c.flags.divisor ^ i)

/-- The call divides to the scale as it should: its number is not the most negative one, and a
number with no room for a hundredfold is not to be rounded up. -/
def Call.Roundable (c : Call) (i : Nat) : Prop :=
  c.bytes ≠ mostNegative ∧ (c.bytes.natAbs < large ∨
    2 * (c.bytes.natAbs % c.flags.divisor ^ i) < c.flags.divisor ^ i)

variable {i : Nat}

theorem exact_last (c : Call) (few : i ≤ 6) (least : c.bytes = mostNegative) :
    0 < c.exact i := by
  have power : 1024 ^ 6 ≤ c.bytes.natAbs := by
    rw [least]
    decide
  have divisor : c.flags.divisor ≤ 1024 := by
    unfold Flags.divisor
    split <;> decide
  have most : c.flags.divisor ^ i ≤ 1024 ^ 6 :=
    Nat.le_trans (Nat.pow_le_pow_left divisor i) (Nat.pow_le_pow_right (by decide) few)
  have positive : 0 < c.flags.divisor ^ i := Nat.pow_pos (divisor_pos c.flags)
  exact Nat.lt_of_lt_of_le (Nat.div_pos (Nat.le_trans most power) positive)
    (floor_le_rounded positive)

/-- What is printed at a scale is the rounded number just where that can be computed. -/
theorem shown_exact_iff (c : Call) (few : i ≤ 6) :
    c.shown i = c.exact i ↔ c.Roundable i := by
  have positive : 0 < c.flags.divisor ^ i := Nat.pow_pos (divisor_pos c.flags)
  unfold Call.shown Call.Roundable
  by_cases least : c.bytes = mostNegative
  · rw [if_pos least]
    have some_ := exact_last c few least
    exact iff_of_false (by omega) fun both => both.1 least
  · rw [if_neg least]
    by_cases small : c.bytes.natAbs < large
    · rw [if_pos small]
      exact iff_of_true rfl ⟨least, Or.inl small⟩
    · rw [if_neg small, Call.exact, eq_comm, rounded_eq_floor_iff positive]
      exact ⟨fun less => ⟨least, Or.inr less⟩, fun both => both.2.resolve_left small⟩

theorem sgn_injective (c : Call) {n m : Nat} : c.sgn * (n : Int) = c.sgn * (m : Int) ↔ n = m := by
  rcases sgn_cases c with ⟨sign, _⟩ | ⟨sign, _⟩ <;> rw [sign] <;> omega

theorem outcome_fixed {c : Call} (low : 1 ≤ c.scale) (high : c.scale ≤ 6) (room : c.Room)
    (whole : c.flags.decimal = false) (decimalPoint : List Byte) :
    c.outcome decimalPoint =
      .number (.integer (c.sgn * c.shown c.scale.toNat) c.scale.toNat) := by
  have fixed : ¬ c.Auto := by
    have all : ∀ n ≤ 6, ¬ n &&& (HN_AUTOSCALE ||| HN_GETSCALE) ≠ 0 := by decide
    exact all _ (by omega)
  obtain ⟨i, _, divided, scale, _⟩ := divided_eq c
  have same : c.divided.1 = c.scale.toNat := by
    rw [divided]
    rw [scale fixed]
    omega
  have plain : ¬ c.Tenths c.scale.toNat := fun tenths => by
    rw [tenths.2.2] at whole
    cases whole
  rw [outcome_eq ⟨by omega, Or.inl high⟩ room, if_neg (fun both => fixed both.1), same,
    if_neg plain]

/-! ## The scale that is chosen -/

/-- The scale of a call that has not been refused. -/
def Outcome.chosen : Outcome → Option Nat
  | .refused => none
  | .scale i => some i
  | .number (.integer _ i) => some i
  | .number (.decimal _ _ i) => some i

/-- The rounded number at a scale has room in the buffer. -/
def Call.Fits (c : Call) (i : Nat) : Prop :=
  (intText (c.sgn * c.exact i) ++ c.flags.sep ++ c.flags.prefixes i ++ c.suffix).length < c.len

def Call.Least (c : Call) (i : Nat) : Prop := c.Fits i ∧ ∀ j < i, ¬ c.Fits j

/-- The division finds the least scale: the threshold does not wrap around or is not met, no
column is kept for a prefix that the number has not got, and what is cut off would not have
been rounded up to a number as long as the room. -/
def Call.Scalable (c : Call) : Prop :=
  if c.bytes = mostNegative then 19 ≤ c.columns ∨ (c.columns = 18 ∧ c.flags.B = false)
  else if 17 ≤ c.columns then
    20 ≤ c.columns ∨ (c.columns = 18 ∧ c.stored < 7766279631452241870) ∨
      (c.columns = 19 ∧ c.stored < 3875820019684212686)
  else if c.bytes.natAbs < large then
    ¬ (c.flags.B = false ∧ 10 ^ c.columns ≤ c.bytes.natAbs ∧
      c.bytes.natAbs < 10 ^ (c.columns + 1))
  else
    ∀ i ≤ 6, c.Fits i → c.bytes.natAbs / c.flags.divisor ^ i + 50 < 10 ^ (c.columns + 2)

/-- The digits there is room for at a scale. -/
def Call.digits (c : Call) (i : Nat) : Nat :=
  c.columns + (if c.post = 100 then 2 else 0) + (if i = 0 ∧ c.flags.B = false then 1 else 0)

theorem length_intText_iff (c : Call) {n k : Nat} (positive : 0 < k) :
    (intText (c.sgn * n)).length ≤ (if c.bytes < 0 then 1 else 0) + k ↔ n < 10 ^ k := by
  refine ⟨fun short => ?_, length_intText_le c positive⟩
  rcases Nat.eq_zero_or_pos n with zero | some_
  · rw [zero]
    exact Nat.pow_pos (by decide)
  · refine (length_decimal_le_iff positive).mp ?_
    unfold intText at short
    rcases sgn_cases c with ⟨sign, other⟩ | ⟨sign, negative⟩
    · rw [sign, Int.one_mul, if_neg (by omega), if_neg other, Int.natAbs_natCast,
        List.nil_append] at short
      omega
    · have same : (-1 * (n : Int)).natAbs = n := by omega
      rw [sign, if_pos (by omega), if_pos negative, same, List.length_append,
        List.length_singleton] at short
      omega

theorem length_prefixes (flags : Flags) (few : i ≤ 6) :
    (flags.prefixes i).length + (if i = 0 ∧ flags.B = false then 1 else 0) = 1 := by
  rcases i with _ | _ | _ | _ | _ | _ | _ | i
  · unfold Flags.prefixes
    cases flags.B <;> rfl
  all_goals first | rfl | omega

theorem fits_iff {c : Call} (room : c.Room) (few : i ≤ 6) :
    c.Fits i ↔ c.exact i < 10 ^ c.digits i := by
  have positive : 0 < c.digits i := Nat.add_pos_left (Nat.add_pos_left (columns_pos room) _) _
  have mark := length_prefixes c.flags few
  have base := baselen_eq c
  rw [← length_intText_iff c positive, Call.Fits]
  unfold Call.Room at room
  simp only [List.length_append, Call.digits, Call.columns]
  omega

theorem chosen_outcome {c : Call} {decimalPoint : List Byte}
    (chosen : (c.outcome decimalPoint).chosen = some i) :
    (c.Known ∧ c.Room) ∧ i = c.divided.1 := by
  by_cases both : c.Known ∧ c.Room
  · refine ⟨both, ?_⟩
    rw [outcome_eq both.1 both.2] at chosen
    split at chosen
    · exact (Option.some.inj chosen).symm
    · split at chosen
      · split at chosen
        · cases chosen
        · exact (Option.some.inj chosen).symm
      · exact (Option.some.inj chosen).symm
  · rw [outcome_refused both] at chosen
    cases chosen

theorem least_iff_zero {c : Call} (fits : c.Fits 0) (i : Nat) : c.Least i ↔ i = 0 := by
  constructor
  · intro least
    by_contra some_
    exact least.2 0 (Nat.pos_of_ne_zero some_) fits
  · rintro rfl
    exact ⟨fits, fun j none_ => absurd none_ (Nat.not_lt_zero j)⟩

section Chosen

variable {c : Call}

/-- The scale is 0 just where the number itself is below the threshold. -/
theorem chosen_zero_iff (auto : c.Auto) (narrow : c.columns ≤ 19) :
    c.divided.1 = 0 ↔ (c.stored : Int) < c.limit := by
  obtain ⟨i, _, divided, _, _, run⟩ := divided_eq c
  obtain ⟨before, stop⟩ := run auto narrow
  rw [divided]
  constructor
  · rintro rfl
    simpa using stop (by decide)
  · intro less
    by_contra some_
    have first := before 0 (Nat.pos_of_ne_zero some_)
    rw [Nat.pow_zero, Nat.div_one] at first
    omega

theorem digits_zero (c : Call) : c.digits 0 =
    c.columns + (if c.post = 100 then 2 else 0) + (if c.flags.B = false then 1 else 0) := by
  simp only [Call.digits, true_and]

theorem exact_zero (c : Call) : c.exact 0 = c.bytes.natAbs := by
  rw [Call.exact, Nat.pow_zero, rounded_one]

theorem fits_zero (room : c.Room) (other : c.bytes ≠ mostNegative) (wide : 17 ≤ c.columns) :
    c.Fits 0 := by
  rw [fits_iff room (by decide), exact_zero, digits_zero]
  have legal := c.legal
  by_cases small : c.bytes.natAbs < large
  · have most : c.bytes.natAbs < 10 ^ 17 := by
      unfold large at small
      omega
    exact Nat.lt_of_lt_of_le most (Nat.pow_le_pow_right (by decide) (by omega))
  · have most : c.bytes.natAbs < 10 ^ 19 := by omega
    rw [post_large other small, if_pos rfl]
    exact Nat.lt_of_lt_of_le most (Nat.pow_le_pow_right (by decide) (by omega))

theorem limit_wide : (c.columns = 17 → c.limit < 0) ∧
    (c.columns = 18 → c.limit = 7766279631452241870) ∧
    (c.columns = 19 → c.limit = 3875820019684212686) := by
  have values : int64 (maxOf 17 - 50) < 0 ∧ int64 (maxOf 18 - 50) = 7766279631452241870 ∧
      int64 (maxOf 19 - 50) = 3875820019684212686 := by decide +kernel
  unfold Call.limit
  refine ⟨fun same => ?_, fun same => ?_, fun same => ?_⟩
  · rw [show c.len - c.baselen = 17 from same]
    exact values.1
  · rw [show c.len - c.baselen = 18 from same]
    exact values.2.1
  · rw [show c.len - c.baselen = 19 from same]
    exact values.2.2

theorem chosen_of_wide (auto : c.Auto) (wide : 20 ≤ c.columns) : c.divided.1 = 0 := by
  obtain ⟨i, _, divided, _, zero, _⟩ := divided_eq c
  rw [divided]
  exact zero auto wide

/-- Where the threshold of the division has wrapped around or is not needed. -/
theorem least_wide (room : c.Room) (auto : c.Auto) (other : c.bytes ≠ mostNegative)
    (wide : 17 ≤ c.columns) : c.Least c.divided.1 ↔ c.Scalable := by
  rw [least_iff_zero (fits_zero room other wide), Call.Scalable, if_neg other, if_pos wide]
  obtain ⟨seventeen, eighteen, nineteen⟩ := limit_wide (c := c)
  by_cases enough : 20 ≤ c.columns
  · exact iff_of_true (chosen_of_wide auto enough) (Or.inl enough)
  · rw [chosen_zero_iff auto (by omega)]
    have cases_ : c.columns = 17 ∨ c.columns = 18 ∨ c.columns = 19 := by omega
    rcases cases_ with same | same | same
    · have limit := seventeen same
      omega
    · rw [eighteen same]
      omega
    · rw [nineteen same]
      omega

theorem least_mostNegative (room : c.Room) (auto : c.Auto) (least : c.bytes = mostNegative) :
    c.Least c.divided.1 ↔ c.Scalable := by
  have stored := stored_mostNegative least
  have post := post_mostNegative least
  have size : c.bytes.natAbs = 9223372036854775808 := by rw [least]; rfl
  have zero : c.Fits 0 ↔ 9223372036854775808 <
      10 ^ (c.columns + if c.flags.B = false then 1 else 0) := by
    rw [fits_iff room (by decide), exact_zero, digits_zero, size, post, if_neg (by decide),
      Nat.add_zero]
  have digits : ∀ k, 9223372036854775808 < 10 ^ k ↔ 19 ≤ k := by
    intro k
    by_cases enough : 19 ≤ k
    · have power : 10 ^ 19 ≤ 10 ^ k := Nat.pow_le_pow_right (by decide) enough
      exact iff_of_true (by omega) enough
    · have power : 10 ^ k ≤ 10 ^ 18 := Nat.pow_le_pow_right (by decide) (by omega)
      exact iff_of_false (by omega) enough
  obtain ⟨seventeen, eighteen, nineteen⟩ := limit_wide (c := c)
  rw [Call.Scalable, if_pos least]
  by_cases same : c.columns = 17
  · -- the threshold is negative, and the number is divided down to the last scale
    have first : c.Fits 1 ∧ 1 < c.divided.1 := by
      obtain ⟨i, few, divided, _, _, run⟩ := divided_eq c
      obtain ⟨_, stop⟩ := run auto (show c.columns ≤ 19 by omega)
      have last : i = 6 := by
        by_contra early
        have below := stop (by omega)
        rw [stored, Nat.zero_div] at below
        omega
      refine ⟨?_, by rw [divided, last]; exact (by decide : 1 < 6)⟩
      have most : c.exact 1 ≤ 9223372036854775808 / 1000 + 1 := by
        have floor := rounded_le_floor (n := c.bytes.natAbs)
          (Nat.pow_pos (n := 1) (divisor_pos c.flags))
        have quotient : c.bytes.natAbs / c.flags.divisor ^ 1 ≤ c.bytes.natAbs / 1000 :=
          Nat.div_le_div_left (by rw [Nat.pow_one]; exact divisor_large c.flags) (by decide)
        rw [size] at quotient
        exact Nat.le_trans floor (Nat.succ_le_succ (by rwa [size]))
      rw [fits_iff room (by decide), Call.digits, post, same, if_neg (by decide),
        if_neg (fun both => absurd both.1 (by decide))]
      exact Nat.lt_of_le_of_lt most (by decide)
    exact iff_of_false (fun found => found.2 1 first.2 first.1) (by omega)
  · have chosen : c.divided.1 = 0 := by
      by_cases enough : 20 ≤ c.columns
      · exact chosen_of_wide auto enough
      · rw [chosen_zero_iff auto (by omega), stored]
        have cases_ : c.columns ≤ 16 ∨ c.columns = 18 ∨ c.columns = 19 := by omega
        rcases cases_ with few | same | same
        · have power : 0 < 10 ^ c.columns := Nat.pow_pos (by decide)
          exact (lt_limit_iff few 0).mpr (by omega)
        · rw [eighteen same]
          decide
        · rw [nineteen same]
          decide
    have alone : c.Least 0 ↔ c.Fits 0 :=
      ⟨And.left, fun fits => ⟨fits, fun j none_ => absurd none_ (Nat.not_lt_zero j)⟩⟩
    rw [chosen, alone, zero, digits]
    cases c.flags.B with
    | false =>
        simp only [if_true, and_true]
        omega
    | true =>
        simp only [Bool.true_eq_false, if_false, and_false, or_false, Nat.add_zero]

theorem least_small (room : c.Room) (auto : c.Auto) (other : c.bytes ≠ mostNegative)
    (narrow : ¬ 17 ≤ c.columns) (small : c.bytes.natAbs < large) :
    c.Least c.divided.1 ↔ c.Scalable := by
  have stored := stored_small other small
  have post := post_small small
  have positive := columns_pos room
  obtain ⟨i, few, divided, _, _, run⟩ := divided_eq c
  obtain ⟨before, stop⟩ := run auto (show c.columns ≤ 19 by omega)
  -- below the threshold a number rounds to one that has the room
  have below : ∀ j, ((c.stored / c.flags.divisor ^ j : Nat) : Int) < c.limit ↔
      c.exact j < 10 ^ c.columns := by
    intro j
    have rounds : c.exact j = (c.stored / c.flags.divisor ^ j + 50) / 100 := by
      rw [stored]
      exact (rounded_of_hundredths (Nat.pow_pos (divisor_pos c.flags))).symm
    rw [lt_limit_iff (by omega), rounds]
    omega
  have fits : ∀ j ≤ 6, c.Fits j ↔ c.exact j <
      10 ^ (c.columns + if j = 0 ∧ c.flags.B = false then 1 else 0) := by
    intro j few
    rw [fits_iff room few, Call.digits, post, if_neg (by decide), Nat.add_zero]
  have zero : i = 0 ↔ c.bytes.natAbs < 10 ^ c.columns := by
    have chosen := chosen_zero_iff auto (show c.columns ≤ 19 by omega)
    have first := below 0
    rw [Nat.pow_zero, Nat.div_one, exact_zero] at first
    rw [divided] at chosen
    exact chosen.trans first
  have found : c.exact i < 10 ^ c.columns := by
    rcases Nat.lt_or_ge i 6 with early | late
    · exact (below i).mp (stop early)
    · have last := last_scale c
      have power : 10 ^ 1 ≤ 10 ^ c.columns := Nat.pow_le_pow_right (by decide) positive
      rw [show i = 6 by omega, ← below, lt_limit_iff (by omega)]
      omega
  rw [Call.Scalable, if_neg other, if_neg narrow, if_pos small, divided]
  constructor
  · rintro ⟨_, least⟩ ⟨bare, above, less⟩
    have some_ : i ≠ 0 := fun same => absurd (zero.mp same) (Nat.not_lt.mpr above)
    refine least 0 (Nat.pos_of_ne_zero some_) ((fits 0 (by decide)).mpr ?_)
    rwa [exact_zero, if_pos ⟨rfl, bare⟩]
  · intro clear
    refine ⟨(fits i few).mpr (Nat.lt_of_lt_of_le found
      (Nat.pow_le_pow_right (by decide) (Nat.le_add_right _ _))), fun j less fit => ?_⟩
    rw [fits j (by omega)] at fit
    by_cases first : j = 0 ∧ c.flags.B = false
    · have above : 10 ^ c.columns ≤ c.bytes.natAbs :=
        Nat.not_lt.mp fun small => by have := zero.mpr small; omega
      rw [if_pos first, first.1, exact_zero] at fit
      exact clear ⟨first.2, above, fit⟩
    · rw [if_neg first, Nat.add_zero, ← below] at fit
      have reached := before j less
      omega

/-- With less columns, for a number whose hundredfold does not fit. -/
theorem least_large (room : c.Room) (auto : c.Auto) (other : c.bytes ≠ mostNegative)
    (narrow : ¬ 17 ≤ c.columns) (big : ¬ c.bytes.natAbs < large) :
    c.Least c.divided.1 ↔ c.Scalable := by
  have stored := stored_large other big
  have post := post_large other big
  have positive := columns_pos room
  obtain ⟨i, few, divided, _, _, run⟩ := divided_eq c
  obtain ⟨before, stop⟩ := run auto (show c.columns ≤ 19 by omega)
  have below : ∀ j, ((c.stored / c.flags.divisor ^ j : Nat) : Int) < c.limit ↔
      c.bytes.natAbs / c.flags.divisor ^ j + 50 < 10 ^ (c.columns + 2) := by
    intro j
    rw [lt_limit_iff (by omega), stored, Nat.pow_add]
    omega
  have found : c.bytes.natAbs / c.flags.divisor ^ i + 50 < 10 ^ (c.columns + 2) := by
    rcases Nat.lt_or_ge i 6 with early | late
    · exact (below i).mp (stop early)
    · have last := last_scale c
      have power : 10 ^ 3 ≤ 10 ^ (c.columns + 2) := Nat.pow_le_pow_right (by decide) (by omega)
      rw [stored] at last
      rw [show i = 6 by omega]
      omega
  have fit : c.Fits i := by
    have rounds := rounded_le_floor (n := c.bytes.natAbs)
      (Nat.pow_pos (n := i) (divisor_pos c.flags))
    have room_ : 10 ^ (c.columns + 2) ≤ 10 ^ c.digits i :=
      Nat.pow_le_pow_right (by decide) (by rw [Call.digits, post, if_pos rfl]; omega)
    rw [fits_iff room few, Call.exact]
    omega
  rw [Call.Scalable, if_neg other, if_neg narrow, if_neg big, divided]
  constructor
  · intro least j _ fits
    have later : i ≤ j := Nat.not_lt.mp fun less => least.2 j less fits
    have quotient : c.bytes.natAbs / c.flags.divisor ^ j ≤ c.bytes.natAbs / c.flags.divisor ^ i :=
      Nat.div_le_div_left (Nat.pow_le_pow_right (divisor_pos c.flags) later)
        (Nat.pow_pos (divisor_pos c.flags))
    omega
  · intro clear
    refine ⟨fit, fun j less fits => ?_⟩
    have short := (below j).mpr (clear j (by omega) fits)
    have reached := before j less
    omega

end Chosen

/-- 1536 at a fixed scale. -/
def oneAndHalf : Call where
  len := 8
  bytes := 1536
  suffix := []
  scale := 1
  flags := ⟨false, true, false, false⟩
  legal := by decide

def twoColumns : Call := { oneAndHalf with len := 4, scale := 0x20 }

/-- The greatest number at the scale of `K`. -/
def greatest : Call := { oneAndHalf with len := 30, bytes := 9223372036854775807, legal := by decide }

/-- 5 with 17 columns. -/
def five : Call := { oneAndHalf with len := 19, bytes := 5, scale := 0x20, legal := by decide }

end Netbase.Humanize
