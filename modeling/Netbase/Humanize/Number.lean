import Mathlib.Data.Nat.Digits.Defs
import Netbase.Lib.Rounding
import Netbase.Text.Decimal

/-!
# Human-readable numbers

`humanize_number` keeps two decimals of a number by a factor of 100 where it has room for
them, divides it down to a scale, and prints it with a prefix.  An `int64_t` wraps around.
-/

namespace Netbase.Humanize

open Netbase.Text Netbase.Lib.Rounding

def INT64_MAX : Int := 9223372036854775807

def INT_MAX : Nat := 2147483647

/-- A value as an `int64_t`. -/
def int64 (value : Int) : Int := Int.bmod value (2 ^ 64)

def HN_GETSCALE : Nat := 0x10

def HN_AUTOSCALE : Nat := 0x20

def maxscale : Nat := 6

/-- `flags` -/
structure Flags where
  decimal : Bool
  noSpace : Bool
  B : Bool
  divisor1000 : Bool
  deriving DecidableEq, Repr

/-- The arguments of a call, the buffer aside. -/
structure Call where
  len : Nat
  bytes : Int
  suffix : List Byte
  scale : Int
  flags : Flags
  legal : -2 ^ 63 ≤ bytes ∧ bytes < 2 ^ 63

def Flags.divisor (flags : Flags) : Nat := if flags.divisor1000 then 1000 else 1024

/-- `SCALE2PREFIX` -/
def Flags.prefixes (flags : Flags) : Nat → List Byte
  | 0 => if flags.B then [byte 'B'] else []
  | 1 => [if flags.divisor1000 then byte 'k' else byte 'K']
  | 2 => [byte 'M']
  | 3 => [byte 'G']
  | 4 => [byte 'T']
  | 5 => [byte 'P']
  | 6 => [byte 'E']
  | _ => []

def Flags.sep (flags : Flags) : List Byte := if flags.noSpace then [] else [byte ' ']

/-- The variables behind the test of the sign. -/
structure Signed where
  sign : Int
  bytes : Int
  post : Int
  baselen : Nat
  deriving DecidableEq, Repr

def stripSign (bytes : Int) : Signed :=
  if bytes < 0 then
    if int64 (-bytes) < INT64_MAX / 100 then ⟨-1, int64 (bytes * -100), 1, 3⟩
    else ⟨-1, int64 (-bytes), 100, 5⟩
  else if bytes < INT64_MAX / 100 then ⟨1, int64 (bytes * 100), 1, 2⟩
  else ⟨1, bytes, 100, 4⟩

/-- `max` with so many additional columns. -/
def maxOf : Nat → Int
  | 0 => 100
  | columns + 1 => int64 (maxOf columns * 10)

/-- The division until the number fits, with so many scales left. -/
def fit (divisor limit : Int) : Nat → Int → Nat × Int
  | 0, bytes => (0, bytes)
  | left + 1, bytes =>
      if bytes ≥ limit then
        let (i, bytes) := fit divisor limit left (bytes.tdiv divisor)
        (i + 1, bytes)
      else (0, bytes)

/-- The division down to a scale. -/
def divideBy (divisor : Int) : Nat → Int → Int
  | 0, bytes => bytes
  | i + 1, bytes => divideBy divisor i (bytes.tdiv divisor)

/-- What goes to `snprintf`: an integer, or a digit and a decimal, and the scale. -/
inductive Number where
  | integer (num : Int) (i : Nat)
  | decimal (s1 s2 : Int) (i : Nat)
  deriving DecidableEq, Repr

/-- The ways a call ends. -/
inductive Outcome where
  | refused
  | scale (i : Nat)
  | number (n : Number)
  deriving DecidableEq, Repr

/-- `scale` asks for a scale that fits. -/
def Call.Auto (c : Call) : Prop := c.scale.toNat &&& (HN_AUTOSCALE ||| HN_GETSCALE) ≠ 0

instance (c : Call) : Decidable c.Auto := inferInstanceAs (Decidable (_ ≠ _))

def Call.GetScale (c : Call) : Prop := c.scale.toNat &&& HN_GETSCALE ≠ 0

instance (c : Call) : Decidable c.GetScale := inferInstanceAs (Decidable (_ ≠ _))

/-- `baselen`, complete. -/
def Call.baselen (c : Call) : Nat :=
  (stripSign c.bytes).baselen + c.flags.sep.length + c.suffix.length

/-- The scale, and the number divided down to it. -/
def Call.divided (c : Call) : Nat × Int :=
  let bytes := (stripSign c.bytes).bytes
  if c.Auto then
    if c.len - c.baselen > 19 then (0, bytes)
    else fit c.flags.divisor (int64 (maxOf (c.len - c.baselen) - 50)) maxscale bytes
  else (min c.scale.toNat maxscale, divideBy c.flags.divisor (min c.scale.toNat maxscale) bytes)

/-- The function up to its calls of `snprintf`. -/
def Call.outcome (c : Call) (decimalPoint : List Byte) : Outcome :=
  let s := stripSign c.bytes
  if c.scale < 0 ∨ (c.scale > maxscale ∧ ¬ c.Auto) then .refused
  else if c.len < c.baselen + 1 then .refused
  else
    let (i, bytes) := c.divided
    if c.Auto ∧ c.GetScale then .scale i
    else if i = 0 then
      .number (.integer (s.sign * if s.post = 1 then bytes.tdiv 100 else bytes) 0)
    else
      let bytes := int64 (bytes * s.post)
      if bytes < 995 ∧ c.flags.decimal = true then
        if c.len < c.baselen + 1 + 1 + decimalPoint.length then .refused
        else
          let b := (bytes + 5).tdiv 10
          .number (.decimal (s.sign * b.tdiv 10) (b.tmod 10) i)
      else .number (.integer (s.sign * (bytes + 50).tdiv 100) i)

/-- The text of a number, as `%d` prints it. -/
def intText (n : Int) : List Byte := (if n < 0 then [byte '-'] else []) ++ decimal n.natAbs

/-- The text `snprintf` would print. -/
def Call.text (c : Call) (decimalPoint : List Byte) : Number → List Byte
  | .integer num i => intText num ++ c.flags.sep ++ c.flags.prefixes i ++ c.suffix
  | .decimal s1 s2 i =>
      intText s1 ++ decimalPoint ++ intText s2 ++ c.flags.sep ++ c.flags.prefixes i ++ c.suffix

/-- `snprintf` into a buffer: what it returns, and what the buffer holds. -/
def snprintf (len : Nat) (text : List Byte) : Int × List Byte :=
  (if INT_MAX < text.length then -1 else text.length, text.take (len - 1))

/-- What a call returns, and what its buffer holds where it has been written. -/
structure Result where
  ret : Int
  buf : List Byte
  deriving DecidableEq, Repr

/-- `humanize_number` -/
def humanizeNumber (c : Call) (decimalPoint : List Byte) : Result :=
  match c.outcome decimalPoint with
  | .refused => ⟨-1, []⟩
  | .scale i => ⟨i, []⟩
  | .number n =>
      let (r, buf) := snprintf c.len (c.text decimalPoint n)
      -- a negative value is beyond every size
      if r < 0 ∨ r > c.len then ⟨-1, buf⟩ else ⟨r, buf⟩

/-! ## The number that is divided -/

/-- The least number whose hundredfold is not tried: `INT64_MAX / 100`. -/
def large : Nat := 92233720368547758

/-- The number whose negation wraps around. -/
def mostNegative : Int := -2 ^ 63

def Call.sgn (c : Call) : Int := if c.bytes < 0 then -1 else 1

/-- `bytes` behind the test of the sign. -/
def Call.stored (c : Call) : Nat :=
  if c.bytes = mostNegative then 0
  else if c.bytes.natAbs < large then 100 * c.bytes.natAbs
  else c.bytes.natAbs

def Call.post (c : Call) : Nat :=
  if c.bytes = mostNegative ∨ c.bytes.natAbs < large then 1 else 100

/-- The number that is printed at a scale. -/
def Call.shown (c : Call) (i : Nat) : Nat :=
  if c.bytes = mostNegative then 0
  else if c.bytes.natAbs < large then rounded c.bytes.natAbs (c.flags.divisor ^ i)
  else c.bytes.natAbs / c.flags.divisor ^ i

/-- The hundredths of the number at a scale. -/
def Call.hundredths (c : Call) (i : Nat) : Nat := c.stored / c.flags.divisor ^ i * c.post

section Sizes

variable {c : Call}

theorem stored_mostNegative (least : c.bytes = mostNegative) : c.stored = 0 := if_pos least

theorem post_mostNegative (least : c.bytes = mostNegative) : c.post = 1 := if_pos (Or.inl least)

theorem stored_small (other : c.bytes ≠ mostNegative) (small : c.bytes.natAbs < large) :
    c.stored = 100 * c.bytes.natAbs := by
  rw [Call.stored, if_neg other, if_pos small]

theorem post_small (small : c.bytes.natAbs < large) : c.post = 1 := if_pos (Or.inr small)

theorem stored_large (other : c.bytes ≠ mostNegative) (big : ¬ c.bytes.natAbs < large) :
    c.stored = c.bytes.natAbs := by
  rw [Call.stored, if_neg other, if_neg big]

theorem post_large (other : c.bytes ≠ mostNegative) (big : ¬ c.bytes.natAbs < large) :
    c.post = 100 :=
  if_neg (not_or.mpr ⟨other, big⟩)

end Sizes

theorem int64_of_range {value : Int} (low : -2 ^ 63 ≤ value) (high : value < 2 ^ 63) :
    int64 value = value :=
  Int.bmod_eq_of_le (by omega) (by omega)

theorem stripSign_eq (c : Call) : stripSign c.bytes =
    ⟨c.sgn, c.stored, c.post,
      (if c.bytes < 0 then 3 else 2) + (if c.post = 100 then 2 else 0)⟩ := by
  have limit : INT64_MAX / 100 = (large : Int) := by decide
  have legal := c.legal
  unfold stripSign Call.sgn
  rw [limit]
  by_cases least : c.bytes = mostNegative
  · rw [stored_mostNegative least, post_mostNegative least, least]
    decide
  · have above : -2 ^ 63 < c.bytes := lt_of_le_of_ne legal.1 (Ne.symm least)
    by_cases negative : c.bytes < 0
    · have size : -c.bytes = (c.bytes.natAbs : Int) := by omega
      have exact_ : int64 (-c.bytes) = (c.bytes.natAbs : Int) := by
        rw [int64_of_range (by omega) (by omega), size]
      rw [if_pos negative, if_pos negative, exact_]
      by_cases small : c.bytes.natAbs < large
      · have value : c.bytes * -100 = ((100 * c.bytes.natAbs : Nat) : Int) := by omega
        rw [if_pos (Int.ofNat_lt.mpr small), if_pos negative, stored_small least small,
          post_small small, value,
          int64_of_range (by omega) (by unfold large at small; omega)]
        rfl
      · rw [if_neg (fun less => small (Int.ofNat_lt.mp less)), if_pos negative,
          stored_large least small, post_large least small]
        rfl
    · have size : c.bytes = (c.bytes.natAbs : Int) := by omega
      rw [if_neg negative, if_neg negative]
      by_cases small : c.bytes.natAbs < large
      · have value : c.bytes * 100 = ((100 * c.bytes.natAbs : Nat) : Int) := by omega
        rw [if_pos (by omega), if_neg negative, stored_small least small, post_small small, value,
          int64_of_range (by omega) (by unfold large at small; omega)]
        rfl
      · rw [if_neg (by omega), if_neg negative, stored_large least small,
          post_large least small, ← size]
        rfl

theorem divisor_pos (flags : Flags) : 0 < flags.divisor := by
  unfold Flags.divisor
  split <;> decide

theorem divisor_large (flags : Flags) : 1000 ≤ flags.divisor := by
  unfold Flags.divisor
  split <;> decide

/-- The division stops at the first scale that is below the limit, or at the last one. -/
theorem fit_spec (d : Nat) (limit : Int) : ∀ (left n : Nat), ∃ i ≤ left,
    fit d limit left n = (i, ((n / d ^ i : Nat) : Int)) ∧
      (∀ j < i, limit ≤ ((n / d ^ j : Nat) : Int)) ∧
      (i < left → ((n / d ^ i : Nat) : Int) < limit) := by
  intro left
  induction left with
  | zero =>
      exact fun n => ⟨0, Nat.le_refl _, by simp [fit],
        fun j none_ => absurd none_ (Nat.not_lt_zero j),
        fun none_ => absurd none_ (Nat.not_lt_zero 0)⟩
  | succ left ih =>
      intro n
      by_cases above : (n : Int) ≥ limit
      · obtain ⟨i, few, run, before, stop⟩ := ih (n / d)
        have next : ∀ j, n / d / d ^ j = n / d ^ (j + 1) := by
          intro j
          rw [Nat.div_div_eq_div_mul, Nat.pow_succ']
        refine ⟨i + 1, Nat.succ_le_succ few, ?_, ?_, ?_⟩
        · rw [fit, if_pos above, ← Int.ofNat_tdiv, run, next]
        · intro j less
          cases j with
          | zero => simpa using above
          | succ j =>
              rw [← next]
              exact before j (Nat.lt_of_succ_lt_succ less)
        · intro less
          rw [← next]
          exact stop (Nat.lt_of_succ_lt_succ less)
      · refine ⟨0, Nat.zero_le _, by simp [fit, above],
          fun j none_ => absurd none_ (Nat.not_lt_zero j), fun _ => ?_⟩
        rw [Nat.pow_zero, Nat.div_one]
        exact Int.not_le.mp above

theorem divideBy_eq (d : Nat) : ∀ i n : Nat, divideBy d i n = ((n / d ^ i : Nat) : Int) := by
  intro i
  induction i with
  | zero => exact fun n => by rw [divideBy, Nat.pow_zero, Nat.div_one]
  | succ i ih =>
      intro n
      rw [divideBy, ← Int.ofNat_tdiv, ih, Nat.div_div_eq_div_mul, Nat.pow_succ']

/-- The threshold of the division. -/
def Call.limit (c : Call) : Int := int64 (maxOf (c.len - c.baselen) - 50)

theorem divided_eq (c : Call) : ∃ i ≤ 6,
    c.divided = (i, ((c.stored / c.flags.divisor ^ i : Nat) : Int)) ∧
      (¬ c.Auto → i = min c.scale.toNat 6) ∧
      (c.Auto → 19 < c.len - c.baselen → i = 0) ∧
      (c.Auto → c.len - c.baselen ≤ 19 →
        (∀ j < i, c.limit ≤ ((c.stored / c.flags.divisor ^ j : Nat) : Int)) ∧
          (i < 6 → ((c.stored / c.flags.divisor ^ i : Nat) : Int) < c.limit)) := by
  have stored : (stripSign c.bytes).bytes = (c.stored : Int) := by rw [stripSign_eq]
  by_cases auto : c.Auto
  · by_cases wide : c.len - c.baselen > 19
    · refine ⟨0, by decide, ?_, fun other => absurd auto other, fun _ _ => rfl,
        fun _ narrow => absurd wide (Nat.not_lt.mpr narrow)⟩
      rw [Call.divided, if_pos auto, if_pos wide, stored, Nat.pow_zero, Nat.div_one]
    · obtain ⟨i, few, run, before, stop⟩ := fit_spec c.flags.divisor c.limit maxscale c.stored
      refine ⟨i, few, ?_, fun other => absurd auto other, fun _ other => absurd other wide,
        fun _ _ => ⟨before, stop⟩⟩
      rw [Call.divided, if_pos auto, if_neg wide, stored]
      exact run
  · refine ⟨min c.scale.toNat 6, Nat.min_le_right _ _, ?_, fun _ => rfl,
      fun other => absurd other auto, fun other => absurd other auto⟩
    rw [Call.divided, if_neg auto, stored, divideBy_eq]
    rfl

theorem stored_lt (c : Call) : c.stored < 2 ^ 63 := by
  have legal := c.legal
  unfold Call.stored mostNegative
  split
  · decide
  · split
    · next small => unfold large at small; omega
    · omega

theorem post_cases (c : Call) : c.post = 1 ∨ c.post = 100 := by
  unfold Call.post
  split
  · exact Or.inl rfl
  · exact Or.inr rfl

/-- Divided once, the number times `post` does not wrap around. -/
theorem hundredths_lt (c : Call) {i : Nat} (scaled : i ≠ 0) : c.hundredths i < 2 ^ 63 := by
  have power : 1000 ≤ c.flags.divisor ^ i :=
    Nat.le_trans (divisor_large c.flags) (Nat.le_self_pow scaled _)
  have stored := stored_lt c
  have quotient : c.stored / c.flags.divisor ^ i ≤ c.stored / 1000 :=
    Nat.div_le_div_left power (by decide)
  unfold Call.hundredths
  rcases post_cases c with post | post <;> rw [post] <;> omega

theorem shown_zero (c : Call) : (if c.post = 1 then c.stored / 100 else c.stored) = c.shown 0 := by
  unfold Call.post Call.stored Call.shown
  rw [Nat.pow_zero, rounded_one, Nat.div_one]
  by_cases least : c.bytes = mostNegative
  · simp only [least, true_or, if_true]
  · by_cases small : c.bytes.natAbs < large
    · simp only [least, small, false_or, if_true, if_false]
      omega
    · simp only [least, small, or_self, if_false]
      exact if_neg (by decide)

theorem shown_of_hundredths (c : Call) (i : Nat) : (c.hundredths i + 50) / 100 = c.shown i := by
  have positive : 0 < c.flags.divisor ^ i := Nat.pow_pos (divisor_pos c.flags)
  unfold Call.hundredths Call.post Call.stored Call.shown
  by_cases least : c.bytes = mostNegative
  · simp only [least, true_or, if_true, Nat.zero_div]
  · by_cases small : c.bytes.natAbs < large
    · simp only [least, small, false_or, if_true, if_false, Nat.mul_one]
      exact rounded_of_hundredths positive
    · simp only [least, small, or_self, if_false]
      omega

/-- `scale` is one of the scales, or asks for one that fits. -/
def Call.Known (c : Call) : Prop := 0 ≤ c.scale ∧ (c.scale ≤ 6 ∨ c.Auto)

/-- There is room for one digit. -/
def Call.Room (c : Call) : Prop := c.baselen + 1 ≤ c.len

/-- The number is printed with one decimal. -/
def Call.Tenths (c : Call) (i : Nat) : Prop :=
  i ≠ 0 ∧ c.hundredths i < 995 ∧ c.flags.decimal = true

instance (c : Call) (i : Nat) : Decidable (c.Tenths i) := inferInstanceAs (Decidable (_ ∧ _))

theorem outcome_refused {c : Call} (no : ¬ (c.Known ∧ c.Room)) (decimalPoint : List Byte) :
    c.outcome decimalPoint = .refused := by
  unfold Call.outcome
  by_cases known : c.Known
  · have small : c.len < c.baselen + 1 := Nat.not_le.mp fun room => no ⟨known, room⟩
    by_cases first : c.scale < 0 ∨ (c.scale > maxscale ∧ ¬ c.Auto)
    · rw [if_pos first]
    · rw [if_neg first, if_pos small]
  · refine if_pos ?_
    by_cases negative : c.scale < 0
    · exact Or.inl negative
    · have other := not_and.mp known (by omega)
      obtain ⟨beyond, fixed⟩ := not_or.mp other
      exact Or.inr ⟨by unfold maxscale; omega, fixed⟩

theorem outcome_eq {c : Call} (known : c.Known) (room : c.Room) (decimalPoint : List Byte) :
    c.outcome decimalPoint =
      if c.Auto ∧ c.GetScale then .scale c.divided.1
      else if c.Tenths c.divided.1 then
        if c.len < c.baselen + 1 + 1 + decimalPoint.length then .refused
        else .number (.decimal (c.sgn * ((c.hundredths c.divided.1 + 5) / 10 / 10 : Nat))
          ((c.hundredths c.divided.1 + 5) / 10 % 10 : Nat) c.divided.1)
      else .number (.integer (c.sgn * c.shown c.divided.1) c.divided.1) := by
  have first : ¬ (c.scale < 0 ∨ (c.scale > maxscale ∧ ¬ c.Auto)) := by
    rintro (negative | ⟨beyond, fixed⟩)
    · exact absurd known.1 (Int.not_le.mpr negative)
    · rcases known.2 with within | auto
      · unfold maxscale at beyond
        omega
      · exact fixed auto
  obtain ⟨i, few, divided, _⟩ := divided_eq c
  unfold Call.outcome
  rw [stripSign_eq]
  rw [if_neg first, if_neg (Nat.not_lt.mpr room), divided]
  dsimp only
  by_cases asked : c.Auto ∧ c.GetScale
  · rw [if_pos asked, if_pos asked]
  · rw [if_neg asked, if_neg asked]
    by_cases zero : i = 0
    · subst zero
      have plain : ¬ c.Tenths 0 := fun tenths => tenths.1 rfl
      have number : (if (c.post : Int) = 1 then (c.stored : Int).tdiv 100 else (c.stored : Int)) =
          ((if c.post = 1 then c.stored / 100 else c.stored : Nat) : Int) := by
        rcases post_cases c with post | post <;> rw [post] <;> rfl
      rw [if_pos rfl, if_neg plain, Nat.pow_zero, Nat.div_one, number, shown_zero]
    · have value : int64 (((c.stored / c.flags.divisor ^ i : Nat) : Int) * (c.post : Int)) =
          (c.hundredths i : Int) := by
        have small := hundredths_lt c zero
        rw [← Int.natCast_mul]
        exact int64_of_range (by omega) (by unfold Call.hundredths at small; omega)
      have below : (c.hundredths i : Int) < 995 ↔ c.hundredths i < 995 := by omega
      have rounds : ((c.hundredths i : Int) + 50).tdiv 100 = (c.shown i : Int) := by
        rw [← shown_of_hundredths]
        rfl
      rw [if_neg zero, value, rounds]
      by_cases tenths : (c.hundredths i : Int) < 995 ∧ c.flags.decimal = true
      · rw [if_pos tenths, if_pos (show c.Tenths i from ⟨zero, below.mp tenths.1, tenths.2⟩)]
        rfl
      · rw [if_neg tenths, if_neg (show ¬ c.Tenths i from
          fun both => tenths ⟨below.mpr both.2.1, both.2.2⟩)]

end Netbase.Humanize
