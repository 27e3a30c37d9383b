import Netbase.Humanize.Number

/-!
# The room in the buffer

A result that is returned is complete where it is shorter than the buffer.  A scale that
has been chosen to fit and a number with one decimal always leave room for the NUL; at a
fixed scale nothing does, and the comparison behind `snprintf` lets a text pass that takes
the whole buffer.
-/

namespace Netbase.Humanize

open Netbase.Text Netbase.Lib.Rounding

/-- What is returned is the length of the whole text, which is in the buffer with its NUL. -/
def Complete (c : Call) (decimalPoint : List Byte) : Prop :=
  0 ≤ (humanizeNumber c decimalPoint).ret →
    ∃ n, c.outcome decimalPoint = .number n ∧
      (humanizeNumber c decimalPoint).buf = c.text decimalPoint n ∧
      (humanizeNumber c decimalPoint).ret = (c.text decimalPoint n).length ∧
      (humanizeNumber c decimalPoint).ret < c.len

/-- A number at a fixed scale takes all of the buffer and leaves no room for the NUL. -/
def Call.Full (c : Call) : Prop :=
  (c.Known ∧ c.Room) ∧ ¬ c.Auto ∧ ¬ c.Tenths c.scale.toNat ∧ c.len ≤ INT_MAX ∧
    (intText (c.sgn * c.shown c.scale.toNat)).length + c.flags.sep.length +
      (c.flags.prefixes c.scale.toNat).length + c.suffix.length = c.len

/-! ## Lengths -/

theorem length_decimal_le_iff {n k : Nat} (positive : 0 < k) :
    (decimal n).length ≤ k ↔ n < 10 ^ k := by
  rw [decimal, List.length_map, Nat.length_toDigits_le_iff (by decide) positive]

theorem sgn_cases (c : Call) : c.sgn = 1 ∧ ¬ c.bytes < 0 ∨ c.sgn = -1 ∧ c.bytes < 0 := by
  by_cases negative : c.bytes < 0
  · exact Or.inr ⟨if_pos negative, negative⟩
  · exact Or.inl ⟨if_neg negative, negative⟩

theorem length_intText_le (c : Call) {n k : Nat} (positive : 0 < k) (small : n < 10 ^ k) :
    (intText (c.sgn * n)).length ≤ (if c.bytes < 0 then 1 else 0) + k := by
  have digits := (length_decimal_le_iff positive).mpr small
  unfold intText
  rcases sgn_cases c with ⟨sign, positive⟩ | ⟨sign, negative⟩
  · rw [sign, Int.one_mul, if_neg (by omega), if_neg positive, Int.natAbs_natCast,
      List.nil_append]
    omega
  · have same : (-1 * (n : Int)).natAbs = n := by omega
    rw [sign, if_pos negative, same, List.length_append]
    split
    · rw [List.length_singleton]
      omega
    · rw [List.length_nil]
      omega

theorem length_prefixes_le (flags : Flags) (i : Nat) : (flags.prefixes i).length ≤ 1 := by
  unfold Flags.prefixes
  split
  case h_1 => split <;> simp
  all_goals simp

theorem baselen_eq (c : Call) : c.baselen =
    (if c.bytes < 0 then 1 else 0) + 2 + (if c.post = 100 then 2 else 0) + c.flags.sep.length +
      c.suffix.length := by
  unfold Call.baselen
  rw [stripSign_eq]
  dsimp only
  split <;> omega

/-! ## Scales that have been chosen to fit -/

/-- The additional columns of the buffer. -/
def Call.columns (c : Call) : Nat := c.len - c.baselen

variable {c : Call}

theorem columns_pos (room : c.Room) : 0 < c.columns := by
  unfold Call.Room at room
  unfold Call.columns
  omega

/-- With at most 16 columns the threshold does not wrap around. -/
theorem lt_limit_iff (few : c.columns ≤ 16) (n : Nat) :
    (n : Int) < c.limit ↔ n + 50 < 100 * 10 ^ c.columns := by
  have all : ∀ w < 17, int64 (maxOf w - 50) = ((100 * 10 ^ w : Nat) : Int) - 50 := by
    decide +kernel
  have limit : c.limit = ((100 * 10 ^ c.columns : Nat) : Int) - 50 :=
    all _ (Nat.lt_succ_of_le few)
  rw [limit]
  omega

theorem shown_le (c : Call) (i : Nat) : c.shown i ≤ c.bytes.natAbs := by
  have positive : 0 < c.flags.divisor ^ i := Nat.pow_pos (divisor_pos c.flags)
  unfold Call.shown
  split
  · exact Nat.zero_le _
  · split
    · have less := rounded_antitone (n := c.bytes.natAbs) (d := 1) (by decide) positive
      rwa [rounded_one] at less
    · exact Nat.div_le_self _ _

theorem last_scale (c : Call) : c.stored / c.flags.divisor ^ 6 < 10 := by
  have power : 1000 ^ 6 ≤ c.flags.divisor ^ 6 := Nat.pow_le_pow_left (divisor_large c.flags) 6
  have quotient : c.stored / c.flags.divisor ^ 6 ≤ c.stored / 1000 ^ 6 :=
    Nat.div_le_div_left power (by decide)
  have stored := stored_lt c
  omega

theorem chosen_fits (room : c.Room) (auto : c.Auto) :
    c.shown c.divided.1 < 10 ^ (c.columns + if c.post = 100 then 2 else 0) := by
  obtain ⟨i, few, divided, _, wide, narrow⟩ := divided_eq c
  have positive := columns_pos room
  rw [divided]
  dsimp only
  by_cases many : 17 ≤ c.columns
  · have shown := shown_le c i
    have legal := c.legal
    unfold Call.post
    by_cases small : c.bytes = mostNegative ∨ c.bytes.natAbs < large
    · have most : c.shown i < 10 ^ 17 := by
        rcases small with least | small
        · rw [Call.shown, if_pos least]
          decide
        · unfold large at small
          omega
      rw [if_pos small, if_neg (by decide), Nat.add_zero]
      exact Nat.lt_of_lt_of_le most (Nat.pow_le_pow_right (by decide) many)
    · rw [if_neg small, if_pos rfl]
      have most : c.shown i < 10 ^ 19 := by omega
      exact Nat.lt_of_lt_of_le most (Nat.pow_le_pow_right (by decide) (by omega))
  · obtain ⟨_, stop⟩ := narrow auto (by unfold Call.columns at many; omega)
    have power : 10 ^ 1 ≤ 10 ^ c.columns := Nat.pow_le_pow_right (by decide) positive
    have below : c.stored / c.flags.divisor ^ i + 50 < 100 * 10 ^ c.columns := by
      rcases Nat.lt_or_ge i 6 with less | last
      · exact (lt_limit_iff (by omega) _).mp (stop less)
      · have last_ := last_scale c
        rw [show i = 6 by omega]
        omega
    rw [← shown_of_hundredths, Call.hundredths]
    rcases post_cases c with post | post
    · rw [post, if_neg (by decide), Nat.mul_one]
      simp only [Nat.add_zero]
      omega
    · rw [post, if_pos rfl, Nat.pow_add]
      omega

/-! ## The room that is left -/

theorem length_text_integer (c : Call) (decimalPoint : List Byte) (num : Int) (i : Nat) :
    (c.text decimalPoint (.integer num i)).length =
      (intText num).length + c.flags.sep.length + (c.flags.prefixes i).length + c.suffix.length := by
  simp only [Call.text, List.length_append]

theorem chosen_room (room : c.Room) (auto : c.Auto) (decimalPoint : List Byte) :
    (c.text decimalPoint (.integer (c.sgn * c.shown c.divided.1) c.divided.1)).length < c.len := by
  have positive := columns_pos room
  have digits := length_intText_le c (by omega) (chosen_fits room auto)
  have mark := length_prefixes_le c.flags c.divided.1
  have base := baselen_eq c
  unfold Call.columns at digits positive
  rw [length_text_integer]
  omega

theorem tenths_room {decimalPoint : List Byte} {i : Nat} (tenths : c.Tenths i)
    (room : ¬ c.len < c.baselen + 1 + 1 + decimalPoint.length) :
    (c.text decimalPoint (.decimal (c.sgn * ((c.hundredths i + 5) / 10 / 10 : Nat))
      ((c.hundredths i + 5) / 10 % 10 : Nat) i)).length < c.len := by
  have small := tenths.2.1
  have first := length_intText_le c (k := 1) (by decide)
    (show (c.hundredths i + 5) / 10 / 10 < 10 ^ 1 by omega)
  have second : (intText (((c.hundredths i + 5) / 10 % 10 : Nat) : Int)).length ≤ 1 := by
    rw [intText, if_neg (by omega), List.nil_append, Int.natAbs_natCast]
    exact (length_decimal_le_iff (by decide)).mpr (by omega)
  have mark := length_prefixes_le c.flags i
  have base := baselen_eq c
  simp only [Call.text, List.length_append]
  omega

theorem complete_number {decimalPoint : List Byte} {n : Number}
    (printed : c.outcome decimalPoint = .number n) : Complete c decimalPoint ↔
      ¬ ((c.text decimalPoint n).length = c.len ∧ c.len ≤ INT_MAX) := by
  have negative : ¬ (0 : Int) ≤ -1 := by decide
  unfold Complete humanizeNumber snprintf
  rw [printed]
  dsimp only
  by_cases long : INT_MAX < (c.text decimalPoint n).length
  · rw [if_pos long, if_pos (Or.inl (by decide))]
    refine iff_of_true (fun impossible => absurd impossible negative) ?_
    omega
  · rw [if_neg long]
    by_cases over_ : ((c.text decimalPoint n).length : Int) > c.len
    · rw [if_pos (Or.inr over_)]
      refine iff_of_true (fun impossible => absurd impossible negative) ?_
      omega
    · rw [if_neg (by omega)]
      dsimp only
      constructor
      · rintro complete ⟨exact_, _⟩
        omega
      · intro other _
        refine ⟨n, rfl, List.take_of_length_le (by omega), rfl, by omega⟩

theorem complete_refused {decimalPoint : List Byte} (refused : c.outcome decimalPoint = .refused) :
    Complete c decimalPoint := by
  have negative : ¬ (0 : Int) ≤ -1 := by decide
  intro impossible
  rw [humanizeNumber, refused] at impossible
  exact absurd impossible negative

/-- 12345 in a buffer of five characters. -/
def fiveDigits : Call where
  len := 5
  bytes := 12345
  suffix := []
  scale := 0
  flags := ⟨false, true, false, false⟩
  legal := by decide

end Netbase.Humanize
