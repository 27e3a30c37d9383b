import Mathlib.Tactic.Linarith
import Mathlib.Tactic.Ring

/-!
# Rounding of quotients

Dividing by a power in steps, and rounding to the nearest integer with the help of two
more decimals.
-/

namespace Netbase.Lib.Rounding

/-- The quotient, rounded to the nearest integer; half an integer is rounded up. -/
def rounded (n d : Nat) : Nat := (2 * n + d) / (2 * d)

variable {n d : Nat}

theorem rounded_one (n : Nat) : rounded n 1 = n := by
  unfold rounded
  omega

theorem rounded_of_hundredths (positive : 0 < d) : (100 * n / d + 50) / 100 = rounded n d := by
  have shifted : 100 * n / d + 50 = (100 * n + 50 * d) / d := by
    rw [Nat.add_mul_div_right _ _ positive]
  have scaled : 100 * n + 50 * d = 50 * (2 * n + d) := by ring
  have divisor : d * 100 = 50 * (2 * d) := by ring
  rw [shifted, Nat.div_div_eq_div_mul, scaled, divisor, Nat.mul_div_mul_left _ _ (by decide), rounded]

/-- The rounded quotient is the floor, or one more where the rest is half of the divisor. -/
theorem rounded_eq_floor_iff (positive : 0 < d) : rounded n d = n / d ↔ 2 * (n % d) < d := by
  have split := Nat.div_add_mod n d
  have whole : 2 * n + d = (2 * (n % d) + d) + (n / d) * (2 * d) := by
    calc 2 * n + d = 2 * (d * (n / d) + n % d) + d := by rw [split]
      _ = (2 * (n % d) + d) + (n / d) * (2 * d) := by ring
  have value : rounded n d = (2 * (n % d) + d) / (2 * d) + n / d := by
    rw [rounded, whole, Nat.add_mul_div_right _ _ (by omega)]
  rw [value]
  constructor
  · intro same
    have zero : (2 * (n % d) + d) / (2 * d) = 0 := by omega
    rcases Nat.div_eq_zero_iff.mp zero with impossible | less
    · omega
    · omega
  · intro less
    rw [Nat.div_eq_of_lt (by omega), Nat.zero_add]

theorem floor_le_rounded (positive : 0 < d) : n / d ≤ rounded n d := by
  rw [rounded, Nat.le_div_iff_mul_le (by omega)]
  have := Nat.div_mul_le_self n d
  calc n / d * (2 * d) = 2 * (n / d * d) := by ring
    _ ≤ 2 * n + d := by omega

theorem rounded_le_floor (positive : 0 < d) : rounded n d ≤ n / d + 1 := by
  rw [rounded, Nat.div_le_iff_le_mul_add_pred (by omega)]
  have := Nat.lt_div_mul_add (a := n) positive
  have expand : 2 * d * (n / d + 1) = 2 * (n / d * d) + 2 * d := by ring
  omega

theorem rounded_antitone {d' : Nat} (positive : 0 < d) (less : d ≤ d') :
    rounded n d' ≤ rounded n d := by
  have halves : ∀ {d : Nat}, 0 < d → rounded n d = (2 * n / d + 1) / 2 := by
    intro d positive
    rw [show 2 * n / d + 1 = (2 * n + 1 * d) / d by rw [Nat.add_mul_div_right _ _ positive],
      Nat.div_div_eq_div_mul, Nat.mul_comm d 2, Nat.one_mul, rounded]
  rw [halves positive, halves (Nat.lt_of_lt_of_le positive less)]
  have := Nat.div_le_div_left less positive (a := 2 * n)
  omega

end Netbase.Lib.Rounding
