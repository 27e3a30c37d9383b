import Netbase.Text.Lines

/-!
# Decimal numbers in byte text

The numbers that `printf` writes and `atol` reads back.  Reading stops at the
first byte that is not a digit and saturates at the range of a `long`.
-/

namespace Netbase.Text

/-- The text of `%d` for a nonnegative number. -/
def decimal (n : Nat) : List Byte := (Nat.toDigits 10 n).map byte

def isdigit (b : Byte) : Bool := 48 ≤ b.toNat && b.toNat ≤ 57

def isspace (b : Byte) : Bool := b.toNat = 32 || (9 ≤ b.toNat && b.toNat ≤ 13)

/-- The value of the digits at the front of a text, most significant first. -/
def digitsValue : Nat → List Byte → Nat
  | value, [] => value
  | value, b :: rest =>
      if isdigit b then digitsValue (10 * value + (b.toNat - 48)) rest else value

/-- The largest `long`. -/
def longMax : Int := 9223372036854775807

/-- `atol`: optional blanks, an optional sign and digits. -/
def atol (s : List Byte) : Int :=
  let digits := s.dropWhile isspace
  match digits with
  | [] => 0
  | b :: rest =>
      if b = byte '-' then max (-longMax - 1) (-(digitsValue 0 rest : Int))
      else if b = byte '+' then min longMax (digitsValue 0 rest : Int)
      else min longMax (digitsValue 0 digits : Int)

/-- The text goes on with something other than a digit. -/
def EndsNumber (rest : List Byte) : Prop := ∀ b, rest.head? = some b → isdigit b = false

theorem isdigit_byte_digitChar {d : Nat} (small : d < 10) :
    isdigit (byte (Nat.digitChar d)) = true ∧ (byte (Nat.digitChar d)).toNat = 48 + d := by
  rcases d with _ | _ | _ | _ | _ | _ | _ | _ | _ | _ | d
  all_goals first | exact ⟨by decide, by decide⟩ | omega

theorem decimal_eq (n : Nat) :
    decimal n =
      (if n < 10 then [] else decimal (n / 10)) ++ [byte (Nat.digitChar (n % 10))] := by
  unfold decimal
  rw [Nat.toDigits_eq_if (by decide)]
  split
  · next small => simp [Nat.mod_eq_of_lt small]
  · simp

theorem decimal_ne_nil (n : Nat) : decimal n ≠ [] := by
  rw [decimal_eq]
  simp

theorem isdigit_of_mem_decimal (n : Nat) : ∀ b ∈ decimal n, isdigit b = true := by
  induction n using Nat.strongRecOn with
  | ind n ih =>
      intro b membership
      rw [decimal_eq] at membership
      rcases List.mem_append.mp membership with front | last
      · split at front
        · cases front
        · exact ih (n / 10) (by omega) b front
      · rw [List.mem_singleton.mp last]
        exact (isdigit_byte_digitChar (Nat.mod_lt _ (by decide))).1

theorem digitsValue_append {digits : List Byte} (allDigits : ∀ b ∈ digits, isdigit b = true)
    (value : Nat) (rest : List Byte) :
    digitsValue value (digits ++ rest) = digitsValue (digitsValue value digits) rest := by
  induction digits generalizing value with
  | nil => rfl
  | cons b more ih =>
      have digit := allDigits b (by simp)
      have inner := ih (fun c membership => allDigits c (List.mem_cons_of_mem _ membership))
      simp only [List.cons_append, digitsValue, digit, if_true, inner]

theorem digitsValue_stop {rest : List Byte} (stop : EndsNumber rest) (value : Nat) :
    digitsValue value rest = value := by
  cases rest with
  | nil => rfl
  | cons b more =>
      have notDigit := stop b rfl
      simp [digitsValue, notDigit]

theorem digitsValue_decimal (n : Nat) : digitsValue 0 (decimal n) = n := by
  induction n using Nat.strongRecOn with
  | ind n ih =>
      have last := isdigit_byte_digitChar (Nat.mod_lt n (by decide : 0 < 10))
      rw [decimal_eq]
      split
      · next small =>
          simp only [List.nil_append, digitsValue, last.1, last.2, if_true]
          omega
      · next large =>
          rw [digitsValue_append (isdigit_of_mem_decimal _), ih (n / 10) (by omega)]
          simp only [digitsValue, last.1, last.2, if_true]
          omega

theorem dropWhile_digits {rest : List Byte} (n : Nat) (stop : EndsNumber rest) :
    (decimal n ++ rest).dropWhile isdigit = rest := by
  rw [List.dropWhile_append_of_pos (isdigit_of_mem_decimal n)]
  cases rest with
  | nil => rfl
  | cons b more => simp [stop b rfl]

theorem not_isspace_of_isdigit {b : Byte} (digit : isdigit b = true) : isspace b = false := by
  simp only [isdigit, Bool.and_eq_true, decide_eq_true_eq] at digit
  simp only [isspace, Bool.or_eq_false_iff, Bool.and_eq_false_iff, decide_eq_false_iff_not]
  omega

/-- `atol` at a printed number reads that number. -/
theorem atol_decimal {n : Nat} {rest : List Byte} (stop : EndsNumber rest)
    (small : (n : Int) ≤ longMax) : atol (decimal n ++ rest) = n := by
  have value : digitsValue 0 (decimal n ++ rest) = n := by
    rw [digitsValue_append (isdigit_of_mem_decimal n), digitsValue_decimal, digitsValue_stop stop]
  cases digits : decimal n with
  | nil => exact absurd digits (decimal_ne_nil n)
  | cons b more =>
      have digit := isdigit_of_mem_decimal n b (by rw [digits]; simp)
      have notMinus : b ≠ byte '-' := by
        rintro rfl
        exact absurd digit (by decide)
      have notPlus : b ≠ byte '+' := by
        rintro rfl
        exact absurd digit (by decide)
      rw [digits] at value
      simp only [atol, List.cons_append, List.dropWhile_cons, not_isspace_of_isdigit digit,
        Bool.false_eq_true, if_false, if_neg notMinus, if_neg notPlus]
      rw [← List.cons_append, value]
      exact Int.min_eq_right small

end Netbase.Text
