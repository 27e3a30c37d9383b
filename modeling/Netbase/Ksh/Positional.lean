import Mathlib
import Netbase.Ksh.Var
import Netbase.Text.Decimal

/-!
# Positional parameters

`global` answers a name of digits from the positional parameters of the innermost
block.  The index is added up in an `int`, and only its upper end is checked.
-/

namespace Netbase.Ksh.Positional

open Netbase.Text Netbase.Ksh.Expr
export Netbase.Ksh.Expr (Name Addr DEFINED)

/-- The positional parameters of `struct block`; `argv[0]` is the name of the shell, script or
function. -/
structure Block where
  argv : List (List Byte)
  argc : Nat
  filled : argv.length = argc + 1
  int : argc < 2 ^ 31

/-- `vtemp`, while `global` answers a name that starts with `c`. -/
def vtempOf (c : Byte) : Var :=
  { name := [c], flag := DEFINED, type := 0, val := .s [], index := 0, field := 0, array := none
    stored := 0 }

/-- `setstr`, for a string variable that is neither formatted nor exported. -/
def assigned (v : Var) (s : List Byte) : Var :=
  { v with flag := v.flag ||| (ALLOC ||| ISSET), type := 0, val := .s s, stored := v.stored + 1 }

def readOnly (v : Var) : Var := { v with flag := v.flag ||| RDONLY }

/-- The loop over the digits, in an `int` that wraps around. -/
def accumulate (c : Int) : List Byte → Int
  | [] => c
  | b :: rest => if digit b then accumulate ((c * 10 + b.toNat - 48).bmod (2 ^ 32)) rest else c

/-- The `k` of the `l->argv[k]` that is read, if one is read. -/
def reference (l : Block) (n : List Byte) : Option Int :=
  let c := accumulate 0 n
  if c ≤ l.argc then some c else none

/-- `l->argv[k]`; outside the array there is nothing to read. -/
def Block.arg (l : Block) (k : Int) : Option (List Byte) :=
  if 0 ≤ k then l.argv[k.toNat]? else none

/-- `global`, for a name that starts with a digit. -/
def global (l : Block) (n : List Byte) : Option Var :=
  let vp := vtempOf (n.headD 0)
  match reference l n with
  | some k => (l.arg k).map fun s => readOnly (assigned vp s)
  | none => some (readOnly vp)

/-! ## The number written in a name -/

def Digits (n : List Byte) : Prop := n ≠ [] ∧ ∀ b ∈ n, isdigit b = true

theorem digit_eq (b : Byte) : digit b = isdigit b := by
  simp only [digit, isdigit, UInt8.le_iff_toNat_le]
  rfl

/-- The index is the number written in the name, reduced to an `int`. -/
theorem accumulate_eq : ∀ (n : List Byte) (value : Nat), (∀ b ∈ n, isdigit b = true) →
    accumulate (Int.bmod value (2 ^ 32)) n = Int.bmod (digitsValue value n) (2 ^ 32) := by
  intro n
  induction n with
  | nil => exact fun value _ => rfl
  | cons b rest ih =>
      intro value digits
      have first : isdigit b = true := digits b List.mem_cons_self
      have low : 48 ≤ b.toNat := by
        simp only [isdigit, Bool.and_eq_true, decide_eq_true_eq] at first
        exact first.1
      have step : ((Int.bmod value (2 ^ 32)) * 10 + b.toNat - 48).bmod (2 ^ 32) =
          Int.bmod ((10 * value + (b.toNat - 48) : Nat) : Int) (2 ^ 32) := by
        have sum : (Int.bmod value (2 ^ 32)) * 10 + b.toNat - 48 =
            (Int.bmod value (2 ^ 32)) * 10 + ((b.toNat - 48 : Nat) : Int) := by omega
        have order : (value : Int) * 10 + ((b.toNat - 48 : Nat) : Int) =
            ((10 * value + (b.toNat - 48) : Nat) : Int) := by omega
        rw [sum, ← Int.bmod_add_bmod, Int.bmod_mul_bmod, Int.bmod_add_bmod, order]
      rw [accumulate, digit_eq, if_pos first, step, ih _ fun c member =>
        digits c (List.mem_cons_of_mem b member), digitsValue, if_pos first]

/-- The number written in a name. -/
def number (n : List Byte) : Nat := digitsValue 0 n

theorem accumulate_number {n : List Byte} (digits : Digits n) :
    accumulate 0 n = Int.bmod (number n) (2 ^ 32) :=
  accumulate_eq n 0 digits.2

/-! ## What is read -/

/-- Only the parameter with the number written in the name is read, and a number behind the
last one leaves the value unset. -/
def Sound (l : Block) (n : List Byte) : Prop :=
  (∀ k, reference l n = some k → 0 ≤ k ∧ k ≤ l.argc ∧ k = number n) ∧
    (l.argc < number n → ∃ vp, global l n = some vp ∧ has vp.flag ISSET = false)

theorem global_unset (l : Block) {n : List Byte} (none_ : reference l n = none) :
    ∃ vp, global l n = some vp ∧ has vp.flag ISSET = false := by
  refine ⟨readOnly (vtempOf (n.headD 0)), ?_, ?_⟩
  · rw [global, none_]
  · show has (DEFINED ||| RDONLY) ISSET = false
    decide

theorem global_set (l : Block) {n : List Byte} {k : Int} (some_ : reference l n = some k)
    {vp : Var} (answer : global l n = some vp) : has vp.flag ISSET = true := by
  rw [global, some_] at answer
  obtain ⟨s, _, rfl⟩ := Option.map_eq_some_iff.mp answer
  show has (DEFINED ||| (ALLOC ||| ISSET) ||| RDONLY) ISSET = true
  decide

/-- The lookup is sound exactly when the number is that of a parameter, or is still greater
than the last one after it has been reduced to an `int`. -/
theorem sound_iff (l : Block) (n : List Byte) (digits : Digits n) :
    Sound l n ↔ number n ≤ l.argc ∨ (l.argc : Int) < Int.bmod (number n) (2 ^ 32) := by
  have index : accumulate 0 n = Int.bmod (number n) (2 ^ 32) := accumulate_number digits
  constructor
  · rintro ⟨_, unset⟩
    by_contra wrong
    obtain ⟨behind, under⟩ := not_or.mp wrong
    have read : reference l n = some (Int.bmod (number n) (2 ^ 32)) := by
      rw [reference, index, if_pos (by omega)]
    obtain ⟨vp, answer, clear⟩ := unset (by omega)
    rw [global_set l read answer] at clear
    exact Bool.noConfusion clear
  · rintro (inside | above)
    · have small : Int.bmod (number n) (2 ^ 32) = number n := by
        have := l.int
        exact Int.bmod_eq_of_le (by omega) (by omega)
      refine ⟨fun k read => ?_, fun behind => absurd behind (by omega)⟩
      rw [reference, index, small, if_pos (by omega)] at read
      have same := Option.some.inj read
      omega
    · have unread : reference l n = none := by rw [reference, index, if_neg (by omega)]
      refine ⟨fun k read => ?_, fun _ => global_unset l unread⟩
      rw [unread] at read
      exact absurd read (Option.some_ne_none k).symm

/-- A script called with one argument. -/
def oneArgument : Block :=
  { argv := [[115], [97]], argc := 1, filled := rfl, int := by decide }

/-- `$3` is unset. -/
theorem sound_three :
    Sound oneArgument [51] ↔ number [51] ≤ oneArgument.argc ∨
      (oneArgument.argc : Int) < Int.bmod (number [51]) (2 ^ 32) :=
  sound_iff oneArgument [51] ⟨by decide, by decide +kernel⟩

/-- `${4294967297}` is the first argument. -/
theorem first_argument_read : ¬ Sound oneArgument [52, 50, 57, 52, 57, 54, 55, 50, 57, 55] := by
  rintro ⟨only, _⟩
  have same : (1 : Int) = number [52, 50, 57, 52, 57, 54, 55, 50, 57, 55] := (only 1 (by decide +kernel)).2.2
  exact absurd same (by decide +kernel)

end Netbase.Ksh.Positional
