import Mathlib.Tactic.IntervalCases
import Netbase.Ksh.Base

/-!
# Integers as text and back

The text that `str_val` builds for an integer variable, read back by `getint`.  The
digits are those of an unsigned magnitude; the reader adds them up in a long that
wraps around, so that the most negative number and the numbers of unsigned variables
come back as well.
-/

namespace Netbase.Ksh.Typeset

open Netbase.Text Netbase.Lib Netbase.Ksh.Expr

/-! ## One digit -/

/-- What the reader sees in the character of a digit. -/
structure Shows (c : Byte) (d : Nat) : Prop where
  notSharp : c ≠ byte '#'
  letnum : letnum c = true
  value : digitValue c = some d
  notMinus : c ≠ 45
  notX : d < 10 → c ≠ 120
  zero : c = 48 → d = 0

instance (c : Byte) (d : Nat) : Decidable (Shows c d) :=
  decidable_of_iff (c ≠ byte '#' ∧ Expr.letnum c = true ∧ digitValue c = some d ∧ c ≠ 45 ∧
    (d < 10 → c ≠ 120) ∧ (c = 48 → d = 0))
    ⟨fun ⟨h1, h2, h3, h4, h5, h6⟩ => ⟨h1, h2, h3, h4, h5, h6⟩,
      fun h => ⟨h.notSharp, h.letnum, h.value, h.notMinus, h.notX, h.zero⟩⟩

variable {upper : Bool}

variable {c : Byte} {base : Nat} {s digits : List Byte}

theorem digitChar_shows {d : Nat} (char : digitChar upper d = some c) :
    Shows c d := by
  have all : ∀ upper : Bool, ∀ d : Fin 36, ∀ c, digitChar upper d = some c → Shows c d := by
    intro upper d c char
    have checked : ∀ upper : Bool, ∀ d : Fin 36,
        (digitChar upper d).all (fun c => Shows c d) = true := by
      decide +kernel
    have here := checked upper d
    rw [char] at here
    exact of_decide_eq_true here
  have small : d < 36 := by
    by_contra large
    rw [digitChar, if_neg (by omega), if_neg large] at char
    cases char
  exact all upper ⟨d, small⟩ c char

theorem getintLoop_digit {d : Nat} (shows_ : Shows c d) (small : d < base) (haveBase : Bool)
    (num : Long) (s : List Byte) :
    getintLoop base haveBase num (c :: s) =
      getintLoop base haveBase (num * BitVec.ofInt 64 base + BitVec.ofNat 64 d) s := by
  have below : ¬ (d : Int) ≥ (base : Int) := by omega
  rw [getintLoop, if_neg shows_.notSharp, if_pos shows_.letnum, shows_.value]
  dsimp only
  rw [if_neg below]

/-! ## All digits -/

theorem ofNat_step (base n : Nat) :
    BitVec.ofNat 64 (n / base) * BitVec.ofInt 64 base + BitVec.ofNat 64 (n % base) =
      BitVec.ofNat 64 n := by
  rw [BitVec.ofInt_natCast, ← BitVec.ofNat_mul, ← BitVec.ofNat_add, Nat.div_add_mod']

theorem zero_step (base : Long) (d : Nat) : 0 * base + BitVec.ofNat 64 d = BitVec.ofNat 64 d := by
  simp

theorem digitLoop_read {haveBase : Bool} {base room n : Nat} {s out : List Byte}
    (positive : 0 < base) (run : digitLoop upper base room n s = some out) :
    getintLoop base haveBase 0 out = getintLoop base haveBase (BitVec.ofNat 64 n) s := by
  induction room generalizing n s with
  | zero => cases run
  | succ room ih =>
      rw [digitLoop] at run
      have least := Nat.mod_lt n positive
      split at run
      · cases run
      · next c char =>
          have shows_ := digitChar_shows char
          split at run
          · next last =>
              cases run
              have step := ofNat_step base n
              rw [last] at step
              rw [getintLoop_digit shows_ least]
              exact congrArg (getintLoop base haveBase · s) step
          · rw [ih run, getintLoop_digit shows_ least, ofNat_step]

theorem digitLoop_front {base room n : Nat} {s out : List Byte} (positive : 0 < base)
    (run : digitLoop upper base room n s = some out) :
    ∃ c d front, out = c :: front ∧ Shows c d ∧ d < base ∧
      (front = s ∨ ∃ c' d' front', front = c' :: front' ∧ Shows c' d' ∧ d' < base) := by
  induction room generalizing n s with
  | zero => cases run
  | succ room ih =>
      rw [digitLoop] at run
      have least := Nat.mod_lt n positive
      split at run
      · cases run
      · next c char =>
          have shows_ := digitChar_shows char
          split at run
          · cases run
            exact ⟨c, _, s, rfl, shows_, least, Or.inl rfl⟩
          · obtain ⟨c', d', front, whole, first, small, rest⟩ := ih run
            refine ⟨c', d', front, whole, first, small, Or.inr ?_⟩
            rcases rest with rfl | more
            · exact ⟨c, _, s, rfl, shows_, least⟩
            · exact more

/-! ## The sign and the base -/

theorem getintText_minus (s : List Byte) :
    getintText (byte '-' :: s) = (getintUnsigned s).map fun found => (found.1, -found.2) := rfl

theorem getintText_plain (notMinus : c ≠ 45) :
    getintText (c :: s) = getintUnsigned (c :: s) := by
  unfold getintText
  split
  · next same => exact absurd (List.cons.inj same).1 notMinus
  · rfl

/-- A text that does not begin with `0x` is read with base ten first. -/
theorem getintUnsigned_ten (other : ∀ rest, s ≠ 48 :: 120 :: rest) :
    getintUnsigned s = getintLoop 10 false 0 s := by
  unfold getintUnsigned
  split
  · next rest => exact absurd rfl (other rest)
  · rfl

theorem read_ten {room n : Nat} (run : digitLoop upper 10 room n [] = some digits) :
    getintUnsigned digits = some (10, BitVec.ofNat 64 n) := by
  obtain ⟨c, d, front, rfl, -, -, rest⟩ := digitLoop_front (by decide) run
  have ten : (10 : Int) = (10 : Nat) := rfl
  rw [getintUnsigned_ten, ten, digitLoop_read (by decide) run]
  · rfl
  · rintro more same
    obtain ⟨-, same⟩ := List.cons.inj same
    rcases rest with rfl | ⟨c', d', front', rfl, shows_, small⟩
    · cases same
    · exact shows_.notX small (List.cons.inj same).1

theorem getintLoop_sharp (based : 2 ≤ base ∧ base ≤ 36) (s : List Byte) :
    getintLoop 10 false (BitVec.ofNat 64 base) (byte '#' :: s) = getintLoop base true 0 s := by
  have width : ((BitVec.ofNat 64 base).setWidth 32).toInt = base := by
    obtain ⟨two, most⟩ := based
    interval_cases base <;> decide
  rw [getintLoop, if_pos rfl]
  dsimp only
  rw [width, if_neg]
  simp only [Bool.false_or, Bool.or_eq_true, decide_eq_true_eq, not_or]
  omega

/-- The characters that `str_val` puts in front of the digits. -/
def basePrefix (base : Nat) (low high : Byte) : List Byte :=
  (if base ≥ 10 then [high] else []) ++ [low, byte '#']

/-- The base in front of the `#` is read with base ten. -/
theorem read_prefix {low high : Byte} (based : 2 ≤ base ∧ base ≤ 36)
    (lowDigit : Shows low (base % 10)) (highDigit : Shows high (base / 10)) (s : List Byte) :
    getintUnsigned (basePrefix base low high ++ s) = getintLoop base true 0 s := by
  have ten : (10 : Int) = (10 : Nat) := rfl
  have lowStep (num : Long) (s : List Byte) :=
    getintLoop_digit lowDigit (Nat.mod_lt base (by decide)) false num s
  by_cases large : base ≥ 10
  · have highStep (num : Long) (s : List Byte) :=
      getintLoop_digit highDigit (show base / 10 < 10 by omega) false num s
    have value := ofNat_step 10 base
    rw [basePrefix, if_pos large, getintUnsigned_ten, List.append_assoc, List.singleton_append,
      List.cons_append, List.singleton_append, ten, highStep, lowStep, zero_step, value]
    · exact getintLoop_sharp based s
    · intro rest same
      have zero := highDigit.zero (List.cons.inj same).1
      omega
  · have value : (0 : Long) * BitVec.ofInt 64 (10 : Nat) + BitVec.ofNat 64 (base % 10) =
        BitVec.ofNat 64 base := by
      rw [zero_step, Nat.mod_eq_of_lt (by omega)]
    rw [basePrefix, if_neg large, List.nil_append, getintUnsigned_ten, List.cons_append,
      List.singleton_append, ten, lowStep, value]
    · exact getintLoop_sharp based s
    · intro rest same
      exact absurd (List.cons.inj (List.cons.inj same).2).1 (by decide)

theorem read_magnitude {base room n : Nat} {low high : Byte} (based : 2 ≤ base ∧ base ≤ 36)
    (run : digitLoop upper base room n [] = some digits)
    (lowChar : digitChar upper (base % 10) = some low)
    (highChar : digitChar upper (base / 10) = some high) :
    getintUnsigned ((if base = 10 then [] else basePrefix base low high) ++ digits) =
      some ((base : Int), BitVec.ofNat 64 n) := by
  by_cases ten : base = 10
  · subst ten
    exact read_ten run
  · rw [if_neg ten, read_prefix based (digitChar_shows lowChar) (digitChar_shows highChar),
      digitLoop_read (by omega) run]
    rfl

theorem read_signed {base : Int} {n : Long} (first : s.head? = some c) (notMinus : c ≠ 45)
    (found : getintUnsigned s = some (base, n)) (negative : Bool) :
    getintText ((if negative then [byte '-'] else []) ++ s) =
      some (base, if negative then -n else n) := by
  cases s with
  | nil => cases first
  | cons c' s =>
      cases first
      cases negative with
      | true =>
          show getintText (byte '-' :: c :: s) = _
          rw [getintText_minus, found]
          rfl
      | false =>
          show getintText (c :: s) = _
          rw [getintText_plain notMinus, found]
          rfl

theorem magnitude_first {base room n : Nat} {low high : Byte} (based : 2 ≤ base ∧ base ≤ 36)
    (run : digitLoop upper base room n [] = some digits)
    (lowChar : digitChar upper (base % 10) = some low)
    (highChar : digitChar upper (base / 10) = some high) :
    ∃ c, ((if base = 10 then [] else basePrefix base low high) ++ digits).head? = some c ∧ c ≠ 45 := by
  obtain ⟨c, d, front, rfl, shows_, -⟩ := digitLoop_front (by omega) run
  by_cases ten : base = 10
  · exact ⟨c, by rw [if_pos ten]; rfl, shows_.notMinus⟩
  · rw [if_neg ten, basePrefix]
    by_cases large : base ≥ 10
    · exact ⟨high, by rw [if_pos large]; rfl, (digitChar_shows highChar).notMinus⟩
    · exact ⟨low, by rw [if_neg large]; rfl, (digitChar_shows lowChar).notMinus⟩

/-- The base that the numbers of a variable are written in. -/
def shownBase (type : Int) : Nat := if type = 0 then 10 else type.toNat

theorem shownBase_based {type : Int} (base : type = 0 ∨ Based type) :
    2 ≤ shownBase type ∧ shownBase type ≤ 36 := by
  unfold shownBase
  rcases base with zero | ⟨two, most⟩
  · rw [if_pos zero]
    decide
  · rw [if_neg (by omega)]
    omega

def signed (v : Var) : Bool := !has v.flag INT_U && v.number.slt 0

theorem integerText_read {v : Var} (base : v.type = 0 ∨ Based v.type) :
    ∃ text, integerText v = some text ∧ text.length < strbufSize ∧
      getintText text = some ((shownBase v.type : Int), v.number) := by
  obtain ⟨text, found, fits⟩ := integerText_fits base
  refine ⟨text, found, fits, ?_⟩
  have based := shownBase_based base
  obtain ⟨low, lowChar⟩ := digitChar_isSome (has v.flag UCASEV_AL) (shownBase v.type % 10) (by omega)
  obtain ⟨high, highChar⟩ := digitChar_isSome (has v.flag UCASEV_AL) (shownBase v.type / 10) (by omega)
  have whole : integerText v =
      (digitLoop (has v.flag UCASEV_AL) (shownBase v.type) (strbufSize - 1)
        (if signed v then (-v.number).toNat else v.number.toNat) []).map fun digits =>
          (if signed v then [byte '-'] else []) ++
            ((if shownBase v.type = 10 then [] else basePrefix (shownBase v.type) low high) ++ digits) := by
    unfold integerText
    extract_lets upper negative n b
    have low' : digitChar upper (b % 10) = some low := lowChar
    have high' : digitChar upper (b / 10) = some high := highChar
    rw [low', high']
    change _ = (digitLoop upper b (strbufSize - 1) n []).map fun digits =>
      (if negative then [byte '-'] else []) ++
        ((if b = 10 then [] else basePrefix b low high) ++ digits)
    cases digitLoop upper b (strbufSize - 1) n [] with
    | none => rfl
    | some digits =>
        by_cases ten : b = 10
        · simp [ten]
        · simp [ten, basePrefix]
  rw [whole, Option.map_eq_some_iff] at found
  obtain ⟨digits, run, rfl⟩ := found
  obtain ⟨c, first, notMinus⟩ := magnitude_first based run lowChar highChar
  rw [read_signed first notMinus (read_magnitude based run lowChar highChar)]
  cases signed v with
  | true =>
      rw [if_pos rfl, if_pos rfl, BitVec.ofNat_toNat, BitVec.setWidth_eq, BitVec.neg_neg]
  | false =>
      rw [if_neg Bool.false_ne_true, if_neg Bool.false_ne_true, BitVec.ofNat_toNat, BitVec.setWidth_eq]

structure HoldsText (w : Var) (text : List Byte) : Prop where
  set : has w.flag ISSET = true
  string : has w.flag INTEGER = false
  text : w.text.drop w.type.toNat = text

theorem HoldsText.getint {w : Var} {text : List Byte} (holds : HoldsText w text) :
    getint w = getintText text := by
  rw [Expr.getint, holds.set, holds.string, holds.text]
  rfl

/--
The text of an integer variable fits its buffer, and a string variable that holds it
has the same value.
-/
theorem strVal_getint (v : Var) (set : has v.flag ISSET = true) (integer : has v.flag INTEGER = true)
    (unjustified : has v.flag (RJUST ||| LJUST) = false) (base : v.type = 0 ∨ Based v.type) :
    ∃ text, strVal v = some text ∧ text.length < strbufSize ∧
      ∀ w, HoldsText w text → getint w = some ((shownBase v.type : Int), v.number) := by
  obtain ⟨text, found, fits, read⟩ := integerText_read base
  refine ⟨text, ?_, fits, fun w holds => holds.getint.trans read⟩
  rw [strVal, set, integer, unjustified]
  exact found

/-- The least long in base sixteen. -/
def leastLong : Var := { vtemp (BitVec.intMin 64) with type := 16 }

theorem strVal_getint_leastLong :
    ∃ text, strVal leastLong = some text ∧ text.length < strbufSize ∧
      ∀ w, HoldsText w text → getint w = some (16, BitVec.intMin 64) :=
  strVal_getint leastLong (by decide) (by decide) (by decide) (Or.inr ⟨by decide, by decide⟩)

end Netbase.Ksh.Typeset
