import Mathlib.Tactic.Linarith
import Netbase.Text.Decimal

/-!
# Size expressions

`strsuftollx` reads a product of decimal numbers with multiplier suffixes.  It multiplies
first and looks for an overflow afterwards, in a `long long` that wraps around; every
level of its recursion compares its own product with the bounds.
-/

namespace Netbase.Strsuftoll

open Netbase.Text

/-- What is reported into `ebuf`. -/
inductive Refusal where
  | recursionLimitExceeded
  | erange
  | illegalNumber (val : List Byte)
  | isLessThan (num min : Int)
  | isGreaterThan (num max : Int)
  deriving DecidableEq, Repr

/-- A `long long` behind a multiplication. -/
def wrap (value : Int) : Int := Int.bmod value (2 ^ 64)

/-- `strtoll(val, &expr, 10)`: the number, whether `errno` is `ERANGE`, and `expr`. -/
def strtoll (val : List Byte) : Int × Bool × List Byte :=
  let text := val.dropWhile isspace
  let negative := text.head? = some (byte '-')
  let digits := if negative ∨ text.head? = some (byte '+') then text.tail else text
  let value : Int := if negative then -(digitsValue 0 digits : Int) else digitsValue 0 digits
  if digits.takeWhile isdigit = [] then (0, false, val)
  else
    (max (-longMax - 1) (min longMax value), value < -longMax - 1 || longMax < value,
      digits.dropWhile isdigit)

/-- The multiplier of a suffix. -/
def multiplier (c : Byte) : Option Int :=
  if c = byte 'b' then some 512
  else if c = byte 'k' then some 1024
  else if c = byte 'm' then some 1048576
  else if c = byte 'g' then some 1073741824
  else if c = byte 't' then some 1099511627776
  else if c = byte 'w' then some 4
  else none

/-- The comparison with the bounds. -/
def check (min max num : Int) : Except Refusal Int :=
  if num < min then .error (.isLessThan num min)
  else if num > max then .error (.isGreaterThan num max)
  else .ok num

/-- A multiplication, and the test for an overflow behind it. -/
def multiply (num factor : Int) : Except Refusal Int :=
  let t := num
  let num := wrap (num * factor)
  if t > num then .error .erange else .ok num

/-- The suffix at `expr`, if there is one. -/
def suffixed (num : Int) (expr : List Byte) : Except Refusal (Int × List Byte) :=
  match expr.head?.bind multiplier with
  | some factor => (multiply num factor).map fun num => (num, expr.tail)
  | none => .ok (num, expr)

/-- `__strsuftollx`, with so many levels left before `depth` is beyond 16. -/
def strsuftollxAt (min max : Int) : Nat → List Byte → Except Refusal Int
  | 0, _ => .error .recursionLimitExceeded
  | left + 1, val =>
      let val := val.dropWhile isspace
      let (num, overflow, expr) := strtoll val
      if overflow then .error .erange
      else if expr.length = val.length then .error (.illegalNumber val)
      else
        match suffixed num expr with
        | .error refusal => .error refusal
        | .ok (num, []) => check min max num
        | .ok (num, c :: rest) =>
            if c = byte '*' ∨ c = byte 'x' then
              match strsuftollxAt min max left rest with
              | .error refusal => .error refusal
              | .ok product =>
                  match multiply num product with
                  | .error refusal => .error refusal
                  | .ok num => check min max num
            else .error (.illegalNumber val)

/-- `strsuftollx` -/
def strsuftollx (val : List Byte) (min max : Int) : Except Refusal Int :=
  strsuftollxAt min max 17 val

/-! ## Expressions -/

inductive Suffix where
  | b | k | m | g | t | w
  deriving DecidableEq, Repr

def Suffix.char : Suffix → Byte
  | .b => byte 'b'
  | .k => byte 'k'
  | .m => byte 'm'
  | .g => byte 'g'
  | .t => byte 't'
  | .w => byte 'w'

def Suffix.factor : Suffix → Nat
  | .b => 512
  | .k => 1024
  | .m => 1048576
  | .g => 1073741824
  | .t => 1099511627776
  | .w => 4

/-- A decimal number, and perhaps a suffix. -/
structure Factor where
  digits : List Byte
  nonempty : digits ≠ []
  decimal : ∀ b ∈ digits, isdigit b = true
  suffix : Option Suffix

def Factor.number (f : Factor) : Nat := digitsValue 0 f.digits

def Factor.value (f : Factor) : Nat :=
  match f.suffix with
  | none => f.number
  | some s => f.number * s.factor

def Factor.text (f : Factor) : List Byte :=
  f.digits ++
    match f.suffix with
    | none => []
    | some s => [s.char]

/-- Factors, joined by `*` or by `x`. -/
inductive Expression where
  | one (f : Factor)
  | times (f : Factor) (star : Bool) (rest : Expression)

namespace Expression

def text : Expression → List Byte
  | one f => f.text
  | times f star rest => f.text ++ ((if star then byte '*' else byte 'x') :: rest.text)

def count : Expression → Nat
  | one _ => 1
  | times _ _ rest => rest.count + 1

def factors : Expression → List Factor
  | one f => [f]
  | times f _ rest => f :: rest.factors

/-- The exact product. -/
def product : Expression → Nat
  | one f => f.value
  | times f _ rest => f.value * rest.product

/-- No multiplication leaves the range of a `long long`. -/
def Fits : Expression → Prop
  | one f => (f.value : Int) ≤ longMax
  | times f _ rest =>
      (f.value : Int) ≤ longMax ∧ ((f.value * rest.product : Nat) : Int) ≤ longMax ∧ rest.Fits

/-- Each product of last factors is within the bounds, and none is 0 behind a factor that is not. -/
def Within (min max : Int) : Expression → Prop
  | one f => min ≤ f.value ∧ f.value ≤ max
  | times f _ rest =>
      (min ≤ (f.value * rest.product : Nat) ∧ (f.value * rest.product : Nat) ≤ max) ∧
        (rest.product = 0 → f.value = 0) ∧ rest.Within min max

end Expression

/-! ## Reading a factor -/

/-- What is behind a factor: nothing, or one of the two signs that join factors. -/
def Joins (rest : List Byte) : Prop := ∀ c, rest.head? = some c → c = byte '*' ∨ c = byte 'x'

variable {rest : List Byte}

theorem Joins.suffixed (joins : Joins rest) (num : Int) :
    suffixed num rest = .ok (num, rest) := by
  cases rest with
  | nil => rfl
  | cons c rest => rcases joins c rfl with rfl | rfl <;> rfl

theorem Joins.endsNumber (joins : Joins rest) : EndsNumber rest := by
  intro c first
  rcases joins c first with rfl | rfl <;> rfl

theorem multiplier_char (s : Suffix) : multiplier s.char = some (s.factor : Int) := by
  cases s <;> rfl

theorem isdigit_char (s : Suffix) : isdigit s.char = false := by
  cases s <;> rfl

/-- What is behind the digits of a factor. -/
def Factor.behind (f : Factor) (rest : List Byte) : List Byte :=
  match f.suffix with
  | none => rest
  | some s => s.char :: rest

theorem Factor.text_append (f : Factor) (rest : List Byte) :
    f.text ++ rest = f.digits ++ f.behind rest := by
  unfold Factor.text Factor.behind
  cases f.suffix with
  | none => rw [List.append_nil]
  | some s => rw [List.append_assoc, List.singleton_append]

theorem Factor.behind_endsNumber (f : Factor) (joins : Joins rest) :
    EndsNumber (f.behind rest) := by
  unfold Factor.behind
  cases f.suffix with
  | none => exact joins.endsNumber
  | some s =>
      intro c first
      cases first
      exact isdigit_char s

/-- The number of a factor times its suffix, as the code takes it. -/
def Factor.scaled (f : Factor) : Except Refusal Int :=
  match f.suffix with
  | none => .ok f.number
  | some s => multiply f.number s.factor

theorem Factor.suffixed_behind (f : Factor) (joins : Joins rest) :
    suffixed f.number (f.behind rest) = f.scaled.map fun num => (num, rest) := by
  unfold Factor.behind Factor.scaled
  cases f.suffix with
  | none => exact joins.suffixed f.number
  | some s =>
      rw [suffixed, List.head?_cons, Option.bind_some, multiplier_char, List.tail_cons]

theorem Factor.front (f : Factor) : ∃ c more, f.digits = c :: more ∧ isdigit c = true := by
  cases digits : f.digits with
  | nil => exact absurd digits f.nonempty
  | cons c more => exact ⟨c, more, rfl, f.decimal c (by rw [digits]; exact List.mem_cons_self)⟩

theorem Factor.dropWhile_isspace (f : Factor) (rest : List Byte) :
    (f.digits ++ rest).dropWhile isspace = f.digits ++ rest := by
  obtain ⟨c, more, digits, digit⟩ := f.front
  rw [digits, List.cons_append, List.dropWhile_cons, not_isspace_of_isdigit digit,
    if_neg Bool.false_ne_true]

theorem Factor.strtoll_digits (f : Factor) (stop : EndsNumber rest) :
    strtoll (f.digits ++ rest) =
      (min longMax (f.number : Int), decide (longMax < (f.number : Int)), rest) := by
  obtain ⟨c, more, digits, digit⟩ := f.front
  have notMinus : c ≠ byte '-' := by
    rintro rfl
    exact absurd digit (by decide)
  have notPlus : c ≠ byte '+' := by
    rintro rfl
    exact absurd digit (by decide)
  have value : digitsValue 0 (f.digits ++ rest) = f.number := by
    rw [digitsValue_append f.decimal, digitsValue_stop stop]
    rfl
  have behind : (f.digits ++ rest).dropWhile isdigit = rest := by
    rw [List.dropWhile_append_of_pos f.decimal]
    cases rest with
    | nil => rfl
    | cons b rest => rw [List.dropWhile_cons, stop b rfl, if_neg Bool.false_ne_true]
  have some_ : ¬ (f.digits ++ rest).takeWhile isdigit = [] := by
    rw [digits, List.cons_append, List.takeWhile_cons, digit, if_pos rfl]
    exact List.cons_ne_nil _ _
  have first : (f.digits ++ rest).head? = some c := by rw [digits]; rfl
  have low : -longMax - 1 ≤ (f.number : Int) := by unfold longMax; omega
  unfold strtoll
  dsimp only
  rw [f.dropWhile_isspace, first]
  simp only [Option.some.injEq, notMinus, notPlus, or_self, if_false, value, behind, if_neg some_]
  have above : max (-longMax - 1) (min longMax (f.number : Int)) = min longMax (f.number : Int) := by
    apply Int.max_eq_right
    unfold longMax at low ⊢
    omega
  rw [above, decide_eq_false (Int.not_lt.mpr low), Bool.false_or]

/-- The last steps of a level. -/
def join (min max : Int) (left : Nat) (num : Int) : List Byte → Except Refusal Int
  | [] => check min max num
  | _ :: rest =>
      match strsuftollxAt min max left rest with
      | .error refusal => .error refusal
      | .ok product =>
          match multiply num product with
          | .error refusal => .error refusal
          | .ok num => check min max num

theorem join_error {min max : Int} {left : Nat} {refusal : Refusal}
    (refused : strsuftollxAt min max left rest = .error refusal) (num : Int) (c : Byte) :
    join min max left num (c :: rest) = .error refusal := by
  rw [join, refused]

theorem join_ok {min max : Int} {left : Nat} {product : Int}
    (accepted : strsuftollxAt min max left rest = .ok product) (num : Int) (c : Byte) :
    join min max left num (c :: rest) =
      match multiply num product with
      | .error refusal => .error refusal
      | .ok num => check min max num := by
  rw [join, accepted]

theorem strsuftollxAt_factor (min max : Int) (left : Nat) (f : Factor) (joins : Joins rest) :
    strsuftollxAt min max (left + 1) (f.text ++ rest) =
      if longMax < (f.number : Int) then .error .erange
      else
        match f.scaled with
        | .error refusal => .error refusal
        | .ok num => join min max left num rest := by
  obtain ⟨c, more, digits, digit⟩ := f.front
  have read : ¬ (f.behind rest).length = (f.digits ++ f.behind rest).length := by
    rw [digits, List.length_append, List.length_cons]
    omega
  rw [strsuftollxAt, f.text_append, f.dropWhile_isspace]
  dsimp only
  rw [f.strtoll_digits (f.behind_endsNumber joins)]
  dsimp only
  by_cases large : longMax < (f.number : Int)
  · rw [decide_eq_true large, if_pos rfl, if_pos large]
  · rw [decide_eq_false large, if_neg Bool.false_ne_true, if_neg large, if_neg read,
      Int.min_eq_right (Int.not_lt.mp large), f.suffixed_behind joins]
    cases f.scaled with
    | error refusal => rfl
    | ok num =>
        cases rest with
        | nil => rfl
        | cons c rest =>
            dsimp only [Except.map]
            rw [if_pos (joins c rfl)]
            rfl

/-! ## Without an overflow -/

theorem wrap_small {n : Nat} (small : (n : Int) ≤ longMax) : wrap n = n := by
  unfold longMax at small
  exact Int.bmod_eq_of_le (by omega) (by omega)

/-- The test behind a multiplication that stays in range looks for a 0 only. -/
theorem multiply_small {n m : Nat} (small : ((n * m : Nat) : Int) ≤ longMax) :
    multiply n m = if m = 0 ∧ n ≠ 0 then .error .erange else .ok ((n * m : Nat) : Int) := by
  have smaller : (n : Int) > ((n * m : Nat) : Int) ↔ m = 0 ∧ n ≠ 0 := by
    constructor
    · intro less
      rcases Nat.eq_zero_or_pos m with zero | positive
      · subst zero
        exact ⟨rfl, by omega⟩
      · exact absurd (Nat.le_mul_of_pos_right n positive) (by omega)
    · rintro ⟨rfl, positive⟩
      rw [Nat.mul_zero]
      omega
  have exact_ : wrap ((n : Int) * (m : Int)) = ((n * m : Nat) : Int) := by
    rw [← Int.natCast_mul, wrap_small small]
  unfold multiply
  dsimp only
  rw [exact_]
  simp only [smaller]

theorem Factor.scaled_small (f : Factor) (small : (f.value : Int) ≤ longMax) :
    f.scaled = .ok f.value := by
  unfold Factor.scaled
  unfold Factor.value at small ⊢
  cases suffix : f.suffix with
  | none => rfl
  | some s =>
      rw [suffix] at small
      have positive : ¬ (s.factor = 0 ∧ f.number ≠ 0) := by cases s <;> simp [Suffix.factor]
      dsimp only at small ⊢
      rw [multiply_small small, if_neg positive]

theorem Factor.number_le_value (f : Factor) : f.number ≤ f.value := by
  unfold Factor.value
  cases f.suffix with
  | none => exact Nat.le_refl _
  | some s => exact Nat.le_mul_of_pos_right _ (by cases s <;> decide)

namespace Expression

theorem joins_sign (star : Bool) (rest : List Byte) :
    Joins ((if star then byte '*' else byte 'x') :: rest) := by
  intro c first
  cases first
  cases star
  · exact Or.inr rfl
  · exact Or.inl rfl

theorem joins_nil : Joins [] := fun _ impossible => by cases impossible

theorem check_eq (min max num : Int) : (min ≤ num ∧ num ≤ max → check min max num = .ok num) ∧
    (¬ (min ≤ num ∧ num ≤ max) → ∃ refusal, check min max num = .error refusal) := by
  unfold check
  constructor
  · rintro ⟨low, high⟩
    rw [if_neg (Int.not_lt.mpr low), if_neg (Int.not_lt.mpr high)]
  · intro outside
    by_cases low : num < min
    · exact ⟨_, if_pos low⟩
    · rw [if_neg low]
      exact ⟨_, if_pos (by omega)⟩

/-- Where no multiplication overflows, an expression is accepted if every level is content, and
its product is exact. -/
theorem strsuftollxAt_text (min max : Int) : ∀ (e : Expression) (left : Nat), e.count ≤ left →
    e.Fits →
    (e.Within min max → strsuftollxAt min max left e.text = .ok e.product) ∧
      (¬ e.Within min max → ∃ refusal, strsuftollxAt min max left e.text = .error refusal) := by
  intro e
  induction e with
  | one f =>
      intro left deep fits
      obtain ⟨left, rfl⟩ : ∃ l, left = l + 1 := ⟨left - 1, by unfold count at deep; omega⟩
      rw [Fits] at fits
      have number := Int.ofNat_le.mpr f.number_le_value
      have small : ¬ longMax < (f.number : Int) := Int.not_lt.mpr (Int.le_trans number fits)
      rw [text, ← List.append_nil f.text, strsuftollxAt_factor min max left f joins_nil,
        if_neg small, f.scaled_small fits]
      exact check_eq min max f.value
  | times f star rest ih =>
      intro left deep fits
      obtain ⟨left, rfl⟩ : ∃ l, left = l + 1 := ⟨left - 1, by unfold count at deep; omega⟩
      rw [Fits] at fits
      obtain ⟨first, both, later⟩ := fits
      have number := Int.ofNat_le.mpr f.number_le_value
      have small : ¬ longMax < (f.number : Int) := Int.not_lt.mpr (Int.le_trans number first)
      obtain ⟨accepted, refused⟩ := ih left (by unfold count at deep; omega) later
      rw [text, strsuftollxAt_factor min max left f (joins_sign star rest.text), if_neg small,
        f.scaled_small first]
      dsimp only
      by_cases within : rest.Within min max
      · rw [join_ok (accepted within), multiply_small both]
        by_cases zero : rest.product = 0 ∧ f.value ≠ 0
        · rw [if_pos zero]
          exact ⟨fun whole => absurd (whole.2.1 zero.1) zero.2, fun _ => ⟨_, rfl⟩⟩
        · have sound : rest.product = 0 → f.value = 0 := fun none_ =>
            not_not.mp fun some_ => zero ⟨none_, some_⟩
          have same : (times f star rest).Within min max ↔
              min ≤ ((f.value * rest.product : Nat) : Int) ∧
                ((f.value * rest.product : Nat) : Int) ≤ max := by
            rw [Within]
            exact ⟨fun whole => whole.1, fun inside => ⟨inside, sound, within⟩⟩
          rw [if_neg zero, same, product]
          exact check_eq min max _
      · obtain ⟨refusal, refused⟩ := refused within
        rw [join_error refused]
        exact ⟨fun whole => absurd whole.2.2 within, fun _ => ⟨refusal, rfl⟩⟩

/-- A number that is no `long long` is reported from any level. -/
theorem strsuftollxAt_large (min max : Int) : ∀ (e : Expression) (left : Nat),
    (∃ f ∈ e.factors, longMax < (f.number : Int)) →
    ∃ refusal, strsuftollxAt min max left e.text = .error refusal := by
  intro e
  induction e with
  | one f =>
      rintro left ⟨g, member, large⟩
      cases left with
      | zero => exact ⟨_, rfl⟩
      | succ left =>
          rw [List.mem_singleton.mp member] at large
          rw [text, ← List.append_nil f.text, strsuftollxAt_factor min max left f joins_nil,
            if_pos large]
          exact ⟨_, rfl⟩
  | times f star rest ih =>
      rintro left ⟨g, member, large⟩
      cases left with
      | zero => exact ⟨_, rfl⟩
      | succ left =>
          rw [text, strsuftollxAt_factor min max left f (joins_sign star rest.text)]
          by_cases here : longMax < (f.number : Int)
          · exact ⟨_, if_pos here⟩
          · rw [if_neg here]
            have later : g ∈ rest.factors := by
              rcases List.mem_cons.mp member with rfl | later
              · exact absurd large here
              · exact later
            obtain ⟨refusal, refused⟩ := ih left ⟨g, later, large⟩
            cases f.scaled with
            | error refusal => exact ⟨refusal, rfl⟩
            | ok num =>
                dsimp only
                rw [join_error refused]
                exact ⟨refusal, rfl⟩

theorem Within.product {min max : Int} {e : Expression} (within : e.Within min max) :
    min ≤ e.product ∧ e.product ≤ max := by
  cases e with
  | one f => exact within
  | times f star rest => exact within.1

end Expression

/-- Decimal size expressions of at most 16 factors: a number out of range is an error; where no
multiplication overflows, a product out of bounds is one too, and the product is exact where
every level of the recursion accepts its own. -/
theorem strsuftollx_product (e : Expression) (few : e.count ≤ 16) (min max : Int) :
    ((∃ f ∈ e.factors, longMax < (f.number : Int)) →
        ∃ refusal, strsuftollx e.text min max = .error refusal) ∧
      (e.Fits →
        (¬ (min ≤ e.product ∧ e.product ≤ max) →
          ∃ refusal, strsuftollx e.text min max = .error refusal) ∧
        (e.Within min max → strsuftollx e.text min max = .ok e.product)) := by
  refine ⟨e.strsuftollxAt_large min max 17, fun fits => ?_⟩
  obtain ⟨accepted, refused⟩ := e.strsuftollxAt_text min max 17 (by omega) fits
  exact ⟨fun outside => refused fun within => outside within.product, accepted⟩

/-- `4b*3` -/
def blocks : Expression :=
  .times ⟨[52], by decide, by decide +kernel, some .b⟩ true
    (.one ⟨[51], by decide, by decide +kernel, none⟩)

theorem strsuftollx_product_blocks : strsuftollx blocks.text 1 9000 = .ok 6144 :=
  ((strsuftollx_product blocks (by decide) 1 9000).2
    (by simp only [blocks, Expression.Fits]; decide)).2
    (by simp only [blocks, Expression.Within]; decide)

/-- `0x10` is a product of 0 and 10; an overflow that lands above the number is not seen; and
a factor below the least value is refused although the product is not. -/
theorem hexadecimal_is_product :
    strsuftollx (ascii ['0', 'x', '1', '0']) 0 100 = .ok 0 ∧
      strsuftollx (ascii ['1', '6', '7', '7', '7', '2', '1', '7', 't']) 0 longMax =
        .ok 1099511627776 ∧
      strsuftollx (ascii ['3', 'x', '2']) 3 10 = .error (.isLessThan 2 3) := by
  decide

end Netbase.Strsuftoll
