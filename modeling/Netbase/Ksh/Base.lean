import Mathlib
import Netbase.Ksh.Typeset

/-!
# The bases of integer variables

The type of a variable is the base of an integer and the offset of an exported
string.  Whatever an evaluation or an assignment does, the base of an integer stays
zero or one that the digits go up to; `typeset` writes the base it is given without
looking at it.
-/

namespace Netbase.Ksh.Typeset

open Netbase.Text Netbase.Lib Netbase.Ksh.Expr

/-! ## Flags -/

theorem has_bit (flag : Flag) {k : Nat} (small : k < 32) :
    has flag ((1 : Flag) <<< k) = flag.getLsbD k := by
  have mask : (1 : Flag) <<< k = BitVec.twoPow 32 k := rfl
  have nonzero : BitVec.twoPow 32 k ≠ 0#32 := by
    intro zero
    have bit := congrArg (fun word => word.getLsbD k) zero
    simp [small] at bit
  unfold has
  rw [mask, BitVec.and_twoPow]
  cases flag.getLsbD k <;> simp [nonzero]

theorem has_INTEGER (flag : Flag) : has flag INTEGER = flag.getLsbD 9 :=
  has_bit flag (by decide)

@[simp] theorem has_INTEGER_or (flag mask : Flag) :
    has (flag ||| mask) INTEGER = (has flag INTEGER || has mask INTEGER) := by
  simp only [has_INTEGER, BitVec.getLsbD_or]

@[simp] theorem has_INTEGER_and (flag mask : Flag) :
    has (flag &&& mask) INTEGER = (has flag INTEGER && has mask INTEGER) := by
  simp only [has_INTEGER, BitVec.getLsbD_and]

@[simp] theorem has_INTEGER_not (mask : Flag) :
    has (~~~mask) INTEGER = !has mask INTEGER := by
  simp [has_INTEGER]

/-! ## Digits in the buffer -/

/-- The digits go up to the base. -/
def Based (type : Int) : Prop := 2 ≤ type ∧ type ≤ 36

theorem digitChar_isSome (upper : Bool) (d : Nat) (small : d < 36) :
    ∃ c, digitChar upper d = some c := by
  unfold digitChar
  by_cases decimal : d < 10
  · exact ⟨_, if_pos decimal⟩
  · exact ⟨_, by rw [if_neg decimal, if_pos small]⟩

theorem digitLoop_fits {upper : Bool} {base : Nat} (two : 2 ≤ base) (most : base ≤ 36) (k : Nat) :
    ∀ {room n : Nat} {s : List Byte}, n < base ^ (k + 1) → k < room →
      ∃ out, digitLoop upper base room n s = some out ∧ out.length ≤ s.length + (k + 1) := by
  induction k with
  | zero =>
      intro room n s below space
      obtain ⟨room, rfl⟩ : ∃ r, room = r + 1 := ⟨room - 1, by omega⟩
      have small : n < base := by simpa using below
      obtain ⟨c, last⟩ := digitChar_isSome upper (n % base)
        (lt_of_lt_of_le (Nat.mod_lt n (by omega)) most)
      refine ⟨c :: s, ?_, by simp⟩
      simp [digitLoop, last, Nat.div_eq_of_lt small]
  | succ k ih =>
      intro room n s below space
      obtain ⟨room, rfl⟩ : ∃ r, room = r + 1 := ⟨room - 1, by omega⟩
      obtain ⟨c, next⟩ := digitChar_isSome upper (n % base)
        (lt_of_lt_of_le (Nat.mod_lt n (by omega)) most)
      by_cases done : n / base = 0
      · refine ⟨c :: s, ?_, by simp⟩
        simp [digitLoop, next, done]
      · have fewer : n / base < base ^ (k + 1) := by
          rw [Nat.div_lt_iff_lt_mul (by omega)]
          rw [← Nat.pow_succ]
          exact below
        obtain ⟨out, run, length⟩ := ih (s := c :: s) fewer (by omega : k < room)
        refine ⟨out, ?_, by simp only [List.length_cons] at length; omega⟩
        simp [digitLoop, next, done, run]

theorem long_digits {base n : Nat} (two : 2 ≤ base) (long : n < 2 ^ 64) : n < base ^ (63 + 1) :=
  lt_of_lt_of_le long (Nat.pow_le_pow_left two 64)

theorem integerText_fits {v : Var} (base : v.type = 0 ∨ Based v.type) :
    ∃ s, integerText v = some s ∧ s.length < strbufSize := by
  unfold integerText
  extract_lets upper negative n b
  have long : n < 2 ^ 64 := by
    simp only [n]
    split <;> exact BitVec.isLt _
  have bounds : 2 ≤ b ∧ b ≤ 36 := by
    simp only [b]
    rcases base with zero | ⟨two, most⟩
    · rw [if_pos zero]
      decide
    · have nonzero : v.type ≠ 0 := by omega
      rw [if_neg nonzero]
      omega
  obtain ⟨digits, run, length⟩ := @digitLoop_fits upper b bounds.1 bounds.2 63
    (strbufSize - 1) n [] (long_digits bounds.1 long) (by decide)
  simp only [List.length_nil, Nat.zero_add] at length
  have size : strbufSize = 69 := rfl
  have sign : (if negative then [byte '-'] else []).length ≤ 1 := by
    split <;> simp
  simp only [run]
  by_cases ten : b = 10
  · rw [if_pos ten]
    refine ⟨_, rfl, ?_⟩
    rw [List.length_append]
    omega
  · rw [if_neg ten]
    obtain ⟨low, lowDigit⟩ := digitChar_isSome upper (b % 10) (by omega)
    obtain ⟨high, highDigit⟩ := digitChar_isSome upper (b / 10) (by omega)
    simp only [lowDigit, highDigit]
    refine ⟨_, rfl, ?_⟩
    have first : (if b ≥ 10 then [high] else []).length ≤ 1 := by
      split <;> simp
    simp only [List.length_append, List.length_cons, List.length_nil]
    omega

/-! ## Variables -/

/-- An integer variable has no base, or one the digits go up to. -/
def SoundBase (v : Var) : Prop := has v.flag INTEGER = true → v.type = 0 ∨ Based v.type

theorem soundBase_of_type {v : Var} (zero : v.type = 0) : SoundBase v := fun _ => Or.inl zero

theorem strVal_fits {v : Var} (sound : SoundBase v) :
    ∃ s, strVal v = some s ∧ (has v.flag INTEGER = true → s.length < strbufSize) := by
  unfold strVal
  by_cases set : has v.flag ISSET = true
  · by_cases integer : has v.flag INTEGER = true
    · obtain ⟨s, text, length⟩ := integerText_fits (sound integer)
      simp only [set, integer, Bool.not_true, Bool.false_eq_true, if_false, text, Option.map_some]
      split
      · refine ⟨_, rfl, fun _ => ?_⟩
        have positive : 0 < strbufSize := by decide
        exact lt_of_le_of_lt (List.length_take_le _ _) (Nat.sub_lt positive (by decide))
      · exact ⟨s, rfl, fun _ => length⟩
    · simp only [set, integer, Bool.not_true, Bool.not_false, Bool.false_eq_true, if_false, if_true]
      exact ⟨_, rfl, fun impossible => impossible.elim⟩
  · simp only [set, Bool.not_false, if_true]
    exact ⟨[], rfl, fun _ => by decide⟩

/-- A literal has base ten, sixteen, or the one before its `#`. -/
theorem getintLoop_based {s : List Byte} : ∀ {base : Int} {haveBase : Bool} {num : Long} {b n},
    Based base → getintLoop base haveBase num s = some (b, n) → Based b := by
  induction s with
  | nil =>
      intro base haveBase num b n based found
      cases found
      exact based
  | cons c s ih =>
      intro base haveBase num b n based found
      rw [getintLoop] at found
      split at found
      · extract_lets newBase at found
        split at found
        · cases found
        · next accepted =>
            simp only [Bool.or_eq_true, decide_eq_true_eq, not_or] at accepted
            exact ih ⟨by omega, by omega⟩ found
      · split at found
        · split at found
          · cases found
          · split at found
            · cases found
            · exact ih based found
        · cases found

theorem getintText_based {s : List Byte} {b : Int} {n : Long} (found : getintText s = some (b, n)) :
    Based b := by
  have unsigned : ∀ {s : List Byte} {b n}, getintUnsigned s = some (b, n) → Based b := by
    intro s b n found
    unfold getintUnsigned at found
    split at found
    · exact getintLoop_based ⟨by decide, by decide⟩ found
    · exact getintLoop_based ⟨by decide, by decide⟩ found
  unfold getintText at found
  split at found
  · obtain ⟨⟨b', n'⟩, inner, same⟩ := Option.map_eq_some_iff.mp found
    cases same
    exact unsigned inner
  · exact unsigned found

theorem getint_based {v : Var} (sound : SoundBase v) {b : Int} {n : Long}
    (found : getint v = some (b, n)) : b = 0 ∨ Based b := by
  unfold getint at found
  split at found
  · cases found
  · split at found
    · next integer =>
        split at found
        · cases found
        · cases found
          exact sound integer
    · exact Or.inr (getintText_based found)

/-! ## Shells -/

/-- Every integer variable has a sound base. -/
def SoundBases (sh : Shell) : Prop := ∀ p, SoundBase (sh.cell p)

namespace SoundBases

variable {sh : Shell}

theorem write (sound : SoundBases sh) (p : Addr) {v : Var} (new : SoundBase v) :
    SoundBases (sh.write p v) := by
  intro q
  simp only [Shell.write]
  split
  · exact new
  · exact sound q

theorem alloc (sound : SoundBases sh) {v : Var} (new : SoundBase v) : SoundBases (sh.alloc v) :=
  sound.write sh.next new

theorem setFlag (sound : SoundBases sh) (p : Addr) {mask : Flag}
    (other : has mask INTEGER = false) : SoundBases (sh.setFlag p mask) := by
  refine sound.write p fun integer => sound p ?_
  simpa [other] using integer

theorem clearFlag (sound : SoundBases sh) (p : Addr) (mask : Flag) :
    SoundBases (sh.clearFlag p mask) := by
  refine sound.write p fun integer => sound p ?_
  simp only [has_INTEGER_and, Bool.and_eq_true] at integer
  exact integer.1

theorem setintV (sound : SoundBases sh) {sh' : Shell} {vq vp : Addr}
    (ready : has (sh.cell vq).flag INTEGER = true ∨ (sh.cell vq).type = 0)
    (stored : Expr.setintV sh vq vp = some sh') : SoundBases sh' := by
  unfold Expr.setintV at stored
  split at stored
  · cases stored
  · next base num found =>
      cases stored
      refine sound.write vq fun _ => ?_
      show (if (sh.cell vq).type = 0 then base else (sh.cell vq).type) = 0 ∨
        Based (if (sh.cell vq).type = 0 then base else (sh.cell vq).type)
      by_cases zero : (sh.cell vq).type = 0
      · rw [if_pos zero]
        exact getint_based (sound vp) found
      · rw [if_neg zero]
        exact sound vq (ready.resolve_right zero)

theorem storeText (sound : SoundBases sh) {vq : Addr} (s : List Byte)
    (ready : has (sh.cell vq).flag INTEGER = false) : SoundBases (storeText sh vq s) := by
  unfold Expr.storeText
  extract_lets v formatted text field
  have noInteger : has (v.flag ||| (ALLOC ||| ISSET)) INTEGER = false := by
    simp only [has_INTEGER_or, v, ready]
    decide
  split
  · exact sound.write vq fun integer => absurd integer (by simp [noInteger])
  · exact sound.write vq fun integer => absurd integer (by simp [noInteger])

theorem setint (sound : SoundBases sh) (vq : Addr) (n : Long) : SoundBases (setint sh vq n) := by
  unfold Expr.setint
  extract_lets v
  split
  · exact sound.write vq fun _ => sound vq (by assumption)
  · split
    · exact sound.setFlag vq (by decide)
    · exact sound.storeText _ (by simpa using ‹¬has v.flag INTEGER = true›)

theorem global (sound : SoundBases sh) (n : Name) : SoundBases (global sh n).2 := by
  unfold Expr.global
  split
  · exact sound
  · exact sound.alloc (soundBase_of_type rfl)

theorem elementOf {v old : Var} (sound : SoundBase v) (val : Nat) :
    SoundBase (elementOf v old val) := by
  intro integer
  simp only [Typeset.elementOf, has_INTEGER_and, Bool.and_eq_true] at integer
  exact sound integer.1

theorem insertElement (sound : SoundBases sh) (vp : Addr) (val : Nat) (prev : Addr)
    (curr : Option Addr) : SoundBases (insertElement sh vp val prev curr).2 := by
  have made := sound.alloc (v := { Typeset.elementOf (sh.cell vp) (freshVar []) val with array := curr })
    (@SoundBases.elementOf _ (freshVar []) (sound vp) val)
  exact made.write prev (made prev)

theorem arraysearch (sound : SoundBases sh) (vp : Addr) (val : Nat) :
    SoundBases (arraysearch sh vp val).2 := by
  unfold Typeset.arraysearch
  extract_lets marked found
  have after : SoundBases marked := sound.setFlag vp (by decide)
  split
  · exact after.write vp (after vp)
  · split
    · exact after.insertElement vp val _ none
    · split
      · split
        · exact after
        · exact after.write _ (SoundBases.elementOf (after vp) val)
      · exact after.insertElement vp val _ _

theorem touch (sound : SoundBases sh) {sh' : Shell} (step : Touch sh sh') : SoundBases sh' := by
  cases step with
  | alloc flag val => exact sound.alloc (soundBase_of_type rfl)
  | number p n => exact sound.write p (sound p)
  | setintV ready stored => exact sound.setintV ready stored
  | setint vq n => exact sound.setint vq n
  | storeText s ready => exact sound.storeText s ready
  | mark p => exact sound.setFlag p (by decide)
  | unmark p => exact sound.clearFlag p EXPRINEVAL
  | set p => exact sound.setFlag p (by decide)
  | global n => exact sound.global n
  | element vp val => exact sound.arraysearch vp val

theorem touches (sound : SoundBases sh) {sh' : Shell} (steps : Touches sh sh') :
    SoundBases sh' := by
  induction steps with
  | refl => exact sound
  | tail _ step ih => exact ih.touch step

end SoundBases

end Netbase.Ksh.Typeset
