import Mathlib
import Netbase.Text.Decimal

/-!
# base64

`b64_encode` writes three bytes as four characters of the alphabet, pads the last
group with `=` and breaks lines at the wrap width.  `b64_decode` is a four-state
accumulator; under the ignore flag it skips white space at every position.  The
alphabet is searched with `strchr`, which also finds the NUL behind it.
-/

namespace Netbase.Base64

open Netbase.Text

def B64 : List Byte :=
  ascii ['A', 'B', 'C', 'D', 'E', 'F', 'G', 'H', 'I', 'J', 'K', 'L', 'M', 'N', 'O', 'P', 'Q', 'R',
    'S', 'T', 'U', 'V', 'W', 'X', 'Y', 'Z', 'a', 'b', 'c', 'd', 'e', 'f', 'g', 'h', 'i', 'j', 'k',
    'l', 'm', 'n', 'o', 'p', 'q', 'r', 's', 't', 'u', 'v', 'w', 'x', 'y', 'z', '0', '1', '2', '3',
    '4', '5', '6', '7', '8', '9', '+', '/']

def padChar : Byte := byte '='

/-! ## Encoding -/

/-- Four values of six bits from three bytes. -/
def encode (in0 in1 in2 : Byte) : List Byte :=
  [in0 >>> 2, ((in0 &&& 0x03) <<< 4) ||| (in1 >>> 4), ((in1 &&& 0x0f) <<< 2) ||| (in2 >>> 6),
    in2 &&& 0x3f]

/-- Write characters, with a newline whenever the line reaches the wrap width. -/
def putChars (wrap : Nat) : Nat → List Byte → List Byte × Nat
  | pos, [] => ([], pos)
  | pos, c :: chars =>
      if pos + 1 = wrap then
        let (text, pos) := putChars wrap 0 chars
        (c :: nl :: text, pos)
      else
        let (text, pos) := putChars wrap (pos + 1) chars
        (c :: text, pos)

/-- Write a group of which `len` bytes were read; a value of 64 or more is `EINVAL`. -/
def putoutput (out : List Byte) (len wrap pos : Nat) : Option (List Byte × Nat) :=
  if (out.take (len + 1)).all (fun b => b.toNat < 64) then
    some (putChars wrap pos ((out.take (len + 1)).map (fun b => B64.getD b.toNat 0) ++
      List.replicate (3 - len) padChar))
  else none

/-- The loop of `b64_encode` and the last short group. -/
def encodeFrom (wrap : Nat) : Nat → List Byte → Option (List Byte × Nat)
  | pos, [] => some ([], pos)
  | pos, [in0] => putoutput (encode in0 0 0) 1 wrap pos
  | pos, [in0, in1] => putoutput (encode in0 in1 0) 2 wrap pos
  | pos, in0 :: in1 :: in2 :: rest =>
      match putoutput (encode in0 in1 in2) 3 wrap pos with
      | none => none
      | some (text, pos) =>
          match encodeFrom wrap pos rest with
          | none => none
          | some (more, pos) => some (text ++ more, pos)

def b64Encode (wrap : Nat) (input : List Byte) : Option (List Byte) :=
  match encodeFrom wrap 0 input with
  | none => none
  | some (text, pos) => some (text ++ if pos ≠ 0 ∧ wrap ≠ 0 then [nl] else [])

/-! ## Decoding -/

inductive Status where
  | ok
  | eftype
  deriving DecidableEq, Repr

/-- The result of a run and the bytes written by then. -/
structure Decoded where
  status : Status
  out : List Byte
  deriving DecidableEq

/-- `strchr(B64, c)`: the terminating NUL counts as the character behind the alphabet. -/
def strchr (c : Byte) : Option Nat := (B64 ++ [0]).findIdx? (· = c)

/-- The next character, white space skipped under the ignore flag. -/
def nextChar (ignore : Bool) : List Byte → Option Byte × List Byte
  | [] => (none, [])
  | c :: input => if ignore && isspace c then nextChar ignore input else (some c, input)

/-- Behind the last padding character the input must end. -/
def finish (ignore : Bool) (input : List Byte) : Status :=
  if (nextChar ignore input).1 = none then .ok else .eftype

/-- What may follow the first padding character in each state. -/
def padding (ignore : Bool) (state : Nat) (input : List Byte) : Status :=
  match state with
  | 0 => .eftype
  | 1 => .eftype
  | 2 =>
      let (c, input) := nextChar ignore input
      if c = some padChar then finish ignore input else .eftype
  | _ => finish ignore input

/-- One character: the byte that is complete, if any, and the bits left over. -/
def accumulate (state : Nat) (out b : Byte) : List Byte × Byte :=
  match state with
  | 0 => ([], b <<< 2)
  | 1 => ([out ||| (b >>> 4)], (b &&& 0xf) <<< 4)
  | 2 => ([out ||| (b >>> 2)], (b &&& 0x3) <<< 6)
  | _ => ([out ||| b], 0)

/-- The loop of `b64_decode`. -/
def decodeFrom (ignore : Bool) : Nat → Byte → List Byte → Decoded
  | state, _, [] => { status := if state = 0 then .ok else .eftype, out := [] }
  | state, out, c :: input =>
      if ignore && isspace c then decodeFrom ignore state out input
      else if c = padChar then { status := padding ignore state input, out := [] }
      else
        match strchr c with
        | none => { status := .eftype, out := [] }
        | some b =>
            let (written, out) := accumulate state out (UInt8.ofNat b)
            let later := decodeFrom ignore ((state + 1) % 4) out input
            { later with out := written ++ later.out }

def b64Decode (ignore : Bool) (input : List Byte) : Decoded := decodeFrom ignore 0 0 input

/-! ## Values of six bits -/

def charOf (value : Nat) : Byte := B64.getD value 0

theorem charOf_facts : ∀ value : Fin 64, strchr (charOf value) = some value.val ∧
    charOf value ≠ padChar ∧ isspace (charOf value) = false ∧ charOf value ∈ B64 := by
  decide +kernel

theorem exists_charOf : ∀ c ∈ B64, ∃ value : Fin 64, c = charOf value := by
  intro c inside
  obtain ⟨value, below, same⟩ := List.mem_iff_getElem.mp inside
  exact ⟨⟨value, below⟩, by rw [charOf, List.getD_eq_getElem _ _ below, same]⟩

variable {c : Byte}

theorem strchr_outside (outside : c ∉ B64) (nonzero : c ≠ 0) : strchr c = none := by
  unfold strchr
  rw [List.findIdx?_eq_none_iff]
  intro other listed
  rcases List.mem_append.mp listed with inside | last
  · simpa using fun same : other = c => outside (same ▸ inside)
  · rw [List.mem_singleton.mp last]
    simpa using nonzero.symm

theorem toNat_join {high low : Byte} (k : Nat) (room : low.toNat < 2 ^ k)
    (multiple : 2 ^ k ∣ high.toNat) : (high ||| low).toNat = high.toNat + low.toNat := by
  obtain ⟨times, whole⟩ := multiple
  rw [UInt8.toNat_or, whole, Nat.mul_comm, ← Nat.shiftLeft_eq, Nat.shiftLeft_add_eq_or_of_lt room]

section

variable (b : Byte)

theorem toNat_shiftRight_two : (b >>> 2).toNat = b.toNat / 4 := by
  simp [UInt8.toNat_shiftRight, Nat.shiftRight_eq_div_pow]

theorem toNat_shiftRight_four : (b >>> 4).toNat = b.toNat / 16 := by
  simp [UInt8.toNat_shiftRight, Nat.shiftRight_eq_div_pow]

theorem toNat_shiftRight_six : (b >>> 6).toNat = b.toNat / 64 := by
  simp [UInt8.toNat_shiftRight, Nat.shiftRight_eq_div_pow]

theorem toNat_shiftLeft_two : (b <<< 2).toNat = b.toNat % 64 * 4 := by
  simp [UInt8.toNat_shiftLeft, Nat.shiftLeft_eq]
  omega

theorem toNat_and_six : (b &&& 0x3f).toNat = b.toNat % 64 := by
  rw [UInt8.toNat_and]
  exact Nat.and_two_pow_sub_one_eq_mod b.toNat 6

theorem toNat_low_four : (b &&& 0xf).toNat = b.toNat % 16 := by
  rw [UInt8.toNat_and]
  exact Nat.and_two_pow_sub_one_eq_mod b.toNat 4

theorem toNat_low_two : (b &&& 0x3).toNat = b.toNat % 4 := by
  rw [UInt8.toNat_and]
  exact Nat.and_two_pow_sub_one_eq_mod b.toNat 2

theorem toNat_low_two_four : ((b &&& 0x3) <<< 4).toNat = b.toNat % 4 * 16 := by
  simp only [UInt8.toNat_shiftLeft, toNat_low_two, Nat.shiftLeft_eq]
  show b.toNat % 4 * 16 % 256 = b.toNat % 4 * 16
  omega

theorem toNat_low_two_six : ((b &&& 0x3) <<< 6).toNat = b.toNat % 4 * 64 := by
  simp only [UInt8.toNat_shiftLeft, toNat_low_two, Nat.shiftLeft_eq]
  show b.toNat % 4 * 64 % 256 = b.toNat % 4 * 64
  omega

theorem toNat_low_four_two : ((b &&& 0xf) <<< 2).toNat = b.toNat % 16 * 4 := by
  simp only [UInt8.toNat_shiftLeft, toNat_low_four, Nat.shiftLeft_eq]
  show b.toNat % 16 * 4 % 256 = b.toNat % 16 * 4
  omega

theorem toNat_low_four_four : ((b &&& 0xf) <<< 4).toNat = b.toNat % 16 * 16 := by
  simp only [UInt8.toNat_shiftLeft, toNat_low_four, Nat.shiftLeft_eq]
  show b.toNat % 16 * 16 % 256 = b.toNat % 16 * 16
  omega

end

theorem encode_values (a b c : Byte) :
    (encode a b c).map UInt8.toNat =
      [a.toNat / 4, a.toNat % 4 * 16 + b.toNat / 16, b.toNat % 16 * 4 + c.toNat / 64,
        c.toNat % 64] := by
  have second : (((a &&& 0x03) <<< 4) ||| (b >>> 4)).toNat = a.toNat % 4 * 16 + b.toNat / 16 := by
    have small := b.toNat_lt
    rw [toNat_join 4, toNat_low_two_four, toNat_shiftRight_four]
    · rw [toNat_shiftRight_four]
      omega
    · rw [toNat_low_two_four]
      exact ⟨a.toNat % 4, by omega⟩
  have third : (((b &&& 0x0f) <<< 2) ||| (c >>> 6)).toNat = b.toNat % 16 * 4 + c.toNat / 64 := by
    have small := c.toNat_lt
    rw [toNat_join 2, toNat_low_four_two, toNat_shiftRight_six]
    · rw [toNat_shiftRight_six]
      omega
    · rw [toNat_low_four_two]
      exact ⟨b.toNat % 16, by omega⟩
  simp only [encode, List.map_cons, List.map_nil, toNat_shiftRight_two, second, third, toNat_and_six]

section

variable {x y z w : Byte}

/-- The byte that the first two values of a group complete. -/
theorem accumulate_one (smallX : x.toNat < 64) (smallY : y.toNat < 64) :
    ((x <<< 2) ||| (y >>> 4)).toNat = x.toNat * 4 + y.toNat / 16 := by
  rw [toNat_join 2, toNat_shiftLeft_two, toNat_shiftRight_four, Nat.mod_eq_of_lt smallX]
  · rw [toNat_shiftRight_four]
    omega
  · rw [toNat_shiftLeft_two]
    exact ⟨x.toNat % 64, by omega⟩

theorem accumulate_two (smallZ : z.toNat < 64) :
    (((y &&& 0xf) <<< 4) ||| (z >>> 2)).toNat = y.toNat % 16 * 16 + z.toNat / 4 := by
  rw [toNat_join 4, toNat_low_four_four, toNat_shiftRight_two]
  · rw [toNat_shiftRight_two]
    omega
  · rw [toNat_low_four_four]
    exact ⟨y.toNat % 16, by omega⟩

theorem accumulate_three (smallW : w.toNat < 64) :
    (((z &&& 0x3) <<< 6) ||| w).toNat = z.toNat % 4 * 64 + w.toNat := by
  rw [toNat_join 6 smallW, toNat_low_two_six]
  rw [toNat_low_two_six]
  exact ⟨z.toNat % 4, by omega⟩

end

/-! ## Well-formed text -/

/-- Groups of four characters of the alphabet, the last padded with at most two `=`. -/
inductive Grouped : List Byte → Prop where
  | nil : Grouped []
  | two (x y : Fin 64) : Grouped [charOf x, charOf y, padChar, padChar]
  | one (x y z : Fin 64) : Grouped [charOf x, charOf y, charOf z, padChar]
  | quad (x y z w : Fin 64) {rest : List Byte} (more : Grouped rest) :
      Grouped (charOf x :: charOf y :: charOf z :: charOf w :: rest)

/-- Grouped text in which the bits that the padding leaves over are zero. -/
inductive Canonical : List Byte → Prop where
  | nil : Canonical []
  | two (x y : Fin 64) (zero : y.val % 16 = 0) : Canonical [charOf x, charOf y, padChar, padChar]
  | one (x y z : Fin 64) (zero : z.val % 4 = 0) :
      Canonical [charOf x, charOf y, charOf z, padChar]
  | quad (x y z w : Fin 64) {rest : List Byte} (more : Canonical rest) :
      Canonical (charOf x :: charOf y :: charOf z :: charOf w :: rest)

/-- The input that the decoder looks at. -/
def visible (ignore : Bool) (input : List Byte) : List Byte :=
  input.filter fun c => !(ignore && isspace c)

def joinOne (x y : Nat) : Byte := UInt8.ofNat (x * 4 + y / 16)

def joinTwo (y z : Nat) : Byte := UInt8.ofNat (y % 16 * 16 + z / 4)

def joinThree (z w : Nat) : Byte := UInt8.ofNat (z % 4 * 64 + w)

/-- Text and the bytes it stands for. -/
inductive Spells : List Byte → List Byte → Prop where
  | nil : Spells [] []
  | two (x y : Fin 64) : Spells [charOf x, charOf y, padChar, padChar] [joinOne x y]
  | one (x y z : Fin 64) :
      Spells [charOf x, charOf y, charOf z, padChar] [joinOne x y, joinTwo y z]
  | quad (x y z w : Fin 64) {rest bytes : List Byte} (more : Spells rest bytes) :
      Spells (charOf x :: charOf y :: charOf z :: charOf w :: rest)
        (joinOne x y :: joinTwo y z :: joinThree z w :: bytes)

theorem Grouped.spells {text : List Byte} (grouped : Grouped text) :
    ∃ bytes, Spells text bytes := by
  induction grouped with
  | nil => exact ⟨_, .nil⟩
  | two x y => exact ⟨_, .two x y⟩
  | one x y z => exact ⟨_, .one x y z⟩
  | quad x y z w _ ih =>
      obtain ⟨bytes, spells⟩ := ih
      exact ⟨_, .quad x y z w spells⟩

/-! ## What the decoder accepts -/

theorem visible_skip {ignore : Bool} (skipped : (ignore && isspace c) = true) (input : List Byte) :
    visible ignore (c :: input) = visible ignore input :=
  List.filter_cons_of_neg (by rw [skipped]; decide)

theorem visible_keep {ignore : Bool} (kept : ¬ (ignore && isspace c) = true) (input : List Byte) :
    visible ignore (c :: input) = c :: visible ignore input :=
  List.filter_cons_of_pos (by rw [Bool.not_eq_true] at kept; rw [kept]; decide)

theorem nextChar_visible (ignore : Bool) (input : List Byte) :
    (nextChar ignore input).1 = (nextChar false (visible ignore input)).1 ∧
      visible ignore (nextChar ignore input).2 = (nextChar false (visible ignore input)).2 := by
  induction input with
  | nil => exact ⟨rfl, rfl⟩
  | cons c input ih =>
      by_cases skipped : (ignore && isspace c) = true
      · rw [visible_skip skipped, nextChar, if_pos skipped]
        exact ih
      · rw [visible_keep skipped, nextChar, if_neg skipped]
        exact ⟨rfl, rfl⟩

theorem finish_visible (ignore : Bool) (input : List Byte) :
    finish ignore input = finish false (visible ignore input) := by
  rw [finish, (nextChar_visible ignore input).1, finish]

theorem padding_visible (ignore : Bool) (state : Nat) (input : List Byte) :
    padding ignore state input = padding false state (visible ignore input) := by
  obtain ⟨next, rest⟩ := nextChar_visible ignore input
  unfold padding
  split
  · rfl
  · rfl
  · dsimp only
    rw [next, finish_visible, rest]
  · exact finish_visible ignore input

theorem decodeFrom_visible (ignore : Bool) (state : Nat) (out : Byte) (input : List Byte) :
    decodeFrom ignore state out input = decodeFrom false state out (visible ignore input) := by
  induction input generalizing state out with
  | nil => rfl
  | cons c input ih =>
      by_cases skipped : (ignore && isspace c) = true
      · rw [decodeFrom, if_pos skipped, ih, visible_skip skipped]
      · rw [decodeFrom, if_neg skipped, visible_keep skipped, decodeFrom, padding_visible]
        simp only [Bool.false_and, Bool.false_eq_true, if_false, ih]

theorem decodeFrom_charOf (state : Nat) (out : Byte) (value : Fin 64) (input : List Byte) :
    decodeFrom false state out (charOf value :: input) =
      { decodeFrom false ((state + 1) % 4) (accumulate state out (UInt8.ofNat value)).2 input with
        out := (accumulate state out (UInt8.ofNat value)).1 ++
          (decodeFrom false ((state + 1) % 4)
            (accumulate state out (UInt8.ofNat value)).2 input).out } := by
  obtain ⟨found, other, -, -⟩ := charOf_facts value
  rw [decodeFrom, Bool.false_and, if_neg (by decide), if_neg other, found]

theorem decodeFrom_pad (state : Nat) (out : Byte) (input : List Byte) :
    decodeFrom false state out (padChar :: input) =
      { status := padding false state input, out := [] } := by
  rw [decodeFrom, Bool.false_and, if_neg (by decide), if_pos rfl]

theorem decodeFrom_outside (state : Nat) (out : Byte) (outside : c ∉ B64) (notPad : c ≠ padChar)
    (nonzero : c ≠ 0) (input : List Byte) :
    decodeFrom false state out (c :: input) = { status := .eftype, out := [] } := by
  rw [decodeFrom, Bool.false_and, if_neg (by decide), if_neg notPad, strchr_outside outside nonzero]

theorem value_toNat (value : Fin 64) : (UInt8.ofNat value.val).toNat = value.val := by
  rw [UInt8.toNat_ofNat']
  omega

section

variable (x y z w : Fin 64)

theorem joinOne_eq : (UInt8.ofNat x.val <<< 2) ||| (UInt8.ofNat y.val >>> 4) = joinOne x y := by
  apply UInt8.toNat_inj.mp
  rw [accumulate_one (by rw [value_toNat]; omega) (by rw [value_toNat]; omega), value_toNat,
    value_toNat, joinOne, UInt8.toNat_ofNat']
  omega

theorem joinTwo_eq :
    ((UInt8.ofNat y.val &&& 0xf) <<< 4) ||| (UInt8.ofNat z.val >>> 2) = joinTwo y z := by
  apply UInt8.toNat_inj.mp
  rw [accumulate_two (by rw [value_toNat]; omega), value_toNat, value_toNat, joinTwo,
    UInt8.toNat_ofNat']
  omega

theorem joinThree_eq :
    ((UInt8.ofNat z.val &&& 0x3) <<< 6) ||| UInt8.ofNat w.val = joinThree z w := by
  apply UInt8.toNat_inj.mp
  rw [accumulate_three (by rw [value_toNat]; omega), value_toNat, value_toNat, joinThree,
    UInt8.toNat_ofNat']
  omega

end

theorem Spells.decode {text bytes : List Byte} (spells : Spells text bytes) (out : Byte) :
    decodeFrom false 0 out text = { status := .ok, out := bytes } := by
  induction spells generalizing out with
  | nil => rfl
  | two x y =>
      rw [decodeFrom_charOf, decodeFrom_charOf, decodeFrom_pad]
      simp [accumulate, padding, nextChar, finish, joinOne_eq]
  | one x y z =>
      rw [decodeFrom_charOf, decodeFrom_charOf, decodeFrom_charOf, decodeFrom_pad]
      simp [accumulate, padding, nextChar, finish, joinOne_eq, joinTwo_eq]
  | quad x y z w _ ih =>
      rw [decodeFrom_charOf, decodeFrom_charOf, decodeFrom_charOf, decodeFrom_charOf]
      simp [accumulate, ih, joinOne_eq, joinTwo_eq, joinThree_eq]

theorem char_cases (nonzero : c ≠ 0) :
    (∃ value : Fin 64, c = charOf value) ∨ c = padChar ∨
      ∀ state out input, decodeFrom false state out (c :: input) = { status := .eftype, out := [] } := by
  by_cases inside : c ∈ B64
  · exact Or.inl (exists_charOf c inside)
  · by_cases pad : c = padChar
    · exact Or.inr (Or.inl pad)
    · exact Or.inr (Or.inr fun state out input => decodeFrom_outside state out inside pad nonzero input)

theorem finish_ok {input : List Byte} (done : finish false input = .ok) : input = [] := by
  cases input with
  | nil => rfl
  | cons c input =>
      simp [finish, nextChar] at done

theorem grouped_of_ok {text : List Byte} {out : Byte} (noNul : (0 : Byte) ∉ text)
    (accepted : (decodeFrom false 0 out text).status = .ok) : Grouped text := by
  -- one group of four at a time; a shorter end can only be a padded one
  obtain ⟨n, size⟩ : ∃ n, text.length ≤ n := ⟨_, Nat.le_refl _⟩
  induction n generalizing text out with
  | zero =>
      rw [List.eq_nil_of_length_eq_zero (Nat.le_zero.mp size)]
      exact .nil
  | succ n ih =>
      rcases text with _ | ⟨c0, text⟩
      · exact .nil
      rcases char_cases (c := c0) (by rintro rfl; simp at noNul) with ⟨x, rfl⟩ | rfl | refused
      rotate_left
      · rw [decodeFrom_pad] at accepted
        cases accepted
      · rw [refused] at accepted
        cases accepted
      rw [decodeFrom_charOf] at accepted
      rcases text with _ | ⟨c1, text⟩
      · cases accepted
      rcases char_cases (c := c1) (by rintro rfl; simp at noNul) with ⟨y, rfl⟩ | rfl | refused
      rotate_left
      · rw [decodeFrom_pad] at accepted
        cases accepted
      · rw [refused] at accepted
        cases accepted
      rw [decodeFrom_charOf] at accepted
      rcases text with _ | ⟨c2, text⟩
      · cases accepted
      rcases char_cases (c := c2) (by rintro rfl; simp at noNul) with ⟨z, rfl⟩ | rfl | refused
      rotate_left
      · rw [decodeFrom_pad] at accepted
        rcases text with _ | ⟨c3, text⟩
        · cases accepted
        by_cases pad : c3 = padChar
        · have done : finish false text = .ok := by simpa [padding, nextChar, pad] using accepted
          rw [pad, finish_ok done]
          exact .two x y
        · simp [padding, nextChar, pad] at accepted
      · rw [refused] at accepted
        cases accepted
      rw [decodeFrom_charOf] at accepted
      rcases text with _ | ⟨c3, text⟩
      · cases accepted
      rcases char_cases (c := c3) (by rintro rfl; simp at noNul) with ⟨w, rfl⟩ | rfl | refused
      rotate_left
      · rw [decodeFrom_pad] at accepted
        rw [finish_ok accepted]
        exact .one x y z
      · rw [refused] at accepted
        cases accepted
      rw [decodeFrom_charOf] at accepted
      have rest : (0 : Byte) ∉ text := fun inside => noNul (by simp [inside])
      exact .quad x y z w (ih rest accepted (by simp at size; omega))

/-! ## What the encoder writes -/

/-- The characters of the encoding, without line breaks. -/
def plain : List Byte → List Byte
  | [] => []
  | [a] => [charOf (a.toNat / 4), charOf (a.toNat % 4 * 16), padChar, padChar]
  | [a, b] =>
      [charOf (a.toNat / 4), charOf (a.toNat % 4 * 16 + b.toNat / 16),
        charOf (b.toNat % 16 * 4), padChar]
  | a :: b :: c :: rest =>
      charOf (a.toNat / 4) :: charOf (a.toNat % 4 * 16 + b.toNat / 16) ::
        charOf (b.toNat % 16 * 4 + c.toNat / 64) :: charOf (c.toNat % 64) :: plain rest

def groupValues (a b c : Byte) : List Nat :=
  [a.toNat / 4, a.toNat % 4 * 16 + b.toNat / 16, b.toNat % 16 * 4 + c.toNat / 64, c.toNat % 64]

/-- The characters of a group of which `len` bytes were read. -/
def groupText (len : Nat) (a b c : Byte) : List Byte :=
  ((groupValues a b c).take (len + 1)).map charOf ++ List.replicate (3 - len) padChar

theorem groupValues_small {a b c : Byte} : ∀ value ∈ groupValues a b c, value < 64 := by
  have boundA := a.toNat_lt
  have boundB := b.toNat_lt
  have boundC := c.toNat_lt
  simp only [groupValues, List.mem_cons, List.not_mem_nil, or_false]
  omega

theorem groupText_printable (len : Nat) (a b c : Byte) :
    ∀ char ∈ groupText len a b c, isspace char = false := by
  intro char listed
  rcases List.mem_append.mp listed with inside | pad
  · obtain ⟨value, member, rfl⟩ := List.mem_map.mp inside
    exact (charOf_facts ⟨value, groupValues_small value (List.mem_of_mem_take member)⟩).2.2.1
  · rw [List.eq_of_mem_replicate pad]
    decide

theorem putoutput_encode (wrap pos len : Nat) (a b c : Byte) :
    putoutput (encode a b c) len wrap pos = some (putChars wrap pos (groupText len a b c)) := by
  have small : ((encode a b c).take (len + 1)).all (fun value => value.toNat < 64) = true := by
    rw [List.all_eq_true]
    intro value listed
    have inside := List.mem_map_of_mem (f := UInt8.toNat) (List.mem_of_mem_take listed)
    rw [encode_values] at inside
    exact decide_eq_true (groupValues_small value.toNat inside)
  rw [putoutput, if_pos small, groupText, groupValues, ← encode_values, ← List.map_take, List.map_map]
  rfl

/-- Line breaks are all that `putChars` adds. -/
theorem putChars_visible (wrap : Nat) {chars : List Byte}
    (printable : ∀ c ∈ chars, isspace c = false) (pos : Nat) :
    visible true (putChars wrap pos chars).1 = chars ∧
      (wrap = 0 → (putChars wrap pos chars).1 = chars) := by
  induction chars generalizing pos with
  | nil => exact ⟨rfl, fun _ => rfl⟩
  | cons c chars ih =>
      have here := printable c List.mem_cons_self
      have rest := ih fun other later => printable other (List.mem_cons_of_mem c later)
      have kept : ¬ (true && isspace c) = true := by simp [here]
      have skipped : (true && isspace nl) = true := by decide
      rw [putChars]
      split
      · next full =>
          rw [visible_keep kept, visible_skip skipped, (rest 0).1]
          exact ⟨rfl, fun none_ => by omega⟩
      · dsimp only
        rw [visible_keep kept, (rest (pos + 1)).1]
        exact ⟨rfl, fun none_ => by rw [(rest (pos + 1)).2 none_]⟩

theorem encodeFrom_plain (wrap pos : Nat) (input : List Byte) :
    ∃ text final, encodeFrom wrap pos input = some (text, final) ∧
      visible true text = plain input ∧ (wrap = 0 → text = plain input) := by
  induction input using plain.induct generalizing pos with
  | case1 => exact ⟨[], pos, rfl, rfl, fun _ => rfl⟩
  | case2 a =>
      have shown := putChars_visible wrap (groupText_printable 1 a 0 0) pos
      exact ⟨(putChars wrap pos (groupText 1 a 0 0)).1, (putChars wrap pos (groupText 1 a 0 0)).2,
        putoutput_encode wrap pos 1 a 0 0, shown⟩
  | case3 a b =>
      have shown := putChars_visible wrap (groupText_printable 2 a b 0) pos
      exact ⟨(putChars wrap pos (groupText 2 a b 0)).1, (putChars wrap pos (groupText 2 a b 0)).2,
        putoutput_encode wrap pos 2 a b 0, shown⟩
  | case4 a b c rest ih =>
      obtain ⟨shown, exact⟩ := putChars_visible wrap (groupText_printable 3 a b c) pos
      obtain ⟨more, final, written, shownMore, exactMore⟩ :=
        ih (putChars wrap pos (groupText 3 a b c)).2
      refine ⟨(putChars wrap pos (groupText 3 a b c)).1 ++ more, final, ?_, ?_, fun none_ => ?_⟩
      · rw [encodeFrom, putoutput_encode]
        dsimp only
        rw [written]
      · rw [visible, List.filter_append]
        exact congrArg₂ (· ++ ·) shown shownMore
      · rw [exact none_, exactMore none_]
        rfl

theorem joinOne_values (a : Byte) (low : Nat) (small : low < 16) :
    joinOne (a.toNat / 4) (a.toNat % 4 * 16 + low) = a := by
  apply UInt8.toNat_inj.mp
  have bound := a.toNat_lt
  rw [joinOne, UInt8.toNat_ofNat']
  omega

theorem joinTwo_values (high : Nat) (b : Byte) (low : Nat) (small : low < 4) :
    joinTwo (high * 16 + b.toNat / 16) (b.toNat % 16 * 4 + low) = b := by
  apply UInt8.toNat_inj.mp
  have bound := b.toNat_lt
  rw [joinTwo, UInt8.toNat_ofNat']
  omega

theorem joinThree_values (high : Nat) (c : Byte) :
    joinThree (high * 4 + c.toNat / 64) (c.toNat % 64) = c := by
  apply UInt8.toNat_inj.mp
  have bound := c.toNat_lt
  rw [joinThree, UInt8.toNat_ofNat']
  omega

theorem plain_spells (input : List Byte) : Spells (plain input) input := by
  induction input using plain.induct with
  | case1 => exact .nil
  | case2 a =>
      have bound := a.toNat_lt
      have spells := Spells.two ⟨a.toNat / 4, by omega⟩ ⟨a.toNat % 4 * 16 + 0, by omega⟩
      rwa [joinOne_values a 0 (by omega)] at spells
  | case3 a b =>
      have boundA := a.toNat_lt
      have boundB := b.toNat_lt
      have spells := Spells.one ⟨a.toNat / 4, by omega⟩
        ⟨a.toNat % 4 * 16 + b.toNat / 16, by omega⟩ ⟨b.toNat % 16 * 4 + 0, by omega⟩
      rwa [joinOne_values a _ (by omega), joinTwo_values _ b 0 (by omega)] at spells
  | case4 a b c rest ih =>
      have boundA := a.toNat_lt
      have boundB := b.toNat_lt
      have boundC := c.toNat_lt
      have spells := Spells.quad ⟨a.toNat / 4, by omega⟩
        ⟨a.toNat % 4 * 16 + b.toNat / 16, by omega⟩ ⟨b.toNat % 16 * 4 + c.toNat / 64, by omega⟩
        ⟨c.toNat % 64, by omega⟩ ih
      rwa [joinOne_values a _ (by omega), joinTwo_values _ b _ (by omega),
        joinThree_values _ c] at spells

theorem charOf_injective {x y : Nat} (smallX : x < 64) (smallY : y < 64)
    (same : charOf x = charOf y) : x = y := by
  have found := (charOf_facts ⟨x, smallX⟩).1
  have other := (charOf_facts ⟨y, smallY⟩).1
  rw [same, other] at found
  exact (Option.some.inj found).symm

section

variable (x y z w : Fin 64)

theorem toNat_joinOne : (joinOne x y).toNat = x.val * 4 + y.val / 16 := by
  rw [joinOne, UInt8.toNat_ofNat']
  omega

theorem toNat_joinTwo : (joinTwo y z).toNat = y.val % 16 * 16 + z.val / 4 := by
  rw [joinTwo, UInt8.toNat_ofNat']
  omega

theorem toNat_joinThree : (joinThree z w).toNat = z.val % 4 * 64 + w.val := by
  rw [joinThree, UInt8.toNat_ofNat']
  omega

end

theorem charOf_ne_padChar (value : Fin 64) : charOf value ≠ padChar := (charOf_facts value).2.1

theorem canonical_two_iff (x y : Fin 64) :
    Canonical [charOf x, charOf y, padChar, padChar] ↔ y.val % 16 = 0 := by
  refine ⟨fun canonical => ?_, .two x y⟩
  generalize whole : [charOf x.val, charOf y.val, padChar, padChar] = text at canonical
  cases canonical with
  | nil => cases whole
  | two x' y' zero =>
      simp only [List.cons.injEq, and_true] at whole
      rw [charOf_injective y.isLt y'.isLt whole.2]
      exact zero
  | one x' y' z' zero =>
      simp only [List.cons.injEq, and_true] at whole
      exact absurd whole.2.2.symm (charOf_ne_padChar z')
  | quad x' y' z' w' more =>
      simp only [List.cons.injEq] at whole
      exact absurd whole.2.2.1.symm (charOf_ne_padChar z')

theorem canonical_one_iff (x y z : Fin 64) :
    Canonical [charOf x, charOf y, charOf z, padChar] ↔ z.val % 4 = 0 := by
  refine ⟨fun canonical => ?_, .one x y z⟩
  generalize whole : [charOf x.val, charOf y.val, charOf z.val, padChar] = text at canonical
  cases canonical with
  | nil => cases whole
  | two x' y' zero =>
      simp only [List.cons.injEq, and_true] at whole
      exact absurd whole.2.2 (charOf_ne_padChar z)
  | one x' y' z' zero =>
      simp only [List.cons.injEq, and_true] at whole
      rw [charOf_injective z.isLt z'.isLt whole.2.2]
      exact zero
  | quad x' y' z' w' more =>
      simp only [List.cons.injEq] at whole
      exact absurd whole.2.2.2.1.symm (charOf_ne_padChar w')

theorem canonical_quad_iff (x y z w : Fin 64) (rest : List Byte) :
    Canonical (charOf x :: charOf y :: charOf z :: charOf w :: rest) ↔ Canonical rest := by
  refine ⟨fun canonical => ?_, .quad x y z w⟩
  generalize whole : charOf x.val :: charOf y.val :: charOf z.val :: charOf w.val :: rest = text
    at canonical
  cases canonical with
  | nil => cases whole
  | two x' y' zero =>
      simp only [List.cons.injEq] at whole
      exact absurd whole.2.2.1 (charOf_ne_padChar z)
  | one x' y' z' zero =>
      simp only [List.cons.injEq] at whole
      exact absurd whole.2.2.2.1 (charOf_ne_padChar w)
  | quad x' y' z' w' more =>
      simp only [List.cons.injEq] at whole
      rw [whole.2.2.2.2]
      exact more

/-- Encoding the bytes again gives the text back when no bits were left over. -/
theorem Spells.plain_iff {text bytes : List Byte} (spells : Spells text bytes) :
    plain bytes = text ↔ Canonical text := by
  induction spells with
  | nil => exact ⟨fun _ => .nil, fun _ => rfl⟩
  | two x y =>
      have first : (joinOne x y).toNat / 4 = x.val := by
        rw [toNat_joinOne]
        omega
      have second : (joinOne x y).toNat % 4 * 16 = y.val / 16 * 16 := by
        rw [toNat_joinOne]
        omega
      rw [plain, first, second, canonical_two_iff]
      constructor
      · intro same
        simp only [List.cons.injEq, and_true, true_and] at same
        have value := charOf_injective (by omega) y.isLt same
        omega
      · intro zero
        have value : y.val / 16 * 16 = y.val := by omega
        rw [value]
  | one x y z =>
      have first : (joinOne x y).toNat / 4 = x.val := by
        rw [toNat_joinOne]
        omega
      have second : (joinOne x y).toNat % 4 * 16 + (joinTwo y z).toNat / 16 = y.val := by
        rw [toNat_joinOne, toNat_joinTwo]
        omega
      have third : (joinTwo y z).toNat % 16 * 4 = z.val / 4 * 4 := by
        rw [toNat_joinTwo]
        omega
      rw [plain, first, second, third, canonical_one_iff]
      constructor
      · intro same
        simp only [List.cons.injEq, and_true, true_and] at same
        have value := charOf_injective (by omega) z.isLt same
        omega
      · intro zero
        have value : z.val / 4 * 4 = z.val := by omega
        rw [value]
  | quad x y z w _ ih =>
      have first : (joinOne x y).toNat / 4 = x.val := by
        rw [toNat_joinOne]
        omega
      have second : (joinOne x y).toNat % 4 * 16 + (joinTwo y z).toNat / 16 = y.val := by
        rw [toNat_joinOne, toNat_joinTwo]
        omega
      have third : (joinTwo y z).toNat % 16 * 4 + (joinThree z w).toNat / 64 = z.val := by
        rw [toNat_joinTwo, toNat_joinThree]
        omega
      have fourth : (joinThree z w).toNat % 64 = w.val := by
        rw [toNat_joinThree]
        omega
      rw [plain, first, second, third, fourth, canonical_quad_iff, ← ih]
      simp only [List.cons.injEq, true_and]

/-! ## The two programs together -/

theorem b64Encode_plain (wrap : Nat) (input : List Byte) :
    ∃ text, b64Encode wrap input = some text ∧ visible true text = plain input ∧
      (wrap = 0 → text = plain input) := by
  obtain ⟨text, final, written, shown, exact⟩ := encodeFrom_plain wrap 0 input
  refine ⟨_, by rw [b64Encode, written], ?_, fun none_ => ?_⟩
  · rw [visible, List.filter_append]
    refine (congrArg₂ (· ++ ·) shown ?_).trans (List.append_nil _)
    split <;> rfl
  · rw [if_neg fun both => both.2 none_, exact none_, List.append_nil]

/--
Decoding undoes encoding at every wrap width.  Input without a NUL is accepted
exactly when what the decoder looks at is grouped text, and encoding the result
again gives that text back exactly when its padding bits are zero.
-/
theorem b64_roundtrip_accepts :
    (∀ wrap input, ∃ text, b64Encode wrap input = some text ∧
        b64Decode true text = { status := .ok, out := input }) ∧
      ∀ ignore input, (0 : Byte) ∉ input →
        ((b64Decode ignore input).status = .ok ↔ Grouped (visible ignore input)) ∧
          (Grouped (visible ignore input) →
            (b64Encode 0 (b64Decode ignore input).out = some (visible ignore input) ↔
              Canonical (visible ignore input))) := by
  constructor
  · intro wrap input
    obtain ⟨text, written, shown, -⟩ := b64Encode_plain wrap input
    refine ⟨text, written, ?_⟩
    rw [b64Decode, decodeFrom_visible, shown]
    exact (plain_spells input).decode 0
  · intro ignore input noNul
    have clean : (0 : Byte) ∉ visible ignore input := fun inside =>
      noNul (List.mem_of_mem_filter inside)
    rw [b64Decode, decodeFrom_visible]
    refine ⟨⟨grouped_of_ok clean, fun grouped => ?_⟩, fun grouped => ?_⟩
    · obtain ⟨bytes, spells⟩ := grouped.spells
      rw [spells.decode]
    · obtain ⟨bytes, spells⟩ := grouped.spells
      obtain ⟨text, written, -, exact⟩ := b64Encode_plain 0 bytes
      rw [spells.decode, written, exact rfl, Option.some_inj]
      exact spells.plain_iff

/-- `QUI=` is accepted and comes back. -/
theorem b64_accepts_qui :
    (b64Decode false (ascii ['Q', 'U', 'I', '='])).status = .ok ∧
      Grouped (visible false (ascii ['Q', 'U', 'I', '='])) :=
  have accepted : (b64Decode false (ascii ['Q', 'U', 'I', '='])).status = .ok := by decide +kernel
  ⟨accepted, (b64_roundtrip_accepts.2 false (ascii ['Q', 'U', 'I', '=']) (by decide)).1.mp accepted⟩

/--
Without the ignore flag `QQ ==` is refused although only white space separates
well-formed text, and `QR==` is accepted although its padding bits are not zero.
-/
theorem b64Decode_not_canonical :
    ¬ ((∀ input, (b64Decode false input).status = .ok ↔ Canonical (visible true input)) ∧
      ∀ input, (b64Decode false input).status = .ok →
        b64Encode 0 (b64Decode false input).out = some (visible true input)) ∧
      (b64Decode false (ascii ['Q', 'Q', ' ', '=', '='])).status = .eftype ∧
      Canonical (visible true (ascii ['Q', 'Q', ' ', '=', '='])) ∧
      (b64Decode false (ascii ['Q', 'R', '=', '='])).status = .ok ∧
      ¬ Canonical (visible true (ascii ['Q', 'R', '=', '='])) := by
  have refused : (b64Decode false (ascii ['Q', 'Q', ' ', '=', '='])).status = .eftype := by
    decide +kernel
  have shown : visible true (ascii ['Q', 'Q', ' ', '=', '=']) =
      [charOf (16 : Fin 64), charOf (16 : Fin 64), padChar, padChar] := by decide +kernel
  have canonical : Canonical (visible true (ascii ['Q', 'Q', ' ', '=', '='])) :=
    shown ▸ Canonical.two 16 16 rfl
  have accepted : (b64Decode false (ascii ['Q', 'R', '=', '='])).status = .ok := by decide +kernel
  have other : visible true (ascii ['Q', 'R', '=', '=']) =
      [charOf (16 : Fin 64), charOf (17 : Fin 64), padChar, padChar] := by decide +kernel
  have loose : ¬ Canonical (visible true (ascii ['Q', 'R', '=', '='])) := by
    rw [other, canonical_two_iff]
    decide
  exact ⟨fun claim => loose ((claim.1 _).mp accepted), refused, canonical, accepted, loose⟩

end Netbase.Base64
