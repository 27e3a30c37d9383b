import Mathlib.Tactic.Common
import Netbase.Printf.Format
import Netbase.Text.Ctype

/-!
# What a conversion stands for

A conversion becomes a field: what stands in front, the characters with the zeros of a precision,
and blanks or zeros up to the width.  The characters of a number are its digits.
-/

namespace Netbase.Printf

open Netbase.Text Netbase.Lib

/-! ## Fields -/

/-- What stands in front, the characters, and whether zeros fill the width. -/
structure Field where
  lead : List Byte
  body : List Byte
  zeros : Bool
  deriving Repr, DecidableEq

def Field.text (width : Nat) (ladjust : Bool) (f : Field) : List Byte :=
  let fill := width - (f.lead.length + f.body.length)
  if ladjust then f.lead ++ f.body ++ List.replicate fill (byte ' ')
  else if f.zeros then f.lead ++ List.replicate fill (byte '0') ++ f.body
  else List.replicate fill (byte ' ') ++ f.lead ++ f.body

/-- The digits of a number; a 0 with the precision 0 has none. -/
def Conversion.digits (s : Conversion) (base v : Nat) : List Byte :=
  if v = 0 ∧ s.prec = some 0 then [] else (Nat.toDigits base v).map byte

def Conversion.numeric (s : Conversion) (lead digits : List Byte) : Field :=
  ⟨lead, List.replicate (s.prec.getD 0 - digits.length) (byte '0') ++ digits,
    s.prec = none && s.flags.zeropad⟩

def Conversion.signedField (s : Conversion) (v : Int) : Field :=
  s.numeric (if v < 0 then [byte '-'] else if s.sign = 0 then [] else [s.sign])
    (s.digits 10 v.natAbs)

def Conversion.unsignedField (s : Conversion) (v : Nat) : Field := s.numeric [] (s.digits 10 v)

/-- The alternate form has a 0 in front of a number other than 0. -/
def Conversion.octalField (s : Conversion) (v : Nat) : Field :=
  s.numeric [] (if s.flags.alt ∧ v ≠ 0 then byte '0' :: s.digits 8 v else s.digits 8 v)

/-- The alternate form has `0x` or `0X` in front of a number other than 0. -/
def Conversion.lowerField (s : Conversion) (v : Nat) : Field :=
  s.numeric (if s.flags.alt ∧ v ≠ 0 then ascii ['0', 'x'] else []) (s.digits 16 v)

def Conversion.upperField (s : Conversion) (v : Nat) : Field :=
  s.numeric (if s.flags.alt ∧ v ≠ 0 then ascii ['0', 'X'] else []) ((s.digits 16 v).map toupper)

def Conversion.pointerField (s : Conversion) (v : Nat) : Field :=
  s.numeric (ascii ['0', 'x']) (s.digits 16 v)

/-- A text, a character, or a letter that is no conversion. -/
def Conversion.plainField (s : Conversion) (body : List Byte) : Field :=
  ⟨[], body, s.flags.zeropad⟩

/-- The number that an argument is for a signed conversion. -/
def Flags.value (flags : Flags) (n : BitVec 64) : Int := (n.setWidth flags.bits).toInt

/-- The number that an argument is for an unsigned conversion. -/
def Flags.size (flags : Flags) (n : BitVec 64) : Nat := (n.setWidth flags.bits).toNat

/-- The fields of numbers. -/
def Conversion.wordField (s : Conversion) (ch : Byte) : Option (BitVec 64 → Field) :=
  if ch = byte 'c' then some fun n => s.plainField [UInt8.ofNat n.toNat]
  else if ch = byte 'D' then some fun n => s.long.signedField (s.long.flags.value n)
  else if ch = byte 'd' ∨ ch = byte 'i' then some fun n => s.signedField (s.flags.value n)
  else if ch = byte 'O' then some fun n => s.long.octalField (s.long.flags.size n)
  else if ch = byte 'o' then some fun n => s.octalField (s.flags.size n)
  else if ch = byte 'p' then some fun n => s.pointerField n.toNat
  else if ch = byte 'U' then some fun n => s.long.unsignedField (s.long.flags.size n)
  else if ch = byte 'u' then some fun n => s.unsignedField (s.flags.size n)
  else if ch = byte 'X' then some fun n => s.upperField (s.flags.size n)
  else if ch = byte 'x' then some fun n => s.lowerField (s.flags.size n)
  else none

/-- The characters of a text up to its end or the precision. -/
def Conversion.characters (s : Conversion) (cp : List Byte) : List Byte :=
  match s.prec with
  | some prec => (cp.take prec).takeWhile (· ≠ 0)
  | none => cp.takeWhile (· ≠ 0)

/-- A text ends, or it is as long as the precision. -/
def Conversion.Readable (s : Conversion) (cp : List Byte) : Bool :=
  match s.prec with
  | some prec => 0 ∈ cp.take prec || prec ≤ cp.length
  | none => 0 ∈ cp

/-- What is written for a missing text. -/
def null : List Byte := ascii ['(', 'n', 'u', 'l', 'l', ')'] ++ [0]

/-- The field of a letter, and the arguments behind those that it takes. -/
def Conversion.field (s : Conversion) (ch : Byte) (ap : List Arg) :
    Except Fault (Field × List Arg) :=
  if ch = byte 's' then
    match ap with
    | .text cp :: ap =>
        if s.Readable (cp.getD null) then .ok (s.plainField (s.characters (cp.getD null)), ap)
        else .error .mismatch
    | _ => .error .mismatch
  else
    match s.wordField ch with
    | some field =>
        match ap with
        | .word n :: ap => .ok (field n, ap)
        | _ => .error .mismatch
    | none => .ok (s.plainField [ch], ap)

/-! ## Digits -/

theorem toDigits_step {base : Nat} (positive : 1 < base) {n : Nat} (f : Char → Byte) :
    (Nat.toDigits base n).map f =
      (if n < base then [] else (Nat.toDigits base (n / base)).map f) ++
        [f (Nat.digitChar (n % base))] := by
  rw [Nat.toDigits_eq_if positive]
  split
  · next small => rw [Nat.mod_eq_of_lt small]; rfl
  · rw [List.map_append]; rfl

theorem doDigits_eq {digit : Nat → Byte} {shift : Nat} {f : Char → Byte} (some_ : shift ≠ 0)
    (shows_ : ∀ u, digit u = f (Nat.digitChar (u % 2 ^ shift))) (fuel : Nat) :
    ∀ {uquad : Nat} {cp : List Byte}, uquad < (2 ^ shift) ^ (fuel + 1) →
      doDigits digit shift (fuel + 1) uquad cp = (Nat.toDigits (2 ^ shift) uquad).map f ++ cp := by
  have positive : 1 < 2 ^ shift := Nat.one_lt_two_pow some_
  have below : ∀ u, u >>> shift = 0 ↔ u < 2 ^ shift := fun u => by
    rw [Nat.shiftRight_eq_div_pow, Nat.div_eq_zero_iff_lt (Nat.two_pow_pos shift)]
  induction fuel with
  | zero =>
      intro uquad cp small
      rw [Nat.zero_add, Nat.pow_one] at small
      rw [doDigits, if_pos ((below _).mpr small), shows_, toDigits_step positive, if_pos small]
      rfl
  | succ fuel ih =>
      intro uquad cp small
      rw [doDigits, toDigits_step positive, shows_]
      simp only [below]
      by_cases last : uquad < 2 ^ shift
      · rw [if_pos last, if_pos last]
        rfl
      · have smaller : uquad >>> shift < (2 ^ shift) ^ (fuel + 1) := by
          rw [Nat.shiftRight_eq_div_pow]
          exact Nat.div_lt_of_lt_mul (by rwa [← Nat.pow_succ'])
        rw [if_neg last, if_neg last, ih smaller, Nat.shiftRight_eq_div_pow, List.append_assoc]
        rfl

theorem to_char_digit {n : Nat} (small : n < 10) : to_char n = byte (Nat.digitChar n) := by
  have all : ∀ n : Fin 10, to_char n = byte (Nat.digitChar n) := by decide
  exact all ⟨n, small⟩

theorem whileDigits_eq (fuel : Nat) :
    ∀ {uquad : Nat} {cp : List Byte}, uquad < 10 ^ (fuel + 1) →
      whileDigits (fuel + 1) uquad cp = (Nat.toDigits 10 uquad).map byte ++ cp := by
  induction fuel with
  | zero =>
      intro uquad cp small
      rw [Nat.zero_add, Nat.pow_one] at small
      rw [whileDigits, if_neg (Nat.not_le.mpr small), to_char_digit small,
        toDigits_step (by decide), if_pos small, Nat.mod_eq_of_lt small]
      rfl
  | succ fuel ih =>
      intro uquad cp small
      rw [whileDigits, toDigits_step (by decide)]
      by_cases last : uquad < 10
      · rw [if_neg (Nat.not_le.mpr last), if_pos last, to_char_digit last, Nat.mod_eq_of_lt last]
        rfl
      · have smaller : uquad / 10 < 10 ^ (fuel + 1) :=
          Nat.div_lt_of_lt_mul (by rwa [← Nat.pow_succ'])
        rw [if_pos (Nat.le_of_not_lt last), if_neg last, ih smaller,
          to_char_digit (Nat.mod_lt _ (by decide)), List.append_assoc]
        rfl

theorem decDigits_eq (uquad : BitVec 64) :
    decDigits uquad = (Nat.toDigits 10 uquad.toNat).map byte := by
  unfold decDigits
  rw [whileDigits_eq 63 (Nat.lt_trans uquad.isLt (by decide)), List.append_nil]

theorem octDigits_eq (uquad : BitVec 64) :
    octDigits uquad = (Nat.toDigits 8 uquad.toNat).map byte := by
  have shows_ : ∀ u, to_char (u &&& 7) = byte (Nat.digitChar (u % 2 ^ 3)) := fun u => by
    rw [show 7 = 2 ^ 3 - 1 from rfl, Nat.and_two_pow_sub_one_eq_mod]
    exact to_char_digit (Nat.lt_trans (Nat.mod_lt _ (by decide)) (by decide))
  unfold octDigits
  exact (doDigits_eq (by decide) shows_ 63 (Nat.lt_trans uquad.isLt (by decide))).trans
    (List.append_nil _)

theorem hexDigits_eq {xdigs : List Byte} {f : Char → Byte}
    (table : ∀ i : Fin 16, xdigs.getD i 0 = f (Nat.digitChar i)) (uquad : BitVec 64) :
    hexDigits xdigs uquad = (Nat.toDigits 16 uquad.toNat).map f := by
  have shows_ : ∀ u, xdigs.getD (u &&& 15) 0 = f (Nat.digitChar (u % 2 ^ 4)) := fun u => by
    rw [show 15 = 2 ^ 4 - 1 from rfl, Nat.and_two_pow_sub_one_eq_mod]
    exact table ⟨u % 16, Nat.mod_lt _ (by decide)⟩
  unfold hexDigits
  exact (doDigits_eq (by decide) shows_ 63 (Nat.lt_trans uquad.isLt (by decide))).trans
    (List.append_nil _)

theorem hexDigits_lower (uquad : BitVec 64) :
    hexDigits xdigs_lower uquad = (Nat.toDigits 16 uquad.toNat).map byte :=
  hexDigits_eq (by decide) uquad

theorem hexDigits_upper (uquad : BitVec 64) :
    hexDigits xdigs_upper uquad = ((Nat.toDigits 16 uquad.toNat).map byte).map toupper := by
  rw [List.map_map]
  exact hexDigits_eq (by decide) uquad

theorem toDigits_head (n : Nat) :
    ((Nat.toDigits 8 n).map byte).head? = some (byte '0') ↔ n = 0 := by
  induction n using Nat.strongRecOn with
  | ind n ih =>
      rw [toDigits_step (by decide)]
      split
      · next small =>
          have all : ∀ n : Fin 8, byte (Nat.digitChar n) = byte '0' ↔ (n : Nat) = 0 := by decide
          rw [List.nil_append, List.head?_cons, Option.some.injEq, Nat.mod_eq_of_lt small]
          exact all ⟨n, small⟩
      · next large =>
          have some_ : (Nat.toDigits 8 (n / 8)).map byte ≠ [] := by
            rw [toDigits_step (by decide)]
            exact List.append_ne_nil_of_right_ne_nil _ (List.cons_ne_nil _ _)
          rw [List.head?_append_of_ne_nil _ some_, ih (n / 8) (by omega)]
          omega

/-! ## Conversions -/

/-- What the variables of a conversion are read as when it is written. -/
def Ready.field (r : Ready) : Field :=
  ⟨if r.s.sign ≠ 0 then [r.s.sign] else if r.hexPrefix then [byte '0', r.ch] else [],
    List.replicate (r.dprec - r.cp.length) (byte '0') ++ r.cp, r.s.flags.zeropad⟩

structure Ready.Is (r : Ready) (s : Conversion) (f : Field) : Prop where
  width : r.s.width = s.width
  ladjust : r.s.flags.ladjust = s.flags.ladjust
  field : r.field = f

variable {s : Conversion} {ch : Byte}

theorem number_is {v : Conversion} {hexPrefix : Bool} {digits : BitVec 64 → List Byte}
    {uquad : BitVec 64} {lead written : List Byte} (width : v.width = s.width)
    (flags : v.flags = s.flags) (prec : v.prec = s.prec)
    (front : (if v.sign ≠ 0 then [v.sign] else if hexPrefix then [byte '0', ch] else []) = lead)
    (same : (if uquad ≠ 0 ∨ s.prec ≠ some 0 then digits uquad else []) = written) :
    (number v ch hexPrefix digits uquad).Is s (s.numeric lead written) where
  width := width
  ladjust := by
    show v.flags.ladjust = s.flags.ladjust
    rw [flags]
  field := by
    subst front same
    unfold Ready.field number Conversion.numeric
    simp only [prec, flags]

/-- The digits that `number` leaves. -/
theorem digits_eq {digits : BitVec 64 → List Byte} {base : Nat} {uquad : BitVec 64} {v : Nat}
    (value : uquad.toNat = v) (shows_ : digits uquad = (Nat.toDigits base uquad.toNat).map byte) :
    (if uquad ≠ 0 ∨ s.prec ≠ some 0 then digits uquad else []) = s.digits base v := by
  have zero : uquad = 0 ↔ v = 0 := by
    rw [← value, ← BitVec.toNat_inj]
    rfl
  have none_ : ¬ (uquad ≠ 0 ∨ s.prec ≠ some 0) ↔ v = 0 ∧ s.prec = some 0 := by
    rw [not_or, not_not, not_not, zero]
  unfold Conversion.digits
  rw [shows_, value]
  by_cases empty : v = 0 ∧ s.prec = some 0
  · rw [if_neg (none_.mpr empty), if_pos empty]
  · rw [if_pos (not_not.mp fun other => empty (none_.mp other)), if_neg empty]

theorem flags_bits (flags : Flags) : flags.bits ≤ 64 := by
  unfold Flags.bits
  split_ifs <;> decide

theorem toNat_UARG (flags : Flags) (n : BitVec 64) : (UARG flags n).toNat = flags.size n := by
  unfold UARG Flags.size
  rw [BitVec.toNat_setWidth]
  exact Nat.mod_eq_of_lt (Nat.lt_of_lt_of_le (n.setWidth flags.bits).isLt
    (Nat.pow_le_pow_right (by decide) (flags_bits flags)))

theorem toInt_SARG (flags : Flags) (n : BitVec 64) : (SARG flags n).toInt = flags.value n :=
  BitVec.toInt_signExtend_of_le (flags_bits flags)

theorem toNat_neg_negative {x : BitVec 64} (negative : x.toInt < 0) :
    (-x).toNat = x.toInt.natAbs := by
  rw [BitVec.toNat_neg]
  rw [BitVec.toInt_eq_toNat_cond] at negative ⊢
  split at negative
  · omega
  · next large =>
      rw [if_neg large]
      omega

theorem toNat_of_nonneg {x : BitVec 64} (negative : ¬ x.toInt < 0) : x.toNat = x.toInt.natAbs := by
  rw [BitVec.toInt_eq_toNat_cond] at negative ⊢
  split at negative
  · next low => rw [if_pos low, Int.natAbs_natCast]
  · omega

theorem signed_is (n : BitVec 64) : (signed s ch n).Is s (s.signedField (s.flags.value n)) := by
  unfold signed Conversion.signedField
  rw [← toInt_SARG]
  split
  · next negative =>
      exact number_is rfl rfl rfl (by simp [byte]) (digits_eq (toNat_neg_negative negative)
        (decDigits_eq _))
  · next positive =>
      refine number_is rfl rfl rfl ?_ (digits_eq (toNat_of_nonneg positive) (decDigits_eq _))
      rw [ite_not]
      rfl

theorem unsigned_is (n : BitVec 64) :
    (unsigned s ch n).Is s (s.unsignedField (s.flags.size n)) :=
  number_is rfl rfl rfl rfl (digits_eq (toNat_UARG _ _) (decDigits_eq _))

theorem octal_is (n : BitVec 64) : (octal s ch n).Is s (s.octalField (s.flags.size n)) := by
  have value := toNat_UARG s.flags n
  refine number_is rfl rfl rfl rfl ?_
  have plain : ∀ u : BitVec 64, u.toNat = s.flags.size n →
      (if u ≠ 0 ∨ s.prec ≠ some 0 then octDigits u else []) = s.digits 8 (s.flags.size n) :=
    fun u same => digits_eq same (octDigits_eq u)
  have head : (octDigits (UARG s.flags n)).head? ≠ some (byte '0') ↔ s.flags.size n ≠ 0 := by
    rw [octDigits_eq, value, ne_eq, toDigits_head]
  rw [← plain _ value]
  unfold altOctal
  simp only [head]
  by_cases alternate : s.flags.alt = true ∧ s.flags.size n ≠ 0
  · have some_ : UARG s.flags n ≠ 0 := by
      intro zero
      rw [zero] at value
      exact alternate.2 value.symm
    rw [if_pos alternate, if_pos alternate, if_pos (Or.inl some_), if_pos (Or.inl some_)]
  · rw [if_neg alternate, if_neg alternate]

theorem hex_front {flags : Flags} (n : BitVec 64) :
    (if (0 : Byte) ≠ 0 then [0]
      else if (flags.alt && UARG flags n ≠ 0) = true then [byte '0', ch] else []) =
      if flags.alt ∧ flags.size n ≠ 0 then [byte '0', ch] else [] := by
  have zero : UARG flags n = 0 ↔ flags.size n = 0 := by
    rw [← toNat_UARG, ← BitVec.toNat_inj]
    rfl
  simp only [ne_eq, not_true_eq_false, if_false, Bool.and_eq_true, decide_eq_true_eq, zero]

theorem lower_is (n : BitVec 64) :
    (hex s (byte 'x') xdigs_lower n).Is s (s.lowerField (s.flags.size n)) :=
  number_is rfl rfl rfl (hex_front n) (digits_eq (toNat_UARG _ _) (hexDigits_lower _))

theorem upper_is (n : BitVec 64) :
    (hex s (byte 'X') xdigs_upper n).Is s (s.upperField (s.flags.size n)) := by
  refine number_is rfl rfl rfl (hex_front n) ?_
  have lower : (if UARG s.flags n ≠ 0 ∨ s.prec ≠ some 0 then
      hexDigits xdigs_lower (UARG s.flags n) else []) = s.digits 16 (s.flags.size n) :=
    digits_eq (toNat_UARG _ _) (hexDigits_lower _)
  rw [← lower, hexDigits_upper, hexDigits_lower]
  split <;> rfl

theorem pointer_is (n : BitVec 64) : (pointer s n).Is s (s.pointerField n.toNat) :=
  number_is rfl rfl rfl rfl (digits_eq rfl (hexDigits_lower _))

theorem plain_is (body : List Byte) :
    (Ready.mk (nosign s) ch body 0 false).Is s (s.plainField body) where
  width := rfl
  ladjust := rfl
  field := by
    unfold Ready.field Conversion.plainField nosign
    simp

theorem Ready.Is.of_long {r : Ready} {f : Field} (is : r.Is s.long f) : r.Is s f :=
  ⟨is.width, is.ladjust, is.field⟩

/-- A letter converts no number, or every number to its field. -/
inductive Paired (s : Conversion) :
    Option (BitVec 64 → Ready) → Option (BitVec 64 → Field) → Prop where
  | none : Paired s none none
  | some {ready : BitVec 64 → Ready} {field : BitVec 64 → Field}
      (all : ∀ n, (ready n).Is s (field n)) : Paired s (some ready) (some field)

theorem Paired.ite {c : Prop} [Decidable c] {a b : Option (BitVec 64 → Ready)}
    {f g : Option (BitVec 64 → Field)} (here : c → Paired s a f) (other : Paired s b g) :
    Paired s (if c then a else b) (if c then f else g) := by
  split
  · next holds => exact here holds
  · exact other

theorem word_paired (s : Conversion) (ch : Byte) : Paired s (s.word ch) (s.wordField ch) := by
  unfold Conversion.word Conversion.wordField
  refine .ite (fun _ => .some fun n => plain_is _) ?_
  refine .ite (fun _ => .some fun n => (signed_is n).of_long) ?_
  refine .ite (fun _ => .some fun n => signed_is n) ?_
  refine .ite (fun _ => .some fun n => (octal_is n).of_long) ?_
  refine .ite (fun _ => .some fun n => octal_is n) ?_
  refine .ite (fun _ => .some fun n => pointer_is n) ?_
  refine .ite (fun _ => .some fun n => (unsigned_is n).of_long) ?_
  refine .ite (fun _ => .some fun n => unsigned_is n) ?_
  refine .ite (fun upper => .some fun n => upper ▸ upper_is n) ?_
  exact .ite (fun lower => .some fun n => lower ▸ lower_is n) .none

/-- A text that can be read is ready unless it is longer than an `int`. -/
theorem string_is {cp : Option (List Byte)} (readable : s.Readable (cp.getD null))
    (short : (s.characters (cp.getD null)).length ≤ INT_MAX) :
    ∃ ready, string s cp = .ok ready ∧ ready.Is s (s.plainField (s.characters (cp.getD null))) := by
  unfold Conversion.characters at short ⊢
  unfold Conversion.Readable at readable
  unfold string
  rw [← null]
  cases prec : s.prec with
  | some prec =>
      rw [prec] at readable
      simp only [Bool.or_eq_true, decide_eq_true_eq] at readable
      simp only [if_pos readable]
      exact ⟨_, rfl, plain_is _⟩
  | none =>
      rw [prec] at readable short
      simp only [decide_eq_true_eq] at readable short
      simp only [if_pos readable, int, if_pos short]
      exact ⟨_, rfl, plain_is _⟩

/-- What is converted has the field of its letter, unless a text is longer than an `int`. -/
theorem convert_is {ap rest : List Arg} {f : Field} (field : s.field ch ap = .ok (f, rest))
    (short : f.body.length ≤ INT_MAX) :
    ∃ ready, convert s ch ap = .ok (ready, rest) ∧ ready.Is s f := by
  unfold Conversion.field at field
  unfold convert
  split at field
  · next text =>
      rw [if_pos text]
      match ap with
      | .text cp :: ap =>
          simp only at field ⊢
          split at field
          · next readable =>
              cases field
              obtain ⟨ready, made, is⟩ := string_is readable short
              rw [made]
              exact ⟨ready, rfl, is⟩
          · cases field
      | .word _ :: _ => cases field
      | .count :: _ => cases field
      | [] => cases field
  · next other =>
      rw [if_neg other]
      have paired := word_paired s ch
      generalize s.word ch = made at paired ⊢
      generalize s.wordField ch = shown at paired field
      cases paired with
      | none =>
          cases field
          exact ⟨_, rfl, plain_is _⟩
      | some all =>
          match ap with
          | .word n :: ap =>
              cases field
              exact ⟨_, rfl, all n⟩
          | .text _ :: _ => cases field
          | .count :: _ => cases field
          | [] => cases field

end Netbase.Printf
