import Mathlib.Tactic.Ring
import Netbase.Sort.Number

/-!
# What the scanner of numbers reads

In front of `lineend` the scanner reads the digits of the number without the
decimal point.  From the first digit that is not zero they go into the mantissa
in pairs; pairs of zeroes at the end are dropped.
-/

namespace Netbase.Sort

open Netbase.Text

/-! ## Digits of a text -/

/-- The value of a digit. -/
def digit (c : Byte) : Nat := c.toNat - 48

/-- The digits in front of the decimal point. -/
def wholeDigits (t : List Byte) : List Byte := t.takeWhile isdigit

def fractionDigits (t : List Byte) : List Byte :=
  match t.dropWhile isdigit with
  | [] => []
  | c :: rest => if c = DECIMAL_POINT then rest.takeWhile isdigit else []

/-- The digits from the first one that is not zero. -/
def leadingDigits (t : List Byte) : List Nat :=
  ((wholeDigits t ++ fractionDigits t).dropWhile (· = byte '0')).map digit

/-- Two digits to a byte; a zero is added behind an odd number of them. -/
def pairs : List Nat → List Nat
  | [] => []
  | [d] => [10 * d]
  | d :: e :: ds => (10 * d + e) :: pairs ds

/-- Pairs of zeroes at the end are dropped. -/
def strip : List Nat → List Nat
  | [] => []
  | p :: ps => if p = 0 ∧ strip ps = [] then [] else p :: strip ps

/-- The digits as the mantissa loop comes across them. -/
def readDigits : Bool → List Byte → List Nat
  | _, [] => []
  | had_dp, c :: t =>
      if isdigit c then digit c :: readDigits had_dp t
      else if c = DECIMAL_POINT ∧ had_dp = false then readDigits true t
      else []

theorem isdigit_point : isdigit DECIMAL_POINT = false := by decide

variable {c : Byte}

theorem digit_lt (isDigit : isdigit c = true) : digit c < 10 := by
  simp only [isdigit, Bool.and_eq_true, decide_eq_true_eq] at isDigit
  rw [digit]
  omega

theorem tens_digit (isDigit : isdigit c = true) : tens c = 10 * digit c := by
  simp only [isdigit, Bool.and_eq_true, decide_eq_true_eq] at isDigit
  rw [tens, digit]
  omega

theorem tens_other (other : isdigit c = false) : 90 < tens c := by
  have small : c.toNat < 256 := c.toNat_lt
  have outside : c.toNat < 48 ∨ 57 < c.toNat := by
    by_contra inside
    rw [not_or, not_lt, not_lt] at inside
    have isDigit : isdigit c = true := by simp [isdigit, inside]
    rw [other] at isDigit
    cases isDigit
  rw [tens]
  generalize c.toNat = k at small outside
  rcases outside with below | above
  · have wrapped : ((k : Int) - 48) * 10 % 4294967296 = ((k : Int) - 48) * 10 + 4294967296 := by
      rw [← Int.add_emod_right, Int.emod_eq_of_lt (by omega) (by omega)]
    omega
  · rw [Int.emod_eq_of_lt (by omega) (by omega)]
    omega

theorem readDigits_true (t : List Byte) : readDigits true t = (t.takeWhile isdigit).map digit := by
  induction t with
  | nil => rfl
  | cons c t ih =>
      rw [readDigits, List.takeWhile_cons]
      cases isDigit : isdigit c <;> simp [ih]

theorem readDigits_false (t : List Byte) :
    readDigits false t = (wholeDigits t ++ fractionDigits t).map digit := by
  induction t with
  | nil => rfl
  | cons c t ih =>
      rw [readDigits]
      cases isDigit : isdigit c with
      | true =>
          rw [if_pos rfl, ih]
          simp [wholeDigits, fractionDigits, isDigit]
      | false =>
          have none : wholeDigits (c :: t) = [] := by simp [wholeDigits, isDigit]
          rw [if_neg (by simp), none, fractionDigits, List.dropWhile_cons_of_neg (by simp [isDigit])]
          by_cases point : c = DECIMAL_POINT
          · simp [point, readDigits_true]
          · simp [point]

/-! ## The loops in front of `lineend` -/

theorem eatZeroes_text (t beyond : List Byte) :
    eatZeroes t.length (t ++ beyond) =
      ((t.takeWhile (· = byte '0')).length, t.dropWhile (· = byte '0') ++ beyond,
        (t.dropWhile (· = byte '0')).length) := by
  induction t with
  | nil => rfl
  | cons c t ih =>
      have head : peek (c :: t ++ beyond) = c := rfl
      rw [List.length_cons, eatZeroes, head]
      by_cases zero : c = byte '0'
      · rw [if_pos zero, List.cons_append, List.tail_cons, ih]
        simp [zero]
      · rw [if_neg zero]
        simp [zero]

theorem countDigits_text (t beyond : List Byte) :
    countDigits t.length (t ++ beyond) = (t.takeWhile isdigit).length := by
  induction t with
  | nil => rfl
  | cons c t ih =>
      have head : peek (c :: t ++ beyond) = c := rfl
      rw [List.length_cons, countDigits, head, List.cons_append, List.tail_cons, ih]
      cases isDigit : isdigit c <;> simp [isDigit]

theorem secondDigit_text (t : List Byte) (had_dp : Bool) :
    ∃ had_dp' t', (∀ beyond, ∃ beyond', secondDigit t.length had_dp (t ++ beyond) =
        ((readDigits had_dp t).headD 0, had_dp', t' ++ beyond', t'.length)) ∧
      readDigits had_dp' t' = (readDigits had_dp t).tail ∧ t'.length ≤ t.length := by
  induction t generalizing had_dp with
  | nil => exact ⟨had_dp, [], fun beyond => ⟨beyond, rfl⟩, rfl, Nat.le_refl _⟩
  | cons c t ih =>
      have scan : ∀ beyond, secondDigit (c :: t).length had_dp (c :: t ++ beyond) =
          if c = DECIMAL_POINT ∧ had_dp = false then secondDigit t.length true (t ++ beyond)
          else if isdigit c then (c.toNat - 48, had_dp, t ++ beyond, t.length)
          else (0, had_dp, t ++ beyond, 0) := fun _ => rfl
      rw [readDigits]
      simp only [scan]
      by_cases point : c = DECIMAL_POINT ∧ had_dp = false
      · obtain ⟨had_dp', t', run, later, shorter⟩ := ih true
        have notDigit : isdigit c = false := by rw [point.1]; exact isdigit_point
        refine ⟨had_dp', t', ?_, ?_, by rw [List.length_cons]; omega⟩
        · simp only [if_pos point]
          rw [if_neg (by simp [notDigit])]
          exact run
        · rw [if_neg (by simp [notDigit]), if_pos point]
          exact later
      · simp only [if_neg point]
        cases isDigit : isdigit c with
        | true => exact ⟨had_dp, t, fun beyond => ⟨beyond, rfl⟩, rfl, Nat.le_succ _⟩
        | false =>
            refine ⟨had_dp, [], fun beyond => ⟨t ++ beyond, ?_⟩, ?_, Nat.zero_le _⟩
            · simp
            · simp [readDigits]

/-! ## The mantissa -/

def mantissaByte (negate : Byte) (val : Nat) : Byte := negate ^^^ UInt8.ofNat (val + 0x40)

theorem strip_cons (p : Nat) (ps : List Nat) :
    strip (p :: ps) = if p = 0 ∧ strip ps = [] then [] else p :: strip ps := rfl

/-- What is left of the mantissa after the zeroes were dropped. -/
structure Written (negate : Byte) (out : List Byte) (last : Nat) (digits : List Nat)
    (out' : List Byte) (last' : Nat) : Prop where
  bytes : out' = out ++ (pairs digits).map (mantissaByte negate)
  cut : last' = if strip (pairs digits) = [] then last
    else out.length + (strip (pairs digits)).length

theorem pairs_cons (d : Nat) (ds : List Nat) :
    pairs (d :: ds) = (10 * d + ds.headD 0) :: pairs ds.tail := by
  cases ds <;> rfl

theorem Written.cons {negate : Byte} {out out' : List Byte} {last last' d : Nat} {ds : List Nat}
    (written : Written negate (out ++ [mantissaByte negate (10 * d + ds.headD 0)])
      (if 10 * d + ds.headD 0 ≠ 0 then out.length + 1 else last) ds.tail out' last') :
    Written negate out last (d :: ds) out' last' := by
  refine ⟨?_, ?_⟩
  · rw [written.bytes, pairs_cons]
    simp
  · rw [written.cut, pairs_cons, strip_cons, List.length_append, List.length_singleton]
    generalize 10 * d + ds.headD 0 = p
    by_cases rest : strip (pairs ds.tail) = []
    · by_cases zero : p = 0
      · simp [rest, zero]
      · simp [rest, zero]
    · simp only [rest, and_false, if_false, reduceCtorEq, List.length_cons]
      omega

theorem mantissa_text (negate : Byte) (room : Nat) :
    ∀ (fuel : Nat) (t beyond : List Byte) (had_dp : Bool) (out : List Byte) (last : Nat),
      t.length ≤ fuel →
      (∀ out' last', mantissa negate room fuel t.length had_dp (t ++ beyond) out last =
        some (out', last') → Written negate out last (readDigits had_dp t) out' last') ∧
      (out.length + t.length ≤ room →
        (mantissa negate room fuel t.length had_dp (t ++ beyond) out last).isSome) := by
  intro fuel
  have ended (out : List Byte) (last : Nat) : Written negate out last [] out last :=
    ⟨by simp [pairs], by simp [pairs, strip]⟩
  induction fuel with
  | zero =>
      intro t beyond had_dp out last short
      obtain rfl := List.length_eq_zero_iff.mp (Nat.le_zero.mp short)
      refine ⟨fun out' last' run => ?_, fun _ => rfl⟩
      obtain ⟨rfl, rfl⟩ : out = out' ∧ last = last' := by simpa [mantissa] using run
      exact ended out last
  | succ fuel ih =>
      intro t beyond had_dp out last short
      cases t with
      | nil =>
          refine ⟨fun out' last' run => ?_, fun _ => rfl⟩
          obtain ⟨rfl, rfl⟩ : out = out' ∧ last = last' := by simpa [mantissa] using run
          exact ended out last
      | cons c t =>
          have head : peek (c :: t ++ beyond) = c := rfl
          rw [List.length_cons] at short ⊢
          rw [mantissa, if_neg (Nat.succ_ne_zero _), head, readDigits]
          dsimp only
          by_cases full : room ≤ out.length
          · rw [if_pos full]
            exact ⟨fun _ _ run => (nomatch run), fun roomy => absurd full (by omega)⟩
          · rw [if_neg full, Nat.add_sub_cancel]
            cases isDigit : isdigit c with
            | false =>
                rw [if_pos (tens_other isDigit)]
                by_cases point : c = DECIMAL_POINT ∧ had_dp = false
                · rw [if_pos point]
                  simp only [Bool.false_eq_true, if_false, if_pos point]
                  have deeper := ih t beyond true out last (by omega)
                  exact ⟨deeper.1, fun roomy => deeper.2 (by omega)⟩
                · rw [if_neg point]
                  simp only [Bool.false_eq_true, if_false, if_neg point]
                  refine ⟨fun out' last' run => ?_, fun _ => rfl⟩
                  obtain ⟨rfl, rfl⟩ : out = out' ∧ last = last' := by simpa using run
                  exact ended out last
            | true =>
                have small := digit_lt isDigit
                obtain ⟨had_dp', t', scan, later, shorter⟩ := secondDigit_text t had_dp
                obtain ⟨beyond', run⟩ := scan beyond
                rw [if_neg (by rw [tens_digit isDigit]; omega), if_pos rfl, tens_digit isDigit,
                  List.cons_append, List.tail_cons, run]
                dsimp only
                have deeper := ih t' beyond' had_dp'
                  (out ++ [mantissaByte negate (10 * digit c + (readDigits had_dp t).headD 0)])
                  (if 10 * digit c + (readDigits had_dp t).headD 0 ≠ 0 then out.length + 1
                    else last) (by omega)
                rw [List.length_append, List.length_singleton]
                refine ⟨fun out' last' run' => ?_, fun roomy => ?_⟩
                · have written := deeper.1 out' last' run'
                  rw [later] at written
                  exact written.cons
                · refine deeper.2 ?_
                  rw [List.length_append, List.length_singleton]
                  omega

theorem mantissa_beyond (negate : Byte) (room : Nat) :
    ∀ (fuel : Nat) (t beyond beyond' : List Byte) (had_dp : Bool) (out : List Byte) (last : Nat),
      t.length ≤ fuel →
      mantissa negate room fuel t.length had_dp (t ++ beyond) out last =
        mantissa negate room fuel t.length had_dp (t ++ beyond') out last := by
  intro fuel
  induction fuel with
  | zero => exact fun _ _ _ _ _ _ _ => rfl
  | succ fuel ih =>
      intro t beyond beyond' had_dp out last short
      cases t with
      | nil => rfl
      | cons c t =>
          have head : ∀ more, peek (c :: t ++ more) = c := fun _ => rfl
          obtain ⟨had_dp', t', scan, -, shorter⟩ := secondDigit_text t had_dp
          obtain ⟨more, run⟩ := scan beyond
          obtain ⟨more', run'⟩ := scan beyond'
          rw [List.length_cons] at short ⊢
          rw [mantissa, mantissa, head, head, Nat.add_sub_cancel, List.cons_append, List.cons_append,
            List.tail_cons, List.tail_cons, ih t beyond beyond' true out last (by omega), run, run']
          dsimp only
          rw [ih t' more more' had_dp' _ _ (by omega)]

theorem Written.take {negate : Byte} {out out' : List Byte} {last' : Nat} {digits : List Nat}
    (written : Written negate out out.length digits out' last') :
    out'.take last' = out ++ (strip (pairs digits)).map (mantissaByte negate) := by
  have front : strip (pairs digits) <+: pairs digits := by
    generalize pairs digits = ps
    induction ps with
    | nil => exact List.prefix_refl _
    | cons p ps ih =>
        rw [strip_cons]
        split
        · exact List.nil_prefix
        · exact (List.prefix_cons_inj p).mpr ih
  obtain ⟨dropped, split⟩ := front
  have bytes := written.bytes
  rw [written.cut]
  by_cases none : strip (pairs digits) = []
  · simp [bytes, none]
  · rw [← split, List.map_append, ← List.append_assoc] at bytes
    rw [if_neg none, bytes]
    exact List.take_left' (by simp)

/-! ## The key behind the sign -/

/-- The exponent of the first digit that is not zero. -/
def leadingExponent (t : List Byte) : Int :=
  (leadingDigits t).length - 1 - (fractionDigits t).length

def magnitudeKey (negate : Byte) (t : List Byte) : List Byte :=
  if leadingDigits t = [] then [0x80]
  else
    exponentBytes negate (leadingExponent t) ++
      (strip (pairs (leadingDigits t))).map (mantissaByte negate) ++ [negate]

/-- A scanner that writes `k` if it writes anything, and does so when there is room. -/
def Writes (k : List Byte) (enough : Prop) (result : Option (List Byte)) : Prop :=
  (∀ k', result = some k' → k' = k) ∧ (enough → result.isSome)

theorem Writes.some (k : List Byte) (enough : Prop) : Writes k enough (some k) :=
  ⟨fun _ same => (Option.some.inj same).symm, fun _ => rfl⟩

/-- Zeroes in front change neither the digits nor the exponent. -/
theorem leading_dropZeroes (t : List Byte) :
    leadingDigits (t.dropWhile (· = byte '0')) = leadingDigits t ∧
      fractionDigits (t.dropWhile (· = byte '0')) = fractionDigits t := by
  induction t with
  | nil => exact ⟨rfl, rfl⟩
  | cons c t ih =>
      by_cases zero : c = byte '0'
      · have isDigit : isdigit c = true := by rw [zero]; decide
        have whole : wholeDigits (c :: t) = c :: wholeDigits t := by
          rw [wholeDigits, List.takeWhile_cons_of_pos isDigit, wholeDigits]
        have fraction : fractionDigits (c :: t) = fractionDigits t := by
          rw [fractionDigits, List.dropWhile_cons_of_pos isDigit, fractionDigits]
        rw [List.dropWhile_cons_of_pos (by simpa using zero), leadingDigits, leadingDigits, whole,
          fraction, List.cons_append, List.dropWhile_cons_of_pos (by simpa using zero)]
        exact ih
      · rw [List.dropWhile_cons_of_neg (by simpa using zero)]
        exact ⟨rfl, rfl⟩

theorem length_exponentBytes (negate : Byte) (e : Int) : (exponentBytes negate e).length ≤ 6 := by
  have more : ∀ fuel t, moreBytes fuel t ≤ fuel := by
    intro fuel
    induction fuel with
    | zero => exact fun _ => Nat.le_refl _
    | succ fuel ih =>
        intro t
        rw [moreBytes]
        have deeper := ih (t / 256)
        split <;> omega
  have shift : ∀ k, (shiftBytes negate e k).length = k := by
    intro k
    induction k with
    | zero => rfl
    | succ k ih => rw [shiftBytes, List.length_cons, ih]
  rw [exponentBytes]
  split
  · simp
  · have bound := more 4 e.natAbs
    rw [List.length_cons, shift]
    omega

theorem writes_mantissa (negate : Byte) (room : Nat) (t beyond : List Byte) (had_dp : Bool)
    (e : Int) :
    Writes (exponentBytes negate e ++
        (strip (pairs (readDigits had_dp t))).map (mantissaByte negate) ++ [negate])
      (6 + t.length ≤ room)
      (match mantissa negate room t.length t.length had_dp (t ++ beyond) (exponentBytes negate e)
          (exponentBytes negate e).length with
        | none => none
        | some (out, last) => some (out.take last ++ [negate])) := by
  have short := length_exponentBytes negate e
  obtain ⟨written, ends⟩ := mantissa_text negate room t.length t beyond had_dp
    (exponentBytes negate e) (exponentBytes negate e).length (Nat.le_refl _)
  cases run : mantissa negate room t.length t.length had_dp (t ++ beyond) (exponentBytes negate e)
      (exponentBytes negate e).length with
  | none =>
      refine ⟨fun _ same => (nomatch same), fun roomy => ?_⟩
      have ended := ends (by omega)
      rw [run] at ended
      cases ended
  | some result =>
      obtain ⟨out, last⟩ := result
      rw [← (written out last run).take]
      exact Writes.some _ _

theorem dropWhile_head {p : Byte → Bool} {t : List Byte} {u : List Byte}
    (split : t.dropWhile p = c :: u) : p c = false := by
  have stop := List.head_dropWhile_not p (l := t) (by simp [split])
  simpa [split] using stop

/-- The digits of a number that starts with neither a zero nor the point. -/
theorem leading_digit {u : List Byte} (notZero : c ≠ byte '0') (isDigit : isdigit c = true) :
    leadingDigits (c :: u) = readDigits false (c :: u) ∧
      leadingExponent (c :: u) = -1 + ((c :: u).takeWhile isdigit).length := by
  have digits : leadingDigits (c :: u) = readDigits false (c :: u) := by
    have whole : wholeDigits (c :: u) = c :: wholeDigits u := by
      rw [wholeDigits, List.takeWhile_cons_of_pos isDigit, wholeDigits]
    rw [readDigits_false, leadingDigits, whole, List.cons_append,
      List.dropWhile_cons_of_neg (by simpa using notZero)]
  refine ⟨digits, ?_⟩
  rw [leadingExponent, digits, readDigits_false, List.length_map, List.length_append, wholeDigits]
  push_cast
  ring

theorem leading_point (u : List Byte) :
    leadingDigits (DECIMAL_POINT :: u) = readDigits true (u.dropWhile (· = byte '0')) ∧
      leadingExponent (DECIMAL_POINT :: u) = -1 - (u.takeWhile (· = byte '0')).length := by
  have whole : wholeDigits (DECIMAL_POINT :: u) = [] := by
    rw [wholeDigits, List.takeWhile_cons_of_neg (by simp [isdigit_point])]
  have fraction : fractionDigits (DECIMAL_POINT :: u) = u.takeWhile isdigit := by
    rw [fractionDigits, List.dropWhile_cons_of_neg (by simp [isdigit_point])]
    simp
  have zeroes : (u.takeWhile isdigit).dropWhile (· = byte '0') =
      (u.dropWhile (· = byte '0')).takeWhile isdigit ∧
      (u.takeWhile isdigit).length = (u.takeWhile (· = byte '0')).length +
        ((u.dropWhile (· = byte '0')).takeWhile isdigit).length := by
    clear whole fraction
    induction u with
    | nil => exact ⟨rfl, rfl⟩
    | cons c u ih =>
        by_cases zero : c = byte '0'
        · have isDigit : isdigit c = true := by rw [zero]; decide
          rw [List.takeWhile_cons_of_pos isDigit, List.dropWhile_cons_of_pos (by simpa using zero),
            List.dropWhile_cons_of_pos (by simpa using zero),
            List.takeWhile_cons_of_pos (by simpa using zero), List.length_cons, List.length_cons]
          exact ⟨ih.1, by omega⟩
        · have none : (c :: u).takeWhile (· = byte '0') = [] :=
            List.takeWhile_cons_of_neg (by simpa using zero)
          rw [none, List.dropWhile_cons_of_neg (l := u) (by simpa using zero)]
          refine ⟨?_, by simp⟩
          cases isDigit : isdigit c with
          | true =>
              rw [List.takeWhile_cons_of_pos isDigit,
                List.dropWhile_cons_of_neg (by simpa using zero)]
          | false => rw [List.takeWhile_cons_of_neg (by simp [isDigit]), List.dropWhile_nil]
  refine ⟨?_, ?_⟩
  · rw [leadingDigits, whole, fraction, List.nil_append, zeroes.1, readDigits_true]
  · rw [leadingExponent, leadingDigits, whole, fraction, List.nil_append, zeroes.1, zeroes.2,
      List.length_map]
    push_cast
    ring

theorem unsigned_text (negate : Byte) (room : Nat) (t beyond : List Byte) :
    Writes (magnitudeKey negate t) (6 + t.length ≤ room)
      (unsigned negate room (t ++ beyond) t.length) := by
  have same : magnitudeKey negate t = magnitudeKey negate (t.dropWhile (· = byte '0')) := by
    obtain ⟨digits, fraction⟩ := leading_dropZeroes t
    rw [magnitudeKey, magnitudeKey, leadingExponent, leadingExponent, digits, fraction]
  have shorter : (t.dropWhile (· = byte '0')).length ≤ t.length :=
    (List.dropWhile_sublist _).length_le
  rw [same, unsigned, eatZeroes_text]
  dsimp only
  cases behind : t.dropWhile (· = byte '0') with
  | nil =>
      rw [List.length_nil, Nat.zero_sub, if_neg]
      · exact Writes.some _ _
      · rintro ⟨_, some⟩
        split at some <;> exact some rfl
  | cons c u =>
      have notZero : c ≠ byte '0' := by simpa using dropWhile_head behind
      have head : peek (c :: u ++ beyond) = c := rfl
      rw [behind, List.length_cons] at shorter
      rw [List.length_cons, head, List.cons_append, List.tail_cons, Nat.add_sub_cancel,
        eatZeroes_text]
      by_cases point : c = DECIMAL_POINT
      · subst point
        obtain ⟨digits, exponent⟩ := leading_point u
        have shorter' : (u.dropWhile (· = byte '0')).length ≤ u.length :=
          (List.dropWhile_sublist _).length_le
        simp only [if_true, decide_true]
        rw [magnitudeKey, digits, exponent]
        cases inside : u.dropWhile (· = byte '0') with
        | nil =>
            have none : readDigits true [] = [] := rfl
            rw [if_pos none, if_neg (fun both => both.2 rfl)]
            exact Writes.some _ _
        | cons d v =>
            have notZero' : d ≠ byte '0' := by simpa using dropWhile_head inside
            have head' : peek (d :: v ++ beyond) = d := rfl
            rw [inside] at shorter'
            rw [head']
            cases isDigit : isdigit d with
            | true =>
                rw [if_neg (by simp [readDigits, isDigit]),
                  if_pos ⟨⟨rfl, notZero'⟩, Nat.succ_ne_zero _⟩]
                have writes := writes_mantissa negate room (d :: v) beyond true
                  (-1 - (u.takeWhile (· = byte '0')).length)
                exact ⟨writes.1, fun roomy => writes.2 (by omega)⟩
            | false =>
                have none : readDigits true (d :: v) = [] := by
                  rw [readDigits_true, List.takeWhile_cons_of_neg (by simp [isDigit]), List.map_nil]
                rw [if_pos none, if_neg (fun both => nomatch both.1.1)]
                exact Writes.some _ _
      · simp only [point, if_false, decide_false]
        have start : peek (c :: (u ++ beyond)) = c := rfl
        rw [start]
        cases isDigit : isdigit c with
        | true =>
            obtain ⟨digits, exponent⟩ := leading_digit (u := u) notZero isDigit
            have counted := countDigits_text (c :: u) beyond
            rw [List.length_cons, List.cons_append] at counted
            rw [if_pos ⟨⟨rfl, notZero⟩, Nat.succ_ne_zero _⟩, counted, magnitudeKey, digits, exponent,
              if_neg (by simp [readDigits, isDigit])]
            have writes := writes_mantissa negate room (c :: u) beyond false
              (-1 + ((c :: u).takeWhile isdigit).length)
            exact ⟨writes.1, fun roomy => writes.2 (by rw [List.length_cons]; omega)⟩
        | false =>
            have none : leadingDigits (c :: u) = [] := by
              have whole : wholeDigits (c :: u) = [] := by
                rw [wholeDigits, List.takeWhile_cons_of_neg (by simp [isDigit])]
              have fraction : fractionDigits (c :: u) = [] := by
                rw [fractionDigits, List.dropWhile_cons_of_neg (by simp [isDigit])]
                simp [point]
              rw [leadingDigits, whole, fraction]
              rfl
            rw [if_neg (fun both => nomatch both.1.1), magnitudeKey, if_pos none]
            exact Writes.some _ _

theorem unsigned_beyond (negate : Byte) (room : Nat) (t beyond beyond' : List Byte) :
    unsigned negate room (t ++ beyond) t.length = unsigned negate room (t ++ beyond') t.length := by
  rw [unsigned, unsigned, eatZeroes_text, eatZeroes_text]
  dsimp only
  cases behind : t.dropWhile (· = byte '0') with
  | nil =>
      rw [List.length_nil, Nat.zero_sub, if_neg, if_neg]
      · rintro ⟨_, some⟩
        split at some <;> exact some rfl
      · rintro ⟨_, some⟩
        split at some <;> exact some rfl
  | cons c u =>
      have head : ∀ more, peek (c :: u ++ more) = c := fun _ => rfl
      have digits := fun more => countDigits_text (c :: u) more
      rw [head, head, digits, digits, List.cons_append, List.cons_append, List.tail_cons,
        List.tail_cons, List.length_cons, Nat.add_sub_cancel, eatZeroes_text, eatZeroes_text]
      by_cases point : c = DECIMAL_POINT
      · simp only [point, if_true, decide_true]
        cases inside : u.dropWhile (· = byte '0') with
        | nil =>
            rw [if_neg (fun both => both.2 rfl), if_neg (fun both => both.2 rfl)]
        | cons d v =>
            have head' : ∀ more, peek (d :: v ++ more) = d := fun _ => rfl
            rw [head', head',
              mantissa_beyond negate room _ (d :: v) beyond beyond' _ _ _ (Nat.le_refl _)]
      · simp only [point, if_false, decide_false]
        have start : ∀ more, peek (c :: (u ++ more)) = c := fun _ => rfl
        have same := mantissa_beyond negate room (u.length + 1) (c :: u) beyond beyond' false
          (exponentBytes negate (-1 + ((c :: u).takeWhile isdigit).length))
          (exponentBytes negate (-1 + ((c :: u).takeWhile isdigit).length)).length (Nat.le_refl _)
        rw [List.length_cons, List.cons_append, List.cons_append] at same
        rw [start, start, same]

end Netbase.Sort
