import Mathlib

/-!
# Words as remainders

A word is a polynomial over the field of two elements, its lowest bit the constant term.  Words
of the width of a generator are the remainders of the division by it, and a shift that gives the
bit it loses back as the generator is the multiplication by `X`.
-/

namespace Netbase.Lib.Remainder

open Polynomial

section

variable {v w : Nat}

noncomputable def poly (c : BitVec w) : (ZMod 2)[X] :=
  ∑ i ∈ Finset.range w, if c.getLsbD i then X ^ i else 0

theorem coeff_poly (c : BitVec w) (i : Nat) :
    (poly c).coeff i = if c.getLsbD i then 1 else 0 := by
  have term (k : Nat) : (if c.getLsbD k then (X : (ZMod 2)[X]) ^ k else 0).coeff i =
      if k = i then (if c.getLsbD i then 1 else 0) else 0 := by
    by_cases same : k = i
    · subst same
      rw [if_pos rfl]
      split <;> simp
    · rw [if_neg same]
      split <;> simp [coeff_X_pow, Ne.symm same]
  rw [poly, finsetSum_coeff, Finset.sum_congr rfl fun k _ => term k, Finset.sum_ite_eq']
  by_cases inside : i < w
  · rw [if_pos (Finset.mem_range.mpr inside)]
  · rw [if_neg (by simpa using inside), BitVec.getLsbD_of_ge c i (by omega)]
    simp

theorem poly_inj {a b : BitVec w} (same : poly a = poly b) : a = b := by
  apply BitVec.eq_of_getLsbD_eq
  intro i _
  have coeffs := congrArg (coeff · i) same
  simp only [coeff_poly] at coeffs
  cases one : a.getLsbD i <;> cases two : b.getLsbD i <;> simp [one, two] at coeffs ⊢

theorem degree_poly_lt (c : BitVec w) : (poly c).degree < w := by
  rw [degree_lt_iff_coeff_zero]
  intro i beyond
  rw [coeff_poly, BitVec.getLsbD_of_ge c i beyond]
  rfl

theorem poly_zero : poly (0 : BitVec w) = 0 := by
  ext i
  simp [coeff_poly]

theorem poly_xor (a b : BitVec w) : poly (a ^^^ b) = poly a + poly b := by
  ext i
  rw [coeff_add, coeff_poly, coeff_poly, coeff_poly, BitVec.getLsbD_xor]
  cases a.getLsbD i <;> cases b.getLsbD i <;> decide

theorem poly_append (a : BitVec v) (b : BitVec w) :
    poly (a ++ b) = X ^ w * poly a + poly b := by
  ext i
  rw [coeff_add, coeff_X_pow_mul', coeff_poly, coeff_poly, coeff_poly, BitVec.getLsbD_append]
  by_cases low : i < w
  · simp [low, Nat.not_le.mpr low]
  · simp [low, Nat.not_lt.mp low]

/-- The generator whose terms below the highest one are a word. -/
noncomputable def generator (g : BitVec w) : (ZMod 2)[X] := X ^ w + poly g

theorem generator_monic (g : BitVec w) : (generator g).Monic := monic_X_pow_add (degree_poly_lt g)

theorem degree_generator (g : BitVec w) : (generator g).degree = w := by
  rw [generator, degree_add_eq_left_of_degree_lt] <;> rw [degree_X_pow]
  exact degree_poly_lt g

/-- The class of a word modulo the generator. -/
noncomputable def residue (g : BitVec w) (c : BitVec v) : AdjoinRoot (generator g) :=
  AdjoinRoot.mk _ (poly c)

/-- A word of the width of the generator is the remainder of every polynomial of its class. -/
theorem poly_eq_modByMonic {g c : BitVec w} {p : (ZMod 2)[X]}
    (same : residue g c = AdjoinRoot.mk (generator g) p) : poly c = p %ₘ generator g := by
  have monic := generator_monic g
  have small : (poly c).degree < (generator g).degree := by
    rw [degree_generator]
    exact degree_poly_lt c
  rw [← (modByMonic_eq_self_iff monic).mpr small]
  exact modByMonic_eq_of_dvd_sub monic (AdjoinRoot.mk_eq_mk.mp same)

/-- The generator divides no difference that is as short as a word, wherever it stands. -/
theorem eq_of_burst {g : BitVec w} (low : g.getLsbD 0 = true) {p q : (ZMod 2)[X]} {k m : Nat}
    (burst : ∀ n, p.coeff n ≠ q.coeff n → k ≤ n ∧ n < k + w)
    (same : AdjoinRoot.mk (generator g) (X ^ m * p) = AdjoinRoot.mk (generator g) (X ^ m * q)) :
    p = q := by
  have front : X ^ k ∣ p - q := by
    rw [X_pow_dvd_iff]
    intro n before
    by_contra different
    rw [coeff_sub, sub_eq_zero] at different
    have := (burst n different).1
    omega
  obtain ⟨e, product⟩ := front
  have short : e.degree < (generator g).degree := by
    rw [degree_generator, degree_lt_iff_coeff_zero]
    intro i beyond
    by_contra different
    rw [← coeff_X_pow_mul e k i, ← product, coeff_sub, sub_eq_zero] at different
    have := (burst _ different).2
    omega
  have divides := AdjoinRoot.mk_eq_mk.mp same
  have constant : (generator g).coeff 0 = 1 := by
    have width : 0 ≠ w := by
      rintro rfl
      simp at low
    rw [generator, coeff_add, coeff_X_pow, if_neg width, coeff_poly, if_pos low, zero_add]
  have apart : IsCoprime (X : (ZMod 2)[X]) (generator g) := by
    rw [irreducible_X.coprime_iff_not_dvd, X_dvd_iff, constant]
    exact one_ne_zero
  rw [← mul_sub, product, ← mul_assoc, ← pow_add] at divides
  have none_ : e = 0 := eq_zero_of_dvd_of_degree_lt
    (apart.symm.pow_right.dvd_of_dvd_mul_left divides) short
  rw [none_, mul_zero, sub_eq_zero] at product
  exact product

theorem residue_inj {g a b : BitVec w} (same : residue g a = residue g b) : a = b :=
  poly_inj ((poly_eq_modByMonic same).trans (poly_eq_modByMonic rfl).symm)

variable (g : BitVec w)

theorem residue_xor (a b : BitVec v) : residue g (a ^^^ b) = residue g a + residue g b := by
  rw [residue, poly_xor, map_add]
  rfl

theorem residue_append {u : Nat} (a : BitVec u) (b : BitVec v) :
    residue g (a ++ b) = AdjoinRoot.root (generator g) ^ v * residue g a + residue g b := by
  rw [residue, poly_append, map_add, map_mul, map_pow, AdjoinRoot.mk_X]
  rfl

theorem residue_zero : residue g (0 : BitVec v) = 0 := by
  rw [residue, poly_zero, map_zero]

/-- Shift a word by one bit. -/
def shift (c : BitVec w) : BitVec w := c <<< 1 ^^^ if c.msb then g else 0

theorem poly_shiftLeft (c : BitVec w) :
    poly (c <<< 1) + (if c.msb then X ^ w else 0) = X * poly c := by
  ext i
  have top : (if c.msb then (X : (ZMod 2)[X]) ^ w else 0).coeff i =
      if c.msb ∧ i = w then 1 else 0 := by
    cases c.msb <;> simp [coeff_X_pow]
  rw [coeff_add, coeff_poly, top, BitVec.getLsbD_shiftLeft, BitVec.msb_eq_getLsbD_last]
  cases i with
  | zero => cases w <;> simp
  | succ i =>
      rw [coeff_X_mul, coeff_poly, Nat.add_sub_cancel]
      rcases lt_trichotomy (i + 1) w with inside | last | beyond
      · simp [inside, inside.ne]
      · subst last
        simp
      · simp [beyond.not_gt, beyond.ne', BitVec.getLsbD_of_ge c i (by omega)]

theorem mk_X_pow : AdjoinRoot.mk (generator g) (X ^ w) = residue g g := by
  have whole : AdjoinRoot.mk (generator g) (X ^ w) + residue g g = 0 := by
    rw [residue, ← map_add]
    exact AdjoinRoot.mk_self
  have twice : residue g g + residue g g = 0 := by
    rw [← residue_xor, BitVec.xor_self]
    exact residue_zero g
  exact add_right_cancel (whole.trans twice.symm)

theorem residue_shift (c : BitVec w) :
    residue g (shift g c) = AdjoinRoot.root (generator g) * residue g c := by
  have product := congrArg (AdjoinRoot.mk (generator g)) (poly_shiftLeft c)
  rw [map_add, map_mul, AdjoinRoot.mk_X] at product
  refine Eq.trans ?_ product
  rw [shift, residue_xor]
  split
  · rw [mk_X_pow]
    rfl
  · rw [residue_zero, map_zero]
    rfl

theorem residue_shifts (n : Nat) (c : BitVec w) :
    residue g ((shift g)^[n] c) = AdjoinRoot.root (generator g) ^ n * residue g c := by
  induction n with
  | zero => rw [Function.iterate_zero, id, pow_zero, one_mul]
  | succ n ih => rw [Function.iterate_succ_apply', residue_shift, ih, pow_succ', mul_assoc]

end

end Netbase.Lib.Remainder
