import Mathlib
import Netbase.Sed.Brackets

/-!
# Decoding twice

For one substitution `compile_re` is called twice on the same buffer, and decodes what it has
decoded before.  A second reading finds an escape where a decoded character or one that has been
copied stands in front of others that make it one, or where the brackets are told otherwise.
-/

namespace Netbase.Sed

open Netbase.Text

/-- What `compile_re` leaves in its buffer, and has compiled. -/
def compileRe (re : List Byte) : List Byte := cString (parseEscapes re)

namespace Reader

variable {σ : Type} (r : Reader σ)

/-- No escape is spelled outside of what the reader takes for a bracket. -/
def Quiet : σ → List Byte → Prop
  | _, [] => True
  | _, [_] => True
  | s, c :: d :: text =>
      if c = byte '\\' ∧ r.outside s = true then
        unescape (d :: text) = none ∧ Quiet (r.pair s d) text
      else Quiet (r.copy s c) (d :: text)

theorem decode_length (bound : Nat) :
    ∀ (text : List Byte) (s : σ), text.length ≤ bound →
      (r.decode s 0 text).length ≤ text.length := by
  induction bound with
  | zero =>
      intro text s short
      rw [List.eq_nil_of_length_eq_zero (Nat.le_zero.mp short), decode]
  | succ bound ih =>
      intro text s short
      rcases text with _ | ⟨c, _ | ⟨d, text⟩⟩
      · rw [decode]
      · rw [decode]
      · have fewer : (d :: text).length ≤ bound := Nat.le_of_succ_le_succ short
        rw [decode]
        split
        · cases read : unescape (d :: text) with
          | none => exact Nat.succ_le_succ (Nat.succ_le_succ (ih _ _ (Nat.le_of_succ_le fewer)))
          | some found =>
              obtain ⟨v, n⟩ := found
              obtain ⟨-, length, -⟩ := unescape_read read
              have rest := ih ((d :: text).drop n) (((d :: text).take n).foldl r.pass (r.escape s))
                (by rw [List.length_drop]; omega)
              rw [List.length_drop] at rest
              simp only
              rw [r.decode_skip _ _ _ length, List.length_cons, List.length_cons]
              omega
        · exact Nat.succ_le_succ (ih _ _ fewer)

theorem decode_self_iff (bound : Nat) :
    ∀ {text : List Byte} {s : σ}, text.length ≤ bound →
      (r.decode s 0 text = text ↔ r.Quiet s text) := by
  induction bound with
  | zero =>
      intro text s short
      rw [List.eq_nil_of_length_eq_zero (Nat.le_zero.mp short), decode, Quiet]
      exact iff_of_true rfl trivial
  | succ bound ih =>
      intro text s short
      rcases text with _ | ⟨c, _ | ⟨d, text⟩⟩
      · exact iff_of_true (by rw [decode]) trivial
      · exact iff_of_true (by rw [decode]) trivial
      · have fewer : (d :: text).length ≤ bound := Nat.le_of_succ_le_succ short
        rw [decode, Quiet]
        split
        · cases read : unescape (d :: text) with
          | none =>
              simp only [List.cons.injEq, true_and]
              exact ih (Nat.le_of_succ_le fewer)
          | some found =>
              obtain ⟨v, n⟩ := found
              obtain ⟨positive, length, -⟩ := unescape_read read
              refine iff_of_false (fun same => ?_) fun all => by cases all.1
              have rest := r.decode_length _ ((d :: text).drop n)
                (((d :: text).take n).foldl r.pass (r.escape s)) (Nat.le_refl _)
              have lengths := congrArg List.length same
              simp only at lengths
              rw [r.decode_skip _ _ _ length, List.length_cons, List.length_cons] at lengths
              rw [List.length_drop] at rest
              omega
        · rw [List.cons.injEq, and_iff_right rfl]
          exact ih fewer

end Reader

/-- The characters that the pieces of a text stand for, up to its end: the escapes in it outside
of what the tracker takes for brackets, and every other byte. -/
def decodedPieces (re : List Byte) : List Byte := cString (tracker.decode Tracked.start 0 re)

theorem compileRe_self_iff {re : List Byte} (clean : (0 : Byte) ∉ re) :
    compileRe re = re ↔ tracker.Quiet Tracked.start re := by
  rw [← tracker.decode_self_iff re.length (Nat.le_refl _), ← parseEscapes_eq]
  unfold compileRe
  constructor
  · intro same
    have whole := cString_length (parseEscapes re)
    have shorter := tracker.decode_length re.length re Tracked.start (Nat.le_refl _)
    rw [← parseEscapes_eq] at shorter
    rw [same] at whole
    have equal : (cString (parseEscapes re)).length = (parseEscapes re).length := by
      rw [same]
      omega
    have front := List.takeWhile_prefix (l := parseEscapes re) (fun c => decide (c ≠ 0))
    exact (front.eq_of_length equal).symm.trans same
  · intro same
    rw [same, cString_clean clean]

/-- The second call finds what the first one has compiled if the pieces of the text spell no
escape outside of brackets. -/
theorem compileRe_twice_iff (re : List Byte) :
    compileRe (compileRe re) = compileRe re ↔ tracker.Quiet Tracked.start (decodedPieces re) := by
  have same : compileRe re = decodedPieces re := by
    unfold compileRe decodedPieces
    rw [parseEscapes_eq]
  rw [same]
  exact compileRe_self_iff (cString_notMem _)

/-- `\\x5cn` is a backslash and `n`, and then a newline. -/
theorem compileRe_twice_apart :
    (¬ ∀ re, compileRe (compileRe re) = compileRe re) ∧
      compileRe (ascii ['\\', 'x', '5', 'c', 'n']) = ascii ['\\', 'n'] ∧
      compileRe (ascii ['\\', 'n']) = ascii ['\n'] := by
  have first : compileRe (ascii ['\\', 'x', '5', 'c', 'n']) = ascii ['\\', 'n'] := by
    decide +kernel
  have second : compileRe (ascii ['\\', 'n']) = ascii ['\n'] := by decide +kernel
  refine ⟨fun all => ?_, first, second⟩
  have same := all (ascii ['\\', 'x', '5', 'c', 'n'])
  rw [first, second] at same
  exact absurd same (by decide)

end Netbase.Sed
