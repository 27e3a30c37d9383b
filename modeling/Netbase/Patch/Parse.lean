import Netbase.Patch.Input
import Netbase.Patch.Pch
import Netbase.Unified.Format

/-!
# Reading unified hunks

What `another_hunk` makes of the lines of a hunk in the unified format, one at a time: how a
line is stored in its arrays, and what the numbers of the header are.
-/

namespace Netbase.Patch.Parse

open Netbase.Text
open Netbase.Unified
open Netbase.Patch.Input
open Netbase.Patch.Pch

/-! ## What the arrays hold -/

theorem toShort_eq {n : Nat} (small : n ≤ 32767) : toShort n = n := by
  unfold toShort
  rw [Int.bmod_eq_of_le (by omega) (by omega)]

theorem cstr_eq {s : List Byte} (noNul : (0 : Byte) ∉ s) : cstr s = s := by
  unfold cstr
  rw [List.takeWhile_eq_self_iff]
  intro b listed
  simpa using fun zero : b = 0 => noNul (zero ▸ listed)

/-! ## One line of the body -/

def note (line : List Byte) : List Byte := if Terminated line then [] else noNewline

theorem removeSpecialLine_note {line tail : List Byte} (plain : tail.head? ≠ some (byte '\\')) :
    removeSpecialLine (note line ++ tail) = if Terminated line then none else some tail := by
  unfold note
  split
  · rw [List.nil_append, removeSpecialLine, if_neg plain]
  · have tailed : noNewline = byte '\\' :: noNewline.tail := rfl
    have ended : IsLine noNewline.tail ∧ Terminated noNewline.tail := by decide
    rw [tailed, List.cons_append, removeSpecialLine, List.head?_cons, if_pos rfl, List.tail_cons,
      getline_line ended.1 ended.2]

theorem removeSpecialLine_plain {tail : List Byte} (plain : tail.head? ≠ some (byte '\\')) :
    removeSpecialLine tail = none := if_neg plain

/-! ## Storing a line -/

theorem put_char (slots : Slots) (i k : Nat) (mark : Mark) (s : List Byte) :
    (slots.put i mark s).char k = if k = i then mark else slots.char k := by
  simp [Slots.put, Function.update_apply]

theorem put_len (slots : Slots) (i k : Nat) (mark : Mark) (s : List Byte) :
    (slots.put i mark s).len k = if k = i then toShort s.length else slots.len k := by
  simp [Slots.put, Function.update_apply]

theorem put_line (slots : Slots) (i k : Nat) (mark : Mark) (s : List Byte) :
    (slots.put i mark s).line k = if k = i then s else slots.line k := by
  simp [Slots.put, Function.update_apply]

theorem chop_len (slots : Slots) (i k : Nat) :
    (slots.chop i).len k = if k = i then toShort (slots.len i - 1) else slots.len k := by
  simp [Slots.chop, Function.update_apply]

theorem chop_line (slots : Slots) (i k : Nat) :
    (slots.chop i).line k =
      if k = i then cutAt (slots.line i) (toShort (slots.len i - 1)) else slots.line k := by
  simp [Slots.chop, Function.update_apply]

/-- Two sets of arrays agree outside one entry. -/
def SameBut (i : Nat) (slots other : Slots) : Prop :=
  ∀ k, k ≠ i → other.char k = slots.char k ∧ other.len k = slots.len k ∧
    other.line k = slots.line k

theorem SameBut.put (slots : Slots) (i : Nat) (mark : Mark) (s : List Byte) :
    SameBut i slots (slots.put i mark s) := fun k away => by
  rw [put_char, put_len, put_line, if_neg away, if_neg away, if_neg away]
  exact ⟨rfl, rfl, rfl⟩

theorem SameBut.chop {i : Nat} {slots other : Slots} (same : SameBut i slots other) :
    SameBut i slots (other.chop i) := fun k away => by
  obtain ⟨char, len, line⟩ := same k away
  rw [chop_len, chop_line, if_neg away, if_neg away]
  exact ⟨char, len, line⟩

/-! ## Filling a hunk -/

section

variable {ptrnLines : Nat} {fill : Fill} {line tail : List Byte}

theorem special_note (looks : Prop) [Decidable looks] (plain : tail.head? ≠ some (byte '\\'))
    (when_ : ¬ Terminated line → looks) :
    (if looks then removeSpecialLine (note line ++ tail) else none) =
      if Terminated line then none else some tail := by
  rw [removeSpecialLine_note plain]
  by_cases terminated : Terminated line
  · simp [terminated]
  · rw [if_pos (when_ terminated)]

theorem fillLine_minus {endLine : Nat} {text : List Byte} (noNul : (0 : Byte) ∉ text)
    (more : fill.fillold ≤ ptrnLines) :
    fillLine ptrnLines endLine fill (byte '-' :: text) =
      .ok (fill.addOld ptrnLines text).endContext := by
  have eaten : ¬ (some (byte '-') = some (byte '\t') ∨ some (byte '-') = some nl) := by decide
  unfold fillLine
  dsimp only
  rw [List.head?_cons, if_neg eaten, if_neg eaten, List.headD_cons, List.tail_cons, cstr_eq noNul,
    if_pos rfl, if_neg (Nat.not_lt.mpr more)]

theorem fillLine_plus {endLine : Nat} {text : List Byte} (noNul : (0 : Byte) ∉ text)
    (more : fill.fillnew ≤ endLine) :
    fillLine ptrnLines endLine fill (byte '+' :: text) =
      .ok (fill.addNew ptrnLines .insert text).endContext := by
  have eaten : ¬ (some (byte '+') = some (byte '\t') ∨ some (byte '+') = some nl) := by decide
  unfold fillLine
  dsimp only
  rw [List.head?_cons, if_neg eaten, if_neg eaten, List.headD_cons, List.tail_cons, cstr_eq noNul,
    if_neg (by decide), if_neg (by decide), if_pos rfl, if_neg (Nat.not_lt.mpr more)]

theorem fillLine_blank {endLine : Nat} {text copy : List Byte} {next : Fill}
    (noNul : (0 : Byte) ∉ text) (more : fill.fillold ≤ ptrnLines)
    (added : fill.addContext ptrnLines text = (next, copy)) (room : next.fillnew ≤ endLine) :
    fillLine ptrnLines endLine fill (byte ' ' :: text) =
      .ok (next.addNew ptrnLines .context copy) := by
  have eaten : ¬ (some (byte ' ') = some (byte '\t') ∨ some (byte ' ') = some nl) := by decide
  unfold fillLine
  dsimp only
  rw [List.head?_cons, if_neg eaten, if_neg eaten, List.headD_cons, List.tail_cons, cstr_eq noNul,
    if_neg (by decide), if_pos (Or.inl rfl), if_neg (Nat.not_lt.mpr more), added]
  exact if_neg (Nat.not_lt.mpr room)

end

/-! ## The header -/

theorem getskiplinenum_decimal {n : Nat} {rest : List Byte} (stop : EndsNumber rest)
    (small : (n : Int) ≤ longMax) : getskiplinenum (decimal n ++ rest) = some (n, rest) := by
  unfold getskiplinenum
  rw [atol_decimal stop small, dropWhile_digits n stop, if_neg (by omega), Int.toNat_natCast]

end Netbase.Patch.Parse
