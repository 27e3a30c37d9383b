import Netbase.Patch.Reject

/-!
# Turning a hunk around

For `-R` a hunk is read as it stands and turned around by `pch_swap`: its new half is what is
looked for, its old half what is put in.  Turned around once more it is the hunk that was read.
-/

namespace Netbase.Patch.Swap

open Netbase.Text
open Netbase.Patch.Pch
open Netbase.Patch.Reject

/-- What a mark is called on the other side. -/
def Mark.turned : Mark → Mark
  | .delete => .insert
  | .insert => .delete
  | mark => mark

/-- A line stands at another place, with its mark turned. -/
def Turns (slots : Slots) (i : Nat) (other : Slots) (j : Nat) : Prop :=
  other.line j = slots.line i ∧ other.len j = slots.len i ∧
    other.char j = Mark.turned (slots.char i)

/-- The other hunk reads what this one writes, and writes what it reads. -/
structure Turned (hunk other : Hunk) : Prop where
  first : other.first = hunk.newfirst
  newfirst : other.newfirst = hunk.first
  ptrnLines : other.ptrnLines = hunk.replLines
  replLines : other.replLines = hunk.ptrnLines
  context : other.context = hunk.context
  old : ∀ k, 1 ≤ k → k ≤ hunk.ptrnLines → Turns hunk.slots k other.slots (other.ptrnLines + 1 + k)
  new : ∀ k, 1 ≤ k → k ≤ hunk.replLines → Turns hunk.slots (hunk.ptrnLines + 1 + k) other.slots k

/-- Both halves are in place, and each has marks of its own. -/
structure Halves (hunk : Hunk) : Prop where
  endLine : hunk.endLine = hunk.ptrnLines + hunk.replLines + 1
  split : hunk.slots.char (hunk.ptrnLines + 1) = .split
  old : ∀ k, 1 ≤ k → k ≤ hunk.ptrnLines → hunk.slots.char k ≠ .insert
  new : ∀ k, 1 ≤ k → k ≤ hunk.replLines → hunk.slots.char (hunk.ptrnLines + 1 + k) ≠ .delete

variable {hunk : Hunk}

theorem aligned_new {slots : Slots} {split patEnd i j : Nat} (aligned : Aligned slots split patEnd i j)
    {k : Nat} (behind : j ≤ k) (inside : k ≤ patEnd) : slots.char k ≠ .delete := by
  induction aligned with
  | done => omega
  | delete _ _ _ ih => exact ih behind
  | insert _ char _ ih =>
      rcases Nat.eq_or_lt_of_le behind with rfl | later
      · simp [char]
      · exact ih later
  | context _ _ _ char _ _ ih =>
      rcases Nat.eq_or_lt_of_le behind with rfl | later
      · simp [char]
      · exact ih later

theorem halves_of_formed (formed : Formed hunk) : Halves hunk := by
  have size := formed.endLine
  refine ⟨size, formed.split, fun k low high => ?_, fun k low high =>
    aligned_new formed.aligned (by omega) (by omega)⟩
  rcases formed.aligned.char_side low (by omega) with char | char <;> simp [char]

/-- A hunk with both halves is turned around, and the halves of the other are its own. -/
theorem Halves.swap (halves : Halves hunk) :
    ∃ other, pchSwap hunk = .ok other ∧ Turned hunk other ∧ Halves other := by
  have size := halves.endLine
  have count : hunk.endLine - hunk.ptrnLines = hunk.replLines + 1 := by omega
  rw [pchSwap, if_neg (not_not.mpr halves.split), if_neg (by omega), count]
  refine ⟨_, rfl, ⟨rfl, rfl, rfl, rfl, rfl, fun k low high => ?_, fun k low high => ?_⟩,
    ⟨by dsimp only; omega, ?_, fun k low high => ?_, fun k low high => ?_⟩⟩
  · have far : ¬ hunk.replLines + 1 + k < hunk.replLines + 1 := by omega
    have char := halves.old k low high
    dsimp only [Turns]
    rw [if_neg (by omega), if_neg far, if_neg (by omega), if_neg far, if_neg (by omega), if_neg far,
      if_neg (by omega), if_pos (by omega), Nat.add_sub_cancel_left]
    refine ⟨rfl, rfl, ?_⟩
    cases mark : hunk.slots.char k <;> first | rfl | exact absurd mark char
  · have near : k < hunk.replLines + 1 := by omega
    have char := halves.new k low high
    dsimp only [Turns]
    rw [if_neg (by omega), if_pos near, if_pos near, if_neg (by omega), if_pos near]
    refine ⟨rfl, rfl, ?_⟩
    cases mark : hunk.slots.char (hunk.ptrnLines + 1 + k) <;> first | rfl | exact absurd mark char
  · dsimp only
    rw [if_neg (by omega), if_neg (by omega), if_pos rfl]
  · dsimp only at high ⊢
    rw [if_neg (by omega), if_pos (by omega)]
    split
    · simp
    · assumption
  · dsimp only at high ⊢
    rw [if_neg (by omega), if_neg (by omega), if_neg (by omega), if_pos (by omega)]
    split
    · simp
    · assumption

/-- Everything but the two rows of the header is the same. -/
structure Same (hunk again : Hunk) : Prop where
  first : again.first = hunk.first
  newfirst : again.newfirst = hunk.newfirst
  ptrnLines : again.ptrnLines = hunk.ptrnLines
  replLines : again.replLines = hunk.replLines
  context : again.context = hunk.context
  body : ∀ k, 1 ≤ k → k ≠ hunk.ptrnLines + 1 → k ≤ hunk.ptrnLines + hunk.replLines + 1 →
    again.slots.line k = hunk.slots.line k ∧ again.slots.len k = hunk.slots.len k ∧
      again.slots.char k = hunk.slots.char k

theorem Turned.twice {other again : Hunk} (turned : Turned hunk other)
    (back : Turned other again) : Same hunk again := by
  have twice (mark : Mark) : Mark.turned (Mark.turned mark) = mark := by cases mark <;> rfl
  refine ⟨back.first.trans turned.newfirst, back.newfirst.trans turned.first,
    back.ptrnLines.trans turned.replLines, back.replLines.trans turned.ptrnLines,
    back.context.trans turned.context, fun k low apart high => ?_⟩
  by_cases old : k ≤ hunk.ptrnLines
  · obtain ⟨line, len, char⟩ := turned.old k low old
    obtain ⟨line', len', char'⟩ := back.new k low (turned.replLines ▸ old)
    rw [line', len', char', line, len, char, twice]
    exact ⟨rfl, rfl, rfl⟩
  · obtain ⟨i, rfl⟩ := Nat.exists_eq_add_of_lt (show hunk.ptrnLines + 1 < k by omega)
    have place : hunk.ptrnLines + 1 + i + 1 = hunk.ptrnLines + 1 + (i + 1) := by omega
    obtain ⟨line, len, char⟩ := turned.new (i + 1) (by omega) (by omega)
    obtain ⟨line', len', char'⟩ := back.old (i + 1) (by omega) (by rw [turned.ptrnLines]; omega)
    rw [back.ptrnLines, turned.replLines] at line' len' char'
    rw [place, line', len', char', line, len, char, twice]
    exact ⟨rfl, rfl, rfl⟩

/-- `@@ -1 +0,0 @@` -/
def emptied : Stream where
  rest := ascii ['@', '@', ' ', '-', '1', ' ', '+', '0', ',', '0', ' ', '@', '@', '\n', '-', 'a', '\n']
  inputLine := 0

end Netbase.Patch.Swap
