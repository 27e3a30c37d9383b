import Netbase.Patch.Input
import Netbase.Patch.Pch

/-!
# Locating a hunk

`locate_hunk` tries the nominal position of a hunk, moved by the offset of the
last displaced hunk, and then positions at growing distance on both sides of it.
`patch_match` compares the pattern of the hunk with the input lines; `fuzz`
lines at each end of the pattern are left out of the comparison.
-/

namespace Netbase.Patch.Locate

open Netbase.Text
open Netbase.Patch.Input
open Netbase.Patch.Pch

/-- `strncmp(a, b, n) == 0`, reading past the end of a list as NUL. -/
def strnEQ : Nat → List Byte → List Byte → Bool
  | 0, _, _ => true
  | n + 1, a, b =>
      if a.headD 0 ≠ b.headD 0 then false
      else if a.headD 0 = 0 then true
      else strnEQ n a.tail b.tail

/-- A `short` length passed as a `size_t`. -/
def toSize (len : Int) : Nat := (len % 18446744073709551616).toNat

/-- The byte of a pattern line before position `len`. -/
def byteBefore (s : List Byte) (len : Int) : Byte :=
  if len ≤ 0 then 0 else s.getD (len.toNat - 1) 0

/-- Match with canonicalized white space (`-l`). -/
def similar : Nat → List Byte → List Byte → Int → Bool
  | 0, _, _, _ => true
  | fuel + 1, a, b, len =>
      if len = 0 then true
      else if isspace (b.headD 0) then
        if !isspace (a.headD 0) then false
        else
          let blank (c : Byte) := isspace c && c ≠ nl
          let skipped := min len.toNat (b.takeWhile blank).length
          let b := b.drop skipped
          let a := a.dropWhile blank
          if a.headD 0 = nl ∨ b.headD 0 = nl then a.headD 0 = b.headD 0
          else similar fuel a b (len - skipped)
      else if a.headD 0 ≠ b.headD 0 then false
      else similar fuel a.tail b.tail (len - 1)

def lineMatches (canonicalize : Bool) (input : PlanA) (hunk : Hunk) (iline : Int)
    (pline : Nat) : Bool :=
  match input.ifetch iline with
  | none => false
  | some ilineptr =>
      let plineptr := hunk.slots.line pline
      let plinelen := hunk.slots.len pline
      let same :=
        if canonicalize then similar (ilineptr.length + plineptr.length + 1) ilineptr plineptr
          plinelen
        else strnEQ (toSize plinelen) ilineptr plineptr
      if !same then false
      else if iline = input.inputLines then
        -- the last line of the file and the pattern line end alike
        if input.lastLineMissingEol then decide (byteBefore plineptr plinelen ≠ nl)
        else decide (byteBefore plineptr plinelen = nl)
      else true

/-- Does the pattern match at line `base + offset`? -/
def patchMatch (canonicalize : Bool) (input : PlanA) (hunk : Hunk) (base offset : Int)
    (fuzz : Nat) : Bool :=
  (List.range (hunk.ptrnLines - 2 * fuzz)).all fun k =>
    lineMatches canonicalize input hunk (base + offset + fuzz + k) (1 + fuzz + k)

/-- The loop over growing offsets: the signed offset of the first match. -/
def searchOffset (matchAt : Int → Bool) (maxPos maxNeg : Int) : Nat → Int → Option Int
  | 0, _ => none
  | fuel + 1, offset =>
      if offset ≤ maxPos ∧ matchAt offset then some offset
      else if offset ≤ maxNeg ∧ matchAt (-offset) then some (-offset)
      else if ¬ offset ≤ maxNeg ∧ ¬ offset ≤ maxPos then none
      else searchOffset matchAt maxPos maxNeg fuel (offset + 1)

/-- The two counters that `locate_hunk` reads and the hunks before it have set. -/
structure Progress where
  lastOffset : Int
  lastFrozenLine : Int

/-- `first_guess` -/
def firstGuess (progress : Progress) (hunk : Hunk) : Int :=
  hunk.first + progress.lastOffset

/-- `max_pos_offset` -/
def maxPosOffset (input : PlanA) (progress : Progress) (hunk : Hunk) : Int :=
  input.inputLines - firstGuess progress hunk - hunk.ptrnLines + 1

/-- `max_neg_offset`, without lines below 1 -/
def maxNegOffset (progress : Progress) (hunk : Hunk) : Int :=
  let guess := firstGuess progress hunk
  let back := guess - progress.lastFrozenLine - 1 + hunk.context
  if back ≥ guess then guess - 1 else back

/-- The position found (0 for none) and the new `last_offset`. -/
def locateHunk (canonicalize : Bool) (input : PlanA) (progress : Progress) (hunk : Hunk)
    (fuzz : Nat) : Int × Int :=
  let guess := firstGuess progress hunk
  if hunk.ptrnLines = 0 then (guess, progress.lastOffset)
  else if guess ≤ input.inputLines ∧ patchMatch canonicalize input hunk guess 0 fuzz then
    (guess, progress.lastOffset)
  else
    let maxPos := maxPosOffset input progress hunk
    let maxNeg := maxNegOffset progress hunk
    match searchOffset (fun offset => patchMatch canonicalize input hunk guess offset fuzz)
        maxPos maxNeg ((max maxPos maxNeg).toNat + 1) 1 with
    | none => (0, progress.lastOffset)
    | some offset => (guess + offset, offset)

/-! ## What a search can return -/

/-- The order in which `locate_hunk` tries offsets: 0, 1, -1, 2, -2, ... -/
def searchRank (offset : Int) : Int := if 0 < offset then 2 * offset - 1 else -2 * offset

theorem searchOffset_some {matchAt : Int → Bool} {maxPos maxNeg : Int} {fuel : Nat}
    {start offset : Int} (positive : 0 < start)
    (found : searchOffset matchAt maxPos maxNeg fuel start = some offset) :
    matchAt offset = true ∧ (0 < offset ∧ offset ≤ maxPos ∨ offset < 0 ∧ -offset ≤ maxNeg) := by
  induction fuel generalizing start with
  | zero => cases found
  | succ fuel ih =>
      rw [searchOffset] at found
      split at found
      · next after =>
          cases found
          exact ⟨after.2, Or.inl ⟨positive, after.1⟩⟩
      · split at found
        · next before =>
            cases found
            exact ⟨before.2, Or.inr ⟨by omega, by omega⟩⟩
        · split at found
          · cases found
          · exact ih (by omega) found

theorem searchOffset_first {matchAt : Int → Bool} {maxPos maxNeg : Int} {fuel : Nat}
    {start offset other : Int} (positive : 0 < start)
    (found : searchOffset matchAt maxPos maxNeg fuel start = some offset)
    (matched : matchAt other = true)
    (limits : start ≤ other ∧ other ≤ maxPos ∨ other ≤ -start ∧ -other ≤ maxNeg) :
    searchRank offset ≤ searchRank other := by
  induction fuel generalizing start with
  | zero => cases found
  | succ fuel ih =>
      rw [searchOffset] at found
      split at found
      · cases found
        unfold searchRank
        split <;> split <;> omega
      · next noneAfter =>
          split at found
          · cases found
            by_cases after : other = start
            · exact absurd ⟨by omega, after ▸ matched⟩ noneAfter
            · unfold searchRank
              split <;> split <;> omega
          · next noneBefore =>
              split at found
              · cases found
              · apply ih (by omega) found
                by_cases after : other = start
                · exact absurd ⟨by omega, after ▸ matched⟩ noneAfter
                · by_cases before : other = -start
                  · exact absurd ⟨by omega, before ▸ matched⟩ noneBefore
                  · omega

/-- The three ways a call with a nonempty pattern ends. -/
theorem locateHunk_cases {canonicalize : Bool} {input : PlanA} {progress : Progress}
    {hunk : Hunk} {fuzz : Nat} (nonempty : hunk.ptrnLines ≠ 0) :
    (firstGuess progress hunk ≤ input.inputLines ∧
        patchMatch canonicalize input hunk (firstGuess progress hunk) 0 fuzz = true ∧
        locateHunk canonicalize input progress hunk fuzz =
          (firstGuess progress hunk, progress.lastOffset)) ∨
      (¬ (firstGuess progress hunk ≤ input.inputLines ∧
          patchMatch canonicalize input hunk (firstGuess progress hunk) 0 fuzz = true) ∧
        ∃ offset, patchMatch canonicalize input hunk (firstGuess progress hunk) offset fuzz = true ∧
          (0 < offset ∧ offset ≤ maxPosOffset input progress hunk ∨
            offset < 0 ∧ -offset ≤ maxNegOffset progress hunk) ∧
          (∀ other, patchMatch canonicalize input hunk (firstGuess progress hunk) other fuzz = true →
            (0 < other ∧ other ≤ maxPosOffset input progress hunk ∨
              other < 0 ∧ -other ≤ maxNegOffset progress hunk) →
            searchRank offset ≤ searchRank other) ∧
          locateHunk canonicalize input progress hunk fuzz =
            (firstGuess progress hunk + offset, offset)) ∨
      locateHunk canonicalize input progress hunk fuzz = (0, progress.lastOffset) := by
  unfold locateHunk
  dsimp only
  rw [if_neg nonempty]
  split
  · next hit => exact Or.inl ⟨hit.1, hit.2, rfl⟩
  · next miss =>
      split
      · exact Or.inr (Or.inr rfl)
      · next offset found =>
          obtain ⟨matched, bounds⟩ := searchOffset_some (by decide) found
          refine Or.inr (Or.inl ⟨miss, offset, matched, bounds, fun other hit limits => ?_, rfl⟩)
          exact searchOffset_first (by decide) found hit (by omega)

end Netbase.Patch.Locate
