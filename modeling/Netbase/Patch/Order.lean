import Netbase.Patch.Main

/-!
# The order in which hunks reach the output

`copy_till` gives up when the first changed line of a hunk is not behind
`last_frozen_line`.  `locate_hunk` is meant to rule this out: its backward search
stops `p_context` lines before `last_frozen_line`.  A hunk without leading
context keeps the initial `p_context` of 100, so the search can enter the frozen
lines.  The main result says when no run gets there.
-/

namespace Netbase.Patch.Order

open Netbase.Text
open Netbase.Patch.Input
open Netbase.Patch.Pch
open Netbase.Patch.Locate
open Netbase.Patch.Apply
open Netbase.Patch.Main

/-! ## The first change of a hunk -/

/-- The number of old lines from `old` on before the first change, if there is a change. -/
def changeAfter (hunk : Hunk) : Nat → Nat → Nat → Option Nat
  | 0, _, _ => none
  | fuel + 1, old, new =>
      if old ≤ hunk.ptrnLines ∧ hunk.slots.char old = .delete then some 0
      else if new > hunk.endLine then none
      else if hunk.slots.char new = .insert then some 0
      else if old ≤ hunk.ptrnLines ∧ hunk.slots.char new = hunk.slots.char old ∧
          hunk.slots.char new = .context then
        (changeAfter hunk fuel (old + 1) (new + 1)).map (· + 1)
      else none

def leadingContext (hunk : Hunk) : Option Nat :=
  changeAfter hunk (hunk.ptrnLines + hunk.endLine + 2) 1 (firstNew hunk)

def Ordered (hunk : Hunk) (lastFrozenLine position : Int) : Prop :=
  ∀ lead, leadingContext hunk = some lead → lastFrozenLine < position + lead

variable {hunk : Hunk}

theorem changeAfter_fuel {fuel more old new lead : Nat}
    (found : changeAfter hunk fuel old new = some lead) (enough : lead < more) :
    changeAfter hunk more old new = some lead := by
  induction fuel generalizing more old new lead with
  | zero => cases found
  | succ fuel ih =>
      obtain ⟨more, rfl⟩ : ∃ less, more = less + 1 := ⟨more - 1, by omega⟩
      rw [changeAfter] at found ⊢
      split at found
      · next deleted => rwa [if_pos deleted]
      · next kept =>
          rw [if_neg kept]
          split at found
          · cases found
          · next inside =>
              rw [if_neg inside]
              split at found
              · next inserted => rwa [if_pos inserted]
              · next uninserted =>
                  rw [if_neg uninserted]
                  split at found
                  · next context =>
                      obtain ⟨shorter, ahead, rfl⟩ := Option.map_eq_some_iff.mp found
                      rw [if_pos context, ih ahead (by omega)]
                      rfl
                  · cases found

theorem changeAfter_le {fuel old new lead : Nat} (found : changeAfter hunk fuel old new = some lead) :
    lead = 0 ∨ old + lead ≤ hunk.ptrnLines + 1 := by
  induction fuel generalizing old new lead with
  | zero => cases found
  | succ fuel ih =>
      rw [changeAfter] at found
      split at found
      · cases found
        exact Or.inl rfl
      · split at found
        · cases found
        · split at found
          · cases found
            exact Or.inl rfl
          · split at found
            · next context =>
                obtain ⟨shorter, ahead, rfl⟩ := Option.map_eq_some_iff.mp found
                rcases ih ahead with rfl | bound
                · exact Or.inr (by omega)
                · exact Or.inr (by omega)
            · cases found

theorem leadingContext_of_changeAfter {fuel lead : Nat}
    (found : changeAfter hunk fuel 1 (firstNew hunk) = some lead) :
    leadingContext hunk = some lead := by
  apply changeAfter_fuel found
  rcases changeAfter_le found with rfl | bound <;> omega

/-! ## The walk never goes back -/

theorem copyLines_frozen (input : PlanA) (lastline : Int) (endoffile : Bool) (count : Nat)
    (out : Output) :
    (copyLines input lastline endoffile count out).lastFrozenLine =
      out.lastFrozenLine + count := by
  induction count generalizing out with
  | zero => simp [copyLines]
  | succ count ih =>
      have dumped (line : Int) (newline : Bool) (out : Output) :
          (dumpLine input line newline out).lastFrozenLine = out.lastFrozenLine := by
        unfold dumpLine
        split <;> rfl
      rw [copyLines, ih, dumped]
      push_cast
      omega

/-- `copy_till` freezes exactly the lines up to its argument. -/
theorem copyTill_ok (input : PlanA) {lastline : Int} (endoffile : Bool) {out : Output}
    (behind : out.lastFrozenLine ≤ lastline) :
    ∃ copied, copyTill input lastline endoffile out = .ok copied ∧
      copied.lastFrozenLine = lastline := by
  refine ⟨_, if_neg (by omega), ?_⟩
  rw [copyLines_frozen]
  omega

theorem walkCopyTill_ok (input : PlanA) {before : Int} {walk : Walk}
    (behind : walk.out.lastFrozenLine ≤ before + walk.old - 1) :
    ∃ out, walk.copyTill input before = .ok { walk with out := out } ∧
      out.lastFrozenLine = before + walk.old - 1 := by
  obtain ⟨out, copied, frozen⟩ := copyTill_ok input false behind
  exact ⟨out, by rw [Walk.copyTill, copied], frozen⟩

theorem delete_frozen (defines : Option Defines) (hunk : Hunk) (walk : Walk) :
    (walk.delete defines hunk).old = walk.old + 1 ∧
      (walk.delete defines hunk).new = walk.new ∧
      (walk.delete defines hunk).out.lastFrozenLine = walk.out.lastFrozenLine + 1 := by
  unfold Walk.delete Walk.openDeleted
  cases defines with
  | none => exact ⟨rfl, rfl, rfl⟩
  | some defines => cases walk.defState <;> exact ⟨rfl, rfl, rfl⟩

theorem openInserted_frozen (defines : Option Defines) (walk : Walk) :
    (walk.openInserted defines).old = walk.old ∧
      (walk.openInserted defines).new = walk.new ∧
      (walk.openInserted defines).out.lastFrozenLine = walk.out.lastFrozenLine := by
  unfold Walk.openInserted
  cases defines with
  | none => exact ⟨rfl, rfl, rfl⟩
  | some defines => cases walk.defState <;> exact ⟨rfl, rfl, rfl⟩

theorem close_frozen (defines : Option Defines) (walk : Walk) :
    (walk.close defines).old = walk.old ∧ (walk.close defines).new = walk.new ∧
      (walk.close defines).out.lastFrozenLine = walk.out.lastFrozenLine := by
  unfold Walk.close
  cases defines with
  | none => exact ⟨rfl, rfl, rfl⟩
  | some defines =>
      dsimp only
      split <;> exact ⟨rfl, rfl, rfl⟩

def Behind (hunk : Hunk) (before : Int) (walk : Walk) : Prop :=
  ∀ fuel lead, changeAfter hunk fuel walk.old walk.new = some lead →
    walk.out.lastFrozenLine ≤ before + walk.old + lead - 1

theorem Behind.of_frozen {before : Int} {walk : Walk}
    (frozen : walk.out.lastFrozenLine ≤ before + walk.old - 1) : Behind hunk before walk :=
  fun _ _ _ => by omega

/-- A context line moves both halves and keeps what is ahead. -/
theorem Behind.context {before : Int} {walk : Walk} {defines : Option Defines}
    (behind : Behind hunk before walk) (inside : walk.old ≤ hunk.ptrnLines)
    (kept : hunk.slots.char walk.old ≠ .delete) (more : ¬ walk.new > hunk.endLine)
    (uninserted : hunk.slots.char walk.new ≠ .insert)
    (same : hunk.slots.char walk.new = hunk.slots.char walk.old)
    (context : hunk.slots.char walk.new = .context) :
    Behind hunk before ({ walk with old := walk.old + 1, new := walk.new + 1 }.close defines) := by
  obtain ⟨old, new, frozen⟩ :=
    close_frozen defines { walk with old := walk.old + 1, new := walk.new + 1 }
  intro fuel lead ahead
  rw [old, new] at ahead
  have now : changeAfter hunk (fuel + 1) walk.old walk.new = some (lead + 1) := by
    rw [changeAfter, if_neg (fun both => kept both.2), if_neg more, if_neg uninserted,
      if_pos ⟨inside, same, context⟩, ahead]
    rfl
  have bound := behind (fuel + 1) (lead + 1) now
  rw [frozen, old]
  push_cast at bound ⊢
  omega

/-- The walk keeps its invariant and never meets `misordered hunks`. -/
theorem walkHunk_behind (input : PlanA) (defines : Option Defines) {before : Int} (fuel : Nat)
    {walk : Walk} (behind : Behind hunk before walk) :
    walkHunk input defines hunk before fuel walk ≠ .error .misordered ∧
      ∀ final, walkHunk input defines hunk before fuel walk = .ok final →
        Behind hunk before final := by
  induction fuel generalizing walk with
  | zero =>
      refine ⟨by simp [walkHunk], fun final done => ?_⟩
      cases done
      exact behind
  | succ fuel ih =>
      rw [walkHunk]
      by_cases inside : walk.old ≤ hunk.ptrnLines
      · rw [if_pos inside]
        by_cases deleted : hunk.slots.char walk.old = .delete
        · have now : changeAfter hunk 1 walk.old walk.new = some 0 := if_pos ⟨inside, deleted⟩
          obtain ⟨out, copied, frozen⟩ :=
            walkCopyTill_ok input (by simpa using behind 1 0 now)
          rw [if_pos deleted, copied]
          apply ih
          apply Behind.of_frozen
          obtain ⟨old, -, moved⟩ := delete_frozen defines hunk { walk with out := out }
          rw [moved, old]
          push_cast
          omega
        · rw [if_neg deleted]
          by_cases spill : walk.new > hunk.endLine
          · rw [if_pos spill]
            refine ⟨by simp, fun final done => ?_⟩
            cases done
            exact behind
          · rw [if_neg spill]
            by_cases inserted : hunk.slots.char walk.new = .insert
            · have now : changeAfter hunk 1 walk.old walk.new = some 0 := by
                rw [changeAfter, if_neg (fun both => deleted both.2), if_neg spill,
                  if_pos inserted]
              obtain ⟨out, copied, frozen⟩ :=
                walkCopyTill_ok input (by simpa using behind 1 0 now)
              rw [if_pos inserted, copied]
              apply ih
              apply Behind.of_frozen
              obtain ⟨old, -, kept⟩ := openInserted_frozen defines { walk with out := out }
              show (Walk.openInserted defines { walk with out := out }).out.lastFrozenLine ≤
                before + (Walk.openInserted defines { walk with out := out }).old - 1
              rw [kept, old]
              exact le_of_eq frozen
            · rw [if_neg inserted]
              split
              · simp
              · next same =>
                  split
                  · simp
                  · next context =>
                      exact ih (behind.context inside deleted spill inserted
                        (not_not.mp same) (not_not.mp context))
      · rw [if_neg inside]
        refine ⟨by simp, fun final done => ?_⟩
        cases done
        exact behind

theorem applyHunk_ordered (input : PlanA) (defines : Option Defines) {position : Int} {out : Output}
    (ordered : Ordered hunk out.lastFrozenLine position) :
    applyHunk input defines hunk position out ≠ .error .misordered := by
  have start : Behind hunk (position - 1)
      { old := 1, new := firstNew hunk, defState := .outside, out := out } := by
    intro fuel lead found
    have bound := ordered lead (leadingContext_of_changeAfter found)
    dsimp only
    omega
  obtain ⟨safe, kept⟩ := walkHunk_behind input defines (hunk.ptrnLines + hunk.endLine + 1) start
  unfold applyHunk
  dsimp only
  split
  · next failed =>
      rw [failed] at safe
      simpa using safe
  · next walk done =>
      split
      · next inserted =>
          have behind := kept walk done
          have spill : changeAfter hunk 1 walk.old walk.new = some 0 := by
            rw [changeAfter]
            split
            · rfl
            · rw [if_neg (by omega), if_pos inserted.2]
          obtain ⟨copied, reached, -⟩ :=
            walkCopyTill_ok input (by simpa using behind 1 0 spill)
          rw [reached]
          simp
      · simp

/-! ## The first match of a search -/

/-- An offset that a search may take: inside the limits, with the pattern matching there. -/
def Candidate (env : Env) (call : Call) (offset : Int) : Prop :=
  if call.hunk.ptrnLines = 0 then offset = 0
  else
    (offset = 0 ∧ firstGuess call.progress call.hunk ≤ env.input.inputLines ∨
        0 < offset ∧ offset ≤ maxPosOffset env.input call.progress call.hunk ∨
        offset < 0 ∧ -offset ≤ maxNegOffset call.progress call.hunk) ∧
      patchMatch env.canonicalize env.input call.hunk (firstGuess call.progress call.hunk) offset
        call.fuzz = true

def OrderedAt (call : Call) (offset : Int) : Prop :=
  Ordered call.hunk call.progress.lastFrozenLine (firstGuess call.progress call.hunk + offset)

/--
Every offset at which the pattern matches but the hunk would change a frozen
line comes, in the order of the search, after a match that is ordered.
-/
def Clear (env : Env) (call : Call) : Prop :=
  ∀ offset, Candidate env call offset → ¬ OrderedAt call offset →
    ∃ earlier, Candidate env call earlier ∧ OrderedAt call earlier ∧
      searchRank earlier < searchRank offset

theorem locateHunk_first {env : Env} {call : Call} (recorded : call.Recorded env)
    (found : call.position ≠ 0) :
    ∃ offset, Candidate env call offset ∧
      call.position = firstGuess call.progress call.hunk + offset ∧
      ∀ other, Candidate env call other → searchRank offset ≤ searchRank other := by
  unfold Call.Recorded at recorded
  by_cases empty : call.hunk.ptrnLines = 0
  · have result : locateHunk env.canonicalize env.input call.progress call.hunk call.fuzz =
        (firstGuess call.progress call.hunk, call.progress.lastOffset) := if_pos empty
    rw [result, Prod.mk.injEq] at recorded
    refine ⟨0, by rw [Candidate, if_pos empty], by rw [← recorded.1, add_zero], ?_⟩
    intro other candidate
    rw [Candidate, if_pos empty] at candidate
    rw [candidate]
  · rcases locateHunk_cases empty with
      ⟨inside, matched, result⟩ | ⟨miss, offset, matched, bounds, first, result⟩ | result
    · rw [result, Prod.mk.injEq] at recorded
      refine ⟨0, ?_, by rw [← recorded.1, add_zero], fun other _ => ?_⟩
      · rw [Candidate, if_neg empty]
        exact ⟨Or.inl ⟨rfl, inside⟩, matched⟩
      · unfold searchRank
        split <;> omega
    · rw [result, Prod.mk.injEq] at recorded
      refine ⟨offset, ?_, recorded.1.symm, ?_⟩
      · rw [Candidate, if_neg empty]
        exact ⟨Or.inr bounds, matched⟩
      · intro other candidate
        rw [Candidate, if_neg empty] at candidate
        obtain ⟨⟨rfl, inside⟩ | limits, matchedOther⟩ := candidate
        · exact absurd ⟨inside, matchedOther⟩ miss
        · exact first other matchedOther limits
    · rw [result, Prod.mk.injEq] at recorded
      exact absurd recorded.1.symm found

theorem ordered_iff_clear {env : Env} {call : Call} (recorded : call.Recorded env)
    (found : call.position ≠ 0) :
    Ordered call.hunk call.progress.lastFrozenLine call.position ↔ Clear env call := by
  obtain ⟨offset, candidate, position, first⟩ := locateHunk_first recorded found
  rw [position]
  constructor
  · intro ordered other taken garbled
    refine ⟨offset, candidate, ordered, lt_of_le_of_ne (first other taken) fun same => ?_⟩
    have equal : other = offset := by
      unfold searchRank at same
      split at same <;> split at same <;> omega
    exact garbled (equal ▸ ordered)
  · intro clear
    by_contra garbled
    obtain ⟨earlier, taken, -, before⟩ := clear offset candidate garbled
    exact absurd (first earlier taken) (not_le.mpr before)

/--
In every run in which each call of `locate_hunk` is clear, a located hunk
modifies lines behind `last_frozen_line` only and `apply_hunk` never ends in
`misordered hunks`.
-/
theorem located_ordered {env : Env} {reverse : Bool} {replies : List (List Byte)}
    {text : List Byte} {attempt : Attempt}
    (located : Located env (Config.start reverse replies text) attempt)
    (clear : ∀ call ∈ attempt.config.calls, Clear env call) :
    (attempt.config.skipRestOfPatch = false → attempt.position ≠ 0 →
        Ordered attempt.hunk attempt.config.out.lastFrozenLine attempt.position) ∧
      applyStage env attempt ≠ .error .misordered := by
  obtain ⟨logged, latest⟩ := located.sound (Logged.start env reverse replies text)
  have ordered (going : attempt.config.skipRestOfPatch = false) (found : attempt.position ≠ 0) :
      Ordered attempt.hunk attempt.config.out.lastFrozenLine attempt.position := by
    obtain ⟨front, call, calls, position, hunk, frozen⟩ := latest found going
    have membership : call ∈ attempt.config.calls := by simp [calls]
    rw [← position, ← hunk, ← frozen]
    exact (ordered_iff_clear (logged.recorded call membership) (position ▸ found)).mpr
      (clear call membership)
  refine ⟨ordered, ?_⟩
  unfold applyStage
  dsimp only
  split
  · simp
  · next applies =>
      have going : attempt.config.skipRestOfPatch = false := by
        cases skipped : attempt.config.skipRestOfPatch with
        | false => rfl
        | true => exact absurd (Or.inl skipped) applies
      have safe := applyHunk_ordered env.input env.defines
        (ordered going fun zero => applies (Or.inr zero))
      split
      · next failed =>
          rw [failed] at safe
          simpa using safe
      · simp

/-- The file `x a b`, one letter a line. -/
def frozenFile : List Byte := ascii ['x', '\n', 'a', '\n', 'b', '\n']

/-- A hunk that changes line 2 and one whose text is only found at line 1. -/
def frozenPatch : List Byte :=
  ascii ['@', '@', ' ', '-', '2', ' ', '+', '2', ' ', '@', '@', '\n',
    '-', 'a', '\n', '+', 'A', '\n',
    '@', '@', ' ', '-', '3', ' ', '+', '3', ' ', '@', '@', '\n',
    '-', 'x', '\n', '+', 'y', '\n']

/-- The second hunk is located at line 1, in front of the frozen line 2. -/
theorem frozenPatch_misordered :
    ∃ attempt, Located (plainEnv frozenFile) (Config.start false [] frozenPatch) attempt ∧
      attempt.position = 1 ∧ attempt.config.out.lastFrozenLine = 2 ∧
      applyStage (plainEnv frozenFile) attempt = .error .misordered :=
  ⟨_, .intro (.step .refl rfl) rfl, rfl, rfl, rfl⟩

/-- Its first hunk is found where it belongs and is applied. -/
theorem frozenPatch_first_ordered :
    ∃ attempt, Located (plainEnv frozenFile) (Config.start false [] frozenPatch) attempt ∧
      attempt.position = 2 ∧
      applyStage (plainEnv frozenFile) attempt ≠ .error .misordered := by
  have located : Located (plainEnv frozenFile) (Config.start false [] frozenPatch) _ :=
    .intro .refl rfl
  refine ⟨_, located, rfl, (located_ordered located fun call membership => ?_).2⟩
  have recorded := (located.sound (Logged.start _ _ _ _)).1.recorded call membership
  obtain rfl := List.mem_singleton.mp membership
  refine (ordered_iff_clear recorded (by decide)).mp fun lead _ => ?_
  show (0 : Int) < 2 + lead
  omega

end Netbase.Patch.Order
