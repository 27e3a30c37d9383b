import Mathlib.Tactic.IntervalCases
import Netbase.Patch.Main

/-!
# Fuzz and context

A hunk that is not found is looked for again with `fuzz` lines left out at each end of
its old side, as long as the fuzz does not exceed `p_context`.  That number is the
length of the shortest run of context behind which a change follows, so that it says
nothing about a hunk that starts or ends with a change.
-/

namespace Netbase.Patch.Fuzz

open Netbase.Text
open Netbase.Patch.Input
open Netbase.Patch.Pch
open Netbase.Patch.Locate
open Netbase.Patch.Apply
open Netbase.Patch.Main

/-! ## The fuzz of the last call -/

variable {hunk : Hunk} {fuzz : Nat} {attempt : Attempt} {env : Env}

theorem pchSwap_context {swapped : Hunk} (done : pchSwap hunk = .ok swapped) :
    swapped.context = hunk.context := by
  unfold pchSwap at done
  dsimp only at done
  split at done
  · cases done
  · split at done
    · cases done
    · cases done
      rfl

structure Added (before : List Call) (fuzz : Nat) (context : Int) (calls : List Call)
    (hunk : Hunk) : Prop where
  calls : ∃ more, calls = before ++ more ∧ more ≠ [] ∧ ∀ call ∈ more, call.fuzz = fuzz
  context : hunk.context = context

theorem Added.last {before front : List Call} {context : Int} {call : Call}
    (added : Added before fuzz context (front ++ [call]) hunk) : call.fuzz = fuzz := by
  obtain ⟨more, joined, some_, each⟩ := added.calls
  rcases List.eq_nil_or_concat' more with rfl | ⟨init, last, rfl⟩
  · exact absurd rfl some_
  · rw [← List.append_assoc] at joined
    have same := (List.append_inj' joined rfl).2
    rw [List.singleton_inj.mp same]
    exact each last (List.mem_append_right _ (List.mem_singleton_self _))

theorem Added.putBack {before : List Call} {context : Int} {result : Attempt}
    (done : attempt.putBack = .ok result)
    (added : Added before fuzz context attempt.config.calls attempt.hunk) :
    Added before fuzz context result.config.calls result.hunk := by
  unfold Attempt.putBack at done
  split at done
  · cases done
  · next hunk swapped =>
      cases done
      exact ⟨added.calls, (pchSwap_context swapped).trans added.context⟩

theorem locate_calls (env : Env) (config : Config) (hunk : Hunk) (fuzz : Nat) :
    ∃ call, (config.locate env hunk fuzz).2.calls = config.calls ++ [call] ∧ call.fuzz = fuzz :=
  ⟨_, rfl, rfl⟩

theorem tryReversed_added {config : Config} (tried : tryReversed env config hunk fuzz = .ok attempt) :
    Added config.calls fuzz hunk.context attempt.config.calls attempt.hunk := by
  unfold tryReversed at tried
  split at tried
  · cases tried
  · next swapped flipped =>
      dsimp only at tried
      obtain ⟨call, calls, same⟩ :=
        locate_calls env { config with reverse := !config.reverse } swapped fuzz
      have added : Added config.calls fuzz hunk.context
          (Config.locate env { config with reverse := !config.reverse } swapped fuzz).2.calls
          swapped :=
        ⟨⟨[call], calls, List.cons_ne_nil _ _, fun other inside => by
          rw [List.mem_singleton.mp inside, same]⟩, pchSwap_context flipped⟩
      split at tried
      · refine Added.putBack tried ?_
        exact added
      · split at tried
        · split at tried
          · cases tried
          · next inner back =>
              have kept : Added config.calls fuzz hunk.context inner.config.calls inner.hunk := by
                refine Added.putBack back ?_
                exact added
              cases tried
              exact kept
        · split at tried
          · cases tried
            exact added
          · split at tried
            · refine Added.putBack tried ?_
              exact added
            · cases tried
              exact added

theorem tryOnce_added {config : Config} (tried : tryOnce env config hunk fuzz = .ok attempt) :
    Added config.calls fuzz hunk.context attempt.config.calls attempt.hunk := by
  obtain ⟨call, calls, same⟩ := locate_calls env config hunk fuzz
  unfold tryOnce at tried
  dsimp only at tried
  split at tried
  · obtain ⟨⟨more, joined, some_, each⟩, context⟩ := tryReversed_added tried
    rw [calls, List.append_assoc] at joined
    refine ⟨⟨[call] ++ more, joined, List.cons_ne_nil _ _, fun other inside => ?_⟩, context⟩
    rcases List.mem_cons.mp inside with rfl | later
    · exact same
    · exact each other later
  · cases tried
    exact ⟨⟨[call], calls, List.cons_ne_nil _ _, fun other inside => by
      rw [List.mem_singleton.mp inside, same]⟩, rfl⟩

theorem tryFuzz_added {limit : Int} {fuel : Nat} {config : Config}
    (within : (fuzz : Int) ≤ max 0 limit)
    (tried : tryFuzz env limit fuel config hunk fuzz = .ok attempt) :
    ∃ before last, Added before last hunk.context attempt.config.calls attempt.hunk ∧
      (last : Int) ≤ max 0 limit := by
  induction fuel generalizing config hunk fuzz with
  | zero => exact ⟨config.calls, fuzz, tryOnce_added tried, within⟩
  | succ fuel ih =>
      rw [tryFuzz] at tried
      split at tried
      · cases tried
      · next first once =>
          have added := tryOnce_added once
          split at tried
          · next again =>
              obtain ⟨before, last, later, bound⟩ := ih (by push_cast; omega) tried
              exact ⟨before, last, added.context ▸ later, bound⟩
          · cases tried
            exact ⟨config.calls, fuzz, added, within⟩

theorem nextAttempt_fuzz {config : Config} (found : nextAttempt env config = .ok (some attempt))
    (going : attempt.config.skipRestOfPatch = false) (applied : attempt.position ≠ 0) :
    ∀ front call, attempt.config.calls = front ++ [call] →
      (call.fuzz : Int) ≤ max 0 (mymaxfuzz env attempt.hunk) := by
  unfold nextAttempt at found
  split at found
  · cases found
  · cases found
  · next hunk stream _ =>
      split at found
      · cases found
      · next hunk _ =>
          split at found
          · cases found
          · next staged =>
              cases found
              unfold locateStage at staged
              split at staged
              · cases staged
                exact absurd rfl applied
              · obtain ⟨before, last, added, bound⟩ := tryFuzz_added (by simp) staged
                intro front call calls
                have limit : mymaxfuzz env attempt.hunk = mymaxfuzz env hunk := by
                  unfold mymaxfuzz
                  rw [added.context]
                rw [calls] at added
                rw [added.last, limit]
                exact bound

/-! ## What is compared -/

/-- `apply_hunk` deletes the input line at this line of the pattern. -/
def Deletes (hunk : Hunk) (k : Nat) : Prop :=
  1 ≤ k ∧ k ≤ hunk.ptrnLines ∧ hunk.slots.char k = .delete

/-- The call of `patch_match` that found the position compared the input line at this
line of the pattern, and found it equal. -/
def Compared (env : Env) (call : Call) (k : Nat) : Prop :=
  ∃ i ∈ List.range (call.hunk.ptrnLines - 2 * call.fuzz), k = 1 + call.fuzz + i ∧
    lineMatches env.canonicalize env.input call.hunk (call.position + call.fuzz + i) k = true

theorem recorded_matches {call : Call} (recorded : call.Recorded env)
    (nonempty : call.hunk.ptrnLines ≠ 0) (found : call.position ≠ 0) :
    ∀ i ∈ List.range (call.hunk.ptrnLines - 2 * call.fuzz),
      lineMatches env.canonicalize env.input call.hunk (call.position + call.fuzz + i)
        (1 + call.fuzz + i) = true := by
  unfold Call.Recorded at recorded
  have all (offset : Int) (matched : patchMatch env.canonicalize env.input call.hunk
      (firstGuess call.progress call.hunk) offset call.fuzz = true)
      (position : call.position = firstGuess call.progress call.hunk + offset) :
      ∀ i ∈ List.range (call.hunk.ptrnLines - 2 * call.fuzz),
        lineMatches env.canonicalize env.input call.hunk (call.position + call.fuzz + i)
          (1 + call.fuzz + i) = true := by
    rw [position]
    exact List.all_eq_true.mp matched
  rcases locateHunk_cases nonempty with
    ⟨_, matched, result⟩ | ⟨_, offset, matched, _, -, result⟩ | result
  · rw [result, Prod.mk.injEq] at recorded
    exact all 0 matched (by rw [Int.add_zero]; exact recorded.1.symm)
  · rw [result, Prod.mk.injEq] at recorded
    exact all offset matched recorded.1.symm
  · rw [result, Prod.mk.injEq] at recorded
    exact absurd recorded.1.symm found

theorem compared_iff {call : Call} (recorded : call.Recorded env) (found : call.position ≠ 0)
    {k : Nat} (inside : 1 ≤ k ∧ k ≤ call.hunk.ptrnLines) :
    Compared env call k ↔ call.fuzz < k ∧ k + call.fuzz ≤ call.hunk.ptrnLines := by
  constructor
  · rintro ⟨i, listed, rfl, -⟩
    have below := List.mem_range.mp listed
    omega
  · intro window
    have listed : k - 1 - call.fuzz ∈ List.range (call.hunk.ptrnLines - 2 * call.fuzz) :=
      List.mem_range.mpr (by omega)
    have place : 1 + call.fuzz + (k - 1 - call.fuzz) = k := by omega
    have equal := recorded_matches recorded (by omega) found _ listed
    rw [place] at equal
    exact ⟨_, listed, place.symm, equal⟩

/-- The old side begins and ends with at least this many lines of context. -/
def Margins (hunk : Hunk) (count : Int) : Prop :=
  ∀ k, Deletes hunk k → count < k ∧ k + count ≤ hunk.ptrnLines

/--
Along every run, a hunk about to be applied was found by a call whose fuzz is within
`mymaxfuzz`, and this call compared every line that is going to be deleted exactly when
no deletion is among the lines that its fuzz leaves out at the two ends.  It cannot be
where the old side has as much context at both ends as the fuzz may grow.
-/
theorem deleted_compared_iff {env : Env} {reverse : Bool} {replies : List (List Byte)}
    {text : List Byte} {attempt : Attempt}
    (located : Located env (Config.start reverse replies text) attempt)
    (going : attempt.config.skipRestOfPatch = false) (applied : attempt.position ≠ 0) :
    ∃ front call, attempt.config.calls = front ++ [call] ∧ call.position = attempt.position ∧
      call.hunk = attempt.hunk ∧ (call.fuzz : Int) ≤ max 0 (mymaxfuzz env attempt.hunk) ∧
      ((∀ k, Deletes attempt.hunk k → Compared env call k) ↔ Margins attempt.hunk call.fuzz) ∧
      (Margins attempt.hunk (mymaxfuzz env attempt.hunk) →
        ∀ k, Deletes attempt.hunk k → Compared env call k) := by
  obtain ⟨logged, latest⟩ := located.sound (Logged.start env reverse replies text)
  obtain ⟨front, call, calls, position, hunk, -⟩ := latest applied going
  obtain ⟨_, found⟩ := located
  have bound := nextAttempt_fuzz found going applied front call calls
  have recorded := logged.recorded call (by simp [calls])
  have window (k : Nat) (deletes : Deletes attempt.hunk k) :
      Compared env call k ↔ call.fuzz < k ∧ k + call.fuzz ≤ attempt.hunk.ptrnLines := by
    rw [← hunk] at deletes ⊢
    exact compared_iff recorded (position ▸ applied) ⟨deletes.1, deletes.2.1⟩
  refine ⟨front, call, calls, position, hunk, bound, ?_, fun margins k deletes => ?_⟩
  · refine forall_congr' fun k => forall_congr' fun deletes => ?_
    rw [window k deletes]
    omega
  · have margin := margins k deletes
    have inside := deletes.1
    refine (window k deletes).mpr ?_
    have upper := deletes.2.1
    omega

/-- A file whose first line is not the one that the hunk deletes. -/
def strangeFile : List Byte := ascii ['x', '\n', 'b', '\n']

/-- A hunk that deletes the first line of a file. -/
def firstLinePatch : List Byte :=
  ascii ['@', '@', ' ', '-', '1', ',', '2', ' ', '+', '1', ' ', '@', '@', '\n',
    '-', 'a', '\n', ' ', 'b', '\n']

/-- The options of a run without any. -/
def fuzzyEnv (file : List Byte) : Env := { plainEnv file with maxfuzz := 2 }

/-- The line `x` is deleted although it was compared to nothing. -/
theorem strangeFile_deletes_x :
    ∃ attempt, Located (fuzzyEnv strangeFile) (Config.start false [] firstLinePatch) attempt ∧
      attempt.position = 1 ∧ attempt.config.skipRestOfPatch = false ∧
      (∃ front call, attempt.config.calls = front ++ [call] ∧ call.fuzz = 1 ∧
        Deletes attempt.hunk 1 ∧ ¬ Compared (fuzzyEnv strangeFile) call 1) ∧
      (∃ config, applyStage (fuzzyEnv strangeFile) attempt = .ok config ∧
        config.out.lastFrozenLine = 1 ∧ config.out.ofp = []) := by
  refine ⟨_, .intro .refl rfl, rfl, rfl,
    ⟨[_], _, rfl, rfl, ⟨by decide, by decide, rfl⟩, ?_⟩, _, rfl, rfl, rfl⟩
  rintro ⟨i, listed, -⟩
  have none_ : i ∈ List.range 0 := listed
  exact absurd none_ List.not_mem_nil

/-- A file in which the line before the deleted one has changed. -/
def changedFile : List Byte := ascii ['q', '\n', 'a', '\n', 'r', '\n']

/-- A hunk with a line of context on both sides of the deleted one. -/
def middleLinePatch : List Byte :=
  ascii ['@', '@', ' ', '-', '1', ',', '3', ' ', '+', '1', ',', '2', ' ', '@', '@', '\n',
    ' ', 'p', '\n', '-', 'a', '\n', ' ', 'r', '\n']

/-- It is found with fuzz 1, and the deleted line has been compared. -/
theorem changedFile_compared :
    ∃ attempt, Located (fuzzyEnv changedFile) (Config.start false [] middleLinePatch) attempt ∧
      ∃ front call, attempt.config.calls = front ++ [call] ∧
        ∀ k, Deletes attempt.hunk k → Compared (fuzzyEnv changedFile) call k := by
  have located : Located (fuzzyEnv changedFile) (Config.start false [] middleLinePatch) _ :=
    .intro .refl rfl
  obtain ⟨front, call, calls, -, -, -, -, enough⟩ :=
    deleted_compared_iff located rfl (by decide)
  refine ⟨_, located, front, call, calls, enough fun k deletes => ?_⟩
  obtain ⟨lower, upper, mark⟩ := deletes
  have small : k ≤ 3 := upper
  interval_cases k
  · exact absurd mark (by decide)
  · exact ⟨by decide, by decide⟩
  · exact absurd mark (by decide)

end Netbase.Patch.Fuzz
