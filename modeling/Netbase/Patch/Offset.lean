import Netbase.Patch.Main

/-!
# The offset carried between hunks

`locate_hunk` keeps in `last_offset` how far the last displaced hunk was found
from its guess, and the next hunk is guessed from there.  The guess already
contains the offset left by the hunk before, so two displacements in a row do
not add up.
-/

namespace Netbase.Patch.Offset

open Netbase.Text
open Netbase.Patch.Input
open Netbase.Patch.Pch
open Netbase.Patch.Locate
open Netbase.Patch.Apply
open Netbase.Patch.Main

/-- The call returned a position for a nonempty pattern. -/
def Succeeds (call : Call) : Prop := call.position ≠ 0 ∧ call.hunk.ptrnLines ≠ 0

def GuessMatches (env : Env) (call : Call) : Prop :=
  firstGuess call.progress call.hunk ≤ env.input.inputLines ∧
    patchMatch env.canonicalize env.input call.hunk (firstGuess call.progress call.hunk) 0
      call.fuzz = true

/--
After each successful call `last_offset` is the displacement of its hunk, and
the next call first tries its own hunk at the same displacement.
-/
structure TracksOffset (calls : List Call) : Prop where
  offset : ∀ call ∈ calls, Succeeds call → call.lastOffset = call.position - call.hunk.first
  nextGuess : ∀ front call next back, calls = front ++ call :: next :: back → Succeeds call →
    firstGuess next.progress next.hunk = next.hunk.first + (call.position - call.hunk.first)

theorem tracks_iff {env : Env} {call : Call} (recorded : call.Recorded env)
    (succeeds : Succeeds call) :
    call.lastOffset = call.position - call.hunk.first ↔
      call.progress.lastOffset = 0 ∨ GuessMatches env call := by
  obtain ⟨found, nonempty⟩ := succeeds
  unfold Call.Recorded at recorded
  unfold GuessMatches
  rcases locateHunk_cases nonempty with
    ⟨inside, matched, result⟩ | ⟨miss, offset, _, bounds, -, result⟩ | result
  · rw [result, Prod.mk.injEq] at recorded
    refine ⟨fun _ => Or.inr ⟨inside, matched⟩, fun _ => ?_⟩
    rw [← recorded.1, ← recorded.2]
    simp only [firstGuess]
    omega
  · rw [result, Prod.mk.injEq] at recorded
    rw [← recorded.1, ← recorded.2]
    simp only [firstGuess]
    constructor
    · intro tracked
      exact Or.inl (by omega)
    · rintro (zero | hit)
      · omega
      · exact absurd hit miss
  · rw [result, Prod.mk.injEq] at recorded
    exact absurd recorded.1.symm found

/--
Along every run `last_offset` is the displacement of the last located hunk
exactly when each successful call started from offset zero or matched at its
first guess.
-/
theorem tracksOffset_iff {env : Env} {reverse : Bool} {replies : List (List Byte)}
    {text : List Byte} {attempt : Attempt}
    (located : Located env (Config.start reverse replies text) attempt) :
    TracksOffset attempt.config.calls ↔
      ∀ call ∈ attempt.config.calls, Succeeds call →
        call.progress.lastOffset = 0 ∨ GuessMatches env call := by
  obtain ⟨logged, -⟩ := located.sound (Logged.start env reverse replies text)
  constructor
  · intro tracks call membership succeeds
    exact (tracks_iff (logged.recorded call membership) succeeds).mp
      (tracks.offset call membership succeeds)
  · intro anchored
    have offset (call : Call) (membership : call ∈ attempt.config.calls)
        (succeeds : Succeeds call) : call.lastOffset = call.position - call.hunk.first :=
      (tracks_iff (logged.recorded call membership) succeeds).mpr
        (anchored call membership succeeds)
    refine ⟨offset, fun front call next back split succeeds => ?_⟩
    have handed := Chained.handover (split ▸ logged.chained)
    have tracked := offset call (by simp [split]) succeeds
    rw [firstGuess, handed, tracked]

/-- The file `p a q b`, one letter a line. -/
def twiceDisplacedFile : List Byte :=
  ascii ['p', '\n', 'a', '\n', 'q', '\n', 'b', '\n']

/-- Two hunks, each one line above the place where its text is. -/
def twiceDisplacedPatch : List Byte :=
  ascii ['@', '@', ' ', '-', '1', ' ', '+', '1', ' ', '@', '@', '\n',
    '-', 'a', '\n', '+', 'A', '\n',
    '@', '@', ' ', '-', '2', ' ', '+', '2', ' ', '@', '@', '\n',
    '-', 'b', '\n', '+', 'B', '\n']

/-- In that run the second hunk leaves the offset 1 although it moved by 2. -/
theorem twiceDisplaced_loses_offset :
    ∃ attempt, Located (plainEnv twiceDisplacedFile)
        (Config.start false [] twiceDisplacedPatch) attempt ∧
      ¬ TracksOffset attempt.config.calls := by
  refine ⟨_, .intro (.step .refl rfl) rfl, fun tracks => ?_⟩
  have second := tracks.offset _ (List.mem_cons_of_mem _ (List.mem_singleton_self _))
    ⟨by decide, by decide⟩
  exact absurd second (by decide)

/-- Its first hunk starts from offset zero and is tracked. -/
theorem onceDisplaced_tracksOffset :
    ∃ attempt, Located (plainEnv twiceDisplacedFile)
        (Config.start false [] twiceDisplacedPatch) attempt ∧
      attempt.config.lastOffset = 1 ∧ TracksOffset attempt.config.calls := by
  have located : Located (plainEnv twiceDisplacedFile)
      (Config.start false [] twiceDisplacedPatch) _ := .intro .refl rfl
  refine ⟨_, located, rfl, (tracksOffset_iff located).mpr ?_⟩
  intro call membership _
  rw [List.mem_singleton.mp membership]
  exact Or.inl rfl

end Netbase.Patch.Offset
