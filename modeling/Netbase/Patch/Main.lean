import Netbase.Patch.Apply

/-!
# The hunk loop of patch

For each hunk `main` calls `locate_hunk` at growing fuzz, tries the first hunk
reversed when it cannot be found, and then applies or rejects the hunk.  One
turn of the loop is `hunkStep`; a whole patch is `hunkLoop` followed by
`spew_output`.  Every call of `locate_hunk` is recorded in `calls`, which no
step reads.
-/

namespace Netbase.Patch.Main

open Netbase.Text
open Netbase.Patch.Input
open Netbase.Patch.Pch
open Netbase.Patch.Locate
open Netbase.Patch.Apply

/-- The options of a run and the file it patches. -/
structure Env where
  input : PlanA
  maxfuzz : Int
  force : Bool
  batch : Bool
  noreverse : Bool
  canonicalize : Bool
  defines : Option Defines

/-- A plain run: no fuzz, no questions, no `-l` and no `-D`. -/
def plainEnv (file : List Byte) : Env :=
  { input := planA file
    maxfuzz := 0
    force := true
    batch := false
    noreverse := false
    canonicalize := false
    defines := none }

/-- One call of `locate_hunk`: its hunk, fuzz and state, and what it returned. -/
structure Call where
  hunk : Hunk
  fuzz : Nat
  progress : Progress
  position : Int
  lastOffset : Int

structure Config where
  stream : Stream
  reverse : Bool
  skipRestOfPatch : Bool
  hunk : Nat
  failed : Nat
  lastOffset : Int
  out : Output
  /-- The answers still to come from the terminal. -/
  replies : List (List Byte)
  calls : List Call

def Config.progress (config : Config) : Progress :=
  { lastOffset := config.lastOffset, lastFrozenLine := config.out.lastFrozenLine }

/-- Call `locate_hunk` for the current hunk. -/
def Config.locate (env : Env) (config : Config) (hunk : Hunk) (fuzz : Nat) : Int × Config :=
  let found := locateHunk env.canonicalize env.input config.progress hunk fuzz
  (found.1,
    { config with
      lastOffset := found.2
      calls := config.calls ++
        [{ hunk := hunk, fuzz := fuzz, progress := config.progress,
           position := found.1, lastOffset := found.2 }] })

def Config.ask (config : Config) : List Byte × Config :=
  (config.replies.headD [], { config with replies := config.replies.tail })

/-- A position, the hunk as it now stands, and the state. -/
structure Attempt where
  position : Int
  hunk : Hunk
  config : Config

def Attempt.putBack (attempt : Attempt) : Except Fatal Attempt :=
  match pchSwap attempt.hunk with
  | .error e => .error e
  | .ok hunk =>
      .ok
        { attempt with
          hunk := hunk
          config := { attempt.config with reverse := !attempt.config.reverse } }

/-- The first hunk was not found: look for it reversed. -/
def tryReversed (env : Env) (config : Config) (hunk : Hunk) (fuzz : Nat) :
    Except Fatal Attempt :=
  match pchSwap hunk with
  | .error e => .error e
  | .ok swapped =>
      let (position, config) :=
        Config.locate env { config with reverse := !config.reverse } swapped fuzz
      let attempt : Attempt := { position := position, hunk := swapped, config := config }
      if position = 0 then attempt.putBack
      else if env.noreverse then
        match attempt.putBack with
        | .error e => .error e
        | .ok attempt =>
            .ok { attempt with config := { attempt.config with skipRestOfPatch := true } }
      else if env.batch then .ok attempt
      else
        let (answer, config) := config.ask
        if answer.head? = some (byte 'n') then
          let (answer, config) := config.ask
          let skip := decide (answer.head? ≠ some (byte 'y')) || config.skipRestOfPatch
          { position := 0, hunk := swapped,
            config := { config with skipRestOfPatch := skip } : Attempt }.putBack
        else .ok { attempt with config := config }

/-- The body of the fuzz loop. -/
def tryOnce (env : Env) (config : Config) (hunk : Hunk) (fuzz : Nat) : Except Fatal Attempt :=
  let (position, config) := config.locate env hunk fuzz
  if config.hunk = 1 ∧ position = 0 ∧ env.force = false then tryReversed env config hunk fuzz
  else .ok { position := position, hunk := hunk, config := config }

/-- Try growing fuzz up to `mymaxfuzz`; at least once. -/
def tryFuzz (env : Env) (mymaxfuzz : Int) :
    Nat → Config → Hunk → Nat → Except Fatal Attempt
  | 0, config, hunk, fuzz => tryOnce env config hunk fuzz
  | fuel + 1, config, hunk, fuzz =>
      match tryOnce env config hunk fuzz with
      | .error e => .error e
      | .ok attempt =>
          if attempt.config.skipRestOfPatch = false ∧ attempt.position = 0 ∧
              (fuzz : Int) + 1 ≤ mymaxfuzz then
            tryFuzz env mymaxfuzz fuel attempt.config attempt.hunk (fuzz + 1)
          else .ok attempt

/-- `mymaxfuzz` for a hunk. -/
def mymaxfuzz (env : Env) (hunk : Hunk) : Int :=
  if env.maxfuzz < hunk.context then env.maxfuzz else hunk.context

/-- The locating half of a turn; a patch that is being skipped locates nothing. -/
def locateStage (env : Env) (config : Config) (hunk : Hunk) : Except Fatal Attempt :=
  if config.skipRestOfPatch then .ok { position := 0, hunk := hunk, config := config }
  else
    let limit := mymaxfuzz env hunk
    tryFuzz env limit limit.toNat config hunk 0

/-- Read the next hunk and locate it; `none` when the patch has no more hunks. -/
def nextAttempt (env : Env) (config : Config) : Except Fatal (Option Attempt) :=
  match anotherHunk config.stream with
  | .error e => .error e
  | .ok (none, _) => .ok none
  | .ok (some hunk, stream) =>
      match (if config.reverse then pchSwap hunk else .ok hunk) with
      | .error e => .error e
      | .ok hunk =>
          match locateStage env { config with stream := stream, hunk := config.hunk + 1 } hunk with
          | .error e => .error e
          | .ok attempt => .ok (some attempt)

/-- The applying half of a turn: apply or reject the hunk. -/
def applyStage (env : Env) (attempt : Attempt) : Except Fatal Config :=
  let config := attempt.config
  if config.skipRestOfPatch ∨ attempt.position = 0 then
    .ok { config with failed := config.failed + 1 }
  else
    match applyHunk env.input env.defines attempt.hunk attempt.position config.out with
    | .error e => .error e
    | .ok out => .ok { config with out := out }

/-- One turn of the loop. -/
def hunkStep (env : Env) (config : Config) : Except Fatal (Option Config) :=
  match nextAttempt env config with
  | .error e => .error e
  | .ok none => .ok none
  | .ok (some attempt) =>
      match applyStage env attempt with
      | .error e => .error e
      | .ok config => .ok (some config)

/-- All hunks of the patch. -/
def hunkLoop (env : Env) : Nat → Config → Except Fatal Config
  | 0, config => .ok config
  | fuel + 1, config =>
      match hunkStep env config with
      | .error e => .error e
      | .ok none => .ok config
      | .ok (some next) => hunkLoop env fuel next

/-- The state before the first hunk. -/
def Config.start (reverse : Bool) (replies : List (List Byte)) (text : List Byte) : Config :=
  { stream := { rest := text, inputLine := 0 }
    reverse := reverse
    skipRestOfPatch := false
    hunk := 0
    failed := 0
    lastOffset := 0
    out := { lastFrozenLine := 0, ofp := [] }
    replies := replies
    calls := [] }

/-- What a run leaves: the number of rejected hunks and the patched file, if written. -/
structure Outcome where
  failed : Nat
  patched : Option (List Byte)
  deriving DecidableEq

def runPatch (env : Env) (reverse : Bool) (replies : List (List Byte)) (text : List Byte) :
    Except Fatal Outcome :=
  match hunkLoop env (text.length + 1) (Config.start reverse replies text) with
  | .error e => .error e
  | .ok config =>
      if config.skipRestOfPatch then .ok { failed := config.failed, patched := none }
      else
        match spewOutput env.input config.out with
        | .error e => .error e
        | .ok out => .ok { failed := config.failed, patched := some out.ofp }

/-- A configuration that the hunk loop can be in between two hunks. -/
inductive Reachable (env : Env) (start : Config) : Config → Prop where
  | refl : Reachable env start start
  | step {config next : Config} (reached : Reachable env start config)
      (turn : hunkStep env config = .ok (some next)) : Reachable env start next

/-- A state of the loop in which the current hunk has been located. -/
inductive Located (env : Env) (start : Config) : Attempt → Prop where
  | intro {config : Config} {attempt : Attempt} (reached : Reachable env start config)
      (found : nextAttempt env config = .ok (some attempt)) : Located env start attempt

/-! ## The recorded calls -/

/-- The record tells what `locate_hunk` returned. -/
def Call.Recorded (env : Env) (call : Call) : Prop :=
  locateHunk env.canonicalize env.input call.progress call.hunk call.fuzz =
    (call.position, call.lastOffset)

/-- Each call starts from the `last_offset` that the call before it left. -/
def Chained : Int → List Call → Int → Prop
  | start, [], final => start = final
  | start, call :: calls, final =>
      call.progress.lastOffset = start ∧ Chained call.lastOffset calls final

theorem Chained.append {start middle final : Int} {front back : List Call}
    (left : Chained start front middle) (right : Chained middle back final) :
    Chained start (front ++ back) final := by
  induction front generalizing start with
  | nil =>
      cases left
      exact right
  | cons call front ih => exact ⟨left.1, ih left.2⟩

/-- Neighbouring calls of a chained log hand over `last_offset`. -/
theorem Chained.handover {start final : Int} {front back : List Call} {call next : Call}
    (chained : Chained start (front ++ call :: next :: back) final) :
    next.progress.lastOffset = call.lastOffset := by
  induction front generalizing start with
  | nil => exact chained.2.1
  | cons first front ih => exact ih chained.2

structure Logged (env : Env) (config : Config) : Prop where
  recorded : ∀ call ∈ config.calls, call.Recorded env
  chained : Chained 0 config.calls config.lastOffset

theorem Logged.start (env : Env) (reverse : Bool) (replies : List (List Byte))
    (text : List Byte) : Logged env (Config.start reverse replies text) :=
  ⟨by simp [Config.start], rfl⟩

variable {env : Env} {attempt : Attempt}

/-- The log depends on the calls and on `last_offset` only. -/
theorem Logged.congr {config other : Config} (logged : Logged env config)
    (calls : other.calls = config.calls) (offset : other.lastOffset = config.lastOffset) :
    Logged env other :=
  ⟨by rw [calls]; exact logged.recorded, by rw [calls, offset]; exact logged.chained⟩

theorem Logged.locate {config : Config} (logged : Logged env config) (hunk : Hunk) (fuzz : Nat) :
    Logged env (config.locate env hunk fuzz).2 := by
  constructor
  · intro call membership
    rcases List.mem_append.mp membership with earlier | last
    · exact logged.recorded call earlier
    · rw [List.mem_singleton.mp last]
      rfl
  · exact logged.chained.append ⟨rfl, rfl⟩

/-- A nonzero position is the one that the last recorded call returned. -/
def Attempt.Latest (attempt : Attempt) : Prop :=
  attempt.position ≠ 0 → attempt.config.skipRestOfPatch = false →
    ∃ front call, attempt.config.calls = front ++ [call] ∧
      call.position = attempt.position ∧ call.hunk = attempt.hunk ∧
      call.progress.lastFrozenLine = attempt.config.out.lastFrozenLine

/-- What the locating half keeps: the log, the output, and the origin of the position. -/
structure Attempt.Sound (env : Env) (config : Config) (attempt : Attempt) : Prop where
  logged : Logged env attempt.config
  out : attempt.config.out = config.out
  latest : attempt.Latest

theorem Attempt.putBack_cases {result : Attempt} (done : attempt.putBack = .ok result) :
    ∃ hunk, result =
      { attempt with
        hunk := hunk
        config := { attempt.config with reverse := !attempt.config.reverse } } := by
  unfold Attempt.putBack at done
  split at done
  · cases done
  · cases done
    exact ⟨_, rfl⟩

theorem Attempt.Sound.putBack {config : Config} {result : Attempt}
    (logged : Logged env attempt.config) (out : attempt.config.out = config.out)
    (nothing : attempt.position = 0) (done : attempt.putBack = .ok result) :
    result.Sound env config := by
  obtain ⟨hunk, rfl⟩ := Attempt.putBack_cases done
  exact ⟨logged.congr rfl rfl, out, fun nonzero => absurd nothing nonzero⟩

theorem Config.locate_latest (env : Env) (config : Config) (hunk : Hunk) (fuzz : Nat) :
    Attempt.Latest
      { position := (config.locate env hunk fuzz).1
        hunk := hunk
        config := (config.locate env hunk fuzz).2 } :=
  fun _ _ => ⟨config.calls, _, rfl, rfl, rfl, rfl⟩

theorem tryReversed_sound {config : Config} {hunk : Hunk} {fuzz : Nat} (logged : Logged env config)
    (tried : tryReversed env config hunk fuzz = .ok attempt) : attempt.Sound env config := by
  unfold tryReversed at tried
  split at tried
  · cases tried
  · next swapped _ =>
      have flipped : Logged env { config with reverse := !config.reverse } :=
        logged.congr rfl rfl
      have located := flipped.locate swapped fuzz
      have latest := Config.locate_latest env { config with reverse := !config.reverse }
        swapped fuzz
      dsimp only at tried
      split at tried
      · next nothing => exact Attempt.Sound.putBack located rfl nothing tried
      · split at tried
        · split at tried
          · cases tried
          · next inner back =>
              obtain ⟨hunk, rfl⟩ := Attempt.putBack_cases back
              cases tried
              exact ⟨located.congr rfl rfl, rfl, fun _ skipped => by cases skipped⟩
        · split at tried
          · cases tried
            exact ⟨located, rfl, latest⟩
          · split at tried
            · exact Attempt.Sound.putBack (located.congr rfl rfl) rfl rfl tried
            · cases tried
              exact ⟨located.congr rfl rfl, rfl, latest⟩

theorem tryOnce_sound {config : Config} {hunk : Hunk} {fuzz : Nat} (logged : Logged env config)
    (tried : tryOnce env config hunk fuzz = .ok attempt) : attempt.Sound env config := by
  have located := logged.locate hunk fuzz
  unfold tryOnce at tried
  dsimp only at tried
  split at tried
  · have sound := tryReversed_sound located tried
    exact ⟨sound.logged, sound.out, sound.latest⟩
  · cases tried
    exact ⟨located, rfl, Config.locate_latest env config hunk fuzz⟩

theorem tryFuzz_sound {limit : Int} {fuel : Nat} {config : Config} {hunk : Hunk} {fuzz : Nat}
    (logged : Logged env config) (tried : tryFuzz env limit fuel config hunk fuzz = .ok attempt) :
    attempt.Sound env config := by
  induction fuel generalizing config hunk fuzz with
  | zero => exact tryOnce_sound logged tried
  | succ fuel ih =>
      rw [tryFuzz] at tried
      split at tried
      · cases tried
      · next first once =>
          have sound := tryOnce_sound logged once
          split at tried
          · have later := ih sound.logged tried
            exact ⟨later.logged, later.out.trans sound.out, later.latest⟩
          · cases tried
            exact sound

theorem nextAttempt_sound {config : Config} (logged : Logged env config)
    (found : nextAttempt env config = .ok (some attempt)) :
    attempt.Sound env config := by
  unfold nextAttempt at found
  split at found
  · cases found
  · cases found
  · next hunk stream _ =>
      split at found
      · cases found
      · next hunk _ =>
          split at found
          · cases found
          · next staged =>
              cases found
              unfold locateStage at staged
              split at staged
              · cases staged
                exact ⟨logged.congr rfl rfl, rfl, fun nonzero => absurd rfl nonzero⟩
              · have next : Logged env { config with stream := stream, hunk := config.hunk + 1 } :=
                  logged.congr rfl rfl
                have sound := tryFuzz_sound next staged
                exact ⟨sound.logged, sound.out, sound.latest⟩

theorem applyStage_logged {config : Config} (logged : Logged env attempt.config)
    (applied : applyStage env attempt = .ok config) :
    Logged env config := by
  unfold applyStage at applied
  dsimp only at applied
  split at applied
  · cases applied
    exact logged.congr rfl rfl
  · split at applied
    · cases applied
    · cases applied
      exact logged.congr rfl rfl

theorem Reachable.logged {start config : Config} (fresh : Logged env start)
    (reached : Reachable env start config) : Logged env config := by
  induction reached with
  | refl => exact fresh
  | step _ turn ih =>
      unfold hunkStep at turn
      split at turn
      · cases turn
      · cases turn
      · next found =>
          split at turn
          · cases turn
          · next applied =>
              cases turn
              exact applyStage_logged (nextAttempt_sound ih found).logged applied

theorem Located.sound {start : Config} (fresh : Logged env start)
    (located : Located env start attempt) :
    Logged env attempt.config ∧ attempt.Latest := by
  obtain ⟨reached, found⟩ := located
  have sound := nextAttempt_sound (reached.logged fresh) found
  exact ⟨sound.logged, sound.latest⟩

end Netbase.Patch.Main
