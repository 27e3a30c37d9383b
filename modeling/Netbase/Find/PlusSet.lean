import Netbase.Find.Exec
import Netbase.Lib.Buffer
import Netbase.Lib.Outcome

/-!
# The memory for a set of pathnames

`c_exec` allocates a vector for the words of a utility with the pathnames behind them, and a buffer
for the bytes of the pathnames.  `f_exec` fills both, and `run_f_exec` puts a null pointer behind
the last pathname before it executes the utility.
-/

namespace Netbase.Find

open Netbase.Text Netbase.Lib

/-- `ARG_MAX` -/
def ARG_MAX : Nat := 256 * 1024

/-- `MAXARG` -/
def MAXARG : Nat := ARG_MAX - 4 * 1024

/-- `sizeof (char *)` -/
def sizeofPtr : Nat := 8

/-- `ep_maxargs` -/
def maxargs : Nat := min 5000 (ARG_MAX / (sizeofPtr + 16))

/-- An entry of the vector: a null pointer, a word of the command line or a place in the buffer. -/
inductive Ptr where
  | null
  | word (w : List Byte)
  | path (offset : Nat)
  deriving DecidableEq

inductive ExecFault where
  | overrun
  | unterminated
  | notPermitted
  | tooLong
  | insufficient
  deriving DecidableEq

/-- The fields of a node that its set of pathnames needs. -/
structure PlusSet where
  argv : List Ptr
  bxp : Nat
  narg : Nat
  buf : List Byte
  p : Nat
  ebp : Nat

def PlusSet.storePtr (s : PlusSet) (i : Nat) (ptr : Ptr) : Except ExecFault PlusSet :=
  match Lib.store s.argv i [ptr] with
  | some argv => .ok { s with argv := argv }
  | none => .error .overrun

def PlusSet.storePath (s : PlusSet) (xs : List Byte) : Except ExecFault PlusSet :=
  match Lib.store s.buf s.p xs with
  | some buf => .ok { s with buf := buf }
  | none => .error .overrun

/-- The words in front of `;`, or of `+` behind a word `{}`. -/
def terminator : Bool → List (List Byte) → Option (List (List Byte) × Bool)
  | _, [] => none
  | brace, w :: argv =>
      if w = [byte ';'] then some ([], false)
      else if w = [byte '+'] ∧ brace then some ([], true)
      else (terminator (w = [byte '{', byte '}']) argv).map fun read => (w :: read.1, read.2)

/-- The loop over the words, with their number and the bytes they take. -/
def copyWords : List (List Byte) → Nat → Nat → PlusSet → Except ExecFault (Nat × PlusSet)
  | [], _, c, s => .ok (c, s)
  | w :: argv, cnt, c, s =>
      if MAXARG ≤ c + w.length + 1 then .error .tooLong
      else do
        let s ← s.storePtr cnt (.word w)
        copyWords argv (cnt + 1) (c + w.length + 1) s

/-- What is left of `MAXARG` for pathnames, behind words of so many bytes. -/
def roomLeft (c : Nat) : Nat := MAXARG - c - maxargs * sizeofPtr

/-- `c_exec` for a set of pathnames; what the memory holds is left from before. -/
def cExecPlus (junk : Nat → Ptr) (old : Nat → Byte) (words : List (List Byte)) :
    Except ExecFault PlusSet := do
  let cnt := words.length - 1
  let s : PlusSet := ⟨(List.range (cnt + maxargs)).map junk, cnt, 0, [], 0, 0⟩
  let (c, s) ← copyWords words 0 0 s
  if MAXARG ≤ c + maxargs * sizeofPtr then .error .tooLong
  else
    let bufsize := roomLeft c
    let s := { s with buf := (List.range (bufsize + 1)).map old, ebp := bufsize - 1 }
    s.storePtr words.length .null

/-- `c_exec` up to the terminating word, for `{} +`. -/
def cExec (junk : Nat → Ptr) (old : Nat → Byte) (isok : Bool) (argv : List (List Byte)) :
    Except ExecFault (Option PlusSet) :=
  match terminator false argv with
  | none => .error .unterminated
  | some (words, true) =>
      if isok then .error .notPermitted else (cExecPlus junk old words).map some
  | some (_, false) => .ok none

/-- `run_f_exec` -/
def PlusSet.run (s : PlusSet) : Except ExecFault PlusSet := do
  let s ← s.storePtr (s.bxp + s.narg) .null
  let s := { s with narg := 0 }
  let s ← s.storePtr (s.bxp + s.narg) .null
  let s := { s with p := 0 }
  s.storePath [0]

/-- A pathname is copied into the buffer. -/
def PlusSet.add (s : PlusSet) (path : List Byte) : Except ExecFault PlusSet := do
  let s ← s.storePtr (s.bxp + s.narg) (.path s.p)
  let s ← s.storePath (path ++ [0])
  .ok { s with narg := s.narg + 1, p := s.p + path.length + 1 }

/-- `f_exec` -/
def PlusSet.fExec (s : PlusSet) (path : List Byte) : Except ExecFault PlusSet :=
  if s.p + path.length < s.ebp then do
    let s ← s.add path
    if s.narg = maxargs then s.run else .ok s
  else do
    let s ← s.run
    if s.p + path.length < s.ebp then s.add path else .error .insufficient

/-- `plan_cleanup` -/
def PlusSet.cleanup (s : PlusSet) : Except ExecFault PlusSet :=
  if s.narg ≠ 0 then s.run else .ok s

/-- One evaluation for each pathname, and what is left at the end. -/
def PlusSet.evaluate (s : PlusSet) (paths : List (List Byte)) : Except ExecFault PlusSet := do
  (← paths.foldlM PlusSet.fExec s).cleanup

/-- A node from its command line to the end of the traversal. -/
def execPlus (junk : Nat → Ptr) (old : Nat → Byte) (isok : Bool) (argv paths : List (List Byte)) :
    Except ExecFault Unit := do
  match ← cExec junk old isok argv with
  | some s => discard (s.evaluate paths)
  | none => .ok ()

/-! ## Full sets -/

/-- Some set comes to as many pathnames as there may be, if only the room in the buffer decides
when a new set begins. -/
def Crowded (l : Limits) : Batch → List (List Byte) → Prop
  | _, [] => False
  | b, path :: paths =>
      if b.fits l path then (b.add path).args.length = l.maxargs ∨ Crowded l (b.add path) paths
      else Batch.fits ⟨[], 0⟩ l path ∧ Crowded l (Batch.add ⟨[], 0⟩ path) paths

def wordBytes (words : List (List Byte)) : Nat := (words.map fun w => w.length + 1).sum

/-- The limits that a command line leaves. -/
def limitsOf (words : List (List Byte)) : Limits := ⟨maxargs, roomLeft (wordBytes words)⟩

theorem not_crowded_of_few (l : Limits) (paths : List (List Byte)) :
    ∀ b : Batch, b.args.length + paths.length < l.maxargs → ¬ Crowded l b paths := by
  induction paths with
  | nil => exact fun _ _ => id
  | cons path paths ih =>
      intro b few
      rw [List.length_cons] at few
      have one : (b.add path).args.length = b.args.length + 1 := List.length_append
      rw [Crowded]
      split
      · rintro (full | crowded)
        · omega
        · exact ih _ (by omega) crowded
      · rintro ⟨-, crowded⟩
        refine ih _ ?_ crowded
        show 1 + paths.length < l.maxargs
        omega

/-- The memory for a set of pathnames. -/
structure Batched (l : Limits) (b : Batch) (s : PlusSet) : Prop where
  count : s.narg = b.args.length
  used : s.p = b.used
  vector : s.argv.length = s.bxp + maxargs
  ebp : s.ebp = l.bufsize - 1
  buf : s.buf.length = l.bufsize + 1

section

variable {l : Limits} {b : Batch} {s : PlusSet} {path : List Byte}

theorem storePtr_inside {i : Nat} (inside : i < s.argv.length) (ptr : Ptr) :
    ∃ argv, s.storePtr i ptr = .ok { s with argv := argv } ∧ argv.length = s.argv.length := by
  have fits : i + [ptr].length ≤ s.argv.length := inside
  refine ⟨_, by rw [PlusSet.storePtr, Lib.store, if_pos fits], ?_⟩
  exact @store_length _ _ _ [ptr] i (if_pos fits)

theorem storePtr_outside {i : Nat} (outside : s.argv.length ≤ i) (ptr : Ptr) :
    s.storePtr i ptr = .error .overrun := by
  have long : ¬ i + [ptr].length ≤ s.argv.length := by
    rw [List.length_singleton]
    omega
  rw [PlusSet.storePtr, Lib.store, if_neg long]

theorem storePath_inside {xs : List Byte} (inside : s.p + xs.length ≤ s.buf.length) :
    ∃ buf, s.storePath xs = .ok { s with buf := buf } ∧ buf.length = s.buf.length := by
  refine ⟨_, by rw [PlusSet.storePath, Lib.store, if_pos inside], ?_⟩
  exact @store_length _ _ _ xs s.p (if_pos inside)

/-- A set that is not full is executed and leaves room for a new one. -/
theorem Batched.run (batched : Batched l b s) (few : b.args.length < maxargs) :
    ∃ s', s.run = .ok s' ∧ Batched l ⟨[], 0⟩ s' := by
  have vector := batched.vector
  have count := batched.count
  obtain ⟨argv, first, length⟩ := @storePtr_inside s (s.bxp + s.narg) (by omega) .null
  obtain ⟨argv', second, length'⟩ := @storePtr_inside
    { s with argv := argv, narg := 0 } s.bxp (by show s.bxp < argv.length; omega) .null
  obtain ⟨buf, third, length''⟩ := @storePath_inside
    { s with argv := argv', narg := 0, p := 0 } [0]
    (by show 0 + 1 ≤ s.buf.length; rw [batched.buf]; omega)
  refine ⟨{ s with argv := argv', narg := 0, p := 0, buf := buf }, ?_, rfl, rfl, ?_, batched.ebp, ?_⟩
  · rw [PlusSet.run, first]
    show (PlusSet.storePtr _ (s.bxp + 0) _ >>= _) = _
    rw [Nat.add_zero, second]
    exact third
  · exact length'.trans (length.trans vector)
  · exact length''.trans batched.buf

theorem Batched.run_full (batched : Batched l b s) (full : b.args.length = maxargs) :
    s.run = .error .overrun := by
  have vector := batched.vector
  have count := batched.count
  rw [PlusSet.run, storePtr_outside (by omega)]
  rfl

theorem Batched.add (batched : Batched l b s) (few : b.args.length < maxargs)
    (fits : b.fits l path = true) : ∃ s', s.add path = .ok s' ∧ Batched l (b.add path) s' := by
  have vector := batched.vector
  have count := batched.count
  have used := batched.used
  have size := batched.buf
  have room : b.used + path.length < l.bufsize - 1 := of_decide_eq_true fits
  obtain ⟨argv, first, length⟩ := @storePtr_inside s (s.bxp + s.narg) (by omega)
    (.path s.p)
  obtain ⟨buf, second, length'⟩ := @storePath_inside { s with argv := argv }
    (path ++ [0]) (by
      show s.p + (path ++ [0]).length ≤ s.buf.length
      rw [List.length_append, List.length_singleton]
      omega)
  refine ⟨{ s with argv := argv, buf := buf, narg := s.narg + 1, p := s.p + path.length + 1 }, ?_,
    ?_, ?_, length.trans vector, batched.ebp, length'.trans size⟩
  · rw [PlusSet.add, first]
    show (PlusSet.storePath _ _ >>= _) = _
    rw [second]
    rfl
  · simp [Batch.add, count]
  · simp [Batch.add, used]

/-- The test of `f_exec` is whether the pathname fits. -/
theorem Batched.fits_iff (batched : Batched l b s) (path : List Byte) :
    s.p + path.length < s.ebp ↔ b.fits l path = true := by
  rw [batched.used, batched.ebp, Batch.fits, decide_eq_true_iff]

end

section

variable {l : Limits} {b : Batch} {s : PlusSet}

theorem Batched.fExec_fits {path : List Byte} (batched : Batched l b s)
    (few : b.args.length < maxargs) (fits : b.fits l path = true) :
    ((b.add path).args.length = maxargs ∧ s.fExec path = .error .overrun) ∨
    (b.add path).args.length < maxargs ∧
      ∃ s', s.fExec path = .ok s' ∧ Batched l (b.add path) s' := by
  obtain ⟨s1, run, batched1⟩ := batched.add few fits
  have count := batched1.count
  have one : (b.add path).args.length = b.args.length + 1 := List.length_append
  have step : s.fExec path = if s1.narg = maxargs then s1.run else .ok s1 := by
    rw [PlusSet.fExec, if_pos ((batched.fits_iff path).mpr fits), run]
    rfl
  by_cases full : (b.add path).args.length = maxargs
  · left
    refine ⟨full, ?_⟩
    rw [step, if_pos (count.trans full), batched1.run_full full]
  · right
    refine ⟨by omega, s1, ?_, batched1⟩
    rw [step, if_neg (by rw [count]; exact full)]

theorem Batched.fExec_new {path : List Byte} (batched : Batched l b s)
    (few : b.args.length < maxargs) (unfit : b.fits l path = false) :
    (Batch.fits ⟨[], 0⟩ l path = false ∧ s.fExec path = .error .insufficient) ∨
    Batch.fits ⟨[], 0⟩ l path = true ∧
      ∃ s', s.fExec path = .ok s' ∧ Batched l (Batch.add ⟨[], 0⟩ path) s' := by
  obtain ⟨s1, run, batched1⟩ := batched.run few
  have step : s.fExec path =
      if s1.p + path.length < s1.ebp then s1.add path else .error .insufficient := by
    rw [PlusSet.fExec, if_neg (by rw [batched.fits_iff path, unfit]; exact Bool.false_ne_true), run]
    rfl
  cases fits : Batch.fits ⟨[], 0⟩ l path with
  | false =>
      left
      refine ⟨rfl, ?_⟩
      rw [step, if_neg (by rw [batched1.fits_iff path, fits]; exact Bool.false_ne_true)]
  | true =>
      right
      obtain ⟨s2, added, batched2⟩ := batched1.add (by decide) fits
      refine ⟨rfl, s2, ?_, batched2⟩
      rw [step, if_pos ((batched1.fits_iff path).mpr fits), added]

theorem Batched.evaluate (paths : List (List Byte)) (most : l.maxargs = maxargs) :
    ∀ {b : Batch} {s : PlusSet}, Batched l b s → b.args.length < maxargs →
      (s.evaluate paths ≠ .error .overrun ↔ ¬ Crowded l b paths) := by
  induction paths with
  | nil =>
      intro b s batched few
      refine iff_of_true ?_ id
      show s.cleanup ≠ _
      rw [PlusSet.cleanup]
      split
      · obtain ⟨s', run, -⟩ := batched.run few
        simp [run]
      · simp
  | cons path paths ih =>
      intro b s batched few
      have step : s.evaluate (path :: paths) = s.fExec path >>= fun s => s.evaluate paths := by
        rw [PlusSet.evaluate, List.foldlM_cons]
        cases s.fExec path <;> rfl
      rw [step, Crowded]
      cases fits : b.fits l path with
      | true =>
          rw [if_pos rfl, most]
          rcases batched.fExec_fits few fits with ⟨full, run⟩ | ⟨free, s', run, batched'⟩
          · rw [run]
            exact iff_of_false (fun within => within rfl) fun calm => calm (Or.inl full)
          · rw [run]
            refine (ih batched' free).trans (not_congr ?_)
            exact (or_iff_right (by omega)).symm
      | false =>
          rw [if_neg Bool.false_ne_true]
          rcases batched.fExec_new few fits with ⟨unfit, run⟩ | ⟨fit, s', run, batched'⟩
          · rw [run]
            refine iff_of_true (by rintro ⟨⟩) ?_
            rw [unfit]
            rintro ⟨fit, -⟩
            exact Bool.false_ne_true fit
          · rw [run]
            refine (ih batched' (by show 1 < maxargs; decide)).trans (not_congr ?_)
            exact (and_iff_right fit).symm

end

/-! ## The command line -/

/-- In front of `+` there is at least the word `{}`. -/
theorem terminator_plus (argv : List (List Byte)) :
    ∀ {brace : Bool} {words : List (List Byte)}, terminator brace argv = some (words, true) →
      brace = true ∨ words ≠ [] := by
  induction argv with
  | nil =>
      intro brace words read
      cases read
  | cons w argv ih =>
      intro brace words read
      rw [terminator] at read
      split at read
      · cases read
      · split at read
        · next plus => exact Or.inl (by simpa using plus.2)
        · obtain ⟨⟨words', plus⟩, read', same⟩ := Option.map_eq_some_iff.mp read
          cases same
          exact Or.inr (List.cons_ne_nil _ _)

theorem copyWords_copied (words : List (List Byte)) :
    ∀ {cnt c : Nat} {s : PlusSet}, cnt + words.length ≤ s.argv.length →
      (∃ argv, copyWords words cnt c s = .ok (c + wordBytes words, { s with argv := argv }) ∧
        argv.length = s.argv.length) ∨
      (MAXARG ≤ c + wordBytes words ∧ copyWords words cnt c s = .error .tooLong) := by
  induction words with
  | nil => exact fun {cnt c s} _ => Or.inl ⟨s.argv, rfl, rfl⟩
  | cons w words ih =>
      intro cnt c s room
      rw [List.length_cons] at room
      have bytes : wordBytes (w :: words) = w.length + 1 + wordBytes words := by
        rw [wordBytes, List.map_cons, List.sum_cons, wordBytes]
      rw [copyWords]
      split
      · next long => exact Or.inr ⟨by omega, rfl⟩
      · obtain ⟨argv, stored, length⟩ := storePtr_inside (s := s) (i := cnt) (by omega) (.word w)
        rw [stored]
        have rest := @ih (cnt + 1) (c + w.length + 1) { s with argv := argv }
          (by show cnt + 1 + words.length ≤ argv.length; omega)
        rw [show c + w.length + 1 + wordBytes words = c + wordBytes (w :: words) by omega] at rest
        rcases rest with ⟨argv', copied, length'⟩ | ⟨long, stopped⟩
        · exact Or.inl ⟨argv', copied, length'.trans length⟩
        · exact Or.inr ⟨long, stopped⟩

theorem not_crowded_of_no_room (b : Batch) (paths : List (List Byte)) (most : Nat) :
    ¬ Crowded ⟨most, 0⟩ b paths := by
  cases paths with
  | nil => exact id
  | cons path paths => simp [Crowded, Batch.fits]

/-- What `c_exec` leaves: the memory for an empty set, or no room. -/
theorem cExecPlus_built (junk : Nat → Ptr) (old : Nat → Byte) {words : List (List Byte)}
    (some_ : words ≠ []) :
    (∃ s, cExecPlus junk old words = .ok s ∧ Batched (limitsOf words) ⟨[], 0⟩ s) ∨
      (cExecPlus junk old words = .error .tooLong ∧ (limitsOf words).bufsize = 0) := by
  have positive := List.length_pos_iff.mpr some_
  have many : maxargs = 5000 := by decide
  have copied := @copyWords_copied words 0 0
    ⟨(List.range (words.length - 1 + maxargs)).map junk, words.length - 1, 0, [], 0, 0⟩
    (by simp only [List.length_map, List.length_range]; omega)
  rw [Nat.zero_add] at copied
  rcases copied with ⟨argv, copied, length⟩ | ⟨long, stopped⟩
  · simp only [List.length_map, List.length_range] at length
    have step : cExecPlus junk old words =
        if MAXARG ≤ wordBytes words + maxargs * sizeofPtr then .error .tooLong
        else PlusSet.storePtr ⟨argv, words.length - 1, 0,
          (List.range (roomLeft (wordBytes words) + 1)).map old, 0,
          roomLeft (wordBytes words) - 1⟩ words.length .null := by
      simp only [cExecPlus, copied, bind, Except.bind]
    rw [step]
    by_cases long : MAXARG ≤ wordBytes words + maxargs * sizeofPtr
    · right
      refine ⟨if_pos long, ?_⟩
      show roomLeft _ = 0
      rw [roomLeft]
      omega
    · left
      obtain ⟨argv', stored, length'⟩ := storePtr_inside
        (s := ⟨argv, words.length - 1, 0,
          (List.range (roomLeft (wordBytes words) + 1)).map old, 0,
          roomLeft (wordBytes words) - 1⟩) (i := words.length)
        (by show words.length < argv.length; omega) .null
      rw [if_neg long, stored]
      exact ⟨_, rfl, {
        count := rfl
        used := rfl
        vector := length'.trans length
        ebp := rfl
        buf := by simp only [List.length_map, List.length_range, limitsOf] }⟩
  · right
    refine ⟨?_, ?_⟩
    · rw [cExecPlus, stopped]
      rfl
    · show roomLeft _ = 0
      rw [roomLeft]
      omega

theorem execPlus_overrun (junk : Nat → Ptr) (old : Nat → Byte) {argv words : List (List Byte)}
    (plus : terminator false argv = some (words, true)) (paths : List (List Byte)) :
    execPlus junk old false argv paths = .error .overrun ↔
      Crowded (limitsOf words) ⟨[], 0⟩ paths := by
  have some_ := (terminator_plus argv plus).resolve_left Bool.false_ne_true
  have node : cExec junk old false argv = (cExecPlus junk old words).map some := by
    rw [cExec, plus]
    rfl
  rw [execPlus, node]
  rcases cExecPlus_built junk old some_ with ⟨s, built, batched⟩ | ⟨stopped, none_⟩
  · rw [built, ← not_iff_not, ← batched.evaluate paths rfl (by decide)]
    refine not_congr ?_
    show discard (s.evaluate paths) = _ ↔ _
    cases s.evaluate paths with
    | ok s' => exact iff_of_false (by rintro ⟨⟩) (by rintro ⟨⟩)
    | error e =>
        show Except.error e = _ ↔ _
        rw [Except.error.injEq, Except.error.injEq]
  · rw [stopped]
    refine iff_of_false (by rintro ⟨⟩) ?_
    have limits : limitsOf words = ⟨maxargs, 0⟩ := by
      rw [← none_]
      rfl
    rw [limits]
    exact not_crowded_of_no_room _ _ _

/-- All stores stay inside the vector and the buffer if and only if no set is crowded. -/
theorem execPlus_within_iff (junk : Nat → Ptr) (old : Nat → Byte) {argv words : List (List Byte)}
    (plus : terminator false argv = some (words, true)) (paths : List (List Byte)) :
    execPlus junk old false argv paths ≠ .error .overrun ↔
      ¬ Crowded (limitsOf words) ⟨[], 0⟩ paths :=
  not_congr (execPlus_overrun junk old plus paths)

/-- The theorem for `echo {} +` and two pathnames. -/
theorem execPlus_within_two :
    execPlus (fun _ => .null) (fun _ => 0) false
      [ascii ['e', 'c', 'h', 'o'], ascii ['{', '}'], ascii ['+']] [[byte 'a'], [byte 'b']] ≠
        .error .overrun :=
  (@execPlus_within_iff (fun _ => .null) (fun _ => 0) _ [ascii ['e', 'c', 'h', 'o'], ascii ['{', '}']]
    (by decide) _).mpr
    (not_crowded_of_few _ _ _ (by decide))

theorem crowded_replicate (l : Limits) (path : List Byte) (n : Nat) :
    ∀ {b : Batch}, b.args.length < l.maxargs → l.maxargs ≤ b.args.length + n →
      b.used + n * (path.length + 1) < l.bufsize - 1 →
      Crowded l b (List.replicate n path) := by
  induction n with
  | zero =>
      intro b few many room
      omega
  | succ n ih =>
      intro b few many room
      have length : (b.add path).args.length = b.args.length + 1 := List.length_append
      have used : (b.add path).used = b.used + path.length + 1 := rfl
      rw [Nat.succ_mul] at room
      have fits : b.fits l path = true := decide_eq_true (by omega)
      rw [List.replicate_succ, Crowded, if_pos fits]
      by_cases full : (b.add path).args.length = l.maxargs
      · exact Or.inl full
      · exact Or.inr (ih (by omega) (by omega) (by rw [used]; omega))

/-- Behind 5000 short pathnames the null pointer is stored outside of the vector. -/
theorem execPlus_outside :
    ¬ execPlus (fun _ => .null) (fun _ => 0) false
      [ascii ['e', 'c', 'h', 'o'], ascii ['{', '}'], ascii ['+']]
      (List.replicate 5000 [byte 'a']) ≠ .error .overrun := by
  have plus : terminator false [ascii ['e', 'c', 'h', 'o'], ascii ['{', '}'], ascii ['+']] =
      some ([ascii ['e', 'c', 'h', 'o'], ascii ['{', '}']], true) := by decide
  rw [not_not]
  exact (execPlus_overrun _ _ plus _).mpr
    (crowded_replicate _ _ 5000 (by decide) (by decide) (by decide))

end Netbase.Find
