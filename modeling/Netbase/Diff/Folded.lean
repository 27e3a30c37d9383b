import Netbase.Diff.Fold
import Netbase.Diff.Sections

/-!
# The pairs that are left with `-b`, `-w` and `-i`

The hash values of folded lines are matched as those of whole lines are, and `check`
keeps the pairs that its comparison finds alike.  Files whose lines have one normal form
pairwise are matched line by line, so that no change is left to print.
-/

namespace Netbase.Diff.Folded

open Netbase.Lib
open Netbase.Text
open Netbase.Diff.Check (State OldRead NewRead Entries Rises agreed Covers skipline skipNews_old)
open Netbase.Diff.Context (Source)
open Netbase.Diff.Fetch
open Netbase.Diff.Fold
open Netbase.Diff.Matching
open Netbase.Diff.Output
open Netbase.Diff.Sections (range)
open Netbase.Diff.Stone (matchVector)

/-! ## Checking with the flags -/

/-- One turn of the loop over the old file. -/
def checkLine (flags : Flags) (before : Byte) (state : State) (i : Nat) : State :=
  if state.J i = 0 then
    let (count, f1) := skipline state.f1
    { state with
      ctold := state.ctold + count
      f1 := f1
      ixold := state.ixold.set i (state.ctold + count) }
  else
    let state := state.skipNews (state.J i - state.j)
    let result := compareWith flags before state.f1 state.f2
    { j := state.j + 1
      ctold := state.ctold + result.old
      ctnew := state.ctnew + result.new
      f1 := result.f1
      f2 := result.f2
      J := if result.same then state.J else state.J.set i 0
      ixold := state.ixold.set i (state.ctold + result.old)
      ixnew := state.ixnew.set state.j (state.ctnew + result.new) }

def check (flags : Flags) (before : Byte) (len0 len1 : Nat) (file0 file1 : List Byte)
    (J : Table Nat) : State :=
  let state := (List.range' 1 len0).foldl (checkLine flags before) (State.start file0 file1 J)
  state.skipNews (len1 + 1 - state.j)

/-- The vector that `unravel` leaves, for two files. -/
def unravelled (flags : Flags) (bound : Nat) (file0 file1 : List Byte) : Table Nat :=
  matchVector bound (prepare flags file0) (prepare flags file1)

/-- The state that `check` leaves, for two files. -/
def checked (flags : Flags) (before : Byte) (bound : Nat) (file0 file1 : List Byte) : State :=
  check flags before (prepare flags file0).length (prepare flags file1).length file0 file1
    (unravelled flags bound file0 file1)

/-- What `output` is given of two files. -/
def sourceOf (flags : Flags) (before : Byte) (bound : Nat) (file0 file1 : List Byte) : Source :=
  { len0 := (prepare flags file0).length
    len1 := (prepare flags file1).length
    file0 := file0
    file1 := file1
    ixold := (checked flags before bound file0 file1).ixold
    ixnew := (checked flags before bound file0 file1).ixnew }

/-- `change` in the normal format. -/
def changeText (source : Source) (next : Change) : List Byte :=
  if next.a > next.b ∧ next.c > next.d then []
  else
    range next.a next.b [byte ','] ++
      [byte (if next.a > next.b then 'a' else if next.c > next.d then 'd' else 'c')] ++
      range next.c next.d [byte ','] ++ [nl] ++
      (fetch .normal source.ixold next.a next.b source.file0 (some '<')).1 ++
      (if next.a ≤ next.b ∧ next.c ≤ next.d then ascii ['-', '-', '-', '\n'] else []) ++
      (fetch .normal source.ixnew next.c next.d source.file1 (some '>')).1

/-- `output` in the normal format, for two files that are not taken for binary ones. -/
def outputNormal (flags : Flags) (before : Byte) (bound : Nat) (file0 file1 : List Byte) : List Byte :=
  let source := sourceOf flags before bound file0 file1
  (forwardChanges source.len0 source.len1 (checked flags before bound file0 file1).J).flatMap
    (changeText source)

/-! ## What stays -/

/-- What the lines of a file are compared by. -/
def foldedLines (flags : Flags) (list : List (List Byte)) : List (List Byte) :=
  list.map fun line => flags.folded line.dropLast

/-- Both files are read up to the lines `i` and `p`, and the pairs up to line `i` checked. -/
structure Reading (flags : Flags) (olds news : List (List Byte)) (J : Table Nat) (i p : Nat)
    (state : State) : Prop where
  old : OldRead olds i state
  new : NewRead news p state
  entries : Entries (foldedLines flags olds) (foldedLines flags news) J i state.J
  ahead : ∀ k, i < k → k ≤ olds.length → J k ≠ 0 → p < J k
  inside : p ≤ news.length

section

variable {flags : Flags} {before : Byte} {olds news : List (List Byte)} {J : Table Nat} {i p : Nat}
  {state : State} {line other : List Byte}

theorem checkLine_unpaired {k : Nat} (zero : state.J k = 0) :
    checkLine flags before state k =
      { state with
        ctold := state.ctold + (skipline state.f1).1
        f1 := (skipline state.f1).2
        ixold := state.ixold.set k (state.ctold + (skipline state.f1).1) } :=
  if_pos zero

theorem checkLine_paired {k : Nat} (nonzero : state.J k ≠ 0) {ready : State}
    (skipped : state.skipNews (state.J k - state.j) = ready) {result : Check.Compared}
    (compared : compareWith flags before ready.f1 ready.f2 = result) :
    checkLine flags before state k =
      { j := ready.j + 1
        ctold := ready.ctold + result.old
        ctnew := ready.ctnew + result.new
        f1 := result.f1
        f2 := result.f2
        J := if result.same then ready.J else ready.J.set k 0
        ixold := ready.ixold.set k (ready.ctold + result.old)
        ixnew := ready.ixnew.set ready.j (ready.ctnew + result.new) } := by
  subst skipped compared
  exact if_neg nonzero

theorem getElem?_foldedLines (flags : Flags) (found : olds[i]? = some line) :
    (foldedLines flags olds)[i]? = some (flags.folded line.dropLast) := by
  rw [foldedLines, List.getElem?_map, found]
  rfl

theorem compareWith_lines (flags : Flags) (before : Byte) {rest restNew f1 f2 : List Byte}
    (oldLine : getline f1 = (line, rest)) (newLine : getline f2 = (other, restNew))
    (isLine : IsLine line) (isOther : IsLine other)
    (ends : Terminated line) (endsOther : Terminated other) :
    compareWith flags before f1 f2 =
      { same := decide (flags.folded line.dropLast = flags.folded other.dropLast)
        old := line.length, new := other.length, f1 := rest, f2 := restNew } := by
  obtain ⟨body, whole⟩ := body_of_terminated isLine ends
  obtain ⟨bodyNew, wholeNew⟩ := body_of_terminated isOther endsOther
  have stream := getline_append f1
  have streamNew := getline_append f2
  have length := congrArg List.length whole
  have lengthNew := congrArg List.length wholeNew
  rw [List.length_append, List.length_singleton] at length lengthNew
  rw [oldLine, ← whole, ← List.append_cons] at stream
  rw [newLine, ← wholeNew, ← List.append_cons] at streamNew
  rw [← stream, ← streamNew, compareWith_eq flags before rest restNew body bodyNew, length, lengthNew]

theorem Reading.next (reading : Reading flags olds news J i p state) (orderedOld : LineList olds)
    (orderedNew : LineList news) (endsOld : ∀ line ∈ olds, Terminated line)
    (endsNew : ∀ line ∈ news, Terminated line) (rises : Rises olds.length news.length J)
    (less : i < olds.length) :
    ∃ q, Reading flags olds news J (i + 1) q (checkLine flags before state (i + 1)) := by
  have found := List.getElem?_eq_getElem less
  generalize olds[i] = line at found
  have listed := List.mem_of_getElem? found
  have covers (line : List Byte) (ends : Terminated line) : Covers line line.length :=
    ⟨fun _ => rfl, fun open_ => absurd ends open_⟩
  have entry := reading.entries.coming
  by_cases zero : J (i + 1) = 0
  · have read := reading.old.getline orderedOld found
    rw [checkLine_unpaired (entry.trans zero), Check.skipline_eq, read]
    refine ⟨p, reading.old.next orderedOld found (Check.covers_span line) rfl rfl rfl,
      ⟨reading.new.j, reading.new.f2, reading.new.ctnew, reading.new.stands⟩,
      reading.entries.keep ?_, fun k more => reading.ahead k (by omega), reading.inside⟩
    rw [agreed, if_neg fun both => both.1 zero, zero]
  · have inside := rises.inside (i + 1) (Nat.succ_pos i) less
    have place : J (i + 1) = J (i + 1) - 1 + 1 := by omega
    have foundNew := List.getElem?_eq_getElem (l := news) (i := J (i + 1) - 1) (by omega)
    generalize news[J (i + 1) - 1] = other at foundNew
    have listedNew := List.mem_of_getElem? foundNew
    have ahead := reading.ahead (i + 1) (Nat.lt_succ_self i) less zero
    have count : p + (J (i + 1) - (p + 1)) = J (i + 1) - 1 := by omega
    have oldReady := reading.old.skipNews (J (i + 1) - (p + 1))
    have newReady : NewRead news (p + (J (i + 1) - (p + 1))) (state.skipNews (J (i + 1) - (p + 1))) :=
      reading.new.skipNews orderedNew (by omega)
    have kept := (skipNews_old (J (i + 1) - (p + 1)) state).2.2.2
    have ready : state.skipNews (state.J (i + 1) - state.j) =
        state.skipNews (J (i + 1) - (p + 1)) := by
      rw [entry, reading.new.j]
    generalize state.skipNews (J (i + 1) - (p + 1)) = caught at *
    rw [count] at newReady
    have compared := compareWith_lines flags before
      (oldReady.getline orderedOld found) (newReady.getline orderedNew foundNew)
      (orderedOld.isLine listed) (orderedNew.isLine listedNew) (endsOld line listed)
      (endsNew other listedNew)
    rw [checkLine_paired (by rw [entry]; exact zero) ready compared]
    refine ⟨J (i + 1), oldReady.next orderedOld found (covers line (endsOld line listed)) rfl rfl rfl,
      ?_, ?_, fun k more bound nonzero =>
        rises.rising (i + 1) k (Nat.succ_pos i) more bound zero nonzero, inside⟩
    · rw [place]
      exact newReady.next orderedNew foundNew (covers other (endsNew other listedNew)) rfl rfl rfl rfl
    · have foldedOld := getElem?_foldedLines flags found
      have foldedNew := getElem?_foldedLines flags foundNew
      rw [kept]
      by_cases same : flags.folded line.dropLast = flags.folded other.dropLast
      · rw [decide_eq_true same]
        refine reading.entries.keep (if_pos ⟨zero, ?_⟩)
        rw [Nat.add_sub_cancel, foldedOld, foldedNew, same]
      · rw [decide_eq_false same]
        refine reading.entries.drop (if_neg fun both => same ?_)
        rw [Nat.add_sub_cancel, foldedOld, foldedNew] at both
        exact Option.some.inj both.2

theorem Reading.foldl (flags : Flags) (before : Byte) (orderedOld : LineList olds)
    (orderedNew : LineList news)
    (endsOld : ∀ line ∈ olds, Terminated line) (endsNew : ∀ line ∈ news, Terminated line)
    (rises : Rises olds.length news.length J) {count : Nat} (inside : count ≤ olds.length) :
    ∃ q, Reading flags olds news J count q
      ((List.range' 1 count).foldl (checkLine flags before)
        (State.start olds.flatten news.flatten J)) := by
  induction count with
  | zero =>
      refine ⟨0, ⟨rfl, rfl, ?_⟩, ⟨rfl, rfl, rfl, ?_⟩, fun k positive => ?_,
        fun k positive bound nonzero => Nat.pos_of_ne_zero nonzero, Nat.zero_le _⟩
      · rintro k bound
        rw [Nat.le_zero.mp bound]
        exact Check.stands_zero
      · rintro k bound
        rw [Nat.le_zero.mp bound]
        exact Check.stands_zero
      · rw [if_neg (by omega)]
        rfl
  | succ count ih =>
      obtain ⟨q, reading⟩ := ih (by omega)
      rw [List.range'_concat, List.foldl_append, Nat.one_mul, Nat.add_comm 1]
      exact reading.next orderedOld orderedNew endsOld endsNew rises inside

theorem check_entries (flags : Flags) (before : Byte) (orderedOld : LineList olds)
    (orderedNew : LineList news)
    (endsOld : ∀ line ∈ olds, Terminated line) (endsNew : ∀ line ∈ news, Terminated line)
    (rises : Rises olds.length news.length J) :
    Entries (foldedLines flags olds) (foldedLines flags news) J olds.length
      (check flags before olds.length news.length olds.flatten news.flatten J).J := by
  obtain ⟨q, reading⟩ := Reading.foldl flags before orderedOld orderedNew
    endsOld endsNew rises (Nat.le_refl _)
  unfold check
  rw [(skipNews_old _ _).2.2.2]
  exact reading.entries

end

section

variable {flags : Flags} {before : Byte} {bound : Nat} {file0 file1 : List Byte}

theorem prepare_nonzero (flags : Flags) {file : List Byte} (ended : Ended file) :
    ∀ value ∈ prepare flags file, value ≠ 0 := by
  intro value listed
  rw [prepare_eq flags ended, List.mem_map] at listed
  obtain ⟨line, -, rfl⟩ := listed
  exact lineHash_ne_zero flags _

theorem prepare_length (flags : Flags) {file : List Byte} (ended : Ended file) :
    (prepare flags file).length = (lines file).length := by
  rw [prepare_eq flags ended, List.length_map]

theorem unravelled_rises (flags : Flags) (bound : Nat) (ended0 : Ended file0) (ended1 : Ended file1) :
    Rises (lines file0).length (lines file1).length (unravelled flags bound file0 file1) := by
  have matching := matchVector_isMatching bound (prepare flags file0) (prepare_nonzero flags ended1)
  have rising := matching.rising
  have inside := matching.inside
  rw [prepare_length flags ended0] at rising inside
  rw [prepare_length flags ended1] at inside
  rw [unravelled]
  exact ⟨rising, inside⟩

theorem checked_entries (ended0 : Ended file0) (ended1 : Ended file1) {i : Nat} (positive : 0 < i)
    (inside : i ≤ (lines file0).length) :
    (checked flags before bound file0 file1).J i =
      agreed (foldedLines flags (lines file0)) (foldedLines flags (lines file1))
        (unravelled flags bound file0 file1) i := by
  have entries := check_entries flags before (lines_lineList file0)
    (lines_lineList file1) ended0 ended1 (unravelled_rises flags bound ended0 ended1) i positive
  rw [if_pos inside, flatten_lines, flatten_lines] at entries
  rw [checked, prepare_length flags ended0, prepare_length flags ended1]
  exact entries

/-! ## Files of one normal form -/

def normalLines (flags : Flags) (file : List Byte) : List (List Byte) :=
  (lines file).map fun line => flags.normal line.dropLast

theorem map_of_normalLines {α : Type} (value : List Byte → α)
    (respects : ∀ s t, flags.normal s = flags.normal t → value s = value t)
    (same : normalLines flags file0 = normalLines flags file1) :
    (lines file0).map (fun line => value line.dropLast) =
      (lines file1).map fun line => value line.dropLast := by
  unfold normalLines at same
  generalize lines file0 = olds at same ⊢
  generalize lines file1 = news at same ⊢
  induction olds generalizing news with
  | nil =>
      rw [List.map_nil, eq_comm, List.map_eq_nil_iff] at same
      rw [same]
  | cons line olds ih =>
      cases news with
      | nil => cases same
      | cons other news =>
          rw [List.map_cons, List.map_cons, List.cons.injEq] at same
          rw [List.map_cons, List.map_cons, respects _ _ same.1, ih news same.2]

/-- A match vector that counts the lines leaves only an idle change. -/
theorem forwardChanges_self {n : Nat} {J : Table Nat} (counts : ∀ i, 0 < i → i ≤ n → J i = i)
    {next : Change} (listed : next ∈ forwardChanges n n J) : next.a > next.b ∧ next.c > next.d := by
  have guard (i : Nat) (inside : i ≤ n + 1) : guarded n n J i = i := by
    rw [guarded, Table.set_entry, Table.set_entry]
    split
    · next last => exact last.symm
    · split
      · next zero => exact zero.symm
      · exact counts i (by omega) (by omega)
  unfold forwardChanges wholeFile at listed
  cases n with
  | zero =>
      rw [List.mem_append] at listed
      rcases listed with inLoop | whole
      · cases inLoop
      · cases List.mem_singleton.mp whole
        exact ⟨Nat.one_pos, Nat.one_pos⟩
  | succ n =>
      obtain ⟨t, passes, bound, -, stop⟩ :=
        passMatches_spec (guarded (n + 1) (n + 1) J) (n + 1) (Nat.zero_le (n + 1)) (by omega)
      have all : t = n + 1 := by
        by_contra early
        refine stop (by omega) ?_
        rw [guard _ (by omega), guard _ (by omega)]
      subst all
      have turn : forwardFrom (n + 1) (2 * (n + 1) + 1) 1 (guarded (n + 1) (n + 1) J) =
          [{ a := n + 2, b := n + 1, c := n + 2, d := n + 1 }] := by
        have last : 0 + 1 + (n + 1) = n + 2 := by omega
        have spent : n + 1 + 1 - (n + 2) = 0 := by omega
        rw [last] at passes
        rw [forwardFrom, if_pos (by omega)]
        dsimp only
        rw [show n + 1 + 1 - 1 = n + 1 from rfl, passes, show n + 2 - 1 = n + 1 from rfl, spent,
          passDeleted, guard _ (by omega), guard _ (Nat.le_refl _),
          show 2 * (n + 1) = 2 * n + 1 + 1 from rfl, forwardFrom, if_neg (by omega)]
        rfl
      rw [turn, if_neg (Nat.succ_ne_zero n), List.append_nil, List.mem_singleton] at listed
      subst listed
      exact ⟨Nat.lt_succ_self _, Nat.lt_succ_self _⟩

theorem outputNormal_of_normal (ended0 : Ended file0) (ended1 : Ended file1)
    (same : normalLines flags file0 = normalLines flags file1) :
    outputNormal flags before bound file0 file1 = [] := by
  have folded : foldedLines flags (lines file0) = foldedLines flags (lines file1) :=
    map_of_normalLines flags.folded (fun _ _ => flags.folded_of_normal) same
  have hashes : prepare flags file0 = prepare flags file1 := by
    rw [prepare_eq flags ended0, prepare_eq flags ended1]
    exact map_of_normalLines flags.lineHash (fun _ _ => lineHash_of_normal) same
  have counts (i : Nat) (positive : 0 < i) (inside : i ≤ (prepare flags file0).length) :
      (checked flags before bound file0 file1).J i = i := by
    have self : unravelled flags bound file0 file1 i = i := by
      rw [unravelled, ← hashes]
      exact matchVector_self bound (prepare_nonzero flags ended0) inside
    rw [prepare_length flags ended0] at inside
    rw [checked_entries ended0 ended1 positive inside, agreed, self, folded, if_pos ⟨by omega, rfl⟩]
  unfold outputNormal sourceOf
  rw [← hashes, List.flatMap_eq_nil_iff]
  exact fun next listed => if_pos (forwardChanges_self counts listed)

/-- The pairs that stay are of one normal form, hash values respect it, and files of one normal
form print nothing. -/
structure Faithful (flags : Flags) (before : Byte) (bound : Nat) (file0 file1 : List Byte) : Prop where
  pairs : ∀ i line other, 0 < i → (checked flags before bound file0 file1).J i ≠ 0 →
    (lines file0)[i - 1]? = some line →
    (lines file1)[(checked flags before bound file0 file1).J i - 1]? = some other →
    flags.normal line.dropLast = flags.normal other.dropLast
  hashes : ∀ s t r q, nl ∉ s → nl ∉ t → flags.normal s = flags.normal t →
    (readhash flags (s ++ nl :: r)).1 = (readhash flags (t ++ nl :: q)).1
  silent : normalLines flags file0 = normalLines flags file1 →
    outputNormal flags before bound file0 file1 = []

/-- The match vector pairs two lines that differ only when the six characters are not taken for
capitals. -/
def Confused (flags : Flags) (bound : Nat) (file0 file1 : List Byte) : Prop :=
  ∃ i line other, 0 < i ∧ unravelled flags bound file0 file1 i ≠ 0 ∧
    (lines file0)[i - 1]? = some line ∧
    (lines file1)[unravelled flags bound file0 file1 i - 1]? = some other ∧
    flags.normal line.dropLast ≠ flags.normal other.dropLast ∧
    (flags.normal line.dropLast).map miscase = (flags.normal other.dropLast).map miscase

theorem checked_pair (before : Byte) (ended0 : Ended file0) (ended1 : Ended file1) {i : Nat}
    {line other : List Byte} (positive : 0 < i) (found : (lines file0)[i - 1]? = some line)
    (foundNew : (lines file1)[unravelled flags bound file0 file1 i - 1]? = some other) :
    (checked flags before bound file0 file1).J i =
      if unravelled flags bound file0 file1 i ≠ 0 ∧
          flags.folded line.dropLast = flags.folded other.dropLast then
        unravelled flags bound file0 file1 i
      else 0 := by
  have inside := (List.getElem?_eq_some_iff.mp found).1
  rw [checked_entries ended0 ended1 positive (by omega), agreed, getElem?_foldedLines flags found,
    getElem?_foldedLines flags foundNew]
  simp only [Option.some.injEq]

/--
With `-i` the pairs that stay may differ in the characters that the table takes for
capitals; in every other respect the comparison keeps to the normal form.
-/
theorem faithful_iff (flags : Flags) (before : Byte) (bound : Nat) (file0 file1 : List Byte)
    (ended0 : Ended file0) (ended1 : Ended file1) :
    Faithful flags before bound file0 file1 ↔
      ¬ (flags.ignoreCase = true ∧ Confused flags bound file0 file1) := by
  constructor
  · rintro faithful ⟨case_, i, line, other, positive, paired, found, foundNew, differ, alike⟩
    have folded : flags.folded line.dropLast = flags.folded other.dropLast := by
      rw [flags.folded_eq, flags.folded_eq, if_pos case_, if_pos case_, alike]
    have stays := checked_pair before ended0 ended1 positive found foundNew
    rw [if_pos ⟨paired, folded⟩] at stays
    refine differ (faithful.pairs i line other positive ?_ found ?_)
    · rw [stays]
      exact paired
    · rw [stays]
      exact foundNew
  · intro apart
    refine ⟨fun i line other positive stays found foundNew => ?_,
      fun s t r q body bodyNew same => ?_, outputNormal_of_normal ended0 ended1⟩
    · have inside := (List.getElem?_eq_some_iff.mp found).1
      have kept : (checked flags before bound file0 file1).J i = unravelled flags bound file0 file1 i := by
        rw [checked_entries ended0 ended1 positive (by omega)] at stays ⊢
        unfold agreed at stays ⊢
        split at stays
        · next both => exact if_pos both
        · exact absurd rfl stays
      rw [kept] at foundNew
      have entry := checked_pair before ended0 ended1 positive found foundNew
      split at entry
      · next both =>
          rw [flags.folded_eq, flags.folded_eq] at both
          cases case_ : flags.ignoreCase with
          | true =>
              rw [case_, if_pos rfl, if_pos rfl] at both
              by_contra differ
              exact apart ⟨case_, i, line, other, positive, both.1, found, foundNew, differ, both.2⟩
          | false =>
              rw [case_, if_neg Bool.false_ne_true, if_neg Bool.false_ne_true] at both
              exact both.2
      · exact absurd entry stays
    · rw [readhash_body flags body, readhash_body flags bodyNew, lineHash_of_normal same]

/-- With `-i` the lines `A` and `a` are one. -/
theorem letters_faithful :
    Faithful { foldBlanks := true, ignoreBlanks := false, ignoreCase := true } 0 256
      (ascii ['A', ' ', '\n']) (ascii ['a', '\n']) := by
  refine (faithful_iff _ _ _ _ _ (by unfold Ended; decide) (by unfold Ended; decide)).mpr ?_
  rintro ⟨-, i, line, other, -, -, found, foundNew, differ, -⟩
  have here : line = ascii ['A', ' ', '\n'] := List.mem_singleton.mp (List.mem_of_getElem? found)
  have there : other = ascii ['a', '\n'] := List.mem_singleton.mp (List.mem_of_getElem? foundNew)
  subst here there
  revert differ
  decide +kernel

/-- With `-i` a file with `[` and one with `{` do not differ. -/
theorem brackets_confused :
    ¬ Faithful { foldBlanks := false, ignoreBlanks := false, ignoreCase := true } 0 256
      (ascii ['[', '\n']) (ascii ['\x7b', '\n']) := by
  intro faithful
  have same := faithful.pairs 1 (ascii ['[', '\n']) (ascii ['\x7b', '\n']) Nat.one_pos
    (by decide +kernel) (by decide +kernel) (by decide +kernel)
  revert same
  decide +kernel

end

end Netbase.Diff.Folded
