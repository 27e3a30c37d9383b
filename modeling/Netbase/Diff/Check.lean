import Netbase.Lib.Table
import Netbase.Text.Lines

/-!
# Hashing and checking lines

`prepare` reads a file as a list of line hashes.  The matching is found on the
hashes alone, so `check` reads both files again, drops the pairs that do not
agree byte for byte, and notes in `ixold` and `ixnew` where each line ends.  The
end of a file counts as one more byte behind an unterminated line.

A pair whose old line is unterminated may end inside the new line: `check` then
leaves the rest of that line unread and takes it for the next line.
-/

namespace Netbase.Diff.Check

open Netbase.Lib
open Netbase.Text

/-! ## Hash values -/

/-- `sum * 127 + t` in a 32-bit `int`. -/
def hashStep (sum : Int) (t : Byte) : Int := Int.bmod (sum * 127 + t.toNat) 4294967296

/-- The loop of `readhash`: the sum of a line, and the file behind it. -/
def readSum (sum : Int) : List Byte → Int × List Byte
  | [] => (sum, [])
  | t :: f => if t = nl then (sum, f) else readSum (hashStep sum t) f

/-- The hash of the next line; 0 at the end of the file, and only there. -/
def readhash (f : List Byte) : Int × List Byte :=
  if f = [] then (0, [])
  else
    let (sum, rest) := readSum 1 f
    (if sum = 0 then 1 else sum, rest)

def prepareFrom : Nat → List Byte → List Int
  | 0, _ => []
  | fuel + 1, f =>
      let (h, rest) := readhash f
      if h = 0 then [] else h :: prepareFrom fuel rest

/-- The hash values of a file. -/
def prepare (file : List Byte) : List Int := prepareFrom (file.length + 1) file

def lineHash (line : List Byte) : Int := (readhash line).1

theorem readSum_eq (sum : Int) (f : List Byte) :
    readSum sum f = ((readSum sum (getline f).1).1, (getline f).2) := by
  induction f generalizing sum with
  | nil => rfl
  | cons t f ih =>
      by_cases newline : t = nl
      · simp [readSum, getline, newline]
      · simp only [readSum, getline, newline, if_false]
        exact ih (hashStep sum t)

theorem readhash_eq {f : List Byte} (nonempty : f ≠ []) :
    readhash f = (lineHash (getline f).1, (getline f).2) := by
  have line : (getline f).1 ≠ [] := by
    have split := lines_getline nonempty
    have first : (getline f).1 ∈ lines f := by
      rw [split]
      exact List.mem_cons_self
    exact (lines_isLine first).nonempty
  unfold lineHash readhash
  rw [if_neg nonempty, if_neg line, readSum_eq]

theorem lineHash_ne_zero {line : List Byte} (nonempty : line ≠ []) : lineHash line ≠ 0 := by
  unfold lineHash readhash
  rw [if_neg nonempty]
  dsimp only
  split
  · exact Int.one_ne_zero
  · next other => exact other

theorem prepareFrom_eq {fuel : Nat} {file : List Byte} (enough : file.length < fuel) :
    prepareFrom fuel file = (lines file).map lineHash := by
  induction fuel generalizing file with
  | zero => omega
  | succ fuel ih =>
      rw [prepareFrom]
      by_cases empty : file = []
      · subst empty
        rfl
      · have split := lines_getline empty
        have first : (getline file).1 ∈ lines file := by
          rw [split]
          exact List.mem_cons_self
        have line := (lines_isLine first).nonempty
        have shorter : (getline file).2.length < fuel := by
          have whole := congrArg List.length (getline_append file)
          have positive := List.length_pos_iff.mpr line
          rw [List.length_append] at whole
          omega
        rw [readhash_eq empty]
        dsimp only
        rw [if_neg (lineHash_ne_zero line), ih shorter, split, List.map_cons]

theorem prepare_eq (file : List Byte) : prepare file = (lines file).map lineHash :=
  prepareFrom_eq (Nat.lt_succ_self _)

/-! ## Checking the pairs -/

/-- Read to the end of the line and count the bytes, the end of the file as one. -/
def skipline : List Byte → Nat × List Byte
  | [] => (1, [])
  | c :: f =>
      if c = nl then (1, f)
      else
        let (i, rest) := skipline f
        (i + 1, rest)

/-- The outcome of comparing two lines: the bytes counted, and the files behind them. -/
structure Compared where
  same : Bool
  old : Nat
  new : Nat
  f1 : List Byte
  f2 : List Byte
  deriving DecidableEq

/-- Compare two lines byte by byte, without any of the options that ignore differences. -/
def compareLines : List Byte → List Byte → Compared
  | [], [] => { same := true, old := 1, new := 1, f1 := [], f2 := [] }
  -- c is EOF, so nothing more is skipped in the new file
  | [], _ :: f2 => { same := false, old := 1, new := 1, f1 := [], f2 := f2 }
  | c :: f1, [] =>
      let (old, f1) := if c = nl then (0, f1) else skipline f1
      let (new, f2) := skipline []
      { same := false, old := 1 + old, new := 1 + new, f1 := f1, f2 := f2 }
  | c :: f1, d :: f2 =>
      if c = d then
        if c = nl then { same := true, old := 1, new := 1, f1 := f1, f2 := f2 }
        else
          let rest := compareLines f1 f2
          { rest with old := 1 + rest.old, new := 1 + rest.new }
      else
        let (old, f1) := if c = nl then (0, f1) else skipline f1
        let (new, f2) := if d = nl then (0, f2) else skipline f2
        { same := false, old := 1 + old, new := 1 + new, f1 := f1, f2 := f2 }

/-- The state of `check` between two lines of the old file. -/
structure State where
  j : Nat
  ctold : Nat
  ctnew : Nat
  f1 : List Byte
  f2 : List Byte
  J : Table Nat
  ixold : Table Nat
  ixnew : Table Nat

/-- `ixnew[j] = ctnew += skipline(f2); j++` -/
def State.skipNew (state : State) : State :=
  let (count, f2) := skipline state.f2
  { state with
    j := state.j + 1
    ctnew := state.ctnew + count
    f2 := f2
    ixnew := state.ixnew.set state.j (state.ctnew + count) }

/-- Skip the given number of new lines. -/
def State.skipNews : Nat → State → State
  | 0, state => state
  | count + 1, state => State.skipNews count state.skipNew

/-- One turn of the loop over the old file. -/
def State.checkLine (state : State) (i : Nat) : State :=
  if state.J i = 0 then
    let (count, f1) := skipline state.f1
    { state with
      ctold := state.ctold + count
      f1 := f1
      ixold := state.ixold.set i (state.ctold + count) }
  else
    let state := state.skipNews (state.J i - state.j)
    let result := compareLines state.f1 state.f2
    { j := state.j + 1
      ctold := state.ctold + result.old
      ctnew := state.ctnew + result.new
      f1 := result.f1
      f2 := result.f2
      J := if result.same then state.J else state.J.set i 0
      ixold := state.ixold.set i (state.ctold + result.old)
      ixnew := state.ixnew.set state.j (state.ctnew + result.new) }

/-- The state before the first line; the index tables start with 0. -/
def State.start (file0 file1 : List Byte) (J : Table Nat) : State :=
  { j := 1
    ctold := 0
    ctnew := 0
    f1 := file0
    f2 := file1
    J := J
    ixold := Table.fill 0
    ixnew := Table.fill 0 }

/-- Check every pair, then index the new lines that are left. -/
def check (len0 len1 : Nat) (file0 file1 : List Byte) (J : Table Nat) : State :=
  let state := (List.range' 1 len0).foldl State.checkLine (State.start file0 file1 J)
  state.skipNews (len1 + 1 - state.j)

/-! ## Counting bytes -/

/-- The bytes that `skipline` counts in a line. -/
def span (line : List Byte) : Nat := line.length + if Terminated line then 0 else 1

theorem terminated_cons_of_ne {c : Byte} (other : c ≠ nl) (line : List Byte) :
    Terminated (c :: line) ↔ Terminated line := by
  cases line with
  | nil => simp [Terminated, other]
  | cons b line => exact terminated_cons (by simp)

theorem span_cons {c : Byte} (other : c ≠ nl) (line : List Byte) :
    span (c :: line) = 1 + span line := by
  unfold span
  simp only [terminated_cons_of_ne other, List.length_cons]
  omega

theorem span_nl : span [nl] = 1 := by decide

theorem skipline_eq (f : List Byte) : skipline f = (span (getline f).1, (getline f).2) := by
  induction f with
  | nil => rfl
  | cons c f ih =>
      rw [skipline, getline]
      by_cases newline : c = nl
      · subst newline
        simp [span_nl]
      · simp only [newline, if_false, ih, span_cons newline, Nat.add_comm]

theorem skipRest_eq (c : Byte) (f : List Byte) :
    1 + (if c = nl then (0, f) else skipline f).1 = span (getline (c :: f)).1 ∧
      (if c = nl then (0, f) else skipline f).2 = (getline (c :: f)).2 := by
  by_cases newline : c = nl
  · subst newline
    simp [getline, span_nl]
  · simp [getline, newline, skipline_eq, span_cons newline]

theorem getline_cons (c : Byte) (f : List Byte) : ∃ tail, (getline (c :: f)).1 = c :: tail := by
  rw [getline]
  split <;> exact ⟨_, rfl⟩

theorem compareLines_eq (f1 f2 : List Byte) :
    compareLines f1 f2 =
      if (getline f1).1 = (getline f2).1 then
        { same := true, old := span (getline f1).1, new := span (getline f2).1,
          f1 := (getline f1).2, f2 := (getline f2).2 }
      else if ¬ Terminated (getline f1).1 ∧ (getline f1).1 <+: (getline f2).1 then
        { same := false, old := span (getline f1).1, new := span (getline f1).1,
          f1 := (getline f1).2, f2 := f2.drop (span (getline f1).1) }
      else
        { same := false, old := span (getline f1).1
          new := span (getline f2).1 +
            if ¬ Terminated (getline f2).1 ∧ (getline f2).1 <+: (getline f1).1 then 1 else 0
          f1 := (getline f1).2, f2 := (getline f2).2 } := by
  induction f1 generalizing f2 with
  | nil =>
      cases f2 with
      | nil => rfl
      | cons d f2 =>
          have other : (getline (d :: f2)).1 ≠ [] := by
            rw [getline]
            split <;> simp
          rw [if_neg (by simpa [getline] using other.symm),
            if_pos ⟨by simp [getline, Terminated], List.nil_prefix⟩]
          rfl
  | cons c f1 ih =>
      obtain ⟨old, rest⟩ := skipRest_eq c f1
      obtain ⟨tail, line⟩ := getline_cons c f1
      cases f2 with
      | nil =>
          rw [line, if_neg (by simp [getline]), if_neg (by simp [getline]), ← line, ← old, ← rest]
          simp [compareLines, getline, Terminated, span, skipline]
      | cons d f2 =>
          by_cases same : c = d
          · subst same
            by_cases newline : c = nl
            · subst newline
              simp [compareLines, getline, span_nl]
            · rw [compareLines, if_pos rfl, if_neg newline, ih f2]
              simp only [getline, newline, if_false, List.cons.injEq, true_and,
                terminated_cons_of_ne newline, List.cons_prefix_cons, span_cons newline]
              split
              · rfl
              · split
                · simp [Nat.add_comm 1]
                · simp [Nat.add_assoc]
          · obtain ⟨new, restNew⟩ := skipRest_eq d f2
            obtain ⟨tailNew, lineNew⟩ := getline_cons d f2
            have differ : ¬ (getline (c :: f1)).1 = (getline (d :: f2)).1 := by
              rw [line, lineNew]
              simp [same]
            rw [if_neg differ, if_neg (by rw [line, lineNew]; simp [same]),
              if_neg (by rw [line, lineNew]; simp [Ne.symm same]), ← old, ← rest, ← new, ← restNew]
            simp [compareLines, same]

/-! ## The index tables -/

/-- The position of line `k`, counted from 0. -/
def offset (list : List (List Byte)) (k : Nat) : Nat := (list.take k).flatten.length

theorem offset_succ {list : List (List Byte)} {k : Nat} {line : List Byte}
    (found : list[k]? = some line) : offset list (k + 1) = offset list k + line.length := by
  unfold offset
  rw [List.take_add_one, found, List.flatten_append, List.length_append]
  simp

theorem offset_cons (line : List Byte) (rest : List (List Byte)) (k : Nat) :
    offset (line :: rest) (k + 1) = line.length + offset rest k := by
  simp [offset]

/-- The lines of a file that does not end in a newline. -/
def Open (list : List (List Byte)) : Prop := ∃ line ∈ list, ¬ Terminated line

/-- An entry for the end of line `k`: exact, but too large at an unterminated end. -/
structure Stands (list : List (List Byte)) (k entry : Nat) : Prop where
  exact : ¬ (k = list.length ∧ Open list) → entry = offset list k
  beyond : k = list.length → Open list → offset list k < entry

/-- A count that takes in a line: exact, but too large for an unterminated line. -/
structure Covers (line : List Byte) (count : Nat) : Prop where
  exact : Terminated line → count = line.length
  beyond : ¬ Terminated line → line.length < count

theorem covers_span (line : List Byte) : Covers line (span line) := by
  constructor <;> intro ends <;> simp [span, ends]

theorem stands_zero {list : List (List Byte)} : Stands list 0 0 := by
  constructor
  · intro _
    rfl
  · rintro length ⟨line, listed, -⟩
    rw [List.eq_nil_of_length_eq_zero length.symm] at listed
    cases listed

theorem Stands.inside {list : List (List Byte)} {k entry : Nat} (stands : Stands list k entry)
    (inside : k < list.length) : entry = offset list k :=
  stands.exact fun last => absurd last.1 inside.ne

theorem Stands.next {list : List (List Byte)} (ordered : LineList list) {k entry count : Nat}
    {line : List Byte} (stands : Stands list k entry) (found : list[k]? = some line)
    (covers : Covers line count) : Stands list (k + 1) (entry + count) := by
  have inside := (List.getElem?_eq_some_iff.mp found).1
  have start : entry = offset list k := stands.exact fun last => by omega
  have next := offset_succ found
  by_cases terminated : Terminated line
  · have counted := covers.exact terminated
    refine ⟨fun _ => by omega, fun last open_ => ?_⟩
    exact absurd terminated ((last_open ordered found last).mp open_)
  · have more := covers.beyond terminated
    have last := ordered.last_of_open found terminated
    exact ⟨fun inner => absurd ⟨last, line, List.mem_of_getElem? found, terminated⟩ inner,
      fun _ _ => by omega⟩

/-! ## What `check` leaves -/

/-- The entry that `check` leaves of a pair: lines that differ are no longer matched. -/
def agreed (olds news : List (List Byte)) (J : Table Nat) (i : Nat) : Nat :=
  if J i ≠ 0 ∧ olds[i - 1]? = news[J i - 1]? then J i else 0

/-- The nonzero entries of a match vector rise and stay inside of the new file. -/
structure Rises (len0 len1 : Nat) (J : Table Nat) : Prop where
  rising : ∀ i k, 0 < i → i < k → k ≤ len0 → J i ≠ 0 → J k ≠ 0 → J i < J k
  inside : ∀ i, 0 < i → i ≤ len0 → J i ≤ len1

/--
The unterminated last line of the old file is paired with a line that goes on
behind it: `check` stops in the middle of the new line.
-/
structure Cut (olds news : List (List Byte)) (J : Table Nat) (line : List Byte) (next : Byte)
    (more : List Byte) : Prop where
  last : olds[olds.length - 1]? = some line
  unterminated : ¬ Terminated line
  paired : J olds.length ≠ 0
  longer : news[J olds.length - 1]? = some (line ++ next :: more)
  inside : next ≠ nl

/-- The old file is read and indexed up to line `i`. -/
structure OldRead (olds : List (List Byte)) (i : Nat) (state : State) : Prop where
  f1 : state.f1 = (olds.drop i).flatten
  ctold : state.ctold = state.ixold i
  stands : ∀ k, k ≤ i → Stands olds k (state.ixold k)

/-- The new file is read and indexed up to line `p`. -/
structure NewRead (news : List (List Byte)) (p : Nat) (state : State) : Prop where
  j : state.j = p + 1
  f2 : state.f2 = (news.drop p).flatten
  ctnew : state.ctnew = state.ixnew p
  stands : ∀ k, k ≤ p → Stands news k (state.ixnew k)

theorem Stands.set {list : List (List Byte)} {ix : Table Nat} {i count : Nat} {line : List Byte}
    (ordered : LineList list) (stands : ∀ k, k ≤ i → Stands list k (ix k))
    (found : list[i]? = some line) (covers : Covers line count) :
    ∀ k, k ≤ i + 1 → Stands list k ((ix.set (i + 1) (ix i + count)) k) := by
  intro k bound
  rw [Table.set_entry]
  split
  · next last =>
      subst last
      exact (stands i (Nat.le_refl i)).next ordered found covers
  · exact stands k (by omega)

section

variable {olds news : List (List Byte)} {i p : Nat} {line : List Byte} {state : State}

theorem OldRead.next (ordered : LineList olds) (read : OldRead olds i state)
    (found : olds[i]? = some line) {count : Nat} (covers : Covers line count) {after : State}
    (f1 : after.f1 = (olds.drop (i + 1)).flatten) (ctold : after.ctold = state.ctold + count)
    (ixold : after.ixold = state.ixold.set (i + 1) (state.ctold + count)) :
    OldRead olds (i + 1) after := by
  refine ⟨f1, by rw [ctold, ixold, Table.set_same], ?_⟩
  rw [ixold, read.ctold]
  exact Stands.set ordered read.stands found covers

theorem NewRead.next (ordered : LineList news) (read : NewRead news p state)
    (found : news[p]? = some line) {count : Nat} (covers : Covers line count) {after : State}
    (j : after.j = state.j + 1) (f2 : after.f2 = (news.drop (p + 1)).flatten)
    (ctnew : after.ctnew = state.ctnew + count)
    (ixnew : after.ixnew = state.ixnew.set state.j (state.ctnew + count)) :
    NewRead news (p + 1) after := by
  rw [read.j] at j ixnew
  refine ⟨j, f2, by rw [ctnew, ixnew, Table.set_same], ?_⟩
  rw [ixnew, read.ctnew]
  exact Stands.set ordered read.stands found covers

theorem OldRead.getline (ordered : LineList olds) (read : OldRead olds i state)
    (found : olds[i]? = some line) :
    getline state.f1 = (line, (olds.drop (i + 1)).flatten) := by
  have behind := ordered.drop i
  rw [read.f1, drop_found found]
  rw [drop_found found] at behind
  exact getline_flatten behind

theorem NewRead.getline (ordered : LineList news) (read : NewRead news p state)
    (found : news[p]? = some line) :
    getline state.f2 = (line, (news.drop (p + 1)).flatten) := by
  have behind := ordered.drop p
  rw [read.f2, drop_found found]
  rw [drop_found found] at behind
  exact getline_flatten behind

theorem skipNews_old (count : Nat) (state : State) :
    (state.skipNews count).f1 = state.f1 ∧ (state.skipNews count).ctold = state.ctold ∧
      (state.skipNews count).ixold = state.ixold ∧ (state.skipNews count).J = state.J := by
  induction count generalizing state with
  | zero => exact ⟨rfl, rfl, rfl, rfl⟩
  | succ count ih => exact ih state.skipNew

theorem OldRead.skipNews (read : OldRead olds i state) (count : Nat) :
    OldRead olds i (state.skipNews count) := by
  obtain ⟨f1, ctold, ixold, -⟩ := skipNews_old count state
  exact ⟨f1.trans read.f1, by rw [ctold, ixold, read.ctold], by rw [ixold]; exact read.stands⟩

theorem NewRead.skipNews (ordered : LineList news) (read : NewRead news p state) {count : Nat}
    (inside : p + count ≤ news.length) : NewRead news (p + count) (state.skipNews count) := by
  induction count generalizing p state with
  | zero => exact read
  | succ count ih =>
      have found := List.getElem?_eq_getElem (l := news) (i := p) (by omega)
      have line := read.getline ordered found
      have skipped : NewRead news (p + 1) state.skipNew := by
        refine read.next ordered found (covers_span _) rfl ?_ ?_ ?_
        · show (skipline state.f2).2 = _
          rw [skipline_eq, line]
        · show state.ctnew + (skipline state.f2).1 = _
          rw [skipline_eq, line]
        · show state.ixnew.set state.j (state.ctnew + (skipline state.f2).1) = _
          rw [skipline_eq, line]
      have rest := ih skipped (by omega)
      rwa [Nat.add_assoc, Nat.add_comm 1] at rest

end

/-- The match vector when the pairs up to line `i` have been checked. -/
def Entries (olds news : List (List Byte)) (J : Table Nat) (i : Nat) (entries : Table Nat) : Prop :=
  ∀ k, 0 < k → entries k = if k ≤ i then agreed olds news J k else J k

section

variable {olds news : List (List Byte)} {J entries : Table Nat} {i p : Nat} {state : State}
  {line : List Byte}

theorem Entries.coming (checked : Entries olds news J i entries) :
    entries (i + 1) = J (i + 1) := by
  rw [checked (i + 1) (Nat.succ_pos i), if_neg (by omega)]

theorem Entries.keep (checked : Entries olds news J i entries)
    (stays : agreed olds news J (i + 1) = J (i + 1)) : Entries olds news J (i + 1) entries := by
  intro k positive
  rw [checked k positive]
  by_cases last : k = i + 1
  · subst last
    rw [if_neg (by omega), if_pos (Nat.le_refl _), stays]
  · by_cases before : k ≤ i
    · rw [if_pos before, if_pos (by omega)]
    · rw [if_neg before, if_neg (by omega)]

theorem Entries.drop (checked : Entries olds news J i entries)
    (goes : agreed olds news J (i + 1) = 0) :
    Entries olds news J (i + 1) (entries.set (i + 1) 0) := by
  intro k positive
  rw [Table.set_entry]
  by_cases last : k = i + 1
  · subst last
    rw [if_pos rfl, if_pos (Nat.le_refl _), goes]
  · rw [if_neg last, checked k positive]
    by_cases before : k ≤ i
    · rw [if_pos before, if_pos (by omega)]
    · rw [if_neg before, if_neg (by omega)]

end

/-- Both files are read up to the lines `i` and `p`, and the pairs up to line `i` checked. -/
structure Reading (olds news : List (List Byte)) (J : Table Nat) (i p : Nat) (state : State) :
    Prop where
  old : OldRead olds i state
  new : NewRead news p state
  entries : Entries olds news J i state.J
  ahead : ∀ k, i < k → k ≤ olds.length → J k ≠ 0 → p < J k
  inside : p ≤ news.length

section

variable {olds news : List (List Byte)} {J : Table Nat} {i p : Nat} {state : State}
  {line other : List Byte}

theorem Reading.catchUp (reading : Reading olds news J i p state) (ordered : LineList news)
    (rises : Rises olds.length news.length J) (less : i < olds.length) (paired : J (i + 1) ≠ 0) :
    OldRead olds i (state.skipNews (state.J (i + 1) - state.j)) ∧
      NewRead news (J (i + 1) - 1) (state.skipNews (state.J (i + 1) - state.j)) := by
  have ahead := reading.ahead (i + 1) (Nat.lt_succ_self i) less paired
  have inside := rises.inside (i + 1) (Nat.succ_pos i) less
  have count : p + (J (i + 1) - (p + 1)) = J (i + 1) - 1 := by omega
  have fits : p + (J (i + 1) - (p + 1)) ≤ news.length := by omega
  rw [reading.entries.coming, reading.new.j]
  exact ⟨reading.old.skipNews _, count ▸ reading.new.skipNews ordered fits⟩

theorem checkLine_unpaired {k : Nat} (zero : state.J k = 0) :
    state.checkLine k =
      { state with
        ctold := state.ctold + (skipline state.f1).1
        f1 := (skipline state.f1).2
        ixold := state.ixold.set k (state.ctold + (skipline state.f1).1) } :=
  if_pos zero

theorem checkLine_paired {k : Nat} (nonzero : state.J k ≠ 0) {ready : State}
    (skipped : state.skipNews (state.J k - state.j) = ready) {result : Compared}
    (compared : compareLines ready.f1 ready.f2 = result) :
    state.checkLine k =
      { j := ready.j + 1
        ctold := ready.ctold + result.old
        ctnew := ready.ctnew + result.new
        f1 := result.f1
        f2 := result.f2
        J := if result.same then ready.J else ready.J.set k 0
        ixold := ready.ixold.set k (ready.ctold + result.old)
        ixnew := ready.ixnew.set ready.j (ready.ctnew + result.new) } := by
  subst skipped compared
  exact if_neg nonzero

theorem compareLines_whole {restOld restNew : List Byte} {f1 f2 : List Byte}
    (oldLine : getline f1 = (line, restOld)) (newLine : getline f2 = (other, restNew))
    (isLine : IsLine other)
    (uncut : ∀ next more, ¬ Terminated line → other = line ++ next :: more → next = nl) :
    ∃ count, Covers other count ∧
      compareLines f1 f2 =
        { same := decide (line = other), old := span line, new := count,
          f1 := restOld, f2 := restNew } := by
  rw [compareLines_eq, oldLine, newLine]
  dsimp only
  by_cases same : line = other
  · rw [if_pos same, decide_eq_true same]
    exact ⟨_, covers_span other, rfl⟩
  · rw [if_neg same, decide_eq_false same]
    split
    · next shorter =>
        obtain ⟨unterminated, more, whole⟩ := shorter
        cases more with
        | nil => exact absurd (by simpa using whole) same
        | cons next more =>
            have newline := uncut next more unterminated whole.symm
            subst newline
            have short : more = [] := (whole ▸ isLine).nl_last
            subst short
            have terminated : Terminated other := by
              rw [← whole]
              simp [Terminated]
            have length : span line = other.length := by
              rw [← whole]
              simp [span, unterminated]
            refine ⟨span line, ⟨fun _ => length, fun open_ => absurd terminated open_⟩, ?_⟩
            have stream := getline_append f2
            rw [newLine] at stream
            rw [← stream, length, List.drop_left]
    · next apart =>
        refine ⟨_, ⟨fun ends => ?_, fun ends => ?_⟩, rfl⟩
        · simp [span, ends]
        · rw [span, if_neg ends]
          omega

/-- One turn of the loop, unless it ends inside of a new line. -/
theorem Reading.next (reading : Reading olds news J i p state) (orderedOld : LineList olds)
    (orderedNew : LineList news) (rises : Rises olds.length news.length J)
    (found : olds[i]? = some line)
    (uncut : ∀ next more, ¬ Terminated line → J (i + 1) ≠ 0 →
      news[J (i + 1) - 1]? = some (line ++ next :: more) → next = nl) :
    ∃ q, Reading olds news J (i + 1) q (state.checkLine (i + 1)) := by
  have less := (List.getElem?_eq_some_iff.mp found).1
  have entry := reading.entries.coming
  by_cases zero : J (i + 1) = 0
  · have read := reading.old.getline orderedOld found
    rw [checkLine_unpaired (entry.trans zero), skipline_eq, read]
    refine ⟨p, reading.old.next orderedOld found (covers_span line) rfl rfl rfl,
      ⟨reading.new.j, reading.new.f2, reading.new.ctnew, reading.new.stands⟩,
      reading.entries.keep ?_, fun k more => reading.ahead k (by omega), reading.inside⟩
    rw [agreed, if_neg (by simp [zero]), zero]
  · have inside := rises.inside (i + 1) (Nat.succ_pos i) less
    have foundNew := List.getElem?_eq_getElem (l := news) (i := J (i + 1) - 1) (by omega)
    generalize news[J (i + 1) - 1] = other at foundNew
    obtain ⟨oldReady, newReady⟩ := reading.catchUp orderedNew rises less zero
    have kept := (skipNews_old (state.J (i + 1) - state.j) state).2.2.2
    generalize ready : state.skipNews (state.J (i + 1) - state.j) = caught at *
    obtain ⟨count, covers, compared⟩ := compareLines_whole (oldReady.getline orderedOld found)
      (newReady.getline orderedNew foundNew) (orderedNew.isLine (List.mem_of_getElem? foundNew))
      fun next more unterminated whole => uncut next more unterminated zero (whole ▸ foundNew)
    have place : J (i + 1) = J (i + 1) - 1 + 1 := by omega
    rw [checkLine_paired (by rw [entry]; exact zero) ready compared]
    refine ⟨J (i + 1), oldReady.next orderedOld found (covers_span line) rfl rfl rfl, ?_, ?_,
      fun k more bound nonzero => rises.rising (i + 1) k (Nat.succ_pos i) more bound zero nonzero,
      inside⟩
    · rw [place]
      exact newReady.next orderedNew foundNew covers rfl rfl rfl rfl
    · dsimp only
      rw [kept]
      by_cases same : line = other
      · rw [decide_eq_true same]
        refine reading.entries.keep (if_pos ⟨zero, ?_⟩)
        rw [Nat.add_sub_cancel, found, foundNew, same]
      · rw [decide_eq_false same]
        refine reading.entries.drop (if_neg fun both => same ?_)
        rw [Nat.add_sub_cancel, found, foundNew] at both
        exact Option.some.inj both.2

theorem Reading.foldl (orderedOld : LineList olds) (orderedNew : LineList news)
    (rises : Rises olds.length news.length J) {count : Nat} (inside : count ≤ olds.length)
    (uncut : ∀ k line, k < count → olds[k]? = some line → ∀ next more, ¬ Terminated line →
      J (k + 1) ≠ 0 → news[J (k + 1) - 1]? = some (line ++ next :: more) → next = nl) :
    ∃ q, Reading olds news J count q
      ((List.range' 1 count).foldl State.checkLine
        (State.start olds.flatten news.flatten J)) := by
  induction count with
  | zero =>
      refine ⟨0, ⟨rfl, rfl, ?_⟩, ⟨rfl, rfl, rfl, ?_⟩, fun k positive => ?_,
        fun k positive bound nonzero => Nat.pos_of_ne_zero nonzero, Nat.zero_le _⟩
      · rintro k bound
        rw [Nat.le_zero.mp bound]
        exact stands_zero
      · rintro k bound
        rw [Nat.le_zero.mp bound]
        exact stands_zero
      · rw [if_neg (by omega)]
        rfl
  | succ count ih =>
      obtain ⟨q, reading⟩ := ih (by omega) fun k line less => uncut k line (by omega)
      have found := List.getElem?_eq_getElem (l := olds) (i := count) (by omega)
      rw [List.range'_concat, List.foldl_append, Nat.one_mul, Nat.add_comm 1]
      exact reading.next orderedOld orderedNew rises found
        (uncut count _ (Nat.lt_succ_self count) found)

end

/-- A table that holds the end of every line. -/
def Indexed (list : List (List Byte)) (ix : Table Nat) : Prop :=
  ∀ k, k ≤ list.length → Stands list k (ix k)

section

variable {olds news : List (List Byte)} {J : Table Nat} {line : List Byte} {next : Byte}
  {more : List Byte}

theorem check_spec (orderedOld : LineList olds) (orderedNew : LineList news)
    (rises : Rises olds.length news.length J)
    (uncut : ∀ line next more, ¬ Cut olds news J line next more) :
    Indexed olds (check olds.length news.length olds.flatten news.flatten J).ixold ∧
      Indexed news (check olds.length news.length olds.flatten news.flatten J).ixnew ∧
      Entries olds news J olds.length
        (check olds.length news.length olds.flatten news.flatten J).J := by
  have whole : ∀ k line, k < olds.length → olds[k]? = some line → ∀ next more,
      ¬ Terminated line → J (k + 1) ≠ 0 → news[J (k + 1) - 1]? = some (line ++ next :: more) →
      next = nl := by
    intro k line _ found next more unterminated paired longer
    by_contra inside
    have last := orderedOld.last_of_open found unterminated
    refine uncut line next more ⟨?_, unterminated, last ▸ paired, last ▸ longer, inside⟩
    rw [← last]
    exact found
  obtain ⟨q, reading⟩ := Reading.foldl orderedOld orderedNew rises (Nat.le_refl _) whole
  unfold check
  generalize (List.range' 1 olds.length).foldl State.checkLine
    (State.start olds.flatten news.flatten J) = state at reading
  have count : q + (news.length + 1 - state.j) = news.length := by
    rw [reading.new.j]
    have := reading.inside
    omega
  have rest := reading.new.skipNews orderedNew count.le
  rw [count] at rest
  refine ⟨(reading.old.skipNews _).stands, rest.stands, ?_⟩
  rw [(skipNews_old _ state).2.2.2]
  exact reading.entries

/-- The new lines as a cut leaves them: the line after the cut counts as two. -/
def cutLines (news : List (List Byte)) (j : Nat) (line : List Byte) (next : Byte)
    (more : List Byte) : List (List Byte) :=
  news.take (j - 1) ++ (line ++ [next]) :: ((if more = [] then [] else [more]) ++ news.drop j)

theorem offset_append_left {front back : List (List Byte)} {k : Nat} (inside : k ≤ front.length) :
    offset (front ++ back) k = offset front k := by
  rw [offset, List.take_append_of_le_length inside, offset]

theorem offset_append_right (front back : List (List Byte)) (k : Nat) :
    offset (front ++ back) (front.length + k) = front.flatten.length + offset back k := by
  rw [offset, List.take_length_add_append, List.flatten_append, List.length_append, offset]

theorem offset_take {list : List (List Byte)} {k n : Nat} (inside : k ≤ n) :
    offset (list.take n) k = offset list k := by
  rw [offset, List.take_take, Nat.min_eq_left inside, offset]

theorem skipNews_exact {rest : List (List Byte)} (ordered : LineList rest) {count : Nat}
    (terminated : ∀ k, k < count → ∃ line, rest[k]? = some line ∧ Terminated line) {state : State}
    (f2 : state.f2 = rest.flatten) :
    (∀ k, k < state.j → (state.skipNews count).ixnew k = state.ixnew k) ∧
      ∀ k, k < count →
        (state.skipNews count).ixnew (state.j + k) = state.ctnew + offset rest (k + 1) := by
  induction count generalizing rest state with
  | zero => exact ⟨fun _ _ => rfl, fun k none_ => absurd none_ (Nat.not_lt_zero k)⟩
  | succ count ih =>
      obtain ⟨line, found, ends⟩ := terminated 0 (Nat.succ_pos count)
      cases rest with
      | nil => cases found
      | cons first rest =>
          cases found
          have read : skipline state.f2 = (line.length, rest.flatten) := by
            rw [skipline_eq, f2, getline_flatten ordered]
            simp [span, ends]
          have after : state.skipNew =
              { state with
                j := state.j + 1
                ctnew := state.ctnew + line.length
                f2 := rest.flatten
                ixnew := state.ixnew.set state.j (state.ctnew + line.length) } := by
            rw [State.skipNew, read]
          have stream : state.skipNew.f2 = rest.flatten := by rw [after]
          obtain ⟨frame, later⟩ := ih ordered.tail
            (fun k less => terminated (k + 1) (by omega)) stream
          rw [after] at frame later
          rw [State.skipNews, after]
          constructor
          · intro k less
            rw [frame k (by dsimp only; omega)]
            exact Table.set_other _ _ (by omega)
          · intro k less
            cases k with
            | zero =>
                rw [offset_cons]
                exact (frame state.j (Nat.lt_succ_self _)).trans (Table.set_same _ _ _)
            | succ k =>
                have shifted := later k (by omega)
                dsimp only at shifted
                rw [Nat.add_comm k, ← Nat.add_assoc, shifted, Nat.add_comm 1, offset_cons]
                omega

theorem Cut.orderedRest (cut : Cut olds news J line next more) (ordered : LineList news) :
    LineList ((if more = [] then [] else [more]) ++ news.drop (J olds.length)) := by
  have paired := cut.paired
  have place : J olds.length - 1 + 1 = J olds.length := by omega
  have behind := ordered.drop (J olds.length - 1)
  rw [drop_found cut.longer, place] at behind
  split
  · exact behind.tail
  · next inner =>
      have isLine : IsLine more := by
        have whole := behind.head.clean
        rw [List.dropLast_append_of_ne_nil (by simp), List.dropLast_cons_of_ne_nil inner] at whole
        exact ⟨inner, fun inside => whole (by simp [inside])⟩
      refine LineList.cons isLine (fun follows => ?_) behind.tail
      have ends := behind.head_terminated follows
      unfold Terminated at ends ⊢
      rwa [List.getLast?_append_of_ne_nil _ (by simp), List.getLast?_cons_of_ne_nil inner] at ends

/-- The new side right after a cut. -/
structure AfterCut (news : List (List Byte)) (j : Nat) (line more : List Byte) (state : State) :
    Prop where
  place : state.j = j + 1
  f2 : state.f2 = ((if more = [] then [] else [more]) ++ news.drop j).flatten
  ctnew : state.ctnew = offset news (j - 1) + (line.length + 1)
  before : ∀ k, k < j → state.ixnew k = offset news k
  here : state.ixnew j = offset news (j - 1) + (line.length + 1)

theorem Cut.terminatedRest (cut : Cut olds news J line next more) (ordered : LineList news)
    {k : Nat} (less : k < news.length - J olds.length) :
    ∃ line, ((if more = [] then [] else [more]) ++ news.drop (J olds.length))[k]? = some line ∧
      Terminated line := by
  have paired := cut.paired
  have orderedRest := cut.orderedRest ordered
  have inner : more ≠ [] := by
    intro none_
    have longer := cut.longer
    rw [none_] at longer
    have last := ordered.last_of_open longer (by simp [Terminated, cut.inside])
    omega
  rw [if_neg inner] at orderedRest ⊢
  have length : ([more] ++ news.drop (J olds.length)).length =
      news.length - J olds.length + 1 := by simp
  have found := List.getElem?_eq_getElem (l := [more] ++ news.drop (J olds.length)) (i := k)
    (by omega)
  refine ⟨_, found, ?_⟩
  by_contra unterminated
  have last := orderedRest.last_of_open found unterminated
  omega

theorem Reading.cut {i p : Nat} {state : State} (reading : Reading olds news J i p state)
    (last : olds.length = i + 1) (orderedOld : LineList olds) (orderedNew : LineList news)
    (rises : Rises olds.length news.length J) (cut : Cut olds news J line next more) :
    OldRead olds (i + 1) (state.checkLine (i + 1)) ∧
      Entries olds news J (i + 1) (state.checkLine (i + 1)).J ∧
      AfterCut news (J (i + 1)) line more (state.checkLine (i + 1)) := by
  have found := cut.last
  have paired := cut.paired
  have longer := cut.longer
  rw [last] at found paired longer
  rw [Nat.add_sub_cancel] at found
  obtain ⟨oldReady, newReady⟩ := reading.catchUp orderedNew rises (by omega) paired
  have kept := (skipNews_old (state.J (i + 1) - state.j) state).2.2.2
  generalize ready : state.skipNews (state.J (i + 1) - state.j) = caught at *
  have oldLine := oldReady.getline orderedOld found
  have newLine := newReady.getline orderedNew longer
  have place : J (i + 1) - 1 + 1 = J (i + 1) := by omega
  have length : span line = line.length + 1 := by simp [span, cut.unterminated]
  have stream : caught.f2 = (line ++ [next]) ++
      ((if more = [] then [] else [more]) ++ news.drop (J (i + 1))).flatten := by
    have whole := getline_append caught.f2
    rw [newLine, place] at whole
    rw [← whole]
    split
    · next none_ => simp [none_]
    · simp
  have compared : compareLines caught.f1 caught.f2 =
      { same := false, old := span line, new := span line, f1 := (olds.drop (i + 1)).flatten,
        f2 := ((if more = [] then [] else [more]) ++ news.drop (J (i + 1))).flatten } := by
    rw [compareLines_eq, oldLine, newLine]
    rw [if_neg (by simp), if_pos ⟨cut.unterminated, List.prefix_append _ _⟩, stream,
      List.drop_left' (by simp [length])]
  have inside := (List.getElem?_eq_some_iff.mp longer).1
  have start : caught.ctnew = offset news (J (i + 1) - 1) := by
    rw [newReady.ctnew]
    exact (newReady.stands _ (Nat.le_refl _)).exact fun final => by omega
  rw [checkLine_paired (by rw [reading.entries.coming]; exact paired) ready compared]
  refine ⟨oldReady.next orderedOld found (covers_span line) rfl rfl rfl, ?_, ?_⟩
  · dsimp only
    rw [kept]
    refine reading.entries.drop (if_neg fun both => ?_)
    have same := both.2
    rw [Nat.add_sub_cancel, found, longer] at same
    simp at same
  · refine ⟨?_, rfl, ?_, fun k less => ?_, ?_⟩
    · show caught.j + 1 = _
      rw [newReady.j, place]
    · show caught.ctnew + span line = _
      rw [start, length]
    · show caught.ixnew.set caught.j (caught.ctnew + span line) k = _
      rw [newReady.j, place, Table.set_other _ _ (by omega)]
      exact (newReady.stands k (by omega)).exact fun final => by omega
    · show caught.ixnew.set caught.j (caught.ctnew + span line) (J (i + 1)) = _
      rw [newReady.j, place, Table.set_same, start, length]

theorem check_cut (orderedOld : LineList olds) (orderedNew : LineList news)
    (rises : Rises olds.length news.length J) (cut : Cut olds news J line next more) :
    Indexed olds (check olds.length news.length olds.flatten news.flatten J).ixold ∧
      (∀ k, k ≤ news.length →
        (check olds.length news.length olds.flatten news.flatten J).ixnew k =
          offset (cutLines news (J olds.length) line next more) k) ∧
      Entries olds news J olds.length
        (check olds.length news.length olds.flatten news.flatten J).J := by
  obtain ⟨i, last⟩ : ∃ i, olds.length = i + 1 := by
    have found := (List.getElem?_eq_some_iff.mp cut.last).1
    exact ⟨olds.length - 1, by omega⟩
  have whole : ∀ k line, k < i → olds[k]? = some line → ∀ next more,
      ¬ Terminated line → J (k + 1) ≠ 0 → news[J (k + 1) - 1]? = some (line ++ next :: more) →
      next = nl := by
    intro k line less found next more unterminated
    have := orderedOld.last_of_open found unterminated
    omega
  obtain ⟨q, reading⟩ := Reading.foldl orderedOld orderedNew rises (by omega) whole
  obtain ⟨old, entries, new⟩ := reading.cut last orderedOld orderedNew rises cut
  have ordered := cut.orderedRest orderedNew
  have paired := cut.paired
  have inside := (List.getElem?_eq_some_iff.mp cut.longer).1
  unfold check
  rw [last] at ordered paired inside ⊢
  rw [List.range'_concat, List.foldl_append, Nat.one_mul, Nat.add_comm 1]
  dsimp only [List.foldl_cons, List.foldl_nil]
  generalize ((List.range' 1 i).foldl State.checkLine
    (State.start olds.flatten news.flatten J)).checkLine (i + 1) = state at *
  refine ⟨fun k bound => (old.skipNews _).stands k (by omega), fun k bound => ?_, ?_⟩
  · have count : news.length + 1 - state.j = news.length - J (i + 1) := by
      rw [new.place]
      omega
    obtain ⟨frame, later⟩ := skipNews_exact ordered
      (fun k less => last ▸ cut.terminatedRest orderedNew (last.symm ▸ less)) new.f2
    have front : (news.take (J (i + 1) - 1)).length = J (i + 1) - 1 := by
      rw [List.length_take]
      omega
    rw [count, cutLines]
    by_cases before : k < J (i + 1)
    · rw [frame k (by rw [new.place]; omega), new.before k before,
        offset_append_left (by omega), offset_take (by omega)]
    · obtain ⟨t, rfl⟩ : ∃ t, k = J (i + 1) - 1 + (t + 1) := ⟨k - J (i + 1), by omega⟩
      have placed := offset_append_right (news.take (J (i + 1) - 1)) ((line ++ [next]) ::
        ((if more = [] then [] else [more]) ++ news.drop (J (i + 1)))) (t + 1)
      rw [front] at placed
      rw [placed, offset_cons, List.length_append, List.length_singleton]
      show _ = offset news (J (i + 1) - 1) + _
      cases t with
      | zero =>
          have index : J (i + 1) - 1 + (0 + 1) = J (i + 1) := by omega
          rw [index, frame _ (by rw [new.place]; omega), new.here]
          simp [offset]
      | succ t =>
          have index : J (i + 1) - 1 + (t + 1 + 1) = state.j + t := by
            rw [new.place]
            omega
          rw [index, later t (by omega), new.ctnew]
          omega
  · rw [(skipNews_old _ state).2.2.2]
    exact entries

end

end Netbase.Diff.Check
