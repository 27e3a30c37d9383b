import Mathlib.Tactic.IntervalCases
import Netbase.Diff.Check
import Netbase.Text.Decimal

/-!
# Lines that are equal but for case and blanks

With `-b`, `-w` and `-i` lines are compared after folding.  `readhash` leaves out what
does not count while it adds up a line; `check` reads two lines side by side and skips
blanks in both.  Letters are folded by the table `cup2low`, which moves the whole range
from `@` to `_`.
-/

namespace Netbase.Diff.Fold

open Netbase.Lib
open Netbase.Text
open Netbase.Diff.Check (hashStep skipline Compared compareLines)

/-! ## Hashing and comparing -/

/-- `D_FOLDBLANKS`, `D_IGNOREBLANKS` and `D_IGNORECASE` -/
structure Flags where
  foldBlanks : Bool
  ignoreBlanks : Bool
  ignoreCase : Bool
  deriving DecidableEq, Repr

def cup2low (c : Byte) : Byte := if 0x40 ≤ c ∧ c ≤ 0x5f then c + 0x20 else c

def clow2low (c : Byte) : Byte := c

def Flags.chrtran (flags : Flags) : Byte → Byte := if flags.ignoreCase then cup2low else clow2low

/-- A sum of zero would mean the end of the file. -/
def hashEnd (sum : Int) : Int := if sum = 0 then 1 else sum

/-- The loop of `readhash` where blanks count. -/
def readPlain (flags : Flags) (sum : Int) : List Byte → Int × List Byte
  | [] => (sum, [])
  | t :: f => if t = nl then (sum, f) else readPlain flags (hashStep sum (flags.chrtran t)) f

/-- The loop of `readhash` with `-b` or `-w`. -/
def readBlanks (flags : Flags) : Nat → Nat → Int → List Byte → Int × List Byte
  | i, _, sum, [] => (if i = 0 then 0 else hashEnd sum, [])
  | i, space, sum, t :: f =>
      if t = nl then (hashEnd sum, f)
      else if isspace t then readBlanks flags i (space + 1) sum f
      else if space ≠ 0 ∧ flags.ignoreBlanks = false then
        readBlanks flags (i + 2) 0 (hashStep sum (flags.chrtran t)) f
      else readBlanks flags (i + 1) space (hashStep sum (flags.chrtran t)) f

def readhash (flags : Flags) (f : List Byte) : Int × List Byte :=
  if flags.foldBlanks || flags.ignoreBlanks then readBlanks flags 0 0 1 f
  else if f = [] then (0, [])
  else
    let (sum, rest) := readPlain flags 1 f
    (hashEnd sum, rest)

def prepareFrom (flags : Flags) : Nat → List Byte → List Int
  | 0, _ => []
  | fuel + 1, f =>
      let (h, rest) := readhash flags f
      if h = 0 then [] else h :: prepareFrom flags fuel rest

/-- The hash values of a file. -/
def prepare (flags : Flags) (file : List Byte) : List Int :=
  prepareFrom flags (file.length + 1) file

/-- `getc`; `none` is `EOF`. -/
def getc : List Byte → Option Byte × List Byte
  | [] => (none, [])
  | c :: f => (some c, f)

/-- `do { if (c == '\n') break; ct++; } while (isspace(c = getc(f)))`: how far the count has
moved, the character and the rest. -/
def foldRun (c : Option Byte) : List Byte → Nat × Option Byte × List Byte
  | [] => if c = some nl then (0, c, []) else (1, none, [])
  | b :: f =>
      if c = some nl then (0, c, b :: f)
      else if isspace b then
        let run := foldRun (some b) f
        (1 + run.1, run.2)
      else (1, some b, f)

/-- `while (isspace(c) && c != '\n') { c = getc(f); ct++; }` -/
def ignoreRun (c : Option Byte) : List Byte → Nat × Option Byte × List Byte
  | [] => if c.any isspace ∧ c ≠ some nl then (1, none, []) else (0, c, [])
  | b :: f =>
      if c.any isspace ∧ c ≠ some nl then
        let run := ignoreRun (some b) f
        (1 + run.1, run.2)
      else (0, c, b :: f)

/-- The blanks that are skipped in both files before two characters are compared. -/
def skipBlanks (flags : Flags) (c d : Option Byte) (f1 f2 : List Byte) :
    (Nat × Option Byte × List Byte) × Nat × Option Byte × List Byte :=
  if flags.foldBlanks = true ∧ c.any isspace ∧ d.any isspace then (foldRun c f1, foldRun d f2)
  else if flags.ignoreBlanks then (ignoreRun c f1, ignoreRun d f2)
  else ((0, c, f1), 0, d, f2)

/-- `chrtran[c]`; `before` is the byte in front of the table. -/
def Flags.tran (flags : Flags) (before : Byte) : Option Byte → Byte
  | none => before
  | some c => flags.chrtran c

/-- The comparison of two lines in `check` with one of the flags. -/
def compareFolded (flags : Flags) (before : Byte) : Nat → List Byte → List Byte → Compared
  | 0, f1, f2 => { same := true, old := 0, new := 0, f1 := f1, f2 := f2 }
  | fuel + 1, f1, f2 =>
      let (c, f1) := getc f1
      let (d, f2) := getc f2
      let lax := flags.foldBlanks || flags.ignoreBlanks
      -- a missing newline in one file does not count
      if lax = true ∧ c = none ∧ d = some nl then
        { same := true, old := 0, new := 1, f1 := f1, f2 := f2 }
      else if lax = true ∧ c = some nl ∧ d = none then
        { same := true, old := 1, new := 0, f1 := f1, f2 := f2 }
      else
        let ((old, c, f1), new, d, f2) := skipBlanks flags c d f1 f2
        if flags.tran before c ≠ flags.tran before d then
          let (oldRest, f1) := if c ≠ some nl ∧ c ≠ none then skipline f1 else (0, f1)
          let (newRest, f2) := if d ≠ some nl ∧ c ≠ none then skipline f2 else (0, f2)
          { same := false, old := 1 + old + oldRest, new := 1 + new + newRest, f1 := f1, f2 := f2 }
        else if c = some nl ∨ c = none then
          { same := true, old := 1 + old, new := 1 + new, f1 := f1, f2 := f2 }
        else
          let rest := compareFolded flags before fuel f1 f2
          { rest with old := 1 + old + rest.old, new := 1 + new + rest.new }

/-- The comparison of two lines in `check`. -/
def compareWith (flags : Flags) (before : Byte) (f1 f2 : List Byte) : Compared :=
  if flags.foldBlanks || flags.ignoreBlanks || flags.ignoreCase then
    compareFolded flags before (f1.length + 1) f1 f2
  else compareLines f1 f2

/-! ## The normal form -/

/-- Runs of blanks become one, and those at the end are dropped. -/
def collapse : Bool → List Byte → List Byte
  | _, [] => []
  | pending, c :: s =>
      if isspace c then collapse true s
      else (if pending then [byte ' '] else []) ++ c :: collapse false s

/-- What `-w` or `-b` leaves of a line. -/
def Flags.unblank (flags : Flags) (s : List Byte) : List Byte :=
  if flags.ignoreBlanks then s.filter fun c => !isspace c
  else if flags.foldBlanks then collapse false s
  else s

/-- ASCII lower case. -/
def lower (c : Byte) : Byte := if byte 'A' ≤ c ∧ c ≤ byte 'Z' then c + 0x20 else c

/-- The normal form of a line without its newline. -/
def Flags.normal (flags : Flags) (s : List Byte) : List Byte :=
  (flags.unblank s).map (if flags.ignoreCase then lower else id)

/-- The characters `@[\]^_`, which the table takes for capitals. -/
def miscase (c : Byte) : Byte := if c = 0x40 ∨ 0x5b ≤ c ∧ c ≤ 0x5f then c + 0x20 else c

/-- What two lines are compared by. -/
def Flags.folded (flags : Flags) (s : List Byte) : List Byte :=
  (flags.unblank s).map flags.chrtran

theorem cup2low_eq (c : Byte) : cup2low c = miscase (lower c) := by
  have all : ∀ c, cup2low c = miscase (lower c) := forall_byte (by decide +kernel)
  exact all c

theorem cup2low_isspace (c : Byte) : isspace (cup2low c) = isspace c := by
  have all : ∀ c, isspace (cup2low c) = isspace c := forall_byte (by decide +kernel)
  exact all c

theorem cup2low_blank (c : Byte) : isspace c = true → cup2low c = c := by
  have all : ∀ c, isspace c = true → cup2low c = c := forall_byte (by decide +kernel)
  exact all c

theorem isspace_nl : isspace nl = true := by decide

namespace Flags

variable (flags : Flags)

theorem chrtran_isspace (c : Byte) : isspace (flags.chrtran c) = isspace c := by
  unfold chrtran
  split
  · exact cup2low_isspace c
  · rfl

theorem chrtran_blank {c : Byte} (blank : isspace c = true) : flags.chrtran c = c := by
  unfold chrtran
  split
  · exact cup2low_blank c blank
  · rfl

theorem chrtran_apart {c d : Byte} (visible : isspace c = false) (blank : isspace d = true) :
    flags.chrtran c ≠ flags.chrtran d := by
  intro same
  have both := congrArg isspace same
  rw [flags.chrtran_isspace, flags.chrtran_isspace, visible, blank] at both
  cases both

/-- Lines are compared by their normal form, with the six characters taken for capitals. -/
theorem folded_eq (s : List Byte) :
    flags.folded s = if flags.ignoreCase then (flags.normal s).map miscase else flags.normal s := by
  unfold folded normal chrtran
  cases flags.ignoreCase with
  | false =>
      rw [if_neg Bool.false_ne_true, if_neg Bool.false_ne_true, if_neg Bool.false_ne_true]
      rfl
  | true =>
      rw [if_pos rfl, if_pos rfl, if_pos rfl, List.map_map]
      exact List.map_congr_left fun c _ => cup2low_eq c

theorem folded_of_normal {a b : List Byte} (same : flags.normal a = flags.normal b) :
    flags.folded a = flags.folded b := by
  rw [folded_eq, folded_eq, same]

theorem chrtran_nl {c : Byte} : flags.chrtran c = flags.chrtran nl ↔ c = nl := by
  constructor
  · intro same
    have blank := congrArg isspace same
    rw [flags.chrtran_isspace, flags.chrtran_isspace, isspace_nl] at blank
    rwa [flags.chrtran_blank blank, flags.chrtran_blank isspace_nl] at same
  · intro same
    rw [same]

end Flags

/-! ## Skipping blanks -/

/-- The first character of a text that stands in front of a newline. -/
def Heads (s r : List Byte) (c : Byte) (f : List Byte) : Prop := s ++ nl :: r = c :: f

theorem Heads.exists (s r : List Byte) : ∃ c f, Heads s r c f := by
  cases s with
  | nil => exact ⟨nl, r, rfl⟩
  | cons c s => exact ⟨c, s ++ nl :: r, rfl⟩

theorem length_dropWhile_le (s : List Byte) : (s.dropWhile isspace).length ≤ s.length :=
  (List.dropWhile_suffix isspace).length_le

theorem foldRun_text {s r : List Byte} {c d : Byte} {f g : List Byte} (body : nl ∉ s)
    (here : Heads s r c f) (blank : isspace c = true)
    (there : Heads (s.dropWhile isspace) r d g) :
    foldRun (some c) f = (s.length - (s.dropWhile isspace).length, some d, g) := by
  induction s generalizing c f with
  | nil =>
      cases here
      cases there
      cases r <;> simp [foldRun]
  | cons b s ih =>
      cases here
      rw [List.mem_cons, not_or] at body
      rw [List.dropWhile_cons_of_pos blank] at there ⊢
      obtain ⟨next, rest, after⟩ := Heads.exists s r
      have other : ¬ some b = some nl := fun same => body.1 (Option.some.inj same).symm
      rw [show s.append (nl :: r) = next :: rest from after, foldRun, if_neg other]
      by_cases more : isspace next = true
      · have shorter := length_dropWhile_le s
        rw [if_pos more, ih body.2 after more there, List.length_cons]
        simp only [Prod.mk.injEq, and_true]
        omega
      · have stays : s.dropWhile isspace = s := by
          cases s with
          | nil => rfl
          | cons x s =>
              cases after
              exact List.dropWhile_cons_of_neg more
        rw [stays] at there ⊢
        cases after.symm.trans there
        rw [if_neg more, List.length_cons, Nat.add_sub_cancel_left]

theorem ignoreRun_text {s r : List Byte} {c d : Byte} {f g : List Byte} (body : nl ∉ s)
    (here : Heads s r c f) (there : Heads (s.dropWhile isspace) r d g) :
    ignoreRun (some c) f = (s.length - (s.dropWhile isspace).length, some d, g) := by
  induction s generalizing c f with
  | nil =>
      cases here
      cases there
      cases r <;> simp [ignoreRun]
  | cons b s ih =>
      cases here
      rw [List.mem_cons, not_or] at body
      obtain ⟨next, rest, after⟩ := Heads.exists s r
      have other : ¬ some b = some nl := fun same => body.1 (Option.some.inj same).symm
      rw [show s.append (nl :: r) = next :: rest from after, ignoreRun]
      by_cases blank : isspace b = true
      · have shorter := length_dropWhile_le s
        rw [List.dropWhile_cons_of_pos blank] at there ⊢
        rw [if_pos ⟨blank, other⟩, ih body.2 after there, List.length_cons]
        simp only [Prod.mk.injEq, and_true]
        omega
      · rw [List.dropWhile_cons_of_neg blank] at there ⊢
        cases there
        rw [if_neg fun both => blank both.1, Nat.sub_self, show s.append (nl :: r) = next :: rest from after]

/-- Does the text begin with a blank, the newline behind it counted? -/
def startsBlank (s : List Byte) : Bool := s.head?.all isspace

theorem Heads.startsBlank {s r : List Byte} {c : Byte} {f : List Byte} (here : Heads s r c f) :
    isspace c = startsBlank s := by
  cases s with
  | nil =>
      cases here
      rfl
  | cons b s =>
      cases here
      rfl

/-- Are leading blanks skipped in both lines? -/
def Flags.skips (flags : Flags) (s t : List Byte) : Bool :=
  flags.ignoreBlanks || flags.foldBlanks && startsBlank s && startsBlank t

/-- What is left of a line when its blanks are skipped. -/
def skipped (skips : Bool) (s : List Byte) : List Byte := if skips then s.dropWhile isspace else s

theorem skipped_suffix (skips : Bool) (s : List Byte) : skipped skips s <:+ s := by
  unfold skipped
  split
  · exact List.dropWhile_suffix isspace
  · exact List.suffix_rfl

theorem skipBlanks_text (flags : Flags) {s t r q : List Byte} {c d c' d' : Byte}
    {f g f' g' : List Byte} (body : nl ∉ s) (bodyNew : nl ∉ t) (here : Heads s r c f)
    (hereNew : Heads t q d g) (there : Heads (skipped (flags.skips s t) s) r c' f')
    (thereNew : Heads (skipped (flags.skips s t) t) q d' g') :
    skipBlanks flags (some c) (some d) f g =
      ((s.length - (skipped (flags.skips s t) s).length, some c', f'),
        t.length - (skipped (flags.skips s t) t).length, some d', g') := by
  have blank := here.startsBlank
  have blankNew := hereNew.startsBlank
  unfold skipBlanks
  rw [Option.any_some, Option.any_some, blank, blankNew]
  by_cases folds : flags.foldBlanks = true ∧ startsBlank s = true ∧ startsBlank t = true
  · have skips : flags.skips s t = true := by simp [Flags.skips, folds]
    rw [skips] at there thereNew ⊢
    rw [if_pos folds, foldRun_text body here (blank.trans folds.2.1) there,
      foldRun_text bodyNew hereNew (blankNew.trans folds.2.2) thereNew]
    rfl
  · rw [if_neg folds]
    cases ignores : flags.ignoreBlanks with
    | true =>
        have skips : flags.skips s t = true := by simp [Flags.skips, ignores]
        rw [skips] at there thereNew ⊢
        rw [if_pos rfl, ignoreRun_text body here there, ignoreRun_text bodyNew hereNew thereNew]
        rfl
    | false =>
        have skips : flags.skips s t = false := by
          rw [Flags.skips, ignores, Bool.false_or, Bool.and_assoc, ← Bool.not_eq_true]
          simpa using folds
        rw [skips] at there thereNew ⊢
        cases here.symm.trans there
        cases hereNew.symm.trans thereNew
        rw [if_neg Bool.false_ne_true, skipped, skipped, if_neg Bool.false_ne_true,
          if_neg Bool.false_ne_true, Nat.sub_self, Nat.sub_self]

/-! ## What the skipping leaves of the folded lines -/

/-- A pending blank shows in front of the next character that is none. -/
theorem collapse_true (s : List Byte) :
    collapse true s =
      if s.dropWhile isspace = [] then [] else byte ' ' :: collapse false (s.dropWhile isspace) := by
  induction s with
  | nil => rfl
  | cons c s ih =>
      rw [collapse]
      by_cases blank : isspace c = true
      · rw [if_pos blank, List.dropWhile_cons_of_pos blank, ih]
      · rw [if_neg blank, List.dropWhile_cons_of_neg blank, if_pos rfl,
          if_neg (List.cons_ne_nil c s), collapse, if_neg blank]
        rfl

theorem collapse_blank {s : List Byte} (blank : startsBlank s = true) (nonempty : s ≠ [])
    (pending : Bool) : collapse pending s = collapse true s := by
  cases s with
  | nil => exact absurd rfl nonempty
  | cons c s =>
      have first : isspace c = true := blank
      rw [collapse, collapse, if_pos first, if_pos first]

theorem filter_dropWhile (s : List Byte) :
    (s.dropWhile isspace).filter (fun c => !isspace c) = s.filter fun c => !isspace c := by
  induction s with
  | nil => rfl
  | cons c s ih =>
      by_cases blank : isspace c = true
      · rw [List.dropWhile_cons_of_pos blank, ih, List.filter_cons_of_neg (by simp [blank])]
      · rw [List.dropWhile_cons_of_neg blank]

theorem dropWhile_head {s t : List Byte} {c : Byte} (first : s.dropWhile isspace = c :: t) :
    isspace c = false := by
  have head := List.head?_dropWhile_not isspace s
  rw [first] at head
  simpa using head

/-- The first character of a line, or the newline behind it. -/
def front (s : List Byte) : Byte := s.headD nl

theorem startsBlank_eq (s : List Byte) : startsBlank s = isspace (front s) := by
  cases s with
  | nil => rfl
  | cons c s => rfl

theorem front_dropWhile (s : List Byte) (visible : s.dropWhile isspace ≠ []) :
    isspace (front (s.dropWhile isspace)) = false := by
  cases first : s.dropWhile isspace with
  | nil => exact absurd first visible
  | cons c t => exact dropWhile_head first

/-- Do runs of blanks not count as they are? -/
def Flags.lax (flags : Flags) : Bool := flags.foldBlanks || flags.ignoreBlanks

namespace Flags

variable {flags : Flags} {s t : List Byte}

theorem folded_nil : flags.folded [] = [] := by
  unfold folded unblank
  split
  · rfl
  · split <;> rfl

theorem folded_cons {c : Byte} (visible : flags.lax = true → isspace c = false) :
    flags.folded (c :: s) = flags.chrtran c :: flags.folded s := by
  unfold folded unblank
  cases ignores : flags.ignoreBlanks with
  | true =>
      have plain := visible (by rw [lax, ignores, Bool.or_true])
      rw [if_pos rfl, if_pos rfl, List.filter_cons_of_pos (by rw [plain]; rfl), List.map_cons]
  | false =>
      rw [if_neg Bool.false_ne_true, if_neg Bool.false_ne_true]
      cases folds : flags.foldBlanks with
      | true =>
          have plain := visible (by rw [lax, folds, Bool.true_or])
          rw [if_pos rfl, if_pos rfl, collapse, if_neg (by rw [plain]; exact Bool.false_ne_true)]
          rfl
      | false => rfl

theorem folded_dropWhile (ignores : flags.ignoreBlanks = true) :
    flags.folded (s.dropWhile isspace) = flags.folded s := by
  rw [folded, folded, unblank, unblank, if_pos ignores, if_pos ignores, filter_dropWhile]

theorem folded_run (folds : flags.foldBlanks = true) (ignores : flags.ignoreBlanks = false)
    (blank : startsBlank s = true) :
    flags.folded s =
      if s.dropWhile isspace = [] then [] else byte ' ' :: flags.folded (s.dropWhile isspace) := by
  by_cases empty : s = []
  · subst empty
    exact folded_nil
  · have kept : ¬ flags.ignoreBlanks = true := by
      rw [ignores]
      exact Bool.false_ne_true
    rw [folded, unblank, if_neg kept, if_pos folds, collapse_blank blank empty, collapse_true]
    split
    · rfl
    · rw [folded, unblank, if_neg kept, if_pos folds, List.map_cons, flags.chrtran_blank (by decide)]

/-- Lines that begin with what counts are compared by their first characters. -/
theorem folded_front (body : nl ∉ s) (bodyNew : nl ∉ t)
    (visible : flags.lax = true → s ≠ [] → isspace (front s) = false)
    (visibleNew : flags.lax = true → t ≠ [] → isspace (front t) = false) :
    flags.folded s = flags.folded t ↔
      flags.chrtran (front s) = flags.chrtran (front t) ∧
        flags.folded s.tail = flags.folded t.tail := by
  cases s with
  | nil =>
      cases t with
      | nil => exact iff_of_true rfl ⟨rfl, rfl⟩
      | cons d t =>
          rw [folded_nil, folded_cons (c := d) fun lax => visibleNew lax (List.cons_ne_nil d t)]
          refine iff_of_false (List.cons_ne_nil _ _).symm fun both => bodyNew ?_
          rw [← flags.chrtran_nl.mp both.1.symm]
          exact List.mem_cons_self
  | cons c s =>
      cases t with
      | nil =>
          rw [folded_nil, folded_cons (c := c) fun lax => visible lax (List.cons_ne_nil c s)]
          refine iff_of_false (List.cons_ne_nil _ _) fun both => body ?_
          rw [← flags.chrtran_nl.mp both.1]
          exact List.mem_cons_self
      | cons d t =>
          rw [folded_cons (c := c) fun lax => visible lax (List.cons_ne_nil c s),
            folded_cons (c := d) fun lax => visibleNew lax (List.cons_ne_nil d t), List.cons.injEq]
          rfl

/-- A blank where the other line has none makes two lines different. -/
theorem folded_apart (folds : flags.foldBlanks = true) (ignores : flags.ignoreBlanks = false)
    (blank : startsBlank s = true) (visible : startsBlank t = false) :
    flags.folded s ≠ flags.folded t ∧ flags.chrtran (front s) ≠ flags.chrtran (front t) := by
  rw [startsBlank_eq] at visible
  constructor
  · cases t with
    | nil => exact absurd visible (by decide)
    | cons d t =>
        rw [folded_run folds ignores blank, folded_cons (c := d) fun _ => visible]
        split
        · exact (List.cons_ne_nil _ _).symm
        · intro same
          have first := (List.cons.inj same).1
          rw [← flags.chrtran_blank (show isspace (byte ' ') = true by decide)] at first
          exact flags.chrtran_apart visible (by decide) first.symm
  · rw [startsBlank_eq] at blank
    exact (flags.chrtran_apart visible blank).symm

theorem folded_eq_nil (visible : flags.lax = true → s ≠ [] → isspace (front s) = false) :
    flags.folded s = [] ↔ s = [] := by
  cases s with
  | nil => exact iff_of_true folded_nil rfl
  | cons c s =>
      rw [folded_cons (c := c) fun lax => visible lax (List.cons_ne_nil c s)]
      exact iff_of_false (List.cons_ne_nil _ _) (List.cons_ne_nil _ _)

theorem folded_both (skips : flags.skips s t = true) :
    flags.folded s = flags.folded t ↔
      flags.folded (s.dropWhile isspace) = flags.folded (t.dropWhile isspace) := by
  cases ignores : flags.ignoreBlanks with
  | true => rw [folded_dropWhile ignores, folded_dropWhile ignores]
  | false =>
      rw [Flags.skips, ignores, Bool.false_or, Bool.and_eq_true, Bool.and_eq_true] at skips
      rw [folded_run skips.1.1 ignores skips.1.2, folded_run skips.1.1 ignores skips.2]
      have ends (u : List Byte) :
          flags.folded (u.dropWhile isspace) = [] ↔ u.dropWhile isspace = [] :=
        folded_eq_nil fun _ => front_dropWhile u
      by_cases empty : s.dropWhile isspace = []
      · rw [if_pos empty, empty, folded_nil, eq_comm, eq_comm (a := []), ends t]
        split
        · next emptyNew => exact iff_of_true rfl emptyNew
        · next more => exact iff_of_false (List.cons_ne_nil _ _) more
      · rw [if_neg empty]
        by_cases emptyNew : t.dropWhile isspace = []
        · rw [if_pos emptyNew, emptyNew, folded_nil, ends s]
          exact iff_of_false (List.cons_ne_nil _ _) empty
        · rw [if_neg emptyNew, List.cons.injEq, eq_self, true_and]

/-- Skipping blanks leaves two lines that agree if and only if the lines do. -/
theorem folded_skipped (body : nl ∉ s) (bodyNew : nl ∉ t) :
    flags.folded s = flags.folded t ↔
      flags.chrtran (front (skipped (flags.skips s t) s)) =
          flags.chrtran (front (skipped (flags.skips s t) t)) ∧
        flags.folded (skipped (flags.skips s t) s).tail =
          flags.folded (skipped (flags.skips s t) t).tail := by
  cases skips : flags.skips s t with
  | true =>
      have clean {u : List Byte} (body : nl ∉ u) : nl ∉ u.dropWhile isspace :=
        fun inside => body (List.IsSuffix.mem inside (List.dropWhile_suffix isspace))
      rw [folded_both skips]
      exact folded_front (clean body) (clean bodyNew) (fun _ => front_dropWhile s)
        fun _ => front_dropWhile t
  | false =>
      show _ ↔ flags.chrtran (front s) = flags.chrtran (front t) ∧
        flags.folded s.tail = flags.folded t.tail
      cases lax : flags.lax with
      | false =>
          exact folded_front body bodyNew (fun both => absurd (lax.symm.trans both) Bool.false_ne_true)
            fun both => absurd (lax.symm.trans both) Bool.false_ne_true
      | true =>
          rw [Flags.skips, Bool.or_eq_false_iff] at skips
          obtain ⟨ignores, differ⟩ := skips
          rw [Flags.lax, ignores, Bool.or_false] at lax
          rw [lax, Bool.true_and, Bool.and_eq_false_iff] at differ
          cases blank : startsBlank s with
          | true =>
              have visible := differ.resolve_left (by rw [blank]; exact Bool.noConfusion)
              have apart := folded_apart lax ignores blank visible
              exact iff_of_false apart.1 fun both => apart.2 both.1
          | false =>
              cases blankNew : startsBlank t with
              | true =>
                  have apart := folded_apart lax ignores blankNew blank
                  exact iff_of_false apart.1.symm fun both => apart.2 both.1.symm
              | false =>
                  rw [startsBlank_eq] at blank blankNew
                  exact folded_front body bodyNew (fun _ _ => blank) fun _ _ => blankNew

end Flags

/-! ## Comparing two lines -/

theorem Heads.front {s r : List Byte} {c : Byte} {f : List Byte} (here : Heads s r c f) :
    c = front s := by
  cases s with
  | nil =>
      cases here
      rfl
  | cons b s =>
      cases here
      rfl

/-- Either the line has ended or its first character is followed by the rest of it. -/
theorem Heads.cases {s r : List Byte} {c : Byte} {f : List Byte} (here : Heads s r c f)
    (body : nl ∉ s) :
    s = [] ∧ c = nl ∧ f = r ∨ c ≠ nl ∧ nl ∉ s.tail ∧ s.length = s.tail.length + 1 ∧
      f = s.tail ++ nl :: r := by
  cases s with
  | nil =>
      cases here
      exact Or.inl ⟨rfl, rfl, rfl⟩
  | cons b s =>
      cases here
      rw [List.mem_cons, not_or] at body
      exact Or.inr ⟨Ne.symm body.1, body.2, rfl, rfl⟩

theorem getline_body {s : List Byte} (body : nl ∉ s) (r : List Byte) :
    getline (s ++ nl :: r) = (s ++ [nl], r) := by
  rw [List.append_cons]
  exact getline_line (isLine_body body) (terminated_body s) r

theorem skipline_body {s : List Byte} (body : nl ∉ s) (r : List Byte) :
    skipline (s ++ nl :: r) = (s.length + 1, r) := by
  rw [Check.skipline_eq, getline_body body, Check.span, if_pos (terminated_body s), List.length_append]
  rfl

theorem Heads.skipRest {s r : List Byte} {c : Byte} {f : List Byte} (here : Heads s r c f)
    (body : nl ∉ s) {other : Option Byte} (open_ : other ≠ none) :
    (if some c ≠ some nl ∧ other ≠ none then skipline f else (0, f)) = (s.length, r) := by
  rcases here.cases body with ⟨rfl, rfl, rfl⟩ | ⟨inside, rest, length, rfl⟩
  · rw [if_neg fun both => both.1 rfl]
    rfl
  · rw [if_pos ⟨fun same => inside (Option.some.inj same), open_⟩, skipline_body rest, length]

section

variable {flags : Flags} {before : Byte} {fuel old new : Nat} {c d c' d' : Byte} {f g f' g' : List Byte}

theorem compareFolded_differ
    (skips : skipBlanks flags (some c) (some d) f g = ((old, some c', f'), new, some d', g'))
    (differ : flags.chrtran c' ≠ flags.chrtran d') :
    compareFolded flags before (fuel + 1) (c :: f) (d :: g) =
      { same := false
        old := 1 + old + (if some c' ≠ some nl ∧ some c' ≠ none then skipline f' else (0, f')).1
        new := 1 + new + (if some d' ≠ some nl ∧ some c' ≠ none then skipline g' else (0, g')).1
        f1 := (if some c' ≠ some nl ∧ some c' ≠ none then skipline f' else (0, f')).2
        f2 := (if some d' ≠ some nl ∧ some c' ≠ none then skipline g' else (0, g')).2 } := by
  simp [compareFolded, getc, skips, Flags.tran, differ]

theorem compareFolded_alike
    (skips : skipBlanks flags (some c) (some d) f g = ((old, some c', f'), new, some d', g'))
    (same : flags.chrtran c' = flags.chrtran d') :
    compareFolded flags before (fuel + 1) (c :: f) (d :: g) =
      if c' = nl then { same := true, old := 1 + old, new := 1 + new, f1 := f', f2 := g' }
      else
        { compareFolded flags before fuel f' g' with
          old := 1 + old + (compareFolded flags before fuel f' g').old
          new := 1 + new + (compareFolded flags before fuel f' g').new } := by
  simp [compareFolded, getc, skips, Flags.tran, same]

end

/-- The comparison finds whether two terminated lines are folded alike, and reads both. -/
theorem compareFolded_eq (flags : Flags) (before : Byte) {fuel : Nat} {s t : List Byte} (r q : List Byte)
    (body : nl ∉ s) (bodyNew : nl ∉ t) (enough : s.length < fuel) :
    compareFolded flags before fuel (s ++ nl :: r) (t ++ nl :: q) =
      { same := decide (flags.folded s = flags.folded t), old := s.length + 1, new := t.length + 1,
        f1 := r, f2 := q } := by
  induction fuel generalizing s t with
  | zero => exact absurd enough (Nat.not_lt_zero _)
  | succ fuel ih =>
      obtain ⟨c, f, here⟩ := Heads.exists s r
      obtain ⟨d, g, hereNew⟩ := Heads.exists t q
      have agree := flags.folded_skipped body bodyNew
      have skipBlanks_ := fun c' d' f' g' =>
        @skipBlanks_text flags s t r q c d c' d' f g f' g' body bodyNew here hereNew
      have shorter := (skipped_suffix (flags.skips s t) s).length_le
      have shorterNew := (skipped_suffix (flags.skips s t) t).length_le
      have clean : nl ∉ skipped (flags.skips s t) s :=
        fun inside => body (List.IsSuffix.mem inside (skipped_suffix _ s))
      have cleanNew : nl ∉ skipped (flags.skips s t) t :=
        fun inside => bodyNew (List.IsSuffix.mem inside (skipped_suffix _ t))
      generalize skipped (flags.skips s t) s = s' at *
      generalize skipped (flags.skips s t) t = t' at *
      obtain ⟨c', f', there⟩ := Heads.exists s' r
      obtain ⟨d', g', thereNew⟩ := Heads.exists t' q
      rw [← there.front, ← thereNew.front] at agree
      have skips := skipBlanks_ c' d' f' g' there thereNew
      rw [show s ++ nl :: r = c :: f from here, show t ++ nl :: q = d :: g from hereNew]
      by_cases same : flags.chrtran c' = flags.chrtran d'
      · rw [compareFolded_alike skips same]
        rcases there.cases clean with ⟨rfl, rfl, rfl⟩ | ⟨inside, rest, length, rfl⟩
        · have ends := flags.chrtran_nl.mp same.symm
          rcases thereNew.cases cleanNew with ⟨rfl, -, rfl⟩ | ⟨insideNew, -⟩
          · rw [if_pos rfl, decide_eq_true (agree.mpr ⟨same, rfl⟩), Nat.add_comm 1, Nat.add_comm 1]
            rfl
          · exact absurd ends insideNew
        · rcases thereNew.cases cleanNew with ⟨rfl, ends, rfl⟩ | ⟨insideNew, restNew, lengthNew, rfl⟩
          · rw [ends] at same
            exact absurd (flags.chrtran_nl.mp same) inside
          · rw [if_neg inside, ih rest restNew (by omega)]
            simp only [agree, same, true_and, Compared.mk.injEq, and_true]
            omega
      · rw [compareFolded_differ skips same, there.skipRest clean (Option.some_ne_none c'),
          thereNew.skipRest cleanNew (Option.some_ne_none c'),
          decide_eq_false fun alike => same (agree.mp alike).1]
        simp only [Compared.mk.injEq, true_and, and_true]
        omega

theorem folded_none {flags : Flags}
    (none_ : (flags.foldBlanks || flags.ignoreBlanks || flags.ignoreCase) = false) (s : List Byte) :
    flags.folded s = s := by
  rw [Bool.or_eq_false_iff, Bool.or_eq_false_iff] at none_
  obtain ⟨⟨folds, ignores⟩, case_⟩ := none_
  rw [Flags.folded, Flags.unblank, Flags.chrtran, folds, ignores, case_, if_neg Bool.false_ne_true,
    if_neg Bool.false_ne_true, if_neg Bool.false_ne_true]
  exact List.map_id s

theorem compareWith_eq (flags : Flags) (before : Byte) {s t : List Byte} (r q : List Byte) (body : nl ∉ s)
    (bodyNew : nl ∉ t) :
    compareWith flags before (s ++ nl :: r) (t ++ nl :: q) =
      { same := decide (flags.folded s = flags.folded t), old := s.length + 1, new := t.length + 1,
        f1 := r, f2 := q } := by
  unfold compareWith
  split
  · refine compareFolded_eq flags before r q body bodyNew ?_
    rw [List.length_append]
    exact Nat.lt_succ_of_le (Nat.le_add_right _ _)
  · next none_ =>
      rw [Bool.not_eq_true] at none_
      rw [folded_none none_, folded_none none_, Check.compareLines_eq, getline_body body,
        getline_body bodyNew]
      have span (u : List Byte) : Check.span (u ++ [nl]) = u.length + 1 := by
        rw [Check.span, if_pos (terminated_body u), List.length_append]
        rfl
      by_cases same : s = t
      · rw [if_pos (congrArg (· ++ [nl]) same), decide_eq_true same, span, span]
      · rw [if_neg fun whole => same (List.append_cancel_right whole),
          if_neg fun both => both.1 (terminated_body s),
          if_neg fun both : ¬ Terminated (t ++ [nl]) ∧ _ => both.1 (terminated_body t),
          decide_eq_false same, span, span, Nat.add_zero]

/-! ## Hashing a line -/

/-- The characters of a line that are added up. -/
def Flags.counted (flags : Flags) (s : List Byte) : List Byte :=
  (if flags.lax then s.filter fun c => !isspace c else s).map flags.chrtran

/-- The hash value of a line without its newline. -/
def Flags.lineHash (flags : Flags) (s : List Byte) : Int :=
  hashEnd ((flags.counted s).foldl hashStep 1)

theorem hashEnd_ne_zero (sum : Int) : hashEnd sum ≠ 0 := by
  unfold hashEnd
  split
  · exact Int.one_ne_zero
  · next other => exact other

theorem lineHash_ne_zero (flags : Flags) (s : List Byte) : flags.lineHash s ≠ 0 :=
  hashEnd_ne_zero _

theorem readPlain_body (flags : Flags) {s : List Byte} (body : nl ∉ s) (r : List Byte) (sum : Int) :
    readPlain flags sum (s ++ nl :: r) = ((s.map flags.chrtran).foldl hashStep sum, r) := by
  induction s generalizing sum with
  | nil => exact if_pos rfl
  | cons c s ih =>
      rw [List.mem_cons, not_or] at body
      rw [List.cons_append, readPlain, if_neg (Ne.symm body.1), ih body.2]
      rfl

theorem readBlanks_body (flags : Flags) {s : List Byte} (body : nl ∉ s) (r : List Byte) (i space : Nat)
    (sum : Int) :
    readBlanks flags i space sum (s ++ nl :: r) =
      (hashEnd (((s.filter fun c => !isspace c).map flags.chrtran).foldl hashStep sum), r) := by
  induction s generalizing i space sum with
  | nil => exact if_pos rfl
  | cons c s ih =>
      rw [List.mem_cons, not_or] at body
      rw [List.cons_append, readBlanks, if_neg (Ne.symm body.1)]
      by_cases blank : isspace c = true
      · rw [if_pos blank, ih body.2, List.filter_cons_of_neg (by simp [blank])]
      · rw [if_neg blank, List.filter_cons_of_pos (by simp [blank])]
        split
        · exact ih body.2 _ _ _
        · exact ih body.2 _ _ _

theorem readhash_body (flags : Flags) {s : List Byte} (body : nl ∉ s) (r : List Byte) :
    readhash flags (s ++ nl :: r) = (flags.lineHash s, r) := by
  unfold readhash Flags.lineHash Flags.counted Flags.lax
  cases flags.foldBlanks || flags.ignoreBlanks with
  | true =>
      rw [if_pos rfl, if_pos rfl]
      exact readBlanks_body flags body r 0 0 1
  | false =>
      rw [if_neg Bool.false_ne_true, if_neg Bool.false_ne_true, if_neg (by simp), readPlain_body flags body]

theorem filter_collapse (pending : Bool) (s : List Byte) :
    (collapse pending s).filter (fun c => !isspace c) = s.filter fun c => !isspace c := by
  induction s generalizing pending with
  | nil => rfl
  | cons c s ih =>
      rw [collapse]
      by_cases blank : isspace c = true
      · rw [if_pos blank, ih, List.filter_cons_of_neg (by simp [blank])]
      · rw [if_neg blank, List.filter_append, List.filter_cons_of_pos (by simp [blank]), ih,
          List.filter_cons_of_pos (by simp [blank])]
        cases pending <;> rfl

theorem counted_eq (flags : Flags) (s : List Byte) :
    flags.counted s =
      if flags.lax then (flags.folded s).filter fun c => !isspace c else flags.folded s := by
  unfold Flags.counted Flags.folded
  cases lax : flags.lax with
  | true =>
      have same : ((fun c => !isspace c) ∘ flags.chrtran) = fun c => !isspace c :=
        funext fun c => congrArg not (flags.chrtran_isspace c)
      rw [if_pos rfl, if_pos rfl, List.filter_map, same, Flags.unblank]
      split
      · rw [List.filter_filter]
        simp
      · next kept =>
          rw [Bool.not_eq_true] at kept
          rw [Flags.lax, kept, Bool.or_false] at lax
          rw [if_pos lax, filter_collapse]
  | false =>
      rw [Flags.lax, Bool.or_eq_false_iff] at lax
      rw [if_neg Bool.false_ne_true, if_neg Bool.false_ne_true, Flags.unblank, lax.1, lax.2,
        if_neg Bool.false_ne_true, if_neg Bool.false_ne_true]

theorem lineHash_of_normal {flags : Flags} {s t : List Byte} (same : flags.normal s = flags.normal t) :
    flags.lineHash s = flags.lineHash t := by
  rw [Flags.lineHash, Flags.lineHash, counted_eq, counted_eq, flags.folded_of_normal same]

/-! ## Hashing a file -/

def Ended (file : List Byte) : Prop := ∀ line ∈ lines file, Terminated line

theorem body_of_terminated {line : List Byte} (isLine : IsLine line) (terminated : Terminated line) :
    nl ∉ line.dropLast ∧ line.dropLast ++ [nl] = line := by
  refine ⟨isLine.clean, ?_⟩
  have last := List.dropLast_append_getLast isLine.nonempty
  rw [Terminated, List.getLast?_eq_some_getLast isLine.nonempty] at terminated
  rwa [Option.some.inj terminated] at last

theorem prepareFrom_eq (flags : Flags) {fuel : Nat} {file : List Byte} (ended : Ended file)
    (enough : file.length < fuel) :
    prepareFrom flags fuel file = (lines file).map fun line => flags.lineHash line.dropLast := by
  induction fuel generalizing file with
  | zero => exact absurd enough (Nat.not_lt_zero _)
  | succ fuel ih =>
      rw [prepareFrom]
      by_cases empty : file = []
      · subst empty
        cases lax : flags.foldBlanks || flags.ignoreBlanks <;> simp [readhash, readBlanks, lax]
      · have split := lines_getline empty
        have first : (getline file).1 ∈ lines file := by
          rw [split]
          exact List.mem_cons_self
        have isLine := lines_isLine first
        obtain ⟨body, whole⟩ := body_of_terminated isLine (ended _ first)
        have stream : file = (getline file).1.dropLast ++ nl :: (getline file).2 := by
          rw [List.append_cons, whole, getline_append]
        have shorter := congrArg List.length stream
        rw [List.length_append, List.length_cons] at shorter
        have rest : Ended (getline file).2 := fun line listed => ended line (by
          rw [split]
          exact List.mem_cons_of_mem _ listed)
        have read : readhash flags file = (flags.lineHash (getline file).1.dropLast, (getline file).2) := by
          rw [stream, readhash_body flags body, ← stream]
        rw [read]
        dsimp only
        rw [if_neg (lineHash_ne_zero flags _), ih rest (by omega), split, List.map_cons]

theorem prepare_eq (flags : Flags) {file : List Byte} (ended : Ended file) :
    prepare flags file = (lines file).map fun line => flags.lineHash line.dropLast :=
  prepareFrom_eq flags ended (Nat.lt_succ_self _)

end Netbase.Diff.Fold
