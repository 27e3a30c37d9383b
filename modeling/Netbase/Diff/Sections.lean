import Mathlib
import Netbase.Diff.Checked
import Netbase.Diff.Group
import Netbase.Lib.Spans

/-!
# Context hunks

In the context format a group of changes is printed as two sections, one for each
file.  `dump_context_vec` goes through the group once for either, and leaves a
section out when it would only hold context.
-/

namespace Netbase.Diff.Sections

open Netbase.Lib
open Netbase.Lib.EditScript
open Netbase.Lib.Spans
open Netbase.Text
open Netbase.Diff.Check
open Netbase.Diff.Checked
open Netbase.Diff.Collision
open Netbase.Diff.Fetch
open Netbase.Diff.Output
open Netbase.Diff.Group
open Netbase.Diff.Context (Source changesOf_append changesOf_last changeOf_idle)

/-! ## Printing -/

def range (a b : Nat) (separator : List Byte) : List Byte :=
  decimal (if a > b then b else a) ++ if a < b then separator ++ decimal b else []

def fetchOld (source : Source) (a b : Nat) (ch : Char) : List Byte :=
  (fetch .context source.ixold a b source.file0 (some ch)).1

def fetchNew (source : Source) (a b : Nat) (ch : Char) : List Byte :=
  (fetch .context source.ixnew a b source.file1 (some ch)).1

/-- `ch`: a change, a deletion or an addition. -/
inductive Kind where
  | c
  | d
  | a
  deriving DecidableEq, Repr

def kindOf (cvp : Change) : Kind :=
  if cvp.a ≤ cvp.b ∧ cvp.c ≤ cvp.d then .c else if cvp.a ≤ cvp.b then .d else .a

/-- The changes to the old file, and the context behind them; in the end `lowa` is `b + 1`. -/
def oldLoop (source : Source) (upb : Nat) : Nat → List Change → List Byte
  | lowa, [] => fetchOld source lowa upb ' '
  | lowa, cvp :: vec =>
      (if kindOf cvp = .a then fetchOld source lowa cvp.b ' '
        else
          fetchOld source lowa (cvp.a - 1) ' ' ++
            fetchOld source cvp.a cvp.b (if kindOf cvp = .c then '!' else '-')) ++
        oldLoop source upb (cvp.b + 1) vec

/-- The changes to the new file, and the context behind them; in the end `lowc` is `d + 1`. -/
def newLoop (source : Source) (upd : Nat) : Nat → List Change → List Byte
  | lowc, [] => fetchNew source lowc upd ' '
  | lowc, cvp :: vec =>
      (if kindOf cvp = .d then fetchNew source lowc cvp.d ' '
        else
          fetchNew source lowc (cvp.c - 1) ' ' ++
            fetchNew source cvp.c cvp.d (if kindOf cvp = .c then '!' else '+')) ++
        newLoop source upd (cvp.d + 1) vec

/-- A hunk: its ranges, and the sections that are not left out. -/
structure Hunk where
  lowa : Nat
  upb : Nat
  lowc : Nat
  upd : Nat
  old : Option (List Byte)
  new : Option (List Byte)
  deriving DecidableEq, Repr

/-- `dump_context_vec` -/
def dumpContextVec (context : Nat) (source : Source) (contextVec : List Change) : Option Hunk :=
  match contextVec.head?, contextVec.getLast? with
  | some first, some last =>
      let lowa := max 1 (first.a - context)
      let upb := min source.len0 (last.b + context)
      let lowc := max 1 (first.c - context)
      let upd := min source.len1 (last.d + context)
      some
        { lowa := lowa
          upb := upb
          lowc := lowc
          upd := upd
          old :=
            if contextVec.any fun cvp => cvp.a ≤ cvp.b then some (oldLoop source upb lowa contextVec)
            else none
          new :=
            if contextVec.any fun cvp => cvp.c ≤ cvp.d then some (newLoop source upd lowc contextVec)
            else none }
  | _, _ => none

def Hunk.text (hunk : Hunk) : List Byte :=
  List.replicate 15 (byte '*') ++ ascii ['\n', '*', '*', '*', ' '] ++
    range hunk.lowa hunk.upb [byte ','] ++ ascii [' ', '*', '*', '*', '*', '\n'] ++
    hunk.old.getD [] ++ ascii ['-', '-', '-', ' '] ++ range hunk.lowc hunk.upd [byte ','] ++
    ascii [' ', '-', '-', '-', '-', '\n'] ++ hunk.new.getD []

/-- What `output` is given of two files. -/
def sourceOf (bound : Nat) (file0 file1 : List Byte) : Source :=
  { len0 := (prepare file0).length
    len1 := (prepare file1).length
    file0 := file0
    file1 := file1
    ixold := (checked bound file0 file1).ixold
    ixnew := (checked bound file0 file1).ixnew }

def changesFor (bound : Nat) (file0 file1 : List Byte) : List Change :=
  forwardChanges (prepare file0).length (prepare file1).length (checked bound file0 file1).J

/-- The hunks that are printed for two files. -/
def hunksFor (context bound : Nat) (file0 file1 : List Byte) : List Hunk :=
  (groups context (fun _ => false) (changesFor bound file0 file1)).filterMap
    (dumpContextVec context (sourceOf bound file0 file1))

/-- `output` in the context format, without the two header lines. -/
def outputContext (context bound : Nat) (file0 file1 : List Byte) : List Byte :=
  (hunksFor context bound file0 file1).flatMap Hunk.text

/-! ## What a hunk should be -/

def oldSpan (next : Change) : Span Char :=
  { first := next.a, last := next.b, mark := if next.c ≤ next.d then '!' else '-' }

def newSpan (next : Change) : Span Char :=
  { first := next.c, last := next.d, mark := if next.a ≤ next.b then '!' else '+' }

/-- The lines `lowa..upb` of the old file with the marks of the changes. -/
def oldSection (changes : List Change) (olds : List (List Byte)) (hunk : Hunk) :
    List (Char × List Byte) :=
  marked (markAt ' ' (changes.map oldSpan)) olds hunk.lowa hunk.upb

/-- The lines `lowc..upd` of the new file with the marks of the changes. -/
def newSection (changes : List Change) (news : List (List Byte)) (hunk : Hunk) :
    List (Char × List Byte) :=
  marked (markAt ' ' (changes.map newSpan)) news hunk.lowc hunk.upd

def unmarked (section_ : List (Char × List Byte)) : List (List Byte) :=
  (section_.filter fun pair => pair.1 = ' ').map Prod.snd

def shown (display : List Byte → List Byte) (section_ : List (Char × List Byte)) : List Byte :=
  section_.flatMap fun pair => markText .context (some pair.1) ++ display pair.2

/-- The sections that are printed list the lines of their ranges with the right marks, and one that
is left out can be read off the other. -/
structure Lists (changes : List Change) (olds news : List (List Byte)) (hunk : Hunk) : Prop where
  old : ∀ text, hunk.old = some text →
    text = shown Format.context.lineText (oldSection changes olds hunk)
  new : ∀ text, hunk.new = some text →
    text = shown Format.context.lineText (newSection changes news hunk)
  oldOmitted : hunk.old = none → hunk.new ≠ none ∧
    between olds hunk.lowa hunk.upb = unmarked (newSection changes news hunk)
  newOmitted : hunk.new = none → hunk.old ≠ none ∧
    between news hunk.lowc hunk.upd = unmarked (oldSection changes olds hunk)

/-! ## The loops -/

section

variable {source : Source} {texts : List (List Byte)} {ix : Table Nat} {lb : List Byte}

theorem shown_append (display : List Byte → List Byte) (front back : List (Char × List Byte)) :
    shown display (front ++ back) = shown display front ++ shown display back :=
  List.flatMap_append

theorem shown_map (display : List Byte → List Byte) (ch : Char) (list : List (List Byte)) :
    shown display (list.map fun text => (ch, text)) =
      list.flatMap fun text => markText .context (some ch) ++ display text := by
  rw [shown, List.flatMap_map]

theorem fetch_shown (shows_ : Shows .context ix lb texts) {a b : Nat} (positive : 0 < a)
    (inside : a ≤ b + 1) (bound : b ≤ texts.length) (ch : Char) :
    (fetch .context ix a b lb (some ch)).1 =
      shown id ((between texts a b).map fun text => (ch, text)) := by
  rw [shown_map, fetch_between shows_ positive inside bound]
  rfl

theorem kindOf_a (cvp : Change) : kindOf cvp = .a ↔ cvp.b < cvp.a := by
  unfold kindOf
  split
  · simp; omega
  · split <;> simp <;> omega

theorem kindOf_d {cvp : Change} (busy : cvp.a ≤ cvp.b ∨ cvp.c ≤ cvp.d) :
    kindOf cvp = .d ↔ cvp.d < cvp.c := by
  unfold kindOf
  split
  · simp; omega
  · split <;> simp <;> omega

theorem kindOf_c (cvp : Change) : kindOf cvp = .c ↔ cvp.a ≤ cvp.b ∧ cvp.c ≤ cvp.d := by
  unfold kindOf
  split
  · simpa using ‹_›
  · split <;> simp <;> omega

theorem oldLoop_eq (shows_ : Shows .context source.ixold source.file0 texts) {vec : List Change}
    {low upb : Nat} (rising : Rising low (vec.map oldSpan)) (positive : 0 < low)
    (inside : low ≤ upb + 1) (below : ∀ cvp ∈ vec, cvp.b ≤ upb) (bound : upb ≤ texts.length) :
    oldLoop source upb low vec = shown id (walk ' ' texts upb low (vec.map oldSpan)) := by
  induction vec generalizing low with
  | nil => exact fetch_shown shows_ positive inside bound ' '
  | cons cvp vec ih =>
      obtain ⟨first, span, rest⟩ := rising
      have last := below cvp List.mem_cons_self
      dsimp only [oldSpan] at first span rest
      have later := ih rest (Nat.succ_pos _) (by omega) fun other listed =>
        below other (List.mem_cons_of_mem cvp listed)
      have front := fetch_shown shows_ (a := low) (b := cvp.a - 1) positive (by omega) (by omega) ' '
      rw [oldLoop, later, List.map_cons, walk, shown_append, shown_append]
      dsimp only [oldSpan]
      congr 1
      by_cases added : kindOf cvp = .a
      · have none_ := (kindOf_a cvp).mp added
        have place : cvp.b = cvp.a - 1 := by omega
        rw [if_pos added, between_empty texts none_, place, fetchOld, front]
        simp [shown]
      · have some_ : cvp.a ≤ cvp.b := by
          rw [kindOf_a] at added
          omega
        have mark : (if kindOf cvp = .c then '!' else '-') = if cvp.c ≤ cvp.d then '!' else '-' := by
          simp [kindOf_c, some_]
        rw [if_neg added, mark, fetchOld, fetchOld, front,
          fetch_shown shows_ (by omega) (by omega) (by omega)]

theorem newLoop_eq (shows_ : Shows .context source.ixnew source.file1 texts) {vec : List Change}
    {low upd : Nat} (rising : Rising low (vec.map newSpan)) (positive : 0 < low)
    (inside : low ≤ upd + 1) (below : ∀ cvp ∈ vec, cvp.d ≤ upd) (bound : upd ≤ texts.length)
    (busy : ∀ cvp ∈ vec, cvp.a ≤ cvp.b ∨ cvp.c ≤ cvp.d) :
    newLoop source upd low vec = shown id (walk ' ' texts upd low (vec.map newSpan)) := by
  induction vec generalizing low with
  | nil => exact fetch_shown shows_ positive inside bound ' '
  | cons cvp vec ih =>
      obtain ⟨first, span, rest⟩ := rising
      have last := below cvp List.mem_cons_self
      have here := busy cvp List.mem_cons_self
      dsimp only [newSpan] at first span rest
      have later := ih rest (Nat.succ_pos _) (by omega)
        (fun other listed => below other (List.mem_cons_of_mem cvp listed))
        (fun other listed => busy other (List.mem_cons_of_mem cvp listed))
      have front := fetch_shown shows_ (a := low) (b := cvp.c - 1) positive (by omega) (by omega) ' '
      rw [newLoop, later, List.map_cons, walk, shown_append, shown_append]
      dsimp only [newSpan]
      congr 1
      by_cases deleted : kindOf cvp = .d
      · have none_ := (kindOf_d here).mp deleted
        have place : cvp.d = cvp.c - 1 := by omega
        rw [if_pos deleted, between_empty texts none_, place, fetchNew, front]
        simp [shown]
      · have some_ : cvp.c ≤ cvp.d := by
          rw [kindOf_d here] at deleted
          omega
        have mark : (if kindOf cvp = .c then '!' else '+') = if cvp.a ≤ cvp.b then '!' else '+' := by
          simp [kindOf_c, some_]
        rw [if_neg deleted, mark, fetchNew, fetchNew, front,
          fetch_shown shows_ (by omega) (by omega) (by omega)]

end

/-! ## Where a hunk stands -/

section

variable {α : Type}

def oldRow (block : Block α) : Row α Char :=
  { kept := block.kept
    own := block.deleted
    mark := if block.inserted = [] then '-' else '!' }

def newRow (block : Block α) : Row α Char :=
  { kept := block.kept
    own := block.inserted
    mark := if block.deleted = [] then '+' else '!' }

theorem changesOf_oldSpan (before beforeNew : Nat) (blocks : List (Block α)) :
    (changesOf before beforeNew blocks).map oldSpan = rowSpans before (blocks.map oldRow) := by
  induction blocks generalizing before beforeNew with
  | nil => rfl
  | cons block blocks ih =>
      have mark : (changeOf before beforeNew block).c ≤ (changeOf before beforeNew block).d ↔
          ¬ block.inserted = [] := by
        rw [changeOf_c, changeOf_d, Block.new, List.length_append, ← List.length_eq_zero_iff]
        omega
      rw [changesOf, List.map_cons, ih, List.map_cons, rowSpans]
      congr 1
      rw [oldSpan]
      simp only [mark, ite_not]
      rfl

theorem changesOf_newSpan (before beforeNew : Nat) (blocks : List (Block α)) :
    (changesOf before beforeNew blocks).map newSpan = rowSpans beforeNew (blocks.map newRow) := by
  induction blocks generalizing before beforeNew with
  | nil => rfl
  | cons block blocks ih =>
      have mark : (changeOf before beforeNew block).a ≤ (changeOf before beforeNew block).b ↔
          ¬ block.deleted = [] := by
        rw [changeOf_a, changeOf_b, Block.old, List.length_append, ← List.length_eq_zero_iff]
        omega
      rw [changesOf, List.map_cons, ih, List.map_cons, rowSpans]
      congr 1
      rw [newSpan]
      simp only [mark, ite_not]
      rfl

theorem changesOf_split {before beforeNew : Nat} {blocks : List (Block α)} {front back : List Change}
    (split : changesOf before beforeNew blocks = front ++ back) :
    ∃ one two, blocks = one ++ two ∧ front = changesOf before beforeNew one ∧
      back = changesOf (before + (one.flatMap Block.old).length)
        (beforeNew + (one.flatMap Block.new).length) two := by
  induction front generalizing before beforeNew blocks with
  | nil => exact ⟨[], blocks, rfl, rfl, split.symm⟩
  | cons next front ih =>
      cases blocks with
      | nil => cases split
      | cons block blocks =>
          rw [changesOf, List.cons_append, List.cons.injEq] at split
          obtain ⟨rfl, rest⟩ := split
          obtain ⟨one, two, rfl, rfl, rfl⟩ := ih rest
          exact ⟨block :: one, two, rfl, rfl, by simp [Nat.add_assoc]⟩

theorem changesOf_bounds {before beforeNew : Nat} {blocks : List (Block α)} {next : Change}
    (listed : next ∈ changesOf before beforeNew blocks) :
    before < next.a ∧ beforeNew < next.c ∧ next.b ≤ before + (blocks.flatMap Block.old).length ∧
      next.d ≤ beforeNew + (blocks.flatMap Block.new).length := by
  induction blocks generalizing before beforeNew with
  | nil => cases listed
  | cons block blocks ih =>
      rw [List.flatMap_cons, List.flatMap_cons, List.length_append, List.length_append]
      rcases List.mem_cons.mp listed with rfl | later
      · simp only [changeOf_a, changeOf_b, changeOf_c, changeOf_d]
        omega
      · have := ih later
        omega

/-- A group of changes with the lines that its hunk covers. -/
structure Framed (context : Nat) (olds news : List α) (all vec : List Change) (front frontNew : List α)
    (blocks : List (Block α)) (trail back backNew : List α) : Prop where
  changes : vec = changesOf front.length frontNew.length blocks
  split : olds = front ++ blocks.flatMap Block.old ++ trail ++ back
  splitNew : news = frontNew ++ blocks.flatMap Block.new ++ trail ++ backNew
  low : ∀ first, vec.head? = some first →
    max 1 (first.a - context) = front.length + 1 ∧ max 1 (first.c - context) = frontNew.length + 1
  up : ∀ last, vec.getLast? = some last →
    min olds.length (last.b + context) =
        front.length + (blocks.flatMap Block.old).length + trail.length ∧
      min news.length (last.d + context) =
        frontNew.length + (blocks.flatMap Block.new).length + trail.length
  alone : ∃ before behind, all = before ++ vec ++ behind ∧
    (∀ cvp ∈ before, cvp.b ≤ front.length ∧ cvp.d ≤ frontNew.length) ∧
    ∀ cvp ∈ behind, front.length + (blocks.flatMap Block.old).length + trail.length < cvp.a ∧
      frontNew.length + (blocks.flatMap Block.new).length + trail.length < cvp.c

theorem common_behind {context : Nat} (tail : List α) (before beforeNew : Nat)
    (three : List (Block α))
    (apart : ∀ next, three.head? = some next → 2 * context < next.kept.length) :
    ∃ common rest restNew, three.flatMap Block.old ++ tail = common ++ rest ∧
      three.flatMap Block.new ++ tail = common ++ restNew ∧
      (context ≤ common.length ∨ rest = [] ∧ restNew = []) ∧
      ∀ cvp ∈ changesOf before beforeNew three,
        before + common.length < cvp.a ∧ beforeNew + common.length < cvp.c := by
  cases three with
  | nil => exact ⟨tail, [], [], by simp, by simp, Or.inr ⟨rfl, rfl⟩, by simp [changesOf]⟩
  | cons next three =>
      have long := apart next rfl
      refine ⟨next.kept, next.deleted ++ three.flatMap Block.old ++ tail,
        next.inserted ++ three.flatMap Block.new ++ tail, by simp [Block.old], by simp [Block.new],
        Or.inl (by omega), fun cvp listed => ?_⟩
      rcases List.mem_cons.mp listed with rfl | later
      · simp only [changeOf_a, changeOf_c]
        omega
      · have bounds := changesOf_bounds later
        have old : next.old.length = next.kept.length + next.deleted.length := List.length_append
        have new : next.new.length = next.kept.length + next.inserted.length := List.length_append
        omega

/-- Every group of changes is framed by the lines that both files have in common around it. -/
theorem framed_of_placed {context : Nat} {olds news tail : List α} {busy : List (Block α)}
    {before vec behind : List Change} (placed : Placed context (changesOf 0 0 busy) before vec behind)
    (split : olds = busy.flatMap Block.old ++ tail) (splitNew : news = busy.flatMap Block.new ++ tail) :
    ∃ front frontNew blocks trail back backNew,
      Framed context olds news (changesOf 0 0 busy) vec front frontNew blocks trail back backNew := by
  obtain ⟨one, rest, rfl, rfl, vec_⟩ := changesOf_split (placed.split.trans (List.append_assoc ..))
  obtain ⟨two, three, rfl, rfl, rfl⟩ := changesOf_split vec_.symm
  cases two with
  | nil => exact absurd rfl placed.nonempty
  | cons first others =>
      obtain ⟨last, found, b, d⟩ := changesOf_last (0 + (one.flatMap Block.old).length)
        (0 + (one.flatMap Block.new).length) (List.cons_ne_nil first others)
      have short : one = [] ∨ 2 * context < first.kept.length := by
        by_cases none_ : one = []
        · exact Or.inl none_
        · obtain ⟨prev, prev_, b', d'⟩ := changesOf_last 0 0 none_
          have apart := far_iff.mp (placed.before prev _ prev_ rfl)
          rw [changeOf_a, changeOf_c] at apart
          exact Or.inr (by omega)
      have apart : ∀ next, three.head? = some next → 2 * context < next.kept.length := by
        intro next head
        cases three with
        | nil => cases head
        | cons _ three =>
            cases head
            have apart := far_iff.mp (placed.behind last _ found rfl)
            rw [changeOf_a, changeOf_c] at apart
            omega
      obtain ⟨common, rest, restNew, old, new, long, later⟩ :=
        common_behind tail (0 + (one.flatMap Block.old).length +
            ((first :: others).flatMap Block.old).length)
          (0 + (one.flatMap Block.new).length + ((first :: others).flatMap Block.new).length) three
          apart
      obtain ⟨gap, lead, kept, gapLength⟩ : ∃ gap lead, first.kept = gap ++ lead ∧
          gap.length = first.kept.length - context :=
        ⟨first.kept.take (first.kept.length - context), first.kept.drop (first.kept.length - context),
          (List.take_append_drop _ _).symm, by rw [List.length_take]; omega⟩
      obtain ⟨trail, behind, cut, trailLength⟩ : ∃ trail behind, common = trail ++ behind ∧
          trail.length = min context common.length :=
        ⟨common.take context, common.drop context, (List.take_append_drop _ _).symm,
          List.length_take⟩
      have keptLength := congrArg List.length kept
      have commonLength := congrArg List.length cut
      rw [List.length_append] at keptLength commonLength
      have oldLength : ((first :: others).flatMap Block.old).length = gap.length +
          (({ first with kept := lead } :: others).flatMap Block.old).length := by
        simp [Block.old, kept]
      have newLength : ((first :: others).flatMap Block.new).length = gap.length +
          (({ first with kept := lead } :: others).flatMap Block.new).length := by
        simp [Block.new, kept]
      have whole : olds = one.flatMap Block.old ++ gap ++
          ({ first with kept := lead } :: others).flatMap Block.old ++ trail ++ (behind ++ rest) := by
        have parts := split
        simp only [List.flatMap_append, List.append_assoc] at parts
        rw [old, cut] at parts
        simpa [Block.old, kept] using parts
      have wholeNew : news = one.flatMap Block.new ++ gap ++
          ({ first with kept := lead } :: others).flatMap Block.new ++ trail ++
            (behind ++ restNew) := by
        have parts := splitNew
        simp only [List.flatMap_append, List.append_assoc] at parts
        rw [new, cut] at parts
        simpa [Block.new, kept] using parts
      have total := congrArg List.length whole
      have totalNew := congrArg List.length wholeNew
      simp only [List.length_append] at total totalNew
      refine ⟨one.flatMap Block.old ++ gap, one.flatMap Block.new ++ gap,
        { first with kept := lead } :: others, trail, behind ++ rest, behind ++ restNew, ?_, whole,
        wholeNew, fun other head => ?_, fun other last_ => ?_, ?_⟩
      · have place : changeOf (0 + (one.flatMap Block.old).length)
            (0 + (one.flatMap Block.new).length) first =
              changeOf (one.flatMap Block.old ++ gap).length (one.flatMap Block.new ++ gap).length
                { first with kept := lead } := by
          ext <;> simp [Block.old, Block.new, kept, Nat.add_assoc]
        rw [changesOf, changesOf, place]
        simp [Block.old, Block.new, kept, Nat.add_assoc]
      · cases head
        rw [changeOf_a, changeOf_c, List.length_append, List.length_append]
        rcases short with rfl | long
        · simp only [List.flatMap_nil, List.length_nil]
          omega
        · omega
      · rw [found] at last_
        cases last_
        rw [List.length_append, List.length_append]
        rcases long with full | ⟨rfl, rfl⟩
        · omega
        · simp only [List.length_nil] at total totalNew
          omega
      · refine ⟨_, _, placed.split, fun cvp listed => ?_, fun cvp listed => ?_⟩
        · have bounds := changesOf_bounds listed
          rw [List.length_append, List.length_append]
          omega
        · have bounds := later cvp listed
          rw [List.length_append, List.length_append]
          omega

end

/-! ## One hunk -/

section

variable {context : Nat} {olds news front frontNew trail back backNew : List (List Byte)}
  {changes vec : List Change} {blocks : List (Block (List Byte))} {source : Source}

theorem collected_busy {next : Change} (listed : next ∈ collected (fun _ => false) changes) :
    next.a ≤ next.b ∨ next.c ≤ next.d := by
  have busy := (live_iff.mp (List.mem_filter.mp listed).2).1
  omega

theorem shown_id_map (display : List Byte → List Byte) (section_ : List (Char × List Byte)) :
    shown id (section_.map fun pair => (pair.1, display pair.2)) = shown display section_ := by
  rw [shown, List.flatMap_map]
  rfl

theorem markAt_framed (toSpan : Change → Span Char) {low up : Nat} {before behind : List Change}
    (all : collected (fun _ => false) changes = before ++ vec ++ behind)
    (empty : ∀ next ∈ changes, ¬ live (fun _ => false) next = true →
      (toSpan next).last < (toSpan next).first)
    (left : ∀ cvp ∈ before, (toSpan cvp).last < low) (right : ∀ cvp ∈ behind, up < (toSpan cvp).first)
    {i : Nat} (after : low ≤ i) (until_ : i ≤ up) :
    markAt ' ' (changes.map toSpan) i = markAt ' ' (vec.map toSpan) i := by
  rw [← markAt_filter toSpan (live fun _ => false) empty, ← collected, all, List.map_append,
    List.map_append]
  refine markAt_middle _ _ (fun span listed => ?_) fun span listed => ?_
  · obtain ⟨cvp, here, rfl⟩ := List.mem_map.mp listed
    have := left cvp here
    omega
  · obtain ⟨cvp, here, rfl⟩ := List.mem_map.mp listed
    have := right cvp here
    omega

theorem flatMap_oldRow (blocks : List (Block (List Byte))) :
    (blocks.map oldRow).flatMap Row.items = blocks.flatMap Block.old ∧
      (blocks.map oldRow).flatMap Row.kept = blocks.flatMap Block.kept := by
  rw [List.flatMap_map, List.flatMap_map]
  exact ⟨rfl, rfl⟩

theorem flatMap_newRow (blocks : List (Block (List Byte))) :
    (blocks.map newRow).flatMap Row.items = blocks.flatMap Block.new ∧
      (blocks.map newRow).flatMap Row.kept = blocks.flatMap Block.kept := by
  rw [List.flatMap_map, List.flatMap_map]
  exact ⟨rfl, rfl⟩

structure Ranged (changes : List Change) (olds news : List (List Byte)) (vec : List Change)
    (blocks : List (Block (List Byte))) (trail : List (List Byte)) (hunk : Hunk) : Prop where
  old : oldSection changes olds hunk = walk ' ' olds hunk.upb hunk.lowa (vec.map oldSpan)
  new : newSection changes news hunk = walk ' ' news hunk.upd hunk.lowc (vec.map newSpan)
  oldRange : 0 < hunk.lowa ∧ hunk.lowa ≤ hunk.upb + 1 ∧ hunk.upb ≤ olds.length
  newRange : 0 < hunk.lowc ∧ hunk.lowc ≤ hunk.upd + 1 ∧ hunk.upd ≤ news.length
  oldRising : Rising hunk.lowa (vec.map oldSpan)
  newRising : Rising hunk.lowc (vec.map newSpan)
  below : ∀ cvp ∈ vec, cvp.b ≤ hunk.upb ∧ cvp.d ≤ hunk.upd
  oldGaps : gaps olds hunk.upb hunk.lowa (vec.map oldSpan) = blocks.flatMap Block.kept ++ trail
  newGaps : gaps news hunk.upd hunk.lowc (vec.map newSpan) = blocks.flatMap Block.kept ++ trail

theorem Framed.ranged
    (framed : Framed context olds news (collected (fun _ => false) changes) vec front frontNew blocks
      trail back backNew) {hunk : Hunk} (lowa : hunk.lowa = front.length + 1)
    (lowc : hunk.lowc = frontNew.length + 1)
    (upb : hunk.upb = front.length + (blocks.flatMap Block.old).length + trail.length)
    (upd : hunk.upd = frontNew.length + (blocks.flatMap Block.new).length + trail.length) :
    Ranged changes olds news vec blocks trail hunk := by
  obtain ⟨before, behind, all, left, right⟩ := framed.alone
  have total := congrArg List.length framed.split
  have totalNew := congrArg List.length framed.splitNew
  simp only [List.length_append] at total totalNew
  have oldSpans : vec.map oldSpan = rowSpans front.length (blocks.map oldRow) := by
    rw [framed.changes, changesOf_oldSpan]
  have newSpans : vec.map newSpan = rowSpans frontNew.length (blocks.map newRow) := by
    rw [framed.changes, changesOf_newSpan]
  have oldRising : Rising hunk.lowa (vec.map oldSpan) := by
    rw [oldSpans]
    exact rowSpans_rising lowa.le
  have newRising : Rising hunk.lowc (vec.map newSpan) := by
    rw [newSpans]
    exact rowSpans_rising lowc.le
  have below : ∀ cvp ∈ vec, cvp.b ≤ hunk.upb ∧ cvp.d ≤ hunk.upd := by
    intro cvp listed
    rw [framed.changes] at listed
    have bounds := changesOf_bounds listed
    omega
  have idle {next : Change} (dead : ¬ live (fun _ => false) next = true) :
      next.b < next.a ∧ next.d < next.c := by
    rw [live_iff] at dead
    simp only [Bool.false_eq_true, not_false_eq_true, and_true, not_not] at dead
    exact dead
  refine ⟨?_, ?_, by omega, by omega, oldRising, newRising, below, ?_, ?_⟩
  · rw [oldSection, ← marked_eq_walk oldRising ?_ (by omega) (by omega) (by omega)]
    · refine marked_congr fun i after until_ => markAt_framed oldSpan all
        (fun next _ dead => (idle dead).1) (fun cvp listed => ?_) (fun cvp listed => ?_) after until_
      · have := (left cvp listed).1
        dsimp only [oldSpan]
        omega
      · have := (right cvp listed).1
        dsimp only [oldSpan]
        omega
    · intro span listed
      obtain ⟨cvp, here, rfl⟩ := List.mem_map.mp listed
      exact (below cvp here).1
  · rw [newSection, ← marked_eq_walk newRising ?_ (by omega) (by omega) (by omega)]
    · refine marked_congr fun i after until_ => markAt_framed newSpan all
        (fun next _ dead => (idle dead).2) (fun cvp listed => ?_) (fun cvp listed => ?_) after until_
      · have := (left cvp listed).2
        dsimp only [newSpan]
        omega
      · have := (right cvp listed).2
        dsimp only [newSpan]
        omega
    · intro span listed
      obtain ⟨cvp, here, rfl⟩ := List.mem_map.mp listed
      exact (below cvp here).2
  · obtain ⟨items, kept⟩ := flatMap_oldRow blocks
    rw [oldSpans, lowa, ← kept]
    exact gaps_rows front back (by rw [items]; exact framed.split) (by rw [items]; exact upb)
  · obtain ⟨items, kept⟩ := flatMap_newRow blocks
    rw [newSpans, lowc, ← kept]
    exact gaps_rows frontNew backNew (by rw [items]; exact framed.splitNew)
      (by rw [items]; exact upd)

theorem Framed.dump
    (framed : Framed context olds news (collected (fun _ => false) changes) vec front frontNew blocks
      trail back backNew) (source : Source) (nonempty : vec ≠ []) (len0 : source.len0 = olds.length)
    (len1 : source.len1 = news.length) :
    ∃ hunk, dumpContextVec context source vec = some hunk ∧
      Ranged changes olds news vec blocks trail hunk ∧
      hunk.old = (if vec.any fun cvp => cvp.a ≤ cvp.b then
        some (oldLoop source hunk.upb hunk.lowa vec) else none) ∧
      hunk.new = (if vec.any fun cvp => cvp.c ≤ cvp.d then
        some (newLoop source hunk.upd hunk.lowc vec) else none) := by
  obtain ⟨first, rest, rfl⟩ := List.exists_cons_of_ne_nil nonempty
  obtain ⟨lowa, lowc⟩ := framed.low first rfl
  obtain ⟨upb, upd⟩ := framed.up _ (List.getLast?_eq_some_getLast nonempty)
  rw [dumpContextVec, List.head?_cons, List.getLast?_eq_some_getLast nonempty]
  refine ⟨_, rfl, framed.ranged lowa lowc ?_ ?_, rfl, rfl⟩
  · exact (congrArg (min · _) len0).trans upb
  · exact (congrArg (min · _) len1).trans upd

theorem Ranged.lists {hunk : Hunk} (ranged : Ranged changes olds news vec blocks trail hunk)
    (nonempty : vec ≠ []) (busy : ∀ cvp ∈ vec, cvp.a ≤ cvp.b ∨ cvp.c ≤ cvp.d)
    (shows_ : Shows .context source.ixold source.file0 (olds.map Format.context.lineText))
    (showsNew : Shows .context source.ixnew source.file1 (news.map Format.context.lineText))
    (old : hunk.old = if vec.any fun cvp => cvp.a ≤ cvp.b then
      some (oldLoop source hunk.upb hunk.lowa vec) else none)
    (new : hunk.new = if vec.any fun cvp => cvp.c ≤ cvp.d then
      some (newLoop source hunk.upd hunk.lowc vec) else none) :
    Lists changes olds news hunk := by
  obtain ⟨positive, range, bound⟩ := ranged.oldRange
  obtain ⟨positive', range', bound'⟩ := ranged.newRange
  have oldBelow : ∀ span ∈ vec.map oldSpan, span.last ≤ hunk.upb := fun span listed => by
    obtain ⟨cvp, here, rfl⟩ := List.mem_map.mp listed
    exact (ranged.below cvp here).1
  have newBelow : ∀ span ∈ vec.map newSpan, span.last ≤ hunk.upd := fun span listed => by
    obtain ⟨cvp, here, rfl⟩ := List.mem_map.mp listed
    exact (ranged.below cvp here).2
  obtain ⟨first, rest, rfl⟩ := List.exists_cons_of_ne_nil nonempty
  have here := busy first List.mem_cons_self
  refine ⟨fun text printed => ?_, fun text printed => ?_, fun omitted => ?_, fun omitted => ?_⟩
  · rw [old] at printed
    split at printed
    · cases printed
      rw [oldLoop_eq shows_ ranged.oldRising positive range (fun cvp listed =>
        (ranged.below cvp listed).1) (by simpa using bound), ← marked_eq_walk ranged.oldRising oldBelow
        positive range (by simpa using bound), marked_map, shown_id_map, ranged.old,
        ← marked_eq_walk ranged.oldRising oldBelow positive range bound]
    · cases printed
  · rw [new] at printed
    split at printed
    · cases printed
      rw [newLoop_eq showsNew ranged.newRising positive' range' (fun cvp listed =>
        (ranged.below cvp listed).2) (by simpa using bound') busy,
        ← marked_eq_walk ranged.newRising newBelow positive' range' (by simpa using bound'), marked_map,
        shown_id_map, ranged.new, ← marked_eq_walk ranged.newRising newBelow positive' range' bound']
    · cases printed
  · rw [old] at omitted
    split at omitted
    · cases omitted
    · next none_ =>
        rw [List.any_eq_true] at none_
        have empty : ∀ cvp ∈ first :: rest, cvp.b < cvp.a := by
          intro cvp listed
          by_contra some_
          exact none_ ⟨cvp, listed, by simpa using some_⟩
        refine ⟨?_, ?_⟩
        · rw [new, if_pos]
          · simp
          · have := empty first List.mem_cons_self
            rw [List.any_eq_true]
            exact ⟨first, List.mem_cons_self, by simp; omega⟩
        · rw [unmarked, ranged.new, filter_walk, ranged.newGaps, ← ranged.oldGaps,
            gaps_empty ranged.oldRising ?_ oldBelow positive range]
          · intro span listed
            obtain ⟨cvp, here, rfl⟩ := List.mem_map.mp listed
            exact empty cvp here
          · intro span listed
            obtain ⟨cvp, -, rfl⟩ := List.mem_map.mp listed
            rw [newSpan]
            dsimp only
            split <;> decide
  · rw [new] at omitted
    split at omitted
    · cases omitted
    · next none_ =>
        rw [List.any_eq_true] at none_
        have empty : ∀ cvp ∈ first :: rest, cvp.d < cvp.c := by
          intro cvp listed
          by_contra some_
          exact none_ ⟨cvp, listed, by simpa using some_⟩
        refine ⟨?_, ?_⟩
        · rw [old, if_pos]
          · simp
          · have := empty first List.mem_cons_self
            rw [List.any_eq_true]
            exact ⟨first, List.mem_cons_self, by simp; omega⟩
        · rw [unmarked, ranged.old, filter_walk, ranged.oldGaps, ← ranged.newGaps,
            gaps_empty ranged.newRising ?_ newBelow positive' range']
          · intro span listed
            obtain ⟨cvp, here, rfl⟩ := List.mem_map.mp listed
            exact empty cvp here
          · intro span listed
            obtain ⟨cvp, -, rfl⟩ := List.mem_map.mp listed
            rw [oldSpan]
            dsimp only
            split <;> decide

end

/-! ## All hunks -/

section

variable {context bound : Nat} {file0 file1 : List Byte}

theorem collected_changesOf {α : Type} {busy : List (Block α)} (all : ∀ block ∈ busy, ¬ block.Idle)
    (before beforeNew : Nat) :
    collected (fun _ => false) (changesOf before beforeNew busy) = changesOf before beforeNew busy := by
  induction busy generalizing before beforeNew with
  | nil => rfl
  | cons block busy ih =>
      have here : live (fun _ => false) (changeOf before beforeNew block) = true :=
        live_iff.mpr ⟨changeOf_idle.not.mpr (all block List.mem_cons_self), Bool.false_ne_true⟩
      have rest := ih (fun other later => all other (List.mem_cons_of_mem block later))
        (before + block.old.length) (beforeNew + block.new.length)
      rw [collected] at rest ⊢
      rw [changesOf, List.filter_cons, if_pos here, rest]

theorem collected_tiles {α : Type} {olds news : List α} {blocks : List (Block α)}
    (tiles : Tiles olds news blocks) :
    ∃ busy tail, olds = busy.flatMap Block.old ++ tail ∧ news = busy.flatMap Block.new ++ tail ∧
      collected (fun _ => false) (changesOf 0 0 blocks) = changesOf 0 0 busy := by
  rcases List.eq_nil_or_concat' blocks with rfl | ⟨front, last, rfl⟩
  · exact ⟨[], [], tiles.old, tiles.new, rfl⟩
  · have changed := tiles.changed
    rw [List.dropLast_concat] at changed
    by_cases idle : last.Idle
    · refine ⟨front, last.kept, ?_, ?_, ?_⟩
      · rw [tiles.old]
        simp [Block.old, idle.1]
      · rw [tiles.new]
        simp [Block.new, idle.2]
      · have dead : ¬ live (fun _ => false) (changeOf (0 + (front.flatMap Block.old).length)
            (0 + (front.flatMap Block.new).length) last) = true :=
          fun live_ => (live_iff.mp live_).1 (changeOf_idle.mpr idle)
        have rest := collected_changesOf changed 0 0
        rw [collected] at rest ⊢
        rw [changesOf_append, List.filter_append, rest, changesOf, changesOf, List.filter_cons,
          if_neg dead, List.filter_nil, List.append_nil]
    · refine ⟨front ++ [last], [], by simpa using tiles.old, by simpa using tiles.new,
        collected_changesOf (fun block listed => ?_) 0 0⟩
      rcases List.mem_append.mp listed with inFront | here
      · exact changed block inFront
      · rw [List.mem_singleton.mp here]
        exact idle

theorem changesFor_eq (bound : Nat) (file0 file1 : List Byte) : changesFor bound file0 file1 =
    forwardChanges (lines file0).length (lines file1).length (checked bound file0 file1).J := by
  rw [changesFor, prepare_eq, prepare_eq, List.length_map, List.length_map]

theorem groups_framed {vec : List Change}
    (listed : vec ∈ groups context (fun _ => false) (changesFor bound file0 file1)) :
    vec ≠ [] ∧ (∀ cvp ∈ vec, cvp.a ≤ cvp.b ∨ cvp.c ≤ cvp.d) ∧
      ∃ front frontNew blocks trail back backNew,
        Framed context (lines file0) (lines file1)
          (collected (fun _ => false) (changesFor bound file0 file1)) vec front frontNew blocks trail
          back backNew := by
  obtain ⟨before, behind, placed⟩ := groups_placed listed
  refine ⟨placed.nonempty, fun cvp here => ?_, ?_⟩
  · have member : cvp ∈ collected (fun _ => false) (changesFor bound file0 file1) := by
      rw [placed.split]
      simp [here]
    exact collected_busy member
  · obtain ⟨blocks, changes, tiles⟩ := forwardChanges_tiles (checked_pairs bound file0 file1)
    obtain ⟨busy, tail, split, splitNew, all⟩ := collected_tiles tiles
    rw [changesFor_eq, changes, all] at placed ⊢
    exact framed_of_placed placed split splitNew

theorem sourceOf_len0 : (sourceOf bound file0 file1).len0 = (lines file0).length := by
  simp [sourceOf, prepare_eq]

theorem sourceOf_len1 : (sourceOf bound file0 file1).len1 = (lines file1).length := by
  simp [sourceOf, prepare_eq]

theorem sourceOf_old : (sourceOf bound file0 file1).ixold = (checked bound file0 file1).ixold ∧
    (sourceOf bound file0 file1).file0 = file0 := ⟨rfl, rfl⟩

theorem sourceOf_new : (sourceOf bound file0 file1).ixnew = (checked bound file0 file1).ixnew ∧
    (sourceOf bound file0 file1).file1 = file1 := ⟨rfl, rfl⟩

theorem shows_indexed {ix : Table Nat} {file : List Byte} (indexed : Indexed (lines file) ix) :
    Shows .context ix file ((lines file).map Format.context.lineText) := by
  have shows_ : Shows .context ix (lines file).flatten ((lines file).map Format.context.lineText) :=
    shows_of_indexed (by decide) (lines_lineList file) indexed
  rwa [flatten_lines] at shows_

/-- Unless `check` stops in the middle of a line, every hunk lists what it should. -/
theorem lists_of_whole (whole : ¬ Stops bound file0 file1) {hunk : Hunk}
    (printed : hunk ∈ hunksFor context bound file0 file1) :
    Lists (changesFor bound file0 file1) (lines file0) (lines file1) hunk := by
  obtain ⟨vec, listed, dumped⟩ := List.mem_filterMap.mp printed
  obtain ⟨nonempty, busy, front, frontNew, blocks, trail, back, backNew, framed⟩ :=
    groups_framed listed
  obtain ⟨hunk', dumped', ranged, old, new⟩ :=
    framed.dump (sourceOf bound file0 file1) nonempty sourceOf_len0 sourceOf_len1
  rw [dumped] at dumped'
  cases dumped'
  obtain ⟨indexed, indexedNew⟩ := checked_indexed whole
  refine ranged.lists nonempty busy ?_ ?_ old new
  · rw [sourceOf_old.1, sourceOf_old.2]
    exact shows_indexed indexed
  · rw [sourceOf_new.1, sourceOf_new.2]
    exact shows_indexed indexedNew

/-! ## Behind a cut -/

/-- The lines of the old file by the numbers of the lines they are paired with. -/
def labels (J : Table Nat) (len0 : Nat) : List Nat := (List.range' 1 len0).map J

variable {len0 j len1 : Nat} {line more : List Byte}

theorem getElem?_labels (J : Table Nat) {i : Nat} (inside : i < len0) :
    (labels J len0)[i]? = some (J (i + 1)) := by
  rw [labels, List.getElem?_map, List.getElem?_range' inside, Nat.one_mul, Nat.add_comm]
  rfl

theorem getElem?_numbers (inside : j < len1) :
    (List.range' 1 len1)[j]? = some (j + 1) := by
  rw [List.getElem?_range' inside, Nat.one_mul, Nat.add_comm]

theorem pairs_labels {J : Table Nat} (rises : Rises len0 len1 J) :
    Pairs (labels J len0) (List.range' 1 len1) J := by
  have length : (labels J len0).length = len0 := by simp [labels]
  refine ⟨by simpa [length] using rises, fun i positive inside nonzero => ?_⟩
  rw [length] at inside
  have bound := rises.inside i positive inside
  have place : i - 1 + 1 = i := by omega
  have place' : J i - 1 + 1 = J i := by omega
  rw [getElem?_labels J (by omega), getElem?_numbers (by omega), place, place']

/-- The last change, when the last old line is paired with nothing and no line before it with one
of the new lines from `j` on. -/
theorem last_change {J : Table Nat} (rises : Rises len0 len1 J) (some_ : 0 < len0)
    (positive : 0 < j) (unpaired : J len0 = 0) (below : ∀ i, 0 < i → i < len0 → J i < j) :
    ∃ front last, forwardChanges len0 len1 J = front ++ [last] ∧ last.a ≤ last.b ∧ last.c ≤ j ∧
      last.d = len1 := by
  obtain ⟨blocks, changes, tiles⟩ := forwardChanges_tiles (pairs_labels rises)
  have length : (labels J len0).length = len0 := by simp [labels]
  rw [length, List.length_range'] at changes
  rcases List.eq_nil_or_concat' blocks with rfl | ⟨init, last, rfl⟩
  · have none_ := congrArg List.length tiles.old
    rw [length] at none_
    simp at none_
    omega
  · have old := tiles.old
    have new := tiles.new
    rw [List.flatMap_append, List.flatMap_singleton] at old new
    have total := congrArg List.length old
    have totalNew := congrArg List.length new
    rw [length, List.length_append] at total
    rw [List.length_range', List.length_append] at totalNew
    have lastOld : last.old.length = last.kept.length + last.deleted.length := List.length_append
    have lastNew : last.new.length = last.kept.length + last.inserted.length := List.length_append
    have kept : last.kept = [] → init = [] := by
      intro none_
      by_contra more
      obtain ⟨first, rest, rfl⟩ := List.exists_cons_of_ne_nil more
      exact tiles.apart last (by simp) none_
    -- a kept line is found on both sides, under its number
    have paired (k : Nat) (less : k < last.kept.length) :
        J ((init.flatMap Block.old).length + k + 1) = (init.flatMap Block.new).length + k + 1 := by
      have here : (labels J len0)[(init.flatMap Block.old).length + k]? =
          some (J ((init.flatMap Block.old).length + k + 1)) :=
        getElem?_labels J (by omega)
      have there : (List.range' 1 len1)[(init.flatMap Block.new).length + k]? =
          some ((init.flatMap Block.new).length + k + 1) :=
        getElem?_numbers (by omega)
      rw [old, List.getElem?_append_right (Nat.le_add_right _ _), Nat.add_sub_cancel_left, Block.old,
        List.getElem?_append_left less] at here
      rw [new, List.getElem?_append_right (Nat.le_add_right _ _), Nat.add_sub_cancel_left, Block.new,
        List.getElem?_append_left less, here] at there
      exact Option.some.inj there
    have deletes : 0 < last.deleted.length := by
      by_contra none_
      by_cases empty : last.kept = []
      · rw [kept empty] at total
        rw [empty, List.length_nil] at lastOld
        simp only [List.flatMap_nil, List.length_nil] at total
        omega
      · have positive_ := List.length_pos_iff.mpr empty
        have final := paired (last.kept.length - 1) (by omega)
        have place : (init.flatMap Block.old).length + (last.kept.length - 1) + 1 = len0 := by omega
        rw [place, unpaired] at final
        omega
    refine ⟨changesOf 0 0 init, changeOf (init.flatMap Block.old).length
      (init.flatMap Block.new).length last, ?_, ?_, ?_, ?_⟩
    · rw [changes, changesOf_append, Nat.zero_add, Nat.zero_add]
      rfl
    · rw [changeOf_a, changeOf_b]
      omega
    · rw [changeOf_c]
      by_cases empty : last.kept = []
      · rw [kept empty, empty]
        simp only [List.flatMap_nil, List.length_nil]
        omega
      · have positive_ := List.length_pos_iff.mpr empty
        have final := paired (last.kept.length - 1) (by omega)
        have bound_ := below ((init.flatMap Block.old).length + (last.kept.length - 1) + 1)
          (Nat.succ_pos _) (by omega)
        omega
    · rw [changeOf_d]
      omega

/-- The bytes of some lines and their marks. -/
def cost (display : List Byte → List Byte) (list : List (List Byte)) : Nat :=
  (list.map fun line => 2 + (display line).length).sum

theorem cost_append (display : List Byte → List Byte) (front back : List (List Byte)) :
    cost display (front ++ back) = cost display front + cost display back := by
  rw [cost, List.map_append, List.sum_append, cost, cost]

theorem cost_cons (display : List Byte → List Byte) (line : List Byte) (list : List (List Byte)) :
    cost display (line :: list) = 2 + (display line).length + cost display list := rfl

theorem length_shown (display : List Byte → List Byte) (section_ : List (Char × List Byte)) :
    (shown display section_).length = cost display (section_.map Prod.snd) := by
  induction section_ with
  | nil => rfl
  | cons pair section_ ih =>
      rw [shown, List.flatMap_cons, List.length_append, List.map_cons, cost_cons, ← ih, shown,
        List.length_append]
      rfl

theorem length_lineText (line : List Byte) : line.length ≤ (Format.context.lineText line).length := by
  rw [Format.lineText, List.length_append]
  exact Nat.le_add_right _ _

theorem cost_lineText (list : List (List Byte)) : cost id list ≤ cost Format.context.lineText list := by
  induction list with
  | nil => exact Nat.le_refl _
  | cons line list ih =>
      have here := length_lineText line
      rw [cost_cons, cost_cons, id]
      omega

theorem cost_cut {news front back : List (List Byte)} {next : Byte} (ordered : LineList news)
    (split : news = front ++ (line ++ next :: more) :: back) (inside : next ≠ nl) {k : Nat}
    (before : k ≤ front.length) :
    cost id (((front ++ (line ++ [next]) :: ((if more = [] then [] else [more]) ++ back)).take
        news.length).drop k) < cost Format.context.lineText (news.drop k) := by
  have length := congrArg List.length split
  rw [List.length_append, List.length_cons] at length
  have left := cost_lineText (front.drop k)
  have right := cost_lineText back
  rw [split, List.drop_append_of_le_length before, cost_append, cost_cons]
  rw [← split, length]
  by_cases none_ : more = []
  · have open_ : ¬ Terminated (line ++ [next]) := by simp [Terminated, inside]
    have note : 0 < (Format.eofText .context).length := by decide
    rw [none_, if_pos rfl, List.nil_append, List.take_of_length_le (by simp),
      List.drop_append_of_le_length before, cost_append, cost_cons, Format.lineText, if_neg open_,
      List.length_append, id]
    omega
  · have shorter : cost id ((line ++ [next]) :: ([more] ++ back).take back.length) <
        2 + (Format.context.lineText (line ++ next :: more)).length +
          cost Format.context.lineText back := by
      have positive := List.length_pos_iff.mpr none_
      have first := length_lineText (line ++ next :: more)
      rw [List.length_append, List.length_cons] at first
      rw [cost_cons, id, List.length_append, List.length_singleton]
      rcases List.eq_nil_or_concat' back with rfl | ⟨init, last, rfl⟩
      · rw [List.length_nil, List.take_zero]
        show _ + 0 < _ + 0
        omega
      · have filled : 0 < last.length :=
          List.length_pos_iff.mpr (ordered.isLine (by rw [split]; simp)).nonempty
        have place : (init ++ [last]).length = ([more] ++ init).length := by simp
        have init_ := cost_lineText init
        have last_ := length_lineText last
        rw [← List.append_assoc, place, List.take_left, cost_append, cost_append, cost_cons, cost_cons, id]
        show _ + (_ + 0 + _) < _ + (_ + (_ + 0))
        omega
    have cut : (front ++ (line ++ [next]) :: ([more] ++ back)).take (front.length + (back.length + 1)) =
        front ++ (line ++ [next]) :: ([more] ++ back).take back.length := by
      rw [List.take_length_add_append, List.take_succ_cons]
    rw [if_neg none_, cut, List.drop_append_of_le_length before, cost_append]
    omega

theorem cut_split {news : List (List Byte)} {text : List Byte} (positive : 0 < j)
    (found : news[j - 1]? = some text) : news = news.take (j - 1) ++ text :: news.drop j := by
  have place : j - 1 + 1 = j := by omega
  have behind := drop_found found
  rw [place] at behind
  rw [← behind, List.take_append_drop]

theorem flatten_cutLines {news : List (List Byte)} {next : Byte} (positive : 0 < j)
    (longer : news[j - 1]? = some (line ++ next :: more)) :
    (cutLines news j line next more).flatten = news.flatten := by
  have parts := congrArg List.flatten (cut_split positive longer)
  rw [parts, cutLines]
  split <;> simp_all

theorem between_end {α : Type} {list : List α} {low up : Nat} (end_ : up = list.length) :
    between list low up = list.drop (low - 1) := by
  rw [between, List.take_of_length_le]
  rw [List.length_drop]
  omega

/-- Behind a cut the loop over the new file prints too little. -/
theorem Ranged.short {changes vec : List Change} {olds news trail front back : List (List Byte)}
    {blocks : List (Block (List Byte))} {hunk : Hunk} {source : Source} {last : Change}
    {next : Byte} (ranged : Ranged changes olds news vec blocks trail hunk)
    (busy : ∀ cvp ∈ vec, cvp.a ≤ cvp.b ∨ cvp.c ≤ cvp.d) (member : last ∈ vec)
    (ordered : LineList news) (split : news = front ++ (line ++ next :: more) :: back)
    (inside : next ≠ nl) (shows_ : Shows .context source.ixnew source.file1
      ((front ++ (line ++ [next]) :: ((if more = [] then [] else [more]) ++ back)).take news.length))
    (first : last.c ≤ front.length + 1) (end_ : last.d = news.length) :
    newLoop source hunk.upd hunk.lowc vec ≠
      shown Format.context.lineText (newSection changes news hunk) := by
  intro text
  obtain ⟨positive, range_, bound_⟩ := ranged.newRange
  have upd : hunk.upd = news.length := by
    have := (ranged.below last member).2
    omega
  have lowc : hunk.lowc ≤ last.c := (ranged.newRising.le (List.mem_map_of_mem member)).1
  have length := congrArg List.length split
  rw [List.length_append, List.length_cons] at length
  have short := cost_cut ordered split inside (show hunk.lowc - 1 ≤ front.length by omega)
  have whole : ((front ++ (line ++ [next]) :: ((if more = [] then [] else [more]) ++ back)).take
      news.length).length = news.length := by
    rw [List.length_take, List.length_append, List.length_cons, List.length_append]
    omega
  generalize (front ++ (line ++ [next]) :: ((if more = [] then [] else [more]) ++ back)).take
    news.length = texts at shows_ short whole
  have newBelow : ∀ span ∈ vec.map newSpan, span.last ≤ hunk.upd := fun span listed => by
    obtain ⟨cvp, here, rfl⟩ := List.mem_map.mp listed
    exact (ranged.below cvp here).2
  have inTexts : hunk.upd ≤ texts.length := by omega
  have printed := newLoop_eq shows_ ranged.newRising positive range_ (fun cvp listed =>
    (ranged.below cvp listed).2) inTexts busy
  rw [← marked_eq_walk ranged.newRising newBelow positive range_ inTexts] at printed
  have same := congrArg List.length (printed.symm.trans text)
  rw [length_shown, length_shown, map_snd_marked, newSection, map_snd_marked, upd,
    between_end whole.symm, between_end rfl] at same
  omega

theorem changesFor_cut {next : Byte}
    (cut : Cut (lines file0) (lines file1) (unravelled bound file0 file1) line next more) :
    ∃ front last, changesFor bound file0 file1 = front ++ [last] ∧ last.a ≤ last.b ∧
      last.c ≤ unravelled bound file0 file1 (lines file0).length ∧
      last.d = (lines file1).length := by
  have rises := unravelled_rises bound file0 file1
  have pairs := checked_pairs bound file0 file1
  obtain ⟨-, -, entries⟩ := check_cut (lines_lineList file0) (lines_lineList file1) rises cut
  rw [← checked_eq] at entries
  have some_ := (List.getElem?_eq_some_iff.mp cut.last).1
  have paired := cut.paired
  have entry (i : Nat) (low : 0 < i) (high : i ≤ (lines file0).length) :
      (checked bound file0 file1).J i =
        agreed (lines file0) (lines file1) (unravelled bound file0 file1) i := by
    rw [entries i low, if_pos high]
  have unpaired : (checked bound file0 file1).J (lines file0).length = 0 := by
    rw [entry _ (by omega) (Nat.le_refl _)]
    rcases agreed_cases (lines file0) (lines file1) (unravelled bound file0 file1)
      (lines file0).length with zero | ⟨-, same⟩
    · exact zero
    · rw [cut.last, cut.longer] at same
      have length := congrArg List.length (Option.some.inj same)
      simp at length
  have below (i : Nat) (low : 0 < i) (high : i < (lines file0).length) :
      (checked bound file0 file1).J i < unravelled bound file0 file1 (lines file0).length := by
    rw [entry i low high.le]
    rcases agreed_cases (lines file0) (lines file1) (unravelled bound file0 file1) i with zero | same
    · omega
    · rw [same.1]
      by_cases zero : unravelled bound file0 file1 i = 0
      · omega
      · exact rises.rising i _ low high (Nat.le_refl _) zero paired
  rw [changesFor_eq]
  exact last_change pairs.rises (by omega) (Nat.pos_of_ne_zero paired) unpaired below

theorem not_lists_of_stops (context : Nat) (stops : Stops bound file0 file1) :
    ¬ ∀ hunk ∈ hunksFor context bound file0 file1,
      Lists (changesFor bound file0 file1) (lines file0) (lines file1) hunk := by
  intro all
  obtain ⟨line, next, more, cut⟩ := stops
  obtain ⟨-, ixnew, -⟩ := check_cut (lines_lineList file0) (lines_lineList file1)
    (unravelled_rises bound file0 file1) cut
  rw [← checked_eq] at ixnew
  have paired := cut.paired
  have inside := (List.getElem?_eq_some_iff.mp cut.longer).1
  obtain ⟨front, last, changes, deletes, first, end_⟩ := changesFor_cut cut
  have live_ : live (fun _ => false) last = true := live_iff.mpr ⟨by omega, Bool.false_ne_true⟩
  have collected_ : collected (fun _ => false) (changesFor bound file0 file1) =
      collected (fun _ => false) front ++ [last] := by
    rw [collected, changes, List.filter_append, List.filter_cons, if_pos live_]
    rfl
  -- the last change is in the last group
  obtain ⟨vec, listed, member⟩ : ∃ vec ∈ groups context (fun _ => false) (changesFor bound file0 file1),
      last ∈ vec := by
    have whole := List.flatten_splitBy (fun prev next => !far context prev next)
      (collected (fun _ => false) (changesFor bound file0 file1))
    rw [← groups_eq] at whole
    refine List.mem_flatten.mp ?_
    rw [whole, collected_]
    simp
  obtain ⟨nonempty, busy, front', frontNew, blocks, trail, back, backNew, framed⟩ :=
    groups_framed listed
  obtain ⟨hunk, dumped, ranged, -, new⟩ :=
    framed.dump (sourceOf bound file0 file1) nonempty sourceOf_len0 sourceOf_len1
  have lists := all hunk (List.mem_filterMap.mpr ⟨vec, listed, dumped⟩)
  rw [if_pos (List.any_eq_true.mpr ⟨last, member, by simp; omega⟩)] at new
  have text := lists.new _ new
  have shows_ : Shows .context (checked bound file0 file1).ixnew _ _ :=
    shows_of_exact (by decide) ixnew
  rw [flatten_cutLines (Nat.pos_of_ne_zero paired) cut.longer, flatten_lines, cutLines] at shows_
  refine ranged.short busy member (lines_lineList file1)
    (cut_split (Nat.pos_of_ne_zero paired) cut.longer) cut.inside ?_
    (by rw [List.length_take]; omega) end_ text
  rw [sourceOf_new.1, sourceOf_new.2]
  exact shows_

end

end Netbase.Diff.Sections
