import Mathlib
import Netbase.Patch.Locate
import Netbase.Patch.Reject

/-!
# The comparison of a hunk with the input

`patch_match` compares the lines of a hunk with what `i_ptr` points at, by `strncmp` over
the stored length `p_len`, a `short`.  The input lines are not terminated, so that nothing
but the pattern line and its length ends a comparison, and whether a line has its newline
is only looked at on the last line of the input.
-/

namespace Netbase.Patch.Match

open Netbase.Text
open Netbase.Patch.Input
open Netbase.Patch.Pch
open Netbase.Patch.Locate
open Netbase.Patch.Parse
open Netbase.Patch.Reject

/-! ## The comparison -/

/-- The bytes around the lines that the program has not written. -/
structure Outside where
  /-- Behind the mapped file. -/
  mapped : List Byte
  /-- Behind the copy of an unterminated last line. -/
  copied : List Byte
  /-- Where `p_line[k][p_len[k] - 1]` lies in front of `p_line[k]`. -/
  before : Nat → Byte

/-- The memory from `i_ptr[line]` on. -/
def memoryAt (womp : List Byte) (outside : Outside) (line : Int) : Option (List Byte) :=
  let index := planA womp
  if line < 1 ∨ line > index.inputLines then none
  else if index.lastLineMissingEol = true ∧ line = index.inputLines then
    (index.ptr[line.toNat - 1]?).map (· ++ outside.copied)
  else some (womp.drop (index.ptr.take (line.toNat - 1)).flatten.length ++ outside.mapped)

/--
How many bytes `strncmp` may compare.  A negative `short` is a `size_t` above the length of
any string, so that the NUL behind the pattern line is compared as well.
-/
def reach (len : Int) (plineptr : List Byte) : Nat :=
  if 0 ≤ len then len.toNat else plineptr.length + 1

/-- `plineptr[plinelen - 1]` -/
def endByte (outside : Outside) (slots : Slots) (pline : Nat) : Byte :=
  if slots.len pline ≤ 0 then outside.before pline
  else (slots.line pline).getD ((slots.len pline).toNat - 1) 0

/-- One turn of the loop of `patch_match`. -/
def lineMatches (canonicalize : Bool) (womp : List Byte) (outside : Outside) (slots : Slots)
    (iline : Int) (pline : Nat) : Bool :=
  match memoryAt womp outside iline with
  | none => false
  | some ilineptr =>
      let plineptr := slots.line pline
      let plinelen := slots.len pline
      let same :=
        if canonicalize then similar (ilineptr.length + plineptr.length + 1) ilineptr plineptr
          plinelen
        else strnEQ (reach plinelen plineptr) ilineptr plineptr
      if !same then false
      else if iline = (planA womp).inputLines then
        -- the last line of the file and the pattern line end alike
        if (planA womp).lastLineMissingEol then decide (endByte outside slots pline ≠ nl)
        else decide (endByte outside slots pline = nl)
      else true

/-- Does the pattern match at line `base + offset`? -/
def patchMatch (canonicalize : Bool) (womp : List Byte) (outside : Outside) (hunk : Hunk)
    (base offset : Int) (fuzz : Nat) : Bool :=
  (List.range (hunk.ptrnLines - 2 * fuzz)).all fun k =>
    lineMatches canonicalize womp outside hunk.slots (base + offset + fuzz + k) (1 + fuzz + k)

/-! ## What is to be compared -/

def inputLine (womp : List Byte) (line : Int) : Option (List Byte) :=
  let index := planA womp
  (index.ifetch line).map fun text =>
    if index.lastLineMissingEol = true ∧ line = index.inputLines then text.dropLast else text

/-- A pattern line; a note behind a context line has only been taken off its length. -/
def patternLine (slots : Slots) (k : Nat) : List Byte :=
  if slots.len k = toShort (slots.line k).length then slots.line k else (slots.line k).dropLast

/-- The hunks that are compared: those read and those turned around. -/
inductive Parsed : Hunk → Prop where
  | read {stream after : Stream} {hunk : Hunk}
      (accepted : anotherHunk stream = .ok (some hunk, after)) : Parsed hunk
  | swapped {hunk other : Hunk} (parsed : Parsed hunk) (done : pchSwap hunk = .ok other) :
      Parsed other

/-- The input lines from `base + offset` on are the lines of the pattern. -/
def Identical (womp : List Byte) (hunk : Hunk) (base offset : Int) : Prop :=
  ∀ k < hunk.ptrnLines,
    inputLine womp (base + offset + k) = some (patternLine hunk.slots (1 + k))

/-- A line that no comparison gets past: its length is negative, and a NUL cannot stand behind
the input line that it is compared with. -/
def Barred (hunk : Hunk) (j : Nat) : Prop :=
  hunk.slots.len j < 0 ∧
    (¬ Terminated (hunk.slots.line j) ∨ j + 1 < hunk.ptrnLines ∨
      j + 1 = hunk.ptrnLines ∧ hunk.slots.len hunk.ptrnLines ≠ 0)

/-- Every pattern line has its newline and a length that a `short` can hold. -/
def Regular (hunk : Hunk) : Prop :=
  ∀ k, 1 ≤ k → k ≤ hunk.ptrnLines →
    Terminated (patternLine hunk.slots k) ∧ (patternLine hunk.slots k).length ≤ 32767

/-- No file can have the lines of the pattern, and none is taken for having them. -/
def Hopeless (hunk : Hunk) : Prop :=
  (∃ k, 1 ≤ k ∧ k < hunk.ptrnLines ∧ ¬ Terminated (patternLine hunk.slots k)) ∧
    ∃ j, 1 ≤ j ∧ j ≤ hunk.ptrnLines ∧ Barred hunk j

/-! ## The lines of a parsed hunk -/

/-- The stored length is the length of the line, or one less, as a `short`. -/
def Measured (slots : Slots) (k : Nat) : Prop :=
  slots.len k = toShort (slots.line k).length ∨
    slots.len k = toShort ((slots.line k).length - 1)

theorem toShort_toShort_pred (n : Int) : toShort (toShort n - 1) = toShort (n - 1) := by
  rw [toShort_eq_ite (toShort n - 1), toShort_eq_ite n, toShort_eq_ite (n - 1)]
  split <;> split <;> split <;> omega

theorem toShort_range (n : Int) : -32768 ≤ toShort n ∧ toShort n ≤ 32767 := by
  rw [toShort_eq_ite]
  split <;> omega

theorem toShort_of_range {n : Int} (low : -32768 ≤ n) (high : n ≤ 32767) : toShort n = n := by
  rw [toShort_eq_ite]
  split <;> omega

/-- A `short` that is not negative is at most the number it was made from. -/
theorem toShort_le {n : Int} (low : -1 ≤ n) (kept : 0 ≤ toShort n) : toShort n ≤ n := by
  rw [toShort_eq_ite] at *
  split at kept <;> split <;> omega

variable {slots : Slots} {s : List Byte} {k : Nat}

theorem Measured.put (measured : ∀ k, Measured slots k) (i : Nat) (mark : Mark) (s : List Byte)
    (k : Nat) : Measured (slots.put i mark s) k := by
  unfold Measured
  rw [put_len, put_line]
  split
  · exact Or.inl rfl
  · exact measured k

theorem Measured.chop (measured : ∀ k, Measured slots k) (i : Nat) (mark : Mark) (s : List Byte)
    (k : Nat) : Measured ((slots.put i mark s).chop i) k := by
  unfold Measured
  rw [chop_len, chop_line]
  split
  · rw [put_len, put_line, if_pos rfl, if_pos rfl, toShort_toShort_pred]
    unfold cutAt
    split
    · next kept =>
        have bound := toShort_le (by omega) kept
        have high := (toShort_range ((s.length : Int) - 1)).2
        have whole : (s.take (toShort ((s.length : Int) - 1)).toNat).length =
            (toShort ((s.length : Int) - 1)).toNat := by
          rw [List.length_take]
          omega
        left
        rw [whole, Int.toNat_of_nonneg kept]
        exact (toShort_of_range (by omega) high).symm
    · exact Or.inr rfl
  · exact Measured.put measured i mark s k

theorem Measured.shorter (measured : ∀ k, Measured slots k) (i : Nat) (mark : Mark) (s : List Byte)
    (k : Nat) :
    Measured { slots.put i mark s with
      len := Function.update (slots.put i mark s).len i
        (toShort ((slots.put i mark s).len i - 1)) } k := by
  by_cases here : k = i
  · subst here
    right
    dsimp only
    rw [Function.update_self, put_len, put_line, if_pos rfl, if_pos rfl, toShort_toShort_pred]
  · have kept := Measured.put measured i mark s k
    unfold Measured at *
    dsimp only
    rw [Function.update_of_ne here]
    exact kept

variable {ptrnLines endLine : Nat} {fill next : Fill}

theorem addNew_measured (measured : ∀ k, Measured fill.slots k) (mark : Mark) (s : List Byte) :
    ∀ k, Measured (fill.addNew ptrnLines mark s).slots k := by
  rcases (addNew_stored ptrnLines fill s mark).2.2 with put | cut
  · rw [put]
    exact Measured.put measured _ _ _
  · rw [cut]
    exact Measured.chop measured _ _ _

theorem addOld_measured (measured : ∀ k, Measured fill.slots k) (s : List Byte) :
    ∀ k, Measured (fill.addOld ptrnLines s).slots k := by
  rcases (addOld_stored ptrnLines fill s).2.2 with put | cut
  · rw [put]
    exact Measured.put measured _ _ _
  · rw [cut]
    exact Measured.chop measured _ _ _

theorem addContext_measured (measured : ∀ k, Measured fill.slots k) (s : List Byte) :
    ∀ k, Measured (fill.addContext ptrnLines s).1.slots k := by
  unfold Fill.addContext
  dsimp only
  split
  · exact Measured.put measured _ _ _
  · exact Measured.shorter measured _ _ _

theorem fillLine_measured {buf : List Byte} (measured : ∀ k, Measured fill.slots k)
    (run : fillLine ptrnLines endLine fill buf = .ok next) : ∀ k, Measured next.slots k := by
  unfold fillLine at run
  dsimp only at run
  generalize (if buf.head? = some (byte '\t') ∨ buf.head? = some nl then cstr buf
    else cstr buf.tail) = s at run
  generalize (if buf.head? = some (byte '\t') ∨ buf.head? = some nl then byte ' '
    else buf.headD 0) = ch at run
  split at run
  · split at run
    · cases run
    · cases run
      rw [(endContext_eq _).2.2.1]
      exact addOld_measured measured _
  split at run
  · split at run
    · cases run
    · split at run
      · cases run
      · cases run
        exact addNew_measured (addContext_measured measured _) _ _
  split at run
  · split at run
    · cases run
    · cases run
      rw [(endContext_eq _).2.2.1]
      exact addNew_measured measured _ _
  · cases run

theorem fillHunk_measured (fuel : Nat) {final : Fill} (measured : ∀ k, Measured fill.slots k)
    (run : fillHunk ptrnLines endLine fuel fill = .ok final) : ∀ k, Measured final.slots k := by
  induction fuel generalizing fill with
  | zero =>
      cases run
      exact measured
  | succ fuel ih =>
      have kept : ∀ stream k, Measured ({ fill with stream := stream } : Fill).slots k :=
        fun _ => measured
      rw [fillHunk] at run
      split at run
      · dsimp only at run
        split at run
        · split at run
          · split at run
            · cases run
            · next read => exact ih (fillLine_measured (kept _) read) run
          · cases run
        · split at run
          · cases run
          · next read => exact ih (fillLine_measured (kept _) read) run
      · cases run
        exact measured

theorem startSlots_measured (first newfirst : Int) (replLines : Nat) (k : Nat) :
    Measured (startSlots first newfirst ptrnLines replLines) k := by
  have empty : ∀ k, Measured { line := fun _ => [], len := fun _ => 0, char := fun _ => .stop } k :=
    fun _ => Or.inl (toShort_of_range (n := 0) (by decide) (by decide)).symm
  exact Measured.put (Measured.put empty _ _ _) _ _ _ k

theorem anotherHunk_measured {stream after : Stream} {hunk : Hunk}
    (run : anotherHunk stream = .ok (some hunk, after)) : ∀ k, Measured hunk.slots k := by
  unfold anotherHunk at run
  dsimp only at run
  split at run
  · cases run
  split at run
  · cases run
  split at run
  · cases run
  next filled =>
  cases run
  refine fillHunk_measured _ ?_ filled
  exact startSlots_measured _ _ _

/-- Both sides of a hunk hold texts with their lengths. -/
structure Sides (hunk : Hunk) : Prop where
  endLine : hunk.endLine = hunk.ptrnLines + hunk.replLines + 1
  text : ∀ k, 1 ≤ k → k ≠ hunk.ptrnLines + 1 → k ≤ hunk.endLine →
    Textual (hunk.slots.line k) ∧ Measured hunk.slots k

theorem sides_of_formed {hunk : Hunk} (formed : Formed hunk)
    (measured : ∀ k, Measured hunk.slots k) : Sides hunk := by
  refine ⟨formed.endLine, fun k positive apart within => ⟨?_, measured k⟩⟩
  by_cases old : k ≤ hunk.ptrnLines
  · exact formed.oldText k positive old
  · exact formed.newText k (by omega) within

theorem Sides.swap {hunk other : Hunk} (sides : Sides hunk) (done : pchSwap hunk = .ok other) :
    Sides other := by
  have size := sides.endLine
  unfold pchSwap at done
  dsimp only at done
  split at done
  · cases done
  split at done
  · cases done
  cases done
  refine ⟨by dsimp only; omega, fun k positive apart within => ?_⟩
  dsimp only at apart within ⊢
  unfold Measured
  dsimp only
  rw [if_neg (by omega)]
  by_cases old : k < hunk.endLine - hunk.ptrnLines
  · rw [if_pos old, if_pos old]
    exact sides.text _ (by omega) (by omega) (by omega)
  · rw [if_neg old, if_neg old, if_neg (by omega)]
    exact sides.text _ (by omega) (by omega) (by omega)

theorem Parsed.sides {hunk : Hunk} (parsed : Parsed hunk) : Sides hunk := by
  induction parsed with
  | read accepted => exact sides_of_formed (anotherHunk_formed accepted) (anotherHunk_measured accepted)
  | swapped _ done ih => exact ih.swap done

/-! ## The lines of the input -/

theorem not_mem_cons_iff {b c : Byte} : b ∉ c :: s ↔ b ≠ c ∧ b ∉ s := by
  rw [List.mem_cons, not_or]

/-- A line of the input with its newline. -/
def Closed (text : List Byte) : Prop :=
  ∃ body, nl ∉ body ∧ (0 : Byte) ∉ body ∧ text = body ++ [nl]

theorem Closed.terminated {text : List Byte} (closed : Closed text) : Terminated text := by
  obtain ⟨body, -, -, rfl⟩ := closed
  exact terminated_body body

theorem Closed.visible {text more : List Byte} (closed : Closed text) :
    (text ++ more).headD 0 ≠ 0 := by
  obtain ⟨body, -, live, rfl⟩ := closed
  cases body with
  | nil =>
      show nl ≠ 0
      decide
  | cons b rest =>
      intro nul
      exact live (List.mem_cons.mpr (Or.inl nul.symm))

/-- The file is split at its newlines, up to the first NUL. -/
structure Scanned (womp : List Byte) (texts : List (List Byte)) (tail rest : List Byte) : Prop where
  whole : womp = texts.flatten ++ (tail ++ rest)
  closed : ∀ text ∈ texts, Closed text
  clean : nl ∉ tail
  live : (0 : Byte) ∉ tail
  stop : rest.headD 0 = 0

theorem scanWomp_open {tail rest : List Byte} (clean : nl ∉ tail) (live : (0 : Byte) ∉ tail)
    (stop : rest.headD 0 = 0) : scanWomp (tail ++ rest) = ([], tail) := by
  induction tail with
  | nil =>
      cases rest with
      | nil => rfl
      | cons b more => exact if_pos stop
  | cons b tail ih =>
      obtain ⟨apart, clean⟩ := not_mem_cons_iff.mp clean
      obtain ⟨nonzero, live⟩ := not_mem_cons_iff.mp live
      rw [List.cons_append, scanWomp, if_neg (Ne.symm nonzero), if_neg (Ne.symm apart),
        ih clean live]

theorem scanWomp_closed {body : List Byte} (clean : nl ∉ body) (live : (0 : Byte) ∉ body)
    (more : List Byte) :
    scanWomp (body ++ [nl] ++ more) = ((body ++ [nl]) :: (scanWomp more).1, (scanWomp more).2) := by
  induction body with
  | nil => rfl
  | cons b body ih =>
      obtain ⟨apart, clean⟩ := not_mem_cons_iff.mp clean
      obtain ⟨nonzero, live⟩ := not_mem_cons_iff.mp live
      rw [List.cons_append, List.cons_append, scanWomp, if_neg (Ne.symm nonzero),
        if_neg (Ne.symm apart), ih clean live]

theorem Scanned.scanWomp {womp : List Byte} {texts : List (List Byte)} {tail rest : List Byte}
    (scanned : Scanned womp texts tail rest) : scanWomp womp = (texts, tail) := by
  obtain ⟨rfl, closed, clean, live, stop⟩ := scanned
  induction texts with
  | nil => exact scanWomp_open clean live stop
  | cons text texts ih =>
      obtain ⟨body, apart, visible, rfl⟩ := closed _ List.mem_cons_self
      rw [List.flatten_cons, List.append_assoc, scanWomp_closed apart visible,
        ih fun other listed => closed other (List.mem_cons_of_mem _ listed)]

theorem exists_scanned (womp : List Byte) : ∃ texts tail rest, Scanned womp texts tail rest := by
  induction womp with
  | nil => exact ⟨[], [], [], rfl, fun _ listed => absurd listed List.not_mem_nil,
      List.not_mem_nil, List.not_mem_nil, rfl⟩
  | cons b womp ih =>
      obtain ⟨texts, tail, rest, whole, closed, clean, live, stop⟩ := ih
      by_cases nul : b = 0
      · exact ⟨[], [], b :: womp, rfl, fun _ listed => absurd listed List.not_mem_nil,
          List.not_mem_nil, List.not_mem_nil, nul⟩
      by_cases newline : b = nl
      · refine ⟨[nl] :: texts, tail, rest, ?_, ?_, clean, live, stop⟩
        · rw [whole, newline]
          rfl
        · rintro text listed
          rcases List.mem_cons.mp listed with rfl | later
          · exact ⟨[], List.not_mem_nil, List.not_mem_nil, rfl⟩
          · exact closed text later
      · cases texts with
        | nil =>
            refine ⟨[], b :: tail, rest, ?_, closed, not_mem_cons_iff.mpr ⟨Ne.symm newline, clean⟩,
              not_mem_cons_iff.mpr ⟨Ne.symm nul, live⟩, stop⟩
            rw [whole]
            rfl
        | cons text texts =>
            refine ⟨(b :: text) :: texts, tail, rest, ?_, ?_, clean, live, stop⟩
            · rw [whole]
              rfl
            · intro other listed
              rcases List.mem_cons.mp listed with rfl | later
              · obtain ⟨body, apart, visible, rfl⟩ := closed text List.mem_cons_self
                exact ⟨b :: body, not_mem_cons_iff.mpr ⟨Ne.symm newline, apart⟩,
                  not_mem_cons_iff.mpr ⟨Ne.symm nul, visible⟩, rfl⟩
              · exact closed other (List.mem_cons_of_mem _ later)

section

variable {womp : List Byte} {texts : List (List Byte)} {tail rest : List Byte}

/-- The file does not end in a newline. -/
def Missing (womp : List Byte) : Prop := womp ≠ [] ∧ womp.getLast? ≠ some nl

theorem Scanned.planA_missing (scanned : Scanned womp texts tail rest) (missing : Missing womp) :
    planA womp = ⟨texts ++ [tail ++ [nl]], texts.length + 1, true⟩ := by
  unfold planA
  dsimp only
  rw [scanned.scanWomp]
  exact if_pos missing

theorem Scanned.planA_ended (scanned : Scanned womp texts tail rest) (ended : ¬ Missing womp) :
    planA womp = ⟨texts, texts.length, false⟩ := by
  unfold planA
  dsimp only
  rw [scanned.scanWomp]
  exact if_neg ended

theorem Scanned.at_text (scanned : Scanned womp texts tail rest) (outside : Outside)
    {front more : List (List Byte)} {text : List Byte} (split : texts = front ++ text :: more) :
    memoryAt womp outside (front.length + 1) =
        some (text ++ (more.flatten ++ (tail ++ rest) ++ outside.mapped)) ∧
      inputLine womp (front.length + 1) = some text ∧
      ((front.length : Int) + 1 = (planA womp).inputLines →
        (planA womp).lastLineMissingEol = false ∧ more = []) := by
  have position : ((front.length : Int) + 1).toNat - 1 = front.length := by omega
  have size : texts.length = front.length + (more.length + 1) := by
    rw [split, List.length_append, List.length_cons]
  have behind : womp.drop front.flatten.length = text ++ (more.flatten ++ (tail ++ rest)) := by
    rw [scanned.whole, split, List.flatten_append, List.append_assoc, List.drop_left,
      List.flatten_cons, List.append_assoc]
  by_cases missing : Missing womp
  · unfold memoryAt inputLine PlanA.ifetch
    rw [scanned.planA_missing missing]
    dsimp only
    have inside : ¬ ((front.length : Int) + 1 < 1 ∨
        (front.length : Int) + 1 > ((texts.length + 1 : Nat) : Int)) := by omega
    have early : ¬ (true = true ∧ (front.length : Int) + 1 = ((texts.length + 1 : Nat) : Int)) := by
      omega
    rw [if_neg inside, if_neg early, if_neg inside, position, split, List.append_assoc,
      List.take_left, behind, List.append_assoc, List.getElem?_append_right (le_refl _),
      Nat.sub_self]
    refine ⟨rfl, ?_, fun last => ?_⟩
    · rw [List.cons_append, List.getElem?_cons_zero, Option.map_some]
      rw [split] at early
      exact congrArg some (if_neg early)
    · rw [split] at size
      push_cast at last
      omega
  · unfold memoryAt inputLine PlanA.ifetch
    rw [scanned.planA_ended missing]
    dsimp only
    have inside : ¬ ((front.length : Int) + 1 < 1 ∨
        (front.length : Int) + 1 > (texts.length : Nat)) := by omega
    rw [if_neg inside, if_neg (by simp), if_neg inside, position, split, List.take_left, behind,
      List.append_assoc, List.getElem?_append_right (le_refl _), Nat.sub_self]
    refine ⟨rfl, ?_, fun last => ⟨rfl, ?_⟩⟩
    · rw [List.getElem?_cons_zero, Option.map_some]
      exact congrArg some (if_neg (by simp))
    · rw [List.length_append, List.length_cons] at last
      exact List.eq_nil_of_length_eq_zero (by omega)

theorem Scanned.at_tail (scanned : Scanned womp texts tail rest) (outside : Outside)
    (missing : Missing womp) :
    memoryAt womp outside (texts.length + 1) = some (tail ++ [nl] ++ outside.copied) ∧
      inputLine womp (texts.length + 1) = some tail ∧
      (planA womp).inputLines = texts.length + 1 ∧ (planA womp).lastLineMissingEol = true := by
  have position : ((texts.length : Int) + 1).toNat - 1 = texts.length := by omega
  unfold memoryAt inputLine PlanA.ifetch
  rw [scanned.planA_missing missing]
  dsimp only
  rw [if_neg (by push_cast; omega), if_pos ⟨rfl, by push_cast; rfl⟩,
    if_neg (by push_cast; omega), position, List.getElem?_append_right (le_refl _), Nat.sub_self,
    List.getElem?_cons_zero, Option.map_some, Option.map_some, if_pos ⟨rfl, by push_cast; rfl⟩,
    List.dropLast_concat]
  exact ⟨rfl, rfl, rfl, rfl⟩

theorem Scanned.line_cases (scanned : Scanned womp texts tail rest) (outside : Outside)
    (line : Int) :
    (memoryAt womp outside line = none ∧ inputLine womp line = none) ∨
      (∃ front text more, texts = front ++ text :: more ∧ line = front.length + 1) ∨
      (Missing womp ∧ line = texts.length + 1) := by
  have count : (planA womp).inputLines = texts.length ∨
      Missing womp ∧ (planA womp).inputLines = texts.length + 1 := by
    by_cases missing : Missing womp
    · exact Or.inr ⟨missing, by rw [scanned.planA_missing missing]⟩
    · exact Or.inl (by rw [scanned.planA_ended missing])
  by_cases inside : line < 1 ∨ line > (planA womp).inputLines
  · left
    unfold memoryAt inputLine PlanA.ifetch
    dsimp only
    rw [if_pos inside, if_pos inside]
    exact ⟨rfl, rfl⟩
  right
  by_cases early : line.toNat - 1 < texts.length
  · left
    refine ⟨texts.take (line.toNat - 1), texts[line.toNat - 1], texts.drop (line.toNat - 1 + 1),
      ?_, ?_⟩
    · rw [← List.drop_eq_getElem_cons early, List.take_append_drop]
    · rw [List.length_take]
      omega
  · right
    rcases count with same | ⟨missing, same⟩
    · omega
    · exact ⟨missing, by omega⟩

end

/-! ## Comparing one line -/

theorem strnEQ_take {n : Nat} {a b : List Byte} (live : (0 : Byte) ∉ b) (fits : n ≤ b.length) :
    strnEQ n a b = true ↔ b.take n <+: a := by
  induction n generalizing a b with
  | zero => exact ⟨fun _ => List.nil_prefix, fun _ => rfl⟩
  | succ n ih =>
      cases b with
      | nil => cases fits
      | cons c b =>
          obtain ⟨nonzero, live⟩ := not_mem_cons_iff.mp live
          rw [strnEQ, List.take_succ_cons]
          cases a with
          | nil =>
              have apart : ([] : List Byte).headD 0 ≠ (c :: b).headD 0 := nonzero
              rw [if_pos apart, List.prefix_nil]
              exact ⟨fun h => (nomatch h), fun h => (nomatch h)⟩
          | cons d a =>
              rw [List.cons_prefix_cons, List.headD_cons, List.headD_cons, List.tail_cons,
                List.tail_cons]
              by_cases same : d = c
              · rw [if_neg (not_not_intro same), if_neg (same ▸ Ne.symm nonzero),
                  ih live (Nat.le_of_succ_le_succ fits)]
                exact ⟨fun front => ⟨same.symm, front⟩, And.right⟩
              · rw [if_pos same]
                exact ⟨fun h => (nomatch h), fun h => absurd h.1.symm same⟩

/-- A comparison that includes the NUL of the pattern line. -/
theorem strnEQ_whole {a b : List Byte} (live : (0 : Byte) ∉ b) :
    strnEQ (b.length + 1) a b = true ↔ ∃ s, a = b ++ s ∧ s.headD 0 = 0 := by
  induction b generalizing a with
  | nil =>
      rw [List.length_nil, strnEQ, List.headD_nil]
      by_cases nul : a.headD 0 = 0
      · rw [if_neg (not_not_intro nul), if_pos nul]
        exact ⟨fun _ => ⟨a, rfl, nul⟩, fun _ => rfl⟩
      · rw [if_pos nul]
        refine ⟨fun h => (nomatch h), ?_⟩
        rintro ⟨s, rfl, zero⟩
        exact absurd zero nul
  | cons c b ih =>
      obtain ⟨nonzero, live⟩ := not_mem_cons_iff.mp live
      rw [List.length_cons, strnEQ]
      cases a with
      | nil =>
          have apart : ([] : List Byte).headD 0 ≠ (c :: b).headD 0 := nonzero
          rw [if_pos apart]
          refine ⟨fun h => (nomatch h), ?_⟩
          rintro ⟨s, joined, -⟩
          cases joined
      | cons d a =>
          rw [List.headD_cons, List.headD_cons, List.tail_cons, List.tail_cons]
          by_cases same : d = c
          · rw [if_neg (not_not_intro same), if_neg (same ▸ Ne.symm nonzero), ih live, same]
            simp only [List.cons_append, List.cons.injEq, true_and]
          · rw [if_pos same]
            refine ⟨fun h => (nomatch h), ?_⟩
            rintro ⟨s, joined, -⟩
            exact absurd (List.cons.inj joined).1 same

theorem lineMatches_iff {womp : List Byte} {outside : Outside} {iline : Int} :
    lineMatches false womp outside slots iline k = true ↔
      ∃ m, memoryAt womp outside iline = some m ∧
        strnEQ (reach (slots.len k) (slots.line k)) m (slots.line k) = true ∧
        (iline = (planA womp).inputLines →
          ((planA womp).lastLineMissingEol = true ↔ endByte outside slots k ≠ nl)) := by
  unfold lineMatches
  dsimp only
  cases memoryAt womp outside iline with
  | none => exact ⟨fun h => (nomatch h), fun ⟨_, h, _⟩ => (nomatch h)⟩
  | some m =>
      have single : (∃ other, some m = some other ∧
          strnEQ (reach (slots.len k) (slots.line k)) other (slots.line k) = true ∧
          (iline = (planA womp).inputLines →
            ((planA womp).lastLineMissingEol = true ↔ endByte outside slots k ≠ nl))) ↔
          strnEQ (reach (slots.len k) (slots.line k)) m (slots.line k) = true ∧
          (iline = (planA womp).inputLines →
            ((planA womp).lastLineMissingEol = true ↔ endByte outside slots k ≠ nl)) :=
        ⟨fun ⟨_, same, rest⟩ => Option.some.inj same ▸ rest, fun rest => ⟨m, rfl, rest⟩⟩
      rw [single]
      dsimp only
      rw [if_neg Bool.false_ne_true]
      cases strnEQ (reach (slots.len k) (slots.line k)) m (slots.line k) with
      | false => exact ⟨fun h => (nomatch h), fun h => (nomatch h.1)⟩
      | true =>
          by_cases last : iline = (planA womp).inputLines
          · cases (planA womp).lastLineMissingEol <;> simp [last]
          · simp [last]

theorem patchMatch_iff {womp : List Byte} {outside : Outside} {hunk : Hunk} {base offset : Int} :
    patchMatch false womp outside hunk base offset 0 = true ↔ ∀ k < hunk.ptrnLines,
      lineMatches false womp outside hunk.slots (base + offset + k) (1 + k) = true := by
  unfold patchMatch
  rw [List.all_eq_true]
  simp only [List.mem_range, Nat.mul_zero, Nat.sub_zero, Nat.cast_zero, Int.add_zero, Nat.add_zero]

/-! ## A pattern line with its newline -/

theorem closed_of_textual (textual : Textual s) (ended : Terminated s) :
    Closed s :=
  ⟨s.dropLast, textual.clean, fun inside => textual.noNul (List.mem_of_mem_dropLast inside),
    (List.dropLast_append_getLast? nl ended).symm⟩

theorem patternLine_ended (textual : Textual (slots.line k))
    (ended : Terminated (patternLine slots k)) :
    patternLine slots k = slots.line k ∧ slots.len k = toShort (slots.line k).length := by
  unfold patternLine at *
  split at ended
  · next same =>
      rw [if_pos same]
      exact ⟨rfl, same⟩
  · exact absurd (List.mem_of_getLast? ended) textual.clean

theorem Closed.isLine (closed : Closed s) : IsLine s := by
  obtain ⟨body, apart, -, rfl⟩ := closed
  exact isLine_body apart

theorem Closed.prefix_iff {t : List Byte} (closed : Closed s) (closed' : Closed t)
    (more : List Byte) : s <+: t ++ more ↔ t = s := by
  constructor
  · rintro ⟨rest, joined⟩
    have first := getline_line closed.isLine closed.terminated rest
    rw [joined, getline_line closed'.isLine closed'.terminated more] at first
    exact congrArg Prod.fst first
  · intro same
    rw [same]
    exact List.prefix_append _ _

theorem lineMatches_regular {womp : List Byte} {outside : Outside} {iline : Int}
    (closed : Closed (slots.line k)) (len : slots.len k = (slots.line k).length) :
    lineMatches false womp outside slots iline k = true ↔
      inputLine womp iline = some (slots.line k) := by
  have newline : endByte outside slots k = nl := by
    obtain ⟨body, -, -, same⟩ := closed
    have size : (slots.line k).length = body.length + 1 := by
      rw [same, List.length_append, List.length_singleton]
    unfold endByte
    rw [if_neg (by omega), len, size, same]
    have last : ((body.length + 1 : Nat) : Int).toNat - 1 = body.length := by omega
    rw [last, List.getD_eq_getElem?_getD, List.getElem?_append_right (le_refl _), Nat.sub_self]
    rfl
  have live : (0 : Byte) ∉ slots.line k := by
    obtain ⟨body, -, visible, same⟩ := closed
    rw [same, List.mem_append, not_or]
    exact ⟨visible, by decide⟩
  have whole : reach (slots.len k) (slots.line k) = (slots.line k).length := by
    unfold reach
    rw [if_pos (by omega), len, Int.toNat_natCast]
  obtain ⟨texts, tail, rest, scanned⟩ := exists_scanned womp
  rw [lineMatches_iff, whole, newline]
  rcases scanned.line_cases outside iline with
    ⟨memory, input⟩ | ⟨front, text, more, split, rfl⟩ | ⟨missing, rfl⟩
  · rw [memory, input]
    exact ⟨fun ⟨_, h, _⟩ => (nomatch h), fun h => (nomatch h)⟩
  · obtain ⟨memory, input, last⟩ := scanned.at_text outside split
    have closed' := scanned.closed text (by rw [split]; simp)
    rw [memory, input]
    constructor
    · rintro ⟨m, found, same, -⟩
      obtain rfl := Option.some.inj found
      rw [strnEQ_take live (le_refl _), List.take_length, closed.prefix_iff closed'] at same
      rw [same]
    · intro same
      refine ⟨_, rfl, ?_, fun here => ?_⟩
      · rw [strnEQ_take live (le_refl _), List.take_length, closed.prefix_iff closed']
        exact Option.some.inj same
      · rw [(last here).1]
        exact ⟨fun h => (nomatch h), fun h => absurd rfl h⟩
  · obtain ⟨memory, input, count, open_⟩ := scanned.at_tail outside missing
    rw [input]
    constructor
    · rintro ⟨m, -, -, ends⟩
      exact absurd rfl ((ends (by rw [count]; push_cast; rfl)).mp open_)
    · intro same
      exact absurd (List.mem_of_getLast? (Option.some.inj same ▸ closed.terminated)) scanned.clean

theorem Regular.exact {hunk : Hunk} (regular : Regular hunk) (sides : Sides hunk)
    (womp : List Byte) (outside : Outside) (base offset : Int) :
    patchMatch false womp outside hunk base offset 0 = true ↔
      Identical womp hunk base offset := by
  have line : ∀ k < hunk.ptrnLines, ∀ iline, lineMatches false womp outside hunk.slots iline (1 + k)
      = true ↔ inputLine womp iline = some (patternLine hunk.slots (1 + k)) := by
    intro k inside iline
    have size := sides.endLine
    obtain ⟨textual, -⟩ := sides.text (1 + k) (by omega) (by omega) (by omega)
    obtain ⟨ended, short⟩ := regular (1 + k) (by omega) (by omega)
    obtain ⟨same, len⟩ := patternLine_ended textual ended
    rw [same] at ended short ⊢
    rw [toShort_of_range (by omega) (by omega)] at len
    exact lineMatches_regular (closed_of_textual textual ended) len
  rw [patchMatch_iff]
  constructor
  · intro all k inside
    exact (line k inside _).mp (all k inside)
  · intro all k inside
    exact (line k inside _).mpr (all k inside)

/-! ## Lengths that are not negative -/

theorem Measured.le (measured : Measured slots k) (kept : 0 ≤ slots.len k) :
    (slots.len k).toNat ≤ (slots.line k).length := by
  rcases measured with same | same
  · have bound := toShort_le (n := (slots.line k).length) (by omega) (same ▸ kept)
    omega
  · have bound := toShort_le (n := (slots.line k).length - 1) (by omega) (same ▸ kept)
    omega

theorem fetch_memory (womp : List Byte) (outside : Outside) (line : Int) :
    (memoryAt womp outside line = none ∧ (planA womp).ifetch line = none) ∨
      ∃ text more, memoryAt womp outside line = some (text ++ more) ∧
        (planA womp).ifetch line = some text ∧ Closed text := by
  obtain ⟨texts, tail, rest, scanned⟩ := exists_scanned womp
  rcases scanned.line_cases outside line with
    ⟨memory, input⟩ | ⟨front, text, more, split, rfl⟩ | ⟨missing, rfl⟩
  · exact Or.inl ⟨memory, Option.map_eq_none_iff.mp input⟩
  · obtain ⟨memory, input, last⟩ := scanned.at_text outside split
    refine Or.inr ⟨_, _, memory, ?_, scanned.closed text (by rw [split]; simp)⟩
    obtain ⟨fetched, found, same⟩ := Option.map_eq_some_iff.mp input
    have early : ¬ ((planA womp).lastLineMissingEol = true ∧
        (front.length : Int) + 1 = (planA womp).inputLines) := by
      rintro ⟨open_, here⟩
      rw [(last here).1] at open_
      cases open_
    rw [if_neg early] at same
    rw [found, same]
  · refine Or.inr ⟨_, _, (scanned.at_tail outside missing).1, ?_,
      ⟨tail, scanned.clean, scanned.live, rfl⟩⟩
    have position : ((texts.length : Int) + 1).toNat - 1 = texts.length := by omega
    unfold PlanA.ifetch
    rw [scanned.planA_missing missing]
    dsimp only
    rw [if_neg (by push_cast; omega), position, List.getElem?_append_right (le_refl _),
      Nat.sub_self, List.getElem?_cons_zero]

/-- A part of a pattern line does not go past the newline of an input line. -/
theorem prefix_inside {t : List Byte} (textual : Textual s) (closed : Closed t) (more : List Byte) :
    s <+: t ++ more ↔ s <+: t := by
  constructor
  · intro front
    rcases List.prefix_or_prefix_of_prefix front (List.prefix_append t more) with inside | beyond
    · exact inside
    · obtain ⟨rest, rfl⟩ := beyond
      cases rest with
      | nil =>
          rw [List.append_nil]
      | cons b rest =>
          exfalso
          apply textual.clean
          rw [List.dropLast_append_of_ne_nil (List.cons_ne_nil _ _)]
          exact List.mem_append_left _ (List.mem_of_getLast? closed.terminated)
  · intro inside
    exact inside.trans (List.prefix_append _ _)

theorem Textual.open_ (textual : Textual s) (unended : ¬ Terminated s) : nl ∉ s := by
  intro inside
  rcases List.eq_nil_or_concat' s with rfl | ⟨front, last, rfl⟩
  · cases inside
  · rcases List.mem_append.mp inside with early | late
    · apply textual.clean
      rw [List.dropLast_concat]
      exact early
    · apply unended
      rw [← List.mem_singleton.mp late]
      exact terminated_body front

theorem Textual.only {r : List Byte} (textual : Textual (nl :: r)) : r = [] := by
  by_contra more
  apply textual.clean
  rw [List.dropLast_cons_of_ne_nil more]
  exact List.mem_cons_self

theorem headD_of_live {more : List Byte} (live : (0 : Byte) ∉ s) (nonempty : s ≠ []) :
    (s ++ more).headD 0 ≠ 0 := by
  cases s with
  | nil => exact absurd rfl nonempty
  | cons b s => exact Ne.symm (not_mem_cons_iff.mp live).1

/-- Behind a text without a newline the rest of its line follows. -/
theorem visible_behind {b s body more : List Byte} (apart : nl ∉ b) (live : (0 : Byte) ∉ body)
    (joined : body ++ [nl] ++ more = b ++ s) : s.headD 0 ≠ 0 := by
  induction b generalizing body with
  | nil =>
      have same : s = body ++ [nl] ++ more := joined.symm
      rw [same]
      refine headD_of_live ?_ (List.concat_ne_nil _ _)
      rw [List.mem_append, not_or]
      exact ⟨live, by decide⟩
  | cons c b ih =>
      obtain ⟨other, apart⟩ := not_mem_cons_iff.mp apart
      cases body with
      | nil => exact absurd (List.cons.inj joined).1 other
      | cons d body =>
          exact ih apart (not_mem_cons_iff.mp live).2 (List.cons.inj joined).2

theorem reach_negative {len : Int} {line : List Byte} (negative : len < 0) :
    reach len line = line.length + 1 := if_neg (Int.not_le.mpr negative)

theorem Measured.single (measured : Measured slots k) (one : (slots.line k).length = 1) :
    slots.len k = 1 ∨ slots.len k = 0 := by
  rcases measured with same | same
  · rw [one] at same
    exact Or.inl (same.trans (toShort_of_range (by decide) (by decide)))
  · rw [one] at same
    exact Or.inr (same.trans (toShort_of_range (by decide) (by decide)))

theorem lineMatches_memory {womp : List Byte} {outside : Outside} {iline : Int}
    (same : lineMatches false womp outside slots iline k = true) :
    memoryAt womp outside iline ≠ none := by
  obtain ⟨m, found, -⟩ := lineMatches_iff.mp same
  rw [found]
  exact Option.some_ne_none m

theorem copied_differs {womp : List Byte} {texts : List (List Byte)} {rest : List Byte}
    (scanned : Scanned womp texts [] rest) {outside : Outside} (missing : Missing womp)
    (textual : Textual (slots.line k)) (measured : Measured slots k) (counted : slots.len k ≠ 0) :
    lineMatches false womp outside slots (texts.length + 1) k ≠ true := by
  intro same
  obtain ⟨memory, -, count, open_⟩ := scanned.at_tail outside missing
  obtain ⟨m, found, compared, ends⟩ := lineMatches_iff.mp same
  have unended := (ends (by rw [count]; push_cast; rfl)).mp open_
  rw [memory] at found
  obtain rfl := Option.some.inj found
  have newline : ∀ r, slots.line k = nl :: r → slots.len k = 1 ∧ r = [] := by
    intro r begins
    have alone : r = [] := Textual.only (begins ▸ textual)
    have one : (slots.line k).length = 1 := by rw [begins, alone, List.length_singleton]
    exact ⟨(measured.single one).resolve_right counted, alone⟩
  by_cases negative : slots.len k < 0
  · rw [reach_negative negative, strnEQ_whole textual.noNul] at compared
    obtain ⟨s, joined, nul⟩ := compared
    cases line : slots.line k with
    | nil =>
        rw [line] at joined
        rw [← show [nl] ++ outside.copied = s from joined] at nul
        exact absurd nul (show nl ≠ 0 by decide)
    | cons c r =>
        rw [line] at joined
        obtain rfl := (List.cons.inj joined).1
        exact absurd (newline r line).1 (by omega)
  · have positive : 0 < slots.len k := by omega
    have inside := measured.le positive.le
    unfold reach at compared
    rw [if_pos positive.le, strnEQ_take textual.noNul inside] at compared
    cases line : slots.line k with
    | nil =>
        rw [line, List.length_nil] at inside
        omega
    | cons c r =>
        have step : (slots.len k).toNat = ((slots.len k).toNat - 1) + 1 := by omega
        rw [line, step, List.take_succ_cons] at compared
        obtain ⟨begin, -⟩ := List.cons_prefix_cons.mp compared
        obtain rfl : c = nl := begin
        obtain ⟨one, rfl⟩ := newline r line
        apply unended
        unfold endByte
        rw [if_neg (by omega), one, line]
        rfl

theorem barred_differs {hunk : Hunk} (sides : Sides hunk) {j : Nat} (positive : 1 ≤ j)
    (within : j ≤ hunk.ptrnLines) (barred : Barred hunk j) {womp : List Byte} {outside : Outside}
    {start : Int} : ¬ ∀ k < hunk.ptrnLines,
      lineMatches false womp outside hunk.slots (start + k) (1 + k) = true := by
  intro all
  have size := sides.endLine
  obtain ⟨negative, why⟩ := barred
  obtain ⟨textual, measured⟩ := sides.text j positive (by omega) (by omega)
  have at_ : ∀ i, 1 ≤ i → i ≤ hunk.ptrnLines →
      lineMatches false womp outside hunk.slots (start + (i - 1 : Nat)) i = true := by
    intro i low high
    have same := all (i - 1) (by omega)
    rwa [Nat.add_sub_cancel' low] at same
  obtain ⟨texts, tail, rest, scanned⟩ := exists_scanned womp
  obtain ⟨m, found, compared, -⟩ := lineMatches_iff.mp (at_ j positive within)
  rw [reach_negative negative, strnEQ_whole textual.noNul] at compared
  obtain ⟨s, joined, nul⟩ := compared
  rcases scanned.line_cases outside (start + (j - 1 : Nat)) with
    ⟨memory, -⟩ | ⟨front, text, more, split, here⟩ | ⟨missing, here⟩
  · rw [memory] at found
    cases found
  · have count : texts.length = front.length + (more.length + 1) := by
      rw [split, List.length_append, List.length_cons]
    obtain ⟨memory, -, -⟩ := scanned.at_text outside split
    have closed := scanned.closed text (by rw [split]; simp)
    rw [here, memory] at found
    rw [← Option.some.inj found] at joined
    by_cases ended : Terminated (hunk.slots.line j)
    · have same := (Closed.prefix_iff (closed_of_textual textual ended) closed _).mp ⟨s, joined.symm⟩
      rw [same] at joined
      rw [← List.append_cancel_left joined] at nul
      obtain rfl : more = [] := by
        cases more with
        | nil => rfl
        | cons next more =>
            have closed' := scanned.closed next (by rw [split]; simp)
            rw [List.flatten_cons, List.append_assoc, List.append_assoc] at nul
            exact absurd nul closed'.visible
      obtain rfl : tail = [] := by
        by_contra nonempty
        rw [List.flatten_nil, List.nil_append, List.append_assoc] at nul
        exact headD_of_live scanned.live nonempty nul
      have next : ∀ i, j < i → i ≤ hunk.ptrnLines → i = j + 1 ∧ Missing womp := by
        intro i later high
        have inside := lineMatches_memory (at_ i (by omega) high)
        rcases scanned.line_cases outside (start + (i - 1 : Nat)) with
          ⟨memory, -⟩ | ⟨front', text', more', split', here'⟩ | ⟨missing, here'⟩
        · exact absurd memory inside
        · have count' : texts.length = front'.length + (more'.length + 1) := by
            rw [split', List.length_append, List.length_cons]
          rw [List.length_nil] at count
          omega
        · rw [List.length_nil] at count
          exact ⟨by omega, missing⟩
      rcases why with unended | two | ⟨one, counted⟩
      · exact unended ended
      · have far := (next (j + 2) (by omega) (by omega)).1
        omega
      · obtain ⟨textual', measured'⟩ := sides.text (j + 1) (by omega) (by omega) (by omega)
        have missing := (next (j + 1) (by omega) (by omega)).2
        have last := at_ (j + 1) (by omega) (by omega)
        have line : start + ((j + 1 - 1 : Nat) : Int) = texts.length + 1 := by
          rw [List.length_nil] at count
          omega
        rw [line] at last
        exact copied_differs scanned missing textual' measured' (one ▸ counted) last
    · obtain ⟨body, -, live, rfl⟩ := closed
      exact visible_behind (Textual.open_ textual ended) live joined nul
  · obtain ⟨memory, -, -⟩ := scanned.at_tail outside missing
    rw [here, memory] at found
    rw [← Option.some.inj found] at joined
    have last : ∀ i, j < i → i ≤ hunk.ptrnLines → False := by
      intro i later high
      have inside := lineMatches_memory (at_ i (by omega) high)
      rcases scanned.line_cases outside (start + (i - 1 : Nat)) with
        ⟨memory', -⟩ | ⟨front', text', more', split', here'⟩ | ⟨-, here'⟩
      · exact absurd memory' inside
      · have count' : texts.length = front'.length + (more'.length + 1) := by
          rw [split', List.length_append, List.length_cons]
        omega
      · omega
    rcases why with unended | two | ⟨one, -⟩
    · exact visible_behind (Textual.open_ textual unended) scanned.live joined nul
    · exact last (j + 1) (by omega) (by omega)
    · exact last (j + 1) (by omega) (by omega)

theorem Identical.ended {womp : List Byte} {hunk : Hunk} {base offset : Int}
    (identical : Identical womp hunk base offset) (positive : 1 ≤ k) (early : k < hunk.ptrnLines) :
    Terminated (patternLine hunk.slots k) := by
  have here := identical (k - 1) (by omega)
  have next := identical k early
  rw [Nat.add_sub_cancel' positive] at here
  obtain ⟨texts, tail, rest, scanned⟩ := exists_scanned womp
  have outside : Outside := ⟨[], [], fun _ => 0⟩
  rcases scanned.line_cases outside (base + offset + (k - 1 : Nat)) with
    ⟨-, input⟩ | ⟨front, text, more, split, line⟩ | ⟨missing, line⟩
  · rw [input] at here
    cases here
  · obtain ⟨-, input, -⟩ := scanned.at_text outside split
    rw [line, input] at here
    rw [← Option.some.inj here]
    exact (scanned.closed text (by rw [split]; simp)).terminated
  · exfalso
    rcases scanned.line_cases outside (base + offset + k) with
      ⟨-, input⟩ | ⟨front, text, more, split, line'⟩ | ⟨-, line'⟩
    · rw [input] at next
      cases next
    · have count : texts.length = front.length + (more.length + 1) := by
        rw [split, List.length_append, List.length_cons]
      omega
    · omega

theorem Hopeless.exact {hunk : Hunk} (hopeless : Hopeless hunk) (sides : Sides hunk)
    (womp : List Byte) (outside : Outside) (base offset : Int) :
    patchMatch false womp outside hunk base offset 0 = true ↔
      Identical womp hunk base offset := by
  obtain ⟨⟨k, positive, early, unended⟩, ⟨j, low, high, barred⟩⟩ := hopeless
  rw [patchMatch_iff]
  constructor
  · intro all
    exact absurd all (barred_differs sides low high barred)
  · intro identical
    exact absurd (identical.ended positive early) unended

/-! ## Files that are made for a hunk -/

/-- A text up to a newline of its own. -/
def shut (s : List Byte) : List Byte := s.takeWhile (· ≠ nl) ++ [nl]

theorem shut_closed (live : (0 : Byte) ∉ s) : Closed (shut s) := by
  refine ⟨s.takeWhile (· ≠ nl), fun inside => ?_,
    fun inside => live ((List.takeWhile_sublist _).mem inside), rfl⟩
  have other := List.mem_takeWhile_imp inside
  exact absurd other (by decide)

theorem prefix_shut (textual : Textual s) : s <+: shut s := by
  unfold shut
  by_cases ended : Terminated s
  · obtain ⟨body, apart, -, rfl⟩ := closed_of_textual textual ended
    rw [List.takeWhile_append_of_pos fun b listed =>
      decide_eq_true (ne_of_mem_of_not_mem listed apart)]
    have none : [nl].takeWhile (fun b => decide (b ≠ nl)) = [] := by decide
    rw [none, List.append_nil]
  · have whole : s.takeWhile (· ≠ nl) = s := List.takeWhile_eq_self_iff.mpr fun b listed =>
      decide_eq_true (ne_of_mem_of_not_mem listed (Textual.open_ textual ended))
    rw [whole]
    exact List.prefix_append _ _

theorem length_shut (s : List Byte) : (shut s).length ≤ s.length + 1 := by
  rw [shut, List.length_append, List.length_singleton]
  exact Nat.add_le_add_right (List.takeWhile_sublist _).length_le 1

/-- A line that the pattern line is taken for, as far as its length goes. -/
def standIn (slots : Slots) (k : Nat) : List Byte :=
  if slots.len k < 0 then slots.line k else shut ((slots.line k).take (slots.len k).toNat)

theorem standIn_closed (textual : Textual (slots.line k))
    (ended : slots.len k < 0 → Terminated (slots.line k)) : Closed (standIn slots k) := by
  unfold standIn
  split
  · next negative => exact closed_of_textual textual (ended negative)
  · exact shut_closed fun inside => textual.noNul (List.mem_of_mem_take inside)

theorem standIn_compared (textual : Textual (slots.line k)) (measured : Measured slots k)
    (more : List Byte) (nul : slots.len k < 0 → more.headD 0 = 0) :
    strnEQ (reach (slots.len k) (slots.line k)) (standIn slots k ++ more) (slots.line k) = true := by
  unfold standIn
  split
  · next negative =>
      rw [reach_negative negative, strnEQ_whole textual.noNul]
      exact ⟨more, rfl, nul negative⟩
  · next kept =>
      have positive := Int.not_lt.mp kept
      unfold reach
      rw [if_pos positive, strnEQ_take textual.noNul (measured.le positive)]
      exact (prefix_shut (textual.front (List.take_prefix _ _))).trans (List.prefix_append _ _)

theorem Scanned.at_index {womp : List Byte} {f : Nat → List Byte} {m : Nat}
    {extra : List (List Byte)} {tail rest : List Byte}
    (scanned : Scanned womp ((List.range m).map f ++ extra) tail rest) (outside : Outside)
    (inside : k < m) :
    ∃ more, memoryAt womp outside (k + 1) =
        some (f k ++ (more.flatten ++ (tail ++ rest) ++ outside.mapped)) ∧
      inputLine womp (k + 1) = some (f k) ∧ (∀ text ∈ more, Closed text) ∧
      (more = [] ↔ k + 1 = m ∧ extra = []) ∧
      ((k : Int) + 1 = (planA womp).inputLines →
        (planA womp).lastLineMissingEol = false ∧ more = []) := by
  have here : ((List.range m).map f).length = m := by rw [List.length_map, List.length_range]
  have split : (List.range m).map f ++ extra =
      (List.range k).map f ++ f k :: (((List.range m).map f).drop (k + 1) ++ extra) := by
    have front : ((List.range m).map f).take k = (List.range k).map f := by
      rw [← List.map_take, List.take_range, Nat.min_eq_left inside.le]
    have middle : ((List.range m).map f).drop k =
        f k :: ((List.range m).map f).drop (k + 1) := by
      rw [List.drop_eq_getElem_cons (here.symm ▸ inside), List.getElem_map, List.getElem_range]
    calc (List.range m).map f ++ extra
        = ((List.range m).map f).take k ++ ((List.range m).map f).drop k ++ extra := by
          rw [List.take_append_drop]
      _ = _ := by rw [front, middle, List.append_assoc, List.cons_append]
  have size : ((List.range k).map f).length = k := by rw [List.length_map, List.length_range]
  obtain ⟨memory, input, last⟩ := scanned.at_text outside split
  rw [size] at memory input last
  refine ⟨_, memory, input, fun text listed => scanned.closed text ?_, ?_, last⟩
  · rw [split]
    exact List.mem_append_right _ (List.mem_cons_of_mem _ listed)
  · rw [List.append_eq_nil_iff, List.drop_eq_nil_iff, here]
    constructor <;> rintro ⟨low, none⟩ <;> exact ⟨by omega, none⟩

theorem visible_of_more {more : List (List Byte)} (closed : ∀ text ∈ more, Closed text)
    (nonempty : more ≠ []) :
    (more.flatten ++ s).headD 0 ≠ 0 := by
  cases more with
  | nil => exact absurd rfl nonempty
  | cons text more =>
      rw [List.flatten_cons, List.append_assoc]
      exact (closed text List.mem_cons_self).visible

section

variable {womp : List Byte} {outside : Outside} {hunk : Hunk}

theorem patchMatch_start : patchMatch false womp outside hunk 1 0 0 = true ↔
    ∀ k < hunk.ptrnLines, lineMatches false womp outside hunk.slots (k + 1) (1 + k) = true := by
  have place : ∀ k : Nat, (1 : Int) + 0 + k = k + 1 := fun k => by omega
  rw [patchMatch_iff]
  simp only [place]

theorem identical_start : Identical womp hunk 1 0 ↔
    ∀ k < hunk.ptrnLines, inputLine womp (k + 1) = some (patternLine hunk.slots (1 + k)) := by
  have place : ∀ k : Nat, (1 : Int) + 0 + k = k + 1 := fun k => by omega
  unfold Identical
  simp only [place]

end

/-- What the claim of identity says of one hunk. -/
def Exact (hunk : Hunk) : Prop :=
  ∀ (womp : List Byte) (outside : Outside) (base offset : Int),
    patchMatch false womp outside hunk base offset 0 = true ↔ Identical womp hunk base offset

section

variable {hunk : Hunk}

/-- Without negative lengths a file can be made that matches: only a regular hunk stands it. -/
theorem regular_of_kept (sides : Sides hunk) (exact_ : Exact hunk)
    (kept : ∀ k, 1 ≤ k → k ≤ hunk.ptrnLines → 0 ≤ hunk.slots.len k) : Regular hunk := by
  have size := sides.endLine
  have text : ∀ k, 1 ≤ k → k ≤ hunk.ptrnLines →
      Textual (hunk.slots.line k) ∧ Measured hunk.slots k := fun k low high =>
    sides.text k low (by omega) (by omega)
  have scanned : Scanned
      (((List.range hunk.ptrnLines).map fun k => standIn hunk.slots (1 + k)) ++ [[nl]]).flatten
      (((List.range hunk.ptrnLines).map fun k => standIn hunk.slots (1 + k)) ++ [[nl]]) [] [] := by
    refine ⟨(List.append_nil _).symm, fun line listed => ?_, List.not_mem_nil, List.not_mem_nil, rfl⟩
    rcases List.mem_append.mp listed with stand | extra
    · obtain ⟨k, inside, rfl⟩ := List.mem_map.mp stand
      have inside := List.mem_range.mp inside
      exact standIn_closed (text _ (by omega) (by omega)).1 fun negative =>
        absurd negative (Int.not_lt.mpr (kept _ (by omega) (by omega)))
    · rw [List.mem_singleton.mp extra]
      exact ⟨[], List.not_mem_nil, List.not_mem_nil, rfl⟩
  generalize (((List.range hunk.ptrnLines).map fun k =>
    standIn hunk.slots (1 + k)) ++ [[nl]]).flatten = womp at scanned
  have outside : Outside := ⟨[], [], fun _ => 0⟩
  have matched : patchMatch false womp outside hunk 1 0 0 = true := by
    rw [patchMatch_start]
    intro k inside
    obtain ⟨more, memory, -, -, empty, last⟩ := scanned.at_index outside inside
    obtain ⟨textual, measured⟩ := text (1 + k) (by omega) (by omega)
    refine lineMatches_iff.mpr ⟨_, memory, standIn_compared textual measured _ fun negative =>
      absurd negative (Int.not_lt.mpr (kept _ (by omega) (by omega))), fun here => ?_⟩
    exact absurd (empty.mp (last here).2).2 (List.cons_ne_nil _ _)
  have identical := identical_start.mp ((exact_ womp outside 1 0).mp matched)
  intro k low high
  have here := identical (k - 1) (by omega)
  obtain ⟨more, -, input, -⟩ := scanned.at_index outside (show k - 1 < hunk.ptrnLines by omega)
  rw [input, Nat.add_sub_cancel' low] at here
  have same := Option.some.inj here
  obtain ⟨textual, measured⟩ := text k low high
  have nonneg := kept k low high
  have closed : Closed (standIn hunk.slots k) := standIn_closed textual fun negative => by omega
  have ended : Terminated (patternLine hunk.slots k) := same ▸ closed.terminated
  refine ⟨ended, ?_⟩
  obtain ⟨stored, len⟩ := patternLine_ended textual ended
  have short : (standIn hunk.slots k).length ≤ (hunk.slots.len k).toNat + 1 := by
    unfold standIn
    rw [if_neg (by omega)]
    refine le_trans (length_shut _) (Nat.add_le_add_right ?_ 1)
    rw [List.length_take]
    exact Nat.min_le_left _ _
  rw [same, stored] at short
  rw [stored]
  rw [toShort_eq_ite] at len
  split at len <;> omega

theorem negative_differs {womp : List Byte} {outside : Outside} {slots : Slots} {iline : Int}
    {k : Nat} {more : List Byte} (textual : Textual (slots.line k)) (negative : slots.len k < 0)
    (memory : memoryAt womp outside iline = some (slots.line k ++ more))
    (visible : more.headD 0 ≠ 0) : lineMatches false womp outside slots iline k ≠ true := by
  intro same
  obtain ⟨m, found, compared, -⟩ := lineMatches_iff.mp same
  rw [memory] at found
  rw [← Option.some.inj found, reach_negative negative, strnEQ_whole textual.noNul] at compared
  obtain ⟨s, joined, nul⟩ := compared
  rw [List.append_cancel_left joined] at visible
  exact visible nul

theorem ended_kept (sides : Sides hunk) (exact_ : Exact hunk)
    (ended : ∀ k, 1 ≤ k → k ≤ hunk.ptrnLines → Terminated (patternLine hunk.slots k)) {j : Nat}
    (low : 1 ≤ j) (high : j ≤ hunk.ptrnLines) : ¬ hunk.slots.len j < 0 := by
  intro negative
  have size := sides.endLine
  have text : ∀ k, 1 ≤ k → k ≤ hunk.ptrnLines →
      Textual (hunk.slots.line k) ∧ patternLine hunk.slots k = hunk.slots.line k := fun k low high =>
    have textual := (sides.text k low (by omega) (by omega)).1
    ⟨textual, (patternLine_ended textual (ended k low high)).1⟩
  have scanned : Scanned
      (((List.range hunk.ptrnLines).map fun k => hunk.slots.line (1 + k)) ++ [[nl]]).flatten
      (((List.range hunk.ptrnLines).map fun k => hunk.slots.line (1 + k)) ++ [[nl]]) [] [] := by
    refine ⟨(List.append_nil _).symm, fun line listed => ?_, List.not_mem_nil, List.not_mem_nil, rfl⟩
    rcases List.mem_append.mp listed with stand | extra
    · obtain ⟨k, inside, rfl⟩ := List.mem_map.mp stand
      have inside := List.mem_range.mp inside
      obtain ⟨textual, same⟩ := text (1 + k) (by omega) (by omega)
      exact closed_of_textual textual (same ▸ ended (1 + k) (by omega) (by omega))
    · rw [List.mem_singleton.mp extra]
      exact ⟨[], List.not_mem_nil, List.not_mem_nil, rfl⟩
  generalize (((List.range hunk.ptrnLines).map fun k =>
    hunk.slots.line (1 + k)) ++ [[nl]]).flatten = womp at scanned
  have outside : Outside := ⟨[], [], fun _ => 0⟩
  have identical : Identical womp hunk 1 0 := by
    rw [identical_start]
    intro k inside
    obtain ⟨more, -, input, -⟩ := scanned.at_index outside inside
    rw [input, (text (1 + k) (by omega) (by omega)).2]
  have matched := patchMatch_start.mp ((exact_ womp outside 1 0).mpr identical)
  have here := matched (j - 1) (by omega)
  obtain ⟨more, memory, -, closed, empty, -⟩ :=
    scanned.at_index outside (show j - 1 < hunk.ptrnLines by omega)
  rw [Nat.add_sub_cancel' low] at here memory
  have nonempty : more ≠ [] := fun none => List.cons_ne_nil _ _ (empty.mp none).2
  rw [List.append_assoc] at memory
  exact negative_differs (text j low high).1 negative memory (visible_of_more closed nonempty) here

theorem missing_of_nul (texts : List (List Byte)) (tail : List Byte) :
    Missing (texts.flatten ++ (tail ++ [0, 1])) := by
  refine ⟨by simp, ?_⟩
  rw [← List.append_assoc, List.getLast?_append_of_ne_nil _ (List.cons_ne_nil _ _)]
  decide

theorem Measured.nonempty {slots : Slots} {k : Nat} (measured : Measured slots k)
    (positive : 0 < slots.len k) : patternLine slots k ≠ [] := by
  intro empty
  unfold patternLine at empty
  have inside := measured.le positive.le
  split at empty
  · rw [empty, List.length_nil] at inside
    omega
  · next other =>
      have short := congrArg List.length empty
      rw [List.length_dropLast, List.length_nil] at short
      have one : (slots.line k).length = 1 := by omega
      rcases measured.single one with len | len
      · apply other
        rw [len, one]
        exact (toShort_of_range (by decide) (by decide)).symm
      · omega

theorem patternLine_textual {slots : Slots} {k : Nat} (textual : Textual (slots.line k)) :
    Textual (patternLine slots k) := by
  unfold patternLine
  split
  · exact textual
  · exact textual.front (List.dropLast_prefix _)

/-- A hunk whose last line alone lacks its newline is in a file, where it is not found for a
negative length. -/
theorem tail_kept (sides : Sides hunk) (exact_ : Exact hunk)
    (ended : ∀ k, 1 ≤ k → k < hunk.ptrnLines → Terminated (patternLine hunk.slots k))
    (unended : ¬ Terminated (patternLine hunk.slots hunk.ptrnLines)) {j : Nat}
    (low : 1 ≤ j) (high : j ≤ hunk.ptrnLines) : ¬ hunk.slots.len j < 0 := by
  intro negative
  have size := sides.endLine
  have text : ∀ k, 1 ≤ k → k < hunk.ptrnLines →
      Textual (hunk.slots.line k) ∧ patternLine hunk.slots k = hunk.slots.line k := fun k low high =>
    have textual := (sides.text k low (by omega) (by omega)).1
    ⟨textual, (patternLine_ended textual (ended k low high)).1⟩
  obtain ⟨textual, measured⟩ := sides.text hunk.ptrnLines (by omega) (by omega) (by omega)
  have textual' := patternLine_textual textual
  have scanned : Scanned
      ((((List.range (hunk.ptrnLines - 1)).map fun k => hunk.slots.line (1 + k)) ++ []).flatten ++
        (patternLine hunk.slots hunk.ptrnLines ++ [0, 1]))
      (((List.range (hunk.ptrnLines - 1)).map fun k => hunk.slots.line (1 + k)) ++ [])
      (patternLine hunk.slots hunk.ptrnLines) [0, 1] := by
    refine ⟨rfl, fun line listed => ?_, Textual.open_ textual' unended, textual'.noNul, rfl⟩
    rw [List.append_nil] at listed
    obtain ⟨k, inside, rfl⟩ := List.mem_map.mp listed
    have inside := List.mem_range.mp inside
    obtain ⟨textual, same⟩ := text (1 + k) (by omega) (by omega)
    exact closed_of_textual textual (same ▸ ended (1 + k) (by omega) (by omega))
  have missing := missing_of_nul
    (((List.range (hunk.ptrnLines - 1)).map fun k => hunk.slots.line (1 + k)) ++ [])
    (patternLine hunk.slots hunk.ptrnLines)
  generalize (((List.range (hunk.ptrnLines - 1)).map fun k =>
    hunk.slots.line (1 + k)) ++ []).flatten ++
      (patternLine hunk.slots hunk.ptrnLines ++ [0, 1]) = womp at scanned missing
  obtain ⟨outside, before⟩ : ∃ outside : Outside, ∀ k, outside.before k = nl :=
    ⟨⟨[], [], fun _ => nl⟩, fun _ => rfl⟩
  obtain ⟨memory, input, count, open_⟩ := scanned.at_tail outside missing
  have length : (((List.range (hunk.ptrnLines - 1)).map fun k =>
      hunk.slots.line (1 + k)) ++ []).length = hunk.ptrnLines - 1 := by
    rw [List.append_nil, List.length_map, List.length_range]
  rw [length] at memory input count
  have identical : Identical womp hunk 1 0 := by
    rw [identical_start]
    intro k inside
    by_cases early : k < hunk.ptrnLines - 1
    · obtain ⟨more, -, input, -⟩ := scanned.at_index outside early
      rw [input, (text (1 + k) (by omega) (by omega)).2]
    · obtain rfl : k = hunk.ptrnLines - 1 := by omega
      rw [input, Nat.add_sub_cancel' (by omega)]
  have matched := patchMatch_start.mp ((exact_ womp outside 1 0).mpr identical)
  by_cases positive : 0 < hunk.slots.len hunk.ptrnLines
  · have apart : j ≠ hunk.ptrnLines := by
      rintro rfl
      omega
    have here := matched (j - 1) (by omega)
    obtain ⟨more, memory, -, closed, -, -⟩ :=
      scanned.at_index outside (show j - 1 < hunk.ptrnLines - 1 by omega)
    rw [Nat.add_sub_cancel' low] at here memory
    rw [List.append_assoc] at memory
    refine negative_differs (text j low (by omega)).1 negative memory ?_ here
    by_cases last : more = []
    · rw [last, List.flatten_nil, List.nil_append, List.append_assoc]
      exact headD_of_live textual'.noNul (measured.nonempty positive)
    · exact visible_of_more closed last
  · have here := matched (hunk.ptrnLines - 1) (by omega)
    rw [Nat.add_sub_cancel' (by omega)] at here
    obtain ⟨m, -, -, ends⟩ := lineMatches_iff.mp here
    apply (ends (by rw [count]; push_cast; rfl)).mp open_
    unfold endByte
    rw [if_pos (by omega), before]

/-- No line bars the hunk: what has a negative length is the last line, or stands in front of an
empty one. -/
def Unbarred (hunk : Hunk) : Prop :=
  ∀ j, 1 ≤ j → j ≤ hunk.ptrnLines → hunk.slots.len j < 0 →
    Terminated (hunk.slots.line j) ∧ (j = hunk.ptrnLines ∨
      j + 1 = hunk.ptrnLines ∧ hunk.slots.len hunk.ptrnLines = 0)

theorem unbarred_of_none (free : ¬ ∃ j, 1 ≤ j ∧ j ≤ hunk.ptrnLines ∧ Barred hunk j) :
    Unbarred hunk := by
  intro j low high negative
  have not_ : ¬ Barred hunk j := fun barred => free ⟨j, low, high, barred⟩
  unfold Barred at not_
  rw [not_and, not_or, not_or, not_and, not_not, not_not] at not_
  obtain ⟨ended, far, near⟩ := not_ negative
  refine ⟨ended, ?_⟩
  by_cases last : j = hunk.ptrnLines
  · exact Or.inl last
  · exact Or.inr ⟨by omega, near (by omega)⟩

/-- The lines that stand in for the first ones of the hunk. -/
def standIns (hunk : Hunk) (m : Nat) : List (List Byte) :=
  (List.range m).map fun k => standIn hunk.slots (1 + k)

theorem pattern_text (sides : Sides hunk) {k : Nat} (low : 1 ≤ k) (high : k ≤ hunk.ptrnLines) :
    Textual (hunk.slots.line k) ∧ Measured hunk.slots k := by
  have size := sides.endLine
  exact sides.text k low (by omega) (by omega)

theorem Unbarred.scanned (free : Unbarred hunk) (sides : Sides hunk) {m : Nat}
    (few : m ≤ hunk.ptrnLines) (rest : List Byte) (stop : rest.headD 0 = 0) :
    Scanned ((standIns hunk m ++ []).flatten ++ ([] ++ rest)) (standIns hunk m ++ []) [] rest := by
  refine ⟨rfl, ?_, List.not_mem_nil, List.not_mem_nil, stop⟩
  rw [List.append_nil]
  intro line listed
  obtain ⟨k, inside, rfl⟩ := List.mem_map.mp listed
  have inside := List.mem_range.mp inside
  exact standIn_closed (pattern_text sides (by omega) (by omega)).1 fun negative =>
    (free (1 + k) (by omega) (by omega) negative).1

theorem Unbarred.matches_open (free : Unbarred hunk) (sides : Sides hunk)
    (negative : hunk.slots.len hunk.ptrnLines < 0) :
    patchMatch false ((standIns hunk hunk.ptrnLines ++ []).flatten ++ ([] ++ []))
      ⟨[], [], fun _ => nl⟩ hunk 1 0 0 = true := by
  have scanned := free.scanned sides (le_refl hunk.ptrnLines) [] rfl
  rw [patchMatch_start]
  intro k inside
  obtain ⟨more, memory, -, -, empty, last⟩ := scanned.at_index ⟨[], [], fun _ => nl⟩ inside
  obtain ⟨textual, measured⟩ := pattern_text sides (k := 1 + k) (by omega) (by omega)
  have only : hunk.slots.len (1 + k) < 0 → k + 1 = hunk.ptrnLines := by
    intro here
    rcases (free (1 + k) (by omega) (by omega) here).2 with same | ⟨-, zero⟩
    · omega
    · omega
  refine lineMatches_iff.mpr ⟨_, memory, standIn_compared textual measured _ fun here => ?_,
    fun here => ?_⟩
  · rw [empty.mpr ⟨only here, rfl⟩]
    rfl
  · obtain ⟨ended, none⟩ := last here
    have same : 1 + k = hunk.ptrnLines := by
      have := (empty.mp none).1
      omega
    have newline : endByte ⟨[], [], fun _ => nl⟩ hunk.slots (1 + k) = nl := by
      unfold endByte
      rw [if_pos (by rw [same]; omega)]
    rw [ended, newline]
    exact ⟨fun h => (nomatch h), fun h => absurd rfl h⟩

theorem Unbarred.matches_nul (free : Unbarred hunk) (sides : Sides hunk)
    (zero : hunk.slots.len hunk.ptrnLines = 0) :
    patchMatch false ((standIns hunk (hunk.ptrnLines - 1) ++ []).flatten ++ ([] ++ [0, 1]))
      ⟨[], [], fun _ => 0⟩ hunk 1 0 0 = true := by
  have scanned := free.scanned sides (Nat.sub_le hunk.ptrnLines 1) [0, 1] rfl
  have missing := missing_of_nul (standIns hunk (hunk.ptrnLines - 1) ++ []) []
  rw [patchMatch_start]
  intro k inside
  obtain ⟨textual, measured⟩ := pattern_text sides (k := 1 + k) (by omega) (by omega)
  by_cases before : k < hunk.ptrnLines - 1
  · obtain ⟨more, memory, -, -, empty, last⟩ := scanned.at_index ⟨[], [], fun _ => 0⟩ before
    refine lineMatches_iff.mpr ⟨_, memory, standIn_compared textual measured _ fun here => ?_,
      fun here => ?_⟩
    · rcases (free (1 + k) (by omega) (by omega) here).2 with same | ⟨same, -⟩
      · omega
      · rw [empty.mpr ⟨by omega, rfl⟩]
        rfl
    · have open_ := (scanned.at_tail ⟨[], [], fun _ => 0⟩ missing).2.2.2
      rw [(last here).1] at open_
      cases open_
  · obtain rfl : k = hunk.ptrnLines - 1 := by omega
    obtain ⟨memory, -, -, open_⟩ := scanned.at_tail ⟨[], [], fun _ => 0⟩ missing
    have length : (standIns hunk (hunk.ptrnLines - 1) ++ []).length = hunk.ptrnLines - 1 := by
      rw [List.append_nil, standIns, List.length_map, List.length_range]
    rw [length] at memory
    rw [Nat.add_sub_cancel' (by omega)] at textual measured ⊢
    refine lineMatches_iff.mpr ⟨_, memory, ?_, fun _ => ?_⟩
    · rw [zero]
      rfl
    · have nul : endByte ⟨[], [], fun _ => 0⟩ hunk.slots hunk.ptrnLines = 0 := by
        unfold endByte
        rw [if_pos (by omega)]
      rw [open_, nul]
      exact ⟨fun _ => (show (0 : Byte) ≠ nl by decide), fun _ => rfl⟩

theorem barred_of_unended (sides : Sides hunk) (exact_ : Exact hunk) {i : Nat} (first : 1 ≤ i)
    (early : i < hunk.ptrnLines) (unended : ¬ Terminated (patternLine hunk.slots i)) :
    ∃ j, 1 ≤ j ∧ j ≤ hunk.ptrnLines ∧ Barred hunk j := by
  by_contra none_
  have free := unbarred_of_none none_
  have never : ∀ womp outside, patchMatch false womp outside hunk 1 0 0 ≠ true :=
    fun womp outside matched => unended (((exact_ womp outside 1 0).mp matched).ended first early)
  by_cases negative : hunk.slots.len hunk.ptrnLines < 0
  · exact never _ _ (free.matches_open sides negative)
  by_cases kept : ∀ k, 1 ≤ k → k ≤ hunk.ptrnLines → 0 ≤ hunk.slots.len k
  · exact unended (regular_of_kept sides exact_ kept i first early.le).1
  -- a line in front of the last one is open, so that the last one is empty
  have zero : hunk.slots.len hunk.ptrnLines = 0 := by
    by_contra counted
    refine kept fun k low high => ?_
    by_contra short
    rcases (free k low high (by omega)).2 with same | ⟨-, same⟩
    · rw [same] at short
      omega
    · exact counted same
  exact never _ _ (free.matches_nul sides zero)

end

/--
`patch_match` finds the lines of a hunk exactly where they are, in every file, just in case
each of them has its newline and fits a `short`, or they cannot be found anywhere.
-/
theorem patchMatch_exact_iff {hunk : Hunk} (parsed : Parsed hunk) :
    (∀ (womp : List Byte) (outside : Outside) (base offset : Int),
      patchMatch false womp outside hunk base offset 0 = true ↔
        Identical womp hunk base offset) ↔ Regular hunk ∨ Hopeless hunk := by
  have sides := parsed.sides
  constructor
  · intro exact_
    by_cases ended : ∀ k, 1 ≤ k → k < hunk.ptrnLines → Terminated (patternLine hunk.slots k)
    · left
      apply regular_of_kept sides exact_
      intro k low high
      by_cases last : Terminated (patternLine hunk.slots hunk.ptrnLines)
      · have all : ∀ i, 1 ≤ i → i ≤ hunk.ptrnLines → Terminated (patternLine hunk.slots i) := by
          intro i low high
          rcases Nat.lt_or_eq_of_le high with early | rfl
          · exact ended i low early
          · exact last
        exact Int.not_lt.mp (ended_kept sides exact_ all low high)
      · exact Int.not_lt.mp (tail_kept sides exact_ ended last low high)
    · right
      simp only [not_forall] at ended
      obtain ⟨i, first, early, unended⟩ := ended
      exact ⟨⟨i, first, early, unended⟩, barred_of_unended sides exact_ first early unended⟩
  · rintro (regular | hopeless)
    · exact regular.exact sides
    · exact hopeless.exact sides

/-- `@@ -1 +1 @@` with one line replaced. -/
def replacing : Stream where
  rest := ascii ['@', '@', ' ', '-', '1', ' ', '+', '1', ' ', '@', '@', '\n', '-', 'a', '\n', '+',
    'b', '\n']
  inputLine := 0

theorem replacing_exact : ∃ hunk after, anotherHunk replacing = .ok (some hunk, after) ∧
    ∀ (womp : List Byte) (outside : Outside) (base offset : Int),
      patchMatch false womp outside hunk base offset 0 = true ↔
        Identical womp hunk base offset := by
  refine ⟨_, _, rfl, (patchMatch_exact_iff (.read (rfl : anotherHunk replacing = _))).mpr
    (Or.inl fun k low high => ?_)⟩
  obtain rfl : k = 1 := le_antisymm high low
  decide +kernel

/-- `@@ -1 +1 @@`, where the line to be replaced has no newline. -/
def replacingUnended : Stream where
  rest := ascii ['@', '@', ' ', '-', '1', ' ', '+', '1', ' ', '@', '@', '\n', '-', 'a', 'b', '\n',
    '\\', ' ', 'N', 'o', '\n', '+', 'x', '\n']
  inputLine := 0

/-- The line `ab` without a newline is found at the line `abc`. -/
theorem unended_taken : ∃ hunk after, anotherHunk replacingUnended = .ok (some hunk, after) ∧
    patchMatch false (ascii ['a', 'b', 'c', '\n', 'z', '\n']) ⟨[], [], fun _ => 0⟩ hunk 1 0 0 =
      true ∧
    ¬ Identical (ascii ['a', 'b', 'c', '\n', 'z', '\n']) hunk 1 0 := by
  refine ⟨_, _, rfl, by decide +kernel, fun identical => ?_⟩
  have first := identical 0 (by decide +kernel)
  revert first
  decide +kernel

end Netbase.Patch.Match
