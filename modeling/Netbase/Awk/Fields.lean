import Mathlib.Data.List.TakeWhile
import Mathlib.Data.Rat.Floor
import Netbase.Awk.Csv

/-!
# Splitting a record into fields

The fields of a record depend on the separator and, when that is one character,
on whether RS is empty: then a newline separates fields as well.  A string is
given by its bytes before the NUL.
-/

namespace Netbase.Awk

open Netbase.Text

def blank : Byte := 32

def isBlank (c : Byte) : Bool := c = 32 || c = 9 || c = nl

/-- `nematch`: the place and the length of the next nonempty match, in the initial state of the
automaton or behind an earlier match. -/
structure Matcher where
  nematch : Bool → List Byte → Option (Nat × Nat)
  spans : ∀ {first r beg len}, nematch first r = some (beg, len) → 0 < len ∧ beg + len ≤ r.length

/-- What belongs to the interpreter: its mode, its locale, its regular expressions, and the number
a string starts with. -/
structure Interp where
  csv : Bool
  multibyte : Bool
  makedfa : List Byte → Matcher
  number : List Byte → ℚ

/-- The loop of `refldbld`. -/
def refldLoop (pfa : Matcher) (first : Bool) (r : List Byte) : List (List Byte) :=
  match _found : pfa.nematch first r with
  | none => [r]
  | some (patbeg, patlen) => r.take patbeg :: refldLoop pfa false (r.drop (patbeg + patlen))
termination_by r.length
decreasing_by
  have spans := pfa.spans _found
  simp only [List.length_drop]
  omega

def refldbld (pfa : Matcher) (r : List Byte) : List (List Byte) :=
  if r = [] then [] else refldLoop pfa true r

/-- Fields between blanks, tabs and newlines. -/
def blankFields (record : List Byte) : List (List Byte) :=
  match _skipped : record.dropWhile isBlank with
  | [] => []
  | c :: r => (c :: r.takeWhile (!isBlank ·)) :: blankFields (r.dropWhile (!isBlank ·))
termination_by record.length
decreasing_by
  have shorter := (List.dropWhile_suffix isBlank (l := record)).length_le
  have rest := (List.dropWhile_suffix (l := r) (!isBlank ·)).length_le
  rw [_skipped, List.length_cons] at shorter
  omega

def continues (s : List Byte) (i : Nat) : Prop := s.getD i 0 &&& 0xC0 = 0x80

instance (s : List Byte) (i : Nat) : Decidable (continues s i) := inferInstanceAs (Decidable (_ = _))

/-- The length of the next valid sequence. -/
def nextlen (multibyte : Bool) (s : List Byte) : Nat :=
  let c := s.headD 0
  if c < 128 ∨ multibyte = false then 1
  else if (c >>> 5) &&& 7 = 6 ∧ continues s 1 then 2
  else if (c >>> 4) &&& 15 = 14 ∧ continues s 1 ∧ continues s 2 then 3
  else if (c >>> 3) &&& 31 = 30 ∧ continues s 1 ∧ continues s 2 ∧ continues s 3 then 4
  else 1

theorem nextlen_pos (multibyte : Bool) (s : List Byte) : 0 < nextlen multibyte s := by
  unfold nextlen
  dsimp only
  split_ifs <;> decide

def charFields (multibyte : Bool) : List Byte → List (List Byte)
  | [] => []
  | c :: r =>
      let n := nextlen multibyte (c :: r)
      (c :: r).take n :: charFields multibyte ((c :: r).drop n)
termination_by r => r.length
decreasing_by
  have positive := nextlen_pos multibyte (c :: r)
  simp only [List.length_drop, List.length_cons]
  omega

/-- Fields between separators. -/
def sepFields (isSep : Byte → Bool) : List Byte → List (List Byte)
  | [] => [[]]
  | c :: r =>
      if isSep c then [] :: sepFields isSep r
      else
        match sepFields isSep r with
        | [] => [[c]]
        | field :: fields => (c :: field) :: fields

/-- The fields `fldbld` makes of a record. -/
def Interp.split (awk : Interp) (inputFS RS r : List Byte) : List (List Byte) :=
  if awk.csv = false ∧ 1 < inputFS.length then refldbld (awk.makedfa inputFS) r
  else if awk.csv = false ∧ inputFS = [blank] then blankFields r
  else if awk.csv then csvFields r
  else
    match inputFS with
    | [] => charFields awk.multibyte r
    | sep :: _ =>
        if r = [] then []
        else sepFields (fun c => c = sep || (RS.isEmpty && c = nl)) r

/-! ## What a split depends on -/

/-- When the emptiness of RS makes no difference: there is another rule than a single character,
no newline in the record, or the newline is the separator. -/
def Interp.Fresh (awk : Interp) (inputFS RS RS' r : List Byte) : Prop :=
  awk.csv = true ∨ inputFS.length ≠ 1 ∨ inputFS = [blank] ∨ inputFS = [nl] ∨ nl ∉ r ∨
    (RS = [] ↔ RS' = [])

theorem sepFields_ne_nil (isSep : Byte → Bool) (r : List Byte) : sepFields isSep r ≠ [] := by
  cases r with
  | nil => simp [sepFields]
  | cons c r =>
      simp only [sepFields]
      split
      · simp
      · split <;> simp

theorem length_sepFields (isSep : Byte → Bool) (r : List Byte) :
    (sepFields isSep r).length = r.countP isSep + 1 := by
  induction r with
  | nil => rfl
  | cons c r ih =>
      simp only [sepFields, List.countP_cons]
      split
      · simp [ih]
      · split
        · rename_i none
          exact absurd none (sepFields_ne_nil isSep r)
        · rename_i field fields some
          rw [some] at ih
          simpa using ih

theorem sepFields_congr {isSep isSep' : Byte → Bool} {r : List Byte}
    (same : ∀ c ∈ r, isSep c = isSep' c) : sepFields isSep r = sepFields isSep' r := by
  induction r with
  | nil => rfl
  | cons c r ih =>
      have rest := ih fun d mem => same d (List.mem_cons_of_mem c mem)
      simp only [sepFields, rest, same c List.mem_cons_self]

theorem sepFields_newline {sep : Byte} {r : List Byte} (other : sep ≠ nl) (newline : nl ∈ r) :
    sepFields (fun c => c = sep || c = nl) r ≠ sepFields (fun c => decide (c = sep)) r := by
  intro same
  have length := congrArg List.length same
  rw [length_sepFields, length_sepFields] at length
  have more : ∀ {r : List Byte}, nl ∈ r →
      r.countP (fun c => decide (c = sep)) < r.countP (fun c => c = sep || c = nl) := by
    intro r
    have less : ∀ r : List Byte, r.countP (fun c => decide (c = sep)) ≤
        r.countP (fun c => c = sep || c = nl) := fun r =>
      List.countP_mono_left fun c _ one => by simp [of_decide_eq_true one]
    induction r with
    | nil => simp
    | cons c r ih =>
        intro mem
        have below := less r
        simp only [List.countP_cons]
        by_cases at_newline : c = nl
        · subst at_newline
          simp only [Ne.symm other, decide_false, decide_true, Bool.or_true, Bool.false_eq_true,
            if_false, if_true]
          omega
        · have rest := ih ((List.mem_cons.mp mem).resolve_left (Ne.symm at_newline))
          by_cases separates : c = sep
          · simp only [separates, decide_true, Bool.true_or, if_true]
            omega
          · simp only [separates, at_newline, decide_false, Bool.or_self, Bool.false_eq_true, if_false]
            omega
  have grows := more newline
  omega

/-- The fields are the same for two values of RS exactly in the cases of `Fresh`. -/
theorem Interp.split_eq_iff (awk : Interp) (inputFS RS RS' r : List Byte) :
    awk.split inputFS RS r = awk.split inputFS RS' r ↔ awk.Fresh inputFS RS RS' r := by
  unfold Interp.split Interp.Fresh
  cases csv : awk.csv with
  | true => simp
  | false =>
      by_cases long : 1 < inputFS.length
      · simp [long]
        omega
      by_cases default : inputFS = [blank]
      · simp [default]
      simp only [true_and, long, default, if_false, Bool.false_eq_true, false_or]
      match inputFS, long, default with
      | [], _, _ => simp
      | [sep], _, default =>
          by_cases empty : r = []
          · simp [empty]
          simp only [empty, if_false, List.length_singleton, ne_eq, not_true_eq_false, false_or,
            List.cons.injEq, and_true]
          by_cases newline : sep = nl
          · subst newline
            simp only [true_or, iff_true]
            exact sepFields_congr fun c _ => by cases decide (c = nl) <;> simp
          by_cases none : nl ∉ r
          · simp only [none, not_false_eq_true, true_or, or_true, iff_true]
            refine sepFields_congr fun c mem => ?_
            have other : c ≠ nl := fun same => none (same ▸ mem)
            simp [other]
          · have some : nl ∈ r := not_not.mp none
            have differs := sepFields_newline newline some
            cases RS <;> cases RS' <;> simp [newline, some, differs, Ne.symm differs]
      | _ :: _ :: _, long, _ => exact absurd (by simp) long

end Netbase.Awk
