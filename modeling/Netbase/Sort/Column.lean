import Mathlib.Algebra.Order.Ring.Int
import Mathlib.Data.List.TakeWhile
import Mathlib.Logic.Function.Iterate
import Netbase.Sort.Coldesc
import Netbase.Sort.Delims

/-!
# Columns of a line

`enterkey` finds the columns that the keys use in one scan of the line, and
`enterfield` takes a field from its first to its last column.  Both work on the memory
that holds the line, its delimiter and whatever stands behind it; the scan looks
beyond the delimiter.
-/

namespace Netbase.Sort

open Netbase.Text

/-! ## The scan -/

/-- `while ((*(pos+1) != '\0') && !((FLD_D | REC_D_F) & l_d_mask[*++pos]));` moves `pos` by this
much, where the memory from `pos + 1` on is given; memory that is not given reads as zero. -/
def scanCol (delims : Delims) : List Byte → Nat
  | [] => 0
  | c :: mem =>
      if c = 0 then 0
      else if (delims.d_mask c).field || (delims.d_mask c).record then 1
      else 1 + scanCol delims mem

/-- `NEXTCOL(pos)`; the scan starts in front of the line, at -1. -/
def nextcol (delims : Delims) (mem : List Byte) (pos : Int) : Int :=
  let pos :=
    if delims.sep = none then
      -- `while (BLANK & l_d_mask[*(++pos)]);`
      pos + 1 + ((mem.drop (pos + 1).toNat).takeWhile fun c => (delims.d_mask c).blank).length
    else pos
  pos + scanCol delims (mem.drop (pos + 1).toNat)

/-- A column of the line: its first byte and the byte behind it. -/
structure Coldesc where
  num : Nat
  start : Int
  stop : Int
  deriving DecidableEq, Repr

/-- `for (; (col < clpos->num) && (pos < lineend); col++) NEXTCOL(pos);`, with the number of columns
that are left. -/
def skipCols (delims : Delims) (mem : List Byte) (lineend : Int) : Nat → Int → Int
  | 0, pos => pos
  | left + 1, pos =>
      if pos < lineend then skipCols delims mem lineend left (nextcol delims mem pos) else pos

/-- The loop over `clist`; the columns that are left when the line ends are set to its end. -/
def scanClist (delims : Delims) (mem : List Byte) (lineend : Int) :
    List Nat → Nat → Int → List Coldesc
  | [], _, _ => []
  | num :: nums, col, pos =>
      let pos := skipCols delims mem lineend (num - col) pos
      if pos ≥ lineend then
        (num :: nums).map fun num => { num := num, start := lineend, stop := lineend }
      else
        let start := if delims.sep = none then pos else pos + 1
        let pos := nextcol delims mem pos
        if pos ≥ lineend then
          { num := num, start := start, stop := lineend } ::
            nums.map fun num => { num := num, start := lineend, stop := lineend }
        else
          { num := num, start := start, stop := pos } ::
            scanClist delims mem lineend nums (num + 1) pos

/-- `if (clist[0].start < line_data) clist[0].start++;` -/
def fixFirst : List Coldesc → List Coldesc
  | [] => []
  | first :: rest =>
      (if first.start < 0 then { first with start := first.start + 1 } else first) :: rest

/-- The columns in `clist` for a line of which `lineend` bytes stand before its delimiter. -/
def enterCols (delims : Delims) (mem : List Byte) (lineend : Nat) (nums : List Nat) : List Coldesc :=
  fixFirst (scanClist delims mem lineend nums 1 (-1))

/-! ## The bytes of a field -/

/-- The entry of a column, as `fldreset` found it. -/
def lookup (clist : List Coldesc) (num : Nat) : Coldesc :=
  (clist.find? fun desc => desc.num = num).getD { num := num, start := 0, stop := 0 }

/-- `SKIP_BLANKS(ptr)` moves over this many bytes. -/
def blanksAt (delims : Delims) (mem : List Byte) (ptr : Int) : Nat :=
  ((mem.drop ptr.toNat).takeWhile fun c => (delims.d_mask c).blank).length

/-- Where `enterfield` starts to read. -/
def fieldStart (delims : Delims) (mem : List Byte) (lineend : Int) (clist : List Coldesc)
    (field : Field) : Int :=
  let start := (lookup clist field.icol.num).start
  let start := if field.flags.BI then start + blanksAt delims mem start else start
  min (start + field.icol.indent) lineend

def fieldStop (delims : Delims) (mem : List Byte) (lineend : Int) (clist : List Coldesc)
    (field : Field) : Int :=
  if field.tcol.num = 0 then lineend
  else if field.tcol.indent ≠ 0 then
    let stop := (lookup clist field.tcol.num).start
    let stop := if field.flags.BT then stop + blanksAt delims mem stop else stop
    min (stop + field.tcol.indent) lineend
  else (lookup clist field.tcol.num).stop

/-- The bytes from `start` on, before `stop`. -/
def span (mem : List Byte) (start stop : Int) : List Byte :=
  (mem.drop start.toNat).take (stop - start).toNat

/-- The bytes that `enterfield` reads for a field. -/
def fieldText (delims : Delims) (mem : List Byte) (lineend : Nat) (nums : List Nat) (field : Field) :
    List Byte :=
  let clist := enterCols delims mem lineend nums
  span mem (fieldStart delims mem lineend clist field) (fieldStop delims mem lineend clist field)

/-! ## What the fields are meant to be -/

/-- The columns of a line with a separator: the text between the `m`-th separator and the next, as
the place of its first byte and of the byte behind it. -/
def sepColumn (sep : Byte) : Nat → List Byte → Nat × Nat
  | 0, line => (0, (line.takeWhile (· ≠ sep)).length)
  | m + 1, line =>
      match line.dropWhile (· ≠ sep) with
      | [] => (line.length, line.length)
      | _ :: rest =>
          let (start, stop) := sepColumn sep m rest
          (line.length - rest.length + start, line.length - rest.length + stop)

def blankColumn (blank : Byte → Bool) : Nat → List Byte → Nat × Nat
  | 0, line => (0, line.length - ((line.dropWhile blank).dropWhile (!blank ·)).length)
  | m + 1, line =>
      let rest := (line.dropWhile blank).dropWhile (!blank ·)
      let (start, stop) := blankColumn blank m rest
      (line.length - rest.length + start, line.length - rest.length + stop)

/-- Column `num` of a line, counted from 1. -/
def Delims.column (delims : Delims) (num : Nat) (line : List Byte) : Nat × Nat :=
  match delims.sep with
  | some sep => sepColumn sep (num - 1) line
  | none => blankColumn (fun c => (delims.d_mask c).blank) (num - 1) line

/-- The first byte of a field: that of its column, behind the blanks if they do not count, and
`indent` bytes further. -/
def Delims.fieldFirst (delims : Delims) (line : List Byte) (column : Column) (skip : Bool) : Nat :=
  let start := (delims.column column.num line).1
  let blanks := ((line.drop start).takeWhile fun c => (delims.d_mask c).blank).length
  min (start + (if skip then blanks else 0) + column.indent) line.length

def Delims.fieldEnd (delims : Delims) (line : List Byte) (field : Field) : Nat :=
  if field.tcol.num = 0 then line.length
  else if field.tcol.indent ≠ 0 then delims.fieldFirst line field.tcol field.flags.BT
  else (delims.column field.tcol.num line).2

def Delims.prescribed (delims : Delims) (line : List Byte) (field : Field) : List Byte :=
  span line (delims.fieldFirst line field.icol field.flags.BI) (delims.fieldEnd line field)

/-! ## The scan column by column -/

/-- Where the scan stands behind `k` columns. -/
def boundary (delims : Delims) (mem : List Byte) (k : Nat) : Int := (nextcol delims mem)^[k] (-1)

/-- The entry of a column, whatever other columns are asked for. -/
def entry (delims : Delims) (mem : List Byte) (lineend : Int) (num : Nat) : Coldesc :=
  if boundary delims mem (num - 1) < lineend then
    { num := num
      start := if delims.sep = none then boundary delims mem (num - 1)
        else boundary delims mem (num - 1) + 1
      stop := min (boundary delims mem num) lineend }
  else { num := num, start := lineend, stop := lineend }

/-- The entry of a column, moved to the line. -/
def found (delims : Delims) (mem : List Byte) (lineend : Int) (num : Nat) : Coldesc :=
  { entry delims mem lineend num with start := max 0 (entry delims mem lineend num).start }

section

variable {delims : Delims} {mem : List Byte} {lineend : Int}

theorem nextcol_le (pos : Int) : pos ≤ nextcol delims mem pos := by
  unfold nextcol
  dsimp only
  split <;> omega

theorem boundary_succ (k : Nat) :
    boundary delims mem (k + 1) = nextcol delims mem (boundary delims mem k) :=
  Function.iterate_succ_apply' _ _ _

theorem boundary_mono {k l : Nat} (le : k ≤ l) : boundary delims mem k ≤ boundary delims mem l := by
  induction le with
  | refl => exact Int.le_refl _
  | step _ ih =>
      rw [boundary_succ]
      exact ih.trans (nextcol_le _)

theorem skipCols_boundary (delims : Delims) (mem : List Byte) (lineend : Int) (k left : Nat) :
    (boundary delims mem (k + left) < lineend →
      skipCols delims mem lineend left (boundary delims mem k) = boundary delims mem (k + left)) ∧
      (lineend ≤ boundary delims mem (k + left) →
        lineend ≤ skipCols delims mem lineend left (boundary delims mem k)) := by
  induction left generalizing k with
  | zero => exact ⟨fun _ => rfl, id⟩
  | succ left ih =>
      have index : k + (left + 1) = k + 1 + left := by omega
      obtain ⟨inside, beyond⟩ := ih (k + 1)
      rw [index, skipCols, ← boundary_succ]
      constructor
      · intro less
        have here := (boundary_mono (show k ≤ k + 1 + left by omega)).trans_lt less
        rw [if_pos here]
        exact inside less
      · intro far
        split
        · exact beyond far
        · next stopped => exact Int.not_lt.mp stopped

theorem entry_beyond {num : Nat} (beyond : lineend ≤ boundary delims mem (num - 1)) :
    entry delims mem lineend num = { num := num, start := lineend, stop := lineend } :=
  if_neg (Int.not_lt.mpr beyond)

/-- The scan finds for each column what it would find for it alone. -/
theorem scanClist_eq {nums : List Nat} (increasing : nums.Pairwise (· < ·)) (col : Nat)
    (coming : ∀ num ∈ nums, col < num) :
    scanClist delims mem lineend nums (col + 1) (boundary delims mem col) =
      nums.map (entry delims mem lineend) := by
  induction nums generalizing col with
  | nil => rfl
  | cons num nums ih =>
      have later : ∀ other ∈ nums, num < other := fun other member =>
        List.rel_of_pairwise_cons increasing member
      have ahead := coming num List.mem_cons_self
      obtain ⟨inside, beyond⟩ := skipCols_boundary delims mem lineend col (num - (col + 1))
      have index : col + (num - (col + 1)) = num - 1 := by omega
      have next : boundary delims mem num = nextcol delims mem (boundary delims mem (num - 1)) := by
        rw [← boundary_succ, Nat.sub_add_cancel (by omega)]
      rw [index] at inside beyond
      rw [scanClist]
      dsimp only
      by_cases here : boundary delims mem (num - 1) < lineend
      · rw [inside here, if_neg (Int.not_le.mpr here), ← next, List.map_cons]
        by_cases end_ : boundary delims mem num ≥ lineend
        · rw [if_pos end_, entry, if_pos here, min_eq_right end_]
          refine congrArg _ (List.map_congr_left fun other member => ?_)
          have behind := later other member
          rw [entry_beyond (end_.le.trans (boundary_mono (by omega)))]
        · rw [if_neg end_, ih increasing.of_cons num fun other member => later other member, entry,
            if_pos here, min_eq_left (by omega)]
      · have far := Int.not_lt.mp here
        rw [if_pos (beyond far)]
        refine List.map_congr_left fun other member => ?_
        rw [entry_beyond (far.trans (boundary_mono ?_))]
        rcases List.mem_cons.mp member with rfl | behind
        · exact Nat.le_refl _
        · have := later other behind
          omega

/-! ## The scan behind the first column -/

theorem boundary_ge (delims : Delims) (mem : List Byte) (k : Nat) : -1 ≤ boundary delims mem k :=
  boundary_mono (Nat.zero_le k)

theorem nextcol_append (front rest : List Byte) {pos : Int} (ge : -1 ≤ pos) :
    nextcol delims (front ++ rest) (front.length + pos) = front.length + nextcol delims rest pos := by
  have drop : ∀ k l : Int, 0 ≤ k → l = front.length + k →
      (front ++ rest).drop l.toNat = rest.drop k.toNat := fun k l le same => by
    have index : l.toNat = front.length + k.toNat := by omega
    rw [index, List.drop_append, List.drop_eq_nil_of_le (by omega), List.nil_append,
      Nat.add_sub_cancel_left]
  unfold nextcol
  dsimp only
  split
  · rw [drop (pos + 1) (front.length + pos + 1) (by omega) (by omega)]
    generalize ((rest.drop (pos + 1).toNat).takeWhile _).length = blanks
    rw [drop (pos + 1 + blanks + 1) _ (by omega) (by omega)]
    omega
  · rw [drop (pos + 1) (front.length + pos + 1) (by omega) (by omega)]
    omega

theorem boundary_append {front rest : List Byte}
    (first : nextcol delims (front ++ rest) (-1) = front.length - 1) (k : Nat) :
    boundary delims (front ++ rest) (k + 1) = front.length + boundary delims rest k := by
  induction k with
  | zero => exact first
  | succ k ih => rw [boundary_succ, ih, nextcol_append _ _ (boundary_ge _ _ k), ← boundary_succ]

theorem entry_append {front rest : List Byte}
    (first : nextcol delims (front ++ rest) (-1) = front.length - 1) (num : Nat) :
    entry delims (front ++ rest) (front.length + lineend) (num + 2) =
      { num := num + 2
        start := front.length + (entry delims rest lineend (num + 1)).start
        stop := front.length + (entry delims rest lineend (num + 1)).stop } := by
  unfold entry
  rw [show num + 2 - 1 = num + 1 from rfl, Nat.add_sub_cancel, boundary_append first,
    boundary_append first]
  simp only [Int.add_lt_add_iff_left]
  split
  · rw [Int.add_assoc, ← apply_ite (fun start : Int => front.length + start), min_add_add_left]
  · rfl

/-- The first column ends at a byte of the line, and the scan goes on behind it. -/
theorem entry_behind {front rest behind : List Byte} {c : Byte}
    (stop : nextcol delims (front ++ c :: rest ++ delims.REC_D :: behind) (-1) = front.length)
    (num : Nat) :
    entry delims (front ++ c :: rest ++ delims.REC_D :: behind) (front ++ c :: rest).length
        (num + 2) =
      { num := num + 2
        start := (front ++ [c]).length +
          (entry delims (rest ++ delims.REC_D :: behind) rest.length (num + 1)).start
        stop := (front ++ [c]).length +
          (entry delims (rest ++ delims.REC_D :: behind) rest.length (num + 1)).stop } := by
  have assoc : front ++ c :: rest ++ delims.REC_D :: behind =
      (front ++ [c]) ++ (rest ++ delims.REC_D :: behind) := by simp
  have length : ((front ++ c :: rest).length : Int) = (front ++ [c]).length + rest.length := by
    simp
    omega
  rw [assoc] at stop ⊢
  rw [length, entry_append (by rw [stop]; simp)]

theorem entry_last (long : lineend ≤ nextcol delims mem (-1)) (num : Nat) :
    entry delims mem lineend (num + 2) = { num := num + 2, start := lineend, stop := lineend } :=
  entry_beyond (long.trans (boundary_mono (show 1 ≤ num + 1 by omega)))

theorem entry_first (positive : 0 ≤ lineend) :
    entry delims mem lineend 1 =
      { num := 1
        start := if delims.sep = none then -1 else 0
        stop := min (nextcol delims mem (-1)) lineend } :=
  if_pos (show (-1 : Int) < lineend by omega)

/-! ## The bytes that the scan passes -/

/-- A byte in the middle of a column. -/
structure Passed (delims : Delims) (c : Byte) : Prop where
  nonzero : c ≠ 0
  field : (delims.d_mask c).field = false
  record : (delims.d_mask c).record = false

theorem scanCol_passed {front : List Byte} (passed : ∀ c ∈ front, Passed delims c)
    (rest : List Byte) :
    scanCol delims (front ++ rest) = front.length + scanCol delims rest := by
  induction front with
  | nil => exact (Nat.zero_add _).symm
  | cons c front ih =>
      obtain ⟨nonzero, field, record⟩ := passed c List.mem_cons_self
      rw [List.cons_append, scanCol, if_neg nonzero, if_neg (by simp [field, record]),
        ih fun d member => passed d (List.mem_cons_of_mem _ member), List.length_cons]
      omega

theorem scanCol_zero (rest : List Byte) : scanCol delims (0 :: rest) = 0 := if_pos rfl

theorem scanCol_mark {c : Byte} (nonzero : c ≠ 0)
    (mark : (delims.d_mask c).field = true ∨ c = delims.REC_D) (rest : List Byte) :
    scanCol delims (c :: rest) = 1 := by
  have stops : ((delims.d_mask c).field || (delims.d_mask c).record) = true := by
    rw [Bool.or_eq_true, delims.record_iff]
    exact mark
  rw [scanCol, if_neg nonzero, if_pos stops]

theorem Delims.not_record {c : Byte} (other : c ≠ delims.REC_D) :
    (delims.d_mask c).record = false := by
  rw [Bool.eq_false_iff, Ne, delims.record_iff]
  exact other

end

/-! ## With a separator -/

section

variable {delims : Delims} {sep : Byte} {line behind : List Byte}

theorem sepColumn_last (clean : sep ∉ line) :
    sepColumn sep 0 line = (0, line.length) ∧
      ∀ m, sepColumn sep (m + 1) line = (line.length, line.length) := by
  have all : ∀ c ∈ line, decide (c ≠ sep) = true := fun c member =>
    decide_eq_true fun same => clean (same ▸ member)
  constructor
  · rw [sepColumn, List.takeWhile_eq_self_iff.mpr all]
  · intro m
    rw [sepColumn, List.dropWhile_eq_nil_iff.mpr all]

theorem sepColumn_append {front : List Byte} (clean : sep ∉ front) (rest : List Byte) :
    sepColumn sep 0 (front ++ sep :: rest) = (0, front.length) ∧
      ∀ m, sepColumn sep (m + 1) (front ++ sep :: rest) =
        ((front ++ [sep]).length + (sepColumn sep m rest).1,
          (front ++ [sep]).length + (sepColumn sep m rest).2) := by
  have all : ∀ c ∈ front, decide (c ≠ sep) = true := fun c member =>
    decide_eq_true fun same => clean (same ▸ member)
  have stop : decide (sep ≠ sep) = false := by simp
  constructor
  · rw [sepColumn, List.takeWhile_append_of_pos all, List.takeWhile_cons, stop]
    simp
  · intro m
    rw [sepColumn, List.dropWhile_append_of_pos all, List.dropWhile_cons, stop]
    simp only [Bool.false_eq_true, if_false, List.length_append, List.length_cons, List.length_nil]
    rw [show front.length + (rest.length + 1) - rest.length = front.length + (0 + 1) by omega]

theorem nextcol_sep {mem : List Byte} (given : delims.sep = some sep) :
    nextcol delims mem (-1) = scanCol delims mem - 1 := by
  unfold nextcol
  rw [given, if_neg (by simp)]
  exact Int.add_comm _ _

/-- The bytes of a line that end no column by mistake. -/
def SepPlain (delims : Delims) (sep c : Byte) : Prop :=
  c ≠ 0 ∧ ((delims.d_mask c).field = true → c = sep)

theorem SepPlain.passed {c : Byte} (plain : SepPlain delims sep c) (other : c ≠ sep)
    (text : c ≠ delims.REC_D) : Passed delims c :=
  ⟨plain.1, Bool.eq_false_iff.mpr fun mark => other (plain.2 mark), Delims.not_record text⟩

theorem nextcol_sep_mark {front rest : List Byte} {c : Byte} (given : delims.sep = some sep)
    (passed : ∀ d ∈ front, Passed delims d) (nonzero : c ≠ 0)
    (mark : (delims.d_mask c).field = true ∨ c = delims.REC_D) :
    nextcol delims (front ++ c :: rest) (-1) = front.length := by
  rw [nextcol_sep given, scanCol_passed passed, scanCol_mark nonzero mark]
  omega

theorem nextcol_sep_plain (behind : List Byte) (given : delims.sep = some sep) (ends : delims.REC_D ≠ 0)
    (clean : delims.REC_D ∉ line) (plain : ∀ c ∈ line, SepPlain delims sep c) :
    (sep ∉ line ∧ nextcol delims (line ++ delims.REC_D :: behind) (-1) = line.length) ∨
      ∃ front rest, line = front ++ sep :: rest ∧ sep ∉ front ∧
        nextcol delims (line ++ delims.REC_D :: behind) (-1) = front.length := by
  have passed : ∀ c ∈ line, c ≠ sep → Passed delims c := fun c member other =>
    (plain c member).passed other fun same => clean (same ▸ member)
  by_cases there : sep ∈ line
  · obtain ⟨front, rest, rfl, apart⟩ := List.eq_append_cons_of_mem there
    have text : sep ≠ delims.REC_D := fun same => clean (same ▸ there)
    refine Or.inr ⟨front, rest, rfl, apart, ?_⟩
    rw [List.append_assoc, List.cons_append]
    refine nextcol_sep_mark given (fun c member => ?_) (plain sep there).1
      (Or.inl (delims.field_sep sep given text))
    exact passed c (List.mem_append_left _ member) fun same => apart (same ▸ member)
  · refine Or.inl ⟨there, nextcol_sep_mark given (fun c member => ?_) ends (Or.inr rfl)⟩
    exact passed c member fun same => there (same ▸ member)

/-- The scan over such a line finds the columns between the separators. -/
theorem entry_sep (given : delims.sep = some sep) (ends : delims.REC_D ≠ 0)
    (clean : delims.REC_D ∉ line) (plain : ∀ c ∈ line, SepPlain delims sep c) (m : Nat) :
    entry delims (line ++ delims.REC_D :: behind) line.length (m + 1) =
      { num := m + 1
        start := (sepColumn sep m line).1
        stop := (sepColumn sep m line).2 } := by
  have single : delims.sep ≠ none := by simp [given]
  induction m generalizing line with
  | zero =>
      rw [entry_first (Int.natCast_nonneg _), if_neg single]
      rcases nextcol_sep_plain behind given ends clean plain with
        ⟨last, stop⟩ | ⟨front, rest, rfl, apart, stop⟩
      · rw [stop, min_self, (sepColumn_last last).1]
        rfl
      · rw [stop, (sepColumn_append apart rest).1, min_eq_left (by simp; omega)]
        rfl
  | succ m ih =>
      rcases nextcol_sep_plain behind given ends clean plain with
        ⟨last, stop⟩ | ⟨front, rest, rfl, apart, stop⟩
      · rw [entry_last (by rw [stop]), (sepColumn_last last).2]
      · rw [entry_behind stop, (sepColumn_append apart rest).2,
          ih (fun member => clean (by simp [member])) fun c member => plain c (by simp [member])]
        simp

/-! A line with other bytes -/

theorem scanCol_le_zero (delims : Delims) (front rest : List Byte) :
    scanCol delims (front ++ 0 :: rest) ≤ front.length := by
  induction front with
  | nil => exact (scanCol_zero rest).le
  | cons c front ih =>
      rw [List.cons_append, scanCol, List.length_cons]
      split <;> [skip; split] <;> omega

theorem boundary_zero (given : delims.sep = some sep) (front rest : List Byte) (k : Nat) :
    boundary delims (front ++ 0 :: rest) k < front.length := by
  induction k with
  | zero => exact Int.lt_of_lt_of_le (show (-1 : Int) < 0 by decide) (Int.natCast_nonneg _)
  | succ k ih =>
      rw [boundary_succ, nextcol, given, if_neg (by simp)]
      have bound := scanCol_le_zero delims
        (front.drop (boundary delims (front ++ 0 :: rest) k + 1).toNat) rest
      rw [List.drop_append_of_le_length (by omega)]
      rw [List.length_drop] at bound
      omega

theorem sepColumn_beyond {m : Nat} (long : line.length ≤ m) :
    (sepColumn sep m line).2 = line.length := by
  induction m generalizing line with
  | zero => rw [List.eq_nil_of_length_eq_zero (Nat.le_zero.mp long)]; rfl
  | succ m ih =>
      by_cases there : sep ∈ line
      · obtain ⟨front, rest, rfl, apart⟩ := List.eq_append_cons_of_mem there
        rw [List.length_append, List.length_cons] at long
        rw [(sepColumn_append apart rest).2, ih (by omega)]
        simp
        omega
      · rw [(sepColumn_last there).2]

/-- A column that the scan ends too early. -/
def Short (delims : Delims) (line behind : List Byte) (num : Nat) : Prop :=
  (entry delims (line ++ delims.REC_D :: behind) line.length num).stop < (delims.column num line).2 ∧
    0 < (delims.column num line).2

theorem short_zero (given : delims.sep = some sep) (nonempty : line ≠ [])
    (zero : 0 ∈ line ++ [delims.REC_D]) : Short delims line behind (line.length + 1) := by
  have beyond : (delims.column (line.length + 1) line).2 = line.length := by
    rw [Delims.column, given]
    exact sepColumn_beyond (Nat.le_refl _)
  have positive := List.length_pos_iff.mpr nonempty
  refine ⟨?_, by rw [beyond]; exact positive⟩
  obtain ⟨front, rest, split, -⟩ := List.eq_append_cons_of_mem zero
  have short : front.length ≤ line.length := by
    have lengths := congrArg List.length split
    simp only [List.length_append, List.length_cons, List.length_nil] at lengths
    omega
  have memory : line ++ delims.REC_D :: behind = front ++ 0 :: (rest ++ behind) := by
    rw [List.append_cons, split]
    simp
  have bound := boundary_zero given front (rest ++ behind)
  rw [beyond, memory, entry, if_pos (by have := bound line.length; simp; omega)]
  exact Int.lt_of_le_of_lt (min_le_left _ _) (by have := bound (line.length + 1); omega)

theorem short_mark (behind : List Byte) (given : delims.sep = some sep) (clean : delims.REC_D ∉ line)
    (nonzero : 0 ∉ line) {c : Byte} (member : c ∈ line) (mark : (delims.d_mask c).field = true)
    (other : c ≠ sep) :
    ∃ m, (entry delims (line ++ delims.REC_D :: behind) line.length (m + 1)).stop <
        (sepColumn sep m line).2 ∧
      0 ≤ (entry delims (line ++ delims.REC_D :: behind) line.length (m + 1)).stop := by
  induction size : line.length using Nat.strong_induction_on generalizing line with
  | h size_ ih =>
      -- the first byte that is marked ends the first column of the scan
      obtain ⟨d, first⟩ := Option.isSome_iff_exists.mp
        (List.find?_isSome (p := fun e => (delims.d_mask e).field).mpr ⟨c, member, mark⟩)
      obtain ⟨marked, front, rest, rfl, before⟩ := List.find?_eq_some_iff_append.mp first
      have passed : ∀ e ∈ front, Passed delims e := fun e inside =>
        ⟨fun zero => nonzero (by simp [← zero, inside]), by simpa using before e inside,
          Delims.not_record fun same => clean (by simp [← same, inside])⟩
      have apart : sep ∉ front := fun inside => by
        have unmarked := (passed sep inside).field
        rw [delims.field_sep sep given fun same => clean (by simp [← same, inside])] at unmarked
        cases unmarked
      have stop : nextcol delims (front ++ d :: rest ++ delims.REC_D :: behind) (-1) =
          front.length := by
        rw [List.append_assoc, List.cons_append]
        exact nextcol_sep_mark given passed (fun zero => nonzero (by simp [← zero])) (Or.inl marked)
      by_cases same : d = sep
      · subst same
        have inside : c ∈ rest := by
          rcases List.mem_append.mp member with wrong | behind_
          · rw [(passed c wrong).field] at mark
            cases mark
          · exact (List.mem_cons.mp behind_).resolve_left other
        obtain ⟨m, short, nonneg⟩ := ih rest.length (by rw [← size]; simp; omega)
          (fun wrong => clean (by simp [wrong])) (fun wrong => nonzero (by simp [wrong])) inside rfl
        rw [← size]
        refine ⟨m + 1, ?_, ?_⟩
        · rw [entry_behind stop, (sepColumn_append apart rest).2]
          push_cast
          exact Int.add_lt_add_left short _
        · rw [entry_behind stop]
          exact Int.add_nonneg (Int.natCast_nonneg _) nonneg
      · have single : delims.sep ≠ none := by simp [given]
        have spec : front.length < (sepColumn sep 0 (front ++ d :: rest)).2 := by
          have all : ∀ e ∈ front, decide (e ≠ sep) = true := fun e inside =>
            decide_eq_true fun same => apart (same ▸ inside)
          rw [sepColumn, List.takeWhile_append_of_pos all, List.takeWhile_cons,
            if_pos (decide_eq_true same)]
          simp
        have early : (entry delims (front ++ d :: rest ++ delims.REC_D :: behind)
            (front ++ d :: rest).length 1).stop = front.length := by
          rw [entry_first (Int.natCast_nonneg _), stop, min_eq_left (by simp; omega)]
        rw [← size]
        refine ⟨0, ?_, ?_⟩
        · rw [early]
          exact Int.ofNat_lt.mpr spec
        · rw [early]
          exact Int.natCast_nonneg _

end

/-! ## Without a separator -/

section

variable {blank : Byte → Bool} {line : List Byte}

/-- The first column of a line: blanks, and bytes that are none. -/
structure Leads (blank : Byte → Bool) (blanks : List Byte) (c : Byte) (run tail : List Byte) :
    Prop where
  blanks : ∀ d ∈ blanks, blank d = true
  text : ∀ d ∈ c :: run, blank d = false
  tail : ∀ d ∈ tail.head?, blank d = true

theorem exists_leads (blank : Byte → Bool) (line : List Byte) :
    (∀ c ∈ line, blank c = true) ∨
      ∃ blanks c run tail, line = blanks ++ c :: run ++ tail ∧ Leads blank blanks c run tail := by
  rcases behind : line.dropWhile blank with _ | ⟨c, more⟩
  · exact Or.inl (List.dropWhile_eq_nil_iff.mp behind)
  · refine Or.inr ⟨line.takeWhile blank, c, more.takeWhile (!blank ·), more.dropWhile (!blank ·),
      ?_, fun d member => List.mem_takeWhile_imp member, fun d member => ?_, fun d member => ?_⟩
    · rw [List.append_assoc, List.cons_append, List.takeWhile_append_dropWhile, ← behind,
        List.takeWhile_append_dropWhile]
    · rcases List.mem_cons.mp member with rfl | inside
      · have first := List.head?_dropWhile_not blank line
        rw [behind] at first
        simpa using first
      · simpa using List.mem_takeWhile_imp inside
    · have first := List.head?_dropWhile_not (!blank ·) more
      rw [Option.mem_def.mp member] at first
      simpa using first

theorem blankColumn_all (all : ∀ c ∈ line, blank c = true) :
    blankColumn blank 0 line = (0, line.length) ∧
      ∀ m, blankColumn blank (m + 1) line = (line.length, line.length) := by
  have nothing : ∀ m, blankColumn blank m [] = (0, 0) := fun m => by
    induction m with
    | zero => rfl
    | succ m ih => simp [blankColumn, ih]
  have gone := List.dropWhile_eq_nil_iff.mpr all
  constructor
  · simp [blankColumn, gone]
  · intro m
    simp [blankColumn, gone, nothing]

theorem blankColumn_leads {blanks run tail : List Byte} {c : Byte}
    (leads : Leads blank blanks c run tail) :
    blankColumn blank 0 (blanks ++ c :: run ++ tail) = (0, (blanks ++ c :: run).length) ∧
      ∀ m, blankColumn blank (m + 1) (blanks ++ c :: run ++ tail) =
        ((blanks ++ c :: run).length + (blankColumn blank m tail).1,
          (blanks ++ c :: run).length + (blankColumn blank m tail).2) := by
  have first := leads.text c List.mem_cons_self
  have rest : ((blanks ++ c :: run ++ tail).dropWhile blank).dropWhile (!blank ·) = tail := by
    have kept : (c :: run ++ tail).dropWhile blank = c :: run ++ tail := by
      rw [List.cons_append, List.dropWhile_cons, if_neg (by simp [first])]
    rw [List.append_assoc, List.dropWhile_append_of_pos leads.blanks, kept,
      List.dropWhile_append_of_pos fun d member => by simp [leads.text d member]]
    rcases tail with _ | ⟨d, tail⟩
    · rfl
    · rw [List.dropWhile_cons, leads.tail d rfl]
      rfl
  have front : (blanks ++ c :: run ++ tail).length - tail.length = (blanks ++ c :: run).length := by
    rw [List.length_append, Nat.add_sub_cancel]
  constructor
  · rw [blankColumn, rest, front]
  · intro m
    rw [blankColumn, rest, front]

theorem blankColumn_cons {b : Byte} (first : blank b = true) (line : List Byte) :
    (blankColumn blank 0 (b :: line)).2 = 1 + (blankColumn blank 0 line).2 ∧
      ∀ m, blankColumn blank (m + 1) (b :: line) =
        (1 + (blankColumn blank (m + 1) line).1, 1 + (blankColumn blank (m + 1) line).2) := by
  have shorter : ((line.dropWhile blank).dropWhile (!blank ·)).length ≤ line.length :=
    ((List.dropWhile_sublist _).trans (List.dropWhile_sublist _)).length_le
  constructor
  · rw [blankColumn, blankColumn, List.dropWhile_cons, if_pos first, List.length_cons]
    dsimp only
    omega
  · intro m
    rw [blankColumn, blankColumn, List.dropWhile_cons, if_pos first, List.length_cons]
    dsimp only
    rw [Prod.mk.injEq]
    omega

/-! A zero behind a byte that is no blank -/

def Follows (blank : Byte → Bool) (c d : Byte) : Prop := blank c = true ∨ d ≠ 0

theorem chain_blank {b : Byte} (first : blank b = true) (rest : List Byte) :
    (b :: rest).IsChain (Follows blank) ↔ rest.IsChain (Follows blank) := by
  cases rest with
  | nil => simp
  | cons c rest => exact List.isChain_cons_cons.trans (and_iff_right (Or.inl first))

theorem chain_blanks {blanks : List Byte} (all : ∀ c ∈ blanks, blank c = true) (rest : List Byte) :
    (blanks ++ rest).IsChain (Follows blank) ↔ rest.IsChain (Follows blank) := by
  induction blanks with
  | nil => rfl
  | cons c blanks ih =>
      rw [List.cons_append, chain_blank (all c List.mem_cons_self)]
      exact ih fun d member => all d (List.mem_cons_of_mem _ member)

theorem follows_text {c d : Byte} (text : blank c = false) : Follows blank c d ↔ d ≠ 0 := by
  simp [Follows, text]

theorem chain_text {c d : Byte} {run rest : List Byte} (text : ∀ e ∈ c :: run, blank e = false) :
    (c :: run ++ d :: rest).IsChain (Follows blank) ↔
      0 ∉ run ++ [d] ∧ (d :: rest).IsChain (Follows blank) := by
  have first := text c List.mem_cons_self
  induction run generalizing c with
  | nil =>
      rw [List.cons_append, List.nil_append, List.isChain_cons_cons, follows_text first]
      simp [eq_comm]
  | cons e run ih =>
      have later : ∀ f ∈ e :: run, blank f = false := fun f member =>
        text f (List.mem_cons_of_mem _ member)
      rw [List.cons_append, List.cons_append, List.isChain_cons_cons, follows_text first]
      refine (and_congr_right fun _ => ih later (later e List.mem_cons_self)).trans ?_
      simp [eq_comm, and_assoc]

end

section

variable {delims : Delims} {line behind : List Byte}

/-- `BLANK & d_mask[c]` -/
def Delims.blank (delims : Delims) (c : Byte) : Bool := (delims.d_mask c).blank

theorem nextcol_blanks (none_ : delims.sep = none) {blanks rest : List Byte} {c : Byte}
    (all : ∀ d ∈ blanks, delims.blank d = true) (text : delims.blank c = false) :
    nextcol delims (blanks ++ c :: rest) (-1) = blanks.length + scanCol delims rest := by
  have run : ((blanks ++ c :: rest).drop (-1 + 1 : Int).toNat).takeWhile
      (fun c => (delims.d_mask c).blank) = blanks := by
    change (blanks ++ c :: rest).takeWhile delims.blank = blanks
    rw [List.takeWhile_append_of_pos all, List.takeWhile_cons, if_neg (by simp [text]),
      List.append_nil]
  unfold nextcol
  rw [if_pos none_]
  dsimp only
  rw [run]
  have index : (-1 + 1 + (blanks.length : Int) + 1).toNat = (blanks ++ [c]).length := by
    simp
  have behind : (blanks ++ c :: rest).drop (blanks ++ [c]).length = rest := by
    rw [List.append_cons blanks c rest, List.drop_left]
  rw [index, behind]
  omega

theorem Delims.blank_record : delims.blank delims.REC_D = false := by
  rw [Bool.eq_false_iff, Ne, Delims.blank, delims.blank_iff]
  exact fun both => both.1 rfl

theorem Delims.passed_text (none_ : delims.sep = none) {c : Byte} (text : delims.blank c = false)
    (nonzero : c ≠ 0) (other : c ≠ delims.REC_D) : Passed delims c :=
  ⟨nonzero, (delims.field_blank none_ c other).trans text, Delims.not_record other⟩

theorem nextcol_text {blanks run : List Byte} {c d : Byte} (more : List Byte) (none_ : delims.sep = none)
    (all : ∀ e ∈ blanks, delims.blank e = true) (text : ∀ e ∈ c :: run, delims.blank e = false)
    (clean : delims.REC_D ∉ run) (mark : delims.blank d = true ∨ d = delims.REC_D) :
    (0 ∉ run ++ [d] →
      nextcol delims (blanks ++ c :: run ++ d :: more) (-1) = (blanks ++ c :: run).length) ∧
      (0 ∈ run ++ [d] →
        nextcol delims (blanks ++ c :: run ++ d :: more) (-1) < (blanks ++ c :: run).length ∧
          0 ≤ nextcol delims (blanks ++ c :: run ++ d :: more) (-1)) := by
  have passed : ∀ e ∈ run, e ≠ 0 → Passed delims e := fun e member nonzero =>
    delims.passed_text none_ (text e (List.mem_cons_of_mem _ member)) nonzero
      fun same => clean (same ▸ member)
  rw [List.append_assoc, List.cons_append, nextcol_blanks none_ all (text c List.mem_cons_self)]
  constructor
  · intro nonzero
    have field : (delims.d_mask d).field = true ∨ d = delims.REC_D := by
      by_cases record : d = delims.REC_D
      · exact Or.inr record
      · exact Or.inl ((delims.field_blank none_ d record).trans (mark.resolve_right record))
    rw [scanCol_passed fun e member => passed e member fun zero => nonzero (by simp [← zero, member]),
      scanCol_mark (fun zero => nonzero (by simp [zero])) field]
    simp
  · intro zero
    obtain ⟨front, rest, split, before⟩ := List.eq_append_cons_of_mem zero
    have inside : (∀ e ∈ front, e ∈ run) ∧ front.length ≤ run.length ∧
        ∃ rest, run ++ d :: more = front ++ 0 :: rest := by
      rcases List.eq_nil_or_concat rest with rfl | ⟨rest, last, rfl⟩
      · obtain ⟨rfl, same⟩ := List.append_inj' split rfl
        obtain rfl : d = 0 := List.singleton_inj.mp same
        exact ⟨fun _ => id, Nat.le_refl _, more, rfl⟩
      · rw [List.concat_eq_append, ← List.cons_append, ← List.append_assoc] at split
        obtain ⟨rfl, -⟩ := List.append_inj' split rfl
        exact ⟨fun e member => List.mem_append_left _ member, by simp, rest ++ d :: more, by simp⟩
    obtain ⟨within, length, rest, split⟩ := inside
    rw [split, scanCol_passed fun e member => passed e (within e member) fun zero =>
      before (zero ▸ member), scanCol_zero]
    simp
    omega

structure Last (delims : Delims) (line behind : List Byte) : Prop where
  scan : (line.length : Int) ≤ nextcol delims (line ++ delims.REC_D :: behind) (-1)
  first : blankColumn delims.blank 0 line = (0, line.length)
  later : ∀ m, blankColumn delims.blank (m + 1) line = (line.length, line.length)
  chain : (line ++ [delims.REC_D]).IsChain (Follows delims.blank)

structure Parted (delims : Delims) (front : List Byte) (b : Byte) (rest behind : List Byte) :
    Prop where
  blank : delims.blank b = true
  scan : nextcol delims (front ++ b :: rest ++ delims.REC_D :: behind) (-1) = front.length
  first : blankColumn delims.blank 0 (front ++ b :: rest) = (0, front.length)
  later : ∀ m, blankColumn delims.blank (m + 1) (front ++ b :: rest) =
    (front.length + (blankColumn delims.blank m (b :: rest)).1,
      front.length + (blankColumn delims.blank m (b :: rest)).2)
  chain : (front ++ b :: rest ++ [delims.REC_D]).IsChain (Follows delims.blank) ↔
    (rest ++ [delims.REC_D]).IsChain (Follows delims.blank)

/-- The scan ends the first column too early, at a byte that a zero follows. -/
structure Broken (delims : Delims) (line behind : List Byte) : Prop where
  nonneg : 0 ≤ nextcol delims (line ++ delims.REC_D :: behind) (-1)
  early : nextcol delims (line ++ delims.REC_D :: behind) (-1) <
    (blankColumn delims.blank 0 line).2
  inside : (blankColumn delims.blank 0 line).2 ≤ line.length
  chain : ¬ (line ++ [delims.REC_D]).IsChain (Follows delims.blank)

theorem first_column (behind : List Byte) (none_ : delims.sep = none) (clean : delims.REC_D ∉ line) :
    Last delims line behind ∨
      (∃ front b rest, line = front ++ b :: rest ∧ Parted delims front b rest behind) ∨
      Broken delims line behind := by
  rcases exists_leads delims.blank line with all | ⟨blanks, c, run, tail, rfl, leads⟩
  · obtain ⟨first, later⟩ := blankColumn_all all
    refine Or.inl ⟨?_, first, later, (chain_blanks all _).mpr (by simp)⟩
    rw [nextcol_blanks none_ all Delims.blank_record]
    omega
  · obtain ⟨first, later⟩ := blankColumn_leads leads
    have apart : delims.REC_D ∉ run := fun wrong => clean (by simp [wrong])
    have chain : ∀ d more, (blanks ++ c :: run ++ d :: more).IsChain (Follows delims.blank) ↔
        0 ∉ run ++ [d] ∧ (d :: more).IsChain (Follows delims.blank) := fun d more => by
      rw [List.append_assoc, chain_blanks leads.blanks, chain_text leads.text]
    rcases tail with _ | ⟨b, rest⟩
    · obtain ⟨whole, early⟩ := nextcol_text behind none_ leads.blanks leads.text apart
        (Or.inr rfl)
      have nothing : ∀ m, blankColumn delims.blank m [] = (0, 0) := by
        obtain ⟨zero, succ⟩ : blankColumn delims.blank 0 [] = (0, 0) ∧
            ∀ m, blankColumn delims.blank (m + 1) [] = (0, 0) := blankColumn_all (by simp)
        exact fun m => by cases m <;> [exact zero; exact succ _]
      rw [List.append_nil] at first later ⊢
      by_cases zero : 0 ∈ run ++ [delims.REC_D]
      · obtain ⟨less, nonneg⟩ := early zero
        refine Or.inr (Or.inr ⟨nonneg, by rw [first]; exact less, by rw [first], fun wrong => ?_⟩)
        exact ((chain _ _).mp wrong).1 zero
      · refine Or.inl ⟨(whole zero).ge, first, fun m => ?_, (chain _ _).mpr ⟨zero, by simp⟩⟩
        have next := later m
        rw [nothing] at next
        exact next
    · have blank := leads.tail b rfl
      obtain ⟨whole, early⟩ := nextcol_text (rest ++ delims.REC_D :: behind) none_
        leads.blanks leads.text apart (Or.inl blank)
      have assoc : ∀ more, blanks ++ c :: run ++ b :: rest ++ more =
          blanks ++ c :: run ++ b :: (rest ++ more) := by simp
      by_cases zero : 0 ∈ run ++ [b]
      · obtain ⟨less, nonneg⟩ := early zero
        refine Or.inr (Or.inr ⟨?_, ?_, by rw [first]; simp, fun wrong => ?_⟩)
        · rw [assoc]
          exact nonneg
        · rw [assoc, first]
          exact less
        · rw [assoc, chain] at wrong
          exact wrong.1 zero
      · refine Or.inr (Or.inl ⟨_, b, rest, rfl, blank, ?_, first, later, ?_⟩)
        · rw [assoc]
          exact whole zero
        · rw [assoc, chain, chain_blank blank]
          exact and_iff_right zero

theorem entry_blank (none_ : delims.sep = none) (clean : delims.REC_D ∉ line)
    (chain : (line ++ [delims.REC_D]).IsChain (Follows delims.blank)) (m : Nat) :
    entry delims (line ++ delims.REC_D :: behind) line.length (m + 1) =
      { num := m + 1
        start := if m = 0 then -1 else (blankColumn delims.blank m line).1
        stop := (blankColumn delims.blank m line).2 } := by
  induction m generalizing line with
  | zero =>
      rw [entry_first (Int.natCast_nonneg _), if_pos none_]
      rcases first_column behind none_ clean with
        last | ⟨front, b, rest, rfl, parted⟩ | broken
      · rw [last.first, min_eq_right last.scan]
        rfl
      · rw [parted.scan, parted.first, min_eq_left (by simp; omega)]
        rfl
      · exact absurd chain broken.chain
  | succ m ih =>
      rcases first_column behind none_ clean with
        last | ⟨front, b, rest, rfl, parted⟩ | broken
      · rw [entry_last last.scan, last.later]
        rfl
      · rw [entry_behind parted.scan, parted.later,
          ih (fun wrong => clean (by simp [wrong])) (parted.chain.mp chain)]
        obtain ⟨first, later⟩ := blankColumn_cons parted.blank rest
        cases m with
        | zero =>
            rw [first]
            simp [blankColumn, Int.add_assoc]
        | succ m =>
            rw [later]
            simp [Int.add_assoc]
      · exact absurd chain broken.chain

theorem short_chain (behind : List Byte) (none_ : delims.sep = none) (clean : delims.REC_D ∉ line)
    (wrong : ¬ (line ++ [delims.REC_D]).IsChain (Follows delims.blank)) :
    ∃ m, (entry delims (line ++ delims.REC_D :: behind) line.length (m + 1)).stop <
        (blankColumn delims.blank m line).2 ∧
      0 ≤ (entry delims (line ++ delims.REC_D :: behind) line.length (m + 1)).stop := by
  induction size : line.length using Nat.strong_induction_on generalizing line with
  | h size_ ih =>
      rw [← size]
      rcases first_column behind none_ clean with
        last | ⟨front, b, rest, rfl, parted⟩ | broken
      · exact absurd last.chain wrong
      · obtain ⟨m, short, nonneg⟩ := ih rest.length (by rw [← size]; simp; omega)
          (fun inside => clean (by simp [inside])) (fun chain => wrong (parted.chain.mpr chain)) rfl
        obtain ⟨first, later⟩ := blankColumn_cons parted.blank rest
        have longer : (blankColumn delims.blank m (b :: rest)).2 =
            1 + (blankColumn delims.blank m rest).2 := by
          cases m with
          | zero => exact first
          | succ m => rw [later]
        refine ⟨m + 1, ?_, ?_⟩
        · rw [entry_behind parted.scan, parted.later, longer]
          simp
          omega
        · rw [entry_behind parted.scan]
          exact Int.add_nonneg (Int.natCast_nonneg _) nonneg
      · have stop : (entry delims (line ++ delims.REC_D :: behind) line.length 1).stop =
            nextcol delims (line ++ delims.REC_D :: behind) (-1) := by
          rw [entry_first (Int.natCast_nonneg _)]
          exact min_eq_left (broken.early.le.trans (Int.ofNat_le.mpr broken.inside))
        exact ⟨0, by rw [stop]; exact broken.early, by rw [stop]; exact broken.nonneg⟩

end

end Netbase.Sort
