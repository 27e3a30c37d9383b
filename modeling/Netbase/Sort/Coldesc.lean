import Mathlib.Data.List.TakeWhile
import Mathlib.Data.List.Pairwise
import Mathlib.Tactic.Tauto
import Netbase.Sort.Field

/-!
# The list of columns

`insertcol` keeps the columns that the keys use in `clist`, in increasing order,
and `fldreset` finds every column of a key there again.  Behind the columns in use
`enterkey` needs one more entry.  Every call allocates two entries more than were in
use before it and clears one of them.
-/

namespace Netbase.Sort

open Netbase.Text

/-- The entries that are allocated, of which the first `ncols` are in use; an entry that was never
written is `none`. -/
structure Clist where
  entries : List (Option Nat)
  ncols : Nat
  deriving DecidableEq, Repr

namespace Clist

inductive Fault where
  | uninitialized
  | outside
  deriving DecidableEq, Repr

/-- `clist[i].num` -/
def num (clist : Clist) (i : Nat) : Except Fault Nat :=
  match clist.entries[i]? with
  | none => .error .outside
  | some none => .error .uninitialized
  | some (some num) => .ok num

/-- `realloc`; what is new was never written. -/
def realloc (clist : Clist) (count : Nat) : Clist :=
  { clist with
    entries := clist.entries.take count ++ List.replicate (count - clist.entries.length) none }

/-- `for (i = 0; i < ncols; i++) if (column <= clist[i].num) break;` -/
def place (clist : Clist) (column : Nat) : Nat → Nat → Except Fault Nat
  | 0, i => .ok i
  | left + 1, i =>
      match clist.num i with
      | .error fault => .error fault
      | .ok num => if column ≤ num then .ok i else clist.place column left (i + 1)

/-- Move the entries from `i` on up by one, and store a column at `i`. -/
def insertAt (clist : Clist) (i column : Nat) : Except Fault Clist :=
  if clist.ncols < clist.entries.length then
    .ok
      { entries := clist.entries.take i ++ some column ::
          ((clist.entries.drop i).take (clist.ncols - i) ++ clist.entries.drop (clist.ncols + 1))
        ncols := clist.ncols + 1 }
  else .error .outside

def enter (clist : Clist) (column : Nat) : Except Fault Clist :=
  match clist.place column clist.ncols 0 with
  | .error fault => .error fault
  | .ok i =>
      match clist.num i with
      | .error fault => .error fault
      | .ok num => if column ≠ num then clist.insertAt i column else .ok clist

/-- `insertcol` -/
def insertcol (clist : Clist) (field : Field) : Except Fault Clist :=
  let clist := clist.realloc (clist.ncols + 2)
  let clist := { clist with entries := clist.entries.set clist.ncols (some 0) }
  match clist.enter field.icol.num with
  | .error fault => .error fault
  | .ok clist =>
      if field.tcol.num ≠ 0 ∧ field.tcol.num ≠ field.icol.num then clist.enter field.tcol.num
      else .ok clist

/-- The columns of all keys, from an empty list on. -/
def insertcols (fields : List Field) : Except Fault Clist :=
  fields.foldlM insertcol { entries := [], ncols := 0 }

/-- A linear search of `fldreset`, which has no bound of its own. -/
def search (clist : Clist) (column : Nat) : Nat → Nat → Except Fault Nat
  | 0, _ => .error .outside
  | fuel + 1, i =>
      match clist.num i with
      | .error fault => .error fault
      | .ok num => if column ≠ num then clist.search column fuel (i + 1) else .ok i

/-- Where `fldreset` finds a column. -/
def find (clist : Clist) (column : Nat) : Except Fault Nat :=
  clist.search column (clist.entries.length + 1) 0

end Clist

/-! ## What the keys ask for -/

/-- The columns of a key. -/
def Field.columns (field : Field) : List Nat :=
  field.icol.num :: if field.tcol.num = 0 then [] else [field.tcol.num]

/-- The columns of the keys. -/
def columns (fields : List Field) : List Nat := fields.flatMap Field.columns

/-- Both columns of a key are new. -/
def TwoNew (old : List Nat) (field : Field) : Prop :=
  field.icol.num ∉ old ∧ field.tcol.num ≠ 0 ∧ field.tcol.num ≠ field.icol.num ∧
    field.tcol.num ∉ old

/-- Both are new, and the last column of the key comes behind all others. -/
def Uncleared (old : List Nat) (field : Field) : Prop :=
  TwoNew old field ∧ field.icol.num < field.tcol.num ∧ ∀ column ∈ old, column < field.tcol.num

/-- The entries in use hold these columns, and `spare` are the others. -/
structure Holds (nums : List Nat) (spare : List (Option Nat)) (clist : Clist) : Prop where
  entries : clist.entries = nums.map some ++ spare
  ncols : clist.ncols = nums.length
  increasing : nums.Pairwise (· < ·)

/-- The list of columns serves the keys: the columns in use increase, every column of a key is
found among them, and one more entry is there. -/
structure Serves (fields : List Field) (clist : Clist) : Prop where
  holds : ∃ nums spare, Holds nums spare clist ∧ ∀ column ∈ columns fields, column ∈ nums
  found : ∀ column ∈ columns fields, ∃ i, clist.find column = .ok i ∧ i < clist.ncols
  sentinel : clist.ncols < clist.entries.length

/-! ## Inserting a column -/

section

variable {nums : List Nat} {spare : List (Option Nat)} {clist : Clist} {column : Nat}

/-- The columns in use with one more put in its place. -/
def merged (column : Nat) (nums : List Nat) : List Nat :=
  nums.takeWhile (· < column) ++ column :: nums.dropWhile (· < column)

theorem mem_merged {other : Nat} : other ∈ merged column nums ↔ other = column ∨ other ∈ nums := by
  have split := List.takeWhile_append_dropWhile (p := fun num => decide (num < column)) (l := nums)
  have parts : other ∈ nums ↔ other ∈ nums.takeWhile (fun num => decide (num < column)) ∨
      other ∈ nums.dropWhile (fun num => decide (num < column)) := by
    rw [← List.mem_append, split]
  rw [merged, List.mem_append, List.mem_cons, parts]
  tauto

theorem length_merged : (merged column nums).length = nums.length + 1 := by
  have split := congrArg List.length
    (List.takeWhile_append_dropWhile (p := fun num => decide (num < column)) (l := nums))
  rw [List.length_append] at split
  rw [merged, List.length_append, List.length_cons]
  omega

theorem above_of_dropWhile (increasing : nums.Pairwise (· < ·)) {other : Nat}
    (member : other ∈ nums.dropWhile (· < column)) : column ≤ other := by
  induction nums with
  | nil => cases member
  | cons num nums ih =>
      rw [List.dropWhile_cons] at member
      split at member
      · exact ih increasing.of_cons member
      · next above =>
          have here : column ≤ num := by simpa using above
          rcases List.mem_cons.mp member with rfl | later
          · exact here
          · exact here.trans (List.rel_of_pairwise_cons increasing later).le

theorem merged_increasing (increasing : nums.Pairwise (· < ·)) (new : column ∉ nums) :
    (merged column nums).Pairwise (· < ·) := by
  have low : ∀ other ∈ nums.takeWhile (· < column), other < column := fun other member => by
    simpa using List.mem_takeWhile_imp member
  have high : ∀ other ∈ nums.dropWhile (· < column), column < other := fun other member =>
    lt_of_le_of_ne (above_of_dropWhile increasing member) fun same =>
      new (same ▸ (List.dropWhile_sublist _).subset member)
  rw [merged, List.pairwise_append, List.pairwise_cons]
  refine ⟨increasing.sublist (List.takeWhile_sublist _),
    ⟨high, increasing.sublist (List.dropWhile_sublist _)⟩, fun first lower second upper => ?_⟩
  rcases List.mem_cons.mp upper with rfl | above
  · exact low first lower
  · exact (low first lower).trans (high second above)

theorem Holds.num (holds : Holds nums spare clist) {i num : Nat} (found : nums[i]? = some num) :
    clist.num i = .ok num := by
  have inside := (List.getElem?_eq_some_iff.mp found).1
  rw [Clist.num, holds.entries, List.getElem?_append_left (by simpa using inside),
    List.getElem?_map, found]
  rfl

variable {first : Option Nat} {rest : List (Option Nat)}

theorem Holds.num_spare (holds : Holds nums (first :: rest) clist) :
    clist.num nums.length = match first with
      | none => .error .uninitialized
      | some num => .ok num := by
  rw [Clist.num, holds.entries, List.getElem?_append_right (by simp), List.length_map,
    Nat.sub_self]
  cases first <;> rfl

theorem Holds.place (holds : Holds nums spare clist) (column : Nat) :
    clist.place column clist.ncols 0 = .ok (nums.takeWhile (· < column)).length := by
  have run : ∀ front back : List Nat, nums = front ++ back →
      clist.place column back.length front.length =
        .ok (front.length + (back.takeWhile (· < column)).length) := by
    intro front back
    induction back generalizing front with
    | nil => exact fun _ => rfl
    | cons num back ih =>
        intro split
        have here : clist.num front.length = .ok num := holds.num (by simp [split])
        rw [List.length_cons, Clist.place, here]
        by_cases less : num < column
        · have rest := ih (front ++ [num]) (by simpa using split)
          rw [List.length_append, List.length_singleton] at rest
          simp only [if_neg (Nat.not_le.mpr less), rest, List.takeWhile_cons, less, decide_true,
            if_true, List.length_cons]
          congr 1
          omega
        · simp [less, Nat.le_of_not_lt less]
  have whole := run [] nums rfl
  rw [holds.ncols]
  simpa using whole

theorem Holds.insertAt (holds : Holds nums (first :: rest) clist) (new : column ∉ nums) :
    ∃ more, clist.insertAt (nums.takeWhile (· < column)).length column = .ok more ∧
      Holds (merged column nums) rest more := by
  have split := List.takeWhile_append_dropWhile (p := fun num => decide (num < column)) (l := nums)
  have lengths := congrArg List.length split
  rw [List.length_append] at lengths
  have room : clist.ncols < clist.entries.length := by
    rw [holds.entries, holds.ncols]
    simp
  have entries : clist.entries =
      (nums.takeWhile (· < column)).map some ++ ((nums.dropWhile (· < column)).map some ++
        first :: rest) := by
    rw [holds.entries, ← List.append_assoc, ← List.map_append, split]
  refine ⟨_, if_pos room, ⟨?_, ?_, merged_increasing holds.increasing new⟩⟩
  · have behind : clist.entries.drop (clist.ncols + 1) = rest := by
      rw [holds.entries, holds.ncols]
      simp [List.drop_append]
    have count : clist.ncols - (nums.takeWhile (· < column)).length =
        ((nums.dropWhile (· < column)).map some).length := by
      rw [holds.ncols, List.length_map]
      omega
    dsimp only
    rw [behind, count, entries, List.take_left' (by simp), List.drop_left' (by simp),
      List.take_left' rfl]
    simp [merged]
  · rw [length_merged, ← holds.ncols]

theorem Holds.enter_old (holds : Holds nums spare clist) (old : column ∈ nums) :
    clist.enter column = .ok clist := by
  have split := List.takeWhile_append_dropWhile (p := fun num => decide (num < column)) (l := nums)
  have above : column ∈ nums.dropWhile (· < column) := by
    rw [← split, List.mem_append] at old
    rcases old with low | high
    · exact absurd (List.mem_takeWhile_imp low) (by simp)
    · exact high
  obtain ⟨head, tail, found⟩ := List.exists_cons_of_ne_nil (List.ne_nil_of_mem above)
  have same : head = column := by
    have low : column ≤ head := above_of_dropWhile holds.increasing (found ▸ List.mem_cons_self)
    have tails := holds.increasing.sublist (List.dropWhile_sublist (fun num => decide (num < column)))
    rw [found] at above tails
    rcases List.mem_cons.mp above with rfl | later
    · rfl
    · exact Nat.le_antisymm (List.rel_of_pairwise_cons tails later).le low
  have read : nums[(nums.takeWhile (· < column)).length]? = some column := by
    have here := congrArg (·[(nums.takeWhile (· < column)).length]?) split
    rw [← here, List.getElem?_append_right (Nat.le_refl _), Nat.sub_self, found, same]
    rfl
  rw [Clist.enter, holds.place]
  dsimp only
  rw [holds.num read]
  simp

theorem Holds.enter_inside (holds : Holds nums (first :: rest) clist) (new : column ∉ nums)
    (below : ∃ other ∈ nums, column < other) :
    ∃ more, clist.enter column = .ok more ∧ Holds (merged column nums) rest more := by
  obtain ⟨more, inserted, after⟩ := holds.insertAt new
  have inside : (nums.takeWhile (· < column)).length < nums.length := by
    refine lt_of_le_of_ne (List.takeWhile_sublist _).length_le fun whole => ?_
    obtain ⟨other, member, less⟩ := below
    have all := (List.takeWhile_sublist (fun num => decide (num < column))).eq_of_length whole
    rw [← all] at member
    have := List.mem_takeWhile_imp member
    simp at this
    omega
  have read := List.getElem?_eq_getElem inside
  have differ : column ≠ nums[(nums.takeWhile (· < column)).length] := fun same => by
    rw [same] at new
    exact new (List.getElem_mem _)
  refine ⟨more, ?_, after⟩
  rw [Clist.enter, holds.place]
  dsimp only
  rw [holds.num read]
  dsimp only
  rw [if_pos differ, inserted]

theorem Holds.enter_behind (holds : Holds nums (first :: rest) clist)
    (above : ∀ other ∈ nums, other < column) :
    (first = none → clist.enter column = .error .uninitialized) ∧
      ∀ num, first = some num → num ≠ column →
        ∃ more, clist.enter column = .ok more ∧ Holds (merged column nums) rest more := by
  have new : column ∉ nums := fun member => Nat.lt_irrefl _ (above column member)
  have whole : nums.takeWhile (· < column) = nums :=
    List.takeWhile_eq_self_iff.mpr fun other member => by simpa using above other member
  obtain ⟨more, inserted, after⟩ := holds.insertAt new
  rw [whole] at inserted
  have read := holds.num_spare
  constructor
  · rintro rfl
    rw [Clist.enter, holds.place]
    dsimp only
    rw [whole, read]
  · rintro num rfl differ
    refine ⟨more, ?_, after⟩
    rw [Clist.enter, holds.place]
    dsimp only
    rw [whole, read]
    dsimp only
    rw [if_pos (Ne.symm differ), inserted]

end

/-! ## One key -/

section

variable {nums : List Nat} {spare : List (Option Nat)} {clist : Clist}

/-- The entries behind those in use: of two the first was cleared, and none was written. -/
def Spare (spare : List (Option Nat)) : Prop :=
  spare = [some 0, none] ∨ spare = [none] ∨ spare = []

theorem Holds.enter_cleared {column : Nat} {rest : List (Option Nat)}
    (holds : Holds nums (some 0 :: rest) clist) (positive : 0 < column) (new : column ∉ nums) :
    ∃ more, clist.enter column = .ok more ∧ Holds (merged column nums) rest more := by
  by_cases below : ∃ other ∈ nums, column < other
  · exact holds.enter_inside new below
  · refine (holds.enter_behind fun other member => ?_).2 0 rfl positive.ne
    by_contra above
    exact below ⟨other, member, lt_of_le_of_ne (Nat.le_of_not_lt above) fun same => new (same ▸ member)⟩

/-- The list as the next call prepares it. -/
def Clist.prepared (clist : Clist) : Clist :=
  { clist.realloc (clist.ncols + 2) with
    entries := (clist.realloc (clist.ncols + 2)).entries.set clist.ncols (some 0) }

theorem Holds.prepared (holds : Holds nums spare clist) (shape : Spare spare) :
    Holds nums [some 0, none] clist.prepared := by
  refine ⟨?_, holds.ncols, holds.increasing⟩
  have front : (nums.map some).length = clist.ncols := by rw [List.length_map, holds.ncols]
  have allocated : (clist.realloc (clist.ncols + 2)).entries =
      nums.map some ++ (spare.take 2 ++ List.replicate (2 - spare.length) none) := by
    unfold Clist.realloc
    dsimp only
    rw [holds.entries, ← front, List.take_length_add_append, List.length_append,
      Nat.add_sub_add_left, List.append_assoc]
  unfold Clist.prepared
  dsimp only
  rw [allocated, ← front, List.set_append_right _ _ (Nat.le_refl _), Nat.sub_self]
  rcases shape with rfl | rfl | rfl <;> rfl

theorem insertcol_eq (clist : Clist) (field : Field) :
    clist.insertcol field =
      match clist.prepared.enter field.icol.num with
      | .error fault => .error fault
      | .ok clist =>
          if field.tcol.num ≠ 0 ∧ field.tcol.num ≠ field.icol.num then
            clist.enter field.tcol.num
          else .ok clist := rfl

theorem mem_columns {field : Field} {column : Nat} :
    column ∈ field.columns ↔
      column = field.icol.num ∨ field.tcol.num ≠ 0 ∧ column = field.tcol.num := by
  unfold Field.columns
  split <;> simp [*]

/-- A call fails where it compares an entry that it did not clear, and else inserts both columns;
no entry is left over where both are new. -/
theorem Holds.insertcol (holds : Holds nums spare clist) (shape : Spare spare) (field : Field) :
    (Uncleared nums field → clist.insertcol field = .error .uninitialized) ∧
      (¬ Uncleared nums field → ∃ more nums' spare', clist.insertcol field = .ok more ∧
        Holds nums' spare' more ∧ Spare spare' ∧
        (∀ column, column ∈ nums' ↔ column ∈ nums ∨ column ∈ field.columns) ∧
        (spare' = [] ↔ TwoNew nums field)) := by
  have prepared := holds.prepared shape
  rw [insertcol_eq]
  by_cases old : field.icol.num ∈ nums
  · have notTwo : ¬ TwoNew nums field := fun two => two.1 old
    rw [prepared.enter_old old]
    dsimp only
    refine ⟨fun uncleared => absurd uncleared.1 notTwo, fun _ => ?_⟩
    by_cases asked : field.tcol.num ≠ 0 ∧ field.tcol.num ≠ field.icol.num
    · rw [if_pos asked]
      by_cases oldLast : field.tcol.num ∈ nums
      · refine ⟨_, nums, _, prepared.enter_old oldLast, prepared, Or.inl rfl, fun column => ?_,
          by simp [notTwo]⟩
        rw [mem_columns]
        constructor
        · exact Or.inl
        · rintro (there | rfl | ⟨-, rfl⟩) <;> assumption
      · obtain ⟨more, entered, after⟩ :=
          prepared.enter_cleared (Nat.pos_of_ne_zero asked.1) oldLast
        refine ⟨more, _, _, entered, after, Or.inr (Or.inl rfl), fun column => ?_, by simp [notTwo]⟩
        rw [mem_merged, mem_columns]
        constructor
        · rintro (rfl | there)
          · exact Or.inr (Or.inr ⟨asked.1, rfl⟩)
          · exact Or.inl there
        · rintro (there | rfl | ⟨-, rfl⟩)
          · exact Or.inr there
          · exact Or.inr old
          · exact Or.inl rfl
    · rw [if_neg asked]
      refine ⟨_, nums, _, rfl, prepared, Or.inl rfl, fun column => ?_, by simp [notTwo]⟩
      rw [mem_columns]
      constructor
      · exact Or.inl
      · rintro (there | rfl | ⟨nonzero, rfl⟩)
        · exact there
        · exact old
        · rw [not_and_not_right.mp asked nonzero]
          exact old
  · obtain ⟨first, entered, middle⟩ := prepared.enter_cleared field.numbered old
    rw [entered]
    dsimp only
    by_cases asked : field.tcol.num ≠ 0 ∧ field.tcol.num ≠ field.icol.num
    · rw [if_pos asked]
      by_cases oldLast : field.tcol.num ∈ nums
      · have notTwo : ¬ TwoNew nums field := fun two => two.2.2.2 oldLast
        refine ⟨fun uncleared => absurd uncleared.1 notTwo, fun _ => ?_⟩
        refine ⟨_, _, _, middle.enter_old (mem_merged.mpr (Or.inr oldLast)), middle,
          Or.inr (Or.inl rfl), fun column => ?_, by simp [notTwo]⟩
        rw [mem_merged, mem_columns]
        constructor
        · rintro (rfl | there)
          · exact Or.inr (Or.inl rfl)
          · exact Or.inl there
        · rintro (there | rfl | ⟨-, rfl⟩)
          · exact Or.inr there
          · exact Or.inl rfl
          · exact Or.inr oldLast
      · have two : TwoNew nums field := ⟨old, asked.1, asked.2, oldLast⟩
        have new : field.tcol.num ∉ merged field.icol.num nums := fun member =>
          (mem_merged.mp member).elim asked.2 oldLast
        constructor
        · intro uncleared
          refine (middle.enter_behind fun other member => ?_).1 rfl
          rcases mem_merged.mp member with rfl | there
          · exact uncleared.2.1
          · exact uncleared.2.2 other there
        · intro cleared
          have below : ∃ other ∈ merged field.icol.num nums, field.tcol.num < other := by
            by_contra none_
            have above : ∀ other ∈ merged field.icol.num nums, other < field.tcol.num :=
              fun other member => lt_of_le_of_ne
                (Nat.le_of_not_lt fun less => none_ ⟨other, member, less⟩)
                fun same => new (same ▸ member)
            exact cleared ⟨two, above _ (mem_merged.mpr (Or.inl rfl)),
              fun other there => above other (mem_merged.mpr (Or.inr there))⟩
          obtain ⟨more, last, after⟩ := middle.enter_inside new below
          refine ⟨more, _, _, last, after, Or.inr (Or.inr rfl), fun column => ?_, by simp [two]⟩
          rw [mem_merged, mem_merged, mem_columns]
          constructor
          · rintro (rfl | rfl | there)
            · exact Or.inr (Or.inr ⟨asked.1, rfl⟩)
            · exact Or.inr (Or.inl rfl)
            · exact Or.inl there
          · rintro (there | rfl | ⟨-, rfl⟩)
            · exact Or.inr (Or.inr there)
            · exact Or.inr (Or.inl rfl)
            · exact Or.inl rfl
    · rw [if_neg asked]
      have notTwo : ¬ TwoNew nums field := fun two => asked ⟨two.2.1, two.2.2.1⟩
      refine ⟨fun uncleared => absurd uncleared.1 notTwo, fun _ => ?_⟩
      refine ⟨_, _, _, rfl, middle, Or.inr (Or.inl rfl), fun column => ?_, by simp [notTwo]⟩
      rw [mem_merged, mem_columns]
      constructor
      · rintro (rfl | there)
        · exact Or.inr (Or.inl rfl)
        · exact Or.inl there
      · rintro (there | rfl | ⟨nonzero, rfl⟩)
        · exact Or.inr there
        · exact Or.inl rfl
        · exact Or.inl (not_and_not_right.mp asked nonzero)

end

/-! ## All keys -/

/-- No key is compared with an entry that was never written. -/
def Cleared (fields : List Field) : Prop :=
  ∀ before field after, fields = before ++ field :: after → ¬ Uncleared (columns before) field

/-- No key is compared with an entry that was never written, and the last does not bring two new
columns. -/
structure Roomy (fields : List Field) : Prop where
  cleared : Cleared fields
  last : ∀ before field, fields = before ++ [field] → ¬ TwoNew (columns before) field

section

variable {nums old : List Nat} {field : Field}

theorem twoNew_congr (same : ∀ column, column ∈ nums ↔ column ∈ old) :
    TwoNew nums field ↔ TwoNew old field := by
  simp only [TwoNew, same]

theorem uncleared_congr (same : ∀ column, column ∈ nums ↔ column ∈ old) :
    Uncleared nums field ↔ Uncleared old field := by
  simp only [Uncleared, twoNew_congr same, same]

theorem columns_append (fields more : List Field) :
    columns (fields ++ more) = columns fields ++ columns more := List.flatMap_append

theorem cleared_append {fields : List Field} :
    Cleared (fields ++ [field]) ↔ Cleared fields ∧ ¬ Uncleared (columns fields) field := by
  constructor
  · refine fun cleared => ⟨fun before other after split => ?_, cleared fields field [] rfl⟩
    exact cleared before other (after ++ [field]) (by simp [split])
  · rintro ⟨earlier, last⟩ before other after split
    rcases List.eq_nil_or_concat after with rfl | ⟨init, final, rfl⟩
    · obtain ⟨rfl, same⟩ := List.append_inj' split rfl
      rw [List.singleton_inj] at same
      exact same ▸ last
    · refine earlier before other init ?_
      have whole : fields ++ [field] = (before ++ other :: init) ++ [final] := by simp [split]
      exact (List.append_inj' whole rfl).1

end

theorem insertcols_append (fields : List Field) (field : Field) :
    Clist.insertcols (fields ++ [field]) =
      match Clist.insertcols fields with
      | .error fault => .error fault
      | .ok clist => clist.insertcol field := by
  unfold Clist.insertcols
  rw [List.foldlM_append]
  cases fields.foldlM Clist.insertcol { entries := [], ncols := 0 } with
  | error fault => rfl
  | ok clist => exact bind_pure (clist.insertcol field)

/-- What is known of the list when some keys have been inserted. -/
structure Inserted (fields : List Field) (clist : Clist) (nums : List Nat)
    (spare : List (Option Nat)) : Prop where
  holds : Holds nums spare clist
  shape : Spare spare
  same : ∀ column, column ∈ nums ↔ column ∈ columns fields
  full : ∀ before last, fields = before ++ [last] → (spare = [] ↔ TwoNew (columns before) last)

/-- The calls for all keys succeed exactly when none is compared with an entry that was never
written. -/
theorem insertcols_inserted (fields : List Field) :
    (Cleared fields → ∃ clist nums spare, Clist.insertcols fields = .ok clist ∧
      Inserted fields clist nums spare) ∧
      (¬ Cleared fields → ∃ fault, Clist.insertcols fields = .error fault) := by
  induction fields using List.reverseRecOn with
  | nil =>
      refine ⟨fun _ => ⟨_, [], [], rfl, ⟨rfl, rfl, List.Pairwise.nil⟩, Or.inr (Or.inr rfl),
        by simp [columns], fun before last split => by simp at split⟩, fun uncleared => ?_⟩
      refine absurd (fun before field after split => ?_) uncleared
      simp at split
  | append_singleton fields field ih =>
      rw [insertcols_append, cleared_append]
      by_cases cleared : Cleared fields
      · obtain ⟨clist, nums, spare, run, inserted⟩ := ih.1 cleared
        obtain ⟨fails, succeeds⟩ := inserted.holds.insertcol inserted.shape field
        rw [run]
        dsimp only
        rw [uncleared_congr inserted.same] at fails succeeds
        constructor
        · rintro ⟨-, last⟩
          obtain ⟨more, nums', spare', entered, holds, shape, members, full⟩ := succeeds last
          refine ⟨more, nums', spare', entered, holds, shape, fun column => ?_,
            fun before other split => ?_⟩
          · rw [members, inserted.same, columns_append, List.mem_append]
            simp [columns]
          · obtain ⟨rfl, same⟩ := List.append_inj' split rfl
            rw [List.singleton_inj] at same
            rw [full, twoNew_congr inserted.same, same]
        · intro not_
          exact ⟨_, fails (not_and_not_right.mp not_ cleared)⟩
      · obtain ⟨fault, run⟩ := ih.2 cleared
        rw [run]
        exact ⟨fun both => absurd both.1 cleared, fun _ => ⟨fault, rfl⟩⟩

theorem Holds.find {nums : List Nat} {spare : List (Option Nat)} {clist : Clist}
    (holds : Holds nums spare clist) {column : Nat} (member : column ∈ nums) :
    ∃ i, clist.find column = .ok i ∧ i < clist.ncols := by
  obtain ⟨i, inside, here⟩ := List.mem_iff_getElem.mp member
  have run : ∀ fuel k, k ≤ i → i - k < fuel → clist.search column fuel k = .ok i := by
    intro fuel
    induction fuel with
    | zero => exact fun k _ none_ => absurd none_ (Nat.not_lt_zero _)
    | succ fuel ih =>
        intro k before enough
        have read := holds.num (List.getElem?_eq_getElem (show k < nums.length by omega))
        rw [Clist.search, read]
        dsimp only
        by_cases there : k = i
        · subst there
          rw [if_neg (by simp [here])]
        · have less : nums[k] < nums[i] :=
            List.pairwise_iff_getElem.mp holds.increasing k i (by omega) inside (by omega)
          rw [if_pos (by omega)]
          exact ih (k + 1) (by omega) (by omega)
  have length : clist.entries.length = nums.length + spare.length := by
    rw [holds.entries, List.length_append, List.length_map]
  exact ⟨i, run _ 0 (Nat.zero_le i) (by omega), by rw [holds.ncols]; exact inside⟩

/--
After all keys have been inserted the list of columns serves them, exactly when no
key brought two new columns of which the second lies behind all others, and the last
key did not bring two new columns.
-/
theorem insertcols_serves_iff (first : Field) (rest : List Field) :
    (∃ clist, Clist.insertcols (first :: rest) = .ok clist ∧ Serves (first :: rest) clist) ↔
      Roomy (first :: rest) := by
  generalize fields_ : first :: rest = fields
  obtain ⟨before, last, split⟩ : ∃ before last, fields = before ++ [last] := by
    rcases List.eq_nil_or_concat fields with none_ | ⟨before, last, split⟩
    · simp [none_] at fields_
    · exact ⟨before, last, by simpa using split⟩
  obtain ⟨succeeds, fails⟩ := insertcols_inserted fields
  constructor
  · rintro ⟨clist, run, serves⟩
    have cleared : Cleared fields := by
      by_contra not_
      obtain ⟨fault, stop⟩ := fails not_
      rw [run] at stop
      cases stop
    refine ⟨cleared, fun init final ends two => ?_⟩
    obtain ⟨clist', nums, spare, run', inserted⟩ := succeeds cleared
    rw [run, Except.ok.injEq] at run'
    subst run'
    have none_ := (inserted.full init final ends).mpr two
    have room := serves.sentinel
    rw [inserted.holds.entries, inserted.holds.ncols, none_, List.append_nil, List.length_map] at room
    exact Nat.lt_irrefl _ room
  · intro roomy
    obtain ⟨clist, nums, spare, run, inserted⟩ := succeeds roomy.cleared
    have some_ : spare ≠ [] := fun none_ =>
      roomy.last before last split ((inserted.full before last split).mp none_)
    refine ⟨clist, run, ⟨nums, spare, inserted.holds, fun column member =>
      (inserted.same column).mpr member⟩, fun column member =>
      inserted.holds.find ((inserted.same column).mpr member), ?_⟩
    rw [inserted.holds.entries, inserted.holds.ncols, List.length_append, List.length_map]
    exact Nat.lt_add_of_pos_right (List.length_pos_iff.mpr some_)

/-- The keys of `-k 3 -k 1,2`. -/
def keyThree : Field := { icol := ⟨3, 0⟩, tcol := ⟨0, 0⟩, flags := {}, numbered := by decide }

def keyOneTwo : Field := { icol := ⟨1, 0⟩, tcol := ⟨2, 0⟩, flags := {}, numbered := by decide }

/-- The last key brings two columns, and the entry behind the three in use is not allocated. -/
theorem insertcols_overfull :
    setfield {} false (ascii ['3']) = .ok keyThree ∧
      setfield {} false (ascii ['1', ',', '2']) = .ok keyOneTwo ∧
      Clist.insertcols [keyThree, keyOneTwo] = .ok { entries := [some 1, some 2, some 3], ncols := 3 } ∧
      ¬ ∃ clist, Clist.insertcols [keyThree, keyOneTwo] = .ok clist ∧
        Serves [keyThree, keyOneTwo] clist := by
  have run : Clist.insertcols [keyThree, keyOneTwo] =
      .ok { entries := [some 1, some 2, some 3], ncols := 3 } := by decide +kernel
  refine ⟨by decide +kernel, by decide +kernel, run, ?_⟩
  rintro ⟨clist, same, serves⟩
  rw [run, Except.ok.injEq] at same
  subst same
  exact Nat.lt_irrefl 3 serves.sentinel

end Netbase.Sort
