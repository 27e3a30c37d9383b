import Mathlib
import Netbase.Sort.Column

/-!
# The bytes of a key

What a key selects is what its definition prescribes, exactly in the lines whose
columns the scan finds.
-/

namespace Netbase.Sort

open Netbase.Text

/-! ## The columns that are found -/

/-- The columns that the keys ask for: they increase, and those of the field are among them. -/
structure Asked (nums : List Nat) (field : Field) : Prop where
  increasing : nums.Pairwise (· < ·)
  positive : ∀ num ∈ nums, 0 < num
  covers : ∀ num ∈ field.columns, num ∈ nums

section

variable {delims : Delims} {mem : List Byte}

theorem entry_num {lineend : Int} (num : Nat) : (entry delims mem lineend num).num = num := by
  unfold entry
  split <;> rfl

theorem boundary_nonneg (none_ : delims.sep = none) (mem : List Byte) (k : Nat) :
    0 ≤ boundary delims mem (k + 1) := by
  have ge := boundary_ge delims mem k
  rw [boundary_succ, nextcol, if_pos none_]
  omega

theorem entry_start_ge (delims : Delims) (mem : List Byte) {lineend : Int}
    (positive : 0 ≤ lineend) (num : Nat) :
    -1 ≤ (entry delims mem lineend num).start ∧
      (1 < num → 0 ≤ (entry delims mem lineend num).start) := by
  have ge := boundary_ge delims mem (num - 1)
  unfold entry
  split
  · dsimp only
    split
    · next none_ =>
        refine ⟨ge, fun more => ?_⟩
        have nonneg := boundary_nonneg none_ mem (num - 2)
        rwa [show num - 2 + 1 = num - 1 by omega] at nonneg
    · omega
  · dsimp only
    omega

theorem entry_stop_le {lineend : Int} (num : Nat) :
    (entry delims mem lineend num).stop ≤ lineend := by
  unfold entry
  split
  · exact min_le_right _ _
  · exact Int.le_refl _

variable {nums : List Nat} {line : List Byte}

theorem fixFirst_map {lineend : Nat} (increasing : nums.Pairwise (· < ·))
    (positive : ∀ num ∈ nums, 0 < num) :
    fixFirst (nums.map (entry delims mem lineend)) = nums.map (found delims mem lineend) := by
  cases nums with
  | nil => rfl
  | cons first rest =>
      obtain ⟨ge, -⟩ := entry_start_ge delims mem
        (Int.natCast_nonneg lineend) first
      have counted := positive first List.mem_cons_self
      rw [List.map_cons, fixFirst, List.map_cons]
      congr 1
      · unfold found
        split
        · rw [max_eq_left (by omega), show (entry delims mem lineend first).start + 1 = 0 by omega]
        · rw [max_eq_right (by omega)]
      · refine List.map_congr_left fun other behind => ?_
        have later := List.rel_of_pairwise_cons increasing behind
        have inside := (entry_start_ge delims mem
          (Int.natCast_nonneg lineend) other).2 (by omega)
        rw [found, max_eq_right inside]

/-- The entry of a column in `clist`. -/
theorem lookup_enterCols {lineend : Nat} (increasing : nums.Pairwise (· < ·))
    (positive : ∀ num ∈ nums, 0 < num) {num : Nat} (member : num ∈ nums) :
    lookup (enterCols delims mem lineend nums) num = found delims mem lineend num := by
  have scan : scanClist delims mem lineend nums 1 (-1) = nums.map (entry delims mem lineend) :=
    scanClist_eq increasing 0 positive
  have same : (fun desc : Coldesc => decide (desc.num = num)) ∘ found delims mem lineend =
      fun other => decide (other = num) := funext fun other => by simp [found, entry_num]
  obtain ⟨front, rest, split, apart⟩ := List.eq_append_cons_of_mem member
  have first : nums.find? (fun other => decide (other = num)) = some num :=
    List.find?_eq_some_iff_append.mpr ⟨by simp, front, rest, split, fun other before => by
      simpa using fun same : other = num => apart (same ▸ before)⟩
  rw [lookup, enterCols, scan, fixFirst_map increasing positive, List.find?_map, same, first]
  rfl

/-! ## The bytes of a key -/

structure Line (delims : Delims) where
  bytes : List Byte
  clean : delims.REC_D ∉ bytes

/-- The lines whose columns the scan finds.  With a separator they hold no zero and no other byte
that is marked, which a newline can be, and zero is not the record delimiter; without one they
hold no zero behind a byte that is no blank, their delimiter included. -/
def Delims.Plain (delims : Delims) (line : List Byte) : Prop :=
  line = [] ∨
    match delims.sep with
    | some sep => delims.REC_D ≠ 0 ∧ ∀ c ∈ line, SepPlain delims sep c
    | none => (line ++ [delims.REC_D]).IsChain (Follows delims.blank)

def Delims.Selects (delims : Delims) (line : List Byte) : Prop :=
  ∀ behind nums field, Asked nums field →
    fieldText delims (line ++ delims.REC_D :: behind) line.length nums field =
      delims.prescribed line field

theorem sepColumn_le {sep : Byte} (m : Nat) (line : List Byte) :
    (sepColumn sep m line).1 ≤ line.length ∧ (sepColumn sep m line).2 ≤ line.length := by
  induction m generalizing line with
  | zero => exact ⟨Nat.zero_le _, (List.takeWhile_sublist _).length_le⟩
  | succ m ih =>
      by_cases there : sep ∈ line
      · obtain ⟨front, rest, rfl, apart⟩ := List.eq_append_cons_of_mem there
        obtain ⟨start, stop⟩ := ih rest
        rw [(sepColumn_append apart rest).2]
        simp
        omega
      · rw [(sepColumn_last there).2]
        exact ⟨Nat.le_refl _, Nat.le_refl _⟩

theorem blankColumn_le {blank : Byte → Bool} (m : Nat) (line : List Byte) :
    (blankColumn blank m line).1 ≤ line.length ∧ (blankColumn blank m line).2 ≤ line.length := by
  induction m generalizing line with
  | zero => exact ⟨Nat.zero_le _, Nat.sub_le _ _⟩
  | succ m ih =>
      have shorter : ((line.dropWhile blank).dropWhile (!blank ·)).length ≤ line.length :=
        ((List.dropWhile_sublist _).trans (List.dropWhile_sublist _)).length_le
      obtain ⟨start, stop⟩ := ih ((line.dropWhile blank).dropWhile (!blank ·))
      rw [blankColumn]
      dsimp only
      omega

theorem Delims.column_le (num : Nat) (line : List Byte) :
    (delims.column num line).1 ≤ line.length ∧ (delims.column num line).2 ≤ line.length := by
  unfold Delims.column
  split
  · exact sepColumn_le _ _
  · exact blankColumn_le _ _

theorem found_column {line behind : List Byte} (clean : delims.REC_D ∉ line)
    (plain : delims.Plain line) (nonempty : line ≠ []) {num : Nat} (counted : 0 < num) :
    found delims (line ++ delims.REC_D :: behind) line.length num =
      { num := num, start := (delims.column num line).1, stop := (delims.column num line).2 } := by
  obtain ⟨m, rfl⟩ : ∃ m, num = m + 1 := ⟨num - 1, by omega⟩
  have bytes := plain.resolve_left nonempty
  unfold found Delims.column
  rcases given : delims.sep with _ | sep
  · rw [given] at bytes
    rw [entry_blank given clean bytes]
    cases m with
    | zero => rfl
    | succ m => exact congrArg (Coldesc.mk _ · _) (max_eq_right (Int.natCast_nonneg _))
  · rw [given] at bytes
    rw [entry_sep given bytes.1 clean bytes.2]
    exact congrArg (Coldesc.mk _ · _) (max_eq_right (Int.natCast_nonneg _))

theorem exists_short (clean : delims.REC_D ∉ line) (wrong : ¬ delims.Plain line) :
    ∃ m, Short delims line [] (m + 1) := by
  have nonempty : line ≠ [] := fun nothing => wrong (Or.inl nothing)
  have bytes := fun right => wrong (Or.inr right)
  rcases given : delims.sep with _ | sep
  · rw [given] at bytes
    obtain ⟨m, short, nonneg⟩ := short_chain [] given clean bytes
    refine ⟨m, ?_⟩
    unfold Short Delims.column
    rw [given]
    exact ⟨short, Int.ofNat_lt.mp (nonneg.trans_lt short)⟩
  · rw [given] at bytes
    by_cases zero : 0 ∈ line ++ [delims.REC_D]
    · exact ⟨line.length, short_zero given nonempty zero⟩
    · have apart : 0 ∉ line ∧ delims.REC_D ≠ 0 := by simpa [eq_comm] using zero
      have marked : ∃ c ∈ line, (delims.d_mask c).field = true ∧ c ≠ sep := by
        by_contra none_
        push Not at none_
        exact bytes ⟨apart.2, fun c member =>
          ⟨fun same => apart.1 (same ▸ member), none_ c member⟩⟩
      obtain ⟨c, member, mark, other⟩ := marked
      obtain ⟨m, short, nonneg⟩ := short_mark [] given clean apart.1 member mark other
      refine ⟨m, ?_⟩
      unfold Short Delims.column
      rw [given]
      exact ⟨short, Int.ofNat_lt.mp (nonneg.trans_lt short)⟩

theorem blanksAt_line (delims : Delims) (behind : List Byte) {start : Nat}
    (inside : start ≤ line.length) :
    blanksAt delims (line ++ delims.REC_D :: behind) start =
      ((line.drop start).takeWhile fun c => (delims.d_mask c).blank).length := by
  have stop : (delims.d_mask delims.REC_D).blank = false := Delims.blank_record
  rw [blanksAt, Int.toNat_natCast, List.drop_append_of_le_length inside]
  generalize line.drop start = rest
  induction rest with
  | nil => simp [stop]
  | cons c rest ih =>
      rw [List.cons_append, List.takeWhile_cons, List.takeWhile_cons]
      split
      · rw [List.length_cons, List.length_cons, ih]
      · rfl

theorem span_inside (more : List Byte) {start stop : Int} (nonneg : 0 ≤ start)
    (first : start ≤ line.length) (last : stop ≤ line.length) :
    span (line ++ more) start stop = span line start stop := by
  rw [span, span, List.drop_append_of_le_length (by omega),
    List.take_append_of_le_length (by rw [List.length_drop]; omega)]

theorem fieldFirst_le (line : List Byte) (column : Column) (skip : Bool) :
    delims.fieldFirst line column skip ≤ line.length :=
  Nat.min_le_right _ _

theorem fieldEnd_le (line : List Byte) (field : Field) :
    delims.fieldEnd line field ≤ line.length := by
  unfold Delims.fieldEnd
  split <;> [skip; split]
  · exact Nat.le_refl _
  · exact fieldFirst_le _ _ _
  · exact (delims.column_le _ _).2

theorem place_eq {line behind : List Byte} {column : Column} {clist : List Coldesc} (skip : Bool)
    (start : (lookup clist column.num).start = (delims.column column.num line).1) :
    min ((if skip then (lookup clist column.num).start +
          blanksAt delims (line ++ delims.REC_D :: behind) (lookup clist column.num).start
        else (lookup clist column.num).start) + column.indent) (line.length : Int) =
      delims.fieldFirst line column skip := by
  have blanks := blanksAt_line delims behind (delims.column_le column.num line).1
  unfold Delims.fieldFirst
  rw [start, blanks]
  cases skip
  · simp only [Bool.false_eq_true, if_false]
    omega
  · simp only [if_true]
    omega

theorem selects_of_plain (clean : delims.REC_D ∉ line) (plain : delims.Plain line)
    (nonempty : line ≠ []) : delims.Selects line := by
  intro behind nums field asked
  have columns : ∀ num ∈ field.columns,
      lookup (enterCols delims (line ++ delims.REC_D :: behind) line.length nums) num =
        { num := num, start := (delims.column num line).1, stop := (delims.column num line).2 } :=
    fun num member => by
      have inside := asked.covers num member
      rw [lookup_enterCols asked.increasing asked.positive inside,
        found_column clean plain nonempty (asked.positive num inside)]
  have first : fieldStart delims (line ++ delims.REC_D :: behind) line.length
      (enterCols delims (line ++ delims.REC_D :: behind) line.length nums) field =
        delims.fieldFirst line field.icol field.flags.BI :=
    place_eq _ (by rw [columns _ (mem_columns.mpr (Or.inl rfl))])
  have last : fieldStop delims (line ++ delims.REC_D :: behind) line.length
      (enterCols delims (line ++ delims.REC_D :: behind) line.length nums) field =
        delims.fieldEnd line field := by
    unfold fieldStop Delims.fieldEnd
    by_cases none_ : field.tcol.num = 0
    · rw [if_pos none_, if_pos none_]
    · have column := columns _ (mem_columns.mpr (Or.inr ⟨none_, rfl⟩))
      rw [if_neg none_, if_neg none_]
      by_cases inner : field.tcol.indent ≠ 0
      · rw [if_pos inner, if_pos inner]
        exact place_eq _ (by rw [column])
      · rw [if_neg inner, if_neg inner, column]
  rw [fieldText, first, last, Delims.prescribed]
  exact span_inside _ (Int.natCast_nonneg _) (Int.ofNat_le.mpr (fieldFirst_le _ _ _))
    (Int.ofNat_le.mpr (fieldEnd_le _ _))

theorem found_start_ge (delims : Delims) (mem : List Byte) (lineend : Int) (num : Nat) :
    0 ≤ (found delims mem lineend num).start :=
  le_max_left _ _

theorem fieldStart_inside (delims : Delims) (mem : List Byte) (lineend : Nat) {field : Field}
    (asked : Asked nums field) :
    0 ≤ fieldStart delims mem lineend (enterCols delims mem lineend nums) field ∧
      fieldStart delims mem lineend (enterCols delims mem lineend nums) field ≤ lineend := by
  have ge := found_start_ge delims mem lineend field.icol.num
  rw [fieldStart, lookup_enterCols asked.increasing asked.positive
    (asked.covers _ (mem_columns.mpr (Or.inl rfl)))]
  refine ⟨le_min ?_ (Int.natCast_nonneg _), min_le_right _ _⟩
  split <;> omega

theorem fieldStop_le (delims : Delims) (mem : List Byte) (lineend : Nat) {field : Field}
    (asked : Asked nums field) :
    fieldStop delims mem lineend (enterCols delims mem lineend nums) field ≤ lineend := by
  unfold fieldStop
  split <;> [skip; split]
  · exact Int.le_refl _
  · exact min_le_right _ _
  · next none_ _ =>
      rw [lookup_enterCols asked.increasing asked.positive
        (asked.covers _ (mem_columns.mpr (Or.inr ⟨none_, rfl⟩)))]
      exact entry_stop_le _

theorem fieldText_sublist {line behind : List Byte} {field : Field} (asked : Asked nums field) :
    (fieldText delims (line ++ behind) line.length nums field).Sublist line := by
  obtain ⟨nonneg, inside⟩ := fieldStart_inside delims (line ++ behind) line.length asked
  rw [fieldText, span_inside behind nonneg inside (fieldStop_le delims _ _ asked)]
  exact (List.take_sublist _ _).trans (List.drop_sublist _ _)

/-! What stands behind the delimiter does not matter -/

theorem scanCol_record (front behind behind' : List Byte) :
    scanCol delims (front ++ delims.REC_D :: behind) =
      scanCol delims (front ++ delims.REC_D :: behind') := by
  induction front with
  | nil =>
      have stops : (delims.d_mask delims.REC_D).record = true := (delims.record_iff _).mpr rfl
      simp [scanCol, stops]
  | cons c front ih => rw [List.cons_append, List.cons_append, scanCol, scanCol, ih]

theorem takeWhile_record (front behind behind' : List Byte) :
    (front ++ delims.REC_D :: behind).takeWhile (fun c => (delims.d_mask c).blank) =
      (front ++ delims.REC_D :: behind').takeWhile fun c => (delims.d_mask c).blank := by
  have stop : (delims.d_mask delims.REC_D).blank = false := Delims.blank_record
  induction front with
  | nil => simp [stop]
  | cons c front ih =>
      rw [List.cons_append, List.cons_append, List.takeWhile_cons, List.takeWhile_cons, ih]

theorem nextcol_behind (line behind behind' : List Byte) {pos : Int} (inside : pos < line.length)
    (ge : -1 ≤ pos) :
    nextcol delims (line ++ delims.REC_D :: behind) pos =
        nextcol delims (line ++ delims.REC_D :: behind') pos ∨
      (line.length ≤ nextcol delims (line ++ delims.REC_D :: behind) pos ∧
        line.length ≤ nextcol delims (line ++ delims.REC_D :: behind') pos) := by
  have drop : ∀ (k : Nat) (more : List Byte), k ≤ line.length →
      (line ++ delims.REC_D :: more).drop k = line.drop k ++ delims.REC_D :: more :=
    fun k more le => List.drop_append_of_le_length le
  unfold nextcol
  dsimp only
  split
  · rw [drop (pos + 1).toNat behind (by omega), drop (pos + 1).toNat behind' (by omega),
      takeWhile_record (line.drop _) behind behind']
    generalize blanks_ : ((line.drop (pos + 1).toNat ++ delims.REC_D :: behind').takeWhile
      fun c => (delims.d_mask c).blank).length = blanks
    by_cases last : pos + 1 + blanks < line.length
    · rw [drop _ behind (by omega), drop _ behind' (by omega), scanCol_record _ behind behind']
      exact Or.inl rfl
    · exact Or.inr ⟨by omega, by omega⟩
  · rw [drop _ behind (by omega), drop _ behind' (by omega), scanCol_record _ behind behind']
    exact Or.inl rfl

theorem boundary_behind (delims : Delims) (line behind behind' : List Byte) (k : Nat) :
    boundary delims (line ++ delims.REC_D :: behind) k =
        boundary delims (line ++ delims.REC_D :: behind') k ∨
      (line.length ≤ boundary delims (line ++ delims.REC_D :: behind) k ∧
        line.length ≤ boundary delims (line ++ delims.REC_D :: behind') k) := by
  induction k with
  | zero => exact Or.inl rfl
  | succ k ih =>
      rw [boundary_succ, boundary_succ]
      rcases ih with same | ⟨beyond, beyond'⟩
      · rw [same]
        by_cases inside : boundary delims (line ++ delims.REC_D :: behind') k < line.length
        · exact nextcol_behind line behind behind' inside (boundary_ge _ _ k)
        · have far := Int.not_lt.mp inside
          exact Or.inr ⟨far.trans (nextcol_le _), far.trans (nextcol_le _)⟩
      · exact Or.inr ⟨beyond.trans (nextcol_le _), beyond'.trans (nextcol_le _)⟩

theorem found_behind (line behind behind' : List Byte) (num : Nat) :
    found delims (line ++ delims.REC_D :: behind) line.length num =
      found delims (line ++ delims.REC_D :: behind') line.length num := by
  have same : entry delims (line ++ delims.REC_D :: behind) line.length num =
      entry delims (line ++ delims.REC_D :: behind') line.length num := by
    unfold entry
    have first := boundary_behind delims line behind behind' (num - 1)
    have last : min (boundary delims (line ++ delims.REC_D :: behind) num) (line.length : Int) =
        min (boundary delims (line ++ delims.REC_D :: behind') num) line.length := by
      rcases boundary_behind delims line behind behind' num with same | ⟨far, far'⟩
      · rw [same]
      · rw [min_eq_right far, min_eq_right far']
    rcases first with same | ⟨far, far'⟩
    · rw [same, last]
    · rw [if_neg (by omega), if_neg (by omega)]
  rw [found, found, same]

theorem found_start_le (delims : Delims) (mem : List Byte) {lineend : Int} (positive : 0 ≤ lineend)
    (num : Nat) : (found delims mem lineend num).start ≤ lineend := by
  refine max_le positive ?_
  unfold entry
  split
  · dsimp only
    split <;> omega
  · exact Int.le_refl _

theorem field_behind (line behind behind' : List Byte) {field : Field} (asked : Asked nums field) :
    fieldStart delims (line ++ delims.REC_D :: behind) line.length
        (enterCols delims (line ++ delims.REC_D :: behind) line.length nums) field =
      fieldStart delims (line ++ delims.REC_D :: behind') line.length
        (enterCols delims (line ++ delims.REC_D :: behind') line.length nums) field ∧
    fieldStop delims (line ++ delims.REC_D :: behind) line.length
        (enterCols delims (line ++ delims.REC_D :: behind) line.length nums) field =
      fieldStop delims (line ++ delims.REC_D :: behind') line.length
        (enterCols delims (line ++ delims.REC_D :: behind') line.length nums) field := by
  have column : ∀ more, ∀ num ∈ field.columns,
      lookup (enterCols delims (line ++ delims.REC_D :: more) line.length nums) num =
        found delims (line ++ delims.REC_D :: behind) line.length num := fun more num member => by
    rw [lookup_enterCols asked.increasing asked.positive (asked.covers num member),
      found_behind line more behind]
  have blanks : ∀ num, blanksAt delims (line ++ delims.REC_D :: behind)
        (found delims (line ++ delims.REC_D :: behind) line.length num).start =
      blanksAt delims (line ++ delims.REC_D :: behind')
        (found delims (line ++ delims.REC_D :: behind) line.length num).start := fun num => by
    have nonneg := found_start_ge delims (line ++ delims.REC_D :: behind) line.length num
    have inside := found_start_le delims (line ++ delims.REC_D :: behind)
      (Int.natCast_nonneg line.length) num
    obtain ⟨start, place⟩ := Int.eq_ofNat_of_zero_le nonneg
    rw [place] at inside ⊢
    rw [blanksAt_line delims behind (Int.ofNat_le.mp inside),
      blanksAt_line delims behind' (Int.ofNat_le.mp inside)]
  have first := mem_columns.mpr (Or.inl (rfl : field.icol.num = field.icol.num))
  constructor
  · unfold fieldStart
    rw [column behind _ first, column behind' _ first]
    dsimp only
    rw [blanks]
  · unfold fieldStop
    by_cases none_ : field.tcol.num = 0
    · rw [if_pos none_, if_pos none_]
    · have last := mem_columns.mpr (Or.inr ⟨none_, (rfl : field.tcol.num = field.tcol.num)⟩)
      rw [if_neg none_, if_neg none_, column behind _ last, column behind' _ last]
      dsimp only
      rw [blanks]

theorem selects_nil : delims.Selects [] := by
  intro behind nums field asked
  rw [List.eq_nil_of_sublist_nil (fieldText_sublist asked), Delims.prescribed, span]
  simp

/-- The key from the first column to this one. -/
def upTo (m : Nat) : Field where
  icol := { num := 1, indent := 0 }
  tcol := { num := m + 1, indent := 0 }
  flags := {}
  numbered := Nat.one_pos

theorem upTo_asked (m : Nat) : Asked (List.range' 1 (m + 1)) (upTo m) where
  increasing := List.pairwise_lt_range'
  positive := fun num member => (List.mem_range'_1.mp member).1
  covers := fun num column => by
    rw [List.mem_range'_1]
    rcases mem_columns.mp column with rfl | ⟨-, rfl⟩
    · exact ⟨Nat.le_refl _, by simp [upTo]⟩
    · exact ⟨by simp [upTo], by simp [upTo]⟩

/-- A key up to a column that ends too early loses bytes. -/
theorem not_selects_of_short {m : Nat} (short : Short delims line [] (m + 1)) :
    ¬ delims.Selects line := by
  obtain ⟨early, positive⟩ := short
  intro selects
  have column : ∀ num ∈ (upTo m).columns, lookup (enterCols delims (line ++ [delims.REC_D])
      line.length (List.range' 1 (m + 1))) num = found delims (line ++ [delims.REC_D]) line.length num :=
    fun num member => lookup_enterCols (upTo_asked m).increasing (upTo_asked m).positive
      ((upTo_asked m).covers num member)
  have last : fieldStop delims (line ++ [delims.REC_D]) line.length
      (enterCols delims (line ++ [delims.REC_D]) line.length (List.range' 1 (m + 1))) (upTo m) =
        (entry delims (line ++ [delims.REC_D]) line.length (m + 1)).stop := by
    rw [fieldStop, if_neg (by simp [upTo]), if_neg (by simp [upTo]),
      column _ (mem_columns.mpr (Or.inr ⟨by simp [upTo], rfl⟩))]
    rfl
  have first : 0 ≤ fieldStart delims (line ++ [delims.REC_D]) line.length
      (enterCols delims (line ++ [delims.REC_D]) line.length (List.range' 1 (m + 1))) (upTo m) :=
    (fieldStart_inside _ _ _ (upTo_asked m)).1
  have start : delims.fieldFirst line (upTo m).icol (upTo m).flags.BI = 0 := by
    have zero : (delims.column 1 line).1 = 0 := by
      unfold Delims.column
      split <;> rfl
    rw [Delims.fieldFirst, show (upTo m).icol = { num := 1, indent := 0 } from rfl, zero]
    simp [upTo]
  have stop : delims.fieldEnd line (upTo m) = (delims.column (m + 1) line).2 := by
    simp [Delims.fieldEnd, upTo]
  have same := congrArg List.length (selects [] _ _ (upTo_asked m))
  have inside := (delims.column_le (m + 1) line).2
  rw [fieldText, last, Delims.prescribed, start, stop, span, span, List.length_take,
    List.length_take] at same
  simp only [Nat.cast_zero, Int.toNat_zero, List.drop_zero, Int.sub_zero, Int.toNat_natCast] at same
  omega

/-- Every key selects what its definition prescribes exactly in the plain lines. -/
theorem selects_iff (delims : Delims) (line : Line delims) :
    delims.Selects line.bytes ↔ delims.Plain line.bytes := by
  constructor
  · intro selects
    by_contra wrong
    obtain ⟨m, short⟩ := exists_short line.clean wrong
    exact not_selects_of_short short selects
  · intro plain
    by_cases nothing : line.bytes = []
    · rw [nothing]
      exact selects_nil
    · exact selects_of_plain line.clean plain nothing

end

/-- With `-t :`, nothing is selected in the first column of `a NUL b : c`. -/
theorem nul_in_column :
    ∃ delims, Delims.start.optT (byte ':') = .ok delims ∧
      fieldText delims (ascii ['a', '\x00', 'b', ':', 'c', '\n']) 5 [1] (upTo 0) = [] ∧
      delims.prescribed (ascii ['a', '\x00', 'b', ':', 'c']) (upTo 0) =
        ascii ['a', '\x00', 'b'] ∧
      ¬ ∀ line : Line delims, delims.Selects line.bytes := by
  refine ⟨_, rfl, by decide +kernel, by decide +kernel, fun all => ?_⟩
  have selected := all ⟨ascii ['a', '\x00', 'b', ':', 'c'], by decide⟩ [] [1] (upTo 0) (upTo_asked 0)
  exact absurd selected (by decide +kernel)

end Netbase.Sort
