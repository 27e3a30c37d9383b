import Mathlib
import Netbase.Sort.Order
import Netbase.Sort.Select
import Netbase.Sort.Weight

/-!
# Sort keys

`enterkey` writes the keys of a line one behind the other, each by `enterfield`, and
the line behind them.  Text keys compare as their fields, field by field.
-/

namespace Netbase.Sort

open Netbase.Lib Netbase.Text

/-! ## Entering keys -/

/-- A record in a buffer; `data` are its key and its line. -/
structure Recheader where
  length : Nat
  offset : Nat
  keylen : Nat
  data : List Byte
  deriving DecidableEq, Repr

def Recheader.key (header : Recheader) : List Byte := header.data.take header.offset

/-- `"%td"` -/
def signed (n : Int) : List Byte := if n < 0 then byte '-' :: decimal n.natAbs else decimal n.natAbs

/-- The key of the length of a field, which can be negative behind blanks. -/
def length (delims : Delims) (room : Nat) (mem : List Byte) (start stop : Int) (reverse : Bool) :
    Option (List Byte) :=
  let buf := signed (stop - (start + blanksAt delims mem start))
  number (fun c => (delims.d_mask c).blank) room buf buf.length reverse

/-- `enterfield`; `tablepos` is what is written so far, and `endkey` the room from its start on. -/
def enterfield (tables : Tables) (delims : Delims) (mem : List Byte) (lineend : Nat)
    (clist : List Coldesc) (endkey : Int) (tablepos : List Byte) (cur_fld : Field) :
    Option (List Byte) :=
  let start := fieldStart delims mem lineend clist cur_fld
  let stop := fieldStop delims mem lineend clist cur_fld
  let room := (endkey - tablepos.length).toNat
  if cur_fld.flags.L then
    (length delims room mem start stop cur_fld.flags.R).map (tablepos ++ ·)
  else if cur_fld.flags.N then
    (number (fun c => (delims.d_mask c).blank) room (mem.drop start.toNat) (stop - start).toNat
      cur_fld.flags.R).map (tablepos ++ ·)
  else if tablepos.length + (stop - start) + 1 ≥ endkey then none
  else
    some (tablepos ++ marked (tables.weights cur_fld.flags)
      (tables.weights cur_fld.flags delims.REC_D)
      ((span mem start stop).filter (tables.mask cur_fld.flags)))

/-- `enterkey` for the line of `line_size` bytes in front of `mem`, with `room` bytes for the record;
without room there is none. -/
def enterkey (tables : Tables) (delims : Delims) (posix_sort : Bool) (nums : List Nat)
    (fieldtable : List Field) (room : Int) (mem : List Byte) (line_size : Nat) : Option Recheader :=
  let lineend := line_size - 1
  let clist := enterCols delims mem lineend nums
  let endkey := room - line_size - 1
  if endkey ≤ 0 then none
  else
    match fieldtable.foldlM (enterfield tables delims mem lineend clist endkey) [] with
    | none => none
    | some key =>
        some
          { length := key.length + line_size
            offset := key.length
            keylen := if posix_sort then key.length + line_size else key.length
            data := key ++ mem.take line_size }

/-! ## What text keys are meant to compare as -/

/-- The bytes that count: printing ones, or blanks and alphanumerics. -/
def kept (flags : Flags) (c : Byte) : Bool :=
  if flags.I then c = nl || isprint c
  else if flags.D then c = nl || c = byte '\t' || c = byte ' ' || isalnum c
  else true

/-- The text of a field as it is compared. -/
def counted (flags : Flags) (text : List Byte) : List Byte :=
  (text.filter (kept flags)).map fun c => if flags.F then toupper c else c

/-- The order of two texts of a field. -/
def fieldOrder (flags : Flags) (x y : List Byte) : Ordering :=
  turned flags.R (Ord.compare (counted flags x) (counted flags y))

/-- Field by field: the first that differs decides. -/
def inTurn (order : Field → Ordering) (fields : List Field) : Ordering :=
  fields.foldr (fun field rest => (order field).then rest) .eq

theorem inTurn_cons (order : Field → Ordering) (field : Field) (rest : List Field) :
    inTurn order (field :: rest) = (order field).then (inTurn order rest) := rfl

/-- A folded text in which the small letter of the record delimiter is left as it is. -/
def spared (REC_D : Byte) (flags : Flags) (text : List Byte) : List Byte :=
  (text.filter (kept flags)).map fun c => if c = tolower REC_D then c else toupper c

/-- The first field whose texts differ is not folded, or would compare alike if the small letter of
the record delimiter were left as it is. -/
def Undisturbed (REC_D : Byte) (left right : Field → List Byte) : List Field → Prop
  | [] => True
  | field :: rest =>
      if counted field.flags (left field) = counted field.flags (right field) then
        Undisturbed REC_D left right rest
      else field.flags.F = true →
        Ord.compare (spared REC_D field.flags (left field)) (spared REC_D field.flags (right field)) =
          Ord.compare (counted field.flags (left field)) (counted field.flags (right field))

/-! ## The keys that are entered -/

structure Held (delims : Delims) extends Line delims where
  behind : List Byte

def Held.mem {delims : Delims} (line : Held delims) : List Byte :=
  line.bytes ++ delims.REC_D :: line.behind

def Held.text {delims : Delims} (line : Held delims) (nums : List Nat) (field : Field) : List Byte :=
  fieldText delims line.mem line.bytes.length nums field

def Held.fieldKey {delims : Delims} (line : Held delims) (nums : List Nat) (field : Field) :
    List Byte :=
  let tables := settables delims.REC_D
  let clist := enterCols delims line.mem line.bytes.length nums
  let start := fieldStart delims line.mem line.bytes.length clist field
  let stop := fieldStop delims line.mem line.bytes.length clist field
  if field.flags.L then
    numberKey (fun c => (delims.d_mask c).blank)
      (signed (stop - (start + blanksAt delims line.mem start))) field.flags.R
  else if field.flags.N then
    numberKey (fun c => (delims.d_mask c).blank) (line.text nums field) field.flags.R
  else
    marked (tables.weights field.flags) (tables.weights field.flags delims.REC_D)
      ((line.text nums field).filter (tables.mask field.flags))

def Held.record {delims : Delims} (line : Held delims) (posix_sort : Bool) (nums : List Nat)
    (fields : List Field) : Recheader :=
  let key := (fields.map (line.fieldKey nums)).flatten
  { length := key.length + (line.bytes.length + 1)
    offset := key.length
    keylen := if posix_sort then key.length + (line.bytes.length + 1) else key.length
    data := key ++ (line.bytes ++ [delims.REC_D]) }

section

variable {delims : Delims}

/-- `enterfield` for the fields of a line. -/
def entering (line : Held delims) (nums : List Nat) (endkey : Int) :
    List Byte → Field → Option (List Byte) :=
  enterfield (settables delims.REC_D) delims line.mem line.bytes.length
    (enterCols delims line.mem line.bytes.length nums) endkey

theorem entering_writes (line : Held delims) {nums : List Nat} {field : Field}
    (asked : Asked nums field) (tablepos : List Byte) :
    ∃ least : Int, ∀ endkey, Writes (tablepos ++ line.fieldKey nums field) (least ≤ endkey)
      (entering line nums endkey tablepos field) := by
  have append : ∀ {k : List Byte} {enough : Prop} {result : Option (List Byte)},
      Writes k enough result → Writes (tablepos ++ k) enough (result.map (tablepos ++ ·)) := by
    rintro k enough result ⟨same, ends⟩
    refine ⟨fun k' mapped => ?_, fun roomy => by simpa using ends roomy⟩
    obtain ⟨k'', found, rfl⟩ := Option.map_eq_some_iff.mp mapped
    rw [same k'' found]
  have weaken : ∀ {k : List Byte} {enough more : Prop} {result : Option (List Byte)},
      Writes k enough result → (more → enough) → Writes k more result :=
    fun writes implies => ⟨writes.1, fun roomy => writes.2 (implies roomy)⟩
  unfold entering enterfield Held.fieldKey
  dsimp only
  generalize place : fieldStart delims line.mem line.bytes.length
    (enterCols delims line.mem line.bytes.length nums) field = start
  generalize place' : fieldStop delims line.mem line.bytes.length
    (enterCols delims line.mem line.bytes.length nums) field = stop
  have text : line.text nums field = span line.mem start stop := by
    rw [Held.text, fieldText, place, place']
  split <;> [skip; split]
  · unfold length
    generalize signed (stop - (start + blanksAt delims line.mem start)) = buf
    have writes := number_writes (fun c => (delims.d_mask c).blank) buf [] field.flags.R
    rw [List.append_nil] at writes
    exact ⟨tablepos.length + (7 + buf.length : Nat), fun endkey =>
      append (weaken (writes _) (by omega))⟩
  · obtain ⟨nonneg, inside⟩ := fieldStart_inside delims line.mem line.bytes.length asked
    have last := fieldStop_le delims line.mem line.bytes.length asked
    have memory : line.mem.length = line.bytes.length + (line.behind.length + 1) := by
      simp [Held.mem]
    have size : (line.text nums field).length = (stop - start).toNat := by
      rw [text, span, List.length_take, List.length_drop]
      omega
    have split := List.take_append_drop (stop - start).toNat (line.mem.drop start.toNat)
    have writes := number_writes (fun c => (delims.d_mask c).blank) (line.text nums field)
      ((line.mem.drop start.toNat).drop (stop - start).toNat) field.flags.R
    rw [size, text, span, split, ← span, ← text] at writes
    exact ⟨tablepos.length + (7 + (stop - start).toNat : Nat), fun endkey =>
      append (weaken (writes _) (by omega))⟩
  · refine ⟨tablepos.length + (stop - start) + 2, fun endkey => ?_⟩
    split
    · exact ⟨fun _ same => absurd same (by simp), fun roomy => by omega⟩
    · rw [text]
      exact Writes.some _ _

/-- The keys stand one behind the other, and there is room for them where there is enough. -/
theorem enterfields_writes (line : Held delims) {nums : List Nat} {fields : List Field}
    (asked : ∀ field ∈ fields, Asked nums field) (tablepos : List Byte) :
    ∃ least : Int, ∀ endkey,
      Writes (tablepos ++ (fields.map (line.fieldKey nums)).flatten) (least ≤ endkey)
        (fields.foldlM (entering line nums endkey) tablepos) := by
  induction fields generalizing tablepos with
  | nil =>
      refine ⟨0, fun _ => ?_⟩
      rw [List.map_nil, List.flatten_nil, List.append_nil]
      exact Writes.some _ _
  | cons field fields ih =>
      obtain ⟨least, first⟩ := entering_writes line (asked field List.mem_cons_self) tablepos
      obtain ⟨more, rest⟩ := ih (fun other member => asked other (List.mem_cons_of_mem _ member))
        (tablepos ++ line.fieldKey nums field)
      rw [List.map_cons, List.flatten_cons, ← List.append_assoc]
      refine ⟨max least more, fun endkey => ?_⟩
      obtain ⟨same, ends⟩ := first endkey
      rw [List.foldlM_cons]
      cases entered : entering line nums endkey tablepos field with
      | none =>
          refine ⟨fun _ wrong => (nomatch wrong), fun roomy => ?_⟩
          rw [entered] at ends
          exact absurd (ends (by omega)) (by simp)
      | some key =>
          rw [same key entered]
          exact ⟨(rest endkey).1, fun roomy => (rest endkey).2 (by omega)⟩

theorem mem_take (line : Held delims) :
    line.mem.take (line.bytes.length + 1) = line.bytes ++ [delims.REC_D] := by
  simp [Held.mem, List.take_append]

theorem enterkey_run (line : Held delims) (posix_sort : Bool) (nums : List Nat)
    (fields : List Field) (room : Int) :
    enterkey (settables delims.REC_D) delims posix_sort nums fields room line.mem
        (line.bytes.length + 1) =
      if room - (line.bytes.length + 1 : Nat) - 1 ≤ 0 then none
      else
        match fields.foldlM (entering line nums (room - (line.bytes.length + 1 : Nat) - 1)) [] with
        | none => none
        | some key =>
            some
              { length := key.length + (line.bytes.length + 1)
                offset := key.length
                keylen := if posix_sort then key.length + (line.bytes.length + 1) else key.length
                data := key ++ (line.bytes ++ [delims.REC_D]) } := by
  rw [← mem_take]
  rfl

/-- `enterkey` makes the record of the line or finds no room for it. -/
theorem enterkey_eq (line : Held delims) (posix_sort : Bool) {nums : List Nat} {fields : List Field}
    (asked : ∀ field ∈ fields, Asked nums field) :
    (∀ room header, enterkey (settables delims.REC_D) delims posix_sort nums fields room line.mem
        (line.bytes.length + 1) = some header → header = line.record posix_sort nums fields) ∧
    ∃ least : Int, ∀ room, least ≤ room → enterkey (settables delims.REC_D) delims posix_sort nums
      fields room line.mem (line.bytes.length + 1) = some (line.record posix_sort nums fields) := by
  obtain ⟨least, writes⟩ := enterfields_writes line asked []
  constructor
  · intro room header entered
    rw [enterkey_run] at entered
    split at entered
    · cases entered
    · split at entered
      · cases entered
      · next key done =>
          obtain rfl := Option.some.inj entered
          rw [(writes _).1 key done]
          rfl
  · refine ⟨max least 1 + (line.bytes.length + 1 : Nat) + 1, fun room roomy => ?_⟩
    obtain ⟨key, done⟩ := Option.isSome_iff_exists.mp
      ((writes (room - (line.bytes.length + 1 : Nat) - 1)).2 (by omega))
    rw [enterkey_run, if_neg (by omega), done, (writes _).1 key done]
    rfl

/-! ## What stands behind the line -/

theorem entering_behind (line : Line delims) (behind behind' : List Byte) {nums : List Nat}
    {field : Field} (asked : Asked nums field) (endkey : Int) (tablepos : List Byte) :
    entering ⟨line, behind⟩ nums endkey tablepos field =
      entering ⟨line, behind'⟩ nums endkey tablepos field := by
  obtain ⟨first, last⟩ := field_behind line.bytes behind behind' asked
  obtain ⟨nonneg, inside⟩ := fieldStart_inside delims (line.bytes ++ delims.REC_D :: behind')
    line.bytes.length asked
  have stopped := fieldStop_le delims (line.bytes ++ delims.REC_D :: behind') line.bytes.length asked
  unfold entering enterfield Held.mem
  dsimp only
  rw [first, last]
  generalize fieldStart delims (line.bytes ++ delims.REC_D :: behind') line.bytes.length
    (enterCols delims (line.bytes ++ delims.REC_D :: behind') line.bytes.length nums) field = start
    at nonneg inside
  generalize fieldStop delims (line.bytes ++ delims.REC_D :: behind') line.bytes.length
    (enterCols delims (line.bytes ++ delims.REC_D :: behind') line.bytes.length nums) field = stop
    at stopped
  obtain ⟨place, rfl⟩ := Int.eq_ofNat_of_zero_le nonneg
  have within := Int.ofNat_le.mp inside
  have blanks : blanksAt delims (line.bytes ++ delims.REC_D :: behind) place =
      blanksAt delims (line.bytes ++ delims.REC_D :: behind') place := by
    rw [blanksAt_line delims behind within, blanksAt_line delims behind' within]
  have text : ∀ more, span (line.bytes ++ delims.REC_D :: more) place stop =
      span line.bytes place stop := fun more => span_inside _ nonneg inside stopped
  have numbers : ∀ room, number (fun c => (delims.d_mask c).blank) room
      ((line.bytes ++ delims.REC_D :: behind).drop place) (stop - place).toNat field.flags.R =
        number (fun c => (delims.d_mask c).blank) room
          ((line.bytes ++ delims.REC_D :: behind').drop place) (stop - place).toNat field.flags.R := by
    intro room
    have size : (span line.bytes place stop).length = (stop - place).toNat := by
      rw [span, List.length_take, List.length_drop]
      omega
    have parts : ∀ more, (line.bytes ++ delims.REC_D :: more).drop place =
        span line.bytes place stop ++
          ((line.bytes ++ delims.REC_D :: more).drop place).drop (stop - place).toNat := fun more => by
      rw [← text more]
      exact (List.take_append_drop _ _).symm
    rw [parts behind, parts behind', ← size]
    exact number_beyond _ _ _ _ _ _
  rw [Int.toNat_natCast, text, text, numbers]
  unfold length
  rw [blanks]

theorem foldlM_behind (line : Line delims) (behind behind' : List Byte) {nums : List Nat}
    {fields : List Field} (asked : ∀ field ∈ fields, Asked nums field) (endkey : Int)
    (tablepos : List Byte) :
    fields.foldlM (entering ⟨line, behind⟩ nums endkey) tablepos =
      fields.foldlM (entering ⟨line, behind'⟩ nums endkey) tablepos := by
  induction fields generalizing tablepos with
  | nil => rw [List.foldlM_nil, List.foldlM_nil]
  | cons field fields ih =>
      rw [List.foldlM_cons, List.foldlM_cons,
        entering_behind line behind behind' (asked field List.mem_cons_self)]
      refine congrArg _ (funext fun key => ?_)
      exact ih (fun other member => asked other (List.mem_cons_of_mem _ member)) key

/-- A record is the same whatever is in memory behind the line. -/
theorem enterkey_behind (line : Line delims) (behind behind' : List Byte) (posix_sort : Bool)
    {nums : List Nat} {fields : List Field} (asked : ∀ field ∈ fields, Asked nums field)
    (room : Int) :
    enterkey (settables delims.REC_D) delims posix_sort nums fields room
        (line.bytes ++ delims.REC_D :: behind) (line.bytes.length + 1) =
      enterkey (settables delims.REC_D) delims posix_sort nums fields room
        (line.bytes ++ delims.REC_D :: behind') (line.bytes.length + 1) := by
  have left := enterkey_run ⟨line, behind⟩ posix_sort nums fields room
  have right := enterkey_run ⟨line, behind'⟩ posix_sort nums fields room
  rw [foldlM_behind line behind behind' asked] at left
  rw [Held.mem] at left right
  rw [left, right]

/-! ## Text keys -/

/-- Keys that are no numbers, and the columns that are looked for. -/
structure TextKeys where
  fields : List Field
  textual : ∀ field ∈ fields, field.flags.N = false ∧ field.flags.L = false
  nums : List Nat
  asked : ∀ field ∈ fields, Asked nums field

def textKey (delims : Delims) (line : Held delims) (nums : List Nat) (field : Field) : List Byte :=
  let tables := settables delims.REC_D
  marked (tables.weights field.flags) (tables.weights field.flags delims.REC_D)
    ((line.text nums field).filter (tables.mask field.flags))

theorem enterkey_text (keys : TextKeys) (line : Held delims) (posix_sort : Bool) :
    (∀ room header, enterkey (settables delims.REC_D) delims posix_sort keys.nums keys.fields room
        line.mem (line.bytes.length + 1) = some header →
      header.key = (keys.fields.map (textKey delims line keys.nums)).flatten) ∧
    ∃ room header, enterkey (settables delims.REC_D) delims posix_sort keys.nums keys.fields room
      line.mem (line.bytes.length + 1) = some header := by
  obtain ⟨only, least, enough⟩ := enterkey_eq line posix_sort keys.asked
  refine ⟨fun room header entered => ?_, least, _, enough least (Int.le_refl _)⟩
  have keys_ : keys.fields.map (line.fieldKey keys.nums) =
      keys.fields.map (textKey delims line keys.nums) := List.map_congr_left fun field member => by
    obtain ⟨number_, length_⟩ := keys.textual field member
    simp only [Held.fieldKey, number_, length_, Bool.false_eq_true, if_false]
    rfl
  rw [only room header entered, Recheader.key, Held.record, keys_, List.take_left]

/-! ## The order of text keys -/

theorem not_mem_text (line : Held delims) {nums : List Nat} {field : Field}
    (asked : Asked nums field) : delims.REC_D ∉ line.text nums field := fun wrong =>
  line.clean ((fieldText_sublist asked).subset wrong)

theorem mask_kept (flags : Flags) {c : Byte} (other : c ≠ delims.REC_D) :
    (settables delims.REC_D).mask flags c = kept flags c := by
  rw [Tables.mask, kept, settables_itable other, settables_dtable other]

theorem target_eq_iff {fold : Bool} {c d : Byte} (left : c ≠ delims.REC_D)
    (right : d ≠ delims.REC_D) :
    target delims.REC_D fold c = target delims.REC_D fold d ↔
      (if fold then toupper c else c) = if fold then toupper d else d := by
  have apart : c.toNat ≠ delims.REC_D.toNat := fun same => left (UInt8.toNat_inj.mp same)
  have apart' : d.toNat ≠ delims.REC_D.toNat := fun same => right (UInt8.toNat_inj.mp same)
  cases fold
  · rfl
  · simp only [target, if_true]
    rw [← UInt8.toNat_inj, ← UInt8.toNat_inj, toNat_folded, toNat_folded, toNat_toupper,
      toNat_toupper]
    split <;> split <;> split <;> split <;> omega

theorem target_spared {c : Byte} (other : c ≠ delims.REC_D) :
    target delims.REC_D true c = if c = tolower delims.REC_D then c else toupper c := by
  have apart : c.toNat ≠ delims.REC_D.toNat := fun same => other (UInt8.toNat_inj.mp same)
  rw [target, if_pos rfl]
  by_cases same : c = tolower delims.REC_D
  · have place := congrArg UInt8.toNat same
    rw [toNat_tolower] at place
    rw [if_pos same, ← UInt8.toNat_inj, toNat_folded]
    split at place <;> split <;> omega
  · have place : c.toNat ≠ (tolower delims.REC_D).toNat := fun wrong => same (UInt8.toNat_inj.mp wrong)
    rw [toNat_tolower] at place
    rw [if_neg same, ← UInt8.toNat_inj, toNat_folded, toNat_toupper]
    split at place <;> split <;> split <;> omega

/-- The text of a field as the tables make it. -/
def mapped (REC_D : Byte) (flags : Flags) (text : List Byte) : List Byte :=
  (text.filter (kept flags)).map (target REC_D flags.F)

theorem compareLex_map (f : Byte → Byte) (xs ys : List Byte) :
    Ord.compare (xs.map f) (ys.map f) = xs.compareLex (fun c d => Ord.compare (f c) (f d)) ys := by
  induction xs generalizing ys with
  | nil => cases ys <;> rfl
  | cons c xs ih =>
      cases ys with
      | nil => rfl
      | cons d ys =>
          rw [List.compareLex_cons_cons, ← ih]
          exact List.compareLex_cons_cons

theorem textKeys_compare (left right : Held delims) {nums : List Nat} {fields : List Field}
    (asked : ∀ field ∈ fields, Asked nums field)
    (unfolded : ∀ field ∈ fields, field.flags.F = true → islower delims.REC_D = false) :
    Ord.compare (fields.map (textKey delims left nums)).flatten
        (fields.map (textKey delims right nums)).flatten =
      inTurn (fun field => turned field.flags.R
        (Ord.compare (mapped delims.REC_D field.flags (left.text nums field))
          (mapped delims.REC_D field.flags (right.text nums field)))) fields := by
  have filtered : ∀ (line : Held delims) (field : Field), Asked nums field →
      (line.text nums field).filter ((settables delims.REC_D).mask field.flags) =
        (line.text nums field).filter (kept field.flags) := fun line field asked =>
    List.filter_congr fun c member => mask_kept _ fun same => not_mem_text line asked (same ▸ member)
  have symbols : ∀ (line : Held delims) (field : Field), Asked nums field →
      ∀ c ∈ (line.text nums field).filter (kept field.flags), c ≠ delims.REC_D :=
    fun line field asked c member same =>
      not_mem_text line asked (same ▸ (List.mem_filter.mp member).1)
  induction fields with
  | nil => rfl
  | cons field fields ih =>
      have here := asked field List.mem_cons_self
      have rest := ih (fun other member => asked other (List.mem_cons_of_mem _ member))
        fun other member => unfolded other (List.mem_cons_of_mem _ member)
      have codes := (weights_codes (unfolded field List.mem_cons_self)).compare
        (symbols left field here) (symbols right field here)
        (fields.map (textKey delims left nums)).flatten
        (fields.map (textKey delims right nums)).flatten
      rw [List.map_cons, List.map_cons, List.flatten_cons, List.flatten_cons,
        inTurn_cons, ← rest, textKey, textKey, filtered left field here,
        filtered right field here]
      refine codes.trans ?_
      rw [mapped, mapped, compareLex_map]
      rfl

theorem mapped_eq_iff (flags : Flags) {x y : List Byte} (left : delims.REC_D ∉ x)
    (right : delims.REC_D ∉ y) :
    mapped delims.REC_D flags x = mapped delims.REC_D flags y ↔ counted flags x = counted flags y := by
  have other : ∀ z : List Byte, delims.REC_D ∉ z → ∀ c ∈ z.filter (kept flags), c ≠ delims.REC_D :=
    fun z clean c member same => clean (same ▸ (List.mem_filter.mp member).1)
  have left := other x left
  have right := other y right
  unfold mapped counted
  generalize x.filter (kept flags) = xs at left ⊢
  generalize y.filter (kept flags) = ys at right ⊢
  induction xs generalizing ys with
  | nil => cases ys <;> simp
  | cons c xs ih =>
      cases ys with
      | nil => simp
      | cons d ys =>
          rw [List.map_cons, List.map_cons, List.map_cons, List.map_cons, List.cons.injEq,
            List.cons.injEq]
          exact and_congr (target_eq_iff (left c List.mem_cons_self) (right d List.mem_cons_self))
            (ih (fun e member => left e (List.mem_cons_of_mem _ member)) ys
              fun e member => right e (List.mem_cons_of_mem _ member))

theorem mapped_spared {flags : Flags} {x : List Byte} (fold : flags.F = true)
    (clean : delims.REC_D ∉ x) : mapped delims.REC_D flags x = spared delims.REC_D flags x :=
  List.map_congr_left fun c member => by
    rw [fold]
    exact target_spared fun same => clean (same ▸ (List.mem_filter.mp member).1)

theorem mapped_counted {flags : Flags} (plain : flags.F = false) (x : List Byte) :
    mapped delims.REC_D flags x = counted flags x :=
  List.map_congr_left fun c _ => by
    rw [plain]
    rfl

/-- The codes decide as the texts are meant to exactly where nothing is disturbed. -/
theorem inTurn_eq_iff (left right : Field → List Byte) {fields : List Field}
    (clean : ∀ field ∈ fields, delims.REC_D ∉ left field ∧ delims.REC_D ∉ right field) :
    inTurn (fun field => turned field.flags.R (Ord.compare
        (mapped delims.REC_D field.flags (left field))
        (mapped delims.REC_D field.flags (right field)))) fields =
      inTurn (fun field => fieldOrder field.flags (left field) (right field)) fields ↔
      Undisturbed delims.REC_D left right fields := by
  have decided : ∀ o p : Ordering, o ≠ .eq → o.then p = o := by decide
  have alike : ∀ a : List Byte, Ord.compare a a = .eq := fun a =>
    Std.LawfulEqOrd.compare_eq_iff_eq.mpr rfl
  induction fields with
  | nil => exact iff_of_true rfl trivial
  | cons field fields ih =>
      obtain ⟨cleanLeft, cleanRight⟩ := clean field List.mem_cons_self
      have rest := ih fun other member => clean other (List.mem_cons_of_mem _ member)
      have same := mapped_eq_iff field.flags cleanLeft cleanRight
      rw [inTurn_cons, inTurn_cons, Undisturbed]
      by_cases equal : counted field.flags (left field) = counted field.flags (right field)
      · rw [if_pos equal, same.mpr equal, fieldOrder, equal, alike, alike,
          turned_eq_eq.mpr rfl]
        exact rest
      · have apart : ∀ a b : List Byte, a ≠ b → turned field.flags.R (Ord.compare a b) ≠ .eq :=
          fun a b differ wrong => differ (Std.LawfulEqOrd.compare_eq_iff_eq.mp (turned_eq_eq.mp wrong))
        rw [if_neg equal, decided _ _ (apart _ _ (mt same.mp equal)), fieldOrder,
          decided _ _ (apart _ _ equal), turned_injective]
        cases fold : field.flags.F
        · rw [mapped_counted fold, mapped_counted fold]
          simp
        · rw [mapped_spared fold cleanLeft, mapped_spared fold cleanRight]
          simp

/-- The end mark sorts below every weight that a byte of the field can get, or above if the field is
reversed. -/
def Outside (delims : Delims) (field : Field) : Prop :=
  let tables := settables delims.REC_D
  ∀ c, c ≠ delims.REC_D → tables.mask field.flags c = true →
    if field.flags.R then
      tables.weights field.flags c < tables.weights field.flags delims.REC_D
    else tables.weights field.flags delims.REC_D < tables.weights field.flags c

/-- The mark is no capital letter: a capital letter would have its weight. -/
theorem outside_unfolded {field : Field} (outside : Outside delims field)
    (fold : field.flags.F = true) : islower delims.REC_D = false := by
  by_contra lower
  rw [Bool.not_eq_false] at lower
  have range := (islower_iff _).mp lower
  have upper := toNat_toupper delims.REC_D
  rw [if_pos range] at upper
  have other : toupper delims.REC_D ≠ delims.REC_D := fun same => by
    rw [same] at upper
    omega
  have kept_ : kept field.flags (toupper delims.REC_D) = true := by
    have letter : isupper (toupper delims.REC_D) = true := (isupper_iff _).mpr (by omega)
    have printing : isprint (toupper delims.REC_D) = true := by
      simp [isprint]
      omega
    unfold kept isalnum
    rw [letter, printing]
    simp
  have wrong := outside _ other ((mask_kept _ other).trans kept_)
  rw [weights_clash fold lower] at wrong
  split at wrong <;> exact absurd wrong (by simp)

theorem outside_of_unfolded {field : Field}
    (unfolded : field.flags.F = true → islower delims.REC_D = false) : Outside delims field := by
  intro c other _
  have first := (weights_codes unfolded).first c other
  have second := (weights_codes unfolded).second c other
  rw [compare_bytes] at first second
  cases reverse : field.flags.R
  · rw [reverse] at first
    exact UInt8.lt_iff_toNat_lt.mpr (Nat.compare_eq_lt.mp first)
  · rw [reverse] at second
    exact UInt8.lt_iff_toNat_lt.mpr (Nat.compare_eq_lt.mp second)

def Compares (keys : TextKeys) (left right : Held delims) : Prop :=
  ∀ posix_sort room room' header header',
    enterkey (settables delims.REC_D) delims posix_sort keys.nums keys.fields room left.mem
      (left.bytes.length + 1) = some header →
    enterkey (settables delims.REC_D) delims posix_sort keys.nums keys.fields room' right.mem
      (right.bytes.length + 1) = some header' →
    Ord.compare header.key header'.key =
      inTurn (fun field => fieldOrder field.flags (left.text keys.nums field)
        (right.text keys.nums field)) keys.fields

/-- Text keys compare as their fields, with the end mark outside of the weights, exactly if no key is
folded where the record delimiter is a small letter, and its own small letter, which is not
folded, does not decide. -/
theorem enterkey_compares_iff (delims : Delims) (keys : TextKeys) (left right : Held delims) :
    (Compares keys left right ∧ ∀ field ∈ keys.fields, Outside delims field) ↔
      (∀ field ∈ keys.fields, field.flags.F = true → islower delims.REC_D = false) ∧
        Undisturbed delims.REC_D (left.text keys.nums) (right.text keys.nums) keys.fields := by
  have agree : (∀ field ∈ keys.fields, field.flags.F = true → islower delims.REC_D = false) →
      (Compares keys left right ↔
        Undisturbed delims.REC_D (left.text keys.nums) (right.text keys.nums) keys.fields) := by
    intro unfolded
    have clean : ∀ field ∈ keys.fields,
        delims.REC_D ∉ left.text keys.nums field ∧ delims.REC_D ∉ right.text keys.nums field :=
      fun field member => ⟨not_mem_text left (keys.asked field member),
        not_mem_text right (keys.asked field member)⟩
    rw [← inTurn_eq_iff _ _ clean, ← textKeys_compare left right keys.asked unfolded]
    constructor
    · intro compares
      obtain ⟨only, room, header, entered⟩ := enterkey_text keys left false
      obtain ⟨only', room', header', entered'⟩ := enterkey_text keys right false
      rw [← only room header entered, ← only' room' header' entered']
      exact compares false room room' header header' entered entered'
    · intro same posix_sort room room' header header' entered entered'
      rw [(enterkey_text keys left posix_sort).1 room header entered,
        (enterkey_text keys right posix_sort).1 room' header' entered']
      exact same
  constructor
  · rintro ⟨compares, outside⟩
    have unfolded : ∀ field ∈ keys.fields, field.flags.F = true → islower delims.REC_D = false :=
      fun field member => outside_unfolded (outside field member)
    exact ⟨unfolded, (agree unfolded).mp compares⟩
  · rintro ⟨unfolded, undisturbed⟩
    exact ⟨(agree unfolded).mpr undisturbed, fun field member =>
      outside_of_unfolded (unfolded field member)⟩

end

def foldedFirst : TextKeys where
  fields := [{ upTo 0 with flags := { F := true } }]
  textual := by decide
  nums := [1]
  asked := fun field member => by
    obtain rfl := List.mem_singleton.mp member
    exact ⟨(upTo_asked 0).increasing, (upTo_asked 0).positive, (upTo_asked 0).covers⟩

/-- The delimiters with `-R a`. -/
def letterA : Delims := (Delims.start.optR (byte 'a')).toOption.getD Delims.start

def emptyLine : Held letterA := ⟨⟨[], by decide⟩, []⟩

def zeroLine : Held letterA := ⟨⟨ascii ['0'], by decide⟩, []⟩

theorem textKey_folded (line : Held letterA) (field : Field)
    (folds : field.flags = { F := true }) :
    textKey letterA line [1] field =
      (line.text [1] field).map (level (byte 'a') true) ++ [66] := by
  have weights : ∀ c, (settables (byte 'a')).weights { F := true } c = level (byte 'a') true c :=
    weights_eq { F := true }
  have all : ∀ c, (settables (byte 'a')).mask { F := true } c = true := fun _ => rfl
  have delim : letterA.REC_D = byte 'a' := rfl
  have mark : level (byte 'a') true (byte 'a') = 66 := by decide
  unfold textKey
  rw [folds, delim, marked, List.filter_eq_self.mpr fun c _ => all c,
    List.map_congr_left fun c _ => weights c, weights, mark]

/-- With `-R a`, the end of a folded key is taken for an `A`, and the empty line is put behind `0`. -/
theorem folded_mark :
    Delims.start.optR (byte 'a') = .ok letterA ∧ emptyLine.bytes = [] ∧
      zeroLine.bytes = ascii ['0'] ∧ ¬ Compares foldedFirst emptyLine zeroLine := by
  refine ⟨rfl, rfl, rfl, fun compares => ?_⟩
  obtain ⟨only, room, header, entered⟩ := enterkey_text foldedFirst emptyLine false
  obtain ⟨only', room', header', entered'⟩ := enterkey_text foldedFirst zeroLine false
  have order := compares false room room' header header' entered entered'
  rw [only room header entered, only' room' header' entered'] at order
  simp only [foldedFirst, List.map_cons, List.map_nil, List.flatten_cons, List.flatten_nil] at order
  rw [textKey_folded emptyLine _ rfl, textKey_folded zeroLine _ rfl] at order
  exact absurd order (by decide +kernel)

end Netbase.Sort
