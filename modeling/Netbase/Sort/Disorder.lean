import Netbase.Sort.Record

/-!
# Checking the order of a file

`order` compares each record with the one before it.  Its two record buffers have a
fixed size, and a record that does not fit is taken for the end of the file.
-/

namespace Netbase.Sort

open Netbase.Text

def DEFLLEN : Nat := 65536

/-- `cmp`: the keys, a proper front first, and with `-r` the other way round. -/
def Config.cmp (config : Config) (rec1 rec2 : Recheader) : Ordering :=
  let len := min rec1.keylen rec2.keylen
  let r := (Ord.compare (rec1.data.take len) (rec2.data.take len)).then
    (Ord.compare rec1.keylen rec2.keylen)
  if config.REVERSE then r.swap else r

namespace Config

/-- `get(fp, rec, rec_end, ftbl)` for a record buffer that holds nothing of a line yet. -/
def get (config : Config) (room : Nat) (statics : Statics) (fp : List Byte) :
    Got × Statics × List Byte :=
  if config.SINGL_FLD then
    match fill config.delims.REC_D room [] fp with
    | .line data fp => (.record (lineRecord data), statics, fp)
    | .eof => (.eof, statics, [])
    | .full _ fp => (.buffend, statics, fp)
  else config.makekey room statics fp

/-- The loop of `order` and its exit status. -/
def orderLoop (config : Config) : Nat → Recheader → Statics → List Byte → Option Nat
  | 0, _, _, _ => none
  | fuel + 1, prec, statics, fp =>
      match config.get DEFLLEN statics fp with
      | (.record crec, statics, fp) =>
          let c := config.cmp prec crec
          if c = .gt then some 1
          else if config.UNIQUE ∧ c = .eq then some 1
          else config.orderLoop fuel crec statics fp
      | _ => some 0

/-- `order`; `line_data` is what the static buffer of lines holds at first. -/
def order (config : Config) (line_data : List Byte) (fp : List Byte) : Option Nat :=
  match config.get DEFLLEN { line_data := line_data, line_size := 0, overflow := false } fp with
  | (.record prec, statics, rest) => config.orderLoop (rest.length + 1) prec statics rest
  | _ => some 0

/-! ## What the order is meant to be -/

def recordOf (config : Config) (line : Line config.delims) : Recheader :=
  if config.SINGL_FLD then lineRecord (line.bytes ++ [config.delims.REC_D])
  else (⟨line, []⟩ : Held config.delims).record config.posix_sort config.nums config.fieldtable

def InOrder (config : Config) (prev cur : Line config.delims) : Prop :=
  config.cmp (config.recordOf prev) (config.recordOf cur) ≠ .gt ∧
    (config.UNIQUE = true → config.cmp (config.recordOf prev) (config.recordOf cur) ≠ .eq)

/-- The record of a line fits into a buffer. -/
def Fits (config : Config) (room : Nat) (line : Line config.delims) : Prop :=
  line.bytes.length + 1 ≤ room ∧
    (config.SINGL_FLD = false → (enterkey (settables config.delims.REC_D) config.delims
      config.posix_sort config.nums config.fieldtable room
      (line.bytes ++ [config.delims.REC_D]) (line.bytes.length + 1)).isSome)

/-- Two adjacent lines out of order come before any whose record does not fit. -/
def FoundEarly (config : Config) (lines : List (Line config.delims)) : Prop :=
  ∃ front prev cur back, lines = front ++ prev :: cur :: back ∧
    (∀ line ∈ front ++ [prev, cur], config.Fits DEFLLEN line) ∧ ¬ config.InOrder prev cur

/-- As `order` goes through the lines behind this one. -/
def Found (config : Config) : Line config.delims → List (Line config.delims) → Prop
  | _, [] => False
  | prev, cur :: lines => config.Fits DEFLLEN cur ∧ (¬ config.InOrder prev cur ∨ config.Found cur lines)

variable {config : Config}

/-! ## Reading a record -/

theorem get_eof (config : Config) {room : Nat} (positive : 0 < room) {statics : Statics}
    (fresh : statics.overflow = false) : ∃ after, config.get room statics [] = (.eof, after, []) := by
  obtain ⟨room, rfl⟩ : ∃ k, room = k + 1 := ⟨room - 1, by omega⟩
  unfold get makekey
  rw [fresh]
  split
  · exact ⟨_, rfl⟩
  · exact ⟨_, rfl⟩

theorem get_line (room : Nat) {statics : Statics} (fresh : statics.overflow = false) {fp : List Byte}
    {line : Line config.delims} {lines : List (Line config.delims)}
    (first : linesOf config.delims fp = line :: lines) :
    (config.Fits room line → ∃ after rest,
        config.get room statics fp = (.record (config.recordOf line), after, rest) ∧
        linesOf config.delims rest = lines ∧ rest.length < fp.length ∧ after.overflow = false) ∧
      (¬ config.Fits room line → ∃ after rest,
        config.get room statics fp = (.buffend, after, rest)) := by
  have nonempty : fp ≠ [] := fun nothing => by
    rw [nothing] at first
    cases first
  have taken : ∀ {bytes rest : List Byte}, Took config.delims fp bytes rest →
      line.bytes = bytes ∧ linesOf config.delims rest = lines := by
    rintro bytes rest ⟨⟨clean, same⟩, -⟩
    rw [first, List.cons.injEq] at same
    exact ⟨congrArg Line.bytes same.1, same.2.symm⟩
  cases single : config.SINGL_FLD with
  | true =>
      have filled := fill_fills room (List.not_mem_nil : config.delims.REC_D ∉ []) fp
      rw [get, single, if_pos rfl]
      generalize fill config.delims.REC_D room [] fp = result at filled ⊢
      cases filled with
      | line took fits =>
          obtain ⟨rfl, lines_⟩ := taken took
          refine ⟨fun _ => ⟨statics, _, ?_, lines_, took.shorter, fresh⟩, fun wrong => ?_⟩
          · rw [recordOf, single, if_pos rfl]
          · exact absurd ⟨by simpa using fits, fun keyed => by simp [single] at keyed⟩ wrong
      | eof _ nothing => exact absurd nothing nonempty
      | full whole clean size =>
          refine ⟨fun fits => ?_, fun _ => ⟨_, _, rfl⟩⟩
          obtain ⟨other, others, front, long⟩ := linesOf_front clean (by rw [whole]; exact nonempty)
          rw [whole, List.nil_append, first, List.cons.injEq] at front
          have short := fits.1
          rw [front.1] at short
          rw [size, List.length_nil] at long
          omega
  | false =>
      obtain ⟨bytes, rest, read, took⟩ :=
        seq_some (List.not_mem_nil : config.delims.REC_D ∉ []) nonempty
      obtain ⟨rfl, lines_⟩ := taken took
      rw [get, single, makekey, fresh, read]
      simp only [Bool.false_eq_true, if_false]
      have memory : line.bytes ++ [config.delims.REC_D] ++
          statics.line_data.drop (line.bytes ++ [config.delims.REC_D]).length =
            line.bytes ++ config.delims.REC_D ::
              statics.line_data.drop (line.bytes ++ [config.delims.REC_D]).length := by simp
      have size : (line.bytes ++ [config.delims.REC_D]).length = line.bytes.length + 1 := by simp
      rw [memory, size, enter]
      dsimp only
      rw [enterkey_behind line _ [] _ config.asked]
      by_cases long : room < line.bytes.length + 1
      · rw [if_pos long]
        exact ⟨fun fits => absurd fits.1 (by omega), fun _ => ⟨_, _, rfl⟩⟩
      · rw [if_neg long]
        cases entered : enterkey (settables config.delims.REC_D) config.delims config.posix_sort
            config.nums config.fieldtable room (line.bytes ++ [config.delims.REC_D])
            (line.bytes.length + 1) with
        | none =>
            refine ⟨fun fits => ?_, fun _ => ⟨_, _, rfl⟩⟩
            have some_ := fits.2 single
            rw [entered] at some_
            cases some_
        | some header =>
            have record : config.recordOf line = header := by
              rw [recordOf, single, (enterkey_eq (⟨line, []⟩ : Held config.delims) config.posix_sort
                config.asked).1 room header entered]
              rfl
            rw [record]
            exact ⟨fun _ => ⟨_, rest, rfl, lines_, took.shorter, rfl⟩,
              fun wrong => absurd ⟨by omega, fun _ => by rw [entered]; rfl⟩ wrong⟩

/-! ## The check -/

theorem orderLoop_eq (fuel : Nat) (prev : Line config.delims) {statics : Statics}
    (fresh : statics.overflow = false) {fp : List Byte} (enough : fp.length < fuel) :
    ∃ status, config.orderLoop fuel (config.recordOf prev) statics fp = some status ∧
      (status ≠ 0 ↔ config.Found prev (linesOf config.delims fp)) := by
  induction fuel generalizing prev statics fp with
  | zero => exact absurd enough (Nat.not_lt_zero _)
  | succ fuel ih =>
      rw [orderLoop]
      cases first : linesOf config.delims fp with
      | nil =>
          obtain rfl := linesOf_nil_iff.mp first
          obtain ⟨after, ended⟩ := get_eof config (show 0 < DEFLLEN by decide) fresh
          rw [ended]
          exact ⟨0, rfl, iff_of_false (fun wrong => wrong rfl) id⟩
      | cons cur lines =>
          obtain ⟨fitting, other⟩ := get_line DEFLLEN fresh first
          rw [Found]
          by_cases fits : config.Fits DEFLLEN cur
          · obtain ⟨after, rest, read, lines_, shorter, fresh'⟩ := fitting fits
            rw [read]
            dsimp only
            by_cases greater : config.cmp (config.recordOf prev) (config.recordOf cur) = .gt
            · rw [if_pos greater]
              have wrong : ¬ config.InOrder prev cur := fun order => order.1 greater
              exact ⟨1, rfl, iff_of_true (by decide) ⟨fits, Or.inl wrong⟩⟩
            · rw [if_neg greater]
              by_cases twice : config.UNIQUE = true ∧
                  config.cmp (config.recordOf prev) (config.recordOf cur) = .eq
              · rw [if_pos twice]
                have wrong : ¬ config.InOrder prev cur := fun order => order.2 twice.1 twice.2
                exact ⟨1, rfl, iff_of_true (by decide) ⟨fits, Or.inl wrong⟩⟩
              · rw [if_neg twice]
                have order : config.InOrder prev cur :=
                  ⟨greater, fun unique equal => twice ⟨unique, equal⟩⟩
                obtain ⟨status, run, found⟩ := ih cur fresh' (show rest.length < fuel by omega)
                refine ⟨status, run, found.trans ?_⟩
                rw [lines_]
                exact ⟨fun later => ⟨fits, Or.inr later⟩,
                  fun both => both.2.resolve_left (not_not_intro order)⟩
          · obtain ⟨after, rest, ended⟩ := other fits
            rw [ended]
            exact ⟨0, rfl, iff_of_false (fun wrong => wrong rfl) fun found => fits found.1⟩

theorem found_iff (prev : Line config.delims) (lines : List (Line config.delims)) :
    config.Fits DEFLLEN prev ∧ config.Found prev lines ↔ config.FoundEarly (prev :: lines) := by
  induction lines generalizing prev with
  | nil =>
      refine iff_of_false (fun both => both.2) ?_
      rintro ⟨front, _, _, _, split, -⟩
      have lengths := congrArg List.length split
      simp at lengths
      omega
  | cons cur lines ih =>
      rw [Found]
      constructor
      · rintro ⟨fits, fits', wrong | later⟩
        · exact ⟨[], prev, cur, lines, rfl, by simp [fits, fits'], wrong⟩
        · obtain ⟨front, prev', cur', back, split, all, wrong⟩ := (ih cur).mp ⟨fits', later⟩
          refine ⟨prev :: front, prev', cur', back, by rw [split]; rfl, ?_, wrong⟩
          rintro line (_ | ⟨_, member⟩)
          · exact fits
          · exact all line member
      · rintro ⟨front, prev', cur', back, split, all, wrong⟩
        cases front with
        | nil =>
            rw [List.nil_append, List.cons.injEq, List.cons.injEq] at split
            obtain ⟨rfl, rfl, rfl⟩ := split
            exact ⟨all _ (by simp), all _ (by simp), Or.inl wrong⟩
        | cons line front =>
            rw [List.cons_append, List.cons.injEq] at split
            obtain ⟨rfl, rest⟩ := split
            have later := (ih cur).mpr ⟨front, prev', cur', back, rest,
              fun line member => all line (List.mem_cons_of_mem _ member), wrong⟩
            exact ⟨all prev List.mem_cons_self, later.1, Or.inr later.2⟩

theorem order_status (config : Config) (line_data fp : List Byte) :
    ∃ status, config.order line_data fp = some status ∧
      (status ≠ 0 ↔ config.FoundEarly (linesOf config.delims fp)) := by
  rw [order]
  cases first : linesOf config.delims fp with
  | nil =>
      obtain rfl := linesOf_nil_iff.mp first
      obtain ⟨after, ended⟩ := get_eof config (show 0 < DEFLLEN by decide)
        (show (Statics.mk line_data 0 false).overflow = false from rfl)
      rw [ended]
      refine ⟨0, rfl, iff_of_false (fun wrong => wrong rfl) ?_⟩
      rintro ⟨front, _, _, _, split, -⟩
      have lengths := congrArg List.length split
      simp at lengths
  | cons prev lines =>
      obtain ⟨fitting, other⟩ := get_line DEFLLEN
        (show (Statics.mk line_data 0 false).overflow = false from rfl) first
      rw [← found_iff]
      by_cases fits : config.Fits DEFLLEN prev
      · obtain ⟨after, rest, read, lines_, -, fresh⟩ := fitting fits
        rw [read]
        dsimp only
        obtain ⟨status, run, found⟩ := orderLoop_eq (rest.length + 1) prev fresh (Nat.lt_succ_self _)
        rw [lines_] at found
        exact ⟨status, run, found.trans (and_iff_right fits).symm⟩
      · obtain ⟨after, rest, ended⟩ := other fits
        rw [ended]
        exact ⟨0, rfl, iff_of_false (fun wrong => wrong rfl) fun both => fits both.1⟩

/-- The exit status says whether the lines are in order exactly where they are, or where something
out of order comes before any record that does not fit into the buffers. -/
theorem order_checks_iff (config : Config) (line_data fp : List Byte) :
    (config.order line_data fp = some 0 ↔
      (linesOf config.delims fp).IsChain config.InOrder) ↔
      (linesOf config.delims fp).IsChain config.InOrder ∨
        config.FoundEarly (linesOf config.delims fp) := by
  obtain ⟨status, run, found⟩ := order_status config line_data fp
  have wrong : config.FoundEarly (linesOf config.delims fp) →
      ¬ (linesOf config.delims fp).IsChain config.InOrder := by
    rintro ⟨front, prev, cur, back, split, -, wrong⟩ chain
    rw [split] at chain
    exact wrong (List.isChain_append_cons_cons.mp chain).2.1
  have zero : config.order line_data fp = some 0 ↔ ¬ config.FoundEarly (linesOf config.delims fp) := by
    rw [run, Option.some.injEq, ← found, not_not]
  rw [zero]
  tauto

/-- `sort -c` without keys. -/
def plain : Config where
  delims := Delims.start
  SINGL_FLD := true
  UNIQUE := false
  REVERSE := false
  posix_sort := false
  nums := []
  fieldtable := []
  asked := by simp

/-- A line of 65536 bytes, and `b` before `a`. -/
def overlong : List Byte := List.replicate DEFLLEN (byte 'b') ++ ascii ['\n', 'b', '\n', 'a', '\n']

/-- The line that does not fit is taken for the end, and the disorder behind it is not found. -/
theorem order_overlong :
    plain.order [] overlong = some 0 ∧ ¬ (linesOf plain.delims overlong).IsChain plain.InOrder := by
  have clean : plain.delims.REC_D ∉ List.replicate DEFLLEN (byte 'b') := fun member =>
    absurd (List.eq_of_mem_replicate member) (by decide)
  have lines : linesOf plain.delims overlong =
      ⟨_, clean⟩ :: linesOf plain.delims (ascii ['b', '\n', 'a', '\n']) :=
    linesOf_delim clean _
  have long : ¬ plain.Fits DEFLLEN ⟨_, clean⟩ := fun fits => by
    have size := fits.1
    rw [List.length_replicate] at size
    omega
  constructor
  · obtain ⟨after, rest, ended⟩ := (get_line DEFLLEN
      (show (Statics.mk [] 0 false).overflow = false from rfl) lines).2 long
    rw [order, ended]
  · rw [lines]
    intro chain
    have two : linesOf plain.delims (ascii ['b', '\n', 'a', '\n']) =
        [⟨ascii ['b'], by decide⟩, ⟨ascii ['a'], by decide⟩] := rfl
    have behind := chain.tail
    rw [List.tail_cons, two, List.isChain_pair] at behind
    exact behind.1 (by decide)

end Config

end Netbase.Sort
