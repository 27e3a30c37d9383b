import Netbase.Sort.Key

/-!
# Reading records

`makeline` reads a line right into the record buffer; `makekey` reads it into a buffer
of its own and enters its keys.  Both say `BUFFEND` where the record does not fit, and
go on with it when they are called again.
-/

namespace Netbase.Sort

open Netbase.Text

/-- What a file is sorted by: `SINGL_FLD` is set where there are no keys. -/
structure Config where
  delims : Delims
  SINGL_FLD : Bool
  UNIQUE : Bool
  REVERSE : Bool
  posix_sort : Bool
  nums : List Nat
  fieldtable : List Field
  asked : ∀ field ∈ fieldtable, Asked nums field

/-! ## `makeline` -/

/-- How the loop of `makeline` ends: with a line, at the end of the file, or at the end of the
buffer. -/
inductive Fill where
  | line (data fp : List Byte)
  | eof
  | full (data fp : List Byte)
  deriving DecidableEq, Repr

/-- `while (pos < bufend)`, with `room` bytes before `bufend`; `data` stands in the record so far. -/
def fill (REC_D : Byte) : Nat → List Byte → List Byte → Fill
  | 0, data, fp => .full data fp
  | _ + 1, data, [] => if data = [] then .eof else .line (data ++ [REC_D]) []
  | room + 1, data, c :: fp =>
      if c = REC_D then .line (data ++ [c]) fp else fill REC_D room (data ++ [c]) fp

/-- The record of a line without keys. -/
def lineRecord (data : List Byte) : Recheader where
  length := data.length
  offset := 0
  keylen := data.length - 1
  data := data

/-! ## `makekey` -/

/-- `seq`: a line with its delimiter, and the rest of the file. -/
def seq (REC_D : Byte) : List Byte → List Byte → Option (List Byte × List Byte)
  | data, [] => if data = [] then none else some (data ++ [REC_D], [])
  | data, c :: fp =>
      if c = REC_D then some (data ++ [c], fp) else seq REC_D (data ++ [c]) fp

/-- The variables of `makekey`; `line_data` is the memory from there on, where `line_size` bytes are
the line. -/
structure Statics where
  line_data : List Byte
  line_size : Nat
  overflow : Bool
  deriving DecidableEq, Repr

/-- The results of the readers; `BUFFEND` for a record that does not fit. -/
inductive Got where
  | record (header : Recheader)
  | eof
  | buffend
  deriving DecidableEq, Repr

namespace Config

/-- `overflow = enterkey(recbuf, bufend, line_data, line_size, ftbl);` -/
def enter (config : Config) (room : Nat) (statics : Statics) : Got × Statics :=
  match enterkey (settables config.delims.REC_D) config.delims config.posix_sort config.nums
      config.fieldtable room statics.line_data statics.line_size with
  | some header => (.record header, { statics with overflow := false })
  | none => (.buffend, { statics with overflow := true })

/-- `makekey`, for a record buffer with `room` bytes of data. -/
def makekey (config : Config) (room : Nat) (statics : Statics) (fp : List Byte) :
    Got × Statics × List Byte :=
  if statics.overflow then
    let (got, statics) := config.enter room statics
    (got, statics, fp)
  else
    match seq config.delims.REC_D [] fp with
    | none => (.eof, { statics with line_size := 0 }, [])
    | some (line, fp) =>
        let statics : Statics :=
          { line_data := line ++ statics.line_data.drop line.length
            line_size := line.length
            overflow := false }
        if room < line.length then (.buffend, { statics with overflow := true }, fp)
        else
          let (got, statics) := config.enter room statics
          (got, statics, fp)

end Config

/-! ## The lines of a file -/

/-- The lines of a file; the last gets a delimiter if it has none. -/
def linesOf (delims : Delims) : List Byte → List (Line delims)
  | [] => []
  | c :: fp =>
      if same : c = delims.REC_D then ⟨[], by simp⟩ :: linesOf delims fp
      else
        match linesOf delims fp with
        | [] => [⟨[c], by simpa [eq_comm] using same⟩]
        | line :: lines =>
            ⟨c :: line.bytes, fun member => (List.mem_cons.mp member).elim
              (fun wrong => same wrong.symm) line.clean⟩ :: lines

section

variable {delims : Delims}

variable {p : List Byte}

theorem linesOf_delim (clean : delims.REC_D ∉ p) (rest : List Byte) :
    linesOf delims (p ++ delims.REC_D :: rest) = ⟨p, clean⟩ :: linesOf delims rest := by
  induction p with
  | nil => simp [linesOf]
  | cons c p ih =>
      have other : c ≠ delims.REC_D := fun same => clean (by simp [same])
      rw [List.cons_append, linesOf, dif_neg other, ih fun member => clean (by simp [member])]

theorem linesOf_last (clean : delims.REC_D ∉ p) (nonempty : p ≠ []) :
    linesOf delims p = [⟨p, clean⟩] := by
  induction p with
  | nil => exact absurd rfl nonempty
  | cons c p ih =>
      have other : c ≠ delims.REC_D := fun same => clean (by simp [same])
      rw [linesOf, dif_neg other]
      by_cases nothing : p = []
      · simp [nothing, linesOf]
      · rw [ih (fun member => clean (by simp [member])) nothing]

theorem linesOf_front {rest : List Byte} (clean : delims.REC_D ∉ p) (some : p ++ rest ≠ []) :
    ∃ line lines, linesOf delims (p ++ rest) = line :: lines ∧ p.length ≤ line.bytes.length := by
  by_cases there : delims.REC_D ∈ rest
  · obtain ⟨front, behind, rfl, apart⟩ := List.eq_append_cons_of_mem there
    have whole : delims.REC_D ∉ p ++ front := by simp [clean, apart]
    rw [← List.append_assoc, linesOf_delim whole]
    exact ⟨_, _, rfl, by simp⟩
  · have whole : delims.REC_D ∉ p ++ rest := by simp [clean, there]
    rw [linesOf_last whole some]
    exact ⟨_, _, rfl, by simp⟩

theorem linesOf_nil_iff {fp : List Byte} : linesOf delims fp = [] ↔ fp = [] := by
  constructor
  · intro none_
    by_contra some
    obtain ⟨_, _, first, -⟩ := linesOf_front (List.not_mem_nil : delims.REC_D ∉ []) some
    rw [List.nil_append, none_] at first
    cases first
  · rintro rfl
    rfl

theorem not_mem_concat {data : List Byte} {c : Byte} (clean : delims.REC_D ∉ data)
    (other : c ≠ delims.REC_D) : delims.REC_D ∉ data ++ [c] := by
  simp [clean, other.symm]

/-- A line that is read is the first line of the file, behind what was read of it before. -/
structure Took (delims : Delims) (text line rest : List Byte) : Prop where
  first : ∃ clean, linesOf delims text = ⟨line, clean⟩ :: linesOf delims rest
  shorter : rest.length < text.length

theorem took_delim (clean : delims.REC_D ∉ p) (rest : List Byte) :
    Took delims (p ++ delims.REC_D :: rest) p rest :=
  ⟨⟨clean, linesOf_delim clean rest⟩, by simp; omega⟩

theorem took_last (clean : delims.REC_D ∉ p) (nonempty : p ≠ []) :
    Took delims p p [] :=
  ⟨⟨clean, linesOf_last clean nonempty⟩, List.length_pos_iff.mpr nonempty⟩

/-- What the loop of `makeline` does. -/
inductive Fills (delims : Delims) (room : Nat) (data fp : List Byte) : Fill → Prop where
  | line {line rest : List Byte} (took : Took delims (data ++ fp) line rest)
      (fits : line.length + 1 ≤ data.length + room) :
      Fills delims room data fp (.line (line ++ [delims.REC_D]) rest)
  | eof (nothing : data = []) (finished : fp = []) : Fills delims room data fp .eof
  | full {more rest : List Byte} (whole : more ++ rest = data ++ fp) (clean : delims.REC_D ∉ more)
      (size : more.length = data.length + room) : Fills delims room data fp (.full more rest)

theorem fill_fills (room : Nat) {data : List Byte} (clean : delims.REC_D ∉ data) (fp : List Byte) :
    Fills delims room data fp (fill delims.REC_D room data fp) := by
  induction room generalizing data fp with
  | zero => exact .full rfl clean rfl
  | succ room ih =>
      cases fp with
      | nil =>
          rw [fill]
          split
          · next nothing => exact .eof nothing rfl
          · next some =>
              refine .line ?_ (by omega)
              rw [List.append_nil]
              exact took_last clean some
      | cons c fp =>
          rw [fill]
          split
          · next same =>
              subst same
              exact .line (took_delim clean fp) (by omega)
          · next other =>
              have assoc : data ++ [c] ++ fp = data ++ c :: fp := by simp
              have deeper := ih (not_mem_concat clean other) fp
              generalize fill delims.REC_D room (data ++ [c]) fp = result at deeper ⊢
              cases deeper with
              | line took fits =>
                  rw [assoc] at took
                  exact .line took (by simp at fits; omega)
              | eof nothing finished => simp at nothing
              | full whole clean size =>
                  exact .full (whole.trans assoc) clean (by simp at size; omega)

theorem seq_some {data : List Byte} (clean : delims.REC_D ∉ data) {fp : List Byte}
    (nonempty : data ++ fp ≠ []) :
    ∃ line rest, seq delims.REC_D data fp = some (line ++ [delims.REC_D], rest) ∧
      Took delims (data ++ fp) line rest := by
  induction fp generalizing data with
  | nil =>
      rw [List.append_nil] at nonempty ⊢
      exact ⟨data, [], if_neg nonempty, took_last clean nonempty⟩
  | cons c fp ih =>
      rw [seq]
      by_cases same : c = delims.REC_D
      · subst same
        exact ⟨data, fp, if_pos rfl, took_delim clean fp⟩
      · rw [if_neg same]
        obtain ⟨line, rest, read, took⟩ := ih (not_mem_concat clean same) (by simp)
        rw [List.append_assoc, List.singleton_append] at took
        exact ⟨line, rest, read, took⟩

end

end Netbase.Sort
