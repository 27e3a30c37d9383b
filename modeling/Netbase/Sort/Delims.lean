import Mathlib.Logic.Function.Basic
import Netbase.Text.Lines

/-!
# Delimiters

`d_mask` marks the blanks, the field delimiters and the record delimiter.  The
options `-R` and `-t` change it, each once, in the order in which they are given.
-/

namespace Netbase.Sort

open Netbase.Text

/-- The bits `BLANK`, `FLD_D` and `REC_D_F`. -/
structure Mask where
  blank : Bool := false
  field : Bool := false
  record : Bool := false
  deriving DecidableEq, Repr

/-- The texts that the options are refused with. -/
inductive Usage where
  | multipleRecordDelimiters
  | multipleFieldDelimiters
  | recordFieldDelimiterClash
  deriving DecidableEq, Repr

/-- A space, a tab or a newline. -/
def isBlank (c : Byte) : Prop := c = byte ' ' ∨ c = byte '\t' ∨ c = nl

instance (c : Byte) : Decidable (isBlank c) := inferInstanceAs (Decidable (_ ∨ _ ∨ _))

/-- The delimiters: `sep` is the argument of `-t`, if it was given, and then `SEP_FLAG` is set. -/
structure Delims where
  REC_D : Byte
  sep : Option Byte
  d_mask : Byte → Mask
  record_iff : ∀ c, (d_mask c).record = true ↔ c = REC_D
  blank_iff : ∀ c, (d_mask c).blank = true ↔ c ≠ REC_D ∧ isBlank c
  field_blank : sep = none → ∀ c, c ≠ REC_D → (d_mask c).field = (d_mask c).blank
  field_sep : ∀ c, sep = some c → c ≠ REC_D → (d_mask c).field = true
  apart : REC_D = nl → sep ≠ some nl

namespace Delims

/-- `d_mask` as `main` sets it up. -/
def startMask : Byte → Mask :=
  Function.update
    (Function.update (Function.update (fun _ => {}) nl { record := true })
      (byte '\t') { blank := true, field := true })
    (byte ' ') { blank := true, field := true }

/-- The delimiters without options. -/
def start : Delims where
  REC_D := nl
  sep := none
  d_mask := startMask
  record_iff := by
    apply forall_byte
    decide +kernel
  blank_iff := by
    apply forall_byte
    decide +kernel
  field_blank := by
    intro _
    apply forall_byte
    decide +kernel
  field_sep := by simp
  apart := by simp

/-- `d_mask` behind `-R`. -/
def recordMask (d_mask : Byte → Mask) (c : Byte) : Byte → Mask :=
  Function.update (Function.update d_mask nl (d_mask (byte ' '))) c { record := true }

/-- `-R c` -/
def optR (delims : Delims) (c : Byte) : Except Usage Delims :=
  if newline : delims.REC_D = nl then
    if same : c = nl then .ok delims
    else
      have space : byte ' ' ≠ delims.REC_D := by
        rw [newline]
        decide
      .ok
        { REC_D := c
          sep := delims.sep
          d_mask := recordMask delims.d_mask c
          record_iff := fun d => by
            unfold recordMask
            by_cases there : d = c
            · simp [there]
            · rw [Function.update_of_ne there]
              by_cases line : d = nl
              · subst line
                rw [Function.update_self, delims.record_iff]
                exact iff_of_false space there
              · rw [Function.update_of_ne line, delims.record_iff, newline]
                exact iff_of_false line there
          blank_iff := fun d => by
            unfold recordMask
            by_cases there : d = c
            · simp [there]
            · rw [Function.update_of_ne there]
              by_cases line : d = nl
              · subst line
                rw [Function.update_self, delims.blank_iff]
                exact iff_of_true ⟨space, Or.inl rfl⟩ ⟨there, Or.inr (Or.inr rfl)⟩
              · rw [Function.update_of_ne line, delims.blank_iff, newline]
                exact and_congr_left fun _ => iff_of_true line there
          field_blank := fun none_ d other => by
            unfold recordMask
            rw [Function.update_of_ne other]
            by_cases line : d = nl
            · subst line
              rw [Function.update_self]
              exact delims.field_blank none_ _ space
            · rw [Function.update_of_ne line]
              exact delims.field_blank none_ d (by rw [newline]; exact line)
          field_sep := fun d given other => by
            have line : d ≠ nl := fun line => delims.apart newline (line ▸ given)
            unfold recordMask
            rw [Function.update_of_ne other, Function.update_of_ne line]
            exact delims.field_sep d given (by rw [newline]; exact line)
          apart := fun wrong => absurd wrong same }
  else .error .multipleRecordDelimiters

/-- `d_mask` behind `-t`. -/
def fieldMask (d_mask : Byte → Mask) (c d : Byte) : Mask :=
  { d_mask d with
    field := if d = c then true else if isBlank d then false else (d_mask d).field }

/-- `-t c` -/
def optT (delims : Delims) (c : Byte) : Except Usage Delims :=
  if delims.sep ≠ none then .error .multipleFieldDelimiters
  else if clash : (delims.d_mask c).record = true then .error .recordFieldDelimiterClash
  else
    .ok
      { delims with
        sep := some c
        d_mask := fieldMask delims.d_mask c
        record_iff := delims.record_iff
        blank_iff := delims.blank_iff
        field_blank := by simp
        field_sep := fun d given _ => by
          rw [Option.some.injEq] at given
          simp [fieldMask, given]
        apart := fun newline same => by
          rw [Option.some.injEq] at same
          exact clash ((delims.record_iff c).mpr (same.trans newline.symm)) }

end Delims

end Netbase.Sort
