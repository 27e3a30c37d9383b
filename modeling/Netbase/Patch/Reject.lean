import Mathlib
import Netbase.Patch.Parse

/-!
# Rejected hunks

`abort_hunk` writes a hunk that could not be applied to the reject file, in the unified
format again: it derives the header from the ranges of the hunk and merges its two sides
by their marks.
-/

namespace Netbase.Patch.Reject

open Netbase.Text
open Netbase.Unified
open Netbase.Patch.Input
open Netbase.Patch.Pch
open Netbase.Patch.Parse

/-! ## Writing a hunk -/

/-- The character of a mark. -/
def markByte : Mark → Byte
  | .header => byte '*'
  | .split => byte '='
  | .context => byte ' '
  | .delete => byte '-'
  | .insert => byte '+'
  | .stop => byte '^'

def rejLine (ch : Byte) (line : List Byte) : List Byte :=
  ch :: (line ++ if Terminated line then [] else nl :: noNewline)

def number (n : Int) : List Byte := (if n < 0 then [byte '-'] else []) ++ decimal n.natAbs

/-- `internal error on (%ld %ld %ld)` -/
def internalError (i split j : Nat) : List Byte :=
  ascii ['i', 'n', 't', 'e', 'r', 'n', 'a', 'l', ' ', 'e', 'r', 'r', 'o', 'r', ' ', 'o', 'n', ' ',
    '('] ++ decimal i ++ [byte ' '] ++ decimal split ++ [byte ' '] ++ decimal j ++
    [byte ')', nl]

/-- A missing character is minus one. -/
def charByte (ch : Option Mark) : Byte := ch.elim 255 markByte

/-- The loop that merges the sides, the old one from `i` on and the new one from `j` on. -/
def abortLines (slots : Slots) (split patEnd : Nat) : Nat → Nat → Nat → List Byte
  | 0, _, _ => []
  | fuel + 1, i, j =>
      if i < split ∨ j ≤ patEnd then
        let ch1 := if i < split then some (slots.char i) else none
        let ch2 := if j ≤ patEnd then some (slots.char j) else none
        if ch1 = some .delete then
          rejLine (byte '-') (slots.line i) ++ abortLines slots split patEnd fuel (i + 1) j
        else if ch1 = some .context ∧ ch2 = some .context then
          rejLine (byte ' ') (slots.line i) ++ abortLines slots split patEnd fuel (i + 1) (j + 1)
        else if ch1 = some .header then abortLines slots split patEnd fuel (i + 1) j
        else if ch2 = some .insert ∨ ch2 = some .context then
          rejLine (charByte ch2) (slots.line j) ++ abortLines slots split patEnd fuel i (j + 1)
        else
          internalError i split j ++ rejLine (charByte ch1) (slots.line i) ++
            rejLine (charByte ch2) (slots.line j)
      else []

/-- `@@ -%ld,%ld +%ld,%ld @@` -/
def abortHeader (hunk : Hunk) (lastOffset : Int) : List Byte :=
  atSign ++ number (if hunk.ptrnLines ≠ 0 then hunk.first + lastOffset else 0) ++ [byte ','] ++
    decimal hunk.ptrnLines ++ ascii [' ', '+'] ++ number (hunk.newfirst + lastOffset) ++
    [byte ','] ++ decimal hunk.replLines ++ ascii [' ', '@', '@', '\n']

/-- `malformed hunk: no split found` -/
def noSplit : List Byte :=
  ascii ['m', 'a', 'l', 'f', 'o', 'r', 'm', 'e', 'd', ' ', 'h', 'u', 'n', 'k', ':', ' ', 'n', 'o',
    ' ', 's', 'p', 'l', 'i', 't', ' ', 'f', 'o', 'u', 'n', 'd', '\n']

/-- The text of a unified hunk that is rejected at an offset. -/
def abortHunk (hunk : Hunk) (lastOffset : Int) : List Byte :=
  match (List.range (hunk.endLine + 1)).find? fun i => hunk.slots.char i = .split with
  | none => noSplit
  | some split =>
      abortHeader hunk lastOffset ++
        abortLines hunk.slots split hunk.endLine (hunk.endLine + 2) 0 (split + 1)

/-! ## The sides of a hunk -/

/-- What an entry of the arrays holds. -/
def entry (slots : Slots) (i : Nat) : Mark × Int × List Byte :=
  (slots.char i, slots.len i, slots.line i)

/-- A text that can be the rest of a line: a newline is at most its last byte. -/
structure Textual (s : List Byte) : Prop where
  clean : nl ∉ s.dropLast
  noNul : (0 : Byte) ∉ s

/-- The new side has the context line of the old side, unless the length of the old one
does not fit its text. -/
def Copied (slots : Slots) (i j : Nat) : Prop :=
  slots.line j = slots.line i ∨ slots.len i ≠ toShort (slots.line i).length

/-- The two sides from `i` and `j` on come from one body. -/
inductive Aligned (slots : Slots) (split patEnd : Nat) : Nat → Nat → Prop where
  | done : Aligned slots split patEnd split (patEnd + 1)
  | delete {i j : Nat} (inside : i < split) (char : slots.char i = .delete)
      (rest : Aligned slots split patEnd (i + 1) j) : Aligned slots split patEnd i j
  | insert {i j : Nat} (inside : j ≤ patEnd) (char : slots.char j = .insert)
      (rest : Aligned slots split patEnd i (j + 1)) : Aligned slots split patEnd i j
  | context {i j : Nat} (inside : i < split) (inside' : j ≤ patEnd)
      (char : slots.char i = .context) (char' : slots.char j = .context)
      (copied : Copied slots i j) (rest : Aligned slots split patEnd (i + 1) (j + 1)) :
      Aligned slots split patEnd i j

namespace Aligned

variable {slots : Slots} {split patEnd i j : Nat}

theorem bounds (aligned : Aligned slots split patEnd i j) : i ≤ split ∧ j ≤ patEnd + 1 := by
  induction aligned with
  | done => exact ⟨le_refl _, le_refl _⟩
  | delete inside _ _ ih => exact ⟨inside.le, ih.2⟩
  | insert inside _ _ ih => exact ⟨ih.1, by omega⟩
  | context inside inside' _ _ _ _ _ => exact ⟨inside.le, by omega⟩

theorem char_new (aligned : Aligned slots split patEnd i j) (inside : j ≤ patEnd) :
    slots.char j = .insert ∨ slots.char j = .context := by
  induction aligned with
  | done => omega
  | delete _ _ _ ih => exact ih inside
  | insert _ char _ _ => exact Or.inl char
  | context _ _ _ char _ _ _ => exact Or.inr char

theorem char_side (aligned : Aligned slots split patEnd i j) {k : Nat} (behind : i ≤ k)
    (inside : k < split) : slots.char k = .delete ∨ slots.char k = .context := by
  induction aligned with
  | done => omega
  | delete _ char _ ih =>
      rcases Nat.eq_or_lt_of_le behind with here | later
      · exact Or.inl (here ▸ char)
      · exact ih later
  | insert _ _ _ ih => exact ih behind
  | context _ _ char _ _ _ ih =>
      rcases Nat.eq_or_lt_of_le behind with here | later
      · exact Or.inr (here ▸ char)
      · exact ih later

theorem of_delete (aligned : Aligned slots split patEnd i j) (inside : i < split)
    (char : slots.char i = .delete) : Aligned slots split patEnd (i + 1) j := by
  induction aligned with
  | done => exact absurd inside (lt_irrefl _)
  | delete _ _ rest _ => exact rest
  | insert inside' char' _ ih => exact insert inside' char' (ih inside char)
  | context _ _ other _ _ _ _ =>
      rw [char] at other
      cases other

/-- An inserted line can be taken before anything else. -/
theorem of_insert (aligned : Aligned slots split patEnd i j) (inside : j ≤ patEnd)
    (char : slots.char j = .insert) : Aligned slots split patEnd i (j + 1) := by
  induction aligned with
  | done => omega
  | delete inside' char' _ ih => exact delete inside' char' (ih inside char)
  | insert _ _ rest _ => exact rest
  | context _ _ _ other _ _ _ =>
      rw [char] at other
      cases other

/-- A context line on both sides is the same line of the body. -/
theorem of_context (aligned : Aligned slots split patEnd i j) (char : slots.char i = .context)
    (char' : slots.char j = .context) (inside : i < split) :
    Copied slots i j ∧ Aligned slots split patEnd (i + 1) (j + 1) := by
  cases aligned with
  | done => exact absurd inside (lt_irrefl _)
  | delete _ other _ =>
      rw [char] at other
      cases other
  | insert _ other _ =>
      rw [char'] at other
      cases other
  | context _ _ _ _ copied rest => exact ⟨copied, rest⟩

/-- A context line of the old side has a partner on the new side. -/
theorem partner (aligned : Aligned slots split patEnd i j) (inside : i < split)
    (char : slots.char i = .context) : ∃ k, j ≤ k ∧ k ≤ patEnd ∧ slots.char k = .context := by
  induction aligned with
  | done => exact absurd inside (lt_irrefl _)
  | delete _ other _ _ =>
      rw [char] at other
      cases other
  | insert _ _ _ ih =>
      obtain ⟨k, behind, within, is⟩ := ih inside char
      exact ⟨k, by omega, within, is⟩
  | context _ inside' _ char' _ _ _ => exact ⟨_, le_refl _, inside', char'⟩

theorem inserts (aligned : Aligned slots split patEnd i j) (last : i = split) {k : Nat}
    (behind : j ≤ k) (within : k ≤ patEnd) : slots.char k = .insert := by
  induction aligned with
  | done => omega
  | delete inside _ _ _ => omega
  | insert inside char _ ih =>
      rcases Nat.eq_or_lt_of_le behind with same | later
      · rw [← same]
        exact char
      · exact ih last later
  | context inside _ _ _ _ _ _ => omega

end Aligned

/-! ## What is accepted -/

theorem Textual.front {s t : List Byte} (textual : Textual s) (front : t <+: s) : Textual t := by
  obtain ⟨rest, rfl⟩ := front
  refine ⟨fun listed => textual.clean ?_, fun listed => textual.noNul (List.mem_append_left _ listed)⟩
  rcases List.eq_nil_or_concat rest with rfl | ⟨init, last, rfl⟩
  · rwa [List.append_nil]
  · rw [List.concat_eq_append, ← List.append_assoc, List.dropLast_concat]
    exact List.mem_append_left _ (List.mem_of_mem_dropLast listed)

theorem Textual.cutAt {s : List Byte} (textual : Textual s) (at_ : Int) :
    Textual (cutAt s at_) := by
  unfold Pch.cutAt
  split
  · exact textual.front (List.take_prefix _ _)
  · exact textual

theorem textual_cstr {buf : List Byte} (clean : nl ∉ buf.dropLast) : Textual (cstr buf) := by
  obtain ⟨rest, whole⟩ : cstr buf <+: buf := List.takeWhile_prefix _
  constructor
  · intro listed
    apply clean
    rw [← whole]
    rcases List.eq_nil_or_concat rest with rfl | ⟨init, last, rfl⟩
    · rwa [List.append_nil]
    · rw [List.concat_eq_append, ← List.append_assoc, List.dropLast_concat]
      exact List.mem_append_left _ (List.mem_of_mem_dropLast listed)
  · intro listed
    have other := List.mem_takeWhile_imp (p := fun b : Byte => decide (b ≠ 0)) listed
    exact absurd other (by decide)

theorem getline_clean (stream : List Byte) : nl ∉ (getline stream).1.dropLast := by
  by_cases empty : stream = []
  · rw [empty]
    exact List.not_mem_nil
  · have first := lines_getline empty
    exact (lines_isLine (by rw [first]; exact List.mem_cons_self)).clean

/-- What taking in one line does to the arrays: it stores on the old side, on both sides or on
the new side. -/
inductive Took (ptrnLines endLine : Nat) (fill next : Fill) : Prop where
  | delete (more : fill.fillold ≤ ptrnLines) (old : next.fillold = fill.fillold + 1)
      (new : next.fillnew = fill.fillnew) (same : SameBut fill.fillold fill.slots next.slots)
      (char : next.slots.char fill.fillold = .delete)
      (textual : Textual (next.slots.line fill.fillold))
  | context (more : fill.fillold ≤ ptrnLines) (room : fill.fillnew ≤ endLine)
      (old : next.fillold = fill.fillold + 1) (new : next.fillnew = fill.fillnew + 1)
      (same : ∀ k, k ≠ fill.fillold → k ≠ fill.fillnew → entry next.slots k = entry fill.slots k)
      (char : next.slots.char fill.fillold = .context)
      (char' : next.slots.char fill.fillnew = .context)
      (copied : Copied next.slots fill.fillold fill.fillnew)
      (textual : Textual (next.slots.line fill.fillold))
      (textual' : Textual (next.slots.line fill.fillnew))
  | insert (room : fill.fillnew ≤ endLine) (old : next.fillold = fill.fillold)
      (new : next.fillnew = fill.fillnew + 1) (same : SameBut fill.fillnew fill.slots next.slots)
      (char : next.slots.char fill.fillnew = .insert)
      (textual : Textual (next.slots.line fill.fillnew))

theorem endContext_eq (fill : Fill) :
    fill.endContext.fillold = fill.fillold ∧ fill.endContext.fillnew = fill.fillnew ∧
      fill.endContext.slots = fill.slots ∧ fill.endContext.stream = fill.stream := by
  unfold Fill.endContext
  split <;> exact ⟨rfl, rfl, rfl, rfl⟩

/-- A text is put into an entry, and perhaps cut there. -/
def Stored (slots other : Slots) (i : Nat) (mark : Mark) (s : List Byte) : Prop :=
  other = slots.put i mark s ∨ other = (slots.put i mark s).chop i

section

variable {slots other : Slots} {i : Nat} {mark : Mark} {s : List Byte}

theorem Stored.same (stored : Stored slots other i mark s) : SameBut i slots other := by
  rcases stored with rfl | rfl
  · exact SameBut.put _ _ _ _
  · exact (SameBut.put _ _ _ _).chop

theorem Stored.char (stored : Stored slots other i mark s) : other.char i = mark := by
  have put : (slots.put i mark s).char i = mark := by rw [put_char, if_pos rfl]
  rcases stored with rfl | rfl
  · exact put
  · exact put

theorem Stored.textual (stored : Stored slots other i mark s) (textual : Textual s) :
    Textual (other.line i) := by
  have put : (slots.put i mark s).line i = s := by rw [put_line, if_pos rfl]
  rcases stored with rfl | rfl
  · rw [put]
    exact textual
  · rw [chop_line, if_pos rfl, put]
    exact textual.cutAt _

end

variable {ptrnLines endLine : Nat} {fill : Fill} {s : List Byte}

variable (ptrnLines fill s)

theorem addOld_stored : (fill.addOld ptrnLines s).fillold = fill.fillold + 1 ∧
    (fill.addOld ptrnLines s).fillnew = fill.fillnew ∧
    Stored fill.slots (fill.addOld ptrnLines s).slots fill.fillold .delete s := by
  unfold Fill.addOld
  dsimp only
  split
  · exact ⟨rfl, rfl, Or.inl rfl⟩
  · exact ⟨rfl, rfl, Or.inr rfl⟩

theorem addNew_stored (mark : Mark) : (fill.addNew ptrnLines mark s).fillold = fill.fillold ∧
    (fill.addNew ptrnLines mark s).fillnew = fill.fillnew + 1 ∧
    Stored fill.slots (fill.addNew ptrnLines mark s).slots fill.fillnew mark s := by
  unfold Fill.addNew
  dsimp only
  split
  · exact ⟨rfl, rfl, Or.inl rfl⟩
  · exact ⟨rfl, rfl, Or.inr rfl⟩

theorem toShort_eq_ite (n : Int) : toShort n =
    if n % 65536 < 32768 then n % 65536 else n % 65536 - 65536 := rfl

theorem toShort_pred (n : Int) : toShort (toShort n - 1) ≠ toShort n := by
  rw [toShort_eq_ite (toShort n - 1), toShort_eq_ite n]
  split <;> split <;> omega

/-- The newline in front of a note is not counted, or there is no note. -/
theorem addContext_stored : ((fill.addContext ptrnLines s).1.fillold = fill.fillold + 1 ∧
    (fill.addContext ptrnLines s).1.fillnew = fill.fillnew) ∧
    (SameBut fill.fillold fill.slots (fill.addContext ptrnLines s).1.slots ∧
      (fill.addContext ptrnLines s).1.slots.char fill.fillold = .context ∧
      (fill.addContext ptrnLines s).1.slots.line fill.fillold = s) ∧
    ((fill.addContext ptrnLines s).2 = s ∧
        (fill.fillold + 1 > ptrnLines →
          removeSpecialLine (fill.addContext ptrnLines s).1.stream.rest = none) ∨
      (fill.addContext ptrnLines s).1.slots.len fill.fillold ≠ toShort s.length) := by
  have put := SameBut.put fill.slots fill.fillold .context s
  have char : (fill.slots.put fill.fillold .context s).char fill.fillold = .context := by
    rw [put_char, if_pos rfl]
  have line : (fill.slots.put fill.fillold .context s).line fill.fillold = s := by
    rw [put_line, if_pos rfl]
  have len : (fill.slots.put fill.fillold .context s).len fill.fillold = toShort s.length := by
    rw [put_len, if_pos rfl]
  unfold Fill.addContext
  dsimp only
  split
  · next silent =>
      refine ⟨⟨rfl, rfl⟩, ⟨put, char, line⟩, Or.inl ⟨rfl, fun last => ?_⟩⟩
      rw [if_pos last] at silent
      exact silent
  · next rest noted =>
      refine ⟨⟨rfl, rfl⟩, ⟨fun k away => ?_, char, line⟩, Or.inr ?_⟩
      · obtain ⟨char', len', line'⟩ := put k away
        exact ⟨char', (Function.update_of_ne away _ _).trans len', line'⟩
      · dsimp only
        rw [Function.update_self, len]
        exact toShort_pred _

theorem addNew_silent (mark : Mark)
    (silent : fill.fillold > ptrnLines → removeSpecialLine fill.stream.rest = none) :
    (fill.addNew ptrnLines mark s).slots = fill.slots.put fill.fillnew mark s := by
  have none_ : (if fill.fillold > ptrnLines then removeSpecialLine fill.stream.rest else none) =
      none := by
    split
    · next last => exact silent last
    · rfl
  unfold Fill.addNew
  dsimp only
  rw [none_]

variable {next : Fill} {ptrnLines fill s}

theorem sameBut_entry {i k : Nat} {slots other : Slots} (same : SameBut i slots other)
    (away : k ≠ i) : entry other k = entry slots k := by
  obtain ⟨char, len, line⟩ := same k away
  unfold Reject.entry
  rw [char, len, line]

theorem addOld_took (textual : Textual s) (more : fill.fillold ≤ ptrnLines) :
    Took ptrnLines endLine fill (fill.addOld ptrnLines s).endContext := by
  obtain ⟨old, new, slots, -⟩ := endContext_eq (fill.addOld ptrnLines s)
  obtain ⟨old', new', stored⟩ := addOld_stored ptrnLines fill s
  rw [← slots] at stored
  exact .delete more (old.trans old') (new.trans new') stored.same stored.char
    (stored.textual textual)

theorem addInsert_took (textual : Textual s) (room : fill.fillnew ≤ endLine) :
    Took ptrnLines endLine fill (fill.addNew ptrnLines .insert s).endContext := by
  obtain ⟨old, new, slots, -⟩ := endContext_eq (fill.addNew ptrnLines .insert s)
  obtain ⟨old', new', stored⟩ := addNew_stored ptrnLines fill s .insert
  rw [← slots] at stored
  exact .insert room (old.trans old') (new.trans new') stored.same stored.char
    (stored.textual textual)

theorem addContext_textual (textual : Textual s) : Textual (fill.addContext ptrnLines s).2 := by
  unfold Fill.addContext
  dsimp only
  split
  · exact textual
  · exact textual.cutAt _

theorem addKeep_took (textual : Textual s) (more : fill.fillold ≤ ptrnLines)
    (apart : ptrnLines < fill.fillnew) (room : fill.fillnew ≤ endLine) :
    Took ptrnLines endLine fill ((fill.addContext ptrnLines s).1.addNew ptrnLines .context
      (fill.addContext ptrnLines s).2) := by
  obtain ⟨⟨old, new⟩, ⟨same, char, line⟩, copied⟩ :=
    addContext_stored ptrnLines fill s
  obtain ⟨old', new', stored⟩ := addNew_stored ptrnLines
    (fill.addContext ptrnLines s).1 (fill.addContext ptrnLines s).2 .context
  have silence := addNew_silent ptrnLines
    (fill.addContext ptrnLines s).1 (fill.addContext ptrnLines s).2 .context
  have cut : Textual (fill.addContext ptrnLines s).2 := addContext_textual textual
  generalize fill.addContext ptrnLines s = ctx at *
  rw [new] at new' stored silence
  rw [old] at silence
  have away : fill.fillold ≠ fill.fillnew := by omega
  obtain ⟨charKept, lenKept, lineKept⟩ := stored.same fill.fillold away
  refine .context more room (old'.trans old) new'
    (fun k notOld notNew => (sameBut_entry stored.same notNew).trans (sameBut_entry same notOld))
    (charKept.trans char) stored.char ?_ ?_ (stored.textual cut)
  · rcases copied with ⟨copy, silent⟩ | short
    · left
      rw [lineKept, line, silence silent, put_line, if_pos rfl, copy]
    · right
      rw [lenKept, lineKept, line]
      exact short
  · rw [lineKept, line]
    exact textual

theorem fillLine_took {buf : List Byte} (clean : nl ∉ buf.dropLast)
    (apart : ptrnLines < fill.fillnew) (run : fillLine ptrnLines endLine fill buf = .ok next) :
    Took ptrnLines endLine fill next := by
  have cleanTail : nl ∉ buf.tail.dropLast := by
    intro listed
    apply clean
    cases buf with
    | nil => exact listed
    | cons b rest =>
        have more : rest ≠ [] := by
          rintro rfl
          cases listed
        rw [List.dropLast_cons_of_ne_nil more]
        exact List.mem_cons_of_mem _ listed
  unfold fillLine at run
  dsimp only at run
  generalize text : (if buf.head? = some (byte '\t') ∨ buf.head? = some nl then cstr buf
    else cstr buf.tail) = s at run
  generalize (if buf.head? = some (byte '\t') ∨ buf.head? = some nl then byte ' '
    else buf.headD 0) = ch at run
  have textual : Textual s := by
    rw [← text]
    split
    · exact textual_cstr clean
    · exact textual_cstr cleanTail
  split at run
  · split at run
    · cases run
    · next more =>
        cases run
        exact addOld_took textual (Nat.not_lt.mp more)
  split at run
  · split at run
    · cases run
    · next more =>
        split at run
        · cases run
        · next room =>
            cases run
            have new := (addContext_stored ptrnLines fill s).1.2
            rw [new] at room
            exact addKeep_took textual (Nat.not_lt.mp more) apart (Nat.not_lt.mp room)
  split at run
  · split at run
    · cases run
    · next room =>
        cases run
        exact addInsert_took textual (Nat.not_lt.mp room)
  · cases run

/-- The rest of a hunk that has been taken in from here on: its two sides come from one body,
and what was there before has been kept. -/
structure Completed (ptrnLines endLine : Nat) (fill : Fill) (slots : Slots) : Prop where
  aligned : Aligned slots (ptrnLines + 1) endLine fill.fillold fill.fillnew
  oldText : ∀ k, fill.fillold ≤ k → k ≤ ptrnLines → Textual (slots.line k)
  newText : ∀ k, fill.fillnew ≤ k → k ≤ endLine → Textual (slots.line k)
  oldKept : ∀ k < fill.fillold, entry slots k = entry fill.slots k
  newKept : ∀ k, ptrnLines < k → k < fill.fillnew → entry slots k = entry fill.slots k

theorem entry_char {slots other : Slots} {k : Nat} (same : entry slots k = entry other k) :
    slots.char k = other.char k := congrArg Prod.fst same

theorem entry_len {slots other : Slots} {k : Nat} (same : entry slots k = entry other k) :
    slots.len k = other.len k := congrArg (fun e => e.2.1) same

theorem entry_line {slots other : Slots} {k : Nat} (same : entry slots k = entry other k) :
    slots.line k = other.line k := congrArg (fun e => e.2.2) same

theorem Took.completed {slots : Slots} (took : Took ptrnLines endLine fill next)
    (apart : ptrnLines < fill.fillnew) (within : fill.fillold ≤ ptrnLines + 1)
    (completed : Completed ptrnLines endLine next slots) :
    Completed ptrnLines endLine fill slots := by
  cases took with
  | delete more old new same char textual =>
      have kept := completed.oldKept fill.fillold (by omega)
      refine
        { aligned := ?_
          oldText := fun k behind inside => ?_
          newText := fun k behind inside => completed.newText k (by omega) inside
          oldKept := fun k before => ?_
          newKept := fun k beyond before => ?_ }
      · refine .delete (by omega) ((entry_char kept).trans char) ?_
        rw [← old, ← new]
        exact completed.aligned
      · rcases Nat.eq_or_lt_of_le behind with here | later
        · rw [← here, entry_line kept]
          exact textual
        · exact completed.oldText k (by omega) inside
      · exact (completed.oldKept k (by omega)).trans (sameBut_entry same (by omega))
      · exact (completed.newKept k beyond (by omega)).trans (sameBut_entry same (by omega))
  | insert room old new same char textual =>
      have kept := completed.newKept fill.fillnew apart (by omega)
      refine
        { aligned := ?_
          oldText := fun k behind inside => completed.oldText k (by omega) inside
          newText := fun k behind inside => ?_
          oldKept := fun k before => ?_
          newKept := fun k beyond before => ?_ }
      · refine .insert room ((entry_char kept).trans char) ?_
        rw [← old, ← new]
        exact completed.aligned
      · rcases Nat.eq_or_lt_of_le behind with here | later
        · rw [← here, entry_line kept]
          exact textual
        · exact completed.newText k (by omega) inside
      · exact (completed.oldKept k (by omega)).trans (sameBut_entry same (by omega))
      · exact (completed.newKept k beyond (by omega)).trans (sameBut_entry same (by omega))
  | context more room old new same char char' copied textual textual' =>
      have kept := completed.oldKept fill.fillold (by omega)
      have kept' := completed.newKept fill.fillnew apart (by omega)
      refine
        { aligned := ?_
          oldText := fun k behind inside => ?_
          newText := fun k behind inside => ?_
          oldKept := fun k before => ?_
          newKept := fun k beyond before => ?_ }
      · refine .context (by omega) room ((entry_char kept).trans char)
          ((entry_char kept').trans char') ?_ ?_
        · rw [Copied, entry_line kept, entry_line kept', entry_len kept]
          exact copied
        · rw [← old, ← new]
          exact completed.aligned
      · rcases Nat.eq_or_lt_of_le behind with here | later
        · rw [← here, entry_line kept]
          exact textual
        · exact completed.oldText k (by omega) inside
      · rcases Nat.eq_or_lt_of_le behind with here | later
        · rw [← here, entry_line kept']
          exact textual'
        · exact completed.newText k (by omega) inside
      · exact (completed.oldKept k (by omega)).trans (same k (by omega) (by omega))
      · exact (completed.newKept k beyond (by omega)).trans (same k (by omega) (by omega))

theorem Took.bounds (took : Took ptrnLines endLine fill next)
    (within : fill.fillold ≤ ptrnLines + 1) (within' : fill.fillnew ≤ endLine + 1) :
    fill.fillnew ≤ next.fillnew ∧ next.fillold ≤ ptrnLines + 1 ∧ next.fillnew ≤ endLine + 1 ∧
      (ptrnLines + 1 - next.fillold) + (endLine + 1 - next.fillnew) <
        (ptrnLines + 1 - fill.fillold) + (endLine + 1 - fill.fillnew) := by
  cases took <;> omega

theorem completed_end (old : fill.fillold = ptrnLines + 1) (new : fill.fillnew = endLine + 1) :
    Completed ptrnLines endLine fill fill.slots where
  aligned := by
    rw [old, new]
    exact .done
  oldText := fun k behind inside => by omega
  newText := fun k behind inside => by omega
  oldKept := fun _ _ => rfl
  newKept := fun _ _ _ => rfl

/-- A hunk that has been read to its end is the two sides of one body. -/
theorem fillHunk_completed (fuel : Nat) {final : Fill} (apart : ptrnLines < fill.fillnew)
    (within : fill.fillold ≤ ptrnLines + 1) (within' : fill.fillnew ≤ endLine + 1)
    (enough : (ptrnLines + 1 - fill.fillold) + (endLine + 1 - fill.fillnew) ≤ fuel)
    (run : fillHunk ptrnLines endLine fuel fill = .ok final) :
    Completed ptrnLines endLine fill final.slots := by
  induction fuel generalizing fill with
  | zero =>
      cases run
      exact completed_end (by omega) (by omega)
  | succ fuel ih =>
      rw [fillHunk] at run
      split at run
      · have step : ∀ {stream : Stream} {buf : List Byte} {next : Fill}, nl ∉ buf.dropLast →
            fillLine ptrnLines endLine { fill with stream := stream } buf = .ok next →
            fillHunk ptrnLines endLine fuel next = .ok final →
            Completed ptrnLines endLine fill final.slots := by
          intro stream buf next clean read taken
          have took : Took ptrnLines endLine { fill with stream := stream } next :=
            fillLine_took clean apart read
          obtain ⟨grown, old, new, less⟩ := took.bounds within within'
          have grown' : fill.fillnew ≤ next.fillnew := grown
          have less' : (ptrnLines + 1 - next.fillold) + (endLine + 1 - next.fillnew) <
              (ptrnLines + 1 - fill.fillold) + (endLine + 1 - fill.fillnew) := less
          have rest := ih (by omega) old new (by omega) taken
          obtain ⟨aligned, oldText, newText, oldKept, newKept⟩ :=
            took.completed apart within rest
          exact ⟨aligned, oldText, newText, oldKept, newKept⟩
        dsimp only at run
        split at run
        · split at run
          · split at run
            · cases run
            · next read => exact step (show nl ∉ [byte ' ', nl].dropLast by decide) read run
          · cases run
        · split at run
          · cases run
          · next read => exact step (getline_clean _) read run
      · cases run
        exact completed_end (by omega) (by omega)

/-- Line numbers and counts that fit. -/
structure Ranges (first ptrnLines newfirst replLines : Nat) : Prop where
  first : (first : Int) < longMax - ptrnLines
  newfirst : (newfirst : Int) ≤ longMax - replLines
  count : (ptrnLines : Int) < longMax - replLines - 1

theorem readHeader_ranges {buf : List Byte} {first count newfirst newcount : Nat}
    (run : readHeader buf = some (first, count, newfirst, newcount)) :
    Ranges first count newfirst newcount := by
  unfold readHeader at run
  split at run
  · cases run
  split at run
  · cases run
  dsimp only at run
  split at run
  · cases run
  next small =>
  split at run
  · cases run
  split at run
  · cases run
  split at run
  · cases run
  split at run
  · cases run
  next fits =>
  cases run
  rw [not_or] at fits
  exact ⟨Int.not_le.mp small, Int.not_lt.mp fits.1, Int.not_le.mp fits.2⟩

/-- A hunk as `another_hunk` leaves it. -/
structure Formed (hunk : Hunk) : Prop where
  endLine : hunk.endLine = hunk.ptrnLines + hunk.replLines + 1
  header : hunk.slots.char 0 = .header
  split : hunk.slots.char (hunk.ptrnLines + 1) = .split
  aligned : Aligned hunk.slots (hunk.ptrnLines + 1) hunk.endLine 1 (hunk.ptrnLines + 2)
  oldText : ∀ k, 1 ≤ k → k ≤ hunk.ptrnLines → Textual (hunk.slots.line k)
  newText : ∀ k, hunk.ptrnLines + 2 ≤ k → k ≤ hunk.endLine → Textual (hunk.slots.line k)
  ranges : ∃ first newfirst : Nat, Ranges first hunk.ptrnLines newfirst hunk.replLines ∧
    hunk.first = (if hunk.ptrnLines = 0 then (first : Int) + 1 else first) ∧
    hunk.newfirst = newfirst

theorem anotherHunk_formed {stream after : Stream} {hunk : Hunk}
    (run : anotherHunk stream = .ok (some hunk, after)) : Formed hunk := by
  unfold anotherHunk at run
  dsimp only at run
  split at run
  · cases run
  split at run
  · cases run
  next first ptrnLines newfirst replLines header =>
  split at run
  · cases run
  next final filled =>
  cases run
  have completed := fillHunk_completed (ptrnLines + replLines + 1 + 1) (by dsimp only; omega)
    (by dsimp only; omega) (by dsimp only; omega) (by dsimp only; omega) filled
  have start := completed.oldKept 0 (by dsimp only; omega)
  have middle := completed.newKept (ptrnLines + 1) (by omega) (by dsimp only; omega)
  refine
    { endLine := rfl
      header := (entry_char start).trans ?_
      split := (entry_char middle).trans ?_
      aligned := completed.aligned
      oldText := completed.oldText
      newText := completed.newText
      ranges := ⟨first, newfirst, readHeader_ranges header, rfl, rfl⟩ }
  · exact (put_char _ _ _ _ _).trans ((if_neg (by omega)).trans ((put_char _ _ _ _ _).trans
      (if_pos rfl)))
  · exact (put_char _ _ _ _ _).trans (if_pos rfl)

end Netbase.Patch.Reject
