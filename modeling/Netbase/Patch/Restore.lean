import Netbase.Patch.Reject

/-!
# Reading a rejected hunk again

What `another_hunk` makes of the text that `abort_hunk` has written.  Every line comes
back with its mark, its length and its text where the newline that was put behind it is
taken away again together with the note.
-/

namespace Netbase.Patch.Restore

open Netbase.Text
open Netbase.Unified
open Netbase.Patch.Input
open Netbase.Patch.Pch
open Netbase.Patch.Parse
open Netbase.Patch.Reject

/-! ## A line that has been written -/

section Lines

variable {s tail : List Byte} {ch : Byte}

theorem Textual.record_eq (textual : Textual s) : ∃ body, nl ∉ body ∧ record s = body ++ [nl] := by
  unfold record
  split
  · next terminated =>
      refine ⟨s.dropLast, textual.clean, ?_⟩
      exact (List.dropLast_append_getLast? nl terminated).symm
  · next open_ =>
      refine ⟨s, fun listed => ?_, rfl⟩
      rcases List.eq_nil_or_concat s with rfl | ⟨init, last, rfl⟩
      · cases listed
      · rw [List.concat_eq_append] at *
        rcases List.mem_append.mp listed with inInit | same
        · refine textual.clean ?_
          rw [List.dropLast_concat]
          exact inInit
        · exact open_ (by rw [Terminated, List.getLast?_concat, List.mem_singleton.mp same])

theorem Textual.record_noNul (textual : Textual s) : (0 : Byte) ∉ record s := by
  unfold record
  split
  · exact textual.noNul
  · intro listed
    rcases List.mem_append.mp listed with inText | last
    · exact textual.noNul inText
    · exact absurd (List.mem_singleton.mp last) (by decide)

theorem getline_rejLine (textual : Textual s) (visible : ch ≠ nl) :
    getline (rejLine ch s ++ tail) = (ch :: record s, note s ++ tail) := by
  obtain ⟨body, clean, whole⟩ := Textual.record_eq textual
  have first : IsLine (ch :: record s) := by
    rw [whole]
    exact isLine_cons visible (isLine_body clean)
  have ended : Terminated (ch :: record s) := by
    rw [whole]
    exact (terminated_cons (by simp)).mpr (terminated_body body)
  have split : rejLine ch s ++ tail = (ch :: record s) ++ (note s ++ tail) := by
    unfold rejLine record note
    split <;> simp
  rw [split, getline_line first ended]

/-- What is stored for a line that is read again with its note. -/
def backEntry (mark : Mark) (s : List Byte) : Mark × Int × List Byte :=
  (mark, toShort s.length, if Terminated s then s else cutAt (s ++ [nl]) (toShort s.length))

/-- The newline that was put behind a text is cut off again, unless the text is too long. -/
theorem cutAt_eq_iff (s : List Byte) : cutAt (s ++ [nl]) (toShort s.length) = s ↔
    s.length ≤ 32767 := by
  constructor
  · intro same
    by_contra long
    have short : toShort s.length < 32768 := by
      rw [toShort_eq_ite]
      split <;> omega
    unfold cutAt at same
    split at same
    · next positive =>
        have length := congrArg List.length same
        rw [List.length_take, List.length_append, List.length_singleton] at length
        omega
    · have length := congrArg List.length same
      rw [List.length_append, List.length_singleton] at length
      omega
  · intro short
    rw [cutAt, toShort_eq short, if_pos (Int.natCast_nonneg _), Int.toNat_natCast, List.take_left]

theorem backEntry_eq_iff (mark : Mark) (s : List Byte) (len : Int) :
    backEntry mark s = (mark, len, s) ↔
      len = toShort s.length ∧ (Terminated s ∨ s.length ≤ 32767) := by
  unfold backEntry
  by_cases terminated : Terminated s
  · simp only [terminated, if_true, Prod.mk.injEq, true_and, and_true, true_or]
    exact eq_comm
  · simp only [terminated, if_false, Prod.mk.injEq, true_and, cutAt_eq_iff, false_or]
    exact and_congr_left' eq_comm

theorem toShort_succ (n : Nat) : toShort (toShort (n + 1 : Nat) - 1) = toShort n := by
  rw [toShort_eq_ite (toShort _ - 1), toShort_eq_ite (n + 1 : Nat), toShort_eq_ite n]
  push_cast
  split <;> split <;> split <;> omega

theorem stored_entry (slots : Slots) (i : Nat) (mark : Mark) (s : List Byte) :
    entry (if Terminated s then slots.put i mark (record s)
      else (slots.put i mark (record s)).chop i) i = backEntry mark s := by
  unfold backEntry
  by_cases terminated : Terminated s
  · rw [if_pos terminated, if_pos terminated, record_of_terminated terminated, entry, put_char,
      put_len, put_line, if_pos rfl, if_pos rfl, if_pos rfl]
  · have whole : record s = s ++ [nl] := if_neg terminated
    have length : toShort ((slots.put i mark (record s)).len i - 1) = toShort s.length := by
      rw [put_len, if_pos rfl, whole, List.length_append, List.length_singleton]
      exact toShort_succ _
    have char : ((slots.put i mark (record s)).chop i).char i = mark :=
      (put_char slots i i mark (record s)).trans (if_pos rfl)
    rw [if_neg terminated, if_neg terminated, entry, char, chop_len, chop_line, if_pos rfl,
      if_pos rfl, length, put_line, if_pos rfl, whole]

end Lines

/-! ## Reading one line -/

section Reading

variable {ptrnLines endLine : Nat} {fill next : Fill} {s tail : List Byte} {ch : Byte}

/-- The arrays with a line that has been read with its note. -/
def backSlots (slots : Slots) (i : Nat) (mark : Mark) (s : List Byte) : Slots :=
  if Terminated s then slots.put i mark (record s) else (slots.put i mark (record s)).chop i

theorem backSlots_same (slots : Slots) (i : Nat) (mark : Mark) (s : List Byte) :
    SameBut i slots (backSlots slots i mark s) := by
  unfold backSlots
  split
  · exact SameBut.put _ _ _ _
  · exact (SameBut.put _ _ _ _).chop

/-- The state behind a line that has been written, before its note is looked for. -/
def Fill.behind (fill : Fill) (s tail : List Byte) : Fill :=
  { fill with
    stream := { rest := note s ++ tail, inputLine := fill.stream.inputLine + 1 } }

theorem fillHunk_round (textual : Textual s) (visible : ch ≠ nl)
    (rest : fill.stream.rest = rejLine ch s ++ tail)
    (more : fill.fillold ≤ ptrnLines ∨ fill.fillnew ≤ endLine)
    (run : fillLine ptrnLines endLine (Fill.behind fill s tail) (ch :: record s) = .ok next)
    (fuel : Nat) :
    fillHunk ptrnLines endLine (fuel + 1) fill = fillHunk ptrnLines endLine fuel next := by
  have nonempty : fill.stream.rest ≠ [] := by
    rw [rest]
    exact List.cons_ne_nil _ _
  have read : getline fill.stream.rest = (ch :: record s, note s ++ tail) := by
    rw [rest]
    exact getline_rejLine textual visible
  rw [fillHunk, if_pos more]
  dsimp only
  rw [if_neg nonempty, read]
  unfold Fill.behind at run
  dsimp only
  rw [run]

variable (ptrnLines fill)

theorem addOld_back (rest : fill.stream.rest = note s ++ tail)
    (plain : tail.head? ≠ some (byte '\\'))
    (taken : ¬ Terminated s → fill.fillold + 1 > ptrnLines) :
    (fill.addOld ptrnLines (record s)) =
      { fill with
        fillold := fill.fillold + 1
        slots := backSlots fill.slots fill.fillold .delete s
        stream := { fill.stream with rest := tail } } := by
  unfold Fill.addOld backSlots
  rw [rest, special_note _ plain taken]
  by_cases terminated : Terminated s
  · have silent : note s = [] := if_pos terminated
    rw [silent, List.nil_append] at rest
    simp only [terminated, if_true, ← rest]
  · simp only [terminated, if_false]

theorem addNew_back (mark : Mark) (rest : fill.stream.rest = note s ++ tail)
    (plain : tail.head? ≠ some (byte '\\'))
    (taken : ¬ Terminated s → fill.fillold > ptrnLines) :
    (fill.addNew ptrnLines mark (record s)) =
      { fill with
        fillnew := fill.fillnew + 1
        slots := backSlots fill.slots fill.fillnew mark s
        stream := { fill.stream with rest := tail } } := by
  unfold Fill.addNew backSlots
  rw [rest, special_note _ plain taken]
  by_cases terminated : Terminated s
  · have silent : note s = [] := if_pos terminated
    rw [silent, List.nil_append] at rest
    simp only [terminated, if_true, ← rest]
  · simp only [terminated, if_false]

theorem addNew_plain (mark : Mark) (plain : fill.stream.rest.head? ≠ some (byte '\\')) :
    fill.addNew ptrnLines mark s =
      { fill with
        fillnew := fill.fillnew + 1
        slots := fill.slots.put fill.fillnew mark s } := by
  have none_ : (if fill.fillold > ptrnLines then removeSpecialLine fill.stream.rest else none) =
      none := by
    rw [removeSpecialLine_plain plain, ite_self]
  unfold Fill.addNew
  dsimp only
  rw [none_]

theorem addNew_early (mark : Mark) (early : fill.fillold ≤ ptrnLines) :
    (fill.addNew ptrnLines mark s).fillold = fill.fillold ∧
      (fill.addNew ptrnLines mark s).stream = fill.stream := by
  unfold Fill.addNew
  rw [if_neg (Nat.not_lt.mpr early)]
  exact ⟨rfl, rfl⟩

theorem addContext_back (rest : fill.stream.rest = note s ++ tail)
    (plain : tail.head? ≠ some (byte '\\'))
    (taken : ¬ Terminated s → fill.fillold + 1 > ptrnLines) :
    (fill.addContext ptrnLines (record s)).1.stream.rest = tail ∧
      (Terminated s → fill.addContext ptrnLines (record s) =
        ({ fill with
            fillold := fill.fillold + 1
            context := fill.context + 1
            slots := fill.slots.put fill.fillold .context s }, s)) := by
  unfold Fill.addContext
  rw [rest, special_note _ plain taken]
  by_cases terminated : Terminated s
  · have silent : note s = [] := if_pos terminated
    rw [silent, List.nil_append] at rest
    simp only [terminated, if_true, record_of_terminated terminated]
    exact ⟨rest, fun _ => trivial⟩
  · simp only [terminated, if_false]
    exact ⟨trivial, fun closed => closed.elim⟩

variable {fill} (endLine)

theorem entry_put (slots : Slots) (i : Nat) (mark : Mark) (s : List Byte) :
    entry (slots.put i mark s) i = (mark, toShort s.length, s) := by
  rw [entry, put_char, put_len, put_line, if_pos rfl, if_pos rfl, if_pos rfl]

/-- A line that has been read back. -/
structure Back (fill next : Fill) (tail : List Byte) (old new : Nat) : Prop where
  fillold : next.fillold = fill.fillold + old
  fillnew : next.fillnew = fill.fillnew + new
  rest : next.stream.rest = tail

theorem read_delete (textual : Textual s) (rest : fill.stream.rest = rejLine (byte '-') s ++ tail)
    (plain : tail.head? ≠ some (byte '\\')) (more : fill.fillold ≤ ptrnLines)
    (taken : ¬ Terminated s → fill.fillold = ptrnLines) :
    ∃ next, (∀ fuel, fillHunk ptrnLines endLine (fuel + 1) fill =
        fillHunk ptrnLines endLine fuel next) ∧ Back fill next tail 1 0 ∧
      next.slots = backSlots fill.slots fill.fillold .delete s := by
  have added := addOld_back ptrnLines (Fill.behind fill s tail) rfl plain
    fun open_ => Nat.lt_succ_of_le (taken open_).ge
  obtain ⟨old, new, slots, stream⟩ := endContext_eq ((Fill.behind fill s tail).addOld ptrnLines (record s))
  refine ⟨_, fillHunk_round textual (by decide) rest (Or.inl more)
    (fillLine_minus (Textual.record_noNul textual) more), ⟨?_, ?_, ?_⟩, ?_⟩
  · rw [old, added]
    rfl
  · rw [new, added]
    rfl
  · rw [stream, added]
  · rw [slots, added]
    rfl

theorem read_insert (textual : Textual s) (rest : fill.stream.rest = rejLine (byte '+') s ++ tail)
    (plain : tail.head? ≠ some (byte '\\')) (more : fill.fillnew ≤ endLine)
    (taken : ¬ Terminated s → fill.fillold > ptrnLines) :
    ∃ next, (∀ fuel, fillHunk ptrnLines endLine (fuel + 1) fill =
        fillHunk ptrnLines endLine fuel next) ∧ Back fill next tail 0 1 ∧
      next.slots = backSlots fill.slots fill.fillnew .insert s := by
  have added := addNew_back ptrnLines (Fill.behind fill s tail) .insert rfl plain taken
  obtain ⟨old, new, slots, stream⟩ :=
    endContext_eq ((Fill.behind fill s tail).addNew ptrnLines .insert (record s))
  refine ⟨_, fillHunk_round textual (by decide) rest (Or.inr more)
    (fillLine_plus (Textual.record_noNul textual) more), ⟨?_, ?_, ?_⟩, ?_⟩
  · rw [old, added]
    rfl
  · rw [new, added]
    rfl
  · rw [stream, added]
  · rw [slots, added]
    rfl

theorem read_context (textual : Textual s) (rest : fill.stream.rest = rejLine (byte ' ') s ++ tail)
    (plain : tail.head? ≠ some (byte '\\')) (more : fill.fillold ≤ ptrnLines)
    (room : fill.fillnew ≤ endLine) (apart : fill.fillold < fill.fillnew)
    (taken : ¬ Terminated s → fill.fillold = ptrnLines) :
    ∃ next, (∀ fuel, fillHunk ptrnLines endLine (fuel + 1) fill =
        fillHunk ptrnLines endLine fuel next) ∧ Back fill next tail 1 1 ∧
      (∀ k, k ≠ fill.fillold → k ≠ fill.fillnew →
        entry next.slots k = entry fill.slots k) ∧
      next.slots.line fill.fillold = record s ∧
      (Terminated s → entry next.slots fill.fillold = (.context, toShort s.length, s) ∧
        entry next.slots fill.fillnew = (.context, toShort s.length, s)) := by
  obtain ⟨left, whole⟩ := addContext_back ptrnLines (Fill.behind fill s tail) rfl plain
    fun open_ => Nat.lt_succ_of_le (taken open_).ge
  obtain ⟨⟨old, new⟩, ⟨same, -, line⟩, -⟩ := addContext_stored ptrnLines (Fill.behind fill s tail)
    (record s)
  cases context : (Fill.behind fill s tail).addContext ptrnLines (record s) with
  | mk before copy =>
      rw [context] at left whole old new same line
      have added := addNew_plain ptrnLines before (s := copy) .context
        (by rw [show before.stream.rest = tail from left]; exact plain)
      have run : fillLine ptrnLines endLine (Fill.behind fill s tail) (byte ' ' :: record s) = _ :=
        fillLine_blank (Textual.record_noNul textual) more context (new.le.trans room)
      rw [added] at run
      have away : fill.fillold ≠ fill.fillnew := apart.ne
      have put := SameBut.put before.slots before.fillnew .context copy
      refine ⟨_, fillHunk_round textual (by decide) rest (Or.inl more) run,
        ⟨old, congrArg (· + 1) new, left⟩, fun k notOld notNew => ?_, ?_, fun terminated => ?_⟩
      · exact (sameBut_entry put (new.symm ▸ notNew)).trans (sameBut_entry same notOld)
      · exact (put fill.fillold (new.symm ▸ away)).2.2.trans line
      · cases whole terminated
        exact ⟨(sameBut_entry put away).trans (entry_put _ _ _ _), entry_put _ _ _ _⟩

variable {ptrnLines endLine}

theorem fillHunk_note (tail : List Byte) (rest : fill.stream.rest = noNewline ++ tail)
    (more : fill.fillold ≤ ptrnLines ∨ fill.fillnew ≤ endLine) (fuel : Nat) (final : Fill) :
    fillHunk ptrnLines endLine (fuel + 1) fill ≠ .ok final := by
  have nonempty : fill.stream.rest ≠ [] := by
    rw [rest]
    exact List.cons_ne_nil _ _
  have read : getline fill.stream.rest = (noNewline, tail) := by
    rw [rest]
    exact getline_line (by decide) (by decide) tail
  rw [fillHunk, if_pos more]
  dsimp only
  rw [if_neg nonempty, read]
  intro run
  cases run

theorem read_delete_note (textual : Textual s)
    (rest : fill.stream.rest = rejLine (byte '-') s ++ tail) (open_ : ¬ Terminated s)
    (more : fill.fillold < ptrnLines) (fuel : Nat) (final : Fill) :
    fillHunk ptrnLines endLine (fuel + 2) fill ≠ .ok final := by
  rw [fillHunk_round textual (by decide) rest (Or.inl more.le)
    (fillLine_minus (Textual.record_noNul textual) more.le)]
  obtain ⟨old, new, slots, stream⟩ :=
    endContext_eq ((Fill.behind fill s tail).addOld ptrnLines (record s))
  have early : ¬ (Fill.behind fill s tail).fillold + 1 > ptrnLines := Nat.not_lt.mpr more
  have added : ((Fill.behind fill s tail).addOld ptrnLines (record s)).fillold = fill.fillold + 1 ∧
      ((Fill.behind fill s tail).addOld ptrnLines (record s)).stream.rest = note s ++ tail := by
    unfold Fill.addOld
    rw [if_neg early]
    exact ⟨rfl, rfl⟩
  refine fillHunk_note tail ?_ (Or.inl ?_) fuel final
  · rw [stream, added.2, note, if_neg open_]
  · rw [old, added.1]
    exact more

theorem read_insert_note (textual : Textual s)
    (rest : fill.stream.rest = rejLine (byte '+') s ++ tail) (open_ : ¬ Terminated s)
    (room : fill.fillnew ≤ endLine) (more : fill.fillold ≤ ptrnLines) (fuel : Nat) (final : Fill) :
    fillHunk ptrnLines endLine (fuel + 2) fill ≠ .ok final := by
  rw [fillHunk_round textual (by decide) rest (Or.inl more)
    (fillLine_plus (Textual.record_noNul textual) room)]
  obtain ⟨old, new, slots, stream⟩ :=
    endContext_eq ((Fill.behind fill s tail).addNew ptrnLines .insert (record s))
  have added := addNew_early ptrnLines (Fill.behind fill s tail) (s := record s) .insert more
  refine fillHunk_note tail ?_ (Or.inl ?_) fuel final
  · rw [stream, added.2, Fill.behind, note, if_neg open_]
  · rw [old, added.1]
    exact more

theorem read_context_note (textual : Textual s)
    (rest : fill.stream.rest = rejLine (byte ' ') s ++ tail) (open_ : ¬ Terminated s)
    (room : fill.fillnew ≤ endLine) (more : fill.fillold < ptrnLines) (fuel : Nat) (final : Fill) :
    fillHunk ptrnLines endLine (fuel + 2) fill ≠ .ok final := by
  have early : ¬ (Fill.behind fill s tail).fillold + 1 > ptrnLines := Nat.not_lt.mpr more
  have context : (Fill.behind fill s tail).addContext ptrnLines (record s) =
      ({ Fill.behind fill s tail with
          fillold := fill.fillold + 1
          context := fill.context + 1
          slots := fill.slots.put fill.fillold .context (record s) }, record s) := by
    unfold Fill.addContext
    rw [if_neg early]
    rfl
  have run : fillLine ptrnLines endLine (Fill.behind fill s tail) (byte ' ' :: record s) = _ :=
    fillLine_blank (Textual.record_noNul textual) more.le context room
  rw [fillHunk_round textual (by decide) rest (Or.inl more.le) run]
  have added := addNew_early ptrnLines
    { Fill.behind fill s tail with
      fillold := fill.fillold + 1
      context := fill.context + 1
      slots := fill.slots.put fill.fillold .context (record s) } (s := record s) .context more
  refine fillHunk_note tail ?_ (Or.inl ?_) fuel final
  · rw [added.2, Fill.behind, note, if_neg open_]
  · rw [added.1]
    exact more

end Reading

/-! ## The lines of a hunk -/

section Merging

variable {slots : Slots} {split patEnd i j : Nat}

/-- The line that the loop takes next. -/
inductive Next (slots : Slots) (split patEnd i j : Nat) : Prop where
  | done (old : i = split) (new : j = patEnd + 1)
  | delete (inside : i < split) (char : slots.char i = .delete)
      (rest : Aligned slots split patEnd (i + 1) j)
  | context (inside : i < split) (inside' : j ≤ patEnd) (char : slots.char i = .context)
      (char' : slots.char j = .context) (copied : Copied slots i j)
      (rest : Aligned slots split patEnd (i + 1) (j + 1))
  | insert (inside : j ≤ patEnd) (char : slots.char j = .insert)
      (waits : i < split → slots.char i = .context) (rest : Aligned slots split patEnd i (j + 1))

theorem Aligned.next (aligned : Aligned slots split patEnd i j) : Next slots split patEnd i j := by
  have bounds := aligned.bounds
  by_cases old : i < split
  · rcases aligned.char_side (le_refl i) old with char | char
    · exact .delete old char (aligned.of_delete old char)
    · obtain ⟨k, behind, within, -⟩ := aligned.partner old char
      have new : j ≤ patEnd := behind.trans within
      rcases aligned.char_new new with char' | char'
      · exact .insert new char' (fun _ => char) (aligned.of_insert new char')
      · obtain ⟨copied, rest⟩ := aligned.of_context char char' old
        exact .context old new char char' copied rest
  · have last : i = split := by omega
    by_cases new : j ≤ patEnd
    · have char := aligned.inserts last (le_refl j) new
      exact .insert new char (fun more => absurd more old) (aligned.of_insert new char)
    · exact .done last (by omega)

theorem abortLines_delete (fuel : Nat) (inside : i < split) (char : slots.char i = .delete) :
    abortLines slots split patEnd (fuel + 1) i j =
      rejLine (byte '-') (slots.line i) ++ abortLines slots split patEnd fuel (i + 1) j := by
  rw [abortLines, if_pos (Or.inl inside)]
  simp only [inside, if_true, char]

theorem abortLines_context (fuel : Nat) (inside : i < split) (inside' : j ≤ patEnd)
    (char : slots.char i = .context) (char' : slots.char j = .context) :
    abortLines slots split patEnd (fuel + 1) i j =
      rejLine (byte ' ') (slots.line i) ++ abortLines slots split patEnd fuel (i + 1) (j + 1) := by
  rw [abortLines, if_pos (Or.inl inside)]
  simp [inside, inside', char, char']

theorem abortLines_insert (fuel : Nat) (inside : j ≤ patEnd) (char : slots.char j = .insert)
    (waits : i < split → slots.char i = .context) :
    abortLines slots split patEnd (fuel + 1) i j =
      rejLine (byte '+') (slots.line j) ++ abortLines slots split patEnd fuel i (j + 1) := by
  rw [abortLines, if_pos (Or.inr inside)]
  by_cases old : i < split
  · simp [old, inside, char, waits old, charByte, markByte]
  · simp [old, inside, char, charByte, markByte]

theorem abortLines_done (fuel : Nat) :
    abortLines slots split patEnd fuel split (patEnd + 1) = [] := by
  cases fuel with
  | zero => rfl
  | succ fuel =>
      rw [abortLines, if_neg]
      omega

theorem abortLines_header (fuel : Nat) (inside : 0 < split) (char : slots.char 0 = .header) :
    abortLines slots split patEnd (fuel + 1) 0 j = abortLines slots split patEnd fuel 1 j := by
  rw [abortLines, if_pos (Or.inl inside)]
  simp [inside, char]

theorem abortLines_plain (aligned : Aligned slots split patEnd i j) (fuel : Nat) :
    (abortLines slots split patEnd fuel i j).head? ≠ some (byte '\\') := by
  have visible : byte '-' ≠ byte '\\' ∧ byte ' ' ≠ byte '\\' ∧ byte '+' ≠ byte '\\' := by decide
  cases fuel with
  | zero => exact fun absent => nomatch absent
  | succ fuel =>
      cases Aligned.next aligned with
      | done old new =>
          rw [old, new, abortLines_done]
          exact fun absent => nomatch absent
      | delete inside char _ =>
          rw [abortLines_delete fuel inside char]
          exact fun same => visible.1 (Option.some.inj same)
      | context inside inside' char char' _ _ =>
          rw [abortLines_context fuel inside inside' char char']
          exact fun same => visible.2.1 (Option.some.inj same)
      | insert inside char waits _ =>
          rw [abortLines_insert fuel inside char waits]
          exact fun same => visible.2.2 (Option.some.inj same)

end Merging

/-! ## What comes back -/

/-- A line of the old side comes back: its length is the length of its text, and it has its
newline, or it is the deleted line that ends the old side and short enough. -/
def OldReturns (slots : Slots) (ptrnLines k : Nat) : Prop :=
  slots.len k = toShort (slots.line k).length ∧
    (Terminated (slots.line k) ∨
      slots.char k = .delete ∧ k = ptrnLines ∧ (slots.line k).length ≤ 32767)

def NewReturns (slots : Slots) (endLine k : Nat) : Prop :=
  slots.len k = toShort (slots.line k).length ∧
    (Terminated (slots.line k) ∨
      slots.char k = .insert ∧ (slots.line k).length ≤ 32767 ∧
        ∀ m, k < m → m ≤ endLine → slots.char m ≠ .context)

/-- The lines from `i` and `j` on come back. -/
structure Returns (slots : Slots) (ptrnLines endLine i j : Nat) : Prop where
  old : ∀ k, i ≤ k → k ≤ ptrnLines → OldReturns slots ptrnLines k
  new : ∀ k, j ≤ k → k ≤ endLine → NewReturns slots endLine k

/-- The lines before `i` and `j` are the same. -/
structure SameBefore (other slots : Slots) (ptrnLines i j : Nat) : Prop where
  old : ∀ k, 1 ≤ k → k < i → entry other k = entry slots k
  new : ∀ k, ptrnLines + 2 ≤ k → k < j → entry other k = entry slots k

section

variable {slots other before : Slots} {ptrnLines endLine i j : Nat}

theorem forall_cons {p : Nat → Prop} {m n : Nat} (inside : m ≤ n) :
    (∀ k, m ≤ k → k ≤ n → p k) ↔ p m ∧ ∀ k, m + 1 ≤ k → k ≤ n → p k := by
  refine ⟨fun all => ⟨all m (le_refl m) inside, fun k behind => all k (by omega)⟩, ?_⟩
  rintro ⟨first, later⟩ k behind within
  rcases Nat.eq_or_lt_of_le behind with rfl | after
  · exact first
  · exact later k after within

theorem returns_iff : Returns slots ptrnLines endLine i j ↔
    (∀ k, i ≤ k → k ≤ ptrnLines → OldReturns slots ptrnLines k) ∧
      ∀ k, j ≤ k → k ≤ endLine → NewReturns slots endLine k :=
  ⟨fun returns => ⟨returns.old, returns.new⟩, fun both => ⟨both.1, both.2⟩⟩

theorem Returns.cons_old (inside : i ≤ ptrnLines) : Returns slots ptrnLines endLine i j ↔
    OldReturns slots ptrnLines i ∧ Returns slots ptrnLines endLine (i + 1) j := by
  rw [returns_iff, returns_iff, forall_cons inside, and_assoc]

theorem Returns.cons_new (inside : j ≤ endLine) : Returns slots ptrnLines endLine i j ↔
    NewReturns slots endLine j ∧ Returns slots ptrnLines endLine i (j + 1) := by
  rw [returns_iff, returns_iff, forall_cons inside, and_left_comm]

theorem sameBefore_iff : SameBefore other slots ptrnLines i j ↔
    (∀ k, 1 ≤ k → k < i → entry other k = entry slots k) ∧
      ∀ k, ptrnLines + 2 ≤ k → k < j → entry other k = entry slots k :=
  ⟨fun same => ⟨same.old, same.new⟩, fun both => ⟨both.1, both.2⟩⟩

theorem entries_kept {m n : Nat} (same : ∀ k, m ≤ k → k < n → entry other k = entry before k) :
    (∀ k, m ≤ k → k < n → entry other k = entry slots k) ↔
      ∀ k, m ≤ k → k < n → entry before k = entry slots k :=
  forall₃_congr fun k low less => by rw [same k low less]

theorem entries_snoc {m n : Nat} (first : m ≤ n)
    (same : ∀ k, m ≤ k → k < n → entry other k = entry before k) :
    (∀ k, m ≤ k → k < n + 1 → entry other k = entry slots k) ↔
      (∀ k, m ≤ k → k < n → entry before k = entry slots k) ∧ entry other n = entry slots n := by
  rw [← entries_kept same]
  refine ⟨fun all => ⟨fun k low less => all k low (by omega), all n first (by omega)⟩, ?_⟩
  rintro ⟨earlier, here⟩ k low less
  rcases Nat.eq_or_lt_of_le (Nat.lt_succ_iff.mp less) with rfl | sooner
  · exact here
  · exact earlier k low sooner

theorem SameBefore.snoc_old (positive : 1 ≤ i) (apart : i ≤ ptrnLines)
    (same : ∀ k, k ≠ i → entry other k = entry before k) :
    SameBefore other slots ptrnLines (i + 1) j ↔
      SameBefore before slots ptrnLines i j ∧ entry other i = entry slots i := by
  rw [sameBefore_iff, sameBefore_iff, entries_snoc positive fun k _ less => same k (by omega),
    entries_kept fun k beyond _ => same k (by omega), and_right_comm]

theorem SameBefore.snoc_new (positive : ptrnLines + 2 ≤ j) (apart : i ≤ ptrnLines + 1)
    (same : ∀ k, k ≠ j → entry other k = entry before k) :
    SameBefore other slots ptrnLines i (j + 1) ↔
      SameBefore before slots ptrnLines i j ∧ entry other j = entry slots j := by
  rw [sameBefore_iff, sameBefore_iff, entries_snoc positive fun k _ less => same k (by omega),
    entries_kept fun k _ less => same k (by omega), and_assoc]

theorem SameBefore.snoc_both (positive : 1 ≤ i) (inside : i ≤ ptrnLines)
    (beyond : ptrnLines + 2 ≤ j)
    (same : ∀ k, k ≠ i → k ≠ j → entry other k = entry before k) :
    SameBefore other slots ptrnLines (i + 1) (j + 1) ↔ SameBefore before slots ptrnLines i j ∧
      entry other i = entry slots i ∧ entry other j = entry slots j := by
  rw [sameBefore_iff, sameBefore_iff,
    entries_snoc positive fun k _ less => same k (by omega) (by omega),
    entries_snoc beyond fun k _ less => same k (by omega) (by omega), and_and_and_comm]

end

def GivesBack (slots : Slots) (ptrnLines endLine : Nat) (fuel : Nat) (fill : Fill) : Prop :=
  ∃ final, fillHunk ptrnLines endLine fuel fill = .ok final ∧
    SameBefore final.slots slots ptrnLines (ptrnLines + 1) (endLine + 1)

section

variable {slots : Slots} {ptrnLines endLine i j : Nat} {fill : Fill} {tail : List Byte}

theorem GivesBack.congr {next : Fill} {fuel fuel' : Nat}
    (run : fillHunk ptrnLines endLine fuel fill = fillHunk ptrnLines endLine fuel' next) :
    GivesBack slots ptrnLines endLine fuel fill ↔ GivesBack slots ptrnLines endLine fuel' next := by
  unfold GivesBack
  rw [run]

/-- The lines behind one that has been read again come back exactly if they return. -/
def Onwards (slots : Slots) (ptrnLines endLine i j : Nat) (tail : List Byte) (fuel : Nat) : Prop :=
  ∀ next : Fill, next.fillold = i → next.fillnew = j → next.stream.rest = tail →
    (GivesBack slots ptrnLines endLine fuel next ↔
      SameBefore next.slots slots ptrnLines i j ∧ Returns slots ptrnLines endLine i j)

theorem givesBack_delete (textual : Textual (slots.line i)) (positive : 1 ≤ i)
    (inside : i ≤ ptrnLines) (char : slots.char i = .delete)
    (plain : tail.head? ≠ some (byte '\\')) (fuel : Nat)
    (room : (¬ Terminated (slots.line i) → i = ptrnLines) ∨ fuel ≠ 0)
    (old : fill.fillold = i) (new : fill.fillnew = j)
    (rest : fill.stream.rest = rejLine (byte '-') (slots.line i) ++ tail)
    (onwards : Onwards slots ptrnLines endLine (i + 1) j tail fuel) :
    GivesBack slots ptrnLines endLine (fuel + 1) fill ↔
      SameBefore fill.slots slots ptrnLines i j ∧ Returns slots ptrnLines endLine i j := by
  subst old new
  rw [Returns.cons_old inside]
  by_cases taken : ¬ Terminated (slots.line fill.fillold) → fill.fillold = ptrnLines
  · obtain ⟨next, run, back, stored⟩ := read_delete ptrnLines endLine textual rest plain inside
      taken
    have same : ∀ k, k ≠ fill.fillold → entry next.slots k = entry fill.slots k := fun k away =>
      stored ▸ sameBut_entry (backSlots_same _ _ _ _) away
    have here : entry next.slots fill.fillold = entry slots fill.fillold ↔
        OldReturns slots ptrnLines fill.fillold := by
      rw [stored, backSlots, stored_entry, entry, char, backEntry_eq_iff, OldReturns, char]
      refine and_congr_right fun _ => or_congr_right' fun open_ => ?_
      simp only [taken open_, true_and]
    rw [GivesBack.congr (run fuel), onwards next back.fillold back.fillnew back.rest,
      SameBefore.snoc_old positive inside same, here, and_assoc]
  · rw [Classical.not_imp] at taken
    obtain ⟨open_, notLast⟩ := taken
    have more : fill.fillold < ptrnLines := lt_of_le_of_ne inside notLast
    obtain ⟨fuel, rfl⟩ : ∃ less, fuel = less + 1 := by
      rcases room with last | positive
      · exact absurd (last open_) notLast
      · exact Nat.exists_eq_succ_of_ne_zero positive
    refine iff_of_false ?_ ?_
    · rintro ⟨final, run, -⟩
      exact read_delete_note textual rest open_ more fuel final run
    · rintro ⟨-, ⟨-, closed | ⟨-, last, -⟩⟩, -⟩
      · exact open_ closed
      · exact notLast last

theorem givesBack_insert (textual : Textual (slots.line j)) (within : i ≤ ptrnLines + 1)
    (beyond : ptrnLines + 2 ≤ j) (inside : j ≤ endLine) (char : slots.char j = .insert)
    (waits : i < ptrnLines + 1 → slots.char i = .context)
    (aligned : Aligned slots (ptrnLines + 1) endLine i (j + 1))
    (plain : tail.head? ≠ some (byte '\\')) (fuel : Nat) (room : i = ptrnLines + 1 ∨ fuel ≠ 0)
    (old : fill.fillold = i) (new : fill.fillnew = j)
    (rest : fill.stream.rest = rejLine (byte '+') (slots.line j) ++ tail)
    (onwards : Onwards slots ptrnLines endLine i (j + 1) tail fuel) :
    GivesBack slots ptrnLines endLine (fuel + 1) fill ↔
      SameBefore fill.slots slots ptrnLines i j ∧ Returns slots ptrnLines endLine i j := by
  subst old new
  rw [Returns.cons_new inside]
  -- no context line is behind this one exactly if the old side is complete
  have complete : fill.fillold = ptrnLines + 1 ↔
      ∀ m, fill.fillnew < m → m ≤ endLine → slots.char m ≠ .context := by
    constructor
    · intro last m behind below is
      rw [aligned.inserts last behind below] at is
      cases is
    · intro none_
      by_contra more
      have early : fill.fillold < ptrnLines + 1 := lt_of_le_of_ne within more
      obtain ⟨m, behind, below, is⟩ := aligned.partner early (waits early)
      exact none_ m behind below is
  by_cases taken : ¬ Terminated (slots.line fill.fillnew) → fill.fillold = ptrnLines + 1
  · obtain ⟨next, run, back, stored⟩ := read_insert ptrnLines endLine textual rest plain inside
      fun open_ => (taken open_).ge
    have same : ∀ k, k ≠ fill.fillnew → entry next.slots k = entry fill.slots k := fun k away =>
      stored ▸ sameBut_entry (backSlots_same _ _ _ _) away
    have here : entry next.slots fill.fillnew = entry slots fill.fillnew ↔
        NewReturns slots endLine fill.fillnew := by
      rw [stored, backSlots, stored_entry, entry, char, backEntry_eq_iff, NewReturns, char]
      refine and_congr_right fun _ => or_congr_right' fun open_ => ?_
      rw [← complete]
      simp only [taken open_, true_and, and_true]
    rw [GivesBack.congr (run fuel), onwards next back.fillold back.fillnew back.rest,
      SameBefore.snoc_new beyond within same, here, and_assoc]
  · rw [Classical.not_imp] at taken
    obtain ⟨open_, early⟩ := taken
    have more : fill.fillold ≤ ptrnLines := by omega
    obtain ⟨fuel, rfl⟩ : ∃ less, fuel = less + 1 := by
      rcases room with last | positive
      · exact absurd last early
      · exact Nat.exists_eq_succ_of_ne_zero positive
    refine iff_of_false ?_ ?_
    · rintro ⟨final, run, -⟩
      exact read_insert_note textual rest open_ inside more fuel final run
    · rintro ⟨-, ⟨-, closed | ⟨-, -, none_⟩⟩, -⟩
      · exact open_ closed
      · exact early (complete.mpr none_)

theorem context_returns (char : slots.char i = .context) (char' : slots.char j = .context)
    (copied : Copied slots i j) (terminated : Terminated (slots.line i)) :
    ((Mark.context, toShort (slots.line i).length, slots.line i) = entry slots i ∧
        (Mark.context, toShort (slots.line i).length, slots.line i) = entry slots j) ↔
      OldReturns slots ptrnLines i ∧ NewReturns slots endLine j := by
  unfold entry
  rw [char, char', OldReturns, NewReturns]
  simp only [Prod.mk.injEq, true_and, and_true]
  constructor
  · rintro ⟨length, length', text⟩
    rw [← text]
    exact ⟨⟨length.symm, Or.inl terminated⟩, length'.symm, Or.inl terminated⟩
  · rintro ⟨⟨length, -⟩, length', -⟩
    have text : slots.line j = slots.line i := copied.resolve_right fun other => other length
    rw [text] at length'
    exact ⟨length.symm, length'.symm, text.symm⟩

theorem givesBack_context (textual : Textual (slots.line i)) (positive : 1 ≤ i)
    (inside : i ≤ ptrnLines) (beyond : ptrnLines + 2 ≤ j) (inside' : j ≤ endLine)
    (char : slots.char i = .context) (char' : slots.char j = .context)
    (copied : Copied slots i j) (plain : tail.head? ≠ some (byte '\\')) (fuel : Nat)
    (room : i = ptrnLines ∨ fuel ≠ 0) (old : fill.fillold = i) (new : fill.fillnew = j)
    (rest : fill.stream.rest = rejLine (byte ' ') (slots.line i) ++ tail)
    (onwards : Onwards slots ptrnLines endLine (i + 1) (j + 1) tail fuel) :
    GivesBack slots ptrnLines endLine (fuel + 1) fill ↔
      SameBefore fill.slots slots ptrnLines i j ∧ Returns slots ptrnLines endLine i j := by
  subst old new
  rw [Returns.cons_old inside, Returns.cons_new inside']
  by_cases terminated : Terminated (slots.line fill.fillold)
  · obtain ⟨next, run, back, same, -, entries⟩ := read_context ptrnLines endLine textual rest
      plain inside inside' (by omega) fun open_ => absurd terminated open_
    obtain ⟨here, here'⟩ := entries terminated
    rw [GivesBack.congr (run fuel), onwards next back.fillold back.fillnew back.rest,
      SameBefore.snoc_both positive inside beyond same, here, here',
      context_returns char char' copied terminated]
    tauto
  have fails : ¬ OldReturns slots ptrnLines fill.fillold := by
    rintro ⟨-, closed | ⟨deleted, -⟩⟩
    · exact terminated closed
    · rw [char] at deleted
      cases deleted
  refine iff_of_false ?_ fun holds => fails holds.2.1
  by_cases last : fill.fillold = ptrnLines
  · obtain ⟨next, run, back, same, line, -⟩ := read_context ptrnLines endLine textual rest
      plain inside inside' (by omega) fun _ => last
    rw [GivesBack.congr (run fuel), onwards next back.fillold back.fillnew back.rest]
    rintro ⟨before, -⟩
    have text := entry_line (before.old fill.fillold positive (Nat.lt_succ_self _))
    rw [line, record, if_neg terminated] at text
    have length := congrArg List.length text
    rw [List.length_append, List.length_singleton] at length
    omega
  · obtain ⟨fuel, rfl⟩ := Nat.exists_eq_succ_of_ne_zero (room.resolve_left last)
    rintro ⟨final, run, -⟩
    exact read_context_note textual rest terminated inside' (lt_of_le_of_ne inside last) fuel final
      run

/-- The lines of a hunk that has been written come back exactly if each of them returns. -/
theorem givesBack_iff (oldText : ∀ k, 1 ≤ k → k ≤ ptrnLines → Textual (slots.line k))
    (newText : ∀ k, ptrnLines + 2 ≤ k → k ≤ endLine → Textual (slots.line k)) (left : Nat)
    (aligned : Aligned slots (ptrnLines + 1) endLine i j) (positive : 1 ≤ i)
    (beyond : ptrnLines + 2 ≤ j) (size : (ptrnLines + 1 - i) + (endLine + 1 - j) = left)
    (abortFuel fuel : Nat) (enough : left ≤ abortFuel) (enough' : left ≤ fuel)
    (old : fill.fillold = i) (new : fill.fillnew = j)
    (rest : fill.stream.rest = abortLines slots (ptrnLines + 1) endLine abortFuel i j) :
    GivesBack slots ptrnLines endLine fuel fill ↔
      SameBefore fill.slots slots ptrnLines i j ∧ Returns slots ptrnLines endLine i j := by
  induction left using Nat.strong_induction_on generalizing i j fill abortFuel fuel with
  | _ left ih =>
      have bounds := aligned.bounds
      cases Aligned.next aligned with
      | done isOld isNew =>
          have run : fillHunk ptrnLines endLine fuel fill = .ok fill := by
            cases fuel with
            | zero => rfl
            | succ fuel => rw [fillHunk, if_neg (by omega)]
          have nothing : Returns slots ptrnLines endLine i j :=
            ⟨fun k behind within => by omega, fun k behind within => by omega⟩
          rw [GivesBack, run, ← isOld, ← isNew]
          constructor
          · rintro ⟨_, same, before⟩
            cases same
            exact ⟨before, nothing⟩
          · exact fun holds => ⟨fill, rfl, holds.1⟩
      | delete inside char behind =>
          obtain ⟨abortFuel, rfl⟩ : ∃ less, abortFuel = less + 1 := ⟨abortFuel - 1, by omega⟩
          obtain ⟨fuel, rfl⟩ : ∃ less, fuel = less + 1 := ⟨fuel - 1, by omega⟩
          rw [abortLines_delete abortFuel inside char] at rest
          refine givesBack_delete (oldText i positive (by omega)) positive (by omega) char
            (abortLines_plain behind abortFuel) fuel ?_ old new rest fun next isOld isNew left_ =>
              ih (left - 1) (by omega) behind (by omega) beyond (by omega) abortFuel fuel
                (by omega) (by omega) isOld isNew left_
          by_cases last : i = ptrnLines
          · exact Or.inl fun _ => last
          · exact Or.inr (by omega)
      | insert inside char waits behind =>
          obtain ⟨abortFuel, rfl⟩ : ∃ less, abortFuel = less + 1 := ⟨abortFuel - 1, by omega⟩
          obtain ⟨fuel, rfl⟩ : ∃ less, fuel = less + 1 := ⟨fuel - 1, by omega⟩
          rw [abortLines_insert abortFuel inside char waits] at rest
          refine givesBack_insert (newText j beyond inside) bounds.1 beyond inside char waits behind
            (abortLines_plain behind abortFuel) fuel (by omega) old new rest
            fun next isOld isNew left_ =>
              ih (left - 1) (by omega) behind positive (by omega) (by omega) abortFuel fuel
                (by omega) (by omega) isOld isNew left_
      | context inside inside' char char' copied behind =>
          obtain ⟨abortFuel, rfl⟩ : ∃ less, abortFuel = less + 1 := ⟨abortFuel - 1, by omega⟩
          obtain ⟨fuel, rfl⟩ : ∃ less, fuel = less + 1 := ⟨fuel - 1, by omega⟩
          rw [abortLines_context abortFuel inside inside' char char'] at rest
          exact givesBack_context (oldText i positive (by omega)) positive (by omega) beyond inside'
            char char' copied (abortLines_plain behind abortFuel) fuel (by omega) old new rest
            fun next isOld isNew left_ =>
              ih (left - 2) (by omega) behind (by omega) (by omega) (by omega) abortFuel fuel
                (by omega) (by omega) isOld isNew left_

end

/-! ## The header -/

theorem number_natCast (n : Nat) : number n = decimal n := by
  have positive : ¬ (n : Int) < 0 := Int.not_lt.mpr (Int.natCast_nonneg n)
  rw [number, if_neg positive, List.nil_append, Int.natAbs_natCast]

/-- `@@ -a,b +c,d @@` behind its first four characters. -/
def ranges (first ptrnLines newfirst replLines : Nat) : List Byte :=
  decimal first ++ [byte ','] ++ decimal ptrnLines ++ ascii [' ', '+'] ++ decimal newfirst ++
    [byte ','] ++ decimal replLines ++ ascii [' ', '@', '@']

theorem lineRange_full {first count : Nat} {rest : List Byte} (stop : EndsNumber rest)
    (small : (first : Int) ≤ longMax) (few : (count : Int) ≤ longMax) :
    lineRange (decimal first ++ (byte ',' :: (decimal count ++ rest))) =
      some (first, count, rest) := by
  have comma : EndsNumber (byte ',' :: (decimal count ++ rest)) := fun b here => by
    rw [← Option.some.inj here]
    decide
  unfold lineRange
  rw [getskiplinenum_decimal comma small]
  dsimp only
  rw [List.head?_cons, if_pos rfl, List.tail_cons, getskiplinenum_decimal stop few]

theorem readHeader_full {first ptrnLines newfirst replLines : Nat}
    (fits : Ranges first ptrnLines newfirst replLines) :
    readHeader (ranges first ptrnLines newfirst replLines ++ [nl]) =
      some (first, ptrnLines, newfirst, replLines) := by
  obtain ⟨small, small', count⟩ := fits
  have blank (tail : List Byte) : EndsNumber (byte ' ' :: tail) := fun b here => by
    rw [← Option.some.inj here]
    decide
  have skip (tail : List Byte) : skipSpace (byte ' ' :: tail) = tail := if_pos rfl
  have whole : ranges first ptrnLines newfirst replLines ++ [nl] =
      decimal first ++ (byte ',' :: (decimal ptrnLines ++ (byte ' ' :: byte '+' ::
        (decimal newfirst ++ (byte ',' :: (decimal replLines ++
          (byte ' ' :: ascii ['@', '@', '\n']))))))) := by
    simp [ranges, ascii]
    rfl
  have some_ : decimal newfirst ++ (byte ',' :: (decimal replLines ++
      (byte ' ' :: ascii ['@', '@', '\n']))) ≠ [] := by simp
  have notEmpty : decimal first ++ (byte ',' :: (decimal ptrnLines ++ (byte ' ' :: byte '+' ::
      (decimal newfirst ++ (byte ',' :: (decimal replLines ++
        (byte ' ' :: ascii ['@', '@', '\n']))))))) ≠ [] := by simp
  unfold readHeader
  rw [whole, if_neg notEmpty, lineRange_full (blank _) (by omega) (by omega)]
  dsimp only
  rw [skip, if_neg (by omega), List.head?_cons, List.tail_cons,
    if_neg (by simp [some_]), lineRange_full (blank _) (by omega) (by omega)]
  dsimp only
  rw [skip, if_neg (by decide), if_neg (by omega)]

theorem not_mem_decimal {n : Nat} {b : Byte} (other : isdigit b = false) : b ∉ decimal n :=
  fun listed => by
    rw [isdigit_of_mem_decimal n b listed] at other
    cases other

theorem ranges_visible (first ptrnLines newfirst replLines : Nat) :
    nl ∉ ranges first ptrnLines newfirst replLines ∧
      (0 : Byte) ∉ ranges first ptrnLines newfirst replLines := by
  have clean : ∀ b : Byte, isdigit b = false → b ≠ byte ',' →
      b ∉ ascii [' ', '+'] ++ ascii [' ', '@', '@'] →
      b ∉ ranges first ptrnLines newfirst replLines := by
    intro b other comma marks
    unfold ranges
    simp only [List.mem_append, List.mem_singleton, not_or] at marks ⊢
    have digits : ∀ n, b ∉ decimal n := fun n => not_mem_decimal other
    exact ⟨⟨⟨⟨⟨⟨⟨digits _, comma⟩, digits _⟩, marks.1⟩, digits _⟩, comma⟩, digits _⟩, marks.2⟩
  exact ⟨clean nl (by decide) (by decide) (by decide), clean 0 (by decide) (by decide) (by decide)⟩

/-! ## Whole hunks -/

/-- The same ranges and the same lines, each with its mark, its length and its text. -/
structure SameHunk (hunk other : Hunk) : Prop where
  first : other.first = hunk.first
  newfirst : other.newfirst = hunk.newfirst
  ptrnLines : other.ptrnLines = hunk.ptrnLines
  replLines : other.replLines = hunk.replLines
  lines : ∀ k, (1 ≤ k ∧ k ≤ hunk.ptrnLines) ∨ (hunk.ptrnLines + 2 ≤ k ∧ k ≤ hunk.endLine) →
    entry other.slots k = entry hunk.slots k

theorem abortHunk_eq {hunk : Hunk} (formed : Formed hunk) (lastOffset : Int) :
    abortHunk hunk lastOffset = abortHeader hunk lastOffset ++
      abortLines hunk.slots (hunk.ptrnLines + 1) hunk.endLine (hunk.endLine + 1) 1
        (hunk.ptrnLines + 2) := by
  have endLine := formed.endLine
  have found : (List.range (hunk.endLine + 1)).find? (fun i => hunk.slots.char i = .split) =
      some (hunk.ptrnLines + 1) := by
    rw [List.find?_range_eq_some]
    refine ⟨by simpa using formed.split, by rw [List.mem_range]; omega, fun k before => ?_⟩
    have other : hunk.slots.char k ≠ .split := by
      rcases Nat.eq_zero_or_pos k with zero | positive
      · rw [zero, formed.header]
        decide
      · rcases formed.aligned.char_side positive before with char | char <;>
          · rw [char]
            decide
    simpa using other
  rw [abortHunk, found]
  dsimp only
  rw [abortLines_header _ (Nat.succ_pos _) formed.header]

/-- The loop at the first line of a hunk. -/
def startFill (first : Nat) (ptrnLines newfirst replLines : Nat) (stream : Stream) : Fill where
  fillold := 1
  fillnew := ptrnLines + 2
  context := 0
  pContext := 100
  slots := startSlots (if ptrnLines = 0 then (first : Int) + 1 else first) newfirst ptrnLines
    replLines
  stream := stream

/-- The hunk with these ranges and the lines that have been taken in. -/
def hunkWith (first : Nat) (ptrnLines newfirst replLines : Nat) (fill : Fill) : Hunk where
  first := if ptrnLines = 0 then (first : Int) + 1 else first
  newfirst := newfirst
  ptrnLines := ptrnLines
  replLines := replLines
  endLine := ptrnLines + replLines + 1
  context := fill.pContext
  slots := fill.slots

theorem anotherHunk_ranges {first ptrnLines newfirst replLines : Nat}
    (fits : Ranges first ptrnLines newfirst replLines) (body : List Byte) (inputLine : Nat) :
    anotherHunk ⟨atSign ++ ranges first ptrnLines newfirst replLines ++ [nl] ++ body, inputLine⟩ =
      match fillHunk ptrnLines (ptrnLines + replLines + 1) (ptrnLines + replLines + 2)
          (startFill first ptrnLines newfirst replLines ⟨body, inputLine + 1⟩) with
      | .error e => .error e
      | .ok fill =>
          .ok (some (hunkWith first ptrnLines newfirst replLines fill), fill.stream) := by
  obtain ⟨clean, noNul⟩ := ranges_visible first ptrnLines newfirst replLines
  have cleanRow : nl ∉ atSign ++ ranges first ptrnLines newfirst replLines := fun listed =>
    (List.mem_append.mp listed).elim (by decide) clean
  have read := getline_line (isLine_body cleanRow) (terminated_body _) body
  have text : cstr (ranges first ptrnLines newfirst replLines ++ [nl]) =
      ranges first ptrnLines newfirst replLines ++ [nl] := cstr_eq fun listed =>
    (List.mem_append.mp listed).elim noNul (by decide)
  have begins : ¬ (atSign ++ ranges first ptrnLines newfirst replLines ++ [nl] ++ body = [] ∨
      (atSign ++ ranges first ptrnLines newfirst replLines ++ [nl]).take 4 ≠ atSign) := by
    rintro (empty | other)
    · cases empty
    · exact other rfl
  have front : (atSign ++ ranges first ptrnLines newfirst replLines ++ [nl]).drop 4 =
      ranges first ptrnLines newfirst replLines ++ [nl] := by
    rw [List.append_assoc]
    rfl
  unfold anotherHunk
  dsimp only
  rw [read, if_neg begins, front, text, readHeader_full fits]
  rfl

theorem abortHeader_eq {hunk : Hunk} {first newfirst : Nat}
    (isFirst : hunk.first = if hunk.ptrnLines = 0 then (first : Int) + 1 else first)
    (isNewfirst : hunk.newfirst = newfirst) :
    abortHeader hunk 0 = atSign ++
      ranges (if hunk.ptrnLines = 0 then 0 else first) hunk.ptrnLines newfirst hunk.replLines ++
        [nl] := by
  have old : (if hunk.ptrnLines ≠ 0 then hunk.first + 0 else 0) =
      ((if hunk.ptrnLines = 0 then 0 else first : Nat) : Int) := by
    rw [isFirst]
    split <;> simp_all
  have tail : ascii [' ', '@', '@', '\n'] = ascii [' ', '@', '@'] ++ [nl] := rfl
  rw [abortHeader, old, number_natCast, isNewfirst, Int.add_zero, number_natCast, tail, ranges]
  simp only [List.append_assoc]

/-- The hunk that is read again from the text of a rejected one is the same exactly if it
is no insertion behind a line of the old file and every line of it returns. -/
theorem abortHunk_again_iff {stream after : Stream} {hunk : Hunk}
    (accepted : anotherHunk stream = .ok (some hunk, after)) (inputLine : Nat) :
    (∃ other left, anotherHunk ⟨abortHunk hunk 0, inputLine⟩ = .ok (some other, left) ∧
        SameHunk hunk other) ↔
      (hunk.ptrnLines = 0 → hunk.first = 1) ∧
        Returns hunk.slots hunk.ptrnLines hunk.endLine 1 (hunk.ptrnLines + 2) := by
  have formed := anotherHunk_formed accepted
  obtain ⟨first, newfirst, fits, isFirst, isNewfirst⟩ := formed.ranges
  have endLine := formed.endLine
  have again : Ranges (if hunk.ptrnLines = 0 then 0 else first) hunk.ptrnLines newfirst
      hunk.replLines := by
    refine ⟨?_, fits.newfirst, fits.count⟩
    split
    · next none_ =>
        rw [none_]
        decide
    · exact fits.first
  rw [abortHunk_eq formed, abortHeader_eq isFirst isNewfirst, anotherHunk_ranges again, ← endLine]
  generalize start : startFill (if hunk.ptrnLines = 0 then 0 else first) hunk.ptrnLines newfirst
    hunk.replLines _ = fill
  have lines : GivesBack hunk.slots hunk.ptrnLines hunk.endLine
      (hunk.ptrnLines + hunk.replLines + 2) fill ↔
        SameBefore fill.slots hunk.slots hunk.ptrnLines 1 (hunk.ptrnLines + 2) ∧
          Returns hunk.slots hunk.ptrnLines hunk.endLine 1 (hunk.ptrnLines + 2) :=
    givesBack_iff formed.oldText formed.newText
      (hunk.ptrnLines + (hunk.endLine - hunk.ptrnLines - 1)) formed.aligned (le_refl 1) (le_refl _)
      (by omega) (hunk.endLine + 1) (hunk.ptrnLines + hunk.replLines + 2) (by omega) (by omega)
      (by rw [← start]; rfl) (by rw [← start]; rfl) (by rw [← start]; rfl)
  have nothing : SameBefore fill.slots hunk.slots hunk.ptrnLines 1 (hunk.ptrnLines + 2) :=
    ⟨fun k first less => by omega, fun k beyond less => by omega⟩
  have sameFirst : (if hunk.ptrnLines = 0 then
      ((if hunk.ptrnLines = 0 then 0 else first : Nat) : Int) + 1
        else (if hunk.ptrnLines = 0 then 0 else first : Nat)) = hunk.first ↔
      (hunk.ptrnLines = 0 → hunk.first = 1) := by
    by_cases none_ : hunk.ptrnLines = 0
    · simp only [none_, if_true, forall_const]
      exact eq_comm
    · simp [none_, isFirst]
  rw [← sameFirst, ← and_iff_right (b := Returns _ _ _ _ _) nothing, ← lines]
  constructor
  · rintro ⟨other, left, run, same⟩
    cases filled : fillHunk hunk.ptrnLines hunk.endLine (hunk.ptrnLines + hunk.replLines + 2) fill with
    | error e =>
        rw [filled] at run
        cases run
    | ok final =>
        rw [filled] at run
        cases run
        refine ⟨same.first, final, filled, fun k first less => ?_, fun k beyond less => ?_⟩
        · exact same.lines k (Or.inl ⟨first, Nat.lt_succ_iff.mp less⟩)
        · exact same.lines k (Or.inr ⟨beyond, Nat.lt_succ_iff.mp less⟩)
  · rintro ⟨sameFirst, final, filled, before⟩
    rw [filled]
    refine ⟨_, _, rfl, sameFirst, isNewfirst.symm, rfl, rfl, fun k inside => ?_⟩
    rcases inside with ⟨first, less⟩ | ⟨beyond, less⟩
    · exact before.old k first (Nat.lt_succ_of_le less)
    · exact before.new k beyond (Nat.lt_succ_of_le less)

/-- `@@ -1 +1 @@` with one line replaced. -/
def replacedLine : Stream where
  rest := ascii ['@', '@', ' ', '-', '1', ' ', '+', '1', ' ', '@', '@', '\n', '-', 'a', '\n', '+',
    'b', '\n']
  inputLine := 0

theorem replacedLine_again :
    ∃ hunk after, anotherHunk replacedLine = .ok (some hunk, after) ∧
      ∃ other left, anotherHunk ⟨abortHunk hunk 0, 0⟩ = .ok (some other, left) ∧
        SameHunk hunk other := by
  refine ⟨_, _, rfl, (abortHunk_again_iff (rfl : anotherHunk replacedLine = _) 0).mpr
    ⟨fun none_ => absurd none_ (by decide +kernel), fun k first less => ?_,
      fun k beyond less => ?_⟩⟩
  · have only : k = 1 := le_antisymm less first
    subst only
    exact ⟨by decide +kernel, Or.inl (by decide +kernel)⟩
  · have only : k = 3 := le_antisymm less beyond
    subst only
    exact ⟨by decide +kernel, Or.inl (by decide +kernel)⟩

/-- `@@ -5,0 +6 @@` with one line inserted. -/
def insertedLine : Stream where
  rest := ascii ['@', '@', ' ', '-', '5', ',', '0', ' ', '+', '6', ' ', '@', '@', '\n', '+', 'x',
    '\n']
  inputLine := 0

def readFirst : Except Fatal (Option Hunk × Stream) → Option Int
  | .ok (some hunk, _) => some hunk.first
  | _ => none

theorem insertedLine_lost :
    ∃ hunk after, anotherHunk insertedLine = .ok (some hunk, after) ∧
      ¬ ∃ other left, anotherHunk ⟨abortHunk hunk 0, 0⟩ = .ok (some other, left) ∧
        SameHunk hunk other := by
  refine ⟨_, _, rfl, ?_⟩
  rintro ⟨other, left, run, same⟩
  have first := congrArg readFirst run
  change _ = some other.first at first
  rw [same.first] at first
  revert first
  decide +kernel

end Netbase.Patch.Restore
