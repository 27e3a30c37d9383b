import Netbase.Dd.Input

/-!
# Copying without conversion of records

Input and output share one buffer.  Between two reads it holds, at its front, less than
an output block; all other bytes that have been read are in the file or in its holes.
-/

namespace Netbase.Dd

open Netbase.Text Netbase.Lib

/-- What holds between two reads when `input` has been read and translated. -/
structure Copying (o : Operands) (ibs obs : Nat) (writes : List Nat) (input : List Byte)
    (blocks : List (List Byte)) (held : List Byte) (s : State) : Prop where
  inp : s.inp.db = 0 ∧ s.inp.dbp = held.length ∧ s.inp.dbcnt = held.length ∧ s.inp.dbsz = ibs
  out : s.out.db = 0 ∧ s.out.dbcnt = held.length ∧ s.out.dbsz = obs
  size : (s.mem 0).length = obs + (ibs - 1)
  known : held <+: s.mem 0
  split : Split obs input blocks held
  tidy : Tidy s
  contents : s.contents = blocks.flatten
  place : s.pos = s.file.length
  flat : o.sparse = false → Flat s
  hole : o.sparse = true → (s.pending, s.writes) = blocks.foldl holeStep (0, writes)

variable {ibs obs : Nat} {s : State} {writes : List Nat}

theorem setup_copying (o : Operands) (copy : o.cfunc = .copy) (positive : 0 < obs)
    (old : Nat → Nat → Byte) (writes : List Nat) :
    Copying o ibs obs writes [] [] [] (setup o ibs obs old writes) where
  inp := ⟨rfl, rfl, rfl, rfl⟩
  out := ⟨by simp [setup, Operands.outBuffer, copy], rfl, rfl⟩
  size := by simp [setup, bufferSize, copy]
  known := List.nil_prefix
  split := ⟨rfl, by simp, positive⟩
  tidy := ⟨Nat.le_refl 0, Int.le_refl 0, by simp [setup]⟩
  contents := rfl
  place := rfl
  flat := fun _ => ⟨rfl, rfl⟩
  hole := fun _ => rfl

/-- The buffer as that of the output. -/
def State.shared (s : State) : State :=
  { s with out := { s.out with dbp := s.inp.dbp, dbcnt := s.inp.dbcnt } }

/-- The pointers of the input follow those of the output. -/
def State.following (s : State) : State :=
  { s with inp := { s.inp with dbp := s.out.dbp, dbcnt := s.out.dbcnt } }

variable {o : Operands} {held input : List Byte}

theorem defCopy_flush {s1 s2 : State} (translated : translateInput o s = .ok s1)
    (flushed : flush o s1.shared = .ok s2) : defCopy o s = .ok s2.following := by
  have step : defCopy o s = if s1.shared.out.dbcnt ≥ s1.shared.out.dbsz then
      (ddOut o false s1.shared).bind (fun s => .ok s.following) else .ok s1.shared := by
    rw [defCopy, translated]
    rfl
  rw [flush] at flushed
  rw [step]
  split at flushed
  · next full =>
      rw [if_pos full, flushed]
      rfl
  · next short =>
      rw [if_neg short]
      cases flushed
      rfl

theorem readBlock_copying (o : Operands) {chunk : List Byte} {blocks : List (List Byte)}
    (copy : o.cfunc = .copy) (noSync : o.sync = false)
    (copying : Copying o ibs obs writes input blocks held s) (fits : chunk.length ≤ ibs) :
    ∃ s' blocks' held', readBlock o chunk s = .ok s' ∧
      Copying o ibs obs writes (input ++ chunk.map o.translate) blocks' held' s' := by
  obtain ⟨inDb, inPlace, inCount, inSize⟩ := copying.inp
  obtain ⟨outDb, outCount, outSize⟩ := copying.out
  have short := copying.split.short
  have size := copying.size
  have front : held <+: s.mem s.inp.db := by rw [inDb]; exact copying.known
  have room : held.length + chunk.length ≤ (s.mem s.inp.db).length := by rw [inDb]; omega
  obtain ⟨_, mem1, run1, known1, size1, _⟩ :=
    (readBlock_receives noSync front inPlace chunk).resolve_right fun overrun => overrun.1 room
  obtain ⟨mem2, run2, known2, size2, _⟩ := translateInput_received o known1 inPlace
  have length : s.inp.dbcnt + chunk.length = (held ++ chunk.map o.translate).length := by
    rw [List.length_append, List.length_map, inCount]
  have shared : held ++ chunk.map o.translate <+: mem2 s.out.db := by
    rw [outDb, ← inDb]
    exact known2
  have tidy : Tidy (s.received mem2 chunk.length).shared :=
    ⟨copying.tidy.place, copying.tidy.ahead, copying.tidy.skips⟩
  obtain ⟨s3, blocks', held', run3, flushed⟩ := flush_flushed o tidy
    (by show 0 < s.out.dbsz; omega) shared length (by rw [← length, inCount, ← inPlace]; rfl)
  have out3 := flushed.out
  refine ⟨s3.following, blocks ++ blocks', held', ?_, ?_⟩
  · rw [run1, convert, copy]
    exact defCopy_flush run2 run3
  · refine ⟨?_, ?_, ?_, ?_, ?_, ⟨flushed.tidy.place, flushed.tidy.ahead, flushed.tidy.skips⟩, ?_,
      ?_, fun whole => ?_, fun sparse => ?_⟩
    · show s3.inp.db = 0 ∧ s3.out.dbp = _ ∧ s3.out.dbcnt = _ ∧ s3.inp.dbsz = ibs
      rw [flushed.inp, out3]
      exact ⟨inDb, rfl, rfl, inSize⟩
    · show s3.out.db = 0 ∧ s3.out.dbcnt = _ ∧ s3.out.dbsz = obs
      rw [out3]
      exact ⟨outDb, rfl, outSize⟩
    · exact (flushed.size 0).trans ((size2 0).trans ((size1 0).trans size))
    · rw [← outDb]
      exact flushed.known
    · exact copying.split.extend (outSize ▸ flushed.split)
    · show s3.contents = _
      rw [flushed.contents, List.flatten_append, ← copying.contents]
      rfl
    · exact flushed.place copying.place
    · have flat := flushed.flat whole ⟨(copying.flat whole).place, (copying.flat whole).closed⟩
      exact ⟨flat.place, flat.closed⟩
    · show (s3.pending, s3.writes) = _
      rw [flushed.hole sparse, List.foldl_append, ← copying.hole sparse]
      rfl

theorem ddIn_copying (o : Operands) (copy : o.cfunc = .copy) (noSync : o.sync = false)
    (chunks : List (List Byte)) :
    ∀ {input held : List Byte} {blocks : List (List Byte)} {s : State},
      Copying o ibs obs writes input blocks held s → (∀ chunk ∈ chunks, chunk.length ≤ ibs) →
      ∃ s' blocks' held', ddIn o chunks s = .ok s' ∧
        Copying o ibs obs writes (input ++ chunks.flatten.map o.translate) blocks' held' s' := by
  induction chunks with
  | nil =>
      intro input held blocks s copying _
      refine ⟨{ s with inp := { s.inp with dbrcnt := 0 } }, blocks, held, rfl, ?_⟩
      rw [List.flatten_nil, List.map_nil, List.append_nil]
      exact ⟨copying.inp, copying.out, copying.size, copying.known, copying.split,
        ⟨copying.tidy.place, copying.tidy.ahead, copying.tidy.skips⟩, copying.contents,
        copying.place, fun whole => ⟨(copying.flat whole).place, (copying.flat whole).closed⟩,
        copying.hole⟩
  | cons chunk rest ih =>
      intro input held blocks s copying fits
      obtain ⟨s1, blocks1, held1, run1, copying1⟩ := readBlock_copying o copy noSync copying
        (fits chunk (List.mem_cons_self ..))
      obtain ⟨s2, blocks2, held2, run2, copying2⟩ := ih copying1
        fun later membership => fits later (List.mem_cons_of_mem _ membership)
      refine ⟨s2, blocks2, held2, ?_, ?_⟩
      · rw [ddIn, run1]
        exact run2
      · rwa [List.flatten_cons, List.map_append, ← List.append_assoc]

theorem closeConversion_copying {blocks : List (List Byte)} (copy : o.cfunc = .copy)
    (copying : Copying o ibs obs writes input blocks held s) :
    closeConversion o s = .ok s := by
  have same : defClose s = s := by
    rw [defClose, copying.inp.2.2.1, ← copying.out.2.1]
    split <;> rfl
  rw [closeConversion, copy, same]

theorem ddClose_held {blocks : List (List Byte)} (copy : o.cfunc = .copy)
    (noOsync : o.osync = false) (copying : Copying o ibs obs writes input blocks held s)
    (some : held ≠ []) :
    ∃ s', ddClose o s = .ok s' ∧ Tidy s' ∧ Flat s' ∧ s'.contents = input := by
  obtain ⟨outDb, outCount, outSize⟩ := copying.out
  have length := List.length_pos_iff.mpr some
  have short := copying.split.short
  obtain ⟨s', run, tidy, flat, contents⟩ := ddOut_force o copying.tidy (by omega)
    (by rw [outDb]; exact copying.known) outCount some
  refine ⟨s', ?_, tidy, flat, ?_⟩
  · have left : s.out.dbcnt ≠ 0 := by omega
    rw [ddClose_steps noOsync (closeConversion_copying copy copying)
      (fillHole_none (Or.inl left)), if_pos left, run]
  · rw [contents, copying.contents, ← copying.split.joined]

theorem ddClose_closed {blocks : List (List Byte)} (copy : o.cfunc = .copy)
    (noOsync : o.osync = false) (copying : Copying o ibs obs writes input blocks [] s)
    (closed : s.pending = 0) :
    ddClose o s = .ok s ∧ s.file = input := by
  have outCount : s.out.dbcnt = 0 := copying.out.2.1
  constructor
  · rw [ddClose_steps noOsync (closeConversion_copying copy copying)
      (fillHole_none (Or.inr closed)), if_neg (not_not.mpr outCount)]
  · have flat : Flat s := ⟨copying.place, closed⟩
    rw [← flat.contents, copying.contents, copying.split.joined, List.append_nil]

/-- Without conversion of records the translated input is written, in the buffer of
`obs + (ibs - 1)` bytes. -/
theorem dd_copies (o : Operands) (ibs obs : Nat) (old : Nat → Nat → Byte) (writes : List Nat)
    (chunks : List (List Byte)) (copy : o.cfunc = .copy) (noSync : o.sync = false)
    (noOsync : o.osync = false) (noSparse : o.sparse = false) (positive : 0 < obs)
    (fits : ∀ chunk ∈ chunks, chunk.length ≤ ibs) :
    ∃ s, dd o ibs obs old writes chunks = .ok s ∧ s.file = chunks.flatten.map o.translate := by
  obtain ⟨s, blocks, held, run, copying⟩ := ddIn_copying o copy noSync chunks
    (setup_copying o copy positive old writes) fits
  rw [List.nil_append] at copying
  by_cases left : held = []
  · subst left
    obtain ⟨close, file⟩ :=
      ddClose_closed copy noOsync copying (copying.flat noSparse).closed
    refine ⟨s, ?_, file⟩
    rw [dd, run]
    exact close
  · obtain ⟨s', close, _, flat, contents⟩ := ddClose_held copy noOsync copying left
    refine ⟨s', ?_, flat.contents ▸ contents⟩
    rw [dd, run]
    exact close

/-- The theorem at blocks of two bytes read and three written, with a write that takes one. -/
theorem dd_copies_short_write :
    ∃ s, dd ⟨.copy, false, false, false, none, 0⟩ 2 3 (fun _ _ => 0) [1]
        [[byte 'a', byte 'b'], [byte 'c', byte 'd']] = .ok s ∧
      s.file = [[byte 'a', byte 'b'], [byte 'c', byte 'd']].flatten.map
        (Operands.translate ⟨.copy, false, false, false, none, 0⟩) :=
  dd_copies _ 2 3 _ _ _ rfl rfl rfl rfl (by decide) (by decide)

end Netbase.Dd
