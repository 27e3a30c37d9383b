import Netbase.Dd.Copy

/-!
# Sparse output

With `sparse` the zeros of a block are left to a seek.  At the end the last block of the
hole is written after all: a whole output block is taken off the hole for it.  A hole
that is shorter than that, behind a short write of the last block, makes the seek go
backward, into bytes that have been written.
-/

namespace Netbase.Dd

open Netbase.Text Netbase.Lib

def writesLeft (writes : List Nat) (blocks : List (List Byte)) : List Nat :=
  blocks.foldl (fun left block => if allZero block then left else (cutBlock left block).2) writes

def cutInZeros (obs : Nat) (writes : List Nat) (bytes : List Byte) : Bool :=
  match (fullBlocks obs bytes).getLast? with
  | none => false
  | some last =>
      bytes.length % obs = 0 && !allZero last &&
        (cutBlock (writesLeft writes (fullBlocks obs bytes).dropLast) last).1 ≠ 0

/-- The sparse run writes the same file as the one that writes all zeros, and seeks
forward past zeros only. -/
def SparseMatches (o : Operands) (ibs obs : Nat) (old : Nat → Nat → Byte) (writes : List Nat)
    (chunks : List (List Byte)) : Prop :=
  ∃ s s', dd { o with sparse := true } ibs obs old writes chunks = .ok s ∧
    dd { o with sparse := false } ibs obs old writes chunks = .ok s' ∧
    s.file = s'.file ∧ ∀ jump ∈ s.seeks, Skips s'.file jump

/-! ## The hole behind the blocks -/

theorem holeStep_snd (hole : Int × List Nat) (block : List Byte) :
    (holeStep hole block).2 = if allZero block then hole.2 else (cutBlock hole.2 block).2 := by
  unfold holeStep
  split <;> rfl

theorem holeStep_nonneg {hole : Int × List Nat} (ahead : 0 ≤ hole.1) (block : List Byte) :
    0 ≤ (holeStep hole block).1 := by
  unfold holeStep
  split
  · show 0 ≤ hole.1 + block.length
    omega
  · exact Int.natCast_nonneg _

theorem holes_snd (blocks : List (List Byte)) :
    ∀ hole : Int × List Nat, (blocks.foldl holeStep hole).2 = writesLeft hole.2 blocks := by
  induction blocks with
  | nil => exact fun _ => rfl
  | cons block rest ih =>
      intro hole
      rw [List.foldl_cons, ih, holeStep_snd]
      rfl

theorem holes_nonneg (blocks : List (List Byte)) :
    ∀ {hole : Int × List Nat}, 0 ≤ hole.1 → 0 ≤ (blocks.foldl holeStep hole).1 := by
  induction blocks with
  | nil => exact id
  | cons block rest ih => exact fun ahead => ih (holeStep_nonneg ahead block)

theorem cutBlock_le (writes : List Nat) (block : List Byte) :
    (cutBlock writes block).1 ≤ block.length := by
  induction writes generalizing block with
  | nil =>
      rw [cutBlock]
      split
      · exact Nat.le_refl _
      · exact Nat.zero_le _
  | cons w writes ih =>
      rw [cutBlock]
      split
      · exact Nat.le_refl _
      · split
        · exact Nat.zero_le _
        · have rest := ih (block.drop (min w block.length))
          rw [List.length_drop] at rest
          omega

theorem cutBlock_lt (writes : List Nat) {block : List Byte} (some : allZero block = false) :
    (cutBlock writes block).1 < block.length := by
  have positive : 0 < block.length := by
    cases block with
    | nil => cases some
    | cons _ _ => exact Nat.succ_pos _
  induction writes with
  | nil => simpa [cutBlock, some] using positive
  | cons w writes ih =>
      rw [cutBlock, if_neg (by simp [some])]
      split
      · exact positive
      · by_cases none : min w block.length = 0
        · rw [none, List.drop_zero]
          exact ih
        · have rest := cutBlock_le writes (block.drop (min w block.length))
          rw [List.length_drop] at rest
          omega

variable {obs : Nat} {s : State}

theorem cutInZeros_iff (writes : List Nat) {bytes : List Byte} {blocks : List (List Byte)}
    (split : Split obs bytes blocks []) :
    cutInZeros obs writes bytes = true ↔
      (blocks.foldl holeStep (0, writes)).1 ≠ 0 ∧
        (blocks.foldl holeStep (0, writes)).1 < obs := by
  have whole : bytes.length % obs = 0 := by
    rw [split.joined, List.append_nil, flatten_length split.full, Nat.mul_mod_right]
  rw [cutInZeros, ← split.blocks_eq]
  rcases List.eq_nil_or_concat blocks with rfl | ⟨front, last, rfl⟩
  · simp
  · have size := split.full last (by simp)
    have ahead := @holes_nonneg front (0, writes) (Int.le_refl 0)
    have behind := holes_snd front (0, writes)
    simp only [List.concat_eq_append, List.getLast?_append, List.getLast?_singleton,
      Option.some_or, List.dropLast_concat, List.foldl_append, List.foldl_cons, List.foldl_nil,
      holeStep, behind, whole, decide_true, Bool.true_and]
    by_cases zero : allZero last = true
    · simp only [zero, if_true, Bool.not_true, Bool.false_and, Bool.false_eq_true, false_iff,
        not_and, size]
      omega
    · have some : allZero last = false := by simpa using zero
      have cut := cutBlock_lt (writesLeft writes front) some
      simp only [some, Bool.false_eq_true, if_false, Bool.not_false, Bool.true_and,
        decide_eq_true_eq]
      omega

theorem cutInZeros_rest (writes : List Nat) {bytes held : List Byte} {blocks : List (List Byte)}
    (split : Split obs bytes blocks held) (left : held ≠ []) :
    cutInZeros obs writes bytes = false := by
  have length := List.length_pos_iff.mpr left
  have ragged : bytes.length % obs ≠ 0 := by
    rw [← split.rest_length]
    omega
  rw [cutInZeros]
  split
  · rfl
  · simp [ragged]

/-! ## The end of the run -/

/-- A block is taken off the hole, to be written. -/
def State.filled (s : State) (mem : Nat → List Byte) : State :=
  { s with
    mem := mem
    out := { s.out with dbcnt := s.out.dbsz, dbp := s.out.dbsz }
    pending := s.pending - s.out.dbsz }

variable {ibs : Nat} {input : List Byte} {o : Operands} {writes : List Nat} {s' : State}

theorem fillHole_copying {blocks : List (List Byte)}
    (copying : Copying o ibs obs writes input blocks [] s) (hole : s.pending ≠ 0) :
    ∃ mem, fillHole s = .ok (s.filled mem) ∧ List.replicate s.out.dbsz 0 <+: mem s.out.db := by
  obtain ⟨outDb, outCount, outSize⟩ := copying.out
  have room : (List.replicate s.out.dbsz (0 : Byte)).length ≤ (s.mem s.out.db).length := by
    rw [List.length_replicate, outDb, copying.size, outSize]
    omega
  obtain ⟨buf, stored, front, _⟩ := store_front room
  obtain ⟨s1, run, changed, result⟩ := store_stored stored
  obtain ⟨mem, rfl⟩ : ∃ mem, s1 = { s with mem := mem } := ⟨_, changed.rest⟩
  refine ⟨mem, ?_, ?_⟩
  · rw [fillHole, if_pos ⟨outCount, hole⟩, run]
    rfl
  · rw [show mem s.out.db = buf from result]
    exact front

theorem ddClose_hole {blocks : List (List Byte)} (copy : o.cfunc = .copy)
    (noOsync : o.osync = false) (copying : Copying o ibs obs writes input blocks [] s)
    (long : (obs : Int) ≤ s.pending) (positive : 0 < obs) :
    ∃ s', ddClose o s = .ok s' ∧ Tidy s' ∧ Flat s' ∧ s'.contents = input := by
  have outSize := copying.out.2.2
  obtain ⟨mem, filled, front⟩ := fillHole_copying copying (by omega)
  have some : List.replicate s.out.dbsz (0 : Byte) ≠ [] := by
    rw [outSize]
    exact List.ne_nil_of_length_pos (by rw [List.length_replicate]; exact positive)
  obtain ⟨s', run, tidy, flat, contents⟩ := ddOut_force o (s := s.filled mem)
    ⟨copying.tidy.place, by show 0 ≤ s.pending - s.out.dbsz; omega, copying.tidy.skips⟩
    (by show 0 < s.out.dbsz; omega) front List.length_replicate.symm some
  refine ⟨s', ?_, tidy, flat, ?_⟩
  · rw [ddClose_steps noOsync (closeConversion_copying copy copying) filled,
      if_pos (by show s.out.dbsz ≠ 0; omega), run]
  · have total : s.pending.toNat = (s.pending - s.out.dbsz).toNat + s.out.dbsz := by omega
    have whole := copying.contents
    rw [State.contents, total, ← List.replicate_append_replicate, ← List.append_assoc] at whole
    rw [contents, copying.split.joined, List.append_nil, ← whole]
    rfl

theorem write_seeks (s : State) (bytes : List Byte) : (s.write bytes).seeks = s.seeks := by
  unfold State.write
  split <;> rfl

theorem seekPending_seeks (run : s.seekPending = .ok s') :
    s.seeks <+: s'.seeks ∧ (s.pending ≠ 0 → (s.pos, s.pending) ∈ s'.seeks) := by
  unfold State.seekPending State.seekBy at run
  split at run
  · split at run
    · cases run
      exact ⟨List.prefix_append _ _, fun _ => List.mem_append_right _ (List.mem_singleton.mpr rfl)⟩
    · cases run
  · next closed =>
      cases run
      exact ⟨List.prefix_refl _, fun hole => absurd hole closed⟩

theorem writeBlock_seeks (o : Operands) (force : Bool) (writes : List Nat) :
    ∀ {outp cnt : Nat} {s s' : State}, writeBlock o force writes outp cnt s = .ok s' →
      s.seeks <+: s'.seeks ∧
        (force = true → s.pending ≠ 0 → (s.pos, s.pending) ∈ s'.seeks) := by
  induction writes with
  | nil =>
      intro outp cnt s s' run
      rw [writeBlock] at run
      split at run
      · next hole =>
          cases run
          exact ⟨List.prefix_refl _, fun forced => by simp [forced] at hole⟩
      · cases seek : s.seekPending with
        | error fault =>
            rw [seek] at run
            cases run
        | ok s1 =>
            obtain ⟨kept, made⟩ := seekPending_seeks seek
            rw [seek] at run
            cases run
            exact ⟨by simpa [State.closeHole, State.setWrites, write_seeks] using kept,
              fun _ hole => by simpa [State.closeHole, State.setWrites, write_seeks] using made hole⟩
  | cons w writes ih =>
      intro outp cnt s s' run
      rw [writeBlock] at run
      split at run
      · next hole =>
          cases run
          exact ⟨List.prefix_refl _, fun forced => by simp [forced] at hole⟩
      · cases seek : s.seekPending with
        | error fault =>
            rw [seek] at run
            cases run
        | ok s1 =>
            obtain ⟨kept, made⟩ := seekPending_seeks seek
            simp only [seek, bind, Except.bind] at run
            have later : s1.seeks <+: s'.seeks := by
              split at run
              · cases run
                simp [State.closeHole, State.setWrites, write_seeks]
              · simpa [State.closeHole, write_seeks] using (ih run).1
            exact ⟨kept.trans later, fun _ hole => later.subset (made hole)⟩

theorem writeBlocks_seeks (o : Operands) (force : Bool) (fuel : Nat) :
    ∀ {n outp : Nat} {s s' : State}, writeBlocks o force fuel n outp s = .ok s' →
      s.seeks <+: s'.seeks := by
  induction fuel with
  | zero =>
      intro n outp s s' run
      cases run
      exact List.prefix_refl _
  | succ fuel ih =>
      intro n outp s s' run
      rw [writeBlocks] at run
      cases block : writeBlock o force s.writes outp n s with
      | error fault =>
          rw [block] at run
          cases run
      | ok s1 =>
          simp only [block, bind, Except.bind] at run
          have kept := (writeBlock_seeks o force s.writes block).1
          split at run
          · cases run
            exact kept
          · have later := ih run
            exact kept.trans later

theorem reassemble_seeks (run : reassemble s = .ok s') : s'.seeks = s.seeks := by
  unfold reassemble State.store at run
  split at run
  · split at run
    · cases run
      rfl
    · cases run
  · cases run
    rfl

theorem ddOut_seeks (run : ddOut o true s = .ok s') (hole : s.pending ≠ 0) :
    (s.pos, s.pending) ∈ s'.seeks := by
  rw [ddOut, writeBlocks] at run
  cases block : writeBlock o true s.writes 0 s.out.dbcnt s with
  | error fault =>
      simp only [if_true, block, bind, Except.bind] at run
      cases run
  | ok s1 =>
      have made := (writeBlock_seeks o true s.writes block).2 rfl hole
      simp only [if_true, block, bind, Except.bind] at run
      split at run
      · cases run
      · next s2 blocks =>
          have later : s1.seeks <+: s2.seeks := by
            split at blocks
            · cases blocks
              exact List.prefix_refl _
            · have later := writeBlocks_seeks o true _ blocks
              exact later
          split at run
          · cases run
          · next s3 moved =>
              cases run
              show _ ∈ s3.seeks
              rw [reassemble_seeks moved]
              exact later.subset made

theorem ddClose_backward {blocks : List (List Byte)} (copy : o.cfunc = .copy)
    (noOsync : o.osync = false) (copying : Copying o ibs obs writes input blocks [] s)
    (hole : s.pending ≠ 0) (short : s.pending < (obs : Int)) (positive : 0 < obs)
    (run : ddClose o s = .ok s') :
    ∃ jump ∈ s'.seeks, jump.2 < 0 := by
  have outSize := copying.out.2.2
  obtain ⟨mem, filled, _⟩ := fillHole_copying copying hole
  rw [ddClose_steps noOsync (closeConversion_copying copy copying) filled,
    if_pos (by show s.out.dbsz ≠ 0; omega)] at run
  have made := ddOut_seeks run (by show s.pending - s.out.dbsz ≠ 0; omega)
  exact ⟨_, made, by show s.pending - s.out.dbsz < 0; omega⟩

theorem ddIn_sparse (o : Operands) (ibs obs : Nat) (old : Nat → Nat → Byte)
    (writes : List Nat) (chunks : List (List Byte)) (copy : o.cfunc = .copy)
    (noSync : o.sync = false) (positive : 0 < obs)
    (fits : ∀ chunk ∈ chunks, chunk.length ≤ ibs) :
    ∃ s blocks held,
      ddIn { o with sparse := true } chunks
        (setup { o with sparse := true } ibs obs old writes) = .ok s ∧
      Copying { o with sparse := true } ibs obs writes (chunks.flatten.map o.translate) blocks
        held s := by
  obtain ⟨s, blocks, held, run, copying⟩ := ddIn_copying { o with sparse := true } copy noSync
    chunks (setup_copying { o with sparse := true } copy positive old writes) fits
  rw [List.nil_append] at copying
  exact ⟨s, blocks, held, run, copying⟩

/-- Sparse output agrees with plain output unless the last block is cut in its zeros. -/
theorem sparseMatches_iff (o : Operands) (ibs obs : Nat) (old : Nat → Nat → Byte)
    (writes : List Nat) (chunks : List (List Byte)) (copy : o.cfunc = .copy)
    (noSync : o.sync = false) (noOsync : o.osync = false) (positive : 0 < obs)
    (fits : ∀ chunk ∈ chunks, chunk.length ≤ ibs) :
    SparseMatches o ibs obs old writes chunks ↔
      cutInZeros obs writes (chunks.flatten.map o.translate) = false := by
  obtain ⟨plain, runPlain, filePlain⟩ := dd_copies { o with sparse := false } ibs obs old writes
    chunks copy noSync noOsync rfl positive fits
  obtain ⟨s, blocks, held, run, copying⟩ := ddIn_sparse o ibs obs old writes chunks copy noSync
    positive fits
  have closing : dd { o with sparse := true } ibs obs old writes chunks =
      ddClose { o with sparse := true } s := by
    rw [dd, run]
    rfl
  have copy' : ({ o with sparse := true } : Operands).cfunc = .copy := copy
  have noOsync' : ({ o with sparse := true } : Operands).osync = false := noOsync
  -- a run that ends flat with the input in the file agrees with the plain one
  have agrees : (∃ s', ddClose { o with sparse := true } s = .ok s' ∧ Tidy s' ∧ Flat s' ∧
      s'.contents = chunks.flatten.map o.translate) → SparseMatches o ibs obs old writes chunks := by
    rintro ⟨s', close, tidy, flat, contents⟩
    have file : s'.file = plain.file := by
      rw [filePlain, ← flat.contents, contents]
      rfl
    refine ⟨s', plain, closing.trans close, runPlain, file, fun jump membership => ?_⟩
    rw [← file, ← flat.contents, contents_closed flat.closed]
    exact tidy.skips jump membership
  by_cases left : held = []
  · subst left
    have pending : s.pending = (blocks.foldl holeStep (0, writes)).1 :=
      congrArg Prod.fst (copying.hole rfl)
    have cut := cutInZeros_iff writes copying.split
    rw [← pending] at cut
    by_cases closed : s.pending = 0
    · obtain ⟨close, file⟩ := ddClose_closed copy' noOsync' copying closed
      have flat : Flat s := ⟨copying.place, closed⟩
      exact iff_of_true (agrees ⟨s, close, copying.tidy, flat, flat.contents.trans file⟩)
        (by rw [← Bool.not_eq_true, cut]; exact fun h => h.1 closed)
    · by_cases short : s.pending < (obs : Int)
      · refine iff_of_false ?_ (by rw [← Bool.not_eq_true, cut]; exact fun h => h ⟨closed, short⟩)
        rintro ⟨s', _, sparse, _, _, skips⟩
        rw [closing] at sparse
        obtain ⟨jump, made, backward⟩ :=
          ddClose_backward copy' noOsync' copying closed short positive sparse
        have forward := (skips jump made).1
        omega
      · exact iff_of_true
          (agrees (ddClose_hole copy' noOsync' copying (by omega) positive))
          (by rw [← Bool.not_eq_true, cut]; exact fun h => short h.2)
  · exact iff_of_true (agrees (ddClose_held copy' noOsync' copying left))
      (cutInZeros_rest writes copying.split left)

/-- The theorem where the last block is written whole. -/
theorem sparseMatches_whole :
    SparseMatches ⟨.copy, false, false, true, none, 0⟩ 4 4 (fun _ _ => 0) []
        [[byte 'a', 0, 0, 0]] ↔
      cutInZeros 4 [] ([[byte 'a', 0, 0, 0]].flatten.map
        (Operands.translate ⟨.copy, false, false, true, none, 0⟩)) = false :=
  sparseMatches_iff _ 4 4 _ _ _ rfl rfl rfl (by decide) (by decide)

/-- A block of which the first write takes one byte and that goes on with zeros: the file
holds zeros only. -/
theorem dd_sparse_short_write :
    (dd ⟨.copy, false, false, true, none, 0⟩ 4 4 (fun _ _ => 0) [1]
        [[byte 'a', 0, 0, 0]]).toOption.map (fun s => (s.file, s.seeks)) =
      some ([0, 0, 0, 0], [(1, -1)]) ∧
    (dd ⟨.copy, false, false, false, none, 0⟩ 4 4 (fun _ _ => 0) [1]
        [[byte 'a', 0, 0, 0]]).toOption.map (fun s => s.file) = some [byte 'a', 0, 0, 0] := by
  decide +kernel

end Netbase.Dd
