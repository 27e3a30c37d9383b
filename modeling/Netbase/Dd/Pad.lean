import Netbase.Dd.Bounds
import Netbase.Dd.Copy

/-!
# Filling up the last output block

With `osync` the last output block is filled up with zeros when everything has been read.
-/

namespace Netbase.Dd

open Netbase.Text Netbase.Lib

/-! ## Reading does not depend on `osync` -/

section

variable (o : Operands)

/-- The same operands with `osync`. -/
def Operands.withOsync : Operands := { o with osync := true }

theorem writeBlock_osync (force : Bool) (writes : List Nat) :
    ∀ outp cnt s, writeBlock o.withOsync force writes outp cnt s =
      writeBlock o force writes outp cnt s := by
  induction writes with
  | nil => exact fun _ _ _ => rfl
  | cons w writes ih =>
      intro outp cnt s
      rw [writeBlock, writeBlock]
      simp only [ih]
      rfl

theorem writeBlocks_osync (force : Bool) (fuel : Nat) :
    ∀ n outp s, writeBlocks o.withOsync force fuel n outp s = writeBlocks o force fuel n outp s := by
  induction fuel with
  | zero => exact fun _ _ _ => rfl
  | succ fuel ih =>
      intro n outp s
      rw [writeBlocks, writeBlocks]
      simp only [ih, writeBlock_osync]

theorem ddOut_osync (force : Bool) (s : State) : ddOut o.withOsync force s = ddOut o force s := by
  rw [ddOut, ddOut, writeBlocks_osync]

theorem flush_osync (s : State) : Guarded.flush o.withOsync s = Guarded.flush o s := by
  rw [Guarded.flush, Guarded.flush, ddOut_osync]

theorem blockRecords_osync (fuel : Nat) :
    ∀ inp s, Guarded.blockRecords o.withOsync fuel inp s = Guarded.blockRecords o fuel inp s := by
  induction fuel with
  | zero => exact fun _ _ => rfl
  | succ fuel ih =>
      intro inp s
      have emit : Guarded.emitRecord o.withOsync = Guarded.emitRecord o :=
        funext fun s' => flush_osync o _
      rw [Guarded.blockRecords, Guarded.blockRecords]
      simp only [ih, emit]
      rfl

theorem unblockRecords_osync (fuel : Nat) :
    ∀ inp s, Guarded.unblockRecords o.withOsync fuel inp s = Guarded.unblockRecords o fuel inp s := by
  induction fuel with
  | zero => exact fun _ _ => rfl
  | succ fuel ih =>
      intro inp s
      rw [Guarded.unblockRecords, Guarded.unblockRecords]
      simp only [ih, flush_osync]
      rfl

theorem defCopy_osync (s : State) : defCopy o.withOsync s = defCopy o s := by
  rw [defCopy, defCopy]
  simp only [ddOut_osync]
  rfl

theorem block_osync (s : State) : Guarded.block o.withOsync s = Guarded.block o s := by
  have input : Guarded.blockInput o.withOsync = Guarded.blockInput o := by
    funext s'
    rw [Guarded.blockInput, Guarded.blockInput, blockRecords_osync]
  rw [Guarded.block, Guarded.block, input]

theorem unblock_osync (s : State) : Guarded.unblock o.withOsync s = Guarded.unblock o s := by
  rw [Guarded.unblock, Guarded.unblock]
  simp only [unblockRecords_osync]
  rfl

theorem readBlock_osync (chunk : List Byte) (s : State) :
    Guarded.readBlock o.withOsync chunk s = Guarded.readBlock o chunk s := by
  have conversion : Guarded.convert o.withOsync = Guarded.convert o := by
    funext s'
    unfold Guarded.convert
    rw [defCopy_osync, block_osync, unblock_osync]
    rfl
  rw [Guarded.readBlock, Guarded.readBlock, conversion]
  rfl

theorem ddIn_osync (chunks : List (List Byte)) :
    ∀ s, Guarded.ddIn o.withOsync chunks s = Guarded.ddIn o chunks s := by
  induction chunks with
  | nil => exact fun _ => rfl
  | cons chunk rest ih =>
      intro s
      rw [Guarded.ddIn, Guarded.ddIn, readBlock_osync]
      simp only [ih]

end

/-! ## What is left when everything has been read -/

/-- Full blocks are in the file, and what is left of the output is in its buffer. -/
structure Level (obs : Nat) (s : State) : Prop where
  tidy : Tidy s
  flat : Flat s
  whole : obs ∣ s.file.length
  block : s.out.dbsz = obs
  place : s.out.dbp = s.out.dbcnt
  room : s.out.dbcnt < obs
  inside : s.out.dbcnt ≤ (s.mem s.out.db).length

theorem store_ends (s : State) (db p : Nat) (bytes : List Byte) :
    Ends (fun s' => p + bytes.length ≤ (s.mem db).length ∧ Stored db s s' ∧
      Lib.store (s.mem db) p bytes = some (s'.mem db)) (fun _ => True) (s.store db p bytes) := by
  cases stored : Lib.store (s.mem db) p bytes with
  | none =>
      rw [State.store, stored]
      exact trivial
  | some buf =>
      obtain ⟨s', run, changed, result⟩ := store_stored stored
      have inside : p + bytes.length ≤ (s.mem db).length := by
        by_contra long
        rw [Lib.store, if_neg long] at stored
        cases stored
      rw [run]
      exact ⟨inside, changed, congrArg some result.symm⟩

section

variable {o : Operands} {obs : Nat} {s s' : State}

theorem Level.keep (level : Level obs s) (out : s'.out = s.out) (file : SameFile s s')
    (size : ∀ b, (s'.mem b).length = (s.mem b).length) : Level obs s' where
  tidy := file.tidy level.tidy
  flat := file.flat level.flat
  whole := by rw [file.file]; exact level.whole
  block := by rw [out]; exact level.block
  place := by rw [out]; exact level.place
  room := by rw [out]; exact level.room
  inside := by rw [out, size]; exact level.inside

/-- What stands in the output buffer goes out as far as it fills blocks. -/
theorem flush_level (noSparse : o.sparse = false) (tidy : Tidy s) (flat : Flat s)
    (whole : obs ∣ s.file.length) (block : s.out.dbsz = obs) (positive : 0 < obs)
    (place : s.out.dbp = s.out.dbcnt) (inside : s.out.dbcnt ≤ (s.mem s.out.db).length) :
    ∃ s', flush o s = .ok s' ∧ Level obs s' ∧ s'.inp = s.inp ∧ s'.intrunc = s.intrunc ∧
      s'.out.db = s.out.db ∧ ∀ b, (s'.mem b).length = (s.mem b).length := by
  have length : s.out.dbcnt = (slice (s.mem s.out.db) 0 s.out.dbcnt).length :=
    (slice_length (by omega)).symm
  have known : slice (s.mem s.out.db) 0 s.out.dbcnt <+: s.mem s.out.db := List.take_prefix _ _
  obtain ⟨s', blocks, rest, run, flushed⟩ := flush_flushed o tidy (block ▸ positive) known length
    (place.trans length)
  have flat' := flushed.flat noSparse flat
  have out := flushed.out
  have file : s'.file = s.file ++ blocks.flatten := by
    rw [← flat'.contents, flushed.contents, flat.contents]
  refine ⟨s', run, ⟨flushed.tidy, flat', ?_, ?_, ?_, ?_, ?_⟩, flushed.inp, flushed.intrunc, ?_,
    flushed.size⟩
  · rw [file, List.length_append, flatten_length flushed.split.full, block]
    exact Nat.dvd_add whole (Nat.dvd_mul_right _ _)
  · rw [out]
    exact block
  · rw [out]
  · rw [out]
    exact flushed.split.short.trans_eq block
  · rw [out]
    exact flushed.known.length_le
  · rw [out]

theorem Level.flushes (level : Level obs s) (noSparse : o.sparse = false) {n : Nat}
    (inside : s.out.dbp + n ≤ (s.mem s.out.db).length) :
    ∃ s', flush o (s.sent n) = .ok s' ∧ Level obs s' ∧ s'.inp = s.inp ∧ s'.intrunc = s.intrunc ∧
      s'.out.db = s.out.db ∧ ∀ b, (s'.mem b).length = (s.mem b).length := by
  have place := level.place
  have count : s.out.dbcnt + n ≤ (s.mem s.out.db).length := by omega
  have file : SameFile s (s.sent n) := ⟨rfl, rfl, rfl, rfl⟩
  exact flush_level noSparse (file.tidy level.tidy) (file.flat level.flat) level.whole level.block
    (Nat.lt_of_le_of_lt (Nat.zero_le _) level.room) (congrArg (· + n) place) count

theorem endRecord_level (level : Level obs s) {inp cnt : Nat} (few : cnt ≤ o.cbsz)
    (stored : s.out.dbp + cnt ≤ (s.mem s.out.db).length) :
    Ends (fun next => Level obs next.2 ∧ next.2.inp.dbcnt ≤ s.inp.dbcnt ∧
        next.2.out.dbp + o.cbsz ≤ (next.2.mem next.2.out.db).length) (fun _ => True)
      (endRecord o inp cnt s) := by
  unfold endRecord
  split
  · next short =>
      refine (store_ends s s.out.db (s.out.dbp + cnt) _).bind ?_
      rintro s' ⟨inside, changed, -⟩
      obtain ⟨mem, rfl⟩ : ∃ mem, s' = { s with mem := mem } := ⟨_, changed.rest⟩
      refine ⟨level.keep rfl ⟨rfl, rfl, rfl, rfl⟩ changed.size, Nat.le_refl _, ?_⟩
      rw [List.length_replicate] at inside
      show s.out.dbp + o.cbsz ≤ (mem s.out.db).length
      rw [show (mem s.out.db).length = (s.mem s.out.db).length from changed.size _]
      omega
  · next long =>
      have full : s.out.dbp + o.cbsz ≤ (s.mem s.out.db).length := by omega
      simp only
      split
      · exact ⟨level.keep rfl ⟨rfl, rfl, rfl, rfl⟩ fun _ => rfl, Nat.zero_le _, full⟩
      · refine ⟨level.keep rfl ⟨rfl, rfl, rfl, rfl⟩ fun _ => rfl, ?_, full⟩
        show s.inp.dbcnt - _ - 1 ≤ s.inp.dbcnt
        omega

theorem nextRecord_le (inp : Nat) : (nextRecord o inp s).length ≤ min o.cbsz s.inp.dbcnt :=
  (List.takeWhile_prefix _).length_le.trans (List.length_take_le _ _)

theorem moveInput_level (level : Level obs s) :
    Ends (fun s' => Level obs s' ∧ s'.inp = s.inp) (fun _ => True) (moveInput s) := by
  refine (store_ends s s.inp.db 0 _).weaken ?_
  rintro s' ⟨-, changed, -⟩
  obtain ⟨mem, rfl⟩ : ∃ mem, s' = { s with mem := mem } := ⟨_, changed.rest⟩
  exact ⟨level.keep rfl ⟨rfl, rfl, rfl, rfl⟩ changed.size, rfl⟩

theorem blockRecords_level (noSparse : o.sparse = false) (positive : 0 < o.cbsz) (fuel : Nat) :
    ∀ {inp : Nat} {s : State}, Level obs s → s.inp.dbcnt ≤ fuel →
      Ends (fun s' => Level obs s' ∧ s'.inp.dbcnt < o.cbsz) (fun _ => True)
        (blockRecords o fuel inp s) := by
  induction fuel with
  | zero => exact fun level none_ => ⟨level, by omega⟩
  | succ fuel ih =>
      intro inp s level few
      rw [blockRecords]
      split
      · next none_ => exact ⟨level, by omega⟩
      · next some_ =>
          have less := @nextRecord_le o s inp
          refine (store_ends s s.out.db s.out.dbp _).bind ?_
          rintro s1 ⟨inside, changed, -⟩
          obtain ⟨mem, rfl⟩ : ∃ mem, s1 = { s with mem := mem } := ⟨_, changed.rest⟩
          have level1 : Level obs { s with mem := mem } :=
            level.keep rfl ⟨rfl, rfl, rfl, rfl⟩ changed.size
          simp only
          split
          · next waits =>
              refine (moveInput_level level1).weaken ?_
              rintro s' ⟨level2, same⟩
              exact ⟨level2, same ▸ waits.2⟩
          · next goes =>
              -- A newline or a whole record has been used.
              generalize used_eq : (nextRecord o inp s).length +
                (if (nextRecord o inp s).length < min o.cbsz s.inp.dbcnt then 1 else 0) = used
              have bounds : 0 < used := by
                rw [← used_eq]
                split <;> omega
              have level2 : Level obs { s with
                  mem := mem, inp := { s.inp with dbcnt := s.inp.dbcnt - used } } :=
                level1.keep rfl ⟨rfl, rfl, rfl, rfl⟩ fun _ => rfl
              rw [List.length_map] at inside
              have stored : s.out.dbp + (nextRecord o inp s).length ≤ (mem s.out.db).length :=
                inside.trans_eq (changed.size _).symm
              refine (endRecord_level level2 (less.trans (min_le_left _ _)) stored).bind ?_
              rintro ⟨inp', s'⟩ ⟨level3, fewer, full⟩
              obtain ⟨s'', run, level4, same, -⟩ := level3.flushes noSparse full
              simp only at fewer
              have emitted : emitRecord o s' = .ok s'' := run
              show Ends _ _ (emitRecord o s' >>= _)
              rw [emitted]
              have kept : s''.inp = s'.inp := same
              exact ih level4 (by rw [kept]; omega)

theorem blockInput_level (noSparse : o.sparse = false) (positive : 0 < o.cbsz)
    (level : Level obs s) :
    Ends (fun s' => Level obs s' ∧ s'.inp.dbp = s'.inp.dbcnt ∧ s'.inp.dbcnt < o.cbsz)
      (fun _ => True) (blockInput o s) := by
  refine (blockRecords_level noSparse positive _ level (Nat.le_refl _)).bind ?_
  rintro s' ⟨level', short⟩
  exact ⟨level'.keep rfl ⟨rfl, rfl, rfl, rfl⟩ fun _ => rfl, rfl, short⟩

theorem block_level (noSparse : o.sparse = false) (positive : 0 < o.cbsz) (level : Level obs s) :
    Ends (fun s' => Level obs s' ∧ s'.inp.dbp = s'.inp.dbcnt ∧ s'.inp.dbcnt < o.cbsz)
      (fun _ => True) (block o s) := by
  unfold block
  split
  · simp only
    split
    · exact ⟨level.keep rfl ⟨rfl, rfl, rfl, rfl⟩ fun _ => rfl, rfl, positive⟩
    · exact blockInput_level noSparse positive
        (level.keep rfl ⟨rfl, rfl, rfl, rfl⟩ fun _ => rfl)
  · exact blockInput_level noSparse positive level

theorem emitLine_level (level : Level obs s) (noSparse : o.sparse = false) (record : List Byte) :
    Ends (fun s' => ∃ s'', flush o s' = .ok s'' ∧ Level obs s'' ∧ s''.inp = s.inp) (fun _ => True)
      (emitLine record s) := by
  refine (store_ends s s.out.db s.out.dbp _).bind ?_
  rintro s1 ⟨inside, changed, -⟩
  obtain ⟨mem, rfl⟩ : ∃ mem, s1 = { s with mem := mem } := ⟨_, changed.rest⟩
  have level1 : Level obs { s with mem := mem } := level.keep rfl ⟨rfl, rfl, rfl, rfl⟩ changed.size
  obtain ⟨s'', run, level2, same, -⟩ :=
    level1.flushes noSparse (inside.trans_eq (changed.size _).symm)
  exact ⟨s'', run, level2, same⟩

theorem unblockRecords_level (noSparse : o.sparse = false) (fuel : Nat) :
    ∀ {inp : Nat} {s : State}, Level obs s →
      Ends (Level obs) (fun _ => True) (unblockRecords o fuel inp s) := by
  induction fuel with
  | zero => exact fun level => level
  | succ fuel ih =>
      intro inp s level
      rw [unblockRecords]
      split
      · exact level
      · refine (emitLine_level level noSparse _).bind ?_
        rintro s1 ⟨s2, run, level2, -⟩
        rw [run]
        exact ih (level2.keep rfl ⟨rfl, rfl, rfl, rfl⟩ fun _ => rfl)

theorem translateInput_level (level : Level obs s) :
    Ends (fun s' => Level obs s' ∧ s'.inp = s.inp ∧ s'.out = s.out ∧
        ∀ b, (s'.mem b).length = (s.mem b).length) (fun _ => True) (translateInput o s) := by
  unfold translateInput
  split
  · exact ⟨level, rfl, rfl, fun _ => rfl⟩
  · refine (store_ends s s.inp.db _ _).weaken ?_
    rintro s' ⟨-, changed, -⟩
    obtain ⟨mem, rfl⟩ : ∃ mem, s' = { s with mem := mem } := ⟨_, changed.rest⟩
    exact ⟨level.keep rfl ⟨rfl, rfl, rfl, rfl⟩ changed.size, rfl, rfl, changed.size⟩

theorem unblock_level (noSparse : o.sparse = false) (level : Level obs s) :
    Ends (fun s' => Level obs s' ∧ s'.inp.dbp = s'.inp.dbcnt) (fun _ => True) (unblock o s) := by
  refine (translateInput_level level).bind ?_
  rintro s1 ⟨level1, -⟩
  refine (unblockRecords_level noSparse _ level1).bind fun s2 level2 => ?_
  have kept : Ends (Level obs) (fun _ => True) (keepRecord s2) := by
    unfold keepRecord
    split
    · exact (moveInput_level level2).weaken fun _ done => done.1
    · exact level2
  exact kept.bind fun s3 level3 => ⟨level3.keep rfl ⟨rfl, rfl, rfl, rfl⟩ fun _ => rfl, rfl⟩

/-- Everything has been read, and what has not been converted is at the front of its buffer. -/
structure Finished (o : Operands) (obs : Nat) (s : State) : Prop where
  level : Level obs s
  place : s.inp.dbp = s.inp.dbcnt
  short : o.cfunc = .block → s.inp.dbcnt < o.cbsz
  shared : o.cfunc = .copy →
    s.inp.db = s.out.db ∧ s.inp.dbcnt = s.out.dbcnt ∧ obs ≤ (s.mem s.out.db).length

theorem defCopy_level (noSparse : o.sparse = false) (level : Level obs s)
    (same : s.inp.db = s.out.db) (room : obs ≤ (s.mem s.out.db).length)
    (place : s.inp.dbp = s.inp.dbcnt) (inside : s.inp.dbcnt ≤ (s.mem s.out.db).length) :
    Ends (fun s' => Level obs s' ∧ s'.inp.dbp = s'.inp.dbcnt ∧ s'.inp.db = s'.out.db ∧
        s'.inp.dbcnt = s'.out.dbcnt ∧ obs ≤ (s'.mem s'.out.db).length)
      (fun _ => True) (defCopy o s) := by
  have translation := @translateInput_level o obs s level
  cases translated : translateInput o s with
  | error fault =>
      rw [defCopy, translated]
      exact trivial
  | ok s1 =>
      rw [translated] at translation
      obtain ⟨level1, inp1, out1, size1⟩ := translation
      have file : SameFile s1 s1.shared := ⟨rfl, rfl, rfl, rfl⟩
      have place1 : s1.inp.dbp = s1.inp.dbcnt := by rw [inp1, place]
      have inside1 : s1.inp.dbcnt ≤ (s1.mem s1.out.db).length := by
        rw [inp1, out1, size1]
        exact inside
      obtain ⟨s2, run, level2, inp2, -, db2, size2⟩ := @flush_level o obs s1.shared noSparse
        (file.tidy level1.tidy) (file.flat level1.flat) level1.whole level1.block
        (Nat.lt_of_le_of_lt (Nat.zero_le _) level1.room) place1 inside1
      have inp2' : s2.inp = s1.inp := inp2
      have db2' : s2.out.db = s1.out.db := db2
      rw [defCopy_flush translated run]
      refine ⟨level2.keep rfl ⟨rfl, rfl, rfl, rfl⟩ fun _ => rfl, level2.place, ?_, rfl, ?_⟩
      · show s2.inp.db = s2.out.db
        rw [inp2', db2', inp1, out1]
        exact same
      · show obs ≤ (s2.mem s2.out.db).length
        rw [size2, db2']
        show obs ≤ (s1.mem s1.out.db).length
        rw [size1, out1]
        exact room

theorem clearInput_level (level : Level obs s) :
    Ends (fun s' => (o.sync = true → s.inp.dbp + s.inp.dbsz ≤ (s.mem s.inp.db).length) ∧
        ∃ mem, s' = { s with mem := mem } ∧ Level obs s' ∧ ∀ b, (mem b).length = (s.mem b).length)
      (fun _ => True) (clearInput o s) := by
  unfold clearInput
  split
  · refine (store_ends s s.inp.db s.inp.dbp _).weaken ?_
    rintro s' ⟨inside, changed, -⟩
    rw [List.length_replicate] at inside
    obtain ⟨mem, rfl⟩ : ∃ mem, s' = { s with mem := mem } := ⟨_, changed.rest⟩
    exact ⟨fun _ => inside, mem, rfl, level.keep rfl ⟨rfl, rfl, rfl, rfl⟩ changed.size, changed.size⟩
  · next noSync => exact ⟨fun sync => absurd sync noSync, s.mem, rfl, level, fun _ => rfl⟩

theorem readBlock_finished (noSparse : o.sparse = false) (positive : o.cfunc = .block → 0 < o.cbsz)
    (finished : Finished o obs s) (chunk : List Byte) :
    Ends (Finished o obs) (fun _ => True) (readBlock o chunk s) := by
  refine (clearInput_level finished.level).bind ?_
  rintro s1 ⟨cleared, mem1, rfl, level1, size1⟩
  refine (store_ends { s with mem := mem1 } s.inp.db s.inp.dbp chunk).bind ?_
  rintro s2 ⟨inside, changed, -⟩
  obtain ⟨mem2, rfl⟩ : ∃ mem2, s2 = { s with mem := mem2 } := ⟨_, changed.rest⟩
  simp only
  generalize n_eq : (if o.sync then s.inp.dbsz else chunk.length) = n
  have size2 : ∀ b, (mem2 b).length = (s.mem b).length := fun b => (changed.size b).trans (size1 b)
  have level2 : Level obs { s with
      mem := mem2
      inp := { s.inp with dbrcnt := n, dbcnt := s.inp.dbcnt + n, dbp := s.inp.dbp + n } } :=
    level1.keep rfl ⟨rfl, rfl, rfl, rfl⟩ changed.size
  have place : s.inp.dbp + n = s.inp.dbcnt + n := congrArg (· + n) finished.place
  unfold convert
  cases cfunc : o.cfunc with
  | copy =>
      obtain ⟨same, count, room⟩ := finished.shared cfunc
      have fits : s.inp.dbcnt + n ≤ (s.mem s.out.db).length := by
        rw [← place, ← same, ← n_eq]
        split
        · next sync => exact cleared sync
        · exact inside.trans_eq (size1 _)
      refine (defCopy_level noSparse level2 same (room.trans_eq (size2 _).symm) place
        (fits.trans_eq (size2 _).symm)).weaken ?_
      rintro s' ⟨level3, place', rest⟩
      exact ⟨level3, place', fun other => by simp [cfunc] at other, fun _ => rest⟩
  | block =>
      refine (block_level noSparse (positive cfunc) level2).weaken ?_
      rintro s' ⟨level3, place', short⟩
      exact ⟨level3, place', fun _ => short, fun other => by simp [cfunc] at other⟩
  | unblock =>
      refine (unblock_level noSparse level2).weaken ?_
      rintro s' ⟨level3, place'⟩
      exact ⟨level3, place', fun other => by simp [cfunc] at other, fun other => by simp [cfunc] at other⟩

theorem ddIn_finished (noSparse : o.sparse = false) (positive : o.cfunc = .block → 0 < o.cbsz)
    (chunks : List (List Byte)) :
    ∀ {s : State}, Finished o obs s → Ends (Finished o obs) (fun _ => True) (ddIn o chunks s) := by
  induction chunks with
  | nil =>
      exact fun finished => ⟨finished.level.keep rfl ⟨rfl, rfl, rfl, rfl⟩ fun _ => rfl,
        finished.place, finished.short, finished.shared⟩
  | cons chunk rest ih =>
      intro s finished
      exact (readBlock_finished noSparse positive finished chunk).bind fun s' next => ih next

theorem setup_finished {ibs : Nat} (blocks : 0 < obs) (positive : o.cfunc = .block → 0 < o.cbsz)
    (old : Nat → Nat → Byte) (writes : List Nat) : Finished o obs (setup o ibs obs old writes) := by
  refine ⟨⟨⟨Nat.le_refl 0, Int.le_refl 0, by simp [setup]⟩, ⟨rfl, rfl⟩, Nat.dvd_zero _, rfl, rfl,
    blocks, Nat.zero_le _⟩, rfl, positive, fun copy => ?_⟩
  have out : o.outBuffer = 0 := by simp [Operands.outBuffer, copy]
  refine ⟨out.symm, rfl, ?_⟩
  show obs ≤ ((List.range (bufferSize o ibs obs o.outBuffer)).map (old o.outBuffer)).length
  rw [List.length_map, List.length_range, out]
  simp [bufferSize, copy]

end

/-! ## The end of the output -/

/-- What the conversion adds at the end. -/
def lastBytes (o : Operands) (s : State) : List Byte :=
  let left := slice (s.mem s.inp.db) 0 s.inp.dbcnt
  if s.inp.dbcnt = 0 then []
  else
    match o.cfunc with
    | .copy => []
    | .block => left ++ List.replicate (o.cbsz - s.inp.dbcnt) (o.translate (byte ' '))
    | .unblock => unline left

/-- The last bytes have been stored behind what waits for output; `block` does not move the
pointer behind them. -/
structure Added (o : Operands) (s s' : State) : Prop where
  db : s'.out.db = s.out.db
  dbsz : s'.out.dbsz = s.out.dbsz
  dbp : s'.out.dbp = if o.cfunc = .block then s.out.dbcnt else s.out.dbcnt + (lastBytes o s).length
  dbcnt : s'.out.dbcnt = s.out.dbcnt + (lastBytes o s).length
  file : SameFile s s'
  stored : Lib.store (s.mem s.out.db) s.out.dbcnt (lastBytes o s) = some (s'.mem s.out.db)

section

variable {o : Operands} {obs : Nat} {s s' : State}

theorem Added.none (level : Level obs s) (same : s'.out = s.out) (mem : s'.mem = s.mem)
    (file : SameFile s s') (nothing : lastBytes o s = []) : Added o s s' where
  db := by rw [same]
  dbsz := by rw [same]
  dbp := by rw [same, nothing, level.place]; split <;> rfl
  dbcnt := by rw [same, nothing]; rfl
  file := file
  stored := by
    rw [nothing, mem, Lib.store, List.length_nil, Nat.add_zero, if_pos level.inside]
    simp

theorem blockClose_adds (finished : Finished o obs s) (block : o.cfunc = .block) :
    Ends (Added o s) (fun _ => True) (Guarded.blockClose o s) := by
  have level := finished.level
  have short := finished.short block
  unfold Guarded.blockClose
  split
  · next some_ =>
      rcases Guarded.look_stopped s s.inp.db (s.inp.dbp - s.inp.dbcnt) s.inp.dbcnt with stop | run
      · rw [stop]
        exact trivial
      · have inside : s.inp.dbp - s.inp.dbcnt + s.inp.dbcnt ≤ (s.mem s.inp.db).length := by
          by_contra outside
          rw [Guarded.look, if_neg outside] at run
          cases run
        have front : s.inp.dbp - s.inp.dbcnt = 0 := by rw [finished.place, Nat.sub_self]
        rw [run, front]
        rw [front] at inside
        have length := slice_length inside
        refine (store_ends s s.out.db s.out.dbp _).bind ?_
        rintro s1 ⟨-, changed1, stored1⟩
        obtain ⟨mem1, rfl⟩ : ∃ mem1, s1 = { s with mem := mem1 } := ⟨_, changed1.rest⟩
        refine (store_ends { s with mem := mem1 } s.out.db (s.out.dbp + s.inp.dbcnt) _).bind ?_
        rintro s2 ⟨-, changed2, stored2⟩
        obtain ⟨mem2, rfl⟩ : ∃ mem2, s2 = { s with mem := mem2 } := ⟨_, changed2.rest⟩
        have last : lastBytes o s = slice (s.mem s.inp.db) 0 s.inp.dbcnt ++
            List.replicate (o.cbsz - s.inp.dbcnt) (o.translate (byte ' ')) := by
          rw [lastBytes, if_neg some_, block]
        have whole : (lastBytes o s).length = o.cbsz := by
          rw [last, List.length_append, length, List.length_replicate]
          omega
        refine ⟨rfl, rfl, ?_, ?_, ⟨rfl, rfl, rfl, rfl⟩, ?_⟩
        · rw [if_pos block]
          exact level.place
        · rw [whole]
        · rw [last, ← level.place]
          exact store_store stored1 (by rw [length]; exact stored2)
  · next none_ =>
      refine Added.none level rfl rfl ⟨rfl, rfl, rfl, rfl⟩ ?_
      rw [lastBytes, if_pos (not_not.mp none_)]

theorem unblockClose_adds (finished : Finished o obs s) (unblock : o.cfunc = .unblock) :
    Ends (Added o s) (fun _ => True) (Guarded.unblockClose s) := by
  have level := finished.level
  unfold Guarded.unblockClose
  split
  · next some_ =>
      rcases Guarded.look_stopped s s.inp.db 0 s.inp.dbcnt with stop | run
      · rw [stop]
        exact trivial
      · have last : lastBytes o s = unline (slice (s.mem s.inp.db) 0 s.inp.dbcnt) := by
          rw [lastBytes, if_neg some_, unblock]
        rw [run]
        refine (store_ends s s.out.db s.out.dbp _).bind ?_
        rintro s1 ⟨-, changed, stored⟩
        obtain ⟨mem1, rfl⟩ : ∃ mem1, s1 = { s with mem := mem1 } := ⟨_, changed.rest⟩
        refine ⟨rfl, rfl, ?_, ?_, ⟨rfl, rfl, rfl, rfl⟩, ?_⟩
        · rw [if_neg (by rw [unblock]; decide), last, ← level.place]
          rfl
        · rw [last]
          rfl
        · rw [last, ← level.place]
          exact stored
  · next none_ =>
      refine Added.none level rfl rfl ⟨rfl, rfl, rfl, rfl⟩ ?_
      rw [lastBytes, if_pos (not_not.mp none_)]

theorem closeConversion_adds (finished : Finished o obs s) :
    Ends (Added o s) (fun _ => True) (Guarded.closeConversion o s) := by
  unfold Guarded.closeConversion
  cases cfunc : o.cfunc with
  | copy =>
      have count := (finished.shared cfunc).2.1
      have same : defClose s = s := by
        rw [defClose, count]
        split <;> rfl
      show Added o s (defClose s)
      rw [same]
      refine Added.none finished.level rfl rfl ⟨rfl, rfl, rfl, rfl⟩ ?_
      rw [lastBytes, cfunc]
      split <;> rfl
  | block => exact blockClose_adds finished cfunc
  | unblock => exact unblockClose_adds finished cfunc

theorem writeRest (tidy : Tidy s) (flat : Flat s) (positive : 0 < s.out.dbsz) :
    (s.out.dbcnt ≤ (s.mem s.out.db).length ∧
      ∃ s', (if s.out.dbcnt ≠ 0 then do
          let _ ← Guarded.look s s.out.db 0 s.out.dbcnt
          ddOut o true s
        else .ok s) = .ok s' ∧ s'.file = s.file ++ slice (s.mem s.out.db) 0 s.out.dbcnt) ∨
    (¬ s.out.dbcnt ≤ (s.mem s.out.db).length ∧
      (if s.out.dbcnt ≠ 0 then do
          let _ ← Guarded.look s s.out.db 0 s.out.dbcnt
          ddOut o true s
        else .ok s) = .error .overrun) := by
  by_cases none_ : s.out.dbcnt = 0
  · refine .inl ⟨by omega, s, if_neg (not_not.mpr none_), ?_⟩
    rw [none_, slice, List.take_zero, List.append_nil]
  by_cases inside : s.out.dbcnt ≤ (s.mem s.out.db).length
  · have length : (slice (s.mem s.out.db) 0 s.out.dbcnt).length = s.out.dbcnt :=
      slice_length (by omega)
    have some_ : slice (s.mem s.out.db) 0 s.out.dbcnt ≠ [] :=
      List.length_pos_iff.mp (by omega)
    obtain ⟨s', run, -, flat', contents⟩ := ddOut_force o tidy positive
      (List.take_prefix s.out.dbcnt (s.mem s.out.db)) length.symm some_
    have look : Guarded.look s s.out.db 0 s.out.dbcnt = .ok (slice (s.mem s.out.db) 0 s.out.dbcnt) :=
      if_pos (by omega)
    refine .inl ⟨inside, s', ?_, ?_⟩
    · rw [if_pos none_, look]
      exact run
    · rw [← flat'.contents, contents, flat.contents]
      rfl
  · have look : Guarded.look s s.out.db 0 s.out.dbcnt = .error .overrun :=
      if_neg (by omega)
    refine .inr ⟨inside, ?_⟩
    rw [if_pos none_, look]
    rfl

theorem allZero_iff {bytes : List Byte} {n : Nat} (length : bytes.length = n) :
    allZero bytes = true ↔ bytes = List.replicate n 0 := by
  subst length
  refine ⟨allZero_replicate, fun zeros => ?_⟩
  rw [zeros]
  simp [allZero]

theorem zeros_around {last rest : List Byte} {n : Nat} (length : rest.length = n) :
    List.replicate n 0 ++ (last ++ rest).drop n = last ++ List.replicate n 0 ↔
      allZero (last.take n) = true ∧ allZero (rest.drop (n - last.length)) = true := by
  by_cases less : n ≤ last.length
  · have front : (last.take n).length = n := by rw [List.length_take, Nat.min_eq_left less]
    have split : last ++ List.replicate n 0 = last.take n ++ (last.drop n ++ List.replicate n 0) := by
      rw [← List.append_assoc, List.take_append_drop]
    rw [List.drop_append_of_le_length less, split, Nat.sub_eq_zero_of_le less, List.drop_zero,
      allZero_iff front, allZero_iff length]
    constructor
    · intro same
      obtain ⟨zeros, behind⟩ := List.append_inj same (by rw [List.length_replicate, front])
      exact ⟨zeros.symm, List.append_cancel_left behind⟩
    · rintro ⟨zeros, zeros'⟩
      rw [zeros, zeros']
  · have more : last.length ≤ n := by omega
    have back : (rest.drop (n - last.length)).length = last.length := by
      rw [List.length_drop]
      omega
    have split : List.replicate n (0 : Byte) =
        List.replicate last.length 0 ++ List.replicate (n - last.length) 0 := by
      rw [List.replicate_append_replicate, Nat.add_sub_cancel' more]
    have split' : List.replicate n (0 : Byte) =
        List.replicate (n - last.length) 0 ++ List.replicate last.length 0 := by
      rw [List.replicate_append_replicate, Nat.sub_add_cancel more]
    rw [List.drop_append, List.drop_of_length_le more, List.nil_append, List.take_of_length_le more,
      allZero_iff rfl, allZero_iff back]
    constructor
    · intro same
      nth_rewrite 1 [split] at same
      rw [List.append_assoc] at same
      obtain ⟨zeros, behind⟩ := List.append_inj same (List.length_replicate ..)
      rw [split'] at behind
      exact ⟨zeros.symm, List.append_cancel_left behind⟩
    · rintro ⟨zeros, zeros'⟩
      rw [zeros']
      nth_rewrite 1 [split]
      rw [List.append_assoc, ← split', ← zeros]

/-- What waits at the end is a multiple of a block, or less than a block and filled up; `block`
does that only where it stores zeros upon zeros. -/
def PadsRight (o : Operands) (s : State) : Prop :=
  let last := lastBytes o s
  let count := s.out.dbcnt + last.length
  let missing := s.out.dbsz - count
  if count < s.out.dbsz then
    0 < count ∧ s.out.dbsz ≤ (s.mem s.out.db).length ∧
      (o.cfunc = .block → allZero (last.take missing) = true ∧
        allZero ((slice (s.mem s.out.db) count missing).drop (missing - last.length)) = true)
  else s.out.dbsz ∣ count

/-- The zeros that are missing in the last block. -/
def missingZeros (obs : Nat) (file : List Byte) : List Byte :=
  List.replicate ((obs - file.length % obs) % obs) 0

theorem missingZeros_eq {file last : List Byte} (whole : obs ∣ file.length) (some_ : 0 < last.length)
    (short : last.length < obs) :
    missingZeros obs (file ++ last) = List.replicate (obs - last.length) 0 := by
  obtain ⟨n, blocks⟩ := whole
  have rest : (file ++ last).length % obs = last.length := by
    rw [List.length_append, blocks, Nat.mul_add_mod, Nat.mod_eq_of_lt short]
  rw [missingZeros, rest, Nat.mod_eq_of_lt (by omega)]

theorem missingZeros_none {file last : List Byte} (whole : obs ∣ file.length) (positive : 0 < obs) :
    missingZeros obs (file ++ last) = [] ↔ obs ∣ last.length := by
  have rest : (file ++ last).length % obs = last.length % obs := by
    obtain ⟨n, blocks⟩ := whole
    rw [List.length_append, blocks, Nat.mul_add_mod]
  have less := Nat.mod_lt last.length positive
  rw [missingZeros, rest, List.replicate_eq_nil_iff, Nat.dvd_iff_mod_eq_zero]
  constructor
  · intro none_
    by_contra some_
    rw [Nat.mod_eq_of_lt (by omega)] at none_
    omega
  · intro none_
    rw [none_, Nat.sub_zero, Nat.mod_self]

theorem slice_store {mem mem' last : List Byte} {count : Nat}
    (stored : Lib.store mem count last = some mem') (n : Nat) :
    slice mem' 0 (count + (last.length + n)) =
      mem.take count ++ (last ++ slice mem (count + last.length) n) := by
  rw [slice, List.drop_zero, List.take_add, store_take stored, store_drop stored,
    List.take_length_add_append, slice]

theorem padded_block {b : Prop} [Decidable b] {mem mem' mem'' last : List Byte} {count missing : Nat}
    (added : Lib.store mem count last = some mem')
    (room : count + last.length + missing ≤ mem.length)
    (padded : Lib.store mem' (if b then count else count + last.length)
      (List.replicate missing 0) = some mem'') :
    slice mem'' 0 (count + last.length + missing) =
        slice mem' 0 (count + last.length) ++ List.replicate missing 0 ↔
      (b → allZero (last.take missing) = true ∧
        allZero ((slice mem (count + last.length) missing).drop (missing - last.length)) = true) := by
  have rest : (slice mem (count + last.length) missing).length = missing := slice_length room
  have data := slice_store added 0
  rw [Nat.add_zero, slice, slice, List.take_zero, List.append_nil] at data
  have data : slice mem' 0 (count + last.length) = mem.take count ++ last := data
  by_cases early : b
  · rw [if_pos early] at padded
    have whole := slice_store padded last.length
    have behind : slice mem' (count + missing) last.length =
        (last ++ slice mem (count + last.length) missing).drop missing := by
      rw [slice, ← List.drop_drop, store_drop added, slice, ← List.take_length_add_append,
        List.drop_take, Nat.add_sub_cancel]
    have sum : count + (missing + last.length) = count + last.length + missing := by omega
    rw [List.length_replicate, store_take added, behind, sum] at whole
    rw [whole, data, List.append_assoc, List.append_cancel_left_eq, zeros_around rest]
    exact (imp_iff_right early).symm
  · rw [if_neg early] at padded
    have whole := slice_store padded 0
    have front : mem'.take (count + last.length) = slice mem' 0 (count + last.length) := rfl
    rw [List.length_replicate, Nat.add_zero, slice, slice, List.take_zero, List.append_nil, front] at whole
    exact iff_of_true whole fun b => absurd b early

/-- The end of the run with `osync`. -/
theorem padded_iff (blocks : 0 < obs) (level : Level obs s) (added : Added o s s')
    (inside : s'.out.dbcnt ≤ (s'.mem s'.out.db).length) :
    (∃ s2, (do
        let s ← padOutput o.withOsync s'
        let s ← fillHole s
        if s.out.dbcnt ≠ 0 then do
          let _ ← Guarded.look s s.out.db 0 s.out.dbcnt
          ddOut o.withOsync true s
        else .ok s) = .ok s2 ∧
      s2.file = s.file ++ slice (s'.mem s'.out.db) 0 s'.out.dbcnt ++
        missingZeros obs (s.file ++ slice (s'.mem s'.out.db) 0 s'.out.dbcnt)) ↔
      PadsRight o s := by
  have flat := added.file.flat level.flat
  have tidy := added.file.tidy level.tidy
  have dbsz : s'.out.dbsz = obs := added.dbsz.trans level.block
  have size : (s'.mem s'.out.db).length = (s.mem s.out.db).length := by
    rw [added.db]
    exact store_length added.stored
  have count := added.dbcnt
  have held : (slice (s'.mem s'.out.db) 0 s'.out.dbcnt).length = s'.out.dbcnt :=
    slice_length (by omega)
  rw [PadsRight, level.block]
  show _ ↔ if s.out.dbcnt + (lastBytes o s).length < obs then _ else _
  rw [← count]
  by_cases short : s'.out.dbcnt < obs
  · have early : s'.out.dbp ≤ s'.out.dbcnt := by
      rw [added.dbp, count]
      split <;> omega
    have padding : padOutput o.withOsync s' = s'.store s'.out.db s'.out.dbp
        (List.replicate (obs - s'.out.dbcnt) 0) >>= fun s =>
          .ok { s with out := { s.out with dbcnt := s.out.dbsz } } := by
      rw [padOutput, if_pos ⟨rfl, dbsz.symm ▸ short⟩, dbsz]
    rw [if_pos short, padding]
    cases padded : Lib.store (s'.mem s'.out.db) s'.out.dbp
        (List.replicate (obs - s'.out.dbcnt) 0) with
    | none =>
        refine iff_of_false (not_exists_ok (show _ = Except.error Fault.overrun from ?_))
          fun both => ?_
        · rw [State.store, padded]
          rfl
        · have fits : s'.out.dbp + (List.replicate (obs - s'.out.dbcnt) (0 : Byte)).length ≤
              (s'.mem s'.out.db).length := by
            rw [List.length_replicate, size]
            omega
          rw [Lib.store, if_pos fits] at padded
          cases padded
    | some buf =>
        obtain ⟨s1, run, changed, result⟩ := store_stored padded
        obtain ⟨mem, rfl⟩ : ∃ mem, s1 = { s' with mem := mem } := ⟨_, changed.rest⟩
        generalize full_eq : { s' with mem := mem, out := { s'.out with dbcnt := s'.out.dbsz } } = full
        have file1 : SameFile s' full := by
          rw [← full_eq]
          exact ⟨rfl, rfl, rfl, rfl⟩
        have buffer : full.mem full.out.db = buf := by
          rw [← full_eq]
          exact result
        have blockful : full.out.dbcnt = obs ∧ full.out.dbsz = obs := by
          rw [← full_eq]
          exact ⟨dbsz, dbsz⟩
        have start : (s'.store s'.out.db s'.out.dbp (List.replicate (obs - s'.out.dbcnt) 0) >>=
            fun s => Except.ok { s with out := { s.out with dbcnt := s.out.dbsz } }) = .ok full := by
          rw [run, ← full_eq]
          rfl
        rw [start]
        show (∃ s2, (fillHole full >>= _) = _ ∧ _) ↔ _
        rw [fillHole_none (.inr (file1.flat flat).closed)]
        have length : buf.length = (s.mem s.out.db).length := (store_length padded).trans size
        rcases @writeRest o.withOsync full (file1.tidy tidy) (file1.flat flat)
          (blockful.2.symm ▸ blocks) with ⟨room, s2, run2, wrote⟩ | ⟨outside, stop⟩
        · rw [blockful.1, buffer, length] at room
          rw [blockful.1, buffer, file1.file, added.file.file] at wrote
          refine (exists_ok_iff run2).trans ?_
          rw [wrote, List.append_assoc, List.append_cancel_left_eq]
          by_cases some_ : 0 < s'.out.dbcnt
          · have missing := missingZeros_eq level.whole (held.symm ▸ some_) (held.symm ▸ short)
            have total : s.out.dbcnt + (lastBytes o s).length + (obs - s'.out.dbcnt) = obs := by omega
            rw [added.dbp] at padded
            have stored : Lib.store (s.mem s.out.db) s.out.dbcnt (lastBytes o s) =
                some (s'.mem s'.out.db) := by
              rw [added.db]
              exact added.stored
            have block := padded_block stored (by omega) padded
            rw [total, ← count] at block
            rw [missing, held, block, and_iff_right some_, and_iff_right room]
          · have nothing : slice (s'.mem s'.out.db) 0 s'.out.dbcnt = [] :=
              List.eq_nil_of_length_eq_zero (by omega)
            have none_ := (@missingZeros_none obs s.file [] level.whole blocks).mpr (Nat.dvd_zero obs)
            refine iff_of_false (fun same => ?_) fun both => some_ both.1
            rw [nothing, none_] at same
            have whole := slice_length (show 0 + obs ≤ buf.length by omega)
            rw [same] at whole
            exact blocks.ne whole
        · rw [blockful.1, buffer, length] at outside
          exact iff_of_false (not_exists_ok stop) fun both => outside both.2.1
  · have unpadded : padOutput o.withOsync s' = .ok s' := if_neg fun both => short (dbsz ▸ both.2)
    rw [if_neg short, unpadded]
    show (∃ s2, (fillHole s' >>= _) = _ ∧ _) ↔ _
    rw [fillHole_none (.inr flat.closed)]
    rcases @writeRest o.withOsync s' tidy flat (dbsz ▸ blocks) with ⟨-, s2, run, file⟩ | ⟨outside, -⟩
    · have same : s2.file = s.file ++ slice (s'.mem s'.out.db) 0 s'.out.dbcnt := by
        rw [file, added.file.file]
      have none_iff := @missingZeros_none obs s.file (slice (s'.mem s'.out.db) 0 s'.out.dbcnt)
        level.whole blocks
      rw [held] at none_iff
      rw [← none_iff]
      refine (exists_ok_iff run).trans ?_
      rw [same, List.self_eq_append_right]
    · exact absurd inside outside

/-- The end of the run without `osync`. -/
theorem ddClose_plain (noOsync : o.osync = false) (blocks : 0 < obs) (level : Level obs s)
    (added : Added o s s') (converted : Guarded.closeConversion o s = .ok s') {s1 : State}
    (closed : Guarded.ddClose o s = .ok s1) :
    s'.out.dbcnt ≤ (s'.mem s'.out.db).length ∧
      s1.file = s.file ++ slice (s'.mem s'.out.db) 0 s'.out.dbcnt := by
  have flat := added.file.flat level.flat
  have unpadded : padOutput o s' = .ok s' := if_neg fun both => by simp [noOsync] at both
  rw [Guarded.ddClose, converted] at closed
  change (padOutput o s' >>= _) = _ at closed
  rw [unpadded] at closed
  change (fillHole s' >>= _) = _ at closed
  rw [fillHole_none (.inr flat.closed)] at closed
  rcases @writeRest o s' (added.file.tidy level.tidy) flat
    (added.dbsz.trans level.block ▸ blocks) with ⟨inside, s2, run, file⟩ | ⟨-, stop⟩
  · cases run.symm.trans closed
    exact ⟨inside, by rw [file, added.file.file]⟩
  · cases stop.symm.trans closed

end

/-- `osync` fills up the output of the run without it, and changes nothing else, exactly where
what waits when everything has been read is filled up right. -/
theorem dd_osync_iff (o : Operands) (ibs obs : Nat) (old : Nat → Nat → Byte) (writes : List Nat)
    (chunks : List (List Byte)) (noOsync : o.osync = false) (noSparse : o.sparse = false)
    (blocks : 0 < obs) (positive : o.cfunc = .block → 0 < o.cbsz) {s1 : State}
    (plain : Guarded.dd o ibs obs old writes chunks = .ok s1) :
    (∃ s2, Guarded.dd o.withOsync ibs obs old writes chunks = .ok s2 ∧
        s2.file = s1.file ++ missingZeros obs s1.file) ↔
      ∃ s, Guarded.ddIn o chunks (setup o ibs obs old writes) = .ok s ∧ PadsRight o s := by
  obtain ⟨s, reading, closed⟩ := except_bind_ok.mp plain
  have read : ddIn o chunks (setup o ibs obs old writes) = .ok s := by
    rcases Guarded.ddIn_stopped o chunks (setup o ibs obs old writes) with stop | same
    · cases stop.symm.trans reading
    · exact same ▸ reading
  have finished : Finished o obs s := by
    have run := ddIn_finished noSparse positive chunks
      (@setup_finished o obs ibs blocks positive old writes)
    rwa [read] at run
  obtain ⟨s', converted, -⟩ := except_bind_ok.mp closed
  have added : Added o s s' := by
    have run := closeConversion_adds finished
    rwa [converted] at run
  obtain ⟨inside, file⟩ := ddClose_plain noOsync blocks finished.level added converted closed
  have start : Guarded.dd o.withOsync ibs obs old writes chunks = Guarded.ddClose o.withOsync s := by
    rw [Guarded.dd, ddIn_osync]
    show (Guarded.ddIn o chunks (setup o ibs obs old writes) >>= _) = _
    rw [reading]
    rfl
  have close : Guarded.ddClose o.withOsync s = (do
      let s ← padOutput o.withOsync s'
      let s ← fillHole s
      if s.out.dbcnt ≠ 0 then do
        let _ ← Guarded.look s s.out.db 0 s.out.dbcnt
        ddOut o.withOsync true s
      else .ok s) := by
    show (Guarded.closeConversion o s >>= _) = _
    rw [converted]
    rfl
  rw [start, close, file, padded_iff blocks finished.level added inside, exists_ok_iff reading]

/-- Three bytes in blocks of two. -/
theorem dd_osync_three :
    (∃ s2, Guarded.dd (Guarded.plain .copy 0).withOsync 4 2 (fun _ _ => 7) [] [[1, 2, 3]] = .ok s2 ∧
        s2.file = [1, 2, 3] ++ missingZeros 2 [1, 2, 3]) ↔
      ∃ s, Guarded.ddIn (Guarded.plain .copy 0) [[1, 2, 3]]
        (setup (Guarded.plain .copy 0) 4 2 (fun _ _ => 7) []) = .ok s ∧
          PadsRight (Guarded.plain .copy 0) s := by
  have runs : (Guarded.dd (Guarded.plain .copy 0) 4 2 (fun _ _ => 7) []
      [[1, 2, 3]]).toOption.map State.file = some [1, 2, 3] := by
    decide +kernel
  cases run : Guarded.dd (Guarded.plain .copy 0) 4 2 (fun _ _ => 7) [] [[1, 2, 3]] with
  | error =>
      rw [run] at runs
      cases runs
  | ok s1 =>
      rw [run] at runs
      have file : s1.file = [1, 2, 3] := Option.some.inj runs
      have decided := dd_osync_iff (Guarded.plain .copy 0) 4 2 (fun _ _ => 7) [] [[1, 2, 3]] rfl rfl
        (by decide) (by decide) run
      rwa [file] at decided

/-- The record of the last line is lost: the zeros are stored in its place, and what the buffer held
before is written behind them. -/
theorem dd_osync_loses :
    (Guarded.dd (Guarded.plain .block 2) 4 8 (fun _ _ => 7) [] [[byte 'a']]).toOption.map State.file =
        some [byte 'a', byte ' '] ∧
      (Guarded.dd (Guarded.plain .block 2).withOsync 4 8 (fun _ _ => 7) []
        [[byte 'a']]).toOption.map State.file = some [0, 0, 0, 0, 0, 0, 7, 7] ∧
      [0, 0, 0, 0, 0, 0, 7, 7] ≠ [byte 'a', byte ' '] ++ missingZeros 8 [byte 'a', byte ' '] := by
  decide +kernel

end Netbase.Dd
