import Netbase.Dd.Access

/-!
# When the conversions of records stay inside their buffers

`setup` computes the sizes of the buffers in 64 bits and asks for them in unsigned ints.
-/

namespace Netbase.Dd.Guarded

open Netbase.Text Netbase.Lib

theorem slice_length_le (buf : List Byte) (p n : Nat) : (slice buf p n).length ≤ n := by
  exact List.length_take_le n _

theorem look_inside {s : State} {db p n : Nat} (inside : p + n ≤ (s.mem db).length) :
    look s db p n = .ok (slice (s.mem db) p n) :=
  if_pos inside

theorem scan_inside {s : State} {db p n : Nat} (inside : p + n ≤ (s.mem db).length) :
    ∃ text, scan s db p n = .ok text ∧ text.length ≤ n := by
  refine ⟨(slice (s.mem db) p n).takeWhile (· ≠ nl), ?_,
    (List.takeWhile_prefix _).length_le.trans (slice_length_le _ _ _)⟩
  rw [scan, look_inside (by omega)]
  rfl

theorem store_inside {s : State} {db p : Nat} {bytes : List Byte}
    (inside : p + bytes.length ≤ (s.mem db).length) :
    ∃ mem, s.store db p bytes = .ok { s with mem := mem } ∧
      ∀ b, (mem b).length = (s.mem b).length := by
  obtain ⟨s', run, stored, -⟩ := store_stored (if_pos inside)
  obtain ⟨mem, rfl⟩ : ∃ mem, s' = { s with mem := mem } := ⟨_, stored.rest⟩
  exact ⟨mem, run, stored.size⟩

/-! ## Output -/

theorem write_same (s : State) (bytes : List Byte) : SameBuffers s (s.write bytes) := by
  unfold State.write
  split <;> exact ⟨rfl, rfl, rfl, rfl⟩

theorem seekPending_same (s : State) : Ends (SameBuffers s) (· = .seek) s.seekPending := by
  unfold State.seekPending State.seekBy
  split
  · split
    · exact ⟨rfl, rfl, rfl, rfl⟩
    · exact rfl
  · exact .refl s

theorem writeBlock_same (o : Operands) (force : Bool) (writes : List Nat) :
    ∀ outp cnt s, Ends (SameBuffers s) (· = .seek) (writeBlock o force writes outp cnt s) := by
  induction writes with
  | nil =>
      intro outp cnt s
      rw [writeBlock]
      split
      · exact ⟨rfl, rfl, rfl, rfl⟩
      · refine (seekPending_same s).bind fun s' same => ?_
        exact ((same.trans (write_same s' _)).trans (closeHole_same _)).trans (setWrites_same _ [])
  | cons w writes ih =>
      intro outp cnt s
      rw [writeBlock]
      split
      · exact ⟨rfl, rfl, rfl, rfl⟩
      · refine (seekPending_same s).bind fun s' same => ?_
        simp only
        have kept := (same.trans (write_same s' (slice (s'.mem s'.out.db) outp (min w cnt)))).trans
          (closeHole_same _)
        split
        · exact kept.trans (setWrites_same _ writes)
        · exact (ih _ _ _).weaken fun s'' later => kept.trans later

/-- Only the count of the output buffer has changed. -/
structure Emptied (left : Nat) (s s' : State) : Prop where
  mem : s'.mem = s.mem
  inp : s'.inp = s.inp
  out : s'.out = { s.out with dbcnt := left }

theorem writeBlocks_emptied (o : Operands) (force : Bool) (fuel : Nat) :
    ∀ {n outp : Nat} {s : State}, 0 < n → 0 < s.out.dbsz → s.out.dbcnt < fuel →
      Ends (fun s' => ∃ left, left < s.out.dbsz ∧ left ≤ s.out.dbcnt ∧ Emptied left s s')
        (· = .seek) (writeBlocks o force fuel n outp s) := by
  induction fuel with
  | zero => exact fun _ _ few => absurd few (Nat.not_lt_zero _)
  | succ fuel ih =>
      intro n outp s some_ positive few
      rw [writeBlocks]
      refine (writeBlock_same o force s.writes outp n s).bind fun s' same => ?_
      simp only [same.out]
      split
      · next short => exact ⟨_, short, Nat.sub_le _ _, same.mem, same.inp, rfl⟩
      · next long =>
          have fewer : s.out.dbcnt - n < fuel := by omega
          refine (@ih _ (outp + n) { s' with out := { s.out with dbcnt := s.out.dbcnt - n } }
            positive positive fewer).weaken ?_
          rintro s'' ⟨left, short, less, emptied⟩
          exact ⟨left, short, less.trans (Nat.sub_le _ _), emptied.mem.trans same.mem,
            emptied.inp.trans same.inp, emptied.out⟩

/-- Less than a block is left, at the front of the output buffer. -/
structure Drained (s s' : State) : Prop where
  size : ∀ b, (s'.mem b).length = (s.mem b).length
  inp : s'.inp = s.inp
  out : ∃ left, left < s.out.dbsz ∧ s'.out = { s.out with dbp := left, dbcnt := left }

theorem ddOut_drained (o : Operands) {force : Bool} {s : State} (positive : 0 < s.out.dbsz)
    (some_ : force = true → 0 < s.out.dbcnt) (inside : s.out.dbcnt ≤ (s.mem s.out.db).length) :
    Ends (Drained s) (· = .seek) (ddOut o force s) := by
  have more : 0 < if force then s.out.dbcnt else s.out.dbsz := by
    split
    · next forced => exact some_ forced
    · exact positive
  rw [ddOut]
  refine (writeBlocks_emptied o force _ more positive (Nat.lt_succ_self _)).bind ?_
  rintro s1 ⟨left, short, less, emptied⟩
  have moved : ∃ mem, reassemble s1 = .ok { s1 with mem := mem } ∧
      ∀ b, (mem b).length = (s1.mem b).length := by
    unfold reassemble
    split
    · refine store_inside ?_
      have length := slice_length_le (s1.mem s1.out.db) (s1.out.dbp - s1.out.dbcnt) s1.out.dbcnt
      have count : s1.out.dbcnt = left := by rw [emptied.out]
      have room : (s1.mem s1.out.db).length = (s.mem s.out.db).length := by
        rw [emptied.mem, emptied.out]
      omega
    · exact ⟨s1.mem, rfl, fun _ => rfl⟩
  obtain ⟨mem, run, size⟩ := moved
  rw [run]
  refine ⟨fun b => (size b).trans (by rw [emptied.mem]), emptied.inp, left, short, ?_⟩
  show { s1.out with dbp := s1.out.dbcnt } = _
  rw [emptied.out]

theorem flush_drained (o : Operands) {s : State} (positive : 0 < s.out.dbsz)
    (place : s.out.dbp = s.out.dbcnt) (inside : s.out.dbcnt ≤ (s.mem s.out.db).length) :
    Ends (Drained s) (· = .seek) (flush o s) := by
  unfold flush
  split
  · rw [look_inside (by omega)]
    exact ddOut_drained o positive nofun inside
  · exact ⟨fun _ => rfl, rfl, s.out.dbcnt, by omega, io_eta place rfl⟩

/-! ## The conversions -/

/-- The buffers have the sizes that are meant, and less than a block waits for output. -/
structure Sized (o : Operands) (ibs obs : Nat) (s : State) : Prop where
  input : (s.mem s.inp.db).length = max ibs o.cbsz + o.cbsz
  output : (s.mem s.out.db).length = obs + o.cbsz
  inBlock : s.inp.dbsz = ibs
  outBlock : s.out.dbsz = obs
  place : s.out.dbp = s.out.dbcnt
  room : s.out.dbcnt < obs

/-- Between two reads less than a record waits, at the front of the input buffer. -/
structure Ready (o : Operands) (ibs obs : Nat) (s : State) : Prop where
  sized : Sized o ibs obs s
  place : s.inp.dbp = s.inp.dbcnt
  short : s.inp.dbcnt < o.cbsz

section

variable {o : Operands} {ibs obs : Nat} {s s' : State}

theorem Sized.keep (sized : Sized o ibs obs s) (db : s'.inp.db = s.inp.db)
    (dbsz : s'.inp.dbsz = s.inp.dbsz) (out : s'.out = s.out)
    (size : ∀ b, (s'.mem b).length = (s.mem b).length) : Sized o ibs obs s' where
  input := by rw [db, size, sized.input]
  output := by rw [out, size, sized.output]
  inBlock := dbsz.trans sized.inBlock
  outBlock := by rw [out, sized.outBlock]
  place := by rw [out, sized.place]
  room := by rw [out]; exact sized.room

theorem Sized.flushes (sized : Sized o ibs obs s) {n : Nat} (few : s.out.dbcnt + n ≤ obs + o.cbsz) :
    Ends (fun s' => Sized o ibs obs s' ∧ s'.inp = s.inp) (· = .seek) (flush o (s.sent n)) := by
  have positive : 0 < s.out.dbsz := by
    rw [sized.outBlock]
    exact Nat.lt_of_le_of_lt (Nat.zero_le _) sized.room
  have place : s.out.dbp + n = s.out.dbcnt + n := by rw [sized.place]
  have inside : s.out.dbcnt + n ≤ (s.mem s.out.db).length := by
    rw [sized.output]
    exact few
  refine (@flush_drained o (s.sent n) positive place inside).weaken ?_
  rintro s' ⟨size, inp, left, short, out⟩
  refine ⟨⟨?_, ?_, ?_, ?_, ?_, ?_⟩, inp⟩
  · rw [inp, size]
    exact sized.input
  · rw [out, size]
    exact sized.output
  · rw [inp]
    exact sized.inBlock
  · rw [out]
    exact sized.outBlock
  · rw [out]
  · rw [out]
    exact short.trans_eq sized.outBlock

theorem moveInput_inside (sized : Sized o ibs obs s) (count : s.inp.dbcnt ≤ s.inp.dbp)
    (inside : s.inp.dbp ≤ max ibs o.cbsz + o.cbsz) :
    ∃ mem, moveInput s = .ok { s with mem := mem } ∧ ∀ b, (mem b).length = (s.mem b).length := by
  have size := sized.input
  have length := slice_length_le (s.mem s.inp.db) (s.inp.dbp - s.inp.dbcnt) s.inp.dbcnt
  rw [moveInput, look_inside (by omega)]
  exact store_inside (by omega)

theorem endRecord_sized (sized : Sized o ibs obs s) {inp cnt : Nat}
    (inside : inp + s.inp.dbcnt ≤ max ibs o.cbsz + o.cbsz) :
    Ends (fun next => Sized o ibs obs next.2 ∧ next.1 + next.2.inp.dbcnt = inp + s.inp.dbcnt ∧
        next.2.inp.dbcnt ≤ s.inp.dbcnt ∧ next.2.inp.dbp = s.inp.dbp)
      (· = .seek) (endRecord o inp cnt s) := by
  have size := sized.input
  have size' := sized.output
  have place := sized.place
  have room := sized.room
  unfold endRecord
  split
  · obtain ⟨mem, run, same⟩ := @store_inside s s.out.db (s.out.dbp + cnt)
      (List.replicate (o.cbsz - cnt) (o.translate (byte ' '))) (by
        rw [List.length_replicate]
        omega)
    rw [run]
    exact ⟨sized.keep rfl rfl rfl same, rfl, Nat.le_refl _, rfl⟩
  · obtain ⟨text, run, less⟩ := @scan_inside s s.inp.db inp s.inp.dbcnt (by omega)
    rw [run]
    show Ends _ _ (if _ then _ else _)
    split
    · next all =>
        exact ⟨sized.keep rfl rfl rfl fun _ => rfl, by rw [all]; rfl, Nat.zero_le _, rfl⟩
    · next part =>
        refine ⟨sized.keep rfl rfl rfl fun _ => rfl, ?_, ?_, rfl⟩
        · show inp + text.length + 1 + (s.inp.dbcnt - text.length - 1) = inp + s.inp.dbcnt
          omega
        · show s.inp.dbcnt - text.length - 1 ≤ s.inp.dbcnt
          omega

theorem blockRecords_sized (positive : 0 < o.cbsz) (fuel : Nat) :
    ∀ {inp : Nat} {s : State}, Sized o ibs obs s → inp + s.inp.dbcnt = s.inp.dbp →
      s.inp.dbp ≤ max ibs o.cbsz + o.cbsz → s.inp.dbcnt ≤ fuel →
      Ends (fun s' => Sized o ibs obs s' ∧ s'.inp.dbcnt < o.cbsz) (· = .seek)
        (blockRecords o fuel inp s) := by
  induction fuel with
  | zero =>
      intro inp s sized _ _ none_
      exact ⟨sized, by omega⟩
  | succ fuel ih =>
      intro inp s sized here inside few
      have size := sized.input
      have size' := sized.output
      have place := sized.place
      have room := sized.room
      rw [blockRecords]
      split
      · next none_ => exact ⟨sized, by omega⟩
      · next some_ =>
          obtain ⟨text, scanned, less⟩ :=
            @scan_inside s s.inp.db inp (min o.cbsz s.inp.dbcnt) (by omega)
          obtain ⟨mem, stored, same⟩ := @store_inside s s.out.db s.out.dbp (text.map o.translate) (by
            rw [List.length_map]
            omega)
          have sized1 : Sized o ibs obs { s with mem := mem } := sized.keep rfl rfl rfl same
          rw [scanned]
          show Ends _ _ (s.store s.out.db s.out.dbp (text.map o.translate) >>= _)
          rw [stored]
          show Ends _ _ (if _ then _ else _)
          split
          · next waits =>
              have count : s.inp.dbcnt ≤ s.inp.dbp := by omega
              obtain ⟨mem', moved, same'⟩ := moveInput_inside sized1 count inside
              rw [moved]
              exact ⟨sized1.keep rfl rfl rfl same', waits.2⟩
          · next goes =>
              -- A newline or a whole record has been used.
              generalize used_eq : text.length +
                (if text.length < min o.cbsz s.inp.dbcnt then 1 else 0) = used
              have bounds : 0 < used ∧ used ≤ s.inp.dbcnt := by
                rw [← used_eq]
                split <;> omega
              have sized2 : Sized o ibs obs { s with
                  mem := mem, inp := { s.inp with dbcnt := s.inp.dbcnt - used } } :=
                sized1.keep rfl rfl rfl fun _ => rfl
              have rest : inp + used + (s.inp.dbcnt - used) ≤ max ibs o.cbsz + o.cbsz := by omega
              refine (endRecord_sized sized2 rest).bind ?_
              rintro ⟨inp', s'⟩ ⟨sized3, here', less', same'⟩
              simp only at here' less' same'
              refine (sized3.flushes (Nat.add_le_add_right (Nat.le_of_lt sized3.room) _)).bind ?_
              rintro s'' ⟨sized4, input⟩
              have kept : s''.inp = s'.inp := input
              exact ih sized4 (by rw [kept]; omega) (by rw [kept]; omega) (by rw [kept]; omega)

/-- What a read has brought stands behind what waits. -/
structure Received (o : Operands) (ibs obs : Nat) (s : State) : Prop where
  sized : Sized o ibs obs s
  place : s.inp.dbp = s.inp.dbcnt
  inside : s.inp.dbp ≤ max ibs o.cbsz + o.cbsz
  fresh : s.inp.dbrcnt ≤ s.inp.dbp

theorem blockInput_ready (positive : 0 < o.cbsz) (sized : Sized o ibs obs s)
    (count : s.inp.dbcnt ≤ s.inp.dbp) (inside : s.inp.dbp ≤ max ibs o.cbsz + o.cbsz) :
    Ends (Ready o ibs obs) (· = .seek) (blockInput o s) := by
  refine (blockRecords_sized positive _ sized (by omega) inside (Nat.le_refl _)).bind ?_
  rintro s' ⟨sized', short⟩
  exact ⟨sized'.keep rfl rfl rfl fun _ => rfl, rfl, short⟩

theorem block_ready (positive : 0 < o.cbsz) (received : Received o ibs obs s) :
    Ends (Ready o ibs obs) (· = .seek) (block o s) := by
  have size := received.sized.input
  have inside := received.inside
  have fresh := received.fresh
  unfold block
  split
  · obtain ⟨text, run, less⟩ := @scan_inside s s.inp.db 0 s.inp.dbrcnt (by omega)
    rw [run]
    show Ends _ _ (if _ then _ else _)
    split
    · exact ⟨received.sized.keep rfl rfl rfl fun _ => rfl, rfl, positive⟩
    · next found =>
        have sized' : Sized o ibs obs (s.skipLine text.length) :=
          received.sized.keep rfl rfl rfl fun _ => rfl
        have count : s.inp.dbrcnt - text.length - 1 ≤ s.inp.dbrcnt := by omega
        exact blockInput_ready positive sized' count (fresh.trans inside)
  · exact blockInput_ready positive received.sized received.place.ge inside

theorem translateInput_received (received : Received o ibs obs s) :
    ∃ mem, translateInput o s = .ok { s with mem := mem } ∧
      ∀ b, (mem b).length = (s.mem b).length := by
  have size := received.sized.input
  have inside := received.inside
  have fresh := received.fresh
  unfold translateInput
  cases o.ctab with
  | none => exact ⟨s.mem, rfl, fun _ => rfl⟩
  | some t =>
      have length := slice_length_le (s.mem s.inp.db) (s.inp.dbp - s.inp.dbrcnt) s.inp.dbrcnt
      simp only
      rw [look_inside (by omega)]
      refine store_inside ?_
      rw [List.length_map]
      omega

theorem emitLine_inside (sized : Sized o ibs obs s) {record : List Byte}
    (short : record.length ≤ o.cbsz) :
    ∃ mem n, n ≤ o.cbsz + 1 ∧ emitLine record s = .ok (State.sent { s with mem := mem } n) ∧
      ∀ b, (mem b).length = (s.mem b).length := by
  have size := sized.output
  have place := sized.place
  have room := sized.room
  have less : (stripBlanks record ++ [nl]).length ≤ o.cbsz + 1 := by
    have part : (stripBlanks record).length ≤ record.length :=
      (List.rdropWhile_prefix _ record).length_le
    rw [List.length_append, List.length_singleton]
    omega
  obtain ⟨mem, run, same⟩ := @store_inside s s.out.db s.out.dbp (stripBlanks record ++ [nl])
    (by omega)
  refine ⟨mem, _, less, ?_, same⟩
  rw [emitLine]
  simp only [run]
  rfl

theorem unblockRecords_sized (positive : 0 < o.cbsz) (fuel : Nat) :
    ∀ {inp : Nat} {s : State}, Sized o ibs obs s → inp + s.inp.dbcnt = s.inp.dbp →
      s.inp.dbp ≤ max ibs o.cbsz + o.cbsz → s.inp.dbcnt ≤ fuel →
      Ends (fun s' => Sized o ibs obs s' ∧ s'.inp.dbcnt < o.cbsz ∧ s'.inp.dbp = s.inp.dbp ∧
          s'.inp.dbcnt ≤ s.inp.dbcnt) (· = .seek) (unblockRecords o fuel inp s) := by
  induction fuel with
  | zero =>
      intro inp s sized _ _ none_
      exact ⟨sized, by omega, rfl, Nat.le_refl _⟩
  | succ fuel ih =>
      intro inp s sized here inside few
      have size := sized.input
      have room := sized.room
      rw [unblockRecords]
      split
      · next short => exact ⟨sized, short, rfl, Nat.le_refl _⟩
      · next whole =>
          have length := slice_length_le (s.mem s.inp.db) inp o.cbsz
          obtain ⟨mem, n, less, stored, same⟩ := emitLine_inside sized length
          have sized1 : Sized o ibs obs { s with mem := mem } := sized.keep rfl rfl rfl same
          rw [look_inside (by omega)]
          show Ends _ _ (emitLine (slice (s.mem s.inp.db) inp o.cbsz) s >>= _)
          rw [stored]
          refine (sized1.flushes (show s.out.dbcnt + n ≤ _ by omega)).bind ?_
          rintro s' ⟨sized2, input⟩
          have kept : s'.inp = s.inp := input
          have sized3 : Sized o ibs obs
              { s' with inp := { s'.inp with dbcnt := s'.inp.dbcnt - o.cbsz } } :=
            sized2.keep rfl rfl rfl fun _ => rfl
          refine (ih sized3 ?_ ?_ ?_).weaken ?_
          · show inp + o.cbsz + (s'.inp.dbcnt - o.cbsz) = s'.inp.dbp
            rw [kept]
            omega
          · show s'.inp.dbp ≤ _
            rw [kept]
            exact inside
          · show s'.inp.dbcnt - o.cbsz ≤ fuel
            rw [kept]
            omega
          · rintro s'' ⟨sized4, short, place, fewer⟩
            refine ⟨sized4, short, place.trans (show s'.inp.dbp = s.inp.dbp by rw [kept]), ?_⟩
            refine fewer.trans (show s'.inp.dbcnt - o.cbsz ≤ s.inp.dbcnt from ?_)
            rw [kept]
            exact Nat.sub_le _ _

theorem unblock_ready (positive : 0 < o.cbsz) (received : Received o ibs obs s) :
    Ends (Ready o ibs obs) (· = .seek) (unblock o s) := by
  have inside := received.inside
  obtain ⟨mem, run, same⟩ := translateInput_received received
  have sized1 : Sized o ibs obs { s with mem := mem } := received.sized.keep rfl rfl rfl same
  rw [unblock, run]
  refine (unblockRecords_sized positive _ sized1 ((Nat.zero_add _).trans received.place.symm) inside
    (Nat.le_refl _)).bind ?_
  rintro s' ⟨sized2, short, place, fewer⟩
  have place' : s'.inp.dbp = s.inp.dbp := place
  have count : s'.inp.dbcnt ≤ s'.inp.dbp := by
    rw [place', received.place]
    exact fewer
  unfold keepRecord
  split
  · obtain ⟨mem', moved, same'⟩ := moveInput_inside sized2 count (place'.trans_le inside)
    rw [moved]
    exact ⟨sized2.keep rfl rfl rfl same', rfl, short⟩
  · exact ⟨sized2.keep rfl rfl rfl fun _ => rfl, rfl, short⟩

theorem readBlock_ready (records : o.cfunc ≠ .copy) (positive : 0 < o.cbsz)
    (ready : Ready o ibs obs s) {chunk : List Byte} (fits : chunk.length ≤ ibs) :
    Ends (Ready o ibs obs) (· = .seek) (readBlock o chunk s) := by
  have size := ready.sized.input
  have inBlock := ready.sized.inBlock
  have short := ready.short
  have place := ready.place
  have cleared : ∃ mem, clearInput o s = .ok { s with mem := mem } ∧
      ∀ b, (mem b).length = (s.mem b).length := by
    unfold clearInput
    split
    · refine store_inside ?_
      rw [List.length_replicate]
      omega
    · exact ⟨s.mem, rfl, fun _ => rfl⟩
  obtain ⟨mem, run, same⟩ := cleared
  have sized1 : Sized o ibs obs { s with mem := mem } := ready.sized.keep rfl rfl rfl same
  obtain ⟨mem', stored, same'⟩ := @store_inside { s with mem := mem } s.inp.db s.inp.dbp chunk
    (show s.inp.dbp + chunk.length ≤ (mem s.inp.db).length by rw [same]; omega)
  have sized2 : Sized o ibs obs { s with mem := mem' } := sized1.keep rfl rfl rfl same'
  rw [readBlock, run]
  show Ends _ _ (State.store { s with mem := mem } s.inp.db s.inp.dbp chunk >>= _)
  rw [stored]
  show Ends _ _ (convert o _)
  generalize n_eq : (if o.sync then s.inp.dbsz else chunk.length) = n
  have few : n ≤ ibs := by
    rw [← n_eq]
    split <;> omega
  have received : Received o ibs obs { s with
      mem := mem'
      inp := { s.inp with dbrcnt := n, dbcnt := s.inp.dbcnt + n, dbp := s.inp.dbp + n } } := by
    refine ⟨sized2.keep rfl rfl rfl fun _ => rfl, ?_, ?_, ?_⟩
    · show s.inp.dbp + n = s.inp.dbcnt + n
      rw [place]
    · show s.inp.dbp + n ≤ _
      omega
    · exact Nat.le_add_left _ _
  unfold convert
  cases cfunc : o.cfunc with
  | copy => exact absurd cfunc records
  | block => exact block_ready positive received
  | unblock => exact unblock_ready positive received

theorem ddIn_ready (records : o.cfunc ≠ .copy) (positive : 0 < o.cbsz)
    (chunks : List (List Byte)) :
    ∀ {s : State}, Ready o ibs obs s → (∀ chunk ∈ chunks, chunk.length ≤ ibs) →
      Ends (Ready o ibs obs) (· = .seek) (ddIn o chunks s) := by
  induction chunks with
  | nil => exact fun ready _ => ⟨ready.sized.keep rfl rfl rfl fun _ => rfl, ready.place, ready.short⟩
  | cons chunk rest ih =>
      intro s ready fits
      refine (readBlock_ready records positive ready (fits chunk (List.mem_cons_self ..))).bind ?_
      exact fun s' ready' => ih ready' fun later inside => fits later (List.mem_cons_of_mem _ inside)

/-! ## The end -/

/-- The last record has been added to what waits for output. -/
structure Closing (o : Operands) (obs : Nat) (s : State) : Prop where
  output : (s.mem s.out.db).length = obs + o.cbsz
  outBlock : s.out.dbsz = obs
  place : s.out.dbp ≤ s.out.dbcnt
  inside : s.out.dbcnt ≤ obs + o.cbsz

theorem closeConversion_closing (records : o.cfunc ≠ .copy) (ready : Ready o ibs obs s) :
    Ends (Closing o obs) (· = .seek) (closeConversion o s) := by
  have input := ready.sized.input
  have output := ready.sized.output
  have place := ready.sized.place
  have room := ready.sized.room
  have short := ready.short
  have here := ready.place
  have closing : Closing o obs s := ⟨output, ready.sized.outBlock, place.le, by omega⟩
  unfold closeConversion
  cases cfunc : o.cfunc with
  | copy => exact absurd cfunc records
  | block =>
      show Ends _ _ (blockClose o s)
      unfold blockClose
      split
      · have length := slice_length_le (s.mem s.inp.db) (s.inp.dbp - s.inp.dbcnt) s.inp.dbcnt
        obtain ⟨mem, run, same⟩ := @store_inside s s.out.db s.out.dbp
          (slice (s.mem s.inp.db) (s.inp.dbp - s.inp.dbcnt) s.inp.dbcnt) (by omega)
        obtain ⟨mem', run', same'⟩ := @store_inside { s with mem := mem } s.out.db
          (s.out.dbp + s.inp.dbcnt)
          (List.replicate (o.cbsz - s.inp.dbcnt) (o.translate (byte ' ')))
          (show _ ≤ (mem s.out.db).length by
            rw [same, List.length_replicate]
            omega)
        rw [look_inside (by omega)]
        show Ends _ _ (s.store s.out.db s.out.dbp _ >>= _)
        rw [run]
        show Ends _ _ (State.store { s with mem := mem } s.out.db (s.out.dbp + s.inp.dbcnt) _ >>= _)
        rw [run']
        refine ⟨(same' _).trans ((same _).trans output), ready.sized.outBlock, ?_, ?_⟩
        · show s.out.dbp ≤ s.out.dbcnt + o.cbsz
          omega
        · show s.out.dbcnt + o.cbsz ≤ obs + o.cbsz
          omega
      · exact closing
  | unblock =>
      show Ends _ _ (unblockClose s)
      unfold unblockClose
      split
      · have length := slice_length_le (s.mem s.inp.db) 0 s.inp.dbcnt
        obtain ⟨mem, n, less, stored, same⟩ := emitLine_inside ready.sized
          (length.trans short.le)
        rw [look_inside (by omega)]
        show Ends _ _ (emitLine _ s)
        rw [stored]
        refine ⟨(same _).trans output, ready.sized.outBlock, ?_, ?_⟩
        · show s.out.dbp + n ≤ s.out.dbcnt + n
          omega
        · show s.out.dbcnt + n ≤ obs + o.cbsz
          omega
      · exact closing

theorem padOutput_closing (closing : Closing o obs s) :
    Ends (Closing o obs) (· = .seek) (padOutput o s) := by
  have output := closing.output
  have outBlock := closing.outBlock
  have place := closing.place
  unfold padOutput
  split
  · obtain ⟨mem, run, same⟩ := @store_inside s s.out.db s.out.dbp
      (List.replicate (s.out.dbsz - s.out.dbcnt) 0) (by
        rw [List.length_replicate]
        omega)
    rw [run]
    refine ⟨(same _).trans output, outBlock, ?_, ?_⟩
    · show s.out.dbp ≤ s.out.dbsz
      omega
    · show s.out.dbsz ≤ obs + o.cbsz
      omega
  · exact closing

theorem fillHole_closing (closing : Closing o obs s) :
    Ends (Closing o obs) (· = .seek) (fillHole s) := by
  have output := closing.output
  have outBlock := closing.outBlock
  unfold fillHole
  split
  · obtain ⟨mem, run, same⟩ := @store_inside s s.out.db 0 (List.replicate s.out.dbsz 0) (by
      rw [List.length_replicate]
      omega)
    rw [run]
    refine ⟨(same _).trans output, outBlock, Nat.le_refl _, ?_⟩
    show s.out.dbsz ≤ obs + o.cbsz
    omega
  · exact closing

theorem ddClose_inside (records : o.cfunc ≠ .copy) (blocks : 0 < obs) (ready : Ready o ibs obs s) :
    Ends (fun _ => True) (· = .seek) (ddClose o s) := by
  refine (closeConversion_closing records ready).bind fun s1 closing1 =>
    (padOutput_closing closing1).bind fun s2 closing2 =>
    (fillHole_closing closing2).bind fun s3 closing3 => ?_
  have output := closing3.output
  have inside := closing3.inside
  have positive : 0 < s3.out.dbsz := closing3.outBlock ▸ blocks
  split
  · next some_ =>
      rw [look_inside (by omega)]
      exact (ddOut_drained o positive (fun _ => Nat.pos_of_ne_zero some_) (by omega)).weaken
        fun _ _ => trivial
  · exact trivial

theorem setup_ready (records : o.cfunc ≠ .copy) (blocks : 0 < obs) (positive : 0 < o.cbsz)
    (input : max ibs o.cbsz + o.cbsz < 4294967296) (output : obs + o.cbsz < 4294967296)
    (old : Nat → Nat → Byte) (writes : List Nat) :
    Ready o ibs obs (setup o ibs obs old writes) := by
  have outBuffer : o.outBuffer = 1 := by
    unfold Operands.outBuffer
    cases cfunc : o.cfunc with
    | copy => exact absurd cfunc records
    | block => rfl
    | unblock => rfl
  have sizes : bufferSize o ibs obs 0 = max ibs o.cbsz + o.cbsz ∧
      bufferSize o ibs obs 1 = obs + o.cbsz := by
    unfold bufferSize
    cases cfunc : o.cfunc with
    | copy => exact absurd cfunc records
    | block => exact ⟨Nat.mod_eq_of_lt input, Nat.mod_eq_of_lt output⟩
    | unblock => exact ⟨Nat.mod_eq_of_lt input, Nat.mod_eq_of_lt output⟩
  refine ⟨⟨?_, ?_, rfl, rfl, rfl, blocks⟩, rfl, positive⟩
  · show ((List.range (bufferSize o ibs obs 0)).map (old 0)).length = _
    rw [List.length_map, List.length_range, sizes.1]
  · show ((List.range (bufferSize o ibs obs o.outBuffer)).map (old o.outBuffer)).length = _
    rw [List.length_map, List.length_range, outBuffer, sizes.2]

/-- Where the sums are unsigned ints no access is outside. -/
theorem dd_inside (records : o.cfunc ≠ .copy) (blocks : 0 < obs) (positive : 0 < o.cbsz)
    (input : max ibs o.cbsz + o.cbsz < 4294967296) (output : obs + o.cbsz < 4294967296)
    (old : Nat → Nat → Byte) (writes : List Nat) {chunks : List (List Byte)}
    (reads : ∀ chunk ∈ chunks, chunk.length ≤ ibs) :
    dd o ibs obs old writes chunks ≠ .error .overrun := by
  have start := setup_ready records blocks positive input output old writes
  have run : Ends (fun _ => True) (· = .seek) (dd o ibs obs old writes chunks) :=
    (ddIn_ready records positive chunks start reads).bind fun s ready =>
      ddClose_inside records blocks ready
  exact run.ne_error nofun

end

/-! ## A record that grows too long -/

/-- A run without operands but `conv` and the sizes. -/
def plain (cfunc : Cfunc) (cbs : Nat) : Operands := ⟨cfunc, false, false, false, none, cbs⟩

/-- `k` characters of one record have been read, and nothing has been sent. -/
structure Growing (input output k : Nat) (s : State) : Prop where
  inp : s.inp.db = 0 ∧ s.inp.dbp = k ∧ s.inp.dbcnt = k
  known : List.replicate k (byte 'a') <+: s.mem 0
  out : s.out.db = 1 ∧ s.out.dbp = 0
  size : (s.mem 0).length = input ∧ (s.mem 1).length = output
  counting : s.intrunc = false

section

variable {input output k cbs : Nat} {s : State}

theorem Growing.text (growing : Growing input output k s) :
    slice (s.mem s.inp.db) 0 k = List.replicate k (byte 'a') := by
  have known : List.replicate k (byte 'a') <+: s.mem s.inp.db := growing.inp.1 ▸ growing.known
  have front := slice_front known
  rwa [List.length_replicate] at front

theorem Growing.moves (growing : Growing input output k s) :
    ∃ mem, Dd.moveInput s = .ok { s with mem := mem } ∧
      Growing input output k { s with mem := mem, inp := { s.inp with dbp := k } } := by
  obtain ⟨db, place, count⟩ := growing.inp
  have room : (List.replicate k (byte 'a')).length ≤ (s.mem s.inp.db).length := by
    rw [db]
    exact growing.known.length_le
  obtain ⟨buf, stored, front, length⟩ := store_front room
  obtain ⟨s', run, changed, result⟩ := store_stored stored
  obtain ⟨mem, rfl⟩ : ∃ mem, s' = { s with mem := mem } := ⟨_, changed.rest⟩
  refine ⟨mem, ?_, ⟨db, rfl, count⟩, ?_, growing.out, ⟨?_, ?_⟩, growing.counting⟩
  · rw [Dd.moveInput, place, count, Nat.sub_self, growing.text]
    exact run
  · show _ <+: mem 0
    rw [← db, show mem s.inp.db = buf from result]
    exact front
  · exact (changed.size 0).trans growing.size.1
  · exact (changed.size 1).trans growing.size.2

/-- `block` keeps a record that is not complete and has no room for one that is. -/
theorem Growing.blocks (growing : Growing input output k s) (some_ : 0 < k)
    (whole : k < cbs ∨ k = cbs ∧ output < cbs) :
    Dd.block (plain .block cbs) s = .error .overrun ∨
      k < cbs ∧ ∃ s', Dd.block (plain .block cbs) s = .ok s' ∧ Growing input output k s' := by
  obtain ⟨db, place, count⟩ := growing.inp
  have most : min cbs k = k := by omega
  have clean : (List.replicate k (byte 'a')).takeWhile (· ≠ nl) = List.replicate k (byte 'a') :=
    List.takeWhile_eq_self_iff.mpr fun b inside => by
      rw [List.eq_of_mem_replicate inside]
      decide
  have text : nextRecord (plain .block cbs) 0 s = List.replicate k (byte 'a') := by
    rw [nextRecord, count]
    show (slice _ 0 (min cbs k)).takeWhile _ = _
    rw [most, growing.text, clean]
  have start : Dd.block (plain .block cbs) s = Dd.blockInput (plain .block cbs) s := by
    rw [Dd.block, growing.counting]
    rfl
  obtain ⟨k, rfl⟩ : ∃ k', k = k' + 1 := ⟨k - 1, by omega⟩
  rw [start, Dd.blockInput, place, count, Nat.sub_self]
  have nothing : ([] : List Byte) <+: s.mem s.out.db := List.nil_prefix
  rcases store_behind nothing growing.out.2
    ((List.replicate (k + 1) (byte 'a')).map (plain .block cbs).translate) with
    ⟨fits, mem, run, -, size, others⟩ | ⟨-, run⟩
  · rw [List.length_nil, List.length_map, List.length_replicate, Nat.zero_add, growing.out.1,
      growing.size.2] at fits
    have short : k + 1 < cbs := by omega
    have mem0 : mem 0 = s.mem 0 := others 0 (by rw [growing.out.1]; decide)
    have known : List.replicate (k + 1) (byte 'a') <+: mem 0 := mem0.symm ▸ growing.known
    have growing1 : Growing input output (k + 1) { s with mem := mem } :=
      ⟨growing.inp, known, growing.out,
        ⟨(size 0).trans growing.size.1, (size 1).trans growing.size.2⟩, growing.counting⟩
    obtain ⟨mem', moved, growing2⟩ := growing1.moves
    have loop : Dd.blockRecords (plain .block cbs) (k + 1) 0 s = .ok { s with mem := mem' } := by
      rw [Dd.blockRecords, if_neg (by omega), text]
      show (s.store s.out.db s.out.dbp _ >>= _) = _
      rw [run]
      refine Eq.trans (if_pos ⟨?_, ?_⟩) moved
      · show ¬ (List.replicate (k + 1) (byte 'a')).length < min cbs s.inp.dbcnt
        rw [List.length_replicate, count, most]
        exact Nat.lt_irrefl _
      · show s.inp.dbcnt < cbs
        rw [count]
        exact short
    rw [loop]
    refine .inr ⟨short, _, rfl, ?_⟩
    have same : { s with mem := mem', inp := { s.inp with dbp := s.inp.dbcnt } } =
      { s with mem := mem', inp := { s.inp with dbp := k + 1 } } := by rw [count]
    exact same ▸ growing2
  · have loop : Dd.blockRecords (plain .block cbs) (k + 1) 0 s = .error .overrun := by
      rw [Dd.blockRecords, if_neg (by omega), text]
      show (s.store s.out.db s.out.dbp _ >>= _) = _
      rw [run]
      rfl
    rw [loop]
    exact .inl rfl

/-- `unblock` keeps a record that is not complete and has no room for the line of one that is. -/
theorem Growing.unblocks (growing : Growing input output k s) (some_ : 0 < k)
    (whole : k < cbs ∨ k = cbs ∧ output < cbs) :
    Dd.unblock (plain .unblock cbs) s = .error .overrun ∨
      k < cbs ∧ ∃ s', Dd.unblock (plain .unblock cbs) s = .ok s' ∧ Growing input output k s' := by
  obtain ⟨db, place, count⟩ := growing.inp
  have start : Dd.unblock (plain .unblock cbs) s =
      Dd.unblockRecords (plain .unblock cbs) s.inp.dbcnt 0 s >>= fun s' =>
        Dd.keepRecord s' >>= fun s'' => .ok { s'' with inp := { s''.inp with dbp := s''.inp.dbcnt } } :=
    rfl
  obtain ⟨k, rfl⟩ : ∃ k', k = k' + 1 := ⟨k - 1, by omega⟩
  rw [start, count, Dd.unblockRecords, count]
  rcases whole with short | ⟨same, narrow⟩
  · obtain ⟨mem, moved, growing'⟩ := growing.moves
    have kept : Dd.keepRecord s = .ok { s with mem := mem } := (if_pos (by omega)).trans moved
    rw [if_pos (show k + 1 < (plain .unblock cbs).cbsz from short)]
    show _ ∨ k + 1 < cbs ∧ ∃ s', (Dd.keepRecord s >>= _) = _ ∧ _
    rw [kept]
    refine .inr ⟨short, _, rfl, ?_⟩
    have same : { s with mem := mem, inp := { s.inp with dbp := s.inp.dbcnt } } =
      { s with mem := mem, inp := { s.inp with dbp := k + 1 } } := by rw [count]
    exact same ▸ growing'
  · have bare : stripBlanks (List.replicate (k + 1) (byte 'a')) = List.replicate (k + 1) (byte 'a') := by
      rw [List.replicate_succ', stripBlanks, List.rdropWhile_concat_neg]
      decide
    have nothing : ([] : List Byte) <+: s.mem s.out.db := List.nil_prefix
    have long : s.store s.out.db s.out.dbp (List.replicate (k + 1) (byte 'a') ++ [nl]) =
        .error .overrun := by
      rcases store_behind nothing growing.out.2 (List.replicate (k + 1) (byte 'a') ++ [nl]) with
        ⟨fits, -⟩ | ⟨-, run⟩
      · rw [List.length_nil, List.length_append, List.length_replicate, List.length_singleton,
          growing.out.1, growing.size.2] at fits
        omega
      · exact run
    rw [if_neg (show ¬ k + 1 < (plain .unblock cbs).cbsz from not_lt.mpr same.ge)]
    show (((emitLine (slice (s.mem s.inp.db) 0 cbs) s >>= _) >>= _) = _) ∨ _
    rw [← same, growing.text]
    have line : emitLine (List.replicate (k + 1) (byte 'a')) s = .error .overrun := by
      rw [emitLine, bare]
      simp only [long]
      rfl
    rw [line]
    exact .inl rfl

theorem Growing.reads {cfunc : Cfunc} (records : cfunc ≠ .copy)
    (growing : Growing input output k s)
    (whole : k + 1 < cbs ∨ k + 1 = cbs ∧ (input < cbs ∨ output < cbs)) :
    Dd.readBlock (plain cfunc cbs) [byte 'a'] s = .error .overrun ∨
      k + 1 < cbs ∧ ∃ s', Dd.readBlock (plain cfunc cbs) [byte 'a'] s = .ok s' ∧
        Growing input output (k + 1) s' := by
  obtain ⟨db, place, count⟩ := growing.inp
  have known : List.replicate k (byte 'a') <+: s.mem s.inp.db := db.symm ▸ growing.known
  rcases readBlock_receives (o := plain cfunc cbs) rfl known
    (place.trans (List.length_replicate).symm) [byte 'a'] with
    ⟨fits, mem, run, front, size, -⟩ | ⟨-, run⟩
  · rw [List.length_replicate, db, growing.size.1] at fits
    have whole' : k + 1 < cbs ∨ k + 1 = cbs ∧ output < cbs := by
      rw [List.length_singleton] at fits
      omega
    have next : Growing input output (k + 1) (s.received mem 1) := by
      refine ⟨⟨db, congrArg (· + 1) place, congrArg (· + 1) count⟩, ?_, growing.out,
        ⟨(size 0).trans growing.size.1, (size 1).trans growing.size.2⟩, growing.counting⟩
      rw [List.replicate_succ']
      exact db ▸ front
    rw [run]
    cases cfunc with
    | copy => exact absurd rfl records
    | block => exact next.blocks (Nat.succ_pos k) whole'
    | unblock => exact next.unblocks (Nat.succ_pos k) whole'
  · exact .inl run

/-- A record that comes in single characters leaves a buffer that is smaller than it. -/
theorem Growing.overruns {cfunc : Cfunc} (records : cfunc ≠ .copy)
    (narrow : input < cbs ∨ output < cbs) (n : Nat) :
    ∀ {k : Nat} {s : State}, Growing input output k s → k + n = cbs → 0 < n →
      Dd.ddIn (plain cfunc cbs) (List.replicate n [byte 'a']) s = .error .overrun := by
  induction n with
  | zero => exact fun _ _ some_ => absurd some_ (Nat.lt_irrefl 0)
  | succ n ih =>
      intro k s growing total _
      rw [List.replicate_succ, Dd.ddIn]
      rcases growing.reads records (show k + 1 < cbs ∨ _ by omega) with stop | ⟨short, s', run, more⟩
      · rw [stop]
        rfl
      · rw [run]
        exact ih more (by omega) (by omega)

end

theorem setup_growing {cfunc : Cfunc} (records : cfunc ≠ .copy) (cbs ibs obs : Nat)
    (old : Nat → Nat → Byte) (writes : List Nat) :
    Growing (uInt (max ibs cbs + cbs)) (uInt (obs + cbs)) 0
      (setup (plain cfunc cbs) ibs obs old writes) := by
  have size (db : Nat) : ((setup (plain cfunc cbs) ibs obs old writes).mem db).length =
      bufferSize (plain cfunc cbs) ibs obs db := by
    show ((List.range _).map (old db)).length = _
    rw [List.length_map, List.length_range]
  refine ⟨⟨rfl, rfl, rfl⟩, List.nil_prefix, ⟨?_, rfl⟩, ⟨?_, ?_⟩, rfl⟩
  · cases cfunc with
    | copy => exact absurd rfl records
    | block => rfl
    | unblock => rfl
  · rw [size]
    cases cfunc with
    | copy => exact absurd rfl records
    | block => rfl
    | unblock => rfl
  · rw [size]
    cases cfunc with
    | copy => exact absurd rfl records
    | block => rfl
    | unblock => rfl

/-- The sum of a size and the size of a record is less than the record if it wraps. -/
theorem uInt_wraps {n cbs : Nat} (small : n < 4294967296) (most : cbs < 4294967296)
    (wraps : ¬ n + cbs < 4294967296) : uInt (n + cbs) < cbs := by
  unfold uInt
  omega

/-- All accesses stay inside the buffers exactly where the sums of the sizes are those of an
unsigned int. -/
theorem dd_inside_iff {cfunc : Cfunc} {ibs obs cbs : Nat} (records : cfunc ≠ .copy)
    (reads : 0 < ibs ∧ ibs < 4294967296) (blocks : 0 < obs ∧ obs < 4294967296)
    (positive : 0 < cbs ∧ cbs < 4294967296) :
    (∀ o : Operands, o.cfunc = cfunc → o.cbsz = cbs → ∀ old writes (chunks : List (List Byte)),
        (∀ chunk ∈ chunks, 0 < chunk.length ∧ chunk.length ≤ ibs) →
          dd o ibs obs old writes chunks ≠ .error .overrun) ↔
      max ibs cbs + cbs < 4294967296 ∧ obs + cbs < 4294967296 := by
  refine ⟨fun inside => ?_, fun small => ?_⟩
  · by_contra wraps
    have narrow : uInt (max ibs cbs + cbs) < cbs ∨ uInt (obs + cbs) < cbs := by
      rcases not_and_or.mp wraps with input | output
      · exact .inl (uInt_wraps (max_lt reads.2 positive.2) positive.2 input)
      · exact .inr (uInt_wraps blocks.2 positive.2 output)
    refine inside (plain cfunc cbs) rfl rfl (fun _ _ => 0) [] (List.replicate cbs [byte 'a']) ?_ ?_
    · intro chunk here
      rw [List.eq_of_mem_replicate here]
      exact ⟨Nat.one_pos, reads.1⟩
    · have run := (setup_growing records cbs ibs obs (fun _ _ => 0) []).overruns records narrow cbs
        (Nat.zero_add cbs) positive.1
      rcases dd_stopped (plain cfunc cbs) ibs obs (fun _ _ => 0) [] (List.replicate cbs [byte 'a'])
        with stop | same
      · exact stop
      · rw [same, Dd.dd, run]
        rfl
  · rintro o rfl rfl old writes chunks few
    exact dd_inside records blocks.1 positive.1 small.1 small.2 old writes
      fun chunk here => (few chunk here).2

/-- Records of a line of a terminal. -/
theorem dd_inside_lines :
    (∀ o : Operands, o.cfunc = .block → o.cbsz = 80 → ∀ old writes (chunks : List (List Byte)),
        (∀ chunk ∈ chunks, 0 < chunk.length ∧ chunk.length ≤ 512) →
          dd o 512 512 old writes chunks ≠ .error .overrun) ↔
      max 512 80 + 80 < 4294967296 ∧ 512 + 80 < 4294967296 :=
  dd_inside_iff (by decide) (by decide) (by decide) (by decide)

theorem readBlock_full {o : Operands} {s : State} {chunk : List Byte} (noSync : o.sync = false)
    (full : s.store s.inp.db s.inp.dbp chunk = .error .overrun) :
    readBlock o chunk s = .error .overrun := by
  have cleared : clearInput o s = .ok s := by
    rw [clearInput, noSync]
    rfl
  simp only [readBlock, cleared, full, bind, Except.bind]

/-- With records of 2^31 bytes the input buffer has no room for one byte. -/
theorem dd_outside :
    dd (plain .block 2147483648) 512 512 (fun _ _ => 0) [] [[byte 'a']] = .error .overrun := by
  have full : (setup (plain .block 2147483648) 512 512 (fun _ _ => 0) []).store 0 0 [byte 'a'] =
      .error .overrun := by
    have size : bufferSize (plain .block 2147483648) 512 512 0 = 0 := by decide +kernel
    have none_ : (setup (plain .block 2147483648) 512 512 (fun _ _ => 0) []).mem 0 = [] := by
      show (List.range (bufferSize _ _ _ 0)).map _ = []
      rw [size]
      rfl
    rw [State.store, none_]
    rfl
  rw [dd, ddIn, readBlock_full rfl full]
  rfl

end Netbase.Dd.Guarded
