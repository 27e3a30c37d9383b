import Netbase.Dd.Convert

/-!
# What the output blocks amount to

A hole that is pending and a gap behind the end of the file are zeros that have not been
written yet.  Together with them, writing blocks appends their bytes to the file, however
the writes are cut, and what is left of the output buffer is moved to its front.
-/

namespace Netbase.Dd

open Netbase.Text Netbase.Lib

/-! ## The file with its holes -/

/-- The file as it will read up to its place. -/
def State.reached (s : State) : List Byte :=
  s.file ++ List.replicate (s.pos - s.file.length) 0

/-- The file as it will read past the pending hole. -/
def State.contents (s : State) : List Byte :=
  s.reached ++ List.replicate s.pending.toNat 0

/-- A seek goes forward, past zeros. -/
def Skips (bytes : List Byte) (jump : Nat × Int) : Prop :=
  0 ≤ jump.2 ∧ ∃ before after,
    bytes = before ++ List.replicate jump.2.toNat 0 ++ after ∧ before.length = jump.1

theorem Skips.append {bytes : List Byte} {jump : Nat × Int} (skips : Skips bytes jump)
    (more : List Byte) : Skips (bytes ++ more) jump := by
  obtain ⟨forward, before, after, rfl, place⟩ := skips
  exact ⟨forward, before, after ++ more, by simp only [List.append_assoc], place⟩

/-- Nothing stands behind the place of the file, a hole lies ahead, and all seeks have
gone past zeros. -/
structure Tidy (s : State) : Prop where
  place : s.file.length ≤ s.pos
  ahead : 0 ≤ s.pending
  skips : ∀ jump ∈ s.seeks, Skips s.reached jump

/-- There is no hole. -/
structure Flat (s : State) : Prop where
  place : s.pos = s.file.length
  closed : s.pending = 0

variable {s : State}

theorem Flat.contents (flat : Flat s) : s.contents = s.file := by
  simp [State.contents, State.reached, flat.place, flat.closed]

theorem contents_closed (closed : s.pending = 0) : s.contents = s.reached := by
  simp [State.contents, closed]

/-- Only the output file and what is known about it have changed. -/
structure SameBuffers (s s' : State) : Prop where
  mem : s'.mem = s.mem
  inp : s'.inp = s.inp
  out : s'.out = s.out
  intrunc : s'.intrunc = s.intrunc

theorem SameBuffers.refl (s : State) : SameBuffers s s := ⟨rfl, rfl, rfl, rfl⟩

theorem SameBuffers.trans {s' s'' : State} (first : SameBuffers s s') (second : SameBuffers s' s'') :
    SameBuffers s s'' :=
  ⟨second.mem.trans first.mem, second.inp.trans first.inp, second.out.trans first.out,
    second.intrunc.trans first.intrunc⟩

theorem write_appends (tidy : Tidy s) (closed : s.pending = 0) (bytes : List Byte) :
    SameBuffers s (s.write bytes) ∧ Tidy (s.write bytes) ∧ (s.write bytes).pending = 0 ∧
      (s.write bytes).contents = s.contents ++ bytes ∧ (bytes ≠ [] → Flat (s.write bytes)) := by
  by_cases empty : bytes = []
  · rw [State.write, if_pos empty]
    exact ⟨.refl s, tidy, closed, by simp [empty], fun some => absurd empty some⟩
  · have front : s.file.take s.pos = s.file := List.take_of_length_le tidy.place
    have back : s.file.drop (s.pos + bytes.length) = [] :=
      List.drop_of_length_le (le_trans tidy.place (Nat.le_add_right _ _))
    have written : s.write bytes =
        { s with
          file := s.file ++ List.replicate (s.pos - s.file.length) 0 ++ bytes
          pos := s.pos + bytes.length } := by
      rw [State.write, if_neg empty, front, back, List.append_nil]
    have length : s.pos + bytes.length =
        (s.file ++ List.replicate (s.pos - s.file.length) 0 ++ bytes).length := by
      have place := tidy.place
      simp only [List.length_append, List.length_replicate]
      omega
    have reached : (s.write bytes).reached = s.reached ++ bytes := by
      rw [written]
      simp only [State.reached, ← length, Nat.sub_self, List.replicate_zero, List.append_nil]
    have closed' : (s.write bytes).pending = 0 := by
      rw [written]
      exact closed
    have contents : (s.write bytes).contents = s.contents ++ bytes := by
      rw [contents_closed closed, contents_closed closed', reached]
    refine ⟨?_, ⟨?_, ?_, ?_⟩, closed', contents, fun _ => ⟨?_, closed'⟩⟩
    · rw [written]
      exact ⟨rfl, rfl, rfl, rfl⟩
    · rw [written]
      exact le_of_eq length.symm
    · rw [written]
      exact tidy.ahead
    · rw [reached]
      intro jump membership
      have old : jump ∈ s.seeks := by rwa [written] at membership
      exact (tidy.skips jump old).append bytes
    · rw [written]
      exact length

theorem write_closeHole (s : State) (bytes : List Byte) :
    (s.write bytes).closeHole = s.closeHole.write bytes := by
  unfold State.write
  split <;> rfl

theorem closeHole_same (s : State) : SameBuffers s s.closeHole := ⟨rfl, rfl, rfl, rfl⟩

theorem setWrites_same (s : State) (writes : List Nat) : SameBuffers s (s.setWrites writes) :=
  ⟨rfl, rfl, rfl, rfl⟩

theorem setWrites_contents (s : State) (writes : List Nat) :
    (s.setWrites writes).contents = s.contents := rfl

theorem Tidy.setWrites (tidy : Tidy s) (writes : List Nat) : Tidy (s.setWrites writes) :=
  ⟨tidy.place, tidy.ahead, tidy.skips⟩

theorem Flat.setWrites (flat : Flat s) (writes : List Nat) : Flat (s.setWrites writes) :=
  ⟨flat.place, flat.closed⟩

theorem seek_pending (tidy : Tidy s) :
    ∃ s', s.seekPending = .ok s' ∧ SameBuffers s s' ∧ Tidy s'.closeHole ∧
      s'.closeHole.contents = s.contents := by
  by_cases closed : s.pending = 0
  · refine ⟨s, if_neg (not_not.mpr closed), .refl s,
      ⟨tidy.place, Int.le_refl 0, tidy.skips⟩, ?_⟩
    rw [contents_closed closed, contents_closed rfl]
    rfl
  · have ahead := tidy.ahead
    have place := tidy.place
    have inside : 0 ≤ (s.pos : Int) + s.pending := by omega
    have sought : s.seekBy s.pending = .ok
        { s with
          pos := ((s.pos : Int) + s.pending).toNat
          seeks := s.seeks ++ [(s.pos, s.pending)] } := by
      rw [State.seekBy, if_pos inside]
    have split : ((s.pos : Int) + s.pending).toNat - s.file.length =
        (s.pos - s.file.length) + s.pending.toNat := by omega
    have reached : State.reached
        { s with
          pos := ((s.pos : Int) + s.pending).toNat
          seeks := s.seeks ++ [(s.pos, s.pending)] } = s.contents := by
      simp only [State.contents, State.reached, split, ← List.replicate_append_replicate,
        List.append_assoc]
    refine ⟨_, (if_pos closed).trans sought, ⟨rfl, rfl, rfl, rfl⟩,
      ⟨?_, Int.le_refl 0, ?_⟩, (contents_closed rfl).trans reached⟩
    · show s.file.length ≤ ((s.pos : Int) + s.pending).toNat
      omega
    · intro jump membership
      show Skips (State.reached
        { s with
          pos := ((s.pos : Int) + s.pending).toNat
          seeks := s.seeks ++ [(s.pos, s.pending)] }) jump
      rw [reached]
      rcases List.mem_append.mp membership with old | new
      · exact (tidy.skips jump old).append _
      · rw [List.mem_singleton.mp new]
        refine ⟨ahead, s.reached, [], by rw [List.append_nil, State.contents], ?_⟩
        simp only [State.reached, List.length_append, List.length_replicate]
        omega

theorem allZero_replicate {bytes : List Byte} (zero : allZero bytes = true) :
    bytes = List.replicate bytes.length 0 := by
  refine List.eq_replicate_length.mpr fun b membership => ?_
  have each := List.all_eq_true.mp zero b membership
  simpa using each

theorem hole_appends (tidy : Tidy s) {bytes : List Byte} (zero : allZero bytes = true) {cnt : Nat}
    (length : bytes.length = cnt) :
    Tidy { s with pending := s.pending + cnt } ∧
      State.contents { s with pending := s.pending + cnt } = s.contents ++ bytes := by
  have ahead := tidy.ahead
  refine ⟨⟨tidy.place, by show 0 ≤ s.pending + cnt; omega, tidy.skips⟩, ?_⟩
  have total : (s.pending + cnt).toNat = s.pending.toNat + bytes.length := by omega
  simp only [State.contents, State.reached, total, ← List.replicate_append_replicate,
    ← List.append_assoc]
  rw [← allZero_replicate zero]

/-! ## Blocks -/

def cutBlock : List Nat → List Byte → Nat × List Nat
  | [], block => (if allZero block then block.length else 0, [])
  | w :: writes, block =>
      if allZero block then (block.length, w :: writes)
      else if min w block.length = block.length then (0, writes)
      else cutBlock writes (block.drop (min w block.length))

/-- The hole behind a block of a sparse file, and the writes that are still to come. -/
def holeStep (hole : Int × List Nat) (block : List Byte) : Int × List Nat :=
  if allZero block then (hole.1 + block.length, hole.2)
  else (((cutBlock hole.2 block).1 : Int), (cutBlock hole.2 block).2)

theorem holeStep_closed (writes : List Nat) (block : List Byte) :
    holeStep (0, writes) block =
      (((cutBlock writes block).1 : Int), (cutBlock writes block).2) := by
  unfold holeStep
  split
  · next zero => cases writes <;> simp [cutBlock, zero]
  · rfl

/-- What a block comes to: its bytes are appended; where no hole may be left there is
none, and in a sparse file the hole is known. -/
structure Appended (o : Operands) (force : Bool) (bytes : List Byte) (writes : List Nat)
    (s s' : State) : Prop where
  same : SameBuffers s s'
  tidy : Tidy s'
  contents : s'.contents = s.contents ++ bytes
  place : s.pos = s.file.length ∨ allZero bytes = false → s'.pos = s'.file.length
  flat : force = true ∨ o.sparse = false → Flat s'
  hole : force = false → o.sparse = true →
    (s'.pending, s'.writes) = holeStep (s.pending, writes) bytes

theorem hole_appended (o : Operands) {force : Bool} (tidy : Tidy s) {outp cnt : Nat}
    (inside : outp + cnt ≤ (s.mem s.out.db).length)
    (hole : (!force && o.sparse && allZero (slice (s.mem s.out.db) outp cnt)) = true)
    (writes : List Nat) :
    Appended o force (slice (s.mem s.out.db) outp cnt) writes s
      ({ s with pending := s.pending + cnt }.setWrites writes) := by
  simp only [Bool.and_eq_true, Bool.not_eq_true'] at hole
  obtain ⟨tidy1, contents1⟩ := hole_appends tidy hole.2 (slice_length inside)
  refine ⟨⟨rfl, rfl, rfl, rfl⟩, tidy1.setWrites writes, contents1, fun place => ?_, fun whole => ?_,
    fun _ _ => ?_⟩
  · rcases place with place | some
    · exact place
    · rw [hole.2] at some
      cases some
  · simp [hole.1] at whole
  · simp [holeStep, hole.2, slice_length inside, State.setWrites]

theorem writeBlock_appends (o : Operands) (force : Bool) (writes : List Nat) :
    ∀ {outp cnt : Nat} {s : State}, Tidy s → outp + cnt ≤ (s.mem s.out.db).length → 0 < cnt →
      ∃ s', writeBlock o force writes outp cnt s = .ok s' ∧
        Appended o force (slice (s.mem s.out.db) outp cnt) writes s s' := by
  induction writes with
  | nil =>
      intro outp cnt s tidy inside positive
      rw [writeBlock]
      by_cases hole : (!force && o.sparse && allZero (slice (s.mem s.out.db) outp cnt)) = true
      · rw [if_pos hole]
        exact ⟨_, rfl, hole_appended o tidy inside hole []⟩
      · rw [if_neg hole]
        obtain ⟨s1, seek, same, tidy1, contents1⟩ := seek_pending tidy
        obtain ⟨same2, tidy2, closed2, contents2, flat⟩ := write_appends tidy1 rfl
          (slice (s.mem s.out.db) outp cnt)
        have flat2 := flat (slice_ne_nil inside positive)
        simp only [seek, bind, Except.bind, same.mem, same.out, write_closeHole]
        refine ⟨_, rfl, ?_, tidy2.setWrites [], ?_, fun _ => flat2.place,
          fun _ => flat2.setWrites [], fun free sparse => ?_⟩
        · exact ((same.trans (closeHole_same s1)).trans same2).trans (setWrites_same _ [])
        · rw [setWrites_contents, contents2, contents1]
        · simp only [free, sparse, Bool.not_false, Bool.true_and, Bool.not_eq_true] at hole
          simp [State.setWrites, closed2, holeStep, cutBlock, hole]
  | cons w writes ih =>
      intro outp cnt s tidy inside positive
      rw [writeBlock]
      by_cases hole : (!force && o.sparse && allZero (slice (s.mem s.out.db) outp cnt)) = true
      · rw [if_pos hole]
        exact ⟨_, rfl, hole_appended o tidy inside hole (w :: writes)⟩
      · rw [if_neg hole]
        obtain ⟨s1, seek, same, tidy1, contents1⟩ := seek_pending tidy
        obtain ⟨same2, tidy2, closed2, contents2, flat⟩ := write_appends tidy1 rfl
          (slice (s.mem s.out.db) outp (min w cnt))
        have kept := (same.trans (closeHole_same s1)).trans same2
        simp only [seek, bind, Except.bind, same.mem, same.out, write_closeHole]
        generalize State.write s1.closeHole (slice (s.mem s.out.db) outp (min w cnt)) = s2
          at same2 tidy2 closed2 contents2 flat kept
        have length := slice_length inside
        by_cases all : min w cnt = cnt
        · have some := slice_ne_nil (p := outp) (n := min w cnt) (by rw [all]; exact inside)
            (by omega)
          rw [if_pos all]
          refine ⟨_, rfl, kept.trans (setWrites_same _ writes), tidy2.setWrites writes, ?_,
            fun _ => (flat some).place, fun _ => (flat some).setWrites writes,
            fun free sparse => ?_⟩
          · rw [setWrites_contents, contents2, contents1, all]
          · simp only [free, sparse, Bool.not_false, Bool.true_and, Bool.not_eq_true] at hole
            simp [State.setWrites, closed2, holeStep, cutBlock, hole, length, all]
        · rw [if_neg all]
          have part : min w cnt ≤ cnt := min_le_right w cnt
          have within : outp + min w cnt + (cnt - min w cnt) ≤ (s2.mem s2.out.db).length := by
            rw [kept.mem, kept.out]
            omega
          obtain ⟨s', run, done⟩ := ih tidy2 within (by omega)
          have joined := @slice_split _ (s.mem s.out.db) outp _ _ part
          refine ⟨s', run, kept.trans done.same, done.tidy, ?_, ?_, done.flat,
            fun free sparse => ?_⟩
          · rw [done.contents, contents2, contents1, kept.mem, kept.out, List.append_assoc,
              joined]
          · intro some
            by_cases whole : force = true ∨ o.sparse = false
            · exact (done.flat whole).place
            · simp only [not_or, Bool.not_eq_true, Bool.not_eq_false] at whole
              by_cases none : min w cnt = 0
              · refine done.place (Or.inr ?_)
                simpa [kept.mem, kept.out, none, whole.1, whole.2] using hole
              · refine done.place (Or.inl (flat (slice_ne_nil ?_ ?_)).place)
                · omega
                · omega
          · have rest : (slice (s.mem s.out.db) outp cnt).drop (min w cnt) =
                slice (s.mem s.out.db) (outp + min w cnt) (cnt - min w cnt) := by
              simp only [slice, List.drop_take, List.drop_drop]
            rw [done.hole free sparse, closed2, holeStep_closed, kept.mem, kept.out]
            simp only [free, sparse, Bool.not_false, Bool.true_and, Bool.not_eq_true] at hole
            simp [holeStep, cutBlock, hole, length, all, rest]

/-- What writing full blocks comes to when `left` bytes are not written. -/
structure Drained (o : Operands) (blocks : List (List Byte)) (left : Nat) (s s' : State) :
    Prop where
  mem : s'.mem = s.mem
  inp : s'.inp = s.inp
  intrunc : s'.intrunc = s.intrunc
  out : s'.out = { s.out with dbcnt := left }
  tidy : Tidy s'
  contents : s'.contents = s.contents ++ blocks.flatten
  place : s.pos = s.file.length → s'.pos = s'.file.length
  flat : o.sparse = false → Flat s'
  hole : o.sparse = true → (s'.pending, s'.writes) = blocks.foldl holeStep (s.pending, s.writes)

theorem Drained.trans {o : Operands} {blocks blocks' : List (List Byte)} {left left' : Nat}
    {s' s'' : State} (first : Drained o blocks left s s') (second : Drained o blocks' left' s' s'') :
    Drained o (blocks ++ blocks') left' s s'' := by
  refine ⟨second.mem.trans first.mem, second.inp.trans first.inp,
    second.intrunc.trans first.intrunc, ?_, second.tidy, ?_,
    fun place => second.place (first.place place), second.flat, fun sparse => ?_⟩
  · rw [second.out, first.out]
  · rw [second.contents, first.contents, List.flatten_append, List.append_assoc]
  · rw [second.hole sparse, List.foldl_append, ← first.hole sparse]

theorem writeBlocks_step (o : Operands) {block tail : List Byte} {outp : Nat} (fuel : Nat)
    (tidy : Tidy s) (positive : 0 < s.out.dbsz)
    (held : slice (s.mem s.out.db) outp s.out.dbcnt = block ++ tail)
    (inside : outp + s.out.dbcnt ≤ (s.mem s.out.db).length) (full : block.length = s.out.dbsz) :
    ∃ s', Drained o [block] tail.length s s' ∧
      writeBlocks o false (fuel + 1) s.out.dbsz outp s =
        if tail.length < s.out.dbsz then .ok s'
        else writeBlocks o false fuel s.out.dbsz (outp + s.out.dbsz) s' := by
  have count : s.out.dbcnt = block.length + tail.length := by
    rw [← slice_length inside, held, List.length_append]
  have front : slice (s.mem s.out.db) outp s.out.dbsz = block := by
    have cut := congrArg (List.take block.length) held
    rw [List.take_left, slice, List.take_take, min_eq_left (by omega)] at cut
    rw [slice, ← full, cut]
  obtain ⟨s1, run, done⟩ := writeBlock_appends o false s.writes tidy (show outp + s.out.dbsz ≤ _ by omega)
    positive
  rw [front] at done
  have left : s.out.dbcnt - s.out.dbsz = tail.length := by omega
  refine ⟨{ s1 with out := { s1.out with dbcnt := s1.out.dbcnt - s.out.dbsz } },
    ⟨done.same.mem, done.same.inp, done.same.intrunc, ?_, ⟨done.tidy.place, done.tidy.ahead,
      done.tidy.skips⟩, ?_, fun place => done.place (Or.inl place), fun whole => ?_,
      done.hole rfl⟩, ?_⟩
  · simp only [done.same.out, left]
  · rw [List.flatten_singleton]
    exact done.contents
  · exact ⟨(done.flat (Or.inr whole)).place, (done.flat (Or.inr whole)).closed⟩
  · rw [writeBlocks, run]
    simp only [bind, Except.bind, done.same.out, left]

theorem writeBlocks_drains (o : Operands) {rest : List Byte} (more : List (List Byte)) :
    ∀ {block : List Byte} {fuel outp : Nat} {s : State}, Tidy s → 0 < s.out.dbsz →
      slice (s.mem s.out.db) outp s.out.dbcnt = (block :: more).flatten ++ rest →
      outp + s.out.dbcnt ≤ (s.mem s.out.db).length →
      (∀ b ∈ block :: more, b.length = s.out.dbsz) → rest.length < s.out.dbsz →
      ∃ s', writeBlocks o false (fuel + more.length + 1) s.out.dbsz outp s = .ok s' ∧
        Drained o (block :: more) rest.length s s' := by
  induction more with
  | nil =>
      intro block fuel outp s tidy positive held inside full short
      have split : slice (s.mem s.out.db) outp s.out.dbcnt = block ++ rest := by simpa using held
      obtain ⟨s1, drained, step⟩ :=
        writeBlocks_step o fuel tidy positive split inside (full block (List.mem_cons_self ..))
      exact ⟨s1, by rw [List.length_nil, Nat.add_zero, step, if_pos short], drained⟩
  | cons next more ih =>
      intro block fuel outp s tidy positive held inside full short
      have size := full next (List.mem_cons_of_mem _ (List.mem_cons_self ..))
      have first := full block (List.mem_cons_self ..)
      have split : slice (s.mem s.out.db) outp s.out.dbcnt =
          block ++ ((next :: more).flatten ++ rest) := by
        rw [held, List.flatten_cons, List.append_assoc]
      obtain ⟨s1, drained, step⟩ := writeBlocks_step o (fuel + (next :: more).length) tidy
        positive split inside first
      have count : s.out.dbcnt = block.length + ((next :: more).flatten ++ rest).length := by
        rw [← slice_length inside, split, List.length_append]
      have long : ¬ ((next :: more).flatten ++ rest).length < s.out.dbsz := by
        simp only [List.flatten_cons, List.length_append]
        omega
      have size1 : s1.out.dbsz = s.out.dbsz := by rw [drained.out]
      have db1 : s1.out.db = s.out.db := by rw [drained.out]
      have count1 : s1.out.dbcnt = ((next :: more).flatten ++ rest).length := by rw [drained.out]
      have behind : slice (s1.mem s1.out.db) (outp + s.out.dbsz) s1.out.dbcnt =
          (next :: more).flatten ++ rest := by
        rw [drained.mem, db1, count1, ← first]
        have cut := congrArg (List.drop block.length) split
        rw [List.drop_left, slice, List.drop_take, List.drop_drop, count,
          Nat.add_sub_cancel_left] at cut
        rw [slice, cut]
      have inside1 : outp + s.out.dbsz + s1.out.dbcnt ≤ (s1.mem s1.out.db).length := by
        rw [drained.mem, db1, count1]
        omega
      obtain ⟨s2, run, drained2⟩ := @ih next fuel (outp + s.out.dbsz) s1 drained.tidy
        (by omega) behind inside1
        (fun b later => size1 ▸ full b (List.mem_cons_of_mem _ later)) (by omega)
      refine ⟨s2, ?_, drained.trans drained2⟩
      rw [step, if_neg long, ← run, size1]
      rfl

/-- Only the contents of one buffer have changed. -/
structure Stored (db : Nat) (s s' : State) : Prop where
  rest : s' = { s with mem := s'.mem }
  size : ∀ b, (s'.mem b).length = (s.mem b).length
  others : ∀ b, b ≠ db → s'.mem b = s.mem b

theorem store_stored {s : State} {db p : Nat} {bytes buf : List Byte}
    (stored : Lib.store (s.mem db) p bytes = some buf) :
    ∃ s', s.store db p bytes = .ok s' ∧ Stored db s s' ∧ s'.mem db = buf := by
  refine ⟨{ s with mem := fun b => if b = db then buf else s.mem b }, ?_, ⟨rfl, ?_, ?_⟩, ?_⟩
  · rw [State.store, stored]
  · intro b
    by_cases same : b = db
    · simp only [same, if_true]
      exact store_length stored
    · simp only [if_neg same]
  · intro b other
    simp only [if_neg other]
  · simp only [if_true]

theorem Stored.refl (db : Nat) (s : State) : Stored db s s :=
  ⟨rfl, fun _ => rfl, fun _ _ => rfl⟩

theorem reassemble_front {front rest : List Byte} (known : front ++ rest <+: s.mem s.out.db)
    (count : s.out.dbcnt = rest.length) (at_end : s.out.dbp = (front ++ rest).length) :
    ∃ s', reassemble s = .ok s' ∧ Stored s.out.db s s' ∧ rest <+: s'.mem s.out.db := by
  unfold reassemble
  by_cases none : s.out.dbcnt = 0
  · rw [if_neg (not_not.mpr none)]
    have empty : rest = [] := List.eq_nil_of_length_eq_zero (by omega)
    exact ⟨s, rfl, .refl _ s, by rw [empty]; exact List.nil_prefix⟩
  · rw [if_pos none]
    have back : slice (s.mem s.out.db) (s.out.dbp - s.out.dbcnt) s.out.dbcnt = rest := by
      rw [at_end, count, List.length_append, Nat.add_sub_cancel, slice_back known]
    have fits := known.length_le
    rw [List.length_append] at fits
    have room : rest.length ≤ (s.mem s.out.db).length := by omega
    obtain ⟨buf, stored, front, _⟩ := store_front room
    obtain ⟨s', run, changed, result⟩ := store_stored stored
    exact ⟨s', back ▸ run, changed, result ▸ front⟩

/-- What a flush comes to when the buffer holds `held`: the full blocks are appended to the
file, and the rest stays at the front. -/
structure Flushed (o : Operands) (held : List Byte) (blocks : List (List Byte))
    (rest : List Byte) (s s' : State) : Prop where
  split : Split s.out.dbsz held blocks rest
  inp : s'.inp = s.inp
  intrunc : s'.intrunc = s.intrunc
  out : s'.out = { s.out with dbp := rest.length, dbcnt := rest.length }
  known : rest <+: s'.mem s.out.db
  size : ∀ db, (s'.mem db).length = (s.mem db).length
  others : ∀ db, db ≠ s.out.db → s'.mem db = s.mem db
  tidy : Tidy s'
  contents : s'.contents = s.contents ++ blocks.flatten
  place : s.pos = s.file.length → s'.pos = s'.file.length
  flat : o.sparse = false → Flat s → Flat s'
  hole : o.sparse = true → (s'.pending, s'.writes) = blocks.foldl holeStep (s.pending, s.writes)

theorem io_eta {io : Io} {n : Nat} (place : io.dbp = n) (count : io.dbcnt = n) :
    io = { io with dbp := n, dbcnt := n } := by
  subst place
  obtain ⟨_, _, _, _, _⟩ := io
  cases count
  rfl

theorem flush_flushed (o : Operands) {held : List Byte} (tidy : Tidy s) (positive : 0 < s.out.dbsz)
    (known : held <+: s.mem s.out.db) (count : s.out.dbcnt = held.length)
    (at_end : s.out.dbp = held.length) :
    ∃ s' blocks rest, flush o s = .ok s' ∧ Flushed o held blocks rest s s' := by
  obtain ⟨blocks, rest, split⟩ := exists_split positive held
  have short := split.short
  have size := congrArg List.length split.joined
  rw [List.length_append, flatten_length split.full] at size
  have inside := known.length_le
  cases blocks with
  | nil =>
      have same : held = rest := split.joined
      subst same
      exact ⟨s, [], held, if_neg (by omega), split, rfl, rfl, io_eta at_end count, known,
        fun _ => rfl, fun _ _ => rfl, tidy, (List.append_nil _).symm, id, fun _ flat => flat,
        fun _ => rfl⟩
  | cons block more =>
      rw [List.length_cons] at size
      have several : more.length + 1 ≤ s.out.dbsz * (more.length + 1) :=
        Nat.le_mul_of_pos_left _ positive
      have once : s.out.dbsz ≤ s.out.dbsz * (more.length + 1) :=
        Nat.le_mul_of_pos_right _ (Nat.succ_pos _)
      have all : slice (s.mem s.out.db) 0 s.out.dbcnt = (block :: more).flatten ++ rest := by
        rw [count, ← split.joined]
        exact slice_front known
      obtain ⟨s1, run, drained⟩ := @writeBlocks_drains o rest more block
        (s.out.dbcnt - more.length) 0 s tidy positive all (by omega) split.full short
      have fuel : s.out.dbcnt - more.length + more.length + 1 = s.out.dbcnt + 1 := by omega
      rw [fuel] at run
      have db1 : s1.out.db = s.out.db := by rw [drained.out]
      have whole : (block :: more).flatten ++ rest <+: s1.mem s1.out.db := by
        rw [drained.mem, db1, ← split.joined]
        exact known
      obtain ⟨s2, moved, stored, front⟩ := reassemble_front whole (by rw [drained.out])
        (by rw [drained.out, ← split.joined]; exact at_end)
      obtain ⟨mem, rfl⟩ : ∃ mem, s2 = { s1 with mem := mem } := ⟨_, stored.rest⟩
      refine ⟨{ s1 with mem := mem, out := { s1.out with dbp := s1.out.dbcnt } }, block :: more,
        rest, ?_, split, drained.inp, drained.intrunc, ?_, ?_, ?_, ?_,
        ⟨drained.tidy.place, drained.tidy.ahead, drained.tidy.skips⟩, drained.contents,
        drained.place, fun whole _ => ?_, drained.hole⟩
      · rw [flush, if_pos (by omega), ddOut]
        simp only [Bool.false_eq_true, if_false, run, bind, Except.bind, moved]
      · simp only [drained.out]
      · rw [← db1]
        exact front
      · intro db
        rw [← drained.mem]
        exact stored.size db
      · intro db other
        rw [← drained.mem]
        exact stored.others db (by rwa [db1])
      · exact ⟨(drained.flat whole).place, (drained.flat whole).closed⟩

theorem ddOut_force (o : Operands) {held : List Byte} (tidy : Tidy s) (positive : 0 < s.out.dbsz)
    (known : held <+: s.mem s.out.db) (count : s.out.dbcnt = held.length) (some : held ≠ []) :
    ∃ s', ddOut o true s = .ok s' ∧ Tidy s' ∧ Flat s' ∧ s'.contents = s.contents ++ held := by
  have inside := known.length_le
  have length := List.length_pos_iff.mpr some
  have all : slice (s.mem s.out.db) 0 s.out.dbcnt = held := by
    rw [count]
    exact slice_front known
  have room : 0 + s.out.dbcnt ≤ (s.mem s.out.db).length := by omega
  obtain ⟨s1, run, done⟩ := writeBlock_appends o true s.writes tidy room (by omega)
  rw [all] at done
  have flat := done.flat (Or.inl rfl)
  refine ⟨{ s1 with out := { s1.out with dbp := 0, dbcnt := 0 } }, ?_,
    ⟨done.tidy.place, done.tidy.ahead, done.tidy.skips⟩, ⟨flat.place, flat.closed⟩, done.contents⟩
  have none : s.out.dbcnt - s.out.dbcnt = 0 := Nat.sub_self _
  simp only [ddOut, if_true, writeBlocks, run, bind, Except.bind, done.same.out, none,
    if_pos positive, reassemble, ne_eq, not_true_eq_false, if_false]

/-! ## The end -/

theorem ddClose_steps {o : Operands} {s1 s2 : State} (noOsync : o.osync = false)
    (converted : closeConversion o s = .ok s1) (filled : fillHole s1 = .ok s2) :
    ddClose o s = if s2.out.dbcnt ≠ 0 then ddOut o true s2 else .ok s2 := by
  have unpadded : padOutput o s1 = .ok s1 :=
    if_neg fun padded => by simp [noOsync] at padded
  rw [ddClose, converted]
  show (padOutput o s1).bind _ = _
  rw [unpadded]
  show (fillHole s1).bind _ = _
  rw [filled]
  rfl

theorem fillHole_none (none : s.out.dbcnt ≠ 0 ∨ s.pending = 0) :
    fillHole s = .ok s :=
  if_neg fun hole => none.elim (fun left => left hole.1) fun closed => hole.2 closed

end Netbase.Dd
