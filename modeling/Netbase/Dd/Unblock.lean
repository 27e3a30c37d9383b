import Netbase.Dd.Block

/-!
# Records to lines

Between two reads less than a record is kept.  A line goes out for every record, and one
more at the end for a record that is not complete.  After `block` this gives the text
back, if its lines fit in the records and do not end in blanks.
-/

namespace Netbase.Dd

open Netbase.Text Netbase.Lib

/-- The line of a record. -/
def unline (record : List Byte) : List Byte := stripBlanks record ++ [nl]

/-- Lines find room behind what the output buffer holds when `sent` bytes have been sent. -/
def LinesFit (obs room : Nat) : Nat → List (List Byte) → Prop
  | _, [] => True
  | sent, line :: rest =>
      sent % obs + line.length ≤ room ∧ LinesFit obs room (sent + line.length) rest

/-- The records of some bytes, the last of which may be short. -/
def recordsOf (cbs : Nat) (bytes : List Byte) : List (List Byte) :=
  fullBlocks cbs bytes ++
    if bytes.length % cbs = 0 then [] else [bytes.drop (cbs * (bytes.length / cbs))]

theorem linesFit_append (obs room : Nat) (lines more : List (List Byte)) :
    ∀ sent, LinesFit obs room sent (lines ++ more) ↔
      LinesFit obs room sent lines ∧ LinesFit obs room (sent + lines.flatten.length) more := by
  induction lines with
  | nil => intro sent; simp [LinesFit]
  | cons line lines ih =>
      intro sent
      simp only [List.cons_append, LinesFit, ih, List.flatten_cons, List.length_append,
        Nat.add_assoc, and_assoc]

/-- The output side when some lines have been sent. -/
structure Lines (o : Operands) (obs : Nat) (lines : List (List Byte)) (s : State) : Prop where
  size : (s.mem 1).length = uInt (obs + o.cbsz)
  fits : LinesFit obs (uInt (obs + o.cbsz)) 0 lines
  sending : ∃ blocks held, Sending o obs lines.flatten blocks held s

/-- Inside the loop: `data` is left at the start of a record. -/
structure Unlooping (o : Operands) (obs : Nat) (done : List (List Byte)) (data : List Byte)
    (inp : Nat) (s : State) : Prop where
  db : s.inp.db = 0
  place : s.inp.dbp = inp + data.length
  count : s.inp.dbcnt = data.length
  here : slice (s.mem 0) inp data.length = data
  inside : inp + data.length ≤ (s.mem 0).length
  output : Lines o obs (done.map unline) s

variable {o : Operands} {obs ibs : Nat} {s : State}

theorem emitLine_stores {lines blocks : List (List Byte)} {held : List Byte}
    (output : Lines o obs lines s) (sending : Sending o obs lines.flatten blocks held s)
    (record : List Byte) :
    (LinesFit obs (uInt (obs + o.cbsz)) 0 (lines ++ [unline record]) ∧
      ∃ mem, emitLine record s = .ok (State.sent { s with mem := mem } (unline record).length) ∧
        held ++ unline record <+: mem 1 ∧ (∀ b, (mem b).length = (s.mem b).length) ∧
        ∀ b, b ≠ 1 → mem b = s.mem b) ∨
    (¬ LinesFit obs (uInt (obs + o.cbsz)) 0 (lines ++ [unline record]) ∧
      emitLine record s = .error .overrun) := by
  obtain ⟨db, place, -, -⟩ := sending.out
  have fits_iff : LinesFit obs (uInt (obs + o.cbsz)) 0 (lines ++ [unline record]) ↔
      held.length + (unline record).length ≤ (s.mem 1).length := by
    rw [linesFit_append, sending.split.rest_length, output.size, Nat.zero_add]
    simp [LinesFit, output.fits]
  have line : stripBlanks record ++ [nl] = unline record := rfl
  simp only [emitLine, db, line]
  rcases store_behind sending.known place (unline record) with
    ⟨room, mem, run, front, size, others⟩ | ⟨full, run⟩
  · left
    rw [run]
    exact ⟨fits_iff.mpr room, mem, rfl, front, size, others⟩
  · right
    rw [run]
    exact ⟨fun fits => full (fits_iff.mp fits), rfl⟩

theorem emitLine_outcome (o : Operands) (noSparse : o.sparse = false) {lines : List (List Byte)}
    (output : Lines o obs lines s) (record : List Byte) :
    Outcome (fun s' => Lines o obs (lines ++ [unline record]) s' ∧ SameInput s s')
      (¬ LinesFit obs (uInt (obs + o.cbsz)) 0 (lines ++ [unline record]))
      (do flush o (← emitLine record s)) := by
  obtain ⟨blocks, held, sending⟩ := output.sending
  rcases emitLine_stores output sending record with
    ⟨fits, mem, run, front, size, others⟩ | ⟨full, run⟩
  · have before : Sending o obs lines.flatten blocks held { s with mem := mem } :=
      sending.same rfl ((List.prefix_append _ _).trans front) ⟨rfl, rfl, rfl, rfl⟩
    obtain ⟨s', blocks', held', flushed, sent, same⟩ := flush_sends noSparse before front
    rw [run]
    show Outcome _ _ (flush o (State.sent { s with mem := mem } (unline record).length))
    rw [flushed]
    refine ⟨⟨?_, fits, blocks', held', ?_⟩, same.inp, same.intrunc, ?_, ?_⟩
    · exact (same.size.trans (size 1)).trans output.size
    · simpa using sent
    · exact same.mem.trans (others 0 (by decide))
    · exact same.size.trans (size 1)
  · rw [run]
    exact full

theorem Lines.same {lines : List (List Byte)} {s' : State} (output : Lines o obs lines s)
    (out : s'.out = s.out) (mem : s'.mem 1 = s.mem 1) (file : SameFile s s') :
    Lines o obs lines s' := by
  obtain ⟨blocks, held, sending⟩ := output.sending
  refine ⟨by rw [mem]; exact output.size, output.fits, blocks, held, sending.same out ?_ file⟩
  rw [mem]
  exact sending.known

/-- Behind a record whose line has been sent the next one begins. -/
theorem Unlooping.next {o : Operands} {obs : Nat} {done : List (List Byte)} {data : List Byte}
    {inp : Nat} {s s' : State} (looping : Unlooping o obs done data inp s)
    (long : o.cbsz ≤ data.length)
    (output : Lines o obs (done.map unline ++ [unline (data.take o.cbsz)]) s')
    (same : SameInput s s') :
    Unlooping o obs (done ++ [data.take o.cbsz]) (data.drop o.cbsz) (inp + o.cbsz)
      { s' with inp := { s'.inp with dbcnt := s'.inp.dbcnt - o.cbsz } } where
  db := by
    show s'.inp.db = 0
    rw [same.inp]
    exact looping.db
  place := by
    show s'.inp.dbp = _
    rw [same.inp, looping.place, List.length_drop]
    omega
  count := by
    show s'.inp.dbcnt - o.cbsz = _
    rw [same.inp, looping.count, List.length_drop]
  here := by
    have cut := congrArg (List.drop o.cbsz) looping.here
    rw [slice, List.drop_take, List.drop_drop] at cut
    show slice (s'.mem 0) _ _ = _
    rw [same.mem, slice, List.length_drop, cut]
  inside := by
    have inside := looping.inside
    show _ ≤ (s'.mem 0).length
    rw [same.mem, List.length_drop]
    omega
  output := by
    rw [List.map_append, List.map_singleton]
    exact output.same rfl rfl ⟨rfl, rfl, rfl, rfl⟩

theorem unblockRecords_outcome (o : Operands) (noSparse : o.sparse = false)
    (positive : 0 < o.cbsz) (obs fuel : Nat) :
    ∀ {done : List (List Byte)} {data : List Byte} {inp : Nat} {s : State},
      data.length ≤ fuel → Unlooping o obs done data inp s →
      Outcome
        (fun s' => (s'.mem 0).length = (s.mem 0).length ∧ s'.inp.dbp = s.inp.dbp ∧
          ∃ records rest inp', Split o.cbsz data records rest ∧
            Unlooping o obs (done ++ records) rest inp' s')
        (∃ records rest, Split o.cbsz data records rest ∧
          ¬ LinesFit obs (uInt (obs + o.cbsz)) 0 ((done ++ records).map unline))
        (unblockRecords o fuel inp s) := by
  induction fuel with
  | zero =>
      intro done data inp s few looping
      have empty : data = [] := List.eq_nil_of_length_eq_zero (by omega)
      subst empty
      exact ⟨rfl, rfl, [], [], inp, ⟨rfl, by simp, positive⟩, by rwa [List.append_nil]⟩
  | succ fuel ih =>
      intro done data inp s few looping
      have count := looping.count
      rw [unblockRecords]
      by_cases short : s.inp.dbcnt < o.cbsz
      · rw [if_pos short]
        exact ⟨rfl, rfl, [], data, inp, ⟨rfl, by simp, count ▸ short⟩, by rwa [List.append_nil]⟩
      · rw [if_neg short]
        have front : slice (s.mem s.inp.db) inp o.cbsz = data.take o.cbsz := by
          have cut := congrArg (List.take o.cbsz) looping.here
          rw [slice, List.take_take, min_eq_left (by omega)] at cut
          rw [looping.db, slice, cut]
        have emit := emitLine_outcome o noSparse looping.output (data.take o.cbsz)
        have long : o.cbsz ≤ data.length := by omega
        rw [front, ← bind_assoc]
        refine Outcome.bind (emit.weaken (fun _ => id) fun full => ?_) ?_
        · obtain ⟨records, rest, split⟩ := exists_split positive (data.drop o.cbsz)
          refine ⟨_, rest, split.block long, fun fits => full ?_⟩
          rw [List.map_append, List.map_cons, List.append_cons, linesFit_append] at fits
          exact fits.1
        · rintro s1 ⟨output, same⟩
          have looping1 : Unlooping o obs (done ++ [data.take o.cbsz]) (data.drop o.cbsz)
              (inp + o.cbsz)
              { s1 with inp := { s1.inp with dbcnt := s1.inp.dbcnt - o.cbsz } } :=
            looping.next long output same
          refine (ih (by rw [List.length_drop]; omega) looping1).weaken ?_ ?_
          · rintro s2 ⟨size, place, records, rest, inp', split, after⟩
            refine ⟨size.trans (by rw [same.mem]), place.trans (by rw [same.inp]), _, rest, inp',
              split.block long, ?_⟩
            rwa [List.append_cons]
          · rintro ⟨records, rest, split, full⟩
            refine ⟨_, rest, split.block long, ?_⟩
            rwa [List.append_cons]

/-! ## The whole run -/

/-- Between two reads: less than a record is kept, at the front. -/
structure Keeping (o : Operands) (ibs obs : Nat) (done : List (List Byte)) (rest : List Byte)
    (s : State) : Prop where
  size : (s.mem 0).length = inputRoom o ibs
  db : s.inp.db = 0
  place : s.inp.dbp = rest.length
  count : s.inp.dbcnt = rest.length
  known : rest <+: s.mem 0
  output : Lines o obs (done.map unline) s

theorem Unlooping.keeps {done : List (List Byte)} {rest : List Byte} {inp : Nat}
    (looping : Unlooping o obs done rest inp s) (size : (s.mem 0).length = inputRoom o ibs) :
    Outcome (Keeping o ibs obs done rest) False (do
      let s ← keepRecord s
      .ok { s with inp := { s.inp with dbp := s.inp.dbcnt } }) := by
  have start : s.inp.dbp - s.inp.dbcnt = inp := by
    rw [looping.place, looping.count, Nat.add_sub_cancel]
  have inside := looping.inside
  rw [keepRecord]
  by_cases none : s.inp.dbcnt = 0
  · have empty : rest = [] := List.eq_nil_of_length_eq_zero (looping.count ▸ none)
    subst empty
    rw [if_neg (not_not.mpr none)]
    exact ⟨size, looping.db, none, none, List.nil_prefix, looping.output.same rfl rfl ⟨rfl, rfl, rfl, rfl⟩⟩
  · have room : rest.length ≤ (s.mem 0).length := by omega
    obtain ⟨buf, run, front, _⟩ := store_front room
    obtain ⟨s1, run1, changed, result⟩ := store_stored run
    obtain ⟨mem, rfl⟩ : ∃ mem, s1 = { s with mem := mem } := ⟨_, changed.rest⟩
    rw [if_pos none, moveInput, start, looping.db, looping.count, looping.here, run1]
    refine ⟨(changed.size 0).trans size, looping.db, looping.count, looping.count, ?_,
      looping.output.same rfl (changed.others 1 (by decide)) ⟨rfl, rfl, rfl, rfl⟩⟩
    show rest <+: mem 0
    rw [show mem 0 = buf from result]
    exact front

theorem unblock_outcome (o : Operands) (noSparse : o.sparse = false) (positive : 0 < o.cbsz)
    {done : List (List Byte)} {rest chunk : List Byte} {mem : Nat → List Byte}
    (keeping : Keeping o ibs obs done rest s) (known : rest ++ chunk <+: mem 0)
    (same : ∀ b, (mem b).length = (s.mem b).length) (others : mem 1 = s.mem 1) :
    Outcome
      (fun s' => ∃ records rest', Split o.cbsz (rest ++ chunk.map o.translate) records rest' ∧
        Keeping o ibs obs (done ++ records) rest' s')
      (∃ records rest', Split o.cbsz (rest ++ chunk.map o.translate) records rest' ∧
        ¬ LinesFit obs (uInt (obs + o.cbsz)) 0 ((done ++ records).map unline))
      (unblock o (s.received mem chunk.length)) := by
  have known' : rest ++ chunk <+: mem s.inp.db := by
    rw [keeping.db]
    exact known
  obtain ⟨mem', run, front, size, others'⟩ := translateInput_received o known' keeping.place
  rw [keeping.db] at front others'
  have length : (rest ++ chunk.map o.translate).length = rest.length + chunk.length := by
    rw [List.length_append, List.length_map]
  have looping : Unlooping o obs done (rest ++ chunk.map o.translate) 0
      (s.received mem' chunk.length) := by
    refine ⟨keeping.db, ?_, ?_, slice_front front, ?_, ?_⟩
    · show s.inp.dbp + chunk.length = _
      rw [keeping.place, length, Nat.zero_add]
    · show s.inp.dbcnt + chunk.length = _
      rw [keeping.count, length]
    · rw [Nat.zero_add]
      exact front.length_le
    · exact keeping.output.same rfl ((others' 1 (by decide)).trans others) ⟨rfl, rfl, rfl, rfl⟩
  rw [unblock, run]
  show Outcome _ _ (unblockRecords o (s.received mem' chunk.length).inp.dbcnt 0
    (s.received mem' chunk.length) >>= _)
  refine Outcome.bind (unblockRecords_outcome o noSparse positive obs _ ?_ looping) ?_
  · exact le_of_eq looping.count.symm
  · rintro s' ⟨size', place', records, rest', inp', split, after⟩
    have room : (s'.mem 0).length = inputRoom o ibs :=
      size'.trans ((size 0).trans ((same 0).trans keeping.size))
    exact (after.keeps room).weaken (fun s'' kept => ⟨records, rest', split, kept⟩) False.elim

theorem recordsOf_split {cbs : Nat} {bytes rest : List Byte} {records : List (List Byte)}
    (split : Split cbs bytes records rest) :
    recordsOf cbs bytes = records ++ if rest = [] then [] else [rest] := by
  rw [recordsOf, ← split.blocks_eq, ← split.rest_length]
  congr 1
  by_cases none : rest = []
  · rw [if_pos none, none]
    rfl
  · have some : ¬ rest.length = 0 := fun zero => none (List.eq_nil_of_length_eq_zero zero)
    rw [if_neg none, if_neg some, split.count]
    congr 1
    conv_lhs => rw [split.joined, ← flatten_length split.full]
    exact List.drop_left

theorem linesFit_read {obs room cbs : Nat} {bytes rest more : List Byte}
    {records : List (List Byte)} (positive : 0 < cbs) (split : Split cbs bytes records rest)
    (fits : LinesFit obs room 0 ((recordsOf cbs (bytes ++ more)).map unline)) :
    LinesFit obs room 0 (records.map unline) := by
  obtain ⟨records', rest', split'⟩ := exists_split positive (rest ++ more)
  rw [recordsOf_split (split.extend split'), List.append_assoc, List.map_append,
    linesFit_append] at fits
  exact fits.1

theorem setup_keeping (o : Operands) (unblock : o.cfunc = .unblock) (positive : 0 < obs)
    (old : Nat → Nat → Byte) (writes : List Nat) :
    Keeping o ibs obs [] [] (setup o ibs obs old writes) where
  size := by simp [setup, bufferSize, unblock, inputRoom]
  db := rfl
  place := rfl
  count := rfl
  known := List.nil_prefix
  output := by
    refine ⟨by simp [setup, bufferSize, unblock], trivial, [], [], ⟨?_, rfl, rfl, rfl⟩,
      List.nil_prefix, ⟨rfl, by simp, positive⟩,
      ⟨Nat.le_refl 0, Int.le_refl 0, by simp [setup]⟩, ⟨rfl, rfl⟩, rfl⟩
    simp [setup, Operands.outBuffer, unblock]

/-- How much of a record is kept of what has been read. -/
def keptRecord (o : Operands) (read : List Byte) : Nat := read.length % o.cbsz

theorem ddIn_unblock (o : Operands) (unblock : o.cfunc = .unblock) (noSync : o.sync = false)
    (noSparse : o.sparse = false) (positive : 0 < o.cbsz) (chunks : List (List Byte)) :
    ∀ {read rest : List Byte} {done : List (List Byte)} {s : State},
      Split o.cbsz (read.map o.translate) done rest → Keeping o ibs obs done rest s →
      Outcome
        (fun s' => (∃ done' rest',
            Split o.cbsz ((read ++ chunks.flatten).map o.translate) done' rest' ∧
              Keeping o ibs obs done' rest' s') ∧
          ReadsFit (inputRoom o ibs) (keptRecord o) read chunks)
        (¬ (ReadsFit (inputRoom o ibs) (keptRecord o) read chunks ∧
          LinesFit obs (uInt (obs + o.cbsz)) 0
            ((recordsOf o.cbsz ((read ++ chunks.flatten).map o.translate)).map unline)))
        (ddIn o chunks s) := by
  induction chunks with
  | nil =>
      intro read rest done s split keeping
      refine ⟨⟨done, rest, ?_, keeping.size, keeping.db, keeping.place, keeping.count,
        keeping.known, keeping.output.same rfl rfl ⟨rfl, rfl, rfl, rfl⟩⟩, trivial⟩
      rwa [List.flatten_nil, List.append_nil]
  | cons chunk later ih =>
      intro read rest done s split keeping
      have keep : keptRecord o read = rest.length := by
        rw [keptRecord, split.rest_length, List.length_map]
      have known : rest <+: s.mem s.inp.db := by
        rw [keeping.db]
        exact keeping.known
      rw [ddIn]
      rcases readBlock_receives noSync known keeping.place chunk with
        ⟨fits, mem, run, front, size, others⟩ | ⟨full, run⟩
      · rw [keeping.db] at front fits others
        have fits' : keptRecord o read + chunk.length ≤ inputRoom o ibs := by
          rw [keep, ← keeping.size]
          exact fits
        have step := unblock_outcome o noSparse positive keeping front size (others 1 (by decide))
        rw [run, convert, unblock, List.flatten_cons, ← List.append_assoc]
        refine Outcome.bind (step.weaken (fun _ => id) ?_) ?_
        · rintro ⟨records, rest', split', full⟩ both
          have fits := both.2
          rw [List.map_append, List.map_append] at fits
          exact full (linesFit_read positive (split.extend split') fits)
        · rintro s' ⟨records, rest', split', after⟩
          have split2 := split.extend split'
          rw [← List.map_append] at split2
          refine (ih split2 after).weaken (fun s'' done => ⟨done.1, fits', done.2⟩)
            fun fails both => ?_
          exact fails ⟨both.1.2, both.2⟩
      · rw [run]
        intro both
        rw [keeping.db] at full
        refine full ?_
        rw [keeping.size, ← keep]
        exact both.1.1

/-- The end of the run: a record that is not complete is sent as well. -/
theorem ddClose_unblock (o : Operands) (unblock : o.cfunc = .unblock) (noOsync : o.osync = false)
    {bytes rest : List Byte} {done : List (List Byte)} (split : Split o.cbsz bytes done rest)
    (keeping : Keeping o ibs obs done rest s) :
    Outcome
      (fun s' => s'.file = ((recordsOf o.cbsz bytes).map unline).flatten ∧
        LinesFit obs (uInt (obs + o.cbsz)) 0 ((recordsOf o.cbsz bytes).map unline))
      (¬ LinesFit obs (uInt (obs + o.cbsz)) 0 ((recordsOf o.cbsz bytes).map unline))
      (ddClose o s) := by
  obtain ⟨blocks, held, sending⟩ := keeping.output.sending
  obtain ⟨db, place, count, size⟩ := sending.out
  rw [recordsOf_split split]
  by_cases none : rest = []
  · have stop : s.inp.dbcnt = 0 := by rw [keeping.count, none]; rfl
    have converted : closeConversion o s = .ok s := by
      rw [closeConversion, unblock]
      exact if_neg (not_not.mpr stop)
    have known : held ++ [] <+: s.mem 1 := by
      rw [List.append_nil]
      exact sending.known
    obtain ⟨s', run, file⟩ := ddClose_sends noOsync sending converted known db size
      (by rw [List.append_nil, count]) ⟨rfl, rfl, rfl, rfl⟩
    rw [run, if_pos none, List.append_nil]
    exact ⟨by rw [file, List.append_nil], keeping.output.fits⟩
  · have length := List.length_pos_iff.mpr none
    have some : s.inp.dbcnt ≠ 0 := by rw [keeping.count]; omega
    have left : slice (s.mem s.inp.db) 0 s.inp.dbcnt = rest := by
      rw [keeping.db, keeping.count]
      exact slice_front keeping.known
    rw [if_neg none, List.map_append, List.map_singleton]
    rcases emitLine_stores keeping.output sending rest with
      ⟨fits, mem, run, front, -, -⟩ | ⟨full, run⟩
    · have converted : closeConversion o s =
          .ok (State.sent { s with mem := mem } (unline rest).length) := by
        rw [closeConversion, unblock]
        show unblockClose s = _
        rw [unblockClose, if_pos some, left, run]
      obtain ⟨s', run', file⟩ := ddClose_sends noOsync sending converted front db size
        (by rw [List.length_append, ← count]; rfl) ⟨rfl, rfl, rfl, rfl⟩
      rw [run']
      exact ⟨by rw [file, List.flatten_append, List.flatten_singleton], fits⟩
    · have stopped : ddClose o s = .error .overrun := by
        rw [ddClose, closeConversion, unblock]
        show (unblockClose s).bind _ = _
        rw [unblockClose, if_pos some, left, run]
        rfl
      rw [stopped]
      exact full

/-- `unblock` writes a line for every record exactly where its reads and its lines find
room in the buffers. -/
theorem dd_unblock_iff (o : Operands) (ibs obs : Nat) (old : Nat → Nat → Byte) (writes : List Nat)
    (chunks : List (List Byte)) (unblock : o.cfunc = .unblock) (noSync : o.sync = false)
    (noOsync : o.osync = false) (noSparse : o.sparse = false) (blocks : 0 < obs)
    (positive : 0 < o.cbsz) :
    (∃ s, dd o ibs obs old writes chunks = .ok s ∧
        s.file = ((recordsOf o.cbsz (chunks.flatten.map o.translate)).map unline).flatten) ↔
      ReadsFit (inputRoom o ibs) (keptRecord o) [] chunks ∧
        LinesFit obs (uInt (obs + o.cbsz)) 0
          ((recordsOf o.cbsz (chunks.flatten.map o.translate)).map unline) := by
  have start : Keeping o ibs obs [] [] (setup o ibs obs old writes) :=
    setup_keeping o unblock blocks old writes
  have nothing : Split o.cbsz (([] : List Byte).map o.translate) [] [] := ⟨rfl, by simp, positive⟩
  have reading := ddIn_unblock o unblock noSync noSparse positive chunks nothing start
  rw [List.nil_append] at reading
  have outcome : Outcome
      (fun s => s.file = ((recordsOf o.cbsz (chunks.flatten.map o.translate)).map unline).flatten ∧
        ReadsFit (inputRoom o ibs) (keptRecord o) [] chunks ∧
        LinesFit obs (uInt (obs + o.cbsz)) 0
          ((recordsOf o.cbsz (chunks.flatten.map o.translate)).map unline))
      (¬ (ReadsFit (inputRoom o ibs) (keptRecord o) [] chunks ∧
        LinesFit obs (uInt (obs + o.cbsz)) 0
          ((recordsOf o.cbsz (chunks.flatten.map o.translate)).map unline)))
      (dd o ibs obs old writes chunks) := by
    refine Outcome.bind reading ?_
    rintro s ⟨⟨done, rest, split, keeping⟩, fits⟩
    exact (ddClose_unblock o unblock noOsync split keeping).weaken
      (fun s' wrote => ⟨wrote.1, fits, wrote.2⟩) fun full both => full both.2
  exact outcome.decides (fun s done => iff_of_true done.1 done.2) id

/-! ## There and back -/

/-- A text of lines that end in a newline, are at most `cbs` bytes long without it and do
not end in blanks. -/
structure Recordable (cbs : Nat) (text : List Byte) : Prop where
  terminated : ∀ line ∈ lines text, Terminated line
  short : ∀ line ∈ lines text, (body line).length ≤ cbs
  bare : ∀ line ∈ lines text, (body line).getLast? ≠ some (byte ' ')

theorem stripBlanks_filled {text : List Byte} (bare : text.getLast? ≠ some (byte ' ')) (n : Nat) :
    stripBlanks (text ++ List.replicate n (byte ' ')) = text := by
  have blanks : ∀ b ∈ List.replicate n (byte ' '), decide (b = byte ' ') = true := by
    intro b inside
    simpa using List.eq_of_mem_replicate inside
  rw [stripBlanks, List.rdropWhile, List.reverse_append, List.reverse_replicate,
    List.dropWhile_append_of_pos blanks]
  have head : text.reverse.head? ≠ some (byte ' ') := by rwa [List.head?_reverse]
  have kept : text.reverse.dropWhile (fun b => decide (b = byte ' ')) = text.reverse := by
    cases last : text.reverse with
    | nil => rfl
    | cons b rest =>
        rw [last] at head
        have other : b ≠ byte ' ' := fun same => head (by rw [same]; rfl)
        simp [other]
  rw [kept, List.reverse_reverse]

theorem unline_record (plain : o.ctab = none) {line : List Byte} (isLine : IsLine line)
    (terminated : Terminated line) (short : (body line).length ≤ o.cbsz)
    (bare : (body line).getLast? ≠ some (byte ' ')) : unline (record o line) = line := by
  have each : o.translate = id := by
    funext c
    simp [Operands.translate, plain]
  rw [unline, record, each, List.map_id, List.take_of_length_le short, stripBlanks_filled bare]
  rcases isLine.cases with ⟨text, clean, rfl⟩ | ⟨_, clean⟩
  · rw [body_line clean []]
  · exact absurd (List.mem_of_getLast? terminated) clean

theorem recordsOf_records (o : Operands) (positive : 0 < o.cbsz) (text : List Byte) :
    recordsOf o.cbsz (records o text) = (lines text).map (record o) := by
  have split : Split o.cbsz (records o text) ((lines text).map (record o)) [] := by
    refine ⟨?_, ?_, positive⟩
    · rw [List.append_nil, records, List.flatMap_def]
    · intro block inside
      obtain ⟨line, _, rfl⟩ := List.mem_map.mp inside
      exact record_length o line
  rw [recordsOf_split split, if_pos rfl, List.append_nil]

theorem unline_records (plain : o.ctab = none) {text : List Byte}
    (recordable : Recordable o.cbsz text) :
    ((lines text).map (record o)).map unline = lines text := by
  rw [List.map_map]
  refine (List.map_congr_left fun line inside => ?_).trans (List.map_id _)
  exact unline_record plain (lines_isLine inside) (recordable.terminated line inside)
    (recordable.short line inside) (recordable.bare line inside)

/-- `unblock` gives back what `block` made records of exactly where the reads, the records
and the lines find room in the buffers of the two runs. -/
theorem unblock_block_iff (o : Operands) (ibs obs ibs' obs' : Nat) (old old' : Nat → Nat → Byte)
    (writes writes' : List Nat) (chunks chunks' : List (List Byte)) (plain : o.ctab = none)
    (noSync : o.sync = false) (noOsync : o.osync = false) (noSparse : o.sparse = false)
    (blocks : 0 < obs) (blocks' : 0 < obs') (positive : 0 < o.cbsz)
    (recordable : Recordable o.cbsz chunks.flatten)
    (division : chunks'.flatten = records { o with cfunc := .block } chunks.flatten) :
    (∃ s s', dd { o with cfunc := .block } ibs obs old writes chunks = .ok s ∧
        s.file = chunks'.flatten ∧
        dd { o with cfunc := .unblock } ibs' obs' old' writes' chunks' = .ok s' ∧
        s'.file = chunks.flatten) ↔
      (ReadsFit (inputRoom o ibs) (keptLength o) [] chunks ∧
        RecordsFit o obs (lines chunks.flatten).length) ∧
      ReadsFit (inputRoom o ibs') (keptRecord o) [] chunks' ∧
        LinesFit obs' (uInt (obs' + o.cbsz)) 0 (lines chunks.flatten) := by
  have each : o.translate = id := by
    funext c
    simp [Operands.translate, plain]
  have blocked := dd_block_iff { o with cfunc := .block } ibs obs old writes chunks rfl noSync
    noOsync noSparse blocks positive
  have unblocked := dd_unblock_iff { o with cfunc := .unblock } ibs' obs' old' writes' chunks' rfl
    noSync noOsync noSparse blocks' positive
  have file : recordsOf o.cbsz (chunks'.flatten.map o.translate) =
      (lines chunks.flatten).map (record { o with cfunc := .block }) := by
    rw [each, List.map_id, division]
    exact recordsOf_records { o with cfunc := .block } positive _
  have sent : (recordsOf o.cbsz (chunks'.flatten.map o.translate)).map unline =
      lines chunks.flatten := by
    rw [file]
    exact unline_records (o := { o with cfunc := .block }) plain recordable
  have unchanged : KeptUnchanged { o with cfunc := .block } chunks.flatten := by
    intro _
    show (openLine _).map o.translate = _
    rw [each, List.map_id]
  rw [← division] at blocked
  rw [show (recordsOf ({ o with cfunc := .unblock } : Operands).cbsz (chunks'.flatten.map
    ({ o with cfunc := .unblock } : Operands).translate)).map unline = lines chunks.flatten from sent,
    flatten_lines] at unblocked
  constructor
  · rintro ⟨s, s', run, wrote, run', wrote'⟩
    have there := blocked.mp ⟨s, run, wrote⟩
    exact ⟨⟨there.1, there.2.1⟩, unblocked.mp ⟨s', run', wrote'⟩⟩
  · rintro ⟨there, back⟩
    obtain ⟨s, run, wrote⟩ := blocked.mpr ⟨there.1, there.2, unchanged⟩
    obtain ⟨s', run', wrote'⟩ := unblocked.mpr back
    exact ⟨s, s', run, wrote, run', wrote'⟩

/-- The theorem for two lines, read and written in small pieces. -/
theorem unblock_block_iff_pieces :
    (∃ s s', dd { (⟨.copy, false, false, false, none, 3⟩ : Operands) with cfunc := .block } 2 4
          (fun _ _ => 0) [1] [[byte 'a', nl], [byte 'b', byte 'c'], [nl]] = .ok s ∧
        s.file = [[byte 'a', byte ' '], [byte ' ', byte 'b', byte 'c', byte ' ']].flatten ∧
        dd { (⟨.copy, false, false, false, none, 3⟩ : Operands) with cfunc := .unblock } 4 2
          (fun _ _ => 0) [] [[byte 'a', byte ' '], [byte ' ', byte 'b', byte 'c', byte ' ']] =
            .ok s' ∧
        s'.file = [[byte 'a', nl], [byte 'b', byte 'c'], [nl]].flatten) ↔
      (ReadsFit (inputRoom ⟨.copy, false, false, false, none, 3⟩ 2)
          (keptLength ⟨.copy, false, false, false, none, 3⟩) []
          [[byte 'a', nl], [byte 'b', byte 'c'], [nl]] ∧
        RecordsFit ⟨.copy, false, false, false, none, 3⟩ 4
          (lines [[byte 'a', nl], [byte 'b', byte 'c'], [nl]].flatten).length) ∧
      ReadsFit (inputRoom ⟨.copy, false, false, false, none, 3⟩ 4)
          (keptRecord ⟨.copy, false, false, false, none, 3⟩) []
          [[byte 'a', byte ' '], [byte ' ', byte 'b', byte 'c', byte ' ']] ∧
        LinesFit 2 (uInt (2 + 3)) 0 (lines [[byte 'a', nl], [byte 'b', byte 'c'], [nl]].flatten) :=
  unblock_block_iff ⟨.copy, false, false, false, none, 3⟩ 2 4 4 2 _ _ _ _ _ _ rfl rfl rfl rfl
    (by decide) (by decide) (by decide)
    ⟨by decide, by decide, by decide⟩ (by decide)

/-- With records of 2^31 bytes the size of the input buffer wraps to nothing. -/
theorem dd_block_wraps :
    (dd { (⟨.copy, false, false, false, none, 2147483648⟩ : Operands) with cfunc := .block } 512 512
      (fun _ _ => 0) [] [[byte 'a', nl]]).toOption.map State.file = none := by
  decide +kernel

end Netbase.Dd
