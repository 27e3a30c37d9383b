import Netbase.Dd.Record

/-!
# Lines to records

Between two reads the line that has begun is kept, unless its record has been sent and the
rest of it is tossed.  Every record needs room for `cbs` bytes behind what the output
buffer holds; where there is none the store leaves the buffer.
-/

namespace Netbase.Dd

open Netbase.Text Netbase.Lib

/-- The first `n` records find room in the output buffer. -/
def RecordsFit (o : Operands) (obs n : Nat) : Prop :=
  ∀ k < n, k * o.cbsz % obs + o.cbsz ≤ uInt (obs + o.cbsz)

/-- The output side when `n` records have been sent. -/
structure Records (o : Operands) (obs n : Nat) (bytes : List Byte) (s : State) : Prop where
  size : (s.mem 1).length = uInt (obs + o.cbsz)
  count : bytes.length = n * o.cbsz
  fits : RecordsFit o obs n
  sending : ∃ blocks held, Sending o obs bytes blocks held s

/-- Inside the loop: `data` is left at the start of a line. -/
structure Looping (o : Operands) (obs : Nat) (done data : List Byte) (inp : Nat) (s : State) :
    Prop where
  closed : Closed done
  db : s.inp.db = 0
  place : s.inp.dbp = inp + data.length
  count : s.inp.dbcnt = data.length
  here : slice (s.mem 0) inp data.length = data
  inside : inp + data.length ≤ (s.mem 0).length
  counting : s.intrunc = false
  output : Records o obs (lines done).length (records o done) s

/-- A line `cur` has begun behind `done`, and what is kept of it is at the front. -/
structure Waiting (o : Operands) (obs : Nat) (done cur : List Byte) (s : State) : Prop where
  closed : Closed done
  clean : nl ∉ cur
  db : s.inp.db = 0
  count : s.inp.dbcnt = (kept o.cbsz cur).length
  known : kept o.cbsz cur <+: s.mem 0
  counting : s.intrunc = decide (o.cbsz ≤ cur.length)
  output : if o.cbsz ≤ cur.length then
      Records o obs ((lines done).length + 1) (records o done ++ record o cur) s
    else Records o obs (lines done).length (records o done) s

theorem body_length_le (bytes : List Byte) : (body bytes).length ≤ bytes.length :=
  (List.takeWhile_prefix _).length_le

namespace Looping

variable {o : Operands} {obs : Nat} {done data : List Byte} {inp : Nat} {s : State}

theorem nextRecord_eq (looping : Looping o obs done data inp s) :
    nextRecord o inp s = (body data).take o.cbsz := by
  have front : slice (s.mem s.inp.db) inp (min o.cbsz s.inp.dbcnt) =
      data.take (min o.cbsz data.length) := by
    have cut := congrArg (List.take (min o.cbsz data.length)) looping.here
    rw [slice, List.take_take, min_eq_left (min_le_right _ _)] at cut
    rw [looping.db, looping.count, slice, cut]
  have longer := body_length_le data
  rw [nextRecord, front, ← List.take_takeWhile, ← body]
  rcases le_total o.cbsz data.length with short | long
  · rw [min_eq_left short]
  · rw [min_eq_right long, List.take_of_length_le longer, List.take_of_length_le (by omega)]

/-- The record of the line at hand is complete in the output buffer. -/
structure Ended (o : Operands) (held data : List Byte) (inp : Nat) (s : State)
    (next : Nat × State) : Prop where
  out : next.2.out = s.out
  known : held ++ record o data <+: next.2.mem 1
  size : ∀ b, (next.2.mem b).length = (s.mem b).length
  mem : next.2.mem 0 = s.mem 0
  file : SameFile s next.2
  db : next.2.inp.db = 0
  place : next.2.inp.dbp = s.inp.dbp
  behind : (∃ rest, nl ∉ body data ∧ data = body data ++ nl :: rest ∧
      next.1 = inp + (body data).length + 1 ∧ next.2.inp.dbcnt = rest.length ∧
        next.2.intrunc = s.intrunc) ∨
    (nl ∉ data ∧ o.cbsz ≤ data.length ∧ next.2.inp.dbcnt = 0 ∧ next.2.intrunc = true)

theorem endRecord_ends (looping : Looping o obs done data inp s) {held : List Byte}
    (db : s.out.db = 1) (place : s.out.dbp = held.length)
    (known : held ++ ((body data).take o.cbsz).map o.translate <+: s.mem 1)
    (ready : ((body data).take o.cbsz).length < min o.cbsz data.length ∨ o.cbsz ≤ data.length) :
    Outcome (Ended o held data inp s) (¬ held.length + o.cbsz ≤ (s.mem 1).length)
      (endRecord o
        (inp + (((body data).take o.cbsz).length +
          (if ((body data).take o.cbsz).length < min o.cbsz data.length then 1 else 0)))
        ((body data).take o.cbsz).length
        { s with inp := { s.inp with
          dbcnt := s.inp.dbcnt - (((body data).take o.cbsz).length +
            (if ((body data).take o.cbsz).length < min o.cbsz data.length then 1 else 0)) } }) := by
  have split := record_eq o data
  have longer := body_length_le data
  have behind : slice (s.mem 0) (inp + o.cbsz) (data.length - o.cbsz) = data.drop o.cbsz := by
    have cut := congrArg (List.drop o.cbsz) looping.here
    rw [slice, List.drop_take, List.drop_drop] at cut
    rw [slice, cut]
  by_cases short : ((body data).take o.cbsz).length < o.cbsz
  · -- the line is shorter than a record, and its newline has been read
    have size : ((body data).take o.cbsz).length = (body data).length := by
      rw [List.length_take] at short ⊢
      omega
    rw [size] at ready short split ⊢
    rw [endRecord, if_pos short]
    rcases body_cases data with ⟨clean, whole⟩ | ⟨clean, rest, whole⟩
    · rw [whole] at ready short
      omega
    · have total : data.length = (body data).length + rest.length + 1 := by
        conv_lhs => rw [whole]
        rw [List.length_append, List.length_cons]
        omega
      have ended : (body data).length < min o.cbsz data.length := by omega
      rw [if_pos ended]
      have at_end : s.out.dbp + (body data).length =
          (held ++ ((body data).take o.cbsz).map o.translate).length := by
        rw [List.length_append, List.length_map, size, place]
      have filled : (held ++ ((body data).take o.cbsz).map o.translate).length +
          (List.replicate (o.cbsz - (body data).length) (o.translate (byte ' '))).length =
          held.length + o.cbsz := by
        rw [List.length_append, List.length_map, size, List.length_replicate]
        omega
      rcases @store_behind
          { s with inp := { s.inp with dbcnt := s.inp.dbcnt - ((body data).length + 1) } } 1 _ _
          known at_end (List.replicate (o.cbsz - (body data).length) (o.translate (byte ' '))) with
        ⟨_, mem, run, front, same, others⟩ | ⟨full, run⟩
      · rw [filled] at *
        simp only [db, run, bind, Except.bind]
        refine ⟨rfl, ?_, same, others 0 (by decide), ⟨rfl, rfl, rfl, rfl⟩, looping.db, rfl,
          Or.inl ⟨rest, clean, whole, rfl, ?_, rfl⟩⟩
        · rw [split, ← List.append_assoc]
          exact front
        · show s.inp.dbcnt - ((body data).length + 1) = rest.length
          rw [looping.count]
          omega
      · rw [filled] at full
        simp only [db, run, bind, Except.bind]
        exact full
  · have full : ((body data).take o.cbsz).length = o.cbsz := by
      rw [List.length_take] at short ⊢
      omega
    have long : o.cbsz ≤ (body data).length := by
      rw [List.length_take] at full
      omega
    rw [full, Nat.sub_self, List.replicate_zero, List.append_nil] at split
    rw [full]
    have open_ : ¬ o.cbsz < min o.cbsz data.length := by omega
    rw [if_neg open_, Nat.add_zero, endRecord, if_neg (lt_irrefl _)]
    have left : s.inp.dbcnt - o.cbsz = data.length - o.cbsz := by rw [looping.count]
    simp only [looping.db, left, behind]
    have stored : held ++ record o data <+: s.mem 1 := split ▸ known
    rcases body_cases data with ⟨clean, whole⟩ | ⟨clean, rest, whole⟩
    · have all : (data.drop o.cbsz).takeWhile (· ≠ nl) = data.drop o.cbsz :=
        body_clean fun inside => clean (List.mem_of_mem_drop inside)
      rw [all, List.length_drop, if_pos rfl]
      exact ⟨rfl, stored, fun _ => rfl, rfl, ⟨rfl, rfl, rfl, rfl⟩, rfl, rfl,
        Or.inr ⟨clean, le_trans long longer, rfl, rfl⟩⟩
    · have tossed : (data.drop o.cbsz).takeWhile (· ≠ nl) = (body data).drop o.cbsz := by
        have rest' : data.drop o.cbsz = (body data).drop o.cbsz ++ nl :: rest := by
          conv_lhs => rw [whole]
          rw [List.drop_append_of_le_length long]
        rw [rest']
        exact body_line (fun inside => clean (List.mem_of_mem_drop inside)) rest
      have total : data.length = (body data).length + rest.length + 1 := by
        conv_lhs => rw [whole]
        rw [List.length_append, List.length_cons]
        omega
      have some : ¬ (body data).length - o.cbsz = data.length - o.cbsz := by omega
      rw [tossed, List.length_drop, if_neg some]
      refine ⟨rfl, stored, fun _ => rfl, rfl, ⟨rfl, rfl, rfl, rfl⟩, rfl, rfl,
        Or.inl ⟨rest, clean, whole, ?_, ?_, rfl⟩⟩
      · show inp + o.cbsz + ((body data).length - o.cbsz) + 1 = _
        omega
      · show data.length - o.cbsz - ((body data).length - o.cbsz) - 1 = _
        omega

theorem Ended.room {next : Nat × State} {held : List Byte} (ended : Ended o held data inp s next) :
    held.length + o.cbsz ≤ (s.mem 1).length := by
  have inside := ended.known.length_le
  rwa [List.length_append, record_length, ended.size] at inside

theorem Ended.emits {next : Nat × State} {held bytes : List Byte} {blocks : List (List Byte)}
    (ended : Ended o held data inp s next) (noSparse : o.sparse = false)
    (sending : Sending o obs bytes blocks held s) :
    ∃ s', emitRecord o next.2 = .ok s' ∧
      (∃ blocks held, Sending o obs (bytes ++ record o data) blocks held s') ∧
      SameInput next.2 s' := by
  have front : held <+: next.2.mem 1 := (List.prefix_append _ _).trans ended.known
  obtain ⟨s', blocks', held', run, sending', same⟩ :=
    flush_sends noSparse (sending.same ended.out front ended.file) ended.known
  refine ⟨s', ?_, ⟨blocks', held', sending'⟩, same⟩
  rw [record_length] at run
  exact run

end Looping

theorem kept_clean {cur : List Byte} (clean : nl ∉ cur) (cbs : Nat) :
    kept cbs cur = if cur.length < cbs then cur else [] := by
  have whole : openLine ([] ++ cur) = cur := Closed.openLine_eq (Or.inl rfl) clean
  rw [List.nil_append] at whole
  rw [kept, whole]

theorem blockRecords_done (o : Operands) (fuel inp : Nat) {s : State} (none : s.inp.dbcnt = 0) :
    blockRecords o fuel inp s = .ok s := by
  cases fuel with
  | zero => rfl
  | succ fuel => rw [blockRecords, if_pos none]

namespace Records

variable {o : Operands} {obs n : Nat} {bytes : List Byte} {s s' : State}

/-- Only memory in which the sent bytes stand has changed. -/
theorem same (output : Records o obs n bytes s) (out : s'.out = s.out)
    (known : ∀ held, held <+: s.mem 1 → held.length < obs → held <+: s'.mem 1)
    (size : (s'.mem 1).length = (s.mem 1).length) (file : SameFile s s') :
    Records o obs n bytes s' := by
  obtain ⟨blocks, held, sending⟩ := output.sending
  refine ⟨size.trans output.size, output.count, output.fits, blocks, held, ?_⟩
  exact sending.same out (known held sending.known sending.split.short) file

theorem held_length (output : Records o obs n bytes s) {blocks : List (List Byte)}
    {held : List Byte} (sending : Sending o obs bytes blocks held s) :
    held.length = n * o.cbsz % obs := by
  rw [sending.split.rest_length, output.count]

theorem fits_next (output : Records o obs n bytes s) {blocks : List (List Byte)}
    {held : List Byte} (sending : Sending o obs bytes blocks held s)
    (room : held.length + o.cbsz ≤ (s.mem 1).length) : RecordsFit o obs (n + 1) := by
  intro k below
  rcases Nat.lt_succ_iff_lt_or_eq.mp below with earlier | rfl
  · exact output.fits k earlier
  · rw [← output.size, ← output.held_length sending]
    exact room

theorem next (output : Records o obs n bytes s) {blocks : List (List Byte)} {held line : List Byte}
    (before : Sending o obs bytes blocks held s)
    (sending : ∃ blocks held, Sending o obs (bytes ++ record o line) blocks held s')
    (size : (s'.mem 1).length = (s.mem 1).length)
    (room : held.length + o.cbsz ≤ (s.mem 1).length) :
    Records o obs (n + 1) (bytes ++ record o line) s' where
  size := size.trans output.size
  count := by rw [List.length_append, record_length, output.count, Nat.succ_mul]
  fits := output.fits_next before room
  sending := sending

theorem not_fit (output : Records o obs n bytes s) {blocks : List (List Byte)} {held : List Byte}
    (sending : Sending o obs bytes blocks held s)
    (full : ¬ held.length + o.cbsz ≤ (s.mem 1).length) {m : Nat} (more : n < m) :
    ¬ RecordsFit o obs m := by
  intro fits
  have room := fits n more
  rw [← output.size, ← output.held_length sending] at room
  exact full room

end Records

namespace Looping

variable {o : Operands} {obs : Nat} {done data : List Byte} {inp : Nat} {s : State}

theorem stops (looping : Looping o obs done [] inp s) (positive : 0 < o.cbsz) :
    Waiting o obs done [] s := by
  have none : kept o.cbsz [] = [] := by
    rw [kept_clean (by simp)]
    split <;> rfl
  have short : ¬ o.cbsz ≤ ([] : List Byte).length := by
    rw [List.length_nil]
    omega
  refine ⟨looping.closed, by simp, looping.db, ?_, ?_, ?_, ?_⟩
  · rw [none]
    exact looping.count
  · rw [none]
    exact List.nil_prefix
  · rw [looping.counting]
    exact (decide_eq_false short).symm
  · rw [if_neg short]
    exact looping.output

theorem stored (looping : Looping o obs done data inp s) {mem : Nat → List Byte}
    {blocks : List (List Byte)} {held text : List Byte}
    (sending : Sending o obs (records o done) blocks held s) (known : held ++ text <+: mem 1)
    (size : ∀ b, (mem b).length = (s.mem b).length) (same : mem 0 = s.mem 0) :
    Looping o obs done data inp { s with mem := mem } where
  closed := looping.closed
  db := looping.db
  place := looping.place
  count := looping.count
  here := by
    show slice (mem 0) inp data.length = data
    rw [same]
    exact looping.here
  inside := by
    show _ ≤ (mem 0).length
    rw [same]
    exact looping.inside
  counting := looping.counting
  output := ⟨(size 1).trans looping.output.size, looping.output.count, looping.output.fits,
    blocks, held, sending.same rfl ((List.prefix_append _ _).trans known) ⟨rfl, rfl, rfl, rfl⟩⟩

theorem waits (looping : Looping o obs done data inp s) (clean : nl ∉ data)
    (short : data.length < o.cbsz) :
    ∃ s', moveInput s = .ok s' ∧ (s'.mem 0).length = (s.mem 0).length ∧
      Waiting o obs done data s' := by
  have start : s.inp.dbp - s.inp.dbcnt = inp := by
    rw [looping.place, looping.count, Nat.add_sub_cancel]
  have inside := looping.inside
  have room : data.length ≤ (s.mem 0).length := by omega
  obtain ⟨buf, run, front, _⟩ := store_front room
  obtain ⟨s1, run1, changed, result⟩ := store_stored run
  obtain ⟨mem, rfl⟩ : ∃ mem, s1 = { s with mem := mem } := ⟨_, changed.rest⟩
  have open_ : ¬ o.cbsz ≤ data.length := by omega
  have all : kept o.cbsz data = data := by rw [kept_clean clean, if_pos short]
  refine ⟨_, ?_, changed.size 0, looping.closed, clean, looping.db, ?_, ?_, ?_, ?_⟩
  · rw [moveInput, start, looping.db, looping.count, looping.here]
    exact run1
  · rw [all]
    exact looping.count
  · rw [all, result]
    exact front
  · exact looping.counting.trans (decide_eq_false open_).symm
  · rw [if_neg open_]
    refine looping.output.same rfl (fun held known _ => ?_) (changed.size 1) ⟨rfl, rfl, rfl, rfl⟩
    rw [changed.others 1 (by decide)]
    exact known

/-- Behind a line that has been sent the next one begins. -/
theorem continues (looping : Looping o obs done data inp s) {next : Nat × State} {held rest : List Byte}
    {blocks : List (List Byte)} {s' : State} (ended : Ended o held data inp s next)
    (before : Sending o obs (records o done) blocks held s)
    (sending : ∃ blocks held, Sending o obs (records o done ++ record o data) blocks held s')
    (same : SameInput next.2 s') (clean : nl ∉ body data) (whole : data = body data ++ nl :: rest)
    (place : next.1 = inp + (body data).length + 1) (count : next.2.inp.dbcnt = rest.length)
    (counting : next.2.intrunc = s.intrunc) :
    Looping o obs (done ++ (body data ++ [nl])) rest next.1 s' := by
  have total : data.length = (body data).length + rest.length + 1 := by
    conv_lhs => rw [whole]
    rw [List.length_append, List.length_cons]
    omega
  have memory : s'.mem 0 = s.mem 0 := same.mem.trans ended.mem
  have inside := looping.inside
  refine ⟨Closed.line, ?_, ?_, ?_, ?_, ?_, ?_, ?_⟩
  · rw [same.inp]
    exact ended.db
  · rw [same.inp, ended.place, looping.place, place]
    omega
  · rw [same.inp]
    exact count
  · have cut := congrArg (List.drop ((body data).length + 1)) looping.here
    have split : ∀ line, data = line ++ nl :: rest → data.drop (line.length + 1) = rest := by
      rintro line rfl
      rw [← List.drop_drop, List.drop_left]
      rfl
    have few : data.length - ((body data).length + 1) = rest.length := by omega
    rw [slice, List.drop_take, List.drop_drop, split _ whole, few] at cut
    rw [memory, slice, place, Nat.add_assoc, cut]
  · rw [memory, place]
    omega
  · rw [same.intrunc, counting]
    exact looping.counting
  · rw [looping.closed.records_line o clean rfl, looping.closed.lines_line clean,
      List.length_append, List.length_singleton]
    exact looping.output.next before sending (same.size.trans (ended.size 1)) ended.room

/-- A line that is tossed up to its end, which has not been read. -/
theorem tosses (looping : Looping o obs done data inp s) {next : Nat × State} {held : List Byte}
    {blocks : List (List Byte)} {s' : State} (ended : Ended o held data inp s next)
    (before : Sending o obs (records o done) blocks held s)
    (sending : ∃ blocks held, Sending o obs (records o done ++ record o data) blocks held s')
    (same : SameInput next.2 s') (clean : nl ∉ data) (long : o.cbsz ≤ data.length)
    (count : next.2.inp.dbcnt = 0)
    (tossing : next.2.intrunc = true) : Waiting o obs done data s' := by
  have none : kept o.cbsz data = [] := by
    rw [kept_clean clean, if_neg (by omega)]
  refine ⟨looping.closed, clean, ?_, ?_, ?_, ?_, ?_⟩
  · rw [same.inp]
    exact ended.db
  · rw [same.inp, count, none]
    rfl
  · rw [none]
    exact List.nil_prefix
  · rw [same.intrunc, tossing]
    exact (decide_eq_true long).symm
  · rw [if_pos long]
    exact looping.output.next before sending (same.size.trans (ended.size 1)) ended.room

end Looping

theorem blockRecords_outcome (o : Operands) (noSparse : o.sparse = false) (positive : 0 < o.cbsz)
    (obs fuel : Nat) :
    ∀ {done data : List Byte} {inp : Nat} {s : State}, data.length ≤ fuel →
      Looping o obs done data inp s →
      Outcome
        (fun s' => (s'.mem 0).length = (s.mem 0).length ∧
          ∃ done' cur, done ++ data = done' ++ cur ∧ Waiting o obs done' cur s')
        (¬ RecordsFit o obs (lines (done ++ data)).length) (blockRecords o fuel inp s) := by
  induction fuel with
  | zero =>
      intro done data inp s few looping
      have empty : data = [] := List.eq_nil_of_length_eq_zero (by omega)
      subst empty
      exact ⟨rfl, done, [], rfl, looping.stops positive⟩
  | succ fuel ih =>
      intro done data inp s few looping
      by_cases none : data = []
      · subst none
        rw [blockRecords_done o (fuel + 1) inp looping.count]
        exact ⟨rfl, done, [], rfl, looping.stops positive⟩
      · have length := List.length_pos_iff.mpr none
        have count := looping.count
        obtain ⟨blocks, held, sending⟩ := looping.output.sending
        obtain ⟨db, place, -, -⟩ := sending.out
        have more := looping.closed.lines_more none
        have cut : (((body data).take o.cbsz).map o.translate).length ≤ o.cbsz := by
          rw [List.length_map, List.length_take]
          exact min_le_left _ _
        rw [blockRecords, if_neg (by omega), looping.nextRecord_eq, count, db]
        rcases store_behind sending.known place (((body data).take o.cbsz).map o.translate) with
          ⟨_, mem, run, known, size, others⟩ | ⟨full, run⟩
        · have looping1 := looping.stored sending known size (others 0 (by decide))
          simp only [run, bind, Except.bind]
          by_cases waits : ¬ ((body data).take o.cbsz).length < min o.cbsz data.length ∧
              s.inp.dbcnt < o.cbsz
          · rw [if_pos waits]
            have clean : nl ∉ data := by
              rcases body_cases data with ⟨clean, _⟩ | ⟨_, rest, whole⟩
              · exact clean
              · have total := congrArg List.length whole
                rw [List.length_append, List.length_cons] at total
                rw [List.length_take] at waits
                omega
            obtain ⟨s', moved, kept0, waiting⟩ := looping1.waits clean (by omega)
            rw [moved]
            exact ⟨kept0.trans (size 0), done, data, rfl, waiting⟩
          · rw [if_neg waits]
            have ends := looping1.endRecord_ends db place known (by omega)
            have before : Sending o obs (records o done) blocks held { s with mem := mem } :=
              sending.same rfl ((List.prefix_append _ _).trans known) ⟨rfl, rfl, rfl, rfl⟩
            refine Outcome.bind (ends.weaken (fun _ => id) fun full => ?_) fun next ended => ?_
            · exact looping1.output.not_fit before full more
            · obtain ⟨s3, emitted, sent, same⟩ := ended.emits noSparse before
              rw [emitted]
              rcases ended.behind with ⟨rest, clean, whole, next_eq, rest_eq, counting⟩ |
                ⟨clean, long, none_left, tossing⟩
              · have total := congrArg List.length whole
                rw [List.length_append, List.length_cons] at total
                have joined : done ++ data = done ++ (body data ++ [nl]) ++ rest := by
                  conv_lhs => rw [whole]
                  simp
                have run3 := ih (by omega) (looping1.continues ended before sent same clean whole
                  next_eq rest_eq counting)
                rw [joined]
                exact run3.weaken
                  (fun s' after => ⟨after.1.trans (same.mem ▸ ended.size 0 |>.trans (size 0)), after.2⟩)
                  fun full => full
              · have waiting := looping1.tosses ended before sent same clean long none_left tossing
                have stop : s3.inp.dbcnt = 0 := by rw [same.inp, none_left]
                show Outcome _ _ (blockRecords o fuel next.1 s3)
                rw [blockRecords_done o fuel next.1 stop]
                exact ⟨by rw [same.mem]; exact (ended.size 0).trans (size 0), done, data, rfl,
                  waiting⟩
        · simp only [run, bind, Except.bind]
          exact looping.output.not_fit sending (by omega) more

/-- Between two reads, when `read` has been read. -/
structure Between (o : Operands) (ibs obs : Nat) (read : List Byte) (s : State) : Prop where
  size : (s.mem 0).length = uInt (max ibs o.cbsz + o.cbsz)
  place : s.inp.dbp = s.inp.dbcnt
  waiting : ∃ done cur, read = done ++ cur ∧ Waiting o obs done cur s

theorem Waiting.same {o : Operands} {obs : Nat} {done cur : List Byte} {s s' : State}
    (waiting : Waiting o obs done cur s) (db : s'.inp.db = s.inp.db)
    (count : s'.inp.dbcnt = s.inp.dbcnt) (counting : s'.intrunc = s.intrunc)
    (mem : s'.mem = s.mem) (out : s'.out = s.out) (file : SameFile s s') :
    Waiting o obs done cur s' where
  closed := waiting.closed
  clean := waiting.clean
  db := db.trans waiting.db
  count := count.trans waiting.count
  known := mem ▸ waiting.known
  counting := counting.trans waiting.counting
  output := by
    have output := waiting.output
    split
    · next long =>
        rw [if_pos long] at output
        exact output.same out (fun _ known _ => mem ▸ known) (by rw [mem]) file
    · next short =>
        rw [if_neg short] at output
        exact output.same out (fun _ known _ => mem ▸ known) (by rw [mem]) file

theorem Between.of_waiting {o : Operands} {ibs obs : Nat} {done cur : List Byte} {s : State}
    (size : (s.mem 0).length = uInt (max ibs o.cbsz + o.cbsz))
    (waiting : Waiting o obs done cur s) :
    Between o ibs obs (done ++ cur) { s with inp := { s.inp with dbp := s.inp.dbcnt } } where
  size := size
  place := rfl
  waiting := ⟨done, cur, rfl, waiting.same rfl rfl rfl rfl rfl ⟨rfl, rfl, rfl, rfl⟩⟩

theorem kept_eq {done cur : List Byte} (closed : Closed done) (clean : nl ∉ cur) (cbs : Nat) :
    kept cbs (done ++ cur) = kept cbs cur := by
  rw [kept_clean clean, kept, closed.openLine_eq clean]

theorem blockInput_outcome (o : Operands) (noSparse : o.sparse = false) (positive : 0 < o.cbsz)
    {ibs obs : Nat} {done data : List Byte} {inp : Nat} {s : State}
    (size : (s.mem 0).length = uInt (max ibs o.cbsz + o.cbsz))
    (looping : Looping o obs done data inp s) :
    Outcome (Between o ibs obs (done ++ data)) (¬ RecordsFit o obs (lines (done ++ data)).length)
      (blockInput o s) := by
  have start : s.inp.dbp - s.inp.dbcnt = inp := by
    rw [looping.place, looping.count, Nat.add_sub_cancel]
  rw [blockInput, start]
  refine Outcome.bind (blockRecords_outcome o noSparse positive obs s.inp.dbcnt
    (le_of_eq looping.count.symm) looping) ?_
  rintro s' ⟨same, done', cur, joined, waiting⟩
  rw [joined]
  exact Between.of_waiting (same.trans size) waiting

theorem block_outcome (o : Operands) (noSparse : o.sparse = false) (positive : 0 < o.cbsz)
    {ibs obs : Nat} {done cur chunk : List Byte} {s : State} {mem : Nat → List Byte}
    (size : (s.mem 0).length = uInt (max ibs o.cbsz + o.cbsz)) (place : s.inp.dbp = s.inp.dbcnt)
    (waiting : Waiting o obs done cur s) (known : kept o.cbsz cur ++ chunk <+: mem 0)
    (same : ∀ b, (mem b).length = (s.mem b).length) (others : mem 1 = s.mem 1) :
    Outcome (Between o ibs obs (done ++ cur ++ chunk))
      (¬ RecordsFit o obs (lines (done ++ cur ++ chunk)).length)
      (block o (s.received mem chunk.length)) := by
  have output := waiting.output
  have counting := waiting.counting
  have count := waiting.count
  have keeps : ∀ held, held <+: s.mem 1 → held.length < obs → held <+: mem 1 := by
    intro held front _
    rw [others]
    exact front
  by_cases long : o.cbsz ≤ cur.length
  · -- the rest of the line is tossed
    rw [if_pos long] at output
    rw [decide_eq_true long] at counting
    rw [kept_clean waiting.clean, if_neg (by omega)] at known count
    rw [List.nil_append] at known
    have arrived : slice (mem 0) 0 chunk.length = chunk := slice_front known
    have body_eq : (slice ((s.received mem chunk.length).mem (s.received mem chunk.length).inp.db) 0
        (s.received mem chunk.length).inp.dbrcnt).takeWhile (· ≠ nl) = body chunk := by
      show (slice (mem s.inp.db) 0 chunk.length).takeWhile (· ≠ nl) = _
      rw [waiting.db, arrived]
      rfl
    have tossing : (s.received mem chunk.length).intrunc = true := counting
    rw [block, if_pos tossing, body_eq]
    extract_lets tossed
    rcases body_cases chunk with ⟨clean, whole⟩ | ⟨clean, rest, whole⟩
    · have all : tossed = (s.received mem chunk.length).inp.dbrcnt := congrArg List.length whole
      rw [if_pos all, List.append_assoc]
      have longer : o.cbsz ≤ (cur ++ chunk).length := by
        rw [List.length_append]
        omega
      have clean' : nl ∉ cur ++ chunk := by
        simpa using ⟨waiting.clean, clean⟩
      have none : kept o.cbsz (cur ++ chunk) = [] := by
        rw [kept_clean clean', if_neg (by omega)]
      refine ⟨(same 0).trans size, rfl, done, cur ++ chunk, rfl, waiting.closed, clean',
        waiting.db, ?_, ?_, ?_, ?_⟩
      · rw [none]
        rfl
      · rw [none]
        exact List.nil_prefix
      · exact counting.trans (decide_eq_true longer).symm
      · rw [if_pos longer, record_long o waiting.clean long]
        exact output.same rfl keeps (same 1) ⟨rfl, rfl, rfl, rfl⟩
    · have total := congrArg List.length whole
      rw [List.length_append, List.length_cons] at total
      have some : ¬ tossed = (s.received mem chunk.length).inp.dbrcnt := by
        show ¬ (body chunk).length = chunk.length
        omega
      have clean' : nl ∉ cur ++ body chunk := by
        simpa using ⟨waiting.clean, clean⟩
      have joined : done ++ cur ++ chunk = done ++ ((cur ++ body chunk) ++ [nl]) ++ rest := by
        conv_lhs => rw [whole]
        simp
      have behind : slice (mem 0) ((body chunk).length + 1) rest.length = rest := by
        have front : (body chunk ++ [nl]) ++ rest <+: mem 0 := by
          rw [List.append_assoc]
          exact whole ▸ known
        simpa using slice_back front
      rw [if_neg some, joined]
      refine @blockInput_outcome o noSparse positive ibs obs (done ++ ((cur ++ body chunk) ++ [nl]))
        rest ((body chunk).length + 1) _ ((same 0).trans size)
        ⟨Closed.line, waiting.db, ?_, ?_, behind, ?_, rfl, ?_⟩
      · show chunk.length = _
        omega
      · show chunk.length - (body chunk).length - 1 = _
        omega
      · have inside := known.length_le
        show _ ≤ (mem 0).length
        omega
      · have more : record o (cur ++ body chunk) = record o cur := record_long o waiting.clean long _
        rw [waiting.closed.records_line o clean' (body_clean clean'), more,
          waiting.closed.lines_line clean', List.length_append, List.length_singleton]
        exact output.same rfl keeps (same 1) ⟨rfl, rfl, rfl, rfl⟩
  · rw [if_neg long] at output
    rw [decide_eq_false long] at counting
    rw [kept_clean waiting.clean, if_pos (by omega)] at known count
    have open_ : ¬ (s.received mem chunk.length).intrunc = true := by
      show ¬ s.intrunc = true
      simp [counting]
    have front : slice (mem 0) 0 (cur ++ chunk).length = cur ++ chunk := slice_front known
    rw [block, if_neg open_, List.append_assoc]
    refine @blockInput_outcome o noSparse positive ibs obs done (cur ++ chunk) 0 _
      ((same 0).trans size) ⟨waiting.closed, waiting.db, ?_, ?_, front, ?_, counting,
        output.same rfl keeps (same 1) ⟨rfl, rfl, rfl, rfl⟩⟩
    · show s.inp.dbp + chunk.length = 0 + (cur ++ chunk).length
      rw [place, count, List.length_append, Nat.zero_add]
    · show s.inp.dbcnt + chunk.length = (cur ++ chunk).length
      rw [count, List.length_append]
    · rw [Nat.zero_add]
      exact known.length_le

/-! ## The whole run -/

theorem RecordsFit.fewer {o : Operands} {obs m n : Nat} (fits : RecordsFit o obs m) (le : n ≤ m) :
    RecordsFit o obs n :=
  fun k below => fits k (lt_of_lt_of_le below le)

def inputRoom (o : Operands) (ibs : Nat) : Nat := uInt (max ibs o.cbsz + o.cbsz)

/-- How much is kept of what has been read. -/
def keptLength (o : Operands) (read : List Byte) : Nat := (kept o.cbsz read).length

theorem setup_between (o : Operands) {ibs obs : Nat} (block : o.cfunc = .block) (positive : 0 < obs)
    (records : 0 < o.cbsz) (old : Nat → Nat → Byte) (writes : List Nat) :
    Between o ibs obs [] (setup o ibs obs old writes) := by
  have none : kept o.cbsz [] = [] := by
    rw [kept_clean (by simp)]
    split <;> rfl
  have short : ¬ o.cbsz ≤ ([] : List Byte).length := by
    rw [List.length_nil]
    omega
  refine ⟨by simp [setup, bufferSize, block], rfl, [], [], rfl, Or.inl rfl, by simp, rfl, ?_, ?_, ?_, ?_⟩
  · rw [none]
    rfl
  · rw [none]
    exact List.nil_prefix
  · exact (decide_eq_false short).symm
  · rw [if_neg short]
    refine ⟨by simp [setup, bufferSize, block], by simp [Dd.records],
      fun k below => absurd below (Nat.not_lt_zero k), [], [], ⟨?_, rfl, rfl, rfl⟩, List.nil_prefix,
      ⟨rfl, by simp, positive⟩, ⟨Nat.le_refl 0, Int.le_refl 0, by simp [setup]⟩, ⟨rfl, rfl⟩, rfl⟩
    simp [setup, Operands.outBuffer, block]

theorem ddIn_block (o : Operands) (block : o.cfunc = .block) (noSync : o.sync = false)
    (noSparse : o.sparse = false) (positive : 0 < o.cbsz) {ibs obs : Nat}
    (chunks : List (List Byte)) :
    ∀ {read : List Byte} {s : State}, Between o ibs obs read s →
      Outcome
        (fun s' => Between o ibs obs (read ++ chunks.flatten) s' ∧
          ReadsFit (inputRoom o ibs) (keptLength o) read chunks)
        (¬ (ReadsFit (inputRoom o ibs) (keptLength o) read chunks ∧
          RecordsFit o obs (lines (read ++ chunks.flatten)).length))
        (ddIn o chunks s) := by
  induction chunks with
  | nil =>
      intro read s between
      obtain ⟨done, cur, joined, waiting⟩ := between.waiting
      refine ⟨⟨between.size, between.place, done, cur, ?_,
        waiting.same rfl rfl rfl rfl rfl ⟨rfl, rfl, rfl, rfl⟩⟩, trivial⟩
      rw [List.flatten_nil, List.append_nil, joined]
  | cons chunk rest ih =>
      intro read s between
      obtain ⟨done, cur, joined, waiting⟩ := between.waiting
      have keep : keptLength o read = (kept o.cbsz cur).length := by
        rw [keptLength, joined, kept_eq waiting.closed waiting.clean]
      have room : (s.mem 0).length = inputRoom o ibs := between.size
      have known : kept o.cbsz cur <+: s.mem s.inp.db := by
        rw [waiting.db]
        exact waiting.known
      rw [ddIn]
      rcases readBlock_receives noSync known (between.place.trans waiting.count) chunk with
        ⟨fits, mem, run, front, size, others⟩ | ⟨full, run⟩
      · rw [waiting.db] at front fits others
        have step := block_outcome o noSparse positive between.size between.place waiting front size
          (others 1 (by decide))
        have fits' : keptLength o read + chunk.length ≤ inputRoom o ibs := by
          rw [keep, ← room]
          exact fits
        rw [run, convert, block, List.flatten_cons, ← List.append_assoc]
        refine Outcome.bind (step.weaken (fun _ => id) fun full both => ?_) fun s' after => ?_
        · refine full (both.2.fewer ?_)
          rw [← joined]
          exact lines_length_le _ _
        · rw [← joined] at after
          refine (ih after).weaken (fun s'' done => ⟨done.1, fits', done.2⟩) fun fails both => ?_
          exact fails ⟨both.1.2, both.2⟩
      · rw [run]
        intro both
        rw [waiting.db] at full
        refine full ?_
        rw [room, ← keep]
        exact both.1.1

def KeptUnchanged (o : Operands) (text : List Byte) : Prop :=
  (openLine text).length < o.cbsz → (openLine text).map o.translate = openLine text

theorem blockClose_kept {o : Operands} {obs : Nat} {done cur : List Byte} {s : State}
    (waiting : Waiting o obs done cur s) (place : s.inp.dbp = s.inp.dbcnt) (some : cur ≠ [])
    (short : cur.length < o.cbsz) {blocks : List (List Byte)} {held : List Byte}
    (sending : Sending o obs (records o done) blocks held s) :
    Outcome
      (fun s' => held ++ (cur ++ List.replicate (o.cbsz - cur.length) (o.translate (byte ' '))) <+:
          s'.mem 1 ∧ (s'.mem 1).length = (s.mem 1).length ∧
        s'.out = { s.out with dbcnt := s.out.dbcnt + o.cbsz } ∧ SameFile s s')
      (¬ held.length + o.cbsz ≤ (s.mem 1).length) (blockClose o s) := by
  obtain ⟨db, outPlace, -, -⟩ := sending.out
  have count := waiting.count
  have known := waiting.known
  rw [kept_clean waiting.clean, if_pos short] at count known
  have length := List.length_pos_iff.mpr some
  have left : slice (s.mem s.inp.db) (s.inp.dbp - s.inp.dbcnt) s.inp.dbcnt = cur := by
    rw [place, Nat.sub_self, waiting.db, count]
    exact slice_front known
  have total : (held ++ cur).length + (List.replicate (o.cbsz - cur.length)
      (o.translate (byte ' '))).length = held.length + o.cbsz := by
    rw [List.length_append, List.length_replicate]
    omega
  rw [blockClose, if_pos (by omega), left]
  rcases store_behind sending.known outPlace cur with ⟨_, mem, run, front, size, _⟩ | ⟨full, run⟩
  · have at_end : s.out.dbp + cur.length = (held ++ cur).length := by
      rw [List.length_append, outPlace]
    simp only [db, run, bind, Except.bind, count]
    rcases @store_behind { s with mem := mem } 1 _ _ front at_end
        (List.replicate (o.cbsz - cur.length) (o.translate (byte ' '))) with
      ⟨_, mem2, run2, front2, size2, _⟩ | ⟨full, run2⟩
    · rw [run2]
      refine ⟨List.append_assoc held cur _ ▸ front2, (size2 1).trans (size 1), ?_,
        ⟨rfl, rfl, rfl, rfl⟩⟩
      rw [← db]
    · rw [run2]
      rw [total] at full
      show ¬ _
      rwa [← size 1]
  · simp only [db, run, bind, Except.bind]
    show ¬ _
    omega

theorem ddClose_nothing {o : Operands} (block : o.cfunc = .block) (noOsync : o.osync = false)
    {obs n : Nat} {bytes : List Byte} {s : State} (output : Records o obs n bytes s)
    (none : s.inp.dbcnt = 0) : ∃ s', ddClose o s = .ok s' ∧ s'.file = bytes := by
  obtain ⟨blocks, held, sending⟩ := output.sending
  obtain ⟨db, -, count, size⟩ := sending.out
  have converted : closeConversion o s = .ok s := by
    rw [closeConversion, block]
    exact if_neg (not_not.mpr none)
  have known : held ++ [] <+: s.mem 1 := by
    rw [List.append_nil]
    exact sending.known
  obtain ⟨s', run, file⟩ := ddClose_sends noOsync sending converted known db size
    (by rw [List.append_nil, count]) ⟨rfl, rfl, rfl, rfl⟩
  exact ⟨s', run, by rw [file, List.append_nil]⟩

/-- The end of the run: the last record is sent, and all that is left is written. -/
theorem ddClose_block (o : Operands) (block : o.cfunc = .block) (noOsync : o.osync = false)
    (positive : 0 < o.cbsz) {ibs obs : Nat} {text : List Byte} {s : State}
    (between : Between o ibs obs text s) :
    Outcome
      (fun s' => (s'.file = records o text ↔ KeptUnchanged o text) ∧
        RecordsFit o obs (lines text).length)
      (¬ RecordsFit o obs (lines text).length) (ddClose o s) := by
  obtain ⟨done, cur, rfl, waiting⟩ := between.waiting
  have output := waiting.output
  have count := waiting.count
  have openCur : openLine (done ++ cur) = cur := waiting.closed.openLine_eq waiting.clean
  rw [KeptUnchanged, openCur]
  by_cases none : cur = []
  · subst none
    rw [if_neg (by rw [List.length_nil]; omega)] at output
    rw [kept_clean waiting.clean, if_pos (by rw [List.length_nil]; omega)] at count
    obtain ⟨s', run, file⟩ := ddClose_nothing block noOsync output count
    rw [run, List.append_nil]
    exact ⟨iff_of_true file fun _ => rfl, output.fits⟩
  · rw [waiting.closed.records_open o none waiting.clean,
      waiting.closed.lines_open none waiting.clean, List.length_append, List.length_singleton]
    by_cases long : o.cbsz ≤ cur.length
    · rw [if_pos long] at output
      rw [kept_clean waiting.clean, if_neg (by omega)] at count
      obtain ⟨s', run, file⟩ := ddClose_nothing block noOsync output count
      rw [run]
      exact ⟨iff_of_true file fun short => by omega, output.fits⟩
    · rw [if_neg long] at output
      obtain ⟨blocks, held, sending⟩ := output.sending
      obtain ⟨db, -, outCount, size⟩ := sending.out
      have short : cur.length < o.cbsz := by omega
      have closed := blockClose_kept waiting between.place none short sending
      cases result : blockClose o s with
      | error fault =>
          rw [result] at closed
          have stopped : ddClose o s = .error fault := by
            rw [ddClose, closeConversion, block, result]
            rfl
          rw [stopped]
          exact output.not_fit sending closed (Nat.lt_succ_self _)
      | ok s1 =>
          rw [result] at closed
          obtain ⟨known, same, out, file⟩ := closed
          have converted : closeConversion o s = .ok s1 := by
            rw [closeConversion, block, result]
          obtain ⟨s', run, wrote⟩ := ddClose_sends noOsync sending converted known
            (by rw [out]; exact db) (by rw [out]; exact size)
            (by
              rw [out]
              simp only [List.length_append, List.length_replicate]
              omega)
            file
          rw [run]
          have inside := known.length_le
          simp only [List.length_append, List.length_replicate, same] at inside
          refine ⟨?_, output.fits_next sending (by omega)⟩
          rw [wrote, List.append_cancel_left_eq, record_eq, body_clean waiting.clean,
            List.take_of_length_le (by omega), List.append_cancel_right_eq]
          exact ⟨fun same _ => same.symm, fun same => (same short).symm⟩

/-- `block` writes the record of every line exactly where its reads and its records find
room in the buffers and translation does not change a last line that is short of a
newline and of a record. -/
theorem dd_block_iff (o : Operands) (ibs obs : Nat) (old : Nat → Nat → Byte) (writes : List Nat)
    (chunks : List (List Byte)) (block : o.cfunc = .block) (noSync : o.sync = false)
    (noOsync : o.osync = false) (noSparse : o.sparse = false) (blocks : 0 < obs)
    (positive : 0 < o.cbsz) :
    (∃ s, dd o ibs obs old writes chunks = .ok s ∧ s.file = records o chunks.flatten) ↔
      ReadsFit (inputRoom o ibs) (keptLength o) [] chunks ∧
        RecordsFit o obs (lines chunks.flatten).length ∧ KeptUnchanged o chunks.flatten := by
  have start : Between o ibs obs [] (setup o ibs obs old writes) :=
    setup_between o block blocks positive old writes
  have reading := ddIn_block o block noSync noSparse positive chunks start
  rw [List.nil_append] at reading
  have outcome : Outcome
      (fun s => (s.file = records o chunks.flatten ↔ KeptUnchanged o chunks.flatten) ∧
        ReadsFit (inputRoom o ibs) (keptLength o) [] chunks ∧
        RecordsFit o obs (lines chunks.flatten).length)
      (¬ (ReadsFit (inputRoom o ibs) (keptLength o) [] chunks ∧
        RecordsFit o obs (lines chunks.flatten).length))
      (dd o ibs obs old writes chunks) := by
    refine Outcome.bind reading fun s after => ?_
    exact (ddClose_block o block noOsync positive after.1).weaken
      (fun s' done => ⟨done.1, after.2, done.2⟩) fun full both => full both.2
  refine outcome.decides (fun s done => ?_) fun fails all => fails ⟨all.1, all.2.1⟩
  exact ⟨fun wrote => ⟨done.2.1, done.2.2, done.1.mp wrote⟩, fun all => done.1.mpr all.2.2⟩

/-- The table of `ucase`. -/
def ucase (c : Byte) : Byte := if byte 'a' ≤ c ∧ c ≤ byte 'z' then c - 32 else c

/-- The theorem for a line that comes in two reads. -/
theorem dd_block_iff_split :
    (∃ s, dd ⟨.block, false, false, false, some ucase, 4⟩ 2 4 (fun _ _ => 0) []
        [[byte 'a', byte 'b'], [nl]] = .ok s ∧
      s.file = records ⟨.block, false, false, false, some ucase, 4⟩
        [[byte 'a', byte 'b'], [nl]].flatten) ↔
    ReadsFit (inputRoom ⟨.block, false, false, false, some ucase, 4⟩ 2)
        (keptLength ⟨.block, false, false, false, some ucase, 4⟩) []
        [[byte 'a', byte 'b'], [nl]] ∧
      RecordsFit ⟨.block, false, false, false, some ucase, 4⟩ 4
        (lines [[byte 'a', byte 'b'], [nl]].flatten).length ∧
      KeptUnchanged ⟨.block, false, false, false, some ucase, 4⟩
        [[byte 'a', byte 'b'], [nl]].flatten :=
  dd_block_iff _ 2 4 _ _ _ rfl rfl rfl rfl (by decide) (by decide)

/-- The last line has no newline and is not translated. -/
theorem dd_block_open_line :
    (dd ⟨.block, false, false, false, some ucase, 4⟩ 2 4 (fun _ _ => 0) []
        [[byte 'a', byte 'b']]).toOption.map State.file =
      some [byte 'a', byte 'b', byte ' ', byte ' '] ∧
    records ⟨.block, false, false, false, some ucase, 4⟩ [byte 'a', byte 'b'] =
      [byte 'A', byte 'B', byte ' ', byte ' '] := by
  decide +kernel

end Netbase.Dd
