import Netbase.Dd.Input
import Netbase.Lib.Outcome

/-!
# What the conversions of records send

The records and lines that a conversion makes go through a buffer of their own.  Between
two of them it holds less than an output block, and the bytes before are in the file.
-/

namespace Netbase.Dd

open Netbase.Text Netbase.Lib

/-- `bytes` have been sent: full blocks are in the file and the rest is held. -/
structure Sending (o : Operands) (obs : Nat) (bytes : List Byte) (blocks : List (List Byte))
    (held : List Byte) (s : State) : Prop where
  out : s.out.db = 1 ∧ s.out.dbp = held.length ∧ s.out.dbcnt = held.length ∧ s.out.dbsz = obs
  known : held <+: s.mem 1
  split : Split obs bytes blocks held
  tidy : Tidy s
  flat : Flat s
  contents : s.contents = blocks.flatten

/-- Everything but the output side is as it was. -/
structure SameInput (s s' : State) : Prop where
  inp : s'.inp = s.inp
  intrunc : s'.intrunc = s.intrunc
  mem : s'.mem 0 = s.mem 0
  size : (s'.mem 1).length = (s.mem 1).length

/-- The output file is as it was. -/
structure SameFile (s s' : State) : Prop where
  file : s'.file = s.file
  pos : s'.pos = s.pos
  pending : s'.pending = s.pending
  seeks : s'.seeks = s.seeks

variable {s s' : State}

theorem SameFile.reached (same : SameFile s s') : s'.reached = s.reached := by
  rw [State.reached, same.file, same.pos, State.reached]

theorem SameFile.tidy (same : SameFile s s') (tidy : Tidy s) : Tidy s' where
  place := by
    rw [same.file, same.pos]
    exact tidy.place
  ahead := by
    rw [same.pending]
    exact tidy.ahead
  skips := by
    rw [same.seeks, same.reached]
    exact tidy.skips

theorem SameFile.flat (same : SameFile s s') (flat : Flat s) : Flat s' where
  place := by
    rw [same.file, same.pos]
    exact flat.place
  closed := same.pending.trans flat.closed

theorem SameFile.contents (same : SameFile s s') : s'.contents = s.contents := by
  rw [State.contents, same.reached, same.pending, State.contents]

theorem Sending.same {o : Operands} {obs : Nat} {bytes held : List Byte} {blocks : List (List Byte)}
    (sending : Sending o obs bytes blocks held s) (out : s'.out = s.out) (known : held <+: s'.mem 1)
    (file : SameFile s s') :
    Sending o obs bytes blocks held s' :=
  ⟨out ▸ sending.out, known, sending.split, file.tidy sending.tidy,
    file.flat sending.flat, file.contents.trans sending.contents⟩

/-- The output buffer takes some more bytes. -/
def State.sent (s : State) (n : Nat) : State :=
  { s with out := { s.out with dbp := s.out.dbp + n, dbcnt := s.out.dbcnt + n } }

theorem flush_sends {o : Operands} {obs : Nat} {bytes held more : List Byte}
    {blocks : List (List Byte)} (noSparse : o.sparse = false)
    (sending : Sending o obs bytes blocks held s) (known : held ++ more <+: s.mem 1) :
    ∃ s' blocks' held', flush o (s.sent more.length) = .ok s' ∧
      Sending o obs (bytes ++ more) blocks' held' s' ∧ SameInput s s' := by
  obtain ⟨db, place, count, size⟩ := sending.out
  have tidy : Tidy (s.sent more.length) :=
    ⟨sending.tidy.place, sending.tidy.ahead, sending.tidy.skips⟩
  have positive : 0 < s.out.dbsz := by
    have short := sending.split.short
    omega
  have front : held ++ more <+: s.mem s.out.db := by rwa [db]
  obtain ⟨s', blocks', held', run, flushed⟩ := flush_flushed o tidy positive front
    (by rw [List.length_append, ← count]; rfl) (by rw [List.length_append, ← place]; rfl)
  have out := flushed.out
  refine ⟨s', blocks ++ blocks', held', run, ⟨?_, ?_, ?_, flushed.tidy, ?_, ?_⟩, ?_⟩
  · rw [out]
    exact ⟨db, rfl, rfl, size⟩
  · rw [← db]
    exact flushed.known
  · exact sending.split.extend (size ▸ flushed.split)
  · exact flushed.flat noSparse ⟨sending.flat.place, sending.flat.closed⟩
  · rw [flushed.contents, List.flatten_append, ← sending.contents]
    rfl
  · exact ⟨flushed.inp, flushed.intrunc, flushed.others 0 (by show 0 ≠ s.out.db; rw [db]; decide),
      flushed.size 1⟩

/-- What is left in the output buffer is written at the end. -/
theorem ddClose_sends {o : Operands} {obs : Nat} {bytes held more : List Byte}
    {blocks : List (List Byte)} {s1 : State} (noOsync : o.osync = false)
    (sending : Sending o obs bytes blocks held s) (converted : closeConversion o s = .ok s1)
    (known : held ++ more <+: s1.mem 1) (db : s1.out.db = 1) (size : s1.out.dbsz = obs)
    (count : s1.out.dbcnt = (held ++ more).length) (file : SameFile s s1) :
    ∃ s', ddClose o s = .ok s' ∧ s'.file = bytes ++ more := by
  have flat := file.flat sending.flat
  have contents := file.contents.trans sending.contents
  have filled : fillHole s1 = .ok s1 := fillHole_none (Or.inr flat.closed)
  rw [ddClose_steps noOsync converted filled]
  by_cases none : held ++ more = []
  · refine ⟨s1, ?_, ?_⟩
    · rw [if_neg]
      rw [count, none]
      exact not_not.mpr rfl
    · have empty := List.append_eq_nil_iff.mp none
      rw [← flat.contents, contents, sending.split.joined, empty.1, empty.2, List.append_nil,
        List.append_nil]
  · have length := List.length_pos_iff.mpr none
    have short := sending.split.short
    obtain ⟨s', run, _, flat', contents'⟩ := ddOut_force o (file.tidy sending.tidy) (by omega)
      (by rwa [db]) count none
    refine ⟨s', ?_, ?_⟩
    · rw [if_pos (by omega), run]
    · rw [← flat'.contents, contents', contents, sending.split.joined, ← List.append_assoc]

end Netbase.Dd
