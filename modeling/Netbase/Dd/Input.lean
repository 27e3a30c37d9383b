import Netbase.Dd.Output

/-!
# What a read leaves in the input buffer

Between two reads the input buffer holds, at its front, what has not been converted yet.
A read that fits goes behind it, and one that does not fit leaves the buffer.
-/

namespace Netbase.Dd

open Netbase.Text Netbase.Lib

/-- The state in which the conversion is called after a read of `n` bytes. -/
def State.received (s : State) (mem : Nat → List Byte) (n : Nat) : State :=
  { s with
    mem := mem
    inp := { s.inp with dbrcnt := n, dbcnt := s.inp.dbcnt + n, dbp := s.inp.dbp + n } }

theorem store_behind {s : State} {db p : Nat} {front : List Byte} (known : front <+: s.mem db)
    (place : p = front.length) (xs : List Byte) :
    (front.length + xs.length ≤ (s.mem db).length ∧
      ∃ mem, s.store db p xs = .ok { s with mem := mem } ∧ front ++ xs <+: mem db ∧
        (∀ b, (mem b).length = (s.mem b).length) ∧ ∀ b, b ≠ db → mem b = s.mem b) ∨
    (¬ front.length + xs.length ≤ (s.mem db).length ∧ s.store db p xs = .error .overrun) := by
  subst place
  by_cases fits : front.length + xs.length ≤ (s.mem db).length
  · left
    obtain ⟨buf, stored, longer, _⟩ := store_prefix known fits
    obtain ⟨s1, run, changed, result⟩ := store_stored stored
    obtain ⟨mem, rfl⟩ : ∃ mem, s1 = { s with mem := mem } := ⟨_, changed.rest⟩
    refine ⟨fits, mem, run, ?_, changed.size, changed.others⟩
    rw [show mem db = buf from result]
    exact longer
  · right
    exact ⟨fits, by simp only [State.store, store, if_neg fits]⟩

/-- A read goes behind what the buffer holds, if it fits. -/
theorem readBlock_receives {o : Operands} (noSync : o.sync = false) {s : State}
    {held : List Byte} (known : held <+: s.mem s.inp.db) (place : s.inp.dbp = held.length)
    (chunk : List Byte) :
    (held.length + chunk.length ≤ (s.mem s.inp.db).length ∧
      ∃ mem, readBlock o chunk s = convert o (s.received mem chunk.length) ∧
        held ++ chunk <+: mem s.inp.db ∧ (∀ b, (mem b).length = (s.mem b).length) ∧
        ∀ b, b ≠ s.inp.db → mem b = s.mem b) ∨
    (¬ held.length + chunk.length ≤ (s.mem s.inp.db).length ∧
      readBlock o chunk s = .error .overrun) := by
  rcases store_behind known place chunk with ⟨fits, mem, run, front, size, others⟩ | ⟨long, run⟩
  · left
    refine ⟨fits, mem, ?_, front, size, others⟩
    simp only [readBlock, clearInput, noSync, Bool.false_eq_true, if_false, bind, Except.bind, run]
    rfl
  · right
    refine ⟨long, ?_⟩
    simp only [readBlock, clearInput, noSync, Bool.false_eq_true, if_false, bind, Except.bind, run]

theorem translateInput_received (o : Operands) {s : State} {mem : Nat → List Byte}
    {held chunk : List Byte} (known : held ++ chunk <+: mem s.inp.db)
    (place : s.inp.dbp = held.length) :
    ∃ mem', translateInput o (s.received mem chunk.length) = .ok (s.received mem' chunk.length) ∧
      held ++ chunk.map o.translate <+: mem' s.inp.db ∧
      (∀ b, (mem' b).length = (mem b).length) ∧ ∀ b, b ≠ s.inp.db → mem' b = mem b := by
  unfold translateInput
  cases table : o.ctab with
  | none =>
      have each : o.translate = id := by
        funext c
        simp [Operands.translate, table]
      exact ⟨mem, rfl, by rw [each, List.map_id]; exact known, fun _ => rfl, fun _ _ => rfl⟩
  | some t =>
      have each : o.translate = t := by
        funext c
        simp [Operands.translate, table]
      have whole : held ++ chunk ++ [] <+: mem s.inp.db := by rwa [List.append_nil]
      obtain ⟨buf, stored, front, _⟩ := store_over whole (show (chunk.map t).length = _ from List.length_map t)
      obtain ⟨s', run, changed, result⟩ :=
        @store_stored (s.received mem chunk.length) s.inp.db _ _ _ stored
      obtain ⟨mem', rfl⟩ : ∃ mem', s' = s.received mem' chunk.length := ⟨_, changed.rest⟩
      have start : s.inp.dbp + chunk.length - chunk.length = held.length := by omega
      refine ⟨mem', ?_, ?_, changed.size, changed.others⟩
      · simp only [State.received, start, slice_back known]
        exact run
      · rw [show mem' s.inp.db = buf from result, each]
        simpa using front

end Netbase.Dd
