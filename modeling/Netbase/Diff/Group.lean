import Mathlib.Data.List.SplitBy
import Netbase.Diff.Context

/-!
# Groups of changes

For both context formats `change` collects the changes in `context_vec` and dumps
them when the next one is too far away.  The groups are the longest runs of
changes that are near each other.  With `-I` some changes are not collected.
-/

namespace Netbase.Diff.Group

open Netbase.Lib.EditScript
open Netbase.Text
open Netbase.Diff.Output
open Netbase.Diff.Context (Source changeOf_idle changesOf_append dumpUnifiedVec outputUnified)

/-- The accumulated changes, and the groups that have been dumped. -/
structure Report where
  anychange : Bool
  contextVec : List Change
  dumped : List (List Change)

/-- `a > context_vec_ptr->b + 2 * diff_context + 1 && c > context_vec_ptr->d + 2 * diff_context + 1` -/
def far (context : Nat) (prev next : Change) : Bool :=
  next.a > prev.b + 2 * context + 1 && next.c > prev.d + 2 * context + 1

theorem far_iff {context : Nat} {prev next : Change} : far context prev next = true ↔
    prev.b + 2 * context + 1 < next.a ∧ prev.d + 2 * context + 1 < next.c := by
  simp [far]

def Report.dump (report : Report) : Report :=
  if report.contextVec = [] then report
  else { report with contextVec := [], dumped := report.dumped ++ [report.contextVec] }

/-- `change` in the context formats; `ignored` says which changes the patterns of `-I` match. -/
def change (context : Nat) (ignored : Change → Bool) (report : Report) (next : Change) : Report :=
  if next.a > next.b ∧ next.c > next.d then report
  else if ignored next then report
  else
    let report :=
      if report.anychange = false then { report with anychange := true }
      else
        match report.contextVec.getLast? with
        | some prev => if far context prev next then report.dump else report
        | none => report
    { report with contextVec := report.contextVec ++ [next] }

/-- The groups that `output` has dumped in the end. -/
def groups (context : Nat) (ignored : Change → Bool) (changes : List Change) : List (List Change) :=
  let report := changes.foldl (change context ignored)
    { anychange := false, contextVec := [], dumped := [] }
  if report.anychange then report.dump.dumped else report.dumped

/-! ## The groups are runs -/

/-- Is the change collected? -/
def live (ignored : Change → Bool) (next : Change) : Bool :=
  (next.a ≤ next.b || next.c ≤ next.d) && !ignored next

def collected (ignored : Change → Bool) (changes : List Change) : List Change :=
  changes.filter (live ignored)

section

variable {context : Nat} {ignored : Change → Bool} {next : Change}

theorem live_iff : live ignored next = true ↔
    ¬ (next.a > next.b ∧ next.c > next.d) ∧ ¬ ignored next = true := by
  simp [live, imp_iff_or_not, or_comm]

theorem change_skip (report : Report) (skipped : ¬ live ignored next = true) :
    change context ignored report next = report := by
  unfold change
  split
  · rfl
  · next busy =>
      split
      · rfl
      · next shown => exact absurd (live_iff.mpr ⟨busy, shown⟩) skipped

theorem foldl_collected (changes : List Change) (report : Report) :
    changes.foldl (change context ignored) report =
      (collected ignored changes).foldl (change context ignored) report := by
  induction changes generalizing report with
  | nil => rfl
  | cons next changes ih =>
      rw [collected, List.foldl_cons, List.filter_cons]
      split
      · rw [List.foldl_cons, ih]
        rfl
      · next skipped =>
          rw [change_skip report skipped, ih]
          rfl

theorem change_next {prev : Change} {front : List Change} {dumped : List (List Change)}
    (live_ : live ignored next = true) :
    change context ignored { anychange := true, contextVec := front ++ [prev], dumped := dumped } next =
      if far context prev next then
        { anychange := true, contextVec := [next], dumped := dumped ++ [front ++ [prev]] }
      else { anychange := true, contextVec := front ++ [prev] ++ [next], dumped := dumped } := by
  obtain ⟨busy, shown⟩ := live_iff.mp live_
  unfold change
  rw [if_neg busy, if_neg shown]
  by_cases apart : far context prev next = true <;> simp [apart, Report.dump]

theorem foldl_loop (context : Nat) (changes : List Change) (all : ∀ next ∈ changes, live ignored next = true)
    (prev : Change) (back : List Change)
    (done : List (List Change)) :
    let report := changes.foldl (change context ignored)
      { anychange := true, contextVec := back.reverse ++ [prev], dumped := done.reverse }
    report.anychange = true ∧ report.dump.dumped =
      List.splitBy.loop (fun prev next => !far context prev next) changes prev back done := by
  induction changes generalizing prev back done with
  | nil => simp [Report.dump, List.splitBy.loop]
  | cons next changes ih =>
      have rest := ih fun other later => all other (List.mem_cons_of_mem next later)
      rw [List.foldl_cons, change_next (all next List.mem_cons_self), List.splitBy.loop]
      cases apart : far context prev next with
      | true => simpa using rest next [] ((back.reverse ++ [prev]) :: done)
      | false => simpa using rest next (prev :: back) done

theorem groups_eq (changes : List Change) :
    groups context ignored changes =
      (collected ignored changes).splitBy fun prev next => !far context prev next := by
  unfold groups
  rw [foldl_collected]
  have all : ∀ next ∈ collected ignored changes, live ignored next = true :=
    fun next listed => (List.mem_filter.mp listed).2
  generalize collected ignored changes = list at all ⊢
  cases list with
  | nil => rfl
  | cons first rest =>
      obtain ⟨busy, shown⟩ := live_iff.mp (all first List.mem_cons_self)
      have start : change context ignored { anychange := false, contextVec := [], dumped := [] } first =
          { anychange := true, contextVec := [first], dumped := [] } := by
        unfold change
        rw [if_neg busy, if_neg shown]
        rfl
      obtain ⟨going, loop⟩ := foldl_loop context rest
        (fun other later => all other (List.mem_cons_of_mem first later)) first [] []
      rw [List.foldl_cons, start]
      simp only [List.reverse_nil, List.nil_append] at going loop
      rw [if_pos going, loop]
      rfl

/-- The place of a group: what comes before and behind it is far away. -/
structure Placed (context : Nat) (all front vec back : List Change) : Prop where
  split : all = front ++ vec ++ back
  nonempty : vec ≠ []
  before : ∀ prev first, front.getLast? = some prev → vec.head? = some first →
    far context prev first = true
  behind : ∀ last next, vec.getLast? = some last → back.head? = some next →
    far context last next = true

theorem getLast?_flatten_concat {α : Type} (lists : List (List α)) {list : List α}
    (nonempty : list ≠ []) : (lists ++ [list]).flatten.getLast? = list.getLast? := by
  rw [List.flatten_append, List.flatten_singleton, List.getLast?_append_of_ne_nil _ nonempty]

theorem groups_placed {changes vec : List Change} (listed : vec ∈ groups context ignored changes) :
    ∃ front back, Placed context (collected ignored changes) front vec back := by
  rw [groups_eq] at listed
  have whole := List.flatten_splitBy (fun prev next => !far context prev next)
    (collected ignored changes)
  have filled := List.nil_notMem_splitBy (fun prev next => !far context prev next)
    (collected ignored changes)
  have apart := List.isChain_getLast_head_splitBy (fun prev next => !far context prev next)
    (collected ignored changes)
  obtain ⟨left, right, split⟩ := List.append_of_mem listed
  rw [split] at whole filled apart
  have nonempty : vec ≠ [] := fun none_ => filled (by simp [none_])
  refine ⟨left.flatten, right.flatten, ?_, nonempty, fun prev first last head => ?_,
    fun last next here head => ?_⟩
  · rw [← whole]
    simp
  · rcases List.eq_nil_or_concat' left with rfl | ⟨left, group, rfl⟩
    · cases last
    · have some_ : group ≠ [] := fun none_ => filled (by simp [none_])
      rw [getLast?_flatten_concat left some_] at last
      rw [List.append_assoc, List.singleton_append, List.isChain_append_cons_cons] at apart
      obtain ⟨_, ⟨some', full, relation⟩, -⟩ := apart
      rw [List.getLast?_eq_some_getLast some'] at last
      rw [List.head?_eq_some_head full] at head
      cases last
      cases head
      simpa using relation
  · cases right with
    | nil => cases head
    | cons group right =>
        have some_ : group ≠ [] := fun none_ => filled (by simp [none_])
        rw [List.flatten_cons, List.head?_append_of_ne_nil _ some_] at head
        rw [List.isChain_append_cons_cons] at apart
        obtain ⟨_, ⟨full, some', relation⟩, -⟩ := apart
        rw [List.getLast?_eq_some_getLast full] at here
        rw [List.head?_eq_some_head some'] at head
        cases here
        cases head
        simpa using relation

end

end Netbase.Diff.Group
