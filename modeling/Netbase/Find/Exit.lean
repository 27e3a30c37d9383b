import Netbase.Find.Size

/-!
# Leaving a search

`-exit` is true and does nothing itself: `find_execute` looks at the type of every node that has
been true, and stops behind the file.  It sees the nodes of the plan, and not those inside of
parentheses, `!` and `-o`.
-/

namespace Netbase.Find

open Netbase.Text

variable {β ε τ : Type}

/-- A primary: `-exit` with its number, or another one. -/
inductive Leaving (β : Type) where
  | exit (n : Int)
  | other (b : β)

/-- `exit_val`, which is an `int`. -/
def exitVal (n : Int) : Int := Int.bmod n (2 ^ 32)

/-- `c_exit`: the number of its operand, which may be missing. -/
def cExit (arg : Option (List Byte)) : Except SizeError (Leaving β) :=
  match arg with
  | some arg => (findParsenum (ascii ['-', 'e', 'x', 'i', 't']) arg none).map fun read => .exit read.2.1
  | none => .ok (.exit 0)

/-- `fts_info` -/
inductive FtsInfo where
  | d
  | dp
  | dnr
  | err
  | ns
  | other
  deriving DecidableEq

/-- What is given from outside: the options, what `fts_read` says of an entry, whether its path is
illegal for `xargs`, and what other primaries do. -/
structure Search (β ε τ : Type) where
  isdepth : Bool
  isxargs : Bool
  info : ε → FtsInfo
  badch : ε → Bool
  other : β → ε → τ → Bool × τ

/-- `cval` and `rval` -/
structure Status where
  cval : Bool
  rval : Int
  deriving DecidableEq

variable (w : Search β ε τ)

/-- A primary for a file.  The numbers of the `-exit` primaries that are evaluated are noted. -/
def evalLeaving (entry : ε) : Leaving β → τ × List Int → Bool × (τ × List Int)
  | .exit n, s => (true, (s.1, s.2 ++ [n]))
  | .other b, s => ((w.other b entry s.1).1, ((w.other b entry s.1).2, s.2))

/-- The number of a node of type `N_EXIT`. -/
def Node.exitNumber : Node (Leaving β) → Option Int
  | .prim (.exit n) => some n
  | _ => none

/-- The type of a node of the plan is looked at when it has been true. -/
def Node.noticed (p : Node (Leaving β)) (st : Status) : Status :=
  match p.exitNumber with
  | some n => ⟨false, exitVal n⟩
  | none => st

/-- The loop over the plan for one file. -/
def leaveLoop (entry : ε) : List (Node (Leaving β)) → Status → τ × List Int →
    Status × (τ × List Int)
  | [], st, s => (st, s)
  | p :: next, st, s =>
      let r := p.eval (evalLeaving w entry) s
      if r.1 then leaveLoop entry next (p.noticed st) r.2 else (st, r.2)

/-- What is done with an entry: it is left out, it is an error, or the plan is executed. -/
inductive Treatment where
  | skip
  | complain
  | execute

def Search.treatment (entry : ε) : Treatment :=
  match w.info entry with
  | .d => if w.isdepth then .skip else if w.isxargs ∧ w.badch entry then .complain else .execute
  | .dp => if !w.isdepth then .skip else if w.isxargs ∧ w.badch entry then .complain else .execute
  | .dnr | .err | .ns => .complain
  | .other => if w.isxargs ∧ w.badch entry then .complain else .execute

/-- One turn of the loop over the files, with the numbers of the `-exit` primaries that were
evaluated. -/
def visit (plan : List (Node (Leaving β))) (entry : ε) (st : Status) (env : τ) :
    Status × (τ × List Int) :=
  match w.treatment entry with
  | .skip => (st, (env, []))
  | .complain => ({ st with rval := 1 }, (env, []))
  | .execute => leaveLoop w entry plan st (env, [])

/-- The loop over the files: the status behind it, and the numbers evaluated for each file that
was read. -/
def visits (plan : List (Node (Leaving β))) : List ε → Status → τ → Status × List (List Int)
  | [], st, _ => (st, [])
  | entry :: entries, st, env =>
      if st.cval then
        let r := visit w plan entry st env
        let more := visits plan entries r.1 r.2.1
        (more.1, r.2.2 :: more.2)
      else (st, [])

/-- `find_execute` with what the cleanup comes to: its value, and the numbers evaluated. -/
def findLeave (plan : List (Node (Leaving β))) (entries : List ε) (env : τ) (cleanup : Int) :
    Int × List (List Int) :=
  let r := visits w plan entries ⟨true, 0⟩ env
  (if cleanup ≠ 0 then cleanup else r.1.rval, r.2)

/-! ## What stops a search -/

/-- The numbers of the `-exit` nodes of the plan itself that are evaluated. -/
def noticedExits (entry : ε) : List (Node (Leaving β)) → τ × List Int → List Int
  | [], _ => []
  | p :: next, s =>
      let r := p.eval (evalLeaving w entry) s
      if r.1 then p.exitNumber.toList ++ noticedExits entry next r.2 else []

/-- The same for an entry as it is read. -/
def noticedAt (plan : List (Node (Leaving β))) (entry : ε) (env : τ) : List Int :=
  match w.treatment entry with
  | .execute => noticedExits w entry plan (env, [])
  | _ => []

/-- An evaluated `-exit` stops the search behind the file, and its number is the value unless the
cleanup has another one. -/
def Leaves (plan : List (Node (Leaving β))) (entries : List ε) (env : τ) : Prop :=
  ∀ before exits n behind, (findLeave w plan entries env 0).2 = before ++ exits :: behind →
    exits.getLast? = some n →
      behind = [] ∧ ∀ cleanup, (findLeave w plan entries env cleanup).1 =
        if cleanup ≠ 0 then cleanup else n

/-- The last `-exit` that is evaluated for a file is noticed, or the last one that is noticed has
the same number; or there is no other file and the value is that number anyway. -/
def Noticed (plan : List (Node (Leaving β))) : List ε → Status → τ → Prop
  | [], _, _ => True
  | entry :: entries, st, env =>
      let exits := (visit w plan entry st env).2.2
      match (noticedAt w plan entry env).getLast? with
      | some m => some (exitVal m) = exits.getLast?
      | none =>
          match exits.getLast? with
          | some n => entries = [] ∧ st.rval = n
          | none => Noticed plan entries (visit w plan entry st env).1 (visit w plan entry st env).2.1

section

variable {w} {entry : ε}

theorem Node.exitNumber_cases (p : Node (Leaving β)) :
    (∃ n, p = .prim (.exit n)) ∨ p.exitNumber = none := by
  unfold Node.exitNumber
  split
  · next n => exact Or.inl ⟨n, rfl⟩
  · exact Or.inr rfl

theorem eval_notes (p : Node (Leaving β)) (s : τ × List Int) :
    s.2 ++ p.exitNumber.toList <+: (p.eval (evalLeaving w entry) s).2.2 := by
  have each : ∀ (a : Leaving β) (s' : τ × List Int), s.2 <+: s'.2 →
      s.2 <+: (evalLeaving w entry a s').2.2 := by
    intro a s' known
    cases a with
    | exit n => exact known.trans (List.prefix_append _ _)
    | other b => exact known
  have more := @evalPlan_keeps _ _ _ (fun s' => s.2 <+: s'.2) each _ [p] (Nat.le_refl _) s
    (List.prefix_refl _)
  rcases p.exitNumber_cases with ⟨n, rfl⟩ | none_
  · exact List.prefix_refl _
  · rwa [none_, Option.toList_none, List.append_nil]

theorem leaveLoop_noted (plan : List (Node (Leaving β))) :
    ∀ (st : Status) (s : τ × List Int),
      (s.2 ++ noticedExits w entry plan s).Sublist (leaveLoop w entry plan st s).2.2 := by
  induction plan with
  | nil =>
      intro st s
      rw [noticedExits, List.append_nil]
      exact List.Sublist.refl _
  | cons p next ih =>
      intro st s
      have noted := (@eval_notes _ _ _ w entry p s).sublist
      rw [leaveLoop, noticedExits]
      by_cases holds : (p.eval (evalLeaving w entry) s).1 = true
      · rw [if_pos holds, if_pos holds, ← List.append_assoc]
        exact (noted.append_right _).trans (ih _ _)
      · rw [if_neg holds, if_neg holds, List.append_nil]
        exact (List.sublist_append_left _ _).trans noted

theorem leaveLoop_status (plan : List (Node (Leaving β))) :
    ∀ (st : Status) (s : τ × List Int),
      (leaveLoop w entry plan st s).1 =
        match (noticedExits w entry plan s).getLast? with
        | some m => ⟨false, exitVal m⟩
        | none => st := by
  induction plan with
  | nil => exact fun st s => rfl
  | cons p next ih =>
      intro st s
      rw [leaveLoop, noticedExits]
      by_cases holds : (p.eval (evalLeaving w entry) s).1 = true
      · rw [if_pos holds, if_pos holds, ih, List.getLast?_append, Node.noticed]
        cases (noticedExits w entry next (p.eval (evalLeaving w entry) s).2).getLast? with
        | some m => rfl
        | none => cases p.exitNumber <;> rfl
      · rw [if_neg holds, if_neg holds]
        rfl

theorem visit_status (plan : List (Node (Leaving β))) (st : Status) (env : τ) :
    (∃ m, (noticedAt w plan entry env).getLast? = some m ∧
      (visit w plan entry st env).1 = ⟨false, exitVal m⟩ ∧
        ∃ n, (visit w plan entry st env).2.2.getLast? = some n) ∨
    (noticedAt w plan entry env).getLast? = none ∧
      (visit w plan entry st env).1.cval = st.cval ∧
        ((∃ n, (visit w plan entry st env).2.2.getLast? = some n) →
          (visit w plan entry st env).1.rval = st.rval) := by
  unfold visit noticedAt
  cases w.treatment entry with
  | skip => exact Or.inr ⟨rfl, rfl, fun _ => rfl⟩
  | complain =>
      refine Or.inr ⟨rfl, rfl, ?_⟩
      rintro ⟨n, none_⟩
      cases none_
  | execute =>
      have status := @leaveLoop_status _ _ _ w entry plan st (env, [])
      have noted := @leaveLoop_noted _ _ _ w entry plan st (env, [])
      simp only
      cases noticed : (noticedExits w entry plan (env, [])).getLast? with
      | none =>
          rw [noticed] at status
          exact Or.inr ⟨rfl, congrArg Status.cval status, fun _ => congrArg Status.rval status⟩
      | some m =>
          rw [noticed] at status
          refine Or.inl ⟨m, rfl, status, ?_⟩
          refine Option.ne_none_iff_exists'.mp fun none_ => ?_
          rw [List.getLast?_eq_none_iff] at none_
          rw [List.nil_append, none_, List.sublist_nil] at noted
          rw [noted] at noticed
          cases noticed

end

/-- A search from somewhere in its run is left as it should be. -/
def LeavesFrom (plan : List (Node (Leaving β))) (entries : List ε) (st : Status) (env : τ) : Prop :=
  ∀ before exits n behind, (visits w plan entries st env).2 = before ++ exits :: behind →
    exits.getLast? = some n → behind = [] ∧ (visits w plan entries st env).1.rval = n

section

variable {w} {entry : ε} {entries : List ε} {plan : List (Node (Leaving β))} {st : Status} {env : τ}

/-- Behind a status that has been cleared nothing is read. -/
theorem visits_stopped (stop : st.cval = false) : visits w plan entries st env = (st, []) := by
  cases entries with
  | nil => rfl
  | cons entry entries => rw [visits, stop, if_neg Bool.false_ne_true]

theorem visits_cons (going : st.cval = true) :
    visits w plan (entry :: entries) st env =
      ((visits w plan entries (visit w plan entry st env).1 (visit w plan entry st env).2.1).1,
        (visit w plan entry st env).2.2 ::
          (visits w plan entries (visit w plan entry st env).1 (visit w plan entry st env).2.1).2) := by
  rw [visits, if_pos going]

theorem leavesFrom_cons (going : st.cval = true) :
    LeavesFrom w plan (entry :: entries) st env ↔
      (∀ n, (visit w plan entry st env).2.2.getLast? = some n →
        (visits w plan entries (visit w plan entry st env).1 (visit w plan entry st env).2.1).2 = [] ∧
          (visits w plan entries (visit w plan entry st env).1
            (visit w plan entry st env).2.1).1.rval = n) ∧
      LeavesFrom w plan entries (visit w plan entry st env).1 (visit w plan entry st env).2.1 := by
  rw [LeavesFrom, visits_cons going]
  constructor
  · intro leaves
    exact ⟨fun n last => leaves [] _ n _ rfl last, fun before exits n behind split last =>
      leaves (_ :: before) exits n behind (congrArg _ split) last⟩
  · rintro ⟨here, later⟩ before exits n behind split last
    cases before with
    | nil =>
        obtain ⟨rfl, rfl⟩ := List.cons.inj split
        exact here n last
    | cons first before => exact later before exits n behind (List.cons.inj split).2 last

theorem leavesFrom_stopped (stop : st.cval = false) : LeavesFrom w plan entries st env := by
  intro before exits n behind split
  rw [visits_stopped stop] at split
  simp at split

theorem visits_nil_iff (going : st.cval = true) :
    (visits w plan entries st env).2 = [] ↔ entries = [] := by
  cases entries with
  | nil => exact iff_of_true rfl rfl
  | cons entry entries =>
      rw [visits_cons going]
      exact iff_of_false (List.cons_ne_nil _ _) (List.cons_ne_nil _ _)

/-- The search is left as it should be if and only if every `-exit` is noticed. -/
theorem leavesFrom_iff (entries : List ε) :
    ∀ {st : Status} {env : τ}, st.cval = true →
      (LeavesFrom w plan entries st env ↔ Noticed w plan entries st env) := by
  induction entries with
  | nil =>
      intro st env going
      refine iff_of_true ?_ trivial
      intro before exits n behind split
      simp [visits] at split
  | cons entry entries ih =>
      intro st env going
      rw [leavesFrom_cons going, Noticed]
      rcases @visit_status _ _ _ w entry plan st env with
        ⟨m, noticed, status, n, last⟩ | ⟨noticed, same, kept⟩
      · have stop : (visit w plan entry st env).1.cval = false := congrArg Status.cval status
        have value : (visit w plan entry st env).1.rval = exitVal m := congrArg Status.rval status
        rw [visits_stopped stop, value, last, noticed]
        refine ⟨fun leaves => congrArg some (leaves.1 n rfl).2, fun same => ⟨?_, leavesFrom_stopped stop⟩⟩
        rintro n' same'
        cases same'
        exact ⟨rfl, Option.some.inj same⟩
      · rw [noticed]
        cases last : (visit w plan entry st env).2.2.getLast? with
        | none =>
            simp only
            rw [← ih (same.trans going)]
            exact and_iff_right fun n none_ => nomatch none_
        | some n =>
            simp only
            have rval := kept ⟨n, last⟩
            rw [visits_nil_iff (same.trans going)]
            constructor
            · rintro ⟨here, -⟩
              obtain ⟨rfl, value⟩ := here n rfl
              exact ⟨rfl, rval.symm.trans value⟩
            · rintro ⟨rfl, value⟩
              refine ⟨?_, fun before exits n behind split => by simp [visits] at split⟩
              rintro n' same'
              cases same'
              exact ⟨rfl, rval.trans value⟩

end

/-- In every run an evaluated `-exit` ends the search behind the file with its number, whatever
tree it stands in, if and only if for every file that is reached the last `-exit` evaluated is
noticed. -/
theorem findLeave_leaves_iff (plan : List (Node (Leaving β))) (entries : List ε) (env : τ) :
    Leaves w plan entries env ↔ Noticed w plan entries ⟨true, 0⟩ env := by
  rw [← leavesFrom_iff entries rfl]
  refine forall₄_congr fun before exits n behind => ?_
  refine imp_congr_right fun split => imp_congr_right fun last => and_congr_right fun _ => ?_
  constructor
  · exact fun each => each 0
  · intro value cleanup
    rw [← value]
    rfl

/-! ## Plans without operators -/

/-- Files that are all visited, with primaries that are false. -/
def plainSearch : Search Unit Nat Unit where
  isdepth := false
  isxargs := false
  info _ := .other
  badch _ := false
  other _ _ _ := (false, ())

/-- `-exit 3 -o -false` does not end the search: the second file is read and the value is 0. -/
theorem findLeave_unnoticed :
    ¬ Leaves plainSearch [.or [.prim (.exit 3)] [.prim (.other ())]] [1, 2] () := by
  intro leaves
  have stops := (leaves [] [3] 3 [[3]] rfl rfl).1
  cases stops

end Netbase.Find
