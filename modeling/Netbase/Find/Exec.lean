import Netbase.Find.Plan
import Netbase.Text.Lines

/-!
# Sets of pathnames for a utility

A node for `-exec utility {} +` collects the pathnames it is evaluated for and passes them to
the utility when its buffer is full.  What is left goes to the utility at the end, if the
traversal of the plan comes to the node: it looks into parentheses and `-o`, but not into `!`.
-/

namespace Netbase.Find

open Netbase.Text

variable {β ε τ : Type}

/-- A primary: a set of pathnames with the number of its node, or another one. -/
inductive Prim (β : Type) where
  | plusset (node : Nat)
  | other (b : β)

/-- The limits of a node: `ep_maxargs`, and the bytes of its buffer. -/
structure Limits where
  maxargs : Nat
  bufsize : Nat

/-- The pathnames in the buffer of a node, and the bytes they take. -/
structure Batch where
  args : List (List Byte)
  used : Nat
  deriving DecidableEq

/-- The state of a run: the batches, the executions so far with the numbers of their nodes,
the evaluations so far, and what other primaries and utilities change. -/
structure Run (τ : Type) where
  batch : Nat → Batch
  execs : List (Nat × List (List Byte))
  asked : List (Nat × List Byte)
  env : τ

inductive Insufficient where
  | space
  deriving DecidableEq

/-- What is given from outside: the limits of the nodes, what a utility does, what another
primary does for a file, which one is `-exit`, and the pathname of a file. -/
structure World (β ε τ : Type) where
  limits : Nat → Limits
  utility : Nat → List (List Byte) → τ → τ
  other : β → ε → τ → Bool × τ
  isExit : β → Bool
  path : ε → List Byte

variable (w : World β ε τ)

/-- `run_f_exec` -/
def runFExec (node : Nat) (s : Run τ) : Run τ :=
  let args := (s.batch node).args
  { s with
    execs := s.execs ++ [(node, args)]
    env := w.utility node args s.env
    batch := Function.update s.batch node ⟨[], 0⟩ }

/-- The pathname fits behind those in the buffer. -/
def Batch.fits (b : Batch) (l : Limits) (path : List Byte) : Bool :=
  b.used + path.length < l.bufsize - 1

def Batch.add (b : Batch) (path : List Byte) : Batch :=
  ⟨b.args ++ [path], b.used + path.length + 1⟩

/-- `f_exec` for a set of pathnames. -/
def fExec (node : Nat) (path : List Byte) (s : Run τ) : Except Insufficient (Run τ) :=
  let s := { s with asked := s.asked ++ [(node, path)] }
  let b := s.batch node
  let l := w.limits node
  if b.fits l path then
    let s := { s with batch := Function.update s.batch node (b.add path) }
    if (b.add path).args.length = l.maxargs then .ok (runFExec w node s) else .ok s
  else
    let s := runFExec w node s
    let b := s.batch node
    if b.fits l path then .ok { s with batch := Function.update s.batch node (b.add path) }
    else .error .space

/-- A primary for a file; a run that has exited does nothing. -/
def evalPrim (entry : ε) : Prim β → Except Insufficient (Run τ) →
    Bool × Except Insufficient (Run τ)
  | _, .error e => (false, .error e)
  | .plusset node, .ok s => (true, fExec w node (w.path entry) s)
  | .other b, .ok s => ((w.other b entry s.env).1, .ok { s with env := (w.other b entry s.env).2 })

/-- `N_EXIT` -/
def Node.exits : Node (Prim β) → Bool
  | .prim (.other b) => w.isExit b
  | _ => false

/-- The loop over the plan for one file; the flag stays until `-exit` is true. -/
def planLoop (entry : ε) : List (Node (Prim β)) → Bool → Except Insufficient (Run τ) →
    Bool × Except Insufficient (Run τ)
  | [], cval, s => (cval, s)
  | p :: next, cval, s =>
      let r := p.eval (evalPrim w entry) s
      if r.1 then planLoop entry next (cval && !p.exits w) r.2 else (cval, r.2)

def fileLoop (plan : List (Node (Prim β))) : List ε → Except Insufficient (Run τ) →
    Except Insufficient (Run τ)
  | [], s => s
  | entry :: entries, s =>
      let r := planLoop w entry plan true s
      if r.1 then fileLoop plan entries r.2 else r.2

/-- `plan_cleanup` -/
def planCleanup : Node (Prim β) → Run τ → Run τ
  | .prim (.plusset node), s => if (s.batch node).args.isEmpty then s else runFExec w node s
  | _, s => s

mutual

/-- `find_traverse` at one node. -/
def Node.traverse : Node (Prim β) → Run τ → Run τ
  | .expr p, s => findTraverse p (planCleanup w (.expr p) s)
  | .or p q, s => findTraverse q (findTraverse p (planCleanup w (.or p q) s))
  | .not p, s => planCleanup w (.not p) s
  | .prim a, s => planCleanup w (.prim a) s
  | .openparen, s => planCleanup w .openparen s
  | .closeparen, s => planCleanup w .closeparen s

def findTraverse : List (Node (Prim β)) → Run τ → Run τ
  | [], s => s
  | p :: next, s => findTraverse next (p.traverse s)

end

/-- `find_execute` over the files that are visited. -/
def findExecute (plan : List (Node (Prim β))) (entries : List ε) (env : τ) :
    Except Insufficient (Run τ) := do
  let s ← fileLoop w plan entries (.ok ⟨fun _ => ⟨[], 0⟩, [], [], env⟩)
  .ok (findTraverse w plan s)

/-! ## What is delivered -/

/-- The pathnames that the executions of a node were given, one after another. -/
def Run.delivered (s : Run τ) (node : Nat) : List (List Byte) :=
  (s.execs.filter (·.1 == node)).flatMap (·.2)

def Run.evaluated (s : Run τ) (node : Nat) : List (List Byte) :=
  (s.asked.filter (·.1 == node)).map (·.2)

/-- What a buffer holds when one more pathname has come. -/
def Batch.next (l : Limits) (b : Batch) (path : List Byte) : Batch :=
  if b.fits l path then
    if (b.add path).args.length = l.maxargs then ⟨[], 0⟩ else b.add path
  else Batch.add ⟨[], 0⟩ path

/-- What is left of pathnames when the full buffers have been passed on. -/
def pending (l : Limits) (paths : List (List Byte)) : Batch := paths.foldl (Batch.next l) ⟨[], 0⟩

mutual

/-- The sets of pathnames outside of every `!`. -/
def Node.plain : Node (Prim β) → List Nat
  | .prim (.plusset node) => [node]
  | .prim (.other _) | .openparen | .closeparen | .not _ => []
  | .or p q => planPlain p ++ planPlain q
  | .expr p => planPlain p

def planPlain : List (Node (Prim β)) → List Nat
  | [] => []
  | p :: next => p.plain ++ planPlain next

end

/-- What holds between two evaluations: nothing is lost between the executions and the
buffer, and the buffer holds what is left. -/
structure Run.Kept (s : Run τ) : Prop where
  passed : ∀ node, s.delivered node ++ (s.batch node).args = s.evaluated node
  left : ∀ node, s.batch node = pending (w.limits node) (s.evaluated node)

section
variable {w}

variable {s s' : Run τ}

theorem delivered_append {node' : Nat} {args : List (List Byte)}
    (more : s'.execs = s.execs ++ [(node', args)]) (node : Nat) :
    s'.delivered node = s.delivered node ++ if node' = node then args else [] := by
  simp only [Run.delivered, more, List.filter_append, List.flatMap_append]
  congr 1
  by_cases same : node' = node
  · simp [same]
  · simp [same]

theorem evaluated_append {node' : Nat} {path : List Byte}
    (more : s'.asked = s.asked ++ [(node', path)]) (node : Nat) :
    s'.evaluated node = s.evaluated node ++ if node' = node then [path] else [] := by
  simp only [Run.evaluated, more, List.filter_append, List.map_append]
  congr 1
  by_cases same : node' = node
  · simp [same]
  · simp [same]

theorem pending_append (l : Limits) (paths : List (List Byte)) (path : List Byte) :
    pending l (paths ++ [path]) = (pending l paths).next l path := by
  simp [pending]

theorem Run.Kept.step {node : Nat} {path : List Byte} (kept : s.Kept w)
    (asked : s'.asked = s.asked ++ [(node, path)])
    (batch : s'.batch = Function.update s.batch node ((s.batch node).next (w.limits node) path))
    (passed : s'.delivered node ++ (s'.batch node).args =
      s.delivered node ++ (s.batch node).args ++ [path])
    (others : ∀ other, node ≠ other → s'.delivered other = s.delivered other) : s'.Kept w := by
  refine ⟨fun other => ?_, fun other => ?_⟩
  · rw [evaluated_append asked]
    by_cases same : node = other
    · subst same
      rw [passed, kept.passed, if_pos rfl]
    · rw [others other same, batch, Function.update_of_ne (Ne.symm same), if_neg same,
        List.append_nil]
      exact kept.passed other
  · rw [evaluated_append asked, batch]
    by_cases same : node = other
    · subst same
      rw [Function.update_self, if_pos rfl, pending_append, ← kept.left]
    · rw [Function.update_of_ne (Ne.symm same), if_neg same, List.append_nil]
      exact kept.left other

theorem fExec_kept {node : Nat} {path : List Byte} (kept : s.Kept w)
    (run : fExec w node path s = .ok s') : s'.Kept w := by
  simp only [fExec] at run
  by_cases fits : (s.batch node).fits (w.limits node) path = true
  · by_cases full : ((s.batch node).add path).args.length = (w.limits node).maxargs
    · simp only [fits, full, if_true] at run
      cases run
      refine kept.step rfl ?_ ?_ fun other differ => ?_
      · simp [runFExec, Batch.next, fits, full]
      · rw [delivered_append rfl]
        simp [runFExec, Batch.add, Run.delivered]
      · rw [delivered_append rfl, if_neg differ, List.append_nil]
        rfl
    · simp only [fits, full, if_true, if_false] at run
      cases run
      refine kept.step rfl ?_ ?_ fun other differ => rfl
      · simp [Batch.next, fits, full]
      · simp [Batch.add, Run.delivered]
  · simp only [fits, Bool.false_eq_true, if_false, runFExec, Function.update_self] at run
    split at run
    · cases run
      refine kept.step rfl ?_ ?_ fun other differ => ?_
      · simp [Batch.next, fits]
      · rw [delivered_append rfl]
        simp [Batch.add, Run.delivered]
      · rw [delivered_append rfl, if_neg differ, List.append_nil]
    · cases run

theorem kept_env (kept : s.Kept w) (env : τ) : Run.Kept w { s with env := env } :=
  ⟨kept.passed, kept.left⟩

/-- A run that has not exited has kept everything. -/
def Keeps (w : World β ε τ) (r : Except Insufficient (Run τ)) : Prop := ∀ s, r = .ok s → s.Kept w

theorem evalPrim_keeps (entry : ε) (a : Prim β) {r : Except Insufficient (Run τ)}
    (kept : Keeps w r) : Keeps w (evalPrim w entry a r).2 := by
  cases r with
  | error e =>
      cases a <;> exact kept
  | ok s =>
      cases a with
      | plusset node =>
          intro s' run
          exact fExec_kept (kept s rfl) run
      | other b =>
          intro s' run
          cases run
          exact kept_env (kept s rfl) _

theorem planLoop_keeps (entry : ε) (plan : List (Node (Prim β))) :
    ∀ (cval : Bool) (r : Except Insufficient (Run τ)), Keeps w r →
      Keeps w (planLoop w entry plan cval r).2 := by
  induction plan with
  | nil => exact fun cval r kept => kept
  | cons p next ih =>
      intro cval r kept
      have here : Keeps w (p.eval (evalPrim w entry) r).2 := by
        have single := evalPlan_keeps (fun a r => evalPrim_keeps (r := r) entry a) _ [p]
          (Nat.le_refl _) r kept
        exact single
      rw [planLoop]
      split
      · exact ih _ _ here
      · exact here

theorem fileLoop_keeps (plan : List (Node (Prim β))) (entries : List ε) :
    ∀ r : Except Insufficient (Run τ), Keeps w r → Keeps w (fileLoop w plan entries r) := by
  induction entries with
  | nil => exact fun r kept => kept
  | cons entry entries ih =>
      intro r kept
      have here := planLoop_keeps entry plan true r kept
      rw [fileLoop]
      split
      · exact ih _ here
      · exact here

/-! ## The final traversal -/

structure Cleaned (reached : List Nat) (s s' : Run τ) : Prop where
  batch : ∀ node, s'.batch node = if node ∈ reached then ⟨[], (s'.batch node).used⟩ else s.batch node
  passed : ∀ node, s'.delivered node ++ (s'.batch node).args =
    s.delivered node ++ (s.batch node).args
  asked : s'.asked = s.asked

theorem Cleaned.trans {first second : List Nat} {s'' : Run τ} (left : Cleaned first s s')
    (right : Cleaned second s' s'') : Cleaned (first ++ second) s s'' := by
  refine ⟨fun node => ?_, fun node => (right.passed node).trans (left.passed node),
    right.asked.trans left.asked⟩
  have here := left.batch node
  have there := right.batch node
  by_cases later : node ∈ second
  · rw [if_pos later] at there
    rw [if_pos (List.mem_append_right _ later)]
    exact there
  · rw [if_neg later] at there
    by_cases before : node ∈ first
    · rw [if_pos before] at here
      rw [if_pos (List.mem_append_left _ before), there]
      exact here
    · rw [if_neg before] at here
      rw [if_neg (by simp [before, later]), there, here]

theorem Cleaned.refl (s : Run τ) : Cleaned [] s s :=
  ⟨fun _ => by simp, fun _ => rfl, rfl⟩

theorem planCleanup_plusset (node : Nat) (s : Run τ) :
    Cleaned [node] s (planCleanup w (.prim (.plusset node)) s) := by
  rw [planCleanup]
  split
  · next none =>
      have empty : (s.batch node).args = [] := by simpa using none
      refine ⟨fun other => ?_, fun _ => rfl, rfl⟩
      by_cases same : other = node
      · subst same
        rw [if_pos (by simp), ← empty]
      · rw [if_neg (by simpa using same)]
  · refine ⟨fun other => ?_, fun other => ?_, rfl⟩
    · by_cases same : other = node
      · subst same
        simp [runFExec]
      · rw [if_neg (by simpa using same)]
        simp [runFExec, Function.update_of_ne same]
    · rw [delivered_append rfl]
      by_cases same : node = other
      · subst same
        simp [runFExec]
      · simp [runFExec, Function.update_of_ne (Ne.symm same), same]

/-- The traversal passes on the batches of all nodes outside of every `!`, and no other. -/
theorem findTraverse_cleaned (n : Nat) :
    ∀ plan : List (Node (Prim β)), planSize plan ≤ n → ∀ s : Run τ,
      Cleaned (planPlain plan) s (findTraverse w plan s) := by
  induction n with
  | zero =>
      intro plan small s
      cases plan with
      | nil => exact Cleaned.refl s
      | cons node next =>
          have one : 0 < node.size := by cases node <;> simp [Node.size]
          simp only [planSize] at small
          omega
  | succ n ih =>
      intro plan small
      induction plan with
      | nil => exact Cleaned.refl
      | cons p next inner =>
          intro s
          simp only [planSize] at small
          have here : Cleaned p.plain s (p.traverse w s) := by
            cases p with
            | prim a =>
                cases a with
                | plusset node => exact planCleanup_plusset node s
                | other b => exact Cleaned.refl s
            | openparen => exact Cleaned.refl s
            | closeparen => exact Cleaned.refl s
            | not p => exact Cleaned.refl s
            | or p q =>
                simp only [Node.size] at small
                exact (ih p (by omega) s).trans (ih q (by omega) _)
            | expr p =>
                simp only [Node.size] at small
                exact ih p (by omega) s
          exact here.trans (inner (by omega) _)

end

/-- Every pathname reaches the utility of its node exactly once and in order, if and only if
no batch is left at a node that is found only behind `!`. -/
theorem findExecute_delivers_iff (plan : List (Node (Prim β))) (entries : List ε) (env : τ)
    {s : Run τ} (run : findExecute w plan entries env = .ok s) :
    (∀ node, s.delivered node = s.evaluated node) ↔
      ∀ node, node ∉ planPlain plan → (pending (w.limits node) (s.evaluated node)).args = [] := by
  have start : Keeps w (.ok (⟨fun _ => ⟨[], 0⟩, [], [], env⟩ : Run τ)) := by
    intro s same
    cases same
    exact ⟨fun _ => rfl, fun _ => rfl⟩
  have loop := fileLoop_keeps plan entries _ start
  rw [findExecute] at run
  cases visited : fileLoop w plan entries (.ok ⟨fun _ => ⟨[], 0⟩, [], [], env⟩) with
  | error e =>
      rw [visited] at run
      cases run
  | ok s1 =>
      rw [visited] at run
      cases run
      have kept := loop s1 visited
      have cleaned := findTraverse_cleaned (w := w) _ plan (Nat.le_refl _) s1
      have asked (node : Nat) : (findTraverse w plan s1).evaluated node = s1.evaluated node := by
        rw [Run.evaluated, cleaned.asked]
        rfl
      have whole (node : Nat) : (findTraverse w plan s1).delivered node ++
          ((findTraverse w plan s1).batch node).args = s1.evaluated node :=
        (cleaned.passed node).trans (kept.passed node)
      have each (node : Nat) : (findTraverse w plan s1).delivered node = s1.evaluated node ↔
          ((findTraverse w plan s1).batch node).args = [] := by
        rw [← whole node]
        simp
      simp only [asked, each]
      refine forall_congr' fun node => ?_
      have batch := cleaned.batch node
      by_cases reached : node ∈ planPlain plan
      · rw [if_pos reached] at batch
        rw [batch]
        simp [reached]
      · rw [if_neg reached] at batch
        rw [batch, kept.left node]
        simp [reached]

/-- A run of `! -exec utility {} +` for one file: the utility is never executed. -/
def negatedWorld : World Unit (List Byte) Unit where
  limits _ := ⟨5000, 100000⟩
  utility _ _ _ := ()
  other _ _ _ := (true, ())
  isExit _ := false
  path entry := entry

theorem findExecute_loses_batch :
    ∃ s, findExecute negatedWorld [.not [.prim (.plusset 0)]] [[byte 'a']] () = .ok s ∧
      s.evaluated 0 = [[byte 'a']] ∧ s.delivered 0 = [] :=
  ⟨_, rfl, rfl, rfl⟩

/-- The same node outside of `!` delivers the pathname. -/
theorem findExecute_delivers_plain :
    ∃ s, findExecute negatedWorld [.prim (.plusset 0)] [[byte 'a']] () = .ok s ∧
      ∀ node, s.delivered node = s.evaluated node := by
  refine ⟨_, rfl, (findExecute_delivers_iff negatedWorld [.prim (.plusset 0)] [[byte 'a']] ()
    rfl).mpr ?_⟩
  intro node absent
  have other : node ≠ 0 := by simpa [planPlain, Node.plain] using absent
  have none : ((0 : Nat) == node) = false := by simpa using Ne.symm other
  simp [findTraverse, Node.traverse, planCleanup, runFExec, Batch.add, negatedWorld,
    Run.evaluated, pending, none]

end Netbase.Find
