import Mathlib.Data.List.Basic
import Mathlib.Tactic

/-!
# Search plans

`find_formplan` makes one node of each argument and brackets them for an implied `-print`.
Then `paren_squish` puts what is between parentheses into one node, `not_squish` puts a node
behind exclamation marks into one of them, and `or_squish` puts all that stands before and
behind `-o` into it.
-/

namespace Netbase.Find

variable {α σ : Type}

/-- An argument: a primary with its operands, or an operator. -/
inductive Word (α : Type) where
  | prim (a : α)
  | openparen
  | closeparen
  | not
  | or
  | and
  deriving DecidableEq

/-- A node of a plan; a list of them is linked by `next`. -/
inductive Node (α : Type) where
  | prim (a : α)
  | openparen
  | closeparen
  | not (p_data : List (Node α))
  | or (p_data0 p_data1 : List (Node α))
  | expr (p_data : List (Node α))

/-- What the passes over the plan exit with. -/
inductive Complaint where
  | missingClosing
  | emptyInner
  | noBeginning
  | noFollowing
  | nothingBetween
  | noneBefore
  | noneAfter
  deriving DecidableEq

/-- The node for an argument; `-a` has none. -/
def findCreate : Word α → Option (Node α)
  | .prim a => some (.prim a)
  | .openparen => some .openparen
  | .closeparen => some .closeparen
  | .not => some (.not [])
  | .or => some (.or [] [])
  | .and => none

mutual

def yankexpr : Nat → List (Node α) → Except Complaint (Option (Node α × List (Node α)))
  | _, [] => .ok none
  | 0, _ :: _ => .error .missingClosing
  | fuel + 1, .openparen :: plan => do
      let (subplan, plan) ← slurp fuel plan []
      .ok (some (.expr subplan, plan))
  | _ + 1, node :: plan => .ok (some (node, plan))

/-- Collect expressions up to a closing parenthesis. -/
def slurp : Nat → List (Node α) → List (Node α) →
    Except Complaint (List (Node α) × List (Node α))
  | 0, _, _ => .error .missingClosing
  | fuel + 1, plan, subplan =>
      match yankexpr fuel plan with
      | .error e => .error e
      | .ok none => .error .missingClosing
      | .ok (some (.closeparen, plan)) =>
          if subplan.isEmpty then .error .emptyInner else .ok (subplan, plan)
      | .ok (some (next, plan)) => slurp fuel plan (subplan ++ [next])

end

/-- Enough for all the calls of `yankexpr` on a plan. -/
def yanks (plan : List (Node α)) : Nat := 2 * plan.length + 1

/-- The loop of `paren_squish`. -/
def parenLoop : Nat → List (Node α) → List (Node α) → Except Complaint (List (Node α))
  | 0, _, result => .ok result
  | fuel + 1, plan, result =>
      match yankexpr (yanks plan) plan with
      | .error e => .error e
      | .ok none => .ok result
      | .ok (some (.closeparen, _)) => .error .noBeginning
      | .ok (some (expr, plan)) => parenLoop fuel plan (result ++ [expr])

def parenSquish (plan : List (Node α)) : Except Complaint (List (Node α)) :=
  parenLoop (plan.length + 1) plan []

def Node.isNot : Node α → Bool
  | .not _ => true
  | _ => false

mutual

/-- The number of nodes, those in other nodes included. -/
def Node.size : Node α → Nat
  | .prim _ | .openparen | .closeparen => 1
  | .not p | .expr p => planSize p + 1
  | .or p q => planSize p + planSize q + 1

def planSize : List (Node α) → Nat
  | [] => 0
  | node :: next => node.size + planSize next

end

/-- Put the node behind exclamation marks into the last of them, if there is an odd number. -/
def notLoop : Nat → List (Node α) → Except Complaint (List (Node α))
  | 0, _ => .ok []
  | _ + 1, [] => .ok []
  | fuel + 1, .expr p :: plan => do
      let p ← notLoop fuel p
      let result ← notLoop fuel plan
      .ok (.expr p :: result)
  | fuel + 1, .not _ :: plan => do
      let notlevel := 1 + (plan.takeWhile Node.isNot).length
      match plan.dropWhile Node.isNot with
      | [] => .error .noFollowing
      | .or _ _ :: _ => .error .nothingBetween
      | .expr p :: plan =>
          let p ← notLoop fuel p
          let result ← notLoop fuel plan
          .ok ((if notlevel % 2 ≠ 1 then .expr p else .not [.expr p]) :: result)
      | node :: plan =>
          let result ← notLoop fuel plan
          .ok ((if notlevel % 2 ≠ 1 then node else .not [node]) :: result)
  | fuel + 1, next :: plan => do
      let result ← notLoop fuel plan
      .ok (next :: result)

def notSquish (plan : List (Node α)) : Except Complaint (List (Node α)) :=
  notLoop (planSize plan + 1) plan

/-- Put what has been collected before `-o`, and all behind it, into the node of `-o`. -/
def orLoop : Nat → List (Node α) → List (Node α) → Except Complaint (List (Node α))
  | 0, _, result => .ok result
  | _ + 1, [], result => .ok result
  | fuel + 1, .expr p :: plan, result => do
      let p ← orLoop fuel p []
      orLoop fuel plan (result ++ [.expr p])
  | fuel + 1, .not p :: plan, result => do
      let p ← orLoop fuel p []
      orLoop fuel plan (result ++ [.not p])
  | fuel + 1, .or _ _ :: plan, result =>
      if result.isEmpty then .error .noneBefore
      else do
        let rest ← orLoop fuel plan []
        if rest.isEmpty then .error .noneAfter else .ok [.or result rest]
  | fuel + 1, next :: plan, result => orLoop fuel plan (result ++ [next])

def orSquish (plan : List (Node α)) : Except Complaint (List (Node α)) :=
  orLoop (planSize plan + 1) plan []

/-- The three passes in the order of precedence. -/
def squish (plan : List (Node α)) : Except Complaint (List (Node α)) := do
  let plan ← parenSquish plan
  let plan ← notSquish plan
  orSquish plan

/-- `isoutput` is set by some primary. -/
def hasOutput (isoutput : α → Bool) (argv : List (Word α)) : Bool :=
  argv.any fun word => match word with | .prim a => isoutput a | _ => false

/-- The plan for arguments; without an output primary `-print` is assumed. -/
def findFormplan (isoutput : α → Bool) (print : α) (argv : List (Word α)) :
    Except Complaint (List (Node α)) :=
  let plan := argv.filterMap findCreate
  if hasOutput isoutput argv then squish plan
  else if plan.isEmpty then squish [.prim print]
  else squish (.openparen :: plan ++ [.closeparen, .prim print])

mutual

/-- `eval`: what a node says of a file, and what its primaries have done. -/
def Node.eval (step : α → σ → Bool × σ) : Node α → σ → Bool × σ
  | .prim a, s => step a s
  | .openparen, s => (false, s)
  | .closeparen, s => (false, s)
  | .expr p, s => evalPlan step p s
  | .not p, s => (!(evalPlan step p s).1, (evalPlan step p s).2)
  | .or p q, s =>
      if (evalPlan step p s).1 then evalPlan step p s else evalPlan step q (evalPlan step p s).2

/-- The loop over the nodes of a plan, which ends at the first that is false. -/
def evalPlan (step : α → σ → Bool × σ) : List (Node α) → σ → Bool × σ
  | [], s => (false, s)
  | [node], s => node.eval step s
  | node :: next, s =>
      if (node.eval step s).1 then evalPlan step next (node.eval step s).2 else node.eval step s

end

theorem evalPlan_keeps {step : α → σ → Bool × σ} {inv : σ → Prop}
    (each : ∀ a s, inv s → inv (step a s).2) (n : Nat) :
    ∀ plan : List (Node α), planSize plan ≤ n → ∀ s, inv s → inv (evalPlan step plan s).2 := by
  induction n with
  | zero =>
      intro plan small s holds
      cases plan with
      | nil => exact holds
      | cons node next =>
          have one : 0 < node.size := by cases node <;> simp [Node.size]
          simp only [planSize] at small
          omega
  | succ n ih =>
      intro plan small
      induction plan with
      | nil => exact fun s holds => holds
      | cons node next inner =>
          intro s holds
          simp only [planSize] at small
          have here : inv (node.eval step s).2 := by
            cases node with
            | prim a => exact each a s holds
            | openparen => exact holds
            | closeparen => exact holds
            | not p =>
                simp only [Node.size] at small
                exact ih p (by omega) s holds
            | or p q =>
                simp only [Node.size] at small
                have left := ih p (by omega) s holds
                rw [Node.eval]
                split
                · exact left
                · exact ih q (by omega) _ left
            | expr p =>
                simp only [Node.size] at small
                exact ih p (by omega) s holds
          cases next with
          | nil => exact here
          | cons more next =>
              rw [evalPlan]
              split
              · exact inner (by omega) _ here
              · exact here
              · simp

end Netbase.Find
