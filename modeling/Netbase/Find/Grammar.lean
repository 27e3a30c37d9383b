import Netbase.Find.Plan

/-!
# The grammar of search expressions

Exclamation marks bind closer than juxtaposition and juxtaposition closer than `-o`.  A plan
whose parentheses have become nodes still spells the arguments it was made of.
-/

namespace Netbase.Find

variable {α σ : Type}

/-- What a search expression says. -/
inductive Expr (α : Type) where
  | prim (a : α)
  | not (e : Expr α)
  | and (e f : Expr α)
  | or (e f : Expr α)

/-- Evaluation from left to right, as far as the value is open. -/
def Expr.eval (step : α → σ → Bool × σ) : Expr α → σ → Bool × σ
  | .prim a, s => step a s
  | .not e, s => (!(e.eval step s).1, (e.eval step s).2)
  | .and e f, s => if (e.eval step s).1 then f.eval step (e.eval step s).2 else e.eval step s
  | .or e f, s => if (e.eval step s).1 then e.eval step s else f.eval step (e.eval step s).2

inductive Level where
  | factor
  | term
  | expression

/-- The reading of a list of arguments without `-a`. -/
inductive Reads : Level → List (Word α) → Expr α → Prop
  | prim (a : α) : Reads .factor [.prim a] (.prim a)
  | paren {ws : List (Word α)} {e : Expr α} (inner : Reads .expression ws e) :
      Reads .factor (.openparen :: (ws ++ [.closeparen])) e
  | not {ws : List (Word α)} {e : Expr α} (inner : Reads .factor ws e) :
      Reads .factor (.not :: ws) (.not e)
  | single {ws : List (Word α)} {e : Expr α} (inner : Reads .factor ws e) : Reads .term ws e
  | and {ws vs : List (Word α)} {e f : Expr α} (first : Reads .factor ws e)
      (rest : Reads .term vs f) : Reads .term (ws ++ vs) (.and e f)
  | alone {ws : List (Word α)} {e : Expr α} (inner : Reads .term ws e) : Reads .expression ws e
  | or {ws vs : List (Word α)} {e f : Expr α} (first : Reads .term ws e)
      (rest : Reads .expression vs f) : Reads .expression (ws ++ .or :: vs) (.or e f)

/-- The arguments are a sentence of the grammar. -/
def Sentence (ws : List (Word α)) : Prop := ∃ e, Reads .expression ws e

def Word.isAnd : Word α → Bool
  | .and => true
  | _ => false

/-- The arguments that count. -/
def significant (ws : List (Word α)) : List (Word α) := ws.filter fun w => !w.isAnd

mutual

/-- The arguments that a node stands for. -/
def Node.words : Node α → List (Word α)
  | .prim a => [.prim a]
  | .openparen => [.openparen]
  | .closeparen => [.closeparen]
  | .not _ => [.not]
  | .or _ _ => [.or]
  | .expr p => .openparen :: (planWords p ++ [.closeparen])

def planWords : List (Node α) → List (Word α)
  | [] => []
  | node :: next => node.words ++ planWords next

end

mutual

/-- A node behind the first pass. -/
def Node.Paired : Node α → Prop
  | .prim _ => True
  | .openparen => False
  | .closeparen => False
  | .not p => p = []
  | .or p q => p = [] ∧ q = []
  | .expr p => p ≠ [] ∧ PlanPaired p

def PlanPaired : List (Node α) → Prop
  | [] => True
  | node :: next => node.Paired ∧ PlanPaired next

end

/-- The nodes for arguments. -/
def create (ws : List (Word α)) : List (Node α) := ws.filterMap findCreate

@[simp]
theorem create_append (ws vs : List (Word α)) : create (ws ++ vs) = create ws ++ create vs := by
  simp [create]

theorem planWords_append (p q : List (Node α)) :
    planWords (p ++ q) = planWords p ++ planWords q := by
  induction p with
  | nil => rfl
  | cons node next ih => simp [planWords, ih]

theorem planPaired_append (p q : List (Node α)) :
    PlanPaired (p ++ q) ↔ PlanPaired p ∧ PlanPaired q := by
  induction p with
  | nil => simp [PlanPaired]
  | cons node next ih => simp [PlanPaired, ih, and_assoc]

/-- The argument that a node is made of. -/
def Node.word : Node α → Word α
  | .prim a => .prim a
  | .openparen => .openparen
  | .closeparen => .closeparen
  | .not _ => .not
  | .or _ _ => .or
  | .expr _ => .and

@[simp]
theorem create_and (ws : List (Word α)) : create (.and :: ws) = create ws := rfl

theorem create_cons {w : Word α} (node : Node α) (made : findCreate w = some node)
    (ws : List (Word α)) : create (w :: ws) = node :: create ws := by
  simp only [create, List.filterMap_cons, made]

theorem significant_cons {w : Word α} (counts : w.isAnd = false) (ws : List (Word α)) :
    significant (w :: ws) = w :: significant ws := by
  simp [significant, counts]

@[simp]
theorem significant_and (ws : List (Word α)) : significant (.and :: ws) = significant ws := rfl

theorem map_word_create (ws : List (Word α)) : (create ws).map Node.word = significant ws := by
  induction ws with
  | nil => rfl
  | cons w ws ih =>
      cases w with
      | and => exact ih
      | _ =>
          rw [create_cons _ rfl, significant_cons rfl, List.map_cons, ih]
          rfl

theorem create_significant (ws : List (Word α)) : create (significant ws) = create ws := by
  induction ws with
  | nil => rfl
  | cons w ws ih =>
      cases w with
      | and => exact ih
      | _ => rw [create_cons _ rfl, significant_cons rfl, create_cons _ rfl, ih]

theorem significant_append (ws vs : List (Word α)) :
    significant (ws ++ vs) = significant ws ++ significant vs := by
  simp [significant]

theorem planSize_pos (node : Node α) : 0 < node.size := by
  cases node <;> simp [Node.size]

/-- A plan spells no `-a`. -/
theorem significant_planWords (n : Nat) :
    ∀ p : List (Node α), planSize p ≤ n → significant (planWords p) = planWords p := by
  induction n with
  | zero =>
      intro p small
      cases p with
      | nil => rfl
      | cons node next =>
          have one := planSize_pos node
          simp only [planSize] at small
          omega
  | succ n ih =>
      intro p small
      cases p with
      | nil => rfl
      | cons node next =>
          have one := planSize_pos node
          simp only [planSize] at small
          have rest : significant (planWords next) = planWords next := ih next (by omega)
          rw [planWords, significant_append, rest]
          cases node with
          | expr q =>
              simp only [Node.size] at small
              have inner : significant (planWords q) = planWords q := ih q (by omega)
              rw [Node.words, significant_cons rfl, significant_append, inner]
              rfl
          | _ => rfl

theorem planWords_of_create {ws : List (Word α)} {p : List (Node α)}
    (same : create ws = create (planWords p)) : planWords p = significant ws := by
  rw [← map_word_create, same, map_word_create]
  exact (significant_planWords _ p (Nat.le_refl _)).symm

end Netbase.Find
