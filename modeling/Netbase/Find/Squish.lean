import Netbase.Find.Paren
import Netbase.Lib.Outcome

/-!
# Exclamation marks and `-o`

The second and the third pass succeed on the plans that spell a sentence, and the plan that
comes out says of every file what the sentence says.
-/

namespace Netbase.Find

open Netbase.Lib

variable {α : Type}

/-- `or_squish` with something collected already. -/
def orFrom (plan result : List (Node α)) : Except Complaint (List (Node α)) :=
  orLoop (planSize plan + 1) plan result

theorem planSize_dropWhile (test : Node α → Bool) (plan : List (Node α)) :
    planSize (plan.dropWhile test) ≤ planSize plan := by
  induction plan with
  | nil => exact Nat.le_refl _
  | cons node next ih =>
      simp only [List.dropWhile_cons]
      split
      · rw [planSize]
        omega
      · exact Nat.le_refl _

theorem notLoop_fuel (fuel : Nat) :
    ∀ (plan : List (Node α)) (fuel' : Nat), planSize plan < fuel → planSize plan < fuel' →
      notLoop fuel plan = notLoop fuel' plan := by
  induction fuel with
  | zero => intro plan fuel' enough; omega
  | succ fuel ih =>
      intro plan fuel' enough enough'
      obtain ⟨fuel', rfl⟩ : ∃ k, fuel' = k + 1 := ⟨fuel' - 1, by omega⟩
      cases plan with
      | nil => rfl
      | cons node plan =>
          have one := planSize_pos node
          simp only [planSize] at enough enough'
          have rest := ih plan fuel' (by omega) (by omega)
          cases node with
          | expr p =>
              simp only [Node.size] at enough enough'
              simp only [notLoop, rest, ih p fuel' (by omega) (by omega)]
          | not p =>
              simp only [notLoop]
              have shorter := planSize_dropWhile Node.isNot plan
              cases found : plan.dropWhile Node.isNot with
              | nil => rfl
              | cons base behind =>
                  rw [found] at shorter
                  simp only [planSize] at shorter
                  have more := ih behind fuel' (by omega) (by omega)
                  cases base with
                  | expr q =>
                      simp only [Node.size] at shorter
                      simp only [more, ih q fuel' (by omega) (by omega)]
                  | _ => simp only [more]
          | _ => simp only [notLoop, rest]

theorem orLoop_fuel (fuel : Nat) :
    ∀ (plan result : List (Node α)) (fuel' : Nat), planSize plan < fuel → planSize plan < fuel' →
      orLoop fuel plan result = orLoop fuel' plan result := by
  induction fuel with
  | zero => intro plan result fuel' enough; omega
  | succ fuel ih =>
      intro plan result fuel' enough enough'
      obtain ⟨fuel', rfl⟩ : ∃ k, fuel' = k + 1 := ⟨fuel' - 1, by omega⟩
      cases plan with
      | nil => rfl
      | cons node plan =>
          have one := planSize_pos node
          simp only [planSize] at enough enough'
          have rest := fun result => ih plan result fuel' (by omega) (by omega)
          cases node with
          | expr p =>
              simp only [Node.size] at enough enough'
              simp only [orLoop, rest, ih p [] fuel' (by omega) (by omega)]
          | not p =>
              simp only [Node.size] at enough enough'
              simp only [orLoop, rest, ih p [] fuel' (by omega) (by omega)]
          | _ => simp only [orLoop, rest]

section
variable (p q plan result : List (Node α))

theorem notSquish_expr :
    notSquish (.expr p :: plan) = (do
      let p ← notSquish p
      let rest ← notSquish plan
      .ok (.expr p :: rest)) := by
  have inner := notLoop_fuel (planSize (.expr p :: plan)) p (planSize p + 1)
    (by simp only [planSize, Node.size]; omega) (by omega)
  have behind := notLoop_fuel (planSize (.expr p :: plan)) plan (planSize plan + 1)
    (by simp only [planSize, Node.size]; omega) (by omega)
  rw [notSquish, notLoop, inner, behind]
  rfl

theorem notSquish_prim (a : α) :
    notSquish (.prim a :: plan) = (do
      let rest ← notSquish plan
      .ok (.prim a :: rest)) := by
  have behind := notLoop_fuel (planSize (.prim a :: plan)) plan (planSize plan + 1)
    (by simp only [planSize, Node.size]; omega) (by omega)
  rw [notSquish, notLoop, behind]
  · rfl
  all_goals simp

theorem notSquish_or :
    notSquish (.or p q :: plan) = (do
      let rest ← notSquish plan
      .ok (.or p q :: rest)) := by
  have behind := notLoop_fuel (planSize (.or p q :: plan)) plan (planSize plan + 1)
    (by simp only [planSize, Node.size]; omega) (by omega)
  rw [notSquish, notLoop, behind]
  · rfl
  all_goals simp

end

/-- A number of exclamation marks in front of a node, as they are left. -/
def negated (notlevel : Nat) (node : Node α) : Node α :=
  if notlevel % 2 ≠ 1 then node else .not [node]

/-- Exclamation marks. -/
def marks (k : Nat) : List (Node α) := List.replicate k (.not [])

theorem takeWhile_marks (base : Node α) (other : base.isNot = false) (k : Nat)
    (plan : List (Node α)) :
    (marks k ++ base :: plan).takeWhile Node.isNot = marks k ∧
      (marks k ++ base :: plan).dropWhile Node.isNot = base :: plan := by
  induction k with
  | zero => simp [marks, other]
  | succ k ih =>
      have first : (Node.not [] : Node α).isNot = true := rfl
      simp only [marks, List.replicate_succ, List.cons_append, List.takeWhile_cons,
        List.dropWhile_cons, first, if_true] at ih ⊢
      rw [ih.1, ih.2]
      exact ⟨rfl, rfl⟩

theorem notSquish_marks_prim (k : Nat) (a : α) (plan : List (Node α)) :
    notSquish (marks k ++ .prim a :: plan) = (do
      let rest ← notSquish plan
      .ok (negated k (.prim a) :: rest)) := by
  cases k with
  | zero => exact notSquish_prim plan a
  | succ k =>
      obtain ⟨taken, dropped⟩ := takeWhile_marks (Node.prim a) rfl k plan
      have size : planSize plan < planSize (marks (k + 1) ++ .prim a :: plan) := by
        have shorter := planSize_dropWhile Node.isNot (marks (k + 1) ++ .prim a :: plan)
        rw [(takeWhile_marks (Node.prim a) rfl (k + 1) plan).2] at shorter
        simp only [planSize, Node.size] at shorter
        omega
      have behind := notLoop_fuel _ plan (planSize plan + 1) size (by omega)
      have number : 1 + (marks k : List (Node α)).length = k + 1 := by simp [marks]; omega
      rw [notSquish]
      change notLoop _ (.not [] :: (marks k ++ .prim a :: plan)) = _
      rw [notLoop, taken, dropped, number]
      change (notLoop (planSize (marks (k + 1) ++ .prim a :: plan)) plan >>= _) = _
      rw [behind]
      rfl

theorem notSquish_marks_expr (k : Nat) (p plan : List (Node α)) :
    notSquish (marks k ++ .expr p :: plan) = (do
      let p ← notSquish p
      let rest ← notSquish plan
      .ok (negated k (.expr p) :: rest)) := by
  cases k with
  | zero => exact notSquish_expr p plan
  | succ k =>
      obtain ⟨taken, dropped⟩ := takeWhile_marks (Node.expr p) rfl k plan
      have size : planSize p + planSize plan < planSize (marks (k + 1) ++ .expr p :: plan) := by
        have shorter := planSize_dropWhile Node.isNot (marks (k + 1) ++ .expr p :: plan)
        rw [(takeWhile_marks (Node.expr p) rfl (k + 1) plan).2] at shorter
        simp only [planSize, Node.size] at shorter
        omega
      have inner := notLoop_fuel (planSize (marks (k + 1) ++ .expr p :: plan)) p
        (planSize p + 1) (by omega) (by omega)
      have behind := notLoop_fuel (planSize (marks (k + 1) ++ .expr p :: plan)) plan
        (planSize plan + 1) (by omega) (by omega)
      have number : 1 + (marks k : List (Node α)).length = k + 1 := by simp [marks]; omega
      rw [notSquish]
      change notLoop _ (.not [] :: (marks k ++ .expr p :: plan)) = _
      rw [notLoop, taken, dropped, number]
      change (notLoop (planSize (marks (k + 1) ++ .expr p :: plan)) p >>= _) = _
      rw [inner, behind]
      rfl

section
variable (p q plan result : List (Node α))

theorem orFrom_prim (a : α) :
    orFrom (.prim a :: plan) result = orFrom plan (result ++ [.prim a]) := by
  rw [orFrom, orLoop]
  · exact orLoop_fuel _ plan _ _ (by simp only [planSize, Node.size]; omega) (by omega)
  all_goals simp

theorem orFrom_expr :
    orFrom (.expr p :: plan) result = (do
      let p ← orSquish p
      orFrom plan (result ++ [.expr p])) := by
  have inner := orLoop_fuel (planSize (.expr p :: plan)) p [] (planSize p + 1)
    (by simp only [planSize, Node.size]; omega) (by omega)
  have behind := fun result => orLoop_fuel (planSize (.expr p :: plan)) plan result
    (planSize plan + 1) (by simp only [planSize, Node.size]; omega) (by omega)
  simp only [orFrom, orLoop, inner, behind]
  rfl

theorem orFrom_not :
    orFrom (.not p :: plan) result = (do
      let p ← orSquish p
      orFrom plan (result ++ [.not p])) := by
  have inner := orLoop_fuel (planSize (.not p :: plan)) p [] (planSize p + 1)
    (by simp only [planSize, Node.size]; omega) (by omega)
  have behind := fun result => orLoop_fuel (planSize (.not p :: plan)) plan result
    (planSize plan + 1) (by simp only [planSize, Node.size]; omega) (by omega)
  simp only [orFrom, orLoop, inner, behind]
  rfl

theorem orFrom_or :
    orFrom (.or p q :: plan) result =
      if result.isEmpty then .error .noneBefore
      else (do
        let rest ← orSquish plan
        if rest.isEmpty then .error .noneAfter else .ok [.or result rest]) := by
  have behind := orLoop_fuel (planSize (.or p q :: plan)) plan [] (planSize plan + 1)
    (by simp only [planSize, Node.size]; omega) (by omega)
  simp only [orFrom, orLoop, behind]
  rfl

end

/-- Behind an expression or a primary under a number of exclamation marks the third pass
goes on. -/
theorem orFrom_negated {base base' : Node α}
    (step : ∀ plan result, orFrom (base :: plan) result = orFrom plan (result ++ [base']))
    (k : Nat) (plan result : List (Node α)) :
    orFrom (negated k base :: plan) result = orFrom plan (result ++ [negated k base']) := by
  unfold negated
  split
  · exact step plan result
  · have alone : orSquish [base] = .ok [base'] := by
      have run := step [] []
      exact run
    rw [orFrom_not, alone]
    rfl

end Netbase.Find
