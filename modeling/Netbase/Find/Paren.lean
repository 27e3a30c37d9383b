import Netbase.Find.Grammar

/-!
# Parentheses

`paren_squish` finds the plan whose nodes spell the arguments, if there is one.
-/

namespace Netbase.Find

variable {α : Type}

theorem yankexpr_word {w : Word α} {node : Node α} (made : findCreate w = some node)
    (single : w ≠ .openparen) (fuel : Nat) (rest : List (Node α)) :
    yankexpr (fuel + 1) (node :: rest) = .ok (some (node, rest)) := by
  cases w with
  | openparen => exact absurd rfl single
  | and => cases made
  | _ =>
      cases made
      rfl

theorem length_create_words (node : Node α) (next : List (Node α)) :
    (create (planWords (node :: next))).length =
      (create node.words).length + (create (planWords next)).length := by
  simp [planWords]

theorem create_expr (q : List (Node α)) :
    create (Node.expr q).words = .openparen :: (create (planWords q) ++ [.closeparen]) := by
  rw [Node.words, create_cons _ rfl, create_append]
  rfl

theorem Node.Paired.create_words {node : Node α} (paired : node.Paired)
    (simple : ∀ q, node ≠ .expr q) :
    ∃ w : Word α, findCreate w = some node ∧ w ≠ .openparen ∧ w ≠ .closeparen ∧
      create node.words = [node] := by
  cases node with
  | prim a => exact ⟨.prim a, rfl, by simp, by simp, rfl⟩
  | openparen => exact paired.elim
  | closeparen => exact paired.elim
  | not p =>
      obtain rfl : p = [] := paired
      exact ⟨.not, rfl, by simp, by simp, rfl⟩
  | or p q =>
      obtain ⟨rfl, rfl⟩ := paired
      exact ⟨.or, rfl, by simp, by simp, rfl⟩
  | expr q => exact absurd rfl (simple q)

theorem slurp_words (n : Nat) :
    ∀ (p : List (Node α)), planSize p ≤ n → PlanPaired p →
      ∀ (fuel : Nat) (rest sub : List (Node α)),
        2 * (create (planWords p)).length + 2 ≤ fuel → sub ++ p ≠ [] →
        slurp fuel (create (planWords p) ++ .closeparen :: rest) sub = .ok (sub ++ p, rest) := by
  induction n with
  | zero =>
      intro p small paired fuel rest sub enough some
      cases p with
      | cons node next =>
          have one := planSize_pos node
          simp only [planSize] at small
          omega
      | nil =>
          obtain ⟨fuel, rfl⟩ : ∃ k, fuel = k + 2 := ⟨fuel - 2, by omega⟩
          rw [List.append_nil] at some ⊢
          cases sub with
          | nil => exact absurd rfl some
          | cons first sub => rfl
  | succ n ih =>
      intro p small paired
      induction p with
      | nil =>
          intro fuel rest sub enough some
          exact ih [] (Nat.zero_le _) trivial fuel rest sub enough some
      | cons node next inner =>
          intro fuel rest sub enough some
          have long := length_create_words node next
          simp only [planSize] at small
          have behind : ∀ fuel', 2 * (create (planWords next)).length + 2 ≤ fuel' →
              slurp fuel' (create (planWords next) ++ .closeparen :: rest) (sub ++ [node]) =
                .ok (sub ++ node :: next, rest) := by
            intro fuel' enough'
            have step := inner (by omega) paired.2 fuel' rest (sub ++ [node]) enough' (by simp)
            rwa [List.append_assoc, List.singleton_append] at step
          obtain ⟨fuel, rfl⟩ : ∃ k, fuel = k + 1 := ⟨fuel - 1, by omega⟩
          rw [planWords, create_append, List.append_assoc]
          by_cases simple : ∀ q, node ≠ .expr q
          · obtain ⟨w, made, notOpen, notClose, spelled⟩ := paired.1.create_words simple
            rw [spelled] at long ⊢
            obtain ⟨fuel, rfl⟩ : ∃ k, fuel = k + 1 := ⟨fuel - 1, by omega⟩
            have yanked := yankexpr_word made notOpen fuel
              (create (planWords next) ++ .closeparen :: rest)
            rw [slurp, List.singleton_append, yanked]
            cases w with
            | closeparen => exact absurd rfl notClose
            | and => cases made
            | _ =>
                cases made
                exact behind _ (by simp at long; omega)
          · obtain ⟨q, rfl⟩ : ∃ q, node = .expr q := by simpa using simple
            have spelled := create_expr q
            simp only [spelled, List.length_cons, List.length_append] at long
            obtain ⟨fuel, rfl⟩ : ∃ k, fuel = k + 1 := ⟨fuel - 1, by omega⟩
            have body := ih q (by simp only [Node.size] at small; omega) paired.1.2 fuel
              (create (planWords next) ++ .closeparen :: rest) [] (by omega) paired.1.1
            have yanked : yankexpr (fuel + 1) (create (Node.expr q).words ++
                (create (planWords next) ++ .closeparen :: rest)) =
                .ok (Option.some (.expr q, create (planWords next) ++ .closeparen :: rest)) := by
              rw [spelled, List.cons_append, List.append_assoc, List.singleton_append, yankexpr,
                body]
              rfl
            rw [slurp, yanked]
            exact behind _ (by omega)

theorem yankexpr_words {node : Node α} (paired : node.Paired) (rest : List (Node α)) (fuel : Nat)
    (enough : 2 * (create node.words).length + 1 ≤ fuel) :
    yankexpr fuel (create node.words ++ rest) = .ok (some (node, rest)) := by
  obtain ⟨fuel, rfl⟩ : ∃ k, fuel = k + 1 := ⟨fuel - 1, by omega⟩
  by_cases simple : ∀ q, node ≠ .expr q
  · obtain ⟨w, made, notOpen, _, spelled⟩ := paired.create_words simple
    rw [spelled]
    exact yankexpr_word made notOpen fuel rest
  · obtain ⟨q, rfl⟩ : ∃ q, node = .expr q := by simpa using simple
    rw [create_expr] at enough ⊢
    simp only [List.length_cons, List.length_append] at enough
    have body := slurp_words _ q (Nat.le_refl _) paired.2 fuel rest [] (by omega) paired.1
    rw [List.cons_append, List.append_assoc, List.singleton_append, yankexpr, body]
    rfl

theorem Node.Paired.not_closeparen {node : Node α} (paired : node.Paired) :
    node ≠ .closeparen := by
  rintro rfl
  exact paired

theorem parenLoop_words (p : List (Node α)) (paired : PlanPaired p) (fuel : Nat)
    (result : List (Node α)) (enough : p.length < fuel) :
    parenLoop fuel (create (planWords p)) result = .ok (result ++ p) := by
  induction p generalizing fuel result with
  | nil =>
      obtain ⟨fuel, rfl⟩ : ∃ k, fuel = k + 1 := ⟨fuel - 1, by simp at enough; omega⟩
      rw [List.append_nil]
      rfl
  | cons node next ih =>
      simp only [List.length_cons] at enough
      obtain ⟨fuel, rfl⟩ : ∃ k, fuel = k + 1 := ⟨fuel - 1, by omega⟩
      have yanked := yankexpr_words paired.1 (create (planWords next))
        (yanks (create (planWords (node :: next)))) (by
          rw [yanks, length_create_words]
          omega)
      rw [planWords, create_append] at yanked ⊢
      rw [parenLoop, yanked]
      have step := ih paired.2 fuel (result ++ [node]) (by omega)
      rw [List.append_assoc, List.singleton_append] at step
      have other := paired.1.not_closeparen
      cases node with
      | closeparen => exact absurd rfl other
      | _ => exact step

theorem length_le_create (p : List (Node α)) (paired : PlanPaired p) :
    p.length ≤ (create (planWords p)).length := by
  induction p with
  | nil => exact Nat.zero_le _
  | cons node next ih =>
      have rest := ih paired.2
      have one : 1 ≤ (create node.words).length := by
        by_cases simple : ∀ q, node ≠ .expr q
        · obtain ⟨_, _, _, _, spelled⟩ := paired.1.create_words simple
          rw [spelled]
          exact Nat.le_refl _
        · obtain ⟨q, rfl⟩ : ∃ q, node = .expr q := by simpa using simple
          rw [create_expr]
          simp
      rw [length_create_words, List.length_cons]
      omega

/-- A plan is found again from the arguments it spells. -/
theorem parenSquish_words (p : List (Node α)) (paired : PlanPaired p) :
    parenSquish (create (planWords p)) = .ok p := by
  have enough := length_le_create p paired
  exact parenLoop_words p paired _ [] (by omega)

/-- What is collected from the nodes of arguments spells them. -/
theorem yanked_words (fuel : Nat) :
    (∀ {ws : List (Word α)} {node : Node α} {rest : List (Node α)},
      yankexpr fuel (create ws) = .ok (some (node, rest)) →
        ∃ vs, rest = create vs ∧ (node = .closeparen ∧ create ws = .closeparen :: rest ∨
          node.Paired ∧ create ws = create node.words ++ rest)) ∧
    (∀ {ws : List (Word α)} {sub sub' rest : List (Node α)},
      slurp fuel (create ws) sub = .ok (sub', rest) →
        ∃ vs p, rest = create vs ∧ sub' = sub ++ p ∧ sub' ≠ [] ∧ PlanPaired p ∧
          create ws = create (planWords p) ++ .closeparen :: rest) := by
  induction fuel with
  | zero =>
      constructor
      · intro ws node rest run
        cases made : create ws with
        | nil => rw [made] at run; cases run
        | cons first plan => rw [made] at run; cases run
      · intro ws sub sub' rest run
        cases run
  | succ fuel ih =>
      constructor
      · intro ws
        induction ws with
        | nil => intro node rest run; cases run
        | cons w ws inner =>
            intro node rest run
            cases w with
            | and => exact inner run
            | openparen =>
                rw [create_cons Node.openparen rfl] at run ⊢
                rw [yankexpr] at run
                cases collected : slurp fuel (create ws) [] with
                | error e => rw [collected] at run; cases run
                | ok found =>
                    rw [collected] at run
                    cases run
                    obtain ⟨vs, p, same, rfl, some, paired, spelled⟩ := ih.2 collected
                    refine ⟨vs, same, Or.inr ⟨⟨some, paired⟩, ?_⟩⟩
                    rw [spelled, create_expr]
                    simp
            | closeparen =>
                cases run
                exact ⟨ws, rfl, Or.inl ⟨rfl, rfl⟩⟩
            | prim a =>
                cases run
                exact ⟨ws, rfl, Or.inr ⟨trivial, rfl⟩⟩
            | not =>
                cases run
                exact ⟨ws, rfl, Or.inr ⟨rfl, rfl⟩⟩
            | or =>
                cases run
                exact ⟨ws, rfl, Or.inr ⟨⟨rfl, rfl⟩, rfl⟩⟩
      · intro ws sub sub' rest run
        rw [slurp] at run
        cases yanked : yankexpr fuel (create ws) with
        | error e => rw [yanked] at run; cases run
        | ok found =>
            cases found with
            | none => rw [yanked] at run; cases run
            | some found =>
                obtain ⟨node, plan⟩ := found
                obtain ⟨vs, rfl, closing⟩ := ih.1 yanked
                rw [yanked] at run
                rcases closing with ⟨rfl, spelled⟩ | ⟨paired, spelled⟩
                · simp only at run
                  split at run
                  · cases run
                  · next some =>
                      cases run
                      refine ⟨vs, [], rfl, by simp, ?_, trivial, spelled⟩
                      simpa using some
                · have more : slurp fuel (create vs) (sub ++ [node]) = .ok (sub', rest) := by
                    cases node with
                    | closeparen => exact paired.elim
                    | _ => exact run
                  obtain ⟨us, p, same, rfl, some, tail, behind⟩ := ih.2 more
                  refine ⟨us, node :: p, same, by simp, some, ⟨paired, tail⟩, ?_⟩
                  rw [spelled, behind, planWords, create_append, List.append_assoc]

theorem parenLoop_spells (fuel : Nat) {ws : List (Word α)} {result plan : List (Node α)}
    (enough : (create ws).length < fuel)
    (run : parenLoop fuel (create ws) result = .ok plan) :
    ∃ p, plan = result ++ p ∧ PlanPaired p ∧ create ws = create (planWords p) := by
  induction fuel generalizing ws result with
  | zero => omega
  | succ fuel ih =>
      rw [parenLoop] at run
      cases yanked : yankexpr (yanks (create ws)) (create ws) with
      | error e => rw [yanked] at run; cases run
      | ok found =>
          rw [yanked] at run
          cases found with
          | none =>
              cases run
              refine ⟨[], by simp, trivial, ?_⟩
              cases made : create ws with
              | nil => rfl
              | cons first rest =>
                  rw [made] at yanked
                  obtain ⟨k, more⟩ : ∃ k, yanks (first :: rest) = k + 1 := ⟨_, rfl⟩
                  rw [more] at yanked
                  cases first with
                  | openparen =>
                      rw [yankexpr] at yanked
                      cases collected : slurp k rest [] with
                      | error e => rw [collected] at yanked; cases yanked
                      | ok found => rw [collected] at yanked; cases yanked
                  | _ => cases yanked
          | some found =>
              obtain ⟨node, rest⟩ := found
              obtain ⟨vs, rfl, closing⟩ := (yanked_words _).1 yanked
              rcases closing with ⟨rfl, _⟩ | ⟨paired, spelled⟩
              · cases run
              · have more : parenLoop fuel (create vs) (result ++ [node]) = .ok plan := by
                  cases node with
                  | closeparen => exact paired.elim
                  | _ => exact run
                have shorter : 1 ≤ (create node.words).length := by
                  have one := length_le_create [node] ⟨paired, trivial⟩
                  simpa [planWords] using one
                rw [spelled, List.length_append] at enough
                obtain ⟨p, rfl, tail, behind⟩ := ih (by omega) more
                refine ⟨node :: p, by simp, ⟨paired, tail⟩, ?_⟩
                rw [spelled, behind, planWords, create_append]

theorem parenSquish_iff {ws : List (Word α)} {p : List (Node α)} :
    parenSquish (create ws) = .ok p ↔ PlanPaired p ∧ planWords p = significant ws := by
  constructor
  · intro run
    obtain ⟨q, rfl, paired, spelled⟩ := parenLoop_spells _ (Nat.lt_succ_self _) run
    exact ⟨paired, planWords_of_create spelled⟩
  · rintro ⟨paired, spelled⟩
    rw [← create_significant, ← spelled]
    exact parenSquish_words p paired

end Netbase.Find
