import Netbase.Find.Squish

/-!
# What a plan says

A plan is made exactly of the sentences of the grammar, and evaluating it is evaluating the
sentence.  The parentheses that `find_formplan` puts around the arguments are read together
with theirs, so arguments can become a sentence by them.
-/

namespace Netbase.Find

open Netbase.Lib

variable {α : Type}

def Says (plan : List (Node α)) (e : Expr α) : Prop :=
  ∀ {σ : Type} (step : α → σ → Bool × σ) (s : σ), evalPlan step plan s = e.eval step s

/-- The plan of a sentence, and what the passes make of it. -/
structure Squished (p q : List (Node α)) (e : Expr α) : Prop where
  paired : PlanPaired p
  nonempty : p ≠ []
  run : (notSquish p >>= orSquish) = .ok q
  kept : q ≠ []
  reading : Says q e

/-- A part of a plan that the passes turn into nodes of their own. -/
structure Juxtaposed (p nodes nodes' : List (Node α)) (e : Expr α) : Prop where
  paired : PlanPaired p
  nonempty : p ≠ []
  nots : ∀ rest, notSquish (p ++ rest) = (do
    let plan ← notSquish rest
    .ok (nodes ++ plan))
  ors : ∀ rest result, orFrom (nodes ++ rest) result = orFrom rest (result ++ nodes')
  kept : nodes' ≠ []
  reading : Says nodes' e

/-- An expression under exclamation marks. -/
def Expr.marked (e : Expr α) : Nat → Expr α
  | 0 => e
  | k + 1 => .not (e.marked k)

/-- A node without exclamation marks, and what it reads as. -/
inductive Base : Node α → Expr α → Prop
  | prim (a : α) : Base (.prim a) (.prim a)
  | expr {p q : List (Node α)} {e : Expr α} (inner : Squished p q e) : Base (.expr p) e

variable {p : List (Node α)} {e : Expr α}

variable {q nodes nodes' plan : List (Node α)} {ws : List (Word α)} {k : Nat}

theorem evalPlan_append {σ : Type} (step : α → σ → Bool × σ) (first : p ≠ []) (second : q ≠ [])
    (s : σ) :
    evalPlan step (p ++ q) s =
      if (evalPlan step p s).1 then evalPlan step q (evalPlan step p s).2
      else evalPlan step p s := by
  induction p generalizing s with
  | nil => exact absurd rfl first
  | cons node p ih =>
      cases p with
      | nil =>
          cases q with
          | nil => exact absurd rfl second
          | cons next q => rfl
      | cons next p =>
          simp only [List.cons_append, evalPlan]
          split
          · exact ih (by simp) _
          · rfl

theorem eval_negated {σ : Type} (step : α → σ → Bool × σ) {node : Node α}
    (same : ∀ s : σ, node.eval step s = e.eval step s) (k : Nat) (s : σ) :
    (negated k node).eval step s = (e.marked k).eval step s := by
  have twice : ∀ k, (e.marked (k + 2)).eval step s = (e.marked k).eval step s := by
    intro k
    simp only [Expr.marked, Expr.eval, Bool.not_not]
  have odd : ∀ k, (e.marked k).eval step s =
      if k % 2 = 1 then (!(e.eval step s).1, (e.eval step s).2) else e.eval step s := by
    intro k
    induction k using Nat.twoStepInduction with
    | zero => rfl
    | one => rfl
    | more k ih _ => rw [twice, ih, Nat.add_mod_right]
  rw [odd, negated]
  by_cases parity : k % 2 = 1
  · rw [if_neg (by simpa using parity), if_pos parity, Node.eval]
    simp only [evalPlan, same]
  · rw [if_pos parity, if_neg parity, same]

theorem planWords_marks (k : Nat) (base : Node α) :
    planWords (marks k ++ [base]) = List.replicate k .not ++ base.words := by
  rw [planWords_append]
  congr 1
  · induction k with
    | zero => rfl
    | succ k ih =>
        simp only [marks, List.replicate_succ, planWords, Node.words] at ih ⊢
        rw [ih]
        rfl
  · simp [planWords]

theorem planPaired_marks (k : Nat) : PlanPaired (marks k : List (Node α)) := by
  induction k with
  | zero => trivial
  | succ k ih => exact ⟨rfl, ih⟩

theorem Base.juxtaposed {base : Node α} (based : Base base e) (k : Nat) :
    ∃ nodes nodes', Juxtaposed (marks k ++ [base]) nodes nodes' (e.marked k) := by
  cases based with
  | prim a =>
      refine ⟨[negated k (.prim a)], [negated k (.prim a)], ⟨?_, by simp, ?_, ?_, by simp, ?_⟩⟩
      · exact (planPaired_append _ _).mpr ⟨planPaired_marks k, trivial, trivial⟩
      · intro rest
        rw [List.append_assoc]
        exact notSquish_marks_prim k a rest
      · intro rest result
        exact orFrom_negated (fun plan result => orFrom_prim plan result a) k rest result
      · intro σ step s
        exact eval_negated step (fun _ => rfl) k s
  | @expr p q e inner =>
      obtain ⟨p', nots, ors⟩ := except_bind_ok.mp inner.run
      refine ⟨[negated k (.expr p')], [negated k (.expr q)],
        ⟨?_, by simp, ?_, ?_, by simp, ?_⟩⟩
      · exact (planPaired_append _ _).mpr
          ⟨planPaired_marks k, ⟨inner.nonempty, inner.paired⟩, trivial⟩
      · intro rest
        rw [List.append_assoc]
        change notSquish (marks k ++ .expr p :: rest) = _
        rw [notSquish_marks_expr, nots]
        rfl
      · intro rest result
        refine orFrom_negated (fun plan result => ?_) k rest result
        rw [orFrom_expr, ors]
        rfl
      · intro σ step s
        refine eval_negated step (fun s => ?_) k s
        rw [Node.eval]
        exact inner.reading step s

theorem Juxtaposed.append {more more' : List (Node α)} {f : Expr α}
    (first : Juxtaposed p nodes nodes' e) (second : Juxtaposed q more more' f) :
    Juxtaposed (p ++ q) (nodes ++ more) (nodes' ++ more') (.and e f) := by
  refine ⟨(planPaired_append _ _).mpr ⟨first.paired, second.paired⟩, ?_, ?_, ?_, ?_, ?_⟩
  · exact fun empty => first.nonempty (List.append_eq_nil_iff.mp empty).1
  · intro rest
    rw [List.append_assoc, first.nots, second.nots]
    cases notSquish rest with
    | error e => rfl
    | ok plan => simp only [bind, Except.bind, List.append_assoc]
  · intro rest result
    rw [List.append_assoc, first.ors, second.ors, List.append_assoc]
  · exact fun empty => first.kept (List.append_eq_nil_iff.mp empty).1
  · intro σ step s
    rw [evalPlan_append step first.kept second.kept, Expr.eval, first.reading, second.reading]

theorem Juxtaposed.squished (term : Juxtaposed p nodes nodes' e) :
    Squished p nodes' e := by
  refine ⟨term.paired, term.nonempty, ?_, term.kept, term.reading⟩
  have nots := term.nots []
  have ors := term.ors [] []
  rw [List.append_nil] at nots ors
  rw [nots]
  change orFrom (nodes ++ []) [] = _
  rw [List.append_nil, ors]
  rfl

theorem Juxtaposed.or {q' : List (Node α)} {f : Expr α} (first : Juxtaposed p nodes nodes' e)
    (rest : Squished q q' f) :
    Squished (p ++ .or [] [] :: q) [.or nodes' q'] (.or e f) := by
  obtain ⟨plan, nots, ors⟩ := except_bind_ok.mp rest.run
  refine ⟨?_, by simp, ?_, by simp, ?_⟩
  · exact (planPaired_append _ _).mpr ⟨first.paired, ⟨rfl, rfl⟩, rest.paired⟩
  · have found := first.kept
    have behind := rest.kept
    rw [first.nots, notSquish_or, nots]
    change orFrom (nodes ++ .or [] [] :: plan) [] = _
    rw [first.ors, orFrom_or, ors, List.nil_append]
    simp [found, behind, bind, Except.bind]
  · intro σ step s
    rw [evalPlan, Node.eval, Expr.eval, first.reading, rest.reading]

/-- Sentences and their parts are what plans spell. -/
def Found : Level → List (Word α) → Expr α → Prop
  | .factor, ws, e => ∃ k base e', ws = List.replicate k .not ++ base.words ∧ Base base e' ∧
      e = e'.marked k
  | .term, ws, e => ∃ p nodes nodes', planWords p = ws ∧ Juxtaposed p nodes nodes' e
  | .expression, ws, e => ∃ p q, planWords p = ws ∧ Squished p q e

theorem Reads.found {level : Level} (reads : Reads level ws e) :
    Found level ws e := by
  have step {ws : List (Word α)} {e : Expr α} (factor : Found .factor ws e) :
      ∃ p nodes nodes', planWords p = ws ∧ Juxtaposed p nodes nodes' e := by
    obtain ⟨k, base, e', rfl, based, rfl⟩ := factor
    obtain ⟨nodes, nodes', term⟩ := based.juxtaposed k
    exact ⟨_, nodes, nodes', planWords_marks k base, term⟩
  induction reads with
  | prim a => exact ⟨0, .prim a, .prim a, rfl, .prim a, rfl⟩
  | paren inner ih =>
      obtain ⟨p, q, rfl, squished⟩ := ih
      exact ⟨0, .expr p, _, rfl, .expr squished, rfl⟩
  | not inner ih =>
      obtain ⟨k, base, e', rfl, based, rfl⟩ := ih
      exact ⟨k + 1, base, e', rfl, based, rfl⟩
  | single inner ih => exact step ih
  | and first rest ih ih' =>
      obtain ⟨p, nodes, nodes', rfl, term⟩ := step ih
      obtain ⟨q, more, more', rfl, term'⟩ := ih'
      exact ⟨p ++ q, _, _, planWords_append p q, term.append term'⟩
  | alone inner ih =>
      obtain ⟨p, nodes, nodes', rfl, term⟩ := ih
      exact ⟨p, nodes', rfl, term.squished⟩
  | or first rest ih ih' =>
      obtain ⟨p, nodes, nodes', rfl, term⟩ := ih
      obtain ⟨q, q', rfl, squished⟩ := ih'
      refine ⟨p ++ .or [] [] :: q, _, ?_, term.or squished⟩
      rw [planWords_append]
      rfl

/-- What the passes take, behind what has been collected: the rest of a term, and all behind
`-o`. -/
def Rest (collected : Prop) (p : List (Node α)) : Prop :=
  ∃ front behind, p = front ++ behind ∧
    (front = [] ∨ ∃ e, Reads .term (planWords front) e) ∧
    (behind = [] ∨ (collected ∨ front ≠ []) ∧
      ∃ q, behind = .or [] [] :: q ∧ Sentence (planWords q))

theorem Rest.sentence (rest : Rest False p) (nonempty : p ≠ []) :
    Sentence (planWords p) := by
  obtain ⟨front, behind, rfl, term, last⟩ := rest
  rcases term with rfl | ⟨e, reads⟩
  · rcases last with rfl | ⟨found, _⟩
    · exact absurd rfl nonempty
    · exact absurd found (by simp)
  · rcases last with rfl | ⟨_, q, rfl, f, more⟩
    · rw [List.append_nil]
      exact ⟨e, .alone reads⟩
    · rw [planWords_append]
      exact ⟨.or e f, .or reads more⟩

theorem Rest.factor (collected : Prop) (factor : Reads .factor (planWords p) e) (nonempty : p ≠ [])
    (rest : Rest True q) :
    Rest collected (p ++ q) := by
  obtain ⟨front, behind, rfl, term, last⟩ := rest
  refine ⟨p ++ front, behind, by simp, Or.inr ?_, last.imp id ?_⟩
  · rcases term with rfl | ⟨f, reads⟩
    · rw [List.append_nil]
      exact ⟨e, .single factor⟩
    · rw [planWords_append]
      exact ⟨.and e f, .and factor reads⟩
  · exact fun found => ⟨Or.inr (by simp [nonempty]), found.2⟩

theorem reads_marks (base : Node α) (reads : Reads .factor base.words e) (k : Nat) :
    Reads .factor (planWords (marks k ++ [base])) (e.marked k) := by
  rw [planWords_marks]
  induction k with
  | zero => exact reads
  | succ k ih => exact .not ih

theorem marks_split (p : List (Node α)) (paired : PlanPaired p) :
    ∃ k rest, p = marks k ++ rest ∧ PlanPaired rest ∧ ∀ q plan, rest ≠ .not q :: plan := by
  induction p with
  | nil => exact ⟨0, [], rfl, trivial, by simp⟩
  | cons node p ih =>
      obtain ⟨k, rest, rfl, behind, other⟩ := ih paired.2
      cases node with
      | not q =>
          obtain rfl : q = [] := paired.1
          exact ⟨k + 1, rest, rfl, behind, other⟩
      | _ => exact ⟨0, _, rfl, paired, by simp⟩

theorem orFrom_collects {base base' : Node α} {result Q : List (Node α)}
    (step : ∀ plan result, orFrom (base :: plan) result = orFrom plan (result ++ [base']))
    (run : orFrom (negated k base :: plan) result = .ok Q) :
    ∃ result', result' ≠ [] ∧ orFrom plan result' = .ok Q := by
  rw [orFrom_negated step] at run
  exact ⟨_, by simp, run⟩

/-- An expression under exclamation marks passes only if what is in it does. -/
theorem orSquish_of_negated {result Q : List (Node α)}
    (run : orFrom (negated k (.expr p) :: plan) result = .ok Q) :
    ∃ q, orSquish p = .ok q := by
  unfold negated at run
  split at run
  · rw [orFrom_expr] at run
    obtain ⟨q, found, _⟩ := except_bind_ok.mp run
    exact ⟨q, found⟩
  · rw [orFrom_not] at run
    obtain ⟨q, found, _⟩ := except_bind_ok.mp run
    change orFrom [.expr p] [] = .ok q at found
    rw [orFrom_expr] at found
    obtain ⟨q, found, _⟩ := except_bind_ok.mp found
    exact ⟨q, found⟩

theorem notSquish_stuck : notSquish (marks (k + 1) : List (Node α)) =
    .error .noFollowing := by
  have dropped : (marks k : List (Node α)).dropWhile Node.isNot = [] := by
    induction k with
    | zero => rfl
    | succ k ih => exact ih
  change notLoop _ (.not [] :: marks k) = _
  rw [notLoop, dropped]

theorem notSquish_marks_or :
    notSquish (marks (k + 1) ++ .or [] [] :: plan) = .error .nothingBetween := by
  obtain ⟨_, dropped⟩ := takeWhile_marks (Node.or [] []) rfl k plan
  change notLoop _ (.not [] :: (marks k ++ .or [] [] :: plan)) = _
  rw [notLoop, dropped]

theorem planSize_append (p q : List (Node α)) : planSize (p ++ q) = planSize p + planSize q := by
  induction p with
  | nil => simp [planSize]
  | cons node p ih =>
      simp only [List.cons_append, planSize, ih]
      omega

theorem rest_of_squish (n : Nat) :
    ∀ (p : List (Node α)), planSize p ≤ n → PlanPaired p →
      ∀ {N result Q : List (Node α)}, notSquish p = .ok N → orFrom N result = .ok Q →
        Rest (result ≠ []) p := by
  induction n with
  | zero =>
      intro p small paired N result Q nots ors
      cases p with
      | nil => exact ⟨[], [], rfl, Or.inl rfl, Or.inl rfl⟩
      | cons node p =>
          have one := planSize_pos node
          simp only [planSize] at small
          omega
  | succ n ih =>
      intro p small paired N result Q nots ors
      obtain ⟨k, rest, rfl, behind, other⟩ := marks_split p paired
      rw [planSize_append] at small
      have further : ∀ {plan N result' : List (Node α)}, planSize plan ≤ n → PlanPaired plan →
          notSquish plan = .ok N → result' ≠ [] → orFrom N result' = .ok Q → Rest True plan := by
        intro plan N result' smaller pairs nots found ors
        have more := ih plan smaller pairs nots ors
        simpa only [found, not_false_eq_true, ne_eq] using more
      cases rest with
      | nil =>
          cases k with
          | zero => exact ⟨[], [], rfl, Or.inl rfl, Or.inl rfl⟩
          | succ k =>
              rw [List.append_nil, notSquish_stuck] at nots
              cases nots
      | cons base plan =>
          simp only [planSize] at small
          have one := planSize_pos base
          cases base with
          | openparen => exact behind.1.elim
          | closeparen => exact behind.1.elim
          | not q => exact absurd rfl (other q plan)
          | prim a =>
              rw [notSquish_marks_prim] at nots
              obtain ⟨N', passes, same⟩ := except_bind_ok.mp nots
              cases same
              obtain ⟨result', found, ors⟩ :=
                orFrom_collects (fun plan result => orFrom_prim plan result a) ors
              have factor := reads_marks (.prim a) (.prim a) k
              have tail := further (by omega) behind.2 passes found ors
              have whole := Rest.factor (result ≠ []) factor (by simp) tail
              rwa [List.append_assoc] at whole
          | or q r =>
              obtain ⟨rfl, rfl⟩ := behind.1
              cases k with
              | succ k =>
                  rw [notSquish_marks_or] at nots
                  cases nots
              | zero =>
                  change notSquish (.or [] [] :: plan) = .ok N at nots
                  rw [notSquish_or] at nots
                  obtain ⟨N', passes, same⟩ := except_bind_ok.mp nots
                  cases same
                  rw [orFrom_or] at ors
                  split at ors
                  · cases ors
                  · next found =>
                      obtain ⟨Q', ors, last⟩ := except_bind_ok.mp ors
                      have inner := ih plan (by omega) behind.2 passes ors
                      have sentence : Sentence (planWords plan) := by
                        refine Rest.sentence (by simpa using inner) ?_
                        rintro rfl
                        cases passes
                        cases ors
                        simp at last
                      refine ⟨[], .or [] [] :: plan, rfl, Or.inl rfl, Or.inr ⟨Or.inl ?_, ?_⟩⟩
                      · simpa using found
                      · exact ⟨plan, rfl, sentence⟩
          | expr q =>
              rw [notSquish_marks_expr] at nots
              obtain ⟨q', inside, nots⟩ := except_bind_ok.mp nots
              obtain ⟨N', passes, same⟩ := except_bind_ok.mp nots
              cases same
              obtain ⟨q'', passed⟩ := orSquish_of_negated ors
              have step : ∀ plan result,
                  orFrom (.expr q' :: plan) result = orFrom plan (result ++ [.expr q'']) := by
                intro plan result
                rw [orFrom_expr, passed]
                rfl
              obtain ⟨result', found, ors⟩ := orFrom_collects step ors
              simp only [Node.size] at small
              have inner := ih q (by omega) behind.1.2 inside passed
              obtain ⟨e, reads⟩ : Sentence (planWords q) :=
                Rest.sentence (by simpa using inner) behind.1.1
              have factor := reads_marks (.expr q) (.paren reads) k
              have tail := further (by omega) behind.2 passes found ors
              have whole := Rest.factor (result ≠ []) factor (by simp) tail
              rwa [List.append_assoc] at whole

theorem squish_of_reads (reads : Reads .expression (significant ws) e) :
    ∃ plan, squish (create ws) = .ok plan ∧ Says plan e := by
  obtain ⟨p, q, spelled, squished⟩ := reads.found
  have parens := parenSquish_iff.mpr ⟨squished.paired, spelled⟩
  refine ⟨q, ?_, squished.reading⟩
  rw [squish, parens]
  exact squished.run

theorem sentence_of_squish (run : squish (create ws) = .ok plan) (nonempty : create ws ≠ []) :
    Sentence (significant ws) := by
  rw [squish] at run
  obtain ⟨p, parens, run⟩ := except_bind_ok.mp run
  obtain ⟨q, nots, ors⟩ := except_bind_ok.mp run
  obtain ⟨paired, spelled⟩ := parenSquish_iff.mp parens
  have rest := rest_of_squish _ p (Nat.le_refl _) paired nots ors
  rw [← spelled]
  refine Rest.sentence (by simpa using rest) ?_
  rintro rfl
  refine nonempty ?_
  rw [← create_significant, ← spelled]
  rfl

end Netbase.Find
