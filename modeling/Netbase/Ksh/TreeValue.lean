import Netbase.Ksh.TreeRun

/-!
# The value of a tree

The climber against two's-complement arithmetic.  It divides before anything checks
the quotient, also where the operand is not selected, so the one thing that can go
wrong on a tree with a value is a quotient that does not fit a long.
-/

namespace Netbase.Ksh.Expr

open Netbase.Text Netbase.Lib

/-- The right operand of `&&` or `||` is not selected. -/
def Token.skips (op : Token) (l : Long) : Bool :=
  if op = .O_LAND then l == 0 else if op = .O_LOR then l != 0 else false

/-- No quotient of the tree overflows.  Operands that are not selected are divided
too, with a zero divisor there taken as one. -/
def Tree.Fits (held : Bool) : Tree → Prop
  | .lit _ | .var _ | .pre _ _ | .post _ _ => True
  | .group t => t.Fits held
  | .unary _ t => t.Fits held
  | .binary op l r =>
      l.Fits held ∧ ∀ a, l.worth held = some a →
        r.Fits (held || op.val.skips a) ∧ ∀ b, r.worth (held || op.val.skips a) = some b →
          overflows op.val a (divisorUsed op.val b) = false
  | .ternary c a b =>
      c.Fits held ∧ ∀ n, c.worth held = some n →
        a.Fits (held || n == 0) ∧ b.Fits (held || n != 0)
  | .assign op _ t =>
      t.Fits held ∧ ∀ b, t.worth held = some b →
        overflows op.val 0 (divisorUsed op.val b) = false

/-! ## Operators -/

theorem truth_if {c : Prop} [Decidable c] (b : Bool) (same : b = true ↔ c) :
    truth b = if c then 1 else 0 := by
  unfold truth
  by_cases holds : c
  · rw [if_pos holds, if_pos (same.mpr holds)]
  · rw [if_neg holds, if_neg fun h => holds (same.mp h)]

theorem unaryResult_eq (op : UnaryOp) (n : Long) : unaryResult op.val n = unaryValue op.val n := by
  obtain ⟨op, isUnary⟩ := op
  cases op <;> try cases isUnary
  case O_MINUS =>
    show -n = 0 - n
    simp
  case O_LNOT => exact truth_if _ beq_iff_eq
  all_goals rfl

variable {r l : Long} {s s' : State} {stop : Stop} {sh : Shell}

theorem toNat_of_shift (within : 0 ≤ r.toInt ∧ r.toInt ≤ 63) : r.toNat % 64 = r.toNat := by
  have := BitVec.toInt_eq_toNat_cond r
  have := r.isLt
  omega

variable {op : Token} {v : Long} {t : Tree}

/-- Where the operator has a value, the climber computes it. -/
theorem binaryResult_eq (known : infixValue op l r = some v) :
    binaryResult op l r = v := by
  cases op <;> simp only [infixValue, Option.some.injEq, reduceCtorEq] at known
  case O_DIV => exact Option.some.inj (Option.ite_none_left_eq_some.mp known).2
  case O_MOD => exact Option.some.inj (Option.ite_none_left_eq_some.mp known).2
  case O_LSHIFT =>
    obtain ⟨within, same⟩ := Option.ite_none_right_eq_some.mp known
    show l <<< (r.toNat % 64) = v
    rw [toNat_of_shift within]
    exact Option.some.inj same
  case O_RSHIFT =>
    obtain ⟨within, same⟩ := Option.ite_none_right_eq_some.mp known
    show l.sshiftRight (r.toNat % 64) = v
    rw [toNat_of_shift within]
    exact Option.some.inj same
  all_goals subst known
  case O_LT => exact truth_if _ (BitVec.slt_iff_toInt_lt)
  case O_LE => exact truth_if _ (BitVec.sle_iff_toInt_le)
  case O_GT => exact truth_if _ (BitVec.slt_iff_toInt_lt)
  case O_GE => exact truth_if _ (BitVec.sle_iff_toInt_le)
  case O_EQ => exact truth_if _ (by simp)
  case O_NE =>
    show truth (l != r) = _
    by_cases same : l = r <;> simp [same, truth]
  all_goals rfl

theorem divides_of_value (known : infixValue op l r = some v) :
    ¬ (op.divides = true ∧ r = 0) := by
  rintro ⟨divides, rfl⟩
  cases op <;> first | exact absurd divides (by decide) | simp [infixValue] at known

theorem combine_value (known : infixValue op l r = some v) :
    combine false op l r = if overflows op l r then none else some v := by
  rw [combine, if_neg (divides_of_value known), binaryResult_eq known]

/-! ## Trees -/

theorem land_value (a b : Long) (nonzero : a ≠ 0) :
    binaryResult .O_LAND a b = if b = 0 then 0 else 1 := by
  show truth (a != 0 && b != 0) = _
  rw [bne_iff_ne.mpr nonzero, Bool.true_and]
  by_cases zero : b = 0
  · rw [if_pos zero, zero]
    rfl
  · rw [if_neg zero, bne_iff_ne.mpr zero]
    rfl

theorem lor_value (a b : Long) :
    binaryResult .O_LOR a b = if a = 0 then if b = 0 then 0 else 1 else 1 := by
  show truth (a != 0 || b != 0) = _
  by_cases zero : a = 0
  · rw [if_pos zero, zero, bne_self_eq_false, Bool.false_or]
    by_cases zero' : b = 0
    · rw [if_pos zero', zero']
      rfl
    · rw [if_neg zero', bne_iff_ne.mpr zero']
      rfl
  · rw [if_neg zero, bne_iff_ne.mpr zero]
    rfl

theorem Tree.worth_value : ∀ {v w : Long}, t.value = some v →
    t.worth false = some w → w = v := by
  induction t with
  | lit n =>
      intro v w known found
      cases known
      cases found
      rfl
  | var x => intro v w known; cases known
  | assign op x t ih => intro v w known; cases known
  | pre op x => intro v w known; cases known
  | post op x => intro v w known; cases known
  | group t ih => exact ih
  | unary op t ih =>
      intro v w known found
      obtain ⟨n, value, rfl⟩ := Option.map_eq_some_iff.mp known
      obtain ⟨m, worth, rfl⟩ := Option.map_eq_some_iff.mp found
      rw [ih value worth, unaryResult_eq]
  | ternary c a b ihC ihA ihB =>
      intro v w known found
      simp only [Tree.value] at known
      simp only [Tree.worth] at found
      cases valueC : c.value with
      | none => rw [valueC] at known; cases known
      | some n =>
          cases worthC : c.worth false with
          | none => rw [worthC] at found; cases found
          | some m =>
              cases ihC valueC worthC
              rw [valueC] at known
              rw [worthC] at found
              simp only at known found
              split at found
              · next x y worthA worthB =>
                  cases found
                  by_cases zero : n = 0
                  · rw [if_pos zero] at known ⊢
                    exact ihB known (by rwa [zero] at worthB)
                  · rw [if_neg zero] at known ⊢
                    exact ihA known (by rwa [beq_eq_false_iff_ne.mpr zero] at worthA)
              · cases found
  | binary op l r ihL ihR =>
      intro v w known found
      simp only [Tree.value] at known
      simp only [Tree.worth] at found
      cases valueL : l.value with
      | none => rw [valueL] at known; cases known
      | some a =>
          cases worthL : l.worth false with
          | none => rw [worthL] at found; cases found
          | some a' =>
              cases ihL valueL worthL
              rw [valueL] at known
              rw [worthL] at found
              simp only at known found
              by_cases land : op.val = .O_LAND
              · rw [if_pos land] at known found
                obtain ⟨b, worthR, rfl⟩ := Option.map_eq_some_iff.mp found
                by_cases zero : a = 0
                · rw [if_pos zero] at known
                  cases known
                  simp [binaryResult, zero, truth]
                · rw [if_neg zero] at known
                  obtain ⟨b', valueR, rfl⟩ := Option.map_eq_some_iff.mp known
                  rw [beq_eq_false_iff_ne.mpr zero] at worthR
                  rw [ihR valueR worthR, land_value a b' zero]
              · rw [if_neg land] at known found
                by_cases lor : op.val = .O_LOR
                · rw [if_pos lor] at known found
                  obtain ⟨b, worthR, rfl⟩ := Option.map_eq_some_iff.mp found
                  rw [lor_value]
                  by_cases zero : a = 0
                  · rw [if_pos zero] at known ⊢
                    obtain ⟨b', valueR, rfl⟩ := Option.map_eq_some_iff.mp known
                    rw [zero] at worthR
                    rw [ihR valueR worthR]
                  · rw [if_neg zero] at known ⊢
                    cases known
                    rfl
                · rw [if_neg lor] at known found
                  cases valueR : r.value with
                  | none => rw [valueR] at known; cases known
                  | some b =>
                      cases worthR : r.worth false with
                      | none => rw [worthR] at found; cases found
                      | some b' =>
                          cases ihR valueR worthR
                          rw [valueR] at known
                          rw [worthR] at found
                          simp only at known found
                          rw [combine_value known] at found
                          exact (Option.some.inj (Option.ite_none_left_eq_some.mp found).2).symm

theorem Tree.worth_binary (held : Bool) (op : InfixOp) (l r : Tree) :
    (Tree.binary op l r).worth held =
      infixWorth held op.val (l.worth held) fun h => r.worth h := rfl

theorem skips_strict (notLand : op ≠ .O_LAND) (notLor : op ≠ .O_LOR) (l : Long) :
    op.skips l = false := by
  rw [Token.skips, if_neg notLand, if_neg notLor]

/-- An operator is worked out exactly when its right operand is and the quotient fits;
`divisible` excludes the zero divisors that are errors. -/
theorem infixWorth_isSome {held : Bool} {a : Long} {r : Bool → Option Long}
    (divisible : ∀ b, r held = some b → ¬ (op.divides = true ∧ b = 0 ∧ held = false)) :
    (infixWorth held op (some a) r).isSome ↔
      (r (held || op.skips a)).isSome ∧ ∀ b, r (held || op.skips a) = some b →
        overflows op a (divisorUsed op b) = false := by
  by_cases land : op = .O_LAND
  · subst land
    have always : ∀ b, overflows .O_LAND a (divisorUsed .O_LAND b) = false := fun _ => rfl
    simp [infixWorth, Token.skips, always]
  · by_cases lor : op = .O_LOR
    · subst lor
      have always : ∀ b, overflows .O_LOR a (divisorUsed .O_LOR b) = false := fun _ => rfl
      simp [infixWorth, Token.skips, always]
    · rw [skips_strict land lor, Bool.or_false]
      simp only [infixWorth, land, lor, if_false]
      cases worth : r held with
      | none => simp
      | some b =>
          simp only [combine_used held op a b (divisible b worth), Option.isSome_some, true_and,
            Option.some.injEq, forall_eq']
          cases overflows op a (divisorUsed op b) <;> simp

theorem Tree.value_left {op : InfixOp} {l r : Tree} (known : (Tree.binary op l r).value = some v) :
    ∃ a, l.value = some a := by
  cases value : l.value with
  | none => simp [Tree.value, value] at known
  | some a => exact ⟨a, rfl⟩

theorem Tree.value_right {op : InfixOp} {l r : Tree} {a : Long}
    (known : (Tree.binary op l r).value = some v) (left : l.value = some a)
    (selected : op.val.skips a = false) :
    ∃ b, r.value = some b ∧ ¬ (op.val.divides = true ∧ b = 0) := by
  simp only [Tree.value, left] at known
  by_cases land : op.val = .O_LAND
  · rw [Token.skips, if_pos land] at selected
    rw [if_pos land, if_neg (beq_eq_false_iff_ne.mp selected)] at known
    obtain ⟨b, value, _⟩ := Option.map_eq_some_iff.mp known
    exact ⟨b, value, by rw [land]; exact fun both => absurd both.1 (by decide)⟩
  · rw [if_neg land] at known
    by_cases lor : op.val = .O_LOR
    · rw [Token.skips, if_neg land, if_pos lor] at selected
      have zero : a = 0 := by simpa using selected
      rw [if_pos lor, if_pos zero] at known
      obtain ⟨b, value, _⟩ := Option.map_eq_some_iff.mp known
      exact ⟨b, value, by rw [lor]; exact fun both => absurd both.1 (by decide)⟩
    · rw [if_neg lor] at known
      cases value : r.value with
      | none => simp [value] at known
      | some b =>
          rw [value] at known
          exact ⟨b, rfl, divides_of_value known⟩

theorem isHeld_of_known {held : Bool} (known : held = false → ∃ v, t.value = some v)
    (none : t.value = Option.none) : held = true := by
  cases held with
  | true => rfl
  | false =>
      obtain ⟨v, value⟩ := known rfl
      rw [none] at value
      cases value

theorem Tree.worth_isSome : ∀ held : Bool,
    (held = false → ∃ v, t.value = some v) → ((t.worth held).isSome ↔ t.Fits held) := by
  induction t with
  | lit n => intro held known; simp [Tree.worth, Tree.Fits]
  | var x => intro held known; simp [Tree.worth, Tree.Fits]
  | pre op x => intro held known; simp [Tree.worth, Tree.Fits]
  | post op x => intro held known; simp [Tree.worth, Tree.Fits]
  | group t ih => exact ih
  | unary op t ih =>
      intro held known
      simp only [Tree.worth, Tree.Fits, Option.isSome_map]
      refine ih held fun free => ?_
      obtain ⟨v, value⟩ := known free
      obtain ⟨n, value, _⟩ := Option.map_eq_some_iff.mp value
      exact ⟨n, value⟩
  | assign op x t ih =>
      intro held known
      cases isHeld_of_known known rfl
      have inner := ih true (by intro impossible; cases impossible)
      simp only [Tree.worth, Tree.Fits, ← inner]
      cases worth : t.worth true with
      | none => simp
      | some b =>
          have used := combine_used true op.val 0 b (by simp)
          simp only [used, Option.isSome_some, true_and, Option.some.injEq, forall_eq']
          cases overflows op.val 0 (divisorUsed op.val b) <;> simp
  | ternary c a b ihC ihA ihB =>
      intro held known
      have valueC : held = false → ∃ n, c.value = some n := by
        intro free
        obtain ⟨v, value⟩ := known free
        cases valueC : c.value with
        | none => simp [Tree.value, valueC] at value
        | some n => exact ⟨n, rfl⟩
      simp only [Tree.worth, Tree.Fits, ← ihC held valueC]
      cases worthC : c.worth held with
      | none => simp
      | some n =>
          have knownC : held = false → c.value = some n := by
            intro free
            obtain ⟨m, value⟩ := valueC free
            rw [free] at worthC
            rw [value, Tree.worth_value value worthC]
          have armA := ihA (held || n == 0) fun free => by
            obtain ⟨free, nonzero⟩ := Bool.or_eq_false_iff.mp free
            obtain ⟨v, value⟩ := known free
            simp only [Tree.value, knownC free, if_neg (beq_eq_false_iff_ne.mp nonzero)] at value
            exact ⟨v, value⟩
          have armB := ihB (held || n != 0) fun free => by
            obtain ⟨free, zero⟩ := Bool.or_eq_false_iff.mp free
            have zero : n = 0 := by simpa using zero
            obtain ⟨v, value⟩ := known free
            simp only [Tree.value, knownC free, if_pos zero] at value
            exact ⟨v, value⟩
          simp only [Option.isSome_some, true_and, Option.some.injEq, forall_eq', ← armA, ← armB]
          cases a.worth (held || n == 0) <;> cases b.worth (held || n != 0) <;> simp
  | binary op l r ihL ihR =>
      intro held known
      have valueL : held = false → ∃ a, l.value = some a := fun free =>
        (known free).elim fun _ value => Tree.value_left value
      rw [Tree.worth_binary, Tree.Fits, ← ihL held valueL]
      cases worthL : l.worth held with
      | none => simp [infixWorth]
      | some a =>
          have knownL : held = false → l.value = some a := by
            intro free
            obtain ⟨m, value⟩ := valueL free
            rw [free] at worthL
            rw [value, Tree.worth_value value worthL]
          have right := ihR (held || op.val.skips a) fun free => by
            obtain ⟨free, selected⟩ := Bool.or_eq_false_iff.mp free
            obtain ⟨v, value⟩ := known free
            obtain ⟨b, valueR, _⟩ := Tree.value_right value (knownL free) selected
            exact ⟨b, valueR⟩
          rw [infixWorth_isSome]
          · simp only [Option.isSome_some, true_and, Option.some.injEq, forall_eq', ← right]
          · rintro b worthR ⟨divides, zero, free⟩
            obtain ⟨v, value⟩ := known free
            have strict : op.val.skips a = false := by
              apply skips_strict
              · rintro same
                rw [same] at divides
                cases divides
              · rintro same
                rw [same] at divides
                cases divides
            obtain ⟨b', valueR, nonzero⟩ := Tree.value_right value (knownL free) strict
            rw [free] at worthR
            exact nonzero ⟨divides, (Tree.worth_value valueR worthR).symm.trans zero⟩

/-! ## Whole evaluations -/

theorem spell_length (words : List Word) : words.length ≤ (spell words).length := by
  induction words with
  | nil => exact Nat.le_refl _
  | cons w rest ih =>
      rw [spell_cons, List.length_cons, List.length_cons, List.length_append]
      omega

theorem Tree.text_cons (t : Tree) : byte ' ' :: t.text = spell (t.words MAX_PREC) := by
  unfold Tree.text
  cases shape : t.words MAX_PREC with
  | nil => exact absurd shape (t.words_ne_nil _)
  | cons w rest => rw [spell_cons, List.tail_cons]

theorem Tree.text_words (t : Tree) : SameWords t.text (spell (t.words MAX_PREC)) := by
  rw [← t.text_cons, SameWords, List.dropWhile_cons_of_pos (by decide)]

theorem Tree.callDepth_enough (t : Tree) :
    16 * (t.words MAX_PREC).length + MAX_PREC + 2 ≤ callDepth t.text := by
  have longer := spell_length (t.words MAX_PREC)
  rw [← t.text_cons, List.length_cons] at longer
  unfold callDepth MAX_PREC
  unfold MAX_PREC at longer
  omega

theorem Facing.not_end {words : List Word} (facing : Facing s words) (nonempty : words ≠ []) :
    s.es.tok ≠ .END := by
  cases words with
  | nil => exact absurd rfl nonempty
  | cons w rest =>
      cases w with
      | op tok =>
          obtain ⟨⟨same, ordinary⟩, _⟩ := facing
          rw [same]
          rintro rfl
          exact ordinary rfl
      | num n =>
          rw [facing.1.1]
          decide
      | name x =>
          rw [facing.1.1]
          decide

theorem evaluation_reads (nested : Nested) {lit : Prop} (literal : lit → t.Literal) (vp : Addr)
    (mode : ErrorMode) (entry : Entry lit s) (text : s.es.tokp = t.text) :
    (∃ v a s', t.worth (s.es.noassign != 0) = some v ∧ Framed s s' (heldCell s) ∧
        Plain (s'.shell.cell a) v ∧
        evaluation nested vp t.text mode s = storeResult vp a mode s') ∨
      t.worth (s.es.noassign != 0) = none ∧ ∃ stop s',
        evaluation nested vp t.text mode s = .error stop s' := by
  have legible := t.body_legible literal
  obtain ⟨s1, run1, moved1⟩ := token_moves_skipping (t.words MAX_PREC) entry.owner
    (by rw [text]; exact t.text_words) (by
      intro w first
      exact (legible.parenthesize _ _).legible entry (List.mem_of_mem_head? first))
  have notEnd := moved1.facing.not_end (t.words_ne_nil _)
  have reads := (treeReads nested t literal).words literal MAX_PREC
  have outcome := reads (callDepth t.text) s1 [] t.callDepth_enough
    (entry.of_frame moved1.frame) (by intro w first; cases first)
    (by rw [List.append_nil]; exact moved1.facing)
  rw [moved1.frame.noassign] at outcome
  have begun : evaluation nested vp t.text mode s = (do
      let v ← intvar nested (← evalexpr nested (callDepth t.text) MAX_PREC)
      if (← tokenNow) ≠ .END then unexpected
      else storeResult vp v mode : ExprM Unit) s1 := by
    unfold evaluation
    rw [bind_ok run1, bind_ok (tokenNow_run s1), if_neg notEnd]
  rcases outcome.split with ⟨v, a, s2, value, run2, yields2⟩ | ⟨value, stop, s2, run2⟩
  · obtain ⟨a', s3, run3, operand3⟩ := (yields2.after moved1).cast nested
    refine Or.inl ⟨v, a', s3, value, operand3.frame, operand3.plain, ?_⟩
    rw [begun, bind_ok run2, bind_ok run3, bind_ok (tokenNow_run s3), operand3.facing.1,
      if_neg (by decide)]
  · exact Or.inr ⟨value, stop, s2, begun.trans (bind_error run2)⟩

/-- The cell `evaluate` has its result stored in. -/
def resultCell : Var := temporary (DEFINED ||| INTEGER) (.i 0)

theorem storeResult_integer {vp a : Addr} (mode : ErrorMode) (target : s.shell.cell vp = resultCell)
    (plain : Plain (s.shell.cell a) v) :
    ∃ s', storeResult vp a mode s = .ok () s' ∧ (s'.shell.cell vp).number = v ∧
      ∀ q, q ≠ vp → s'.shell.cell q = s.shell.cell q := by
  have integer : has (s.shell.cell vp).flag INTEGER = true := by
    rw [target]
    decide
  unfold storeResult
  rw [bind_ok (cellAt_run vp s), if_pos integer, onShell_run]
  refine ⟨_, rfl, ?_, fun q other => ?_⟩
  · simp only [setintV, plain.temp.getint, Option.getD_some, cell_write_self]
    rfl
  · simp only [setintV, plain.temp.getint, Option.getD_some]
    exact cell_write_ne _ _ other

theorem evalexpr_fails (nested : Nested) {fuel p : Nat}
    (run : evalexpr nested fuel p s = .error stop s') (k : Nat) :
    evalexpr nested (fuel + k) (p + k) s = .error stop s' := by
  induction k with
  | zero => exact run
  | succ k ih =>
      rw [← Nat.add_assoc, ← Nat.add_assoc, evalexpr]
      exact bind_error ih

theorem handled_error {x : ExprM Unit} {es : ExprState} (mode : ErrorMode)
    (run : x ⟨sh, es⟩ = .error stop s') :
    ∀ sh', handled x es mode sh ≠ .ok true sh' := by
  intro sh'
  unfold handled
  rw [run]
  cases stop <;> cases mode <;> simp

theorem evaluate_run (depth : Nat) (expr : List Byte) (mode : ErrorMode) (sh : Shell) :
    evaluate (depth + 1) expr mode sh =
      (do
        let ok ← handled
          (evaluation (nestedWith (vEvaluate depth)) sh.next expr mode) (initialState expr none)
          mode
        return (ok, ((← get).cell sh.next).number) : ShellM (Bool × Long))
      (sh.alloc resultCell) := rfl

theorem evaluate_ok {depth : Nat} {expr : List Byte} {mode : ErrorMode}
    (run : evaluation (nestedWith (vEvaluate depth)) sh.next expr mode
      ⟨sh.alloc resultCell, initialState expr none⟩ = .ok () s') :
    evaluate (depth + 1) expr mode sh =
      .ok (true, (s'.shell.cell sh.next).number) s'.shell := by
  have finished : handled (evaluation (nestedWith (vEvaluate depth)) sh.next expr mode)
      (initialState expr none) mode (sh.alloc resultCell) = .ok true s'.shell := by
    unfold handled
    rw [run]
  rw [evaluate_run, bind_ok finished]
  rfl

theorem evaluate_failed {depth : Nat} {expr : List Byte} {mode : ErrorMode}
    (run : evaluation (nestedWith (vEvaluate depth)) sh.next expr mode
      ⟨sh.alloc resultCell, initialState expr none⟩ = .error stop s') (v : Long) (sh' : Shell) :
    evaluate (depth + 1) expr mode sh ≠ .ok (true, v) sh' := by
  intro impossible
  rw [evaluate_run] at impossible
  cases result : handled (evaluation (nestedWith (vEvaluate depth)) sh.next expr mode)
      (initialState expr none) mode (sh.alloc resultCell) with
  | error stop sh'' =>
      rw [bind_error result] at impossible
      cases impossible
  | ok ok sh'' =>
      rw [bind_ok result] at impossible
      cases ok with
      | false => cases impossible
      | true => exact handled_error mode run sh'' result

/-- The value the climber works out is the result of `evaluate`, and where there is
none there is no result. -/
theorem evaluate_worth (literal : t.Literal) (depth : Nat) (mode : ErrorMode) (sh : Shell) :
    match t.worth false with
    | some v => ∃ sh', evaluate (depth + 1) t.text mode sh = .ok (true, v) sh'
    | none => ∀ v sh', evaluate (depth + 1) t.text mode sh ≠ .ok (true, v) sh' := by
  have entry : Entry True ⟨sh.alloc resultCell, initialState t.text none⟩ := ⟨rfl, Or.inl trivial⟩
  have target : (sh.alloc resultCell).cell sh.next = resultCell := by simp [cell_alloc]
  rw [evaluate_run]
  rcases evaluation_reads (nestedWith (vEvaluate depth)) (fun _ => literal) sh.next mode entry rfl with
    ⟨v, a, s', value, framed, plain, run⟩ | ⟨value, stop, s', run⟩
  · replace value : t.worth false = some v := value
    have kept : s'.shell.cell sh.next = resultCell :=
      (framed.cells sh.next (Nat.lt_succ_self _) (by simp [heldCell, initialState])).trans target
    obtain ⟨s'', stored, number, _⟩ := storeResult_integer mode kept plain
    have whole : evaluation (nestedWith (vEvaluate depth)) sh.next t.text mode
        ⟨sh.alloc resultCell, initialState t.text none⟩ = .ok () s'' := run.trans stored
    rw [value]
    exact ⟨s''.shell, number ▸ evaluate_ok whole⟩
  · replace value : t.worth false = none := value
    rw [value]
    exact fun v sh' => evaluate_failed run v sh'

/-- On the text of a tree without variables that has a value, `evaluate` gives that
value exactly when no quotient in the tree overflows. -/
theorem evaluate_text (t : Tree) (literal : t.Literal) (v : Long) (known : t.value = some v)
    (depth : Nat) (mode : ErrorMode) (sh : Shell) :
    (∃ sh', evaluate (depth + 1) t.text mode sh = .ok (true, v) sh') ↔ t.Fits false := by
  have computed := evaluate_worth literal depth mode sh
  rw [← Tree.worth_isSome false fun _ => ⟨v, known⟩]
  cases worth : t.worth false with
  | none =>
      rw [worth] at computed
      simp only [Option.isSome_none, Bool.false_eq_true, iff_false]
      rintro ⟨sh', run⟩
      exact computed v sh' run
  | some w =>
      rw [worth] at computed
      rw [← Tree.worth_value known worth]
      simpa using computed

/-- A shell without variables. -/
def emptyShell : Shell := { next := 0, cell := fun _ => freshVar [], blocks := [[]] }

/-- `1 + 2 * 3`. -/
def sumTree : Tree :=
  .binary ⟨.O_PLUS, rfl⟩ (.lit 1) (.binary ⟨.O_TIMES, rfl⟩ (.lit 2) (.lit 3))

theorem evaluate_text_sum :
    ∃ sh', evaluate 1 sumTree.text .KSH_RETURN_ERROR emptyShell = .ok (true, 7) sh' :=
  (evaluate_text sumTree ⟨trivial, trivial, trivial⟩ 7 rfl 0 .KSH_RETURN_ERROR emptyShell).mpr
    ⟨trivial, fun _ _ => ⟨⟨trivial, fun _ _ => ⟨trivial, fun _ _ => rfl⟩⟩, fun _ _ => rfl⟩⟩

/-- `( - 9223372036854775807 - 1 ) / - 1`. -/
def minQuotient : Tree :=
  .binary ⟨.O_DIV, rfl⟩
    (.binary ⟨.O_MINUS, rfl⟩ (.unary ⟨.O_MINUS, rfl⟩ (.lit 9223372036854775807)) (.lit 1))
    (.unary ⟨.O_MINUS, rfl⟩ (.lit 1))

/-- The division of the least long by minus one stops the shell. -/
theorem evaluate_minQuotient :
    minQuotient.Literal ∧ minQuotient.value = some (BitVec.intMin 64) ∧
      (match evaluate 1 minQuotient.text .KSH_RETURN_ERROR emptyShell with
        | .error .trap _ => true
        | _ => false) = true := by
  refine ⟨⟨⟨trivial, trivial⟩, trivial⟩, by decide +kernel, ?_⟩
  decide +kernel

end Netbase.Ksh.Expr
