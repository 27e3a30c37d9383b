import Netbase.Ksh.TreeEval

/-!
# Operators and whole trees

The loops of the climber over the operators of one precedence, and from them the
reading of every tree.  Two operands that are both alive never share a temporary: the
second one is made of cells that did not exist when the first one was complete.
-/

namespace Netbase.Ksh.Expr

open Netbase.Text Netbase.Lib

/-! ## Two operands -/

variable {a : Addr} {s s' : State} {v : Long} {rest : List Word}

/-- An operand survives the evaluation of the next one. -/
theorem Yields.across {s'' : State} {b : Addr} {w : Long} {words rest : List Word}
    (first : Yields s s' a v words) (second : Yields s' s'' b w rest) :
    Yields s s'' a v rest where
  facing := second.facing
  frame := by
    refine first.frame.trans second.frame ?_
    intro q held old
    exact absurd (first.fresh q held) (Nat.not_le_of_lt old)
  fresh c held := Nat.le_trans first.frame.next (second.fresh c held)
  inside := Nat.lt_of_lt_of_le first.inside second.frame.next
  new := first.new
  apart held := Nat.not_le_of_lt first.inside (second.fresh a held)
  temp := by
    rw [second.frame.cells a first.inside first.apart]
    exact first.temp

theorem Yields.next {s s' s'' : State} {a b : Addr} {v w : Long} {words rest : List Word}
    (first : Yields s s' a v words) (second : Yields s' s'' b w rest) :
    Yields s s'' b w rest where
  facing := second.facing
  frame := (first.across second).frame
  fresh := (first.across second).fresh
  inside := second.inside
  new := by
    rcases second.new with new | held
    · exact Or.inl (Nat.le_trans first.frame.next new)
    · exact Or.inl (first.fresh b held)
  apart := second.apart
  temp := second.temp

theorem Operand.across {s'' : State} {b : Addr} {w : Long} {words rest : List Word}
    (first : Operand s s' a v words) (second : Yields s' s'' b w rest) :
    Operand s s'' a v rest where
  toYields := first.toYields.across second
  plain := by
    rw [second.frame.cells a first.inside first.apart]
    exact first.plain

/-- The divisor the climber works with. -/
def divisorUsed (op : Token) (r : Long) : Long := if op.divides ∧ r = 0 then 1 else r

theorem Operand.checkDivisor (op : Token) (operand : Operand s s' a v rest) :
    (op.divides = true ∧ v = 0 ∧ s'.es.noassign = 0 ∧
        ∃ stop, checkDivisor op a s' = .error stop s') ∨
      (¬ (op.divides = true ∧ v = 0 ∧ s'.es.noassign = 0) ∧
        ∃ s'', checkDivisor op a s' = .ok () s'' ∧ Operand s s'' a (divisorUsed op v) rest ∧
          Updated s' s'' a) := by
  have number := operand.plain.number
  unfold Expr.checkDivisor
  rw [bind_ok (numberAt_run a s'), number]
  by_cases zero : op.divides = true ∧ v = 0
  · rw [if_pos zero, bind_ok (get_run s')]
    by_cases held : s'.es.noassign = 0
    · refine Or.inl ⟨zero.1, zero.2, held, ?_⟩
      rw [if_neg (by simp [held])]
      exact ⟨_, bind_ok (get_run s')⟩
    · obtain ⟨s'', run, set⟩ := operand.setNumber 1
      obtain ⟨_, same, updated, _⟩ := setNumber_updates a 1 s'
      cases run.symm.trans same
      refine Or.inr ⟨fun both => held both.2.2, s'', ?_, ?_, updated⟩
      · rw [if_pos held, run]
      · rw [divisorUsed, if_pos zero]
        exact set
  · refine Or.inr ⟨fun both => zero ⟨both.1, both.2.1⟩, s', ?_, ?_, rfl, rfl, rfl, fun _ _ => rfl⟩
    · rw [if_neg zero]
      rfl
    · rw [divisorUsed, if_neg zero]
      exact operand

theorem combine_error {op : Token} {l r : Long} (divides : op.divides = true) (zero : r = 0) :
    combine false op l r = none := by
  simp [combine, divides, zero]

theorem combine_used (held : Bool) (op : Token) (l r : Long)
    (checked : ¬ (op.divides = true ∧ r = 0 ∧ held = false)) :
    combine held op l r =
      if overflows op l (divisorUsed op r) then none
      else some (binaryResult op l (divisorUsed op r)) := by
  unfold combine divisorUsed
  by_cases zero : op.divides = true ∧ r = 0
  · have isHeld : held = true := by
      cases held with
      | true => rfl
      | false => exact absurd ⟨zero.1, zero.2, rfl⟩ checked
    simp only [zero, and_self, if_true, isHeld]
  · simp only [zero, if_false]

theorem checkDivisor_compute (op : Token) {b : Addr} {w : Long} {γ : Type} (k : Long → ExprM γ)
    (operand : Operand s s' b w rest) (differ : a ≠ b) (number : (s'.shell.cell a).number = v) :
    (combine (s'.es.noassign != 0) op v w = none ∧ ∃ stop s'',
        (do
          checkDivisor op b
          let res ← compute op (← numberAt a) (← numberAt b)
          k res : ExprM γ) s' = .error stop s'') ∨
      ∃ res s'', combine (s'.es.noassign != 0) op v w = some res ∧
        (do
          checkDivisor op b
          let res ← compute op (← numberAt a) (← numberAt b)
          k res : ExprM γ) s' = k res s'' ∧
        Operand s s'' b (divisorUsed op w) rest ∧ Updated s' s'' b := by
  rcases operand.checkDivisor op with
    ⟨divides, zero, free, stop, run⟩ | ⟨checked, s'', run, after, updated⟩
  · refine Or.inl ⟨?_, stop, s', bind_error run⟩
    simp only [free, bne_self_eq_false]
    exact combine_error divides zero
  · have used := combine_used (s'.es.noassign != 0) op v w (by simpa using checked)
    have left : (s''.shell.cell a).number = v := by
      rw [updated.cells a differ, number]
    have begun : (do
        checkDivisor op b
        let res ← compute op (← numberAt a) (← numberAt b)
        k res : ExprM γ) s' = (compute op v (divisorUsed op w) >>= k) s'' := by
      rw [bind_ok run, bind_ok (numberAt_run a s''), left, bind_ok (numberAt_run b s''),
        after.plain.number]
    rw [begun]
    by_cases tooLarge : overflows op v (divisorUsed op w) = true
    · refine Or.inl ⟨by rw [used, if_pos tooLarge], .trap, s'', bind_error ?_⟩
      rw [compute, if_pos tooLarge]
      rfl
    · refine Or.inr ⟨binaryResult op v (divisorUsed op w), s'', by rw [used, if_neg tooLarge],
        bind_ok ?_, after, updated⟩
      rw [compute, if_neg tooLarge]
      rfl

/-! ## Holding assignments back -/

/-- The state with another count of the reasons not to assign. -/
def withNoassign (n : Nat) (s : State) : State := { s with es := { s.es with noassign := n } }

theorem holdAssigns_run (hold : Bool) (s : State) :
    holdAssigns hold s =
      .ok () (withNoassign (if hold then s.es.noassign + 1 else s.es.noassign) s) := rfl

theorem Facing.withNoassign {words : List Word} (facing : Facing s words) (n : Nat) :
    Facing (withNoassign n s) words := by
  cases words with
  | nil => exact facing
  | cons w rest =>
      cases w <;> exact facing

/-- An operand evaluated with assignments held back, once they are allowed again. -/
theorem Yields.released {n : Nat} (yields : Yields (withNoassign n s) s' a v rest) :
    Yields s (withNoassign s.es.noassign s') a v rest where
  facing := yields.facing.withNoassign _
  frame :=
    { next := yields.frame.next, cells := yields.frame.cells, blocks := yields.frame.blocks
      noassign := rfl, owner := yields.frame.owner, evaling := yields.frame.evaling
      expression := yields.frame.expression }
  fresh := yields.fresh
  inside := yields.inside
  new := yields.new
  apart := yields.apart
  temp := yields.temp

theorem allowAssigns_run (hold : Bool) (s s' : State)
    (same : s'.es.noassign = if hold then s.es.noassign + 1 else s.es.noassign) :
    allowAssigns hold s' = .ok () (withNoassign s.es.noassign s') := by
  have back : (if hold = true then s'.es.noassign - 1 else s'.es.noassign) = s.es.noassign := by
    rw [same]
    cases hold <;> simp
  unfold allowAssigns
  rw [onState_run, withNoassign]
  simp only [back]

theorem Entry.withHold {lit : Prop} (entry : Entry lit s) (hold : Bool) :
    Entry lit (withNoassign (if hold then s.es.noassign + 1 else s.es.noassign) s) where
  owner := entry.owner
  safe := by
    rcases entry.safe with isLit | held
    · exact Or.inl isLit
    · refine Or.inr ?_
      cases hold with
      | true => exact Nat.succ_ne_zero _
      | false => exact held

theorem withHold_held (s : State) (hold : Bool) :
    ((withNoassign (if hold then s.es.noassign + 1 else s.es.noassign) s).es.noassign != 0) =
      (s.es.noassign != 0 || hold) := by
  cases hold with
  | true => simp [withNoassign]
  | false => simp [withNoassign]

theorem Reads.held {nested : Nested} {lit : Prop} {worth : Bool → Option Long} {words : List Word}
    {p : Nat} (reads : Reads nested lit worth words p) (hold : Bool) (fuel : Nat)
    (enough : 16 * words.length + p + 2 ≤ fuel) (entry : Entry lit s) (stops : Stops p rest)
    (facing : Facing s (words ++ rest)) :
    (∃ v a s', worth (s.es.noassign != 0 || hold) = some v ∧
        evalexpr nested fuel p
          (withNoassign (if hold then s.es.noassign + 1 else s.es.noassign) s) = .ok a s' ∧
        Yields (withNoassign (if hold then s.es.noassign + 1 else s.es.noassign) s) s' a v rest) ∨
      worth (s.es.noassign != 0 || hold) = none ∧ ∃ stop s',
        evalexpr nested fuel p
          (withNoassign (if hold then s.es.noassign + 1 else s.es.noassign) s) =
            .error stop s' := by
  have inner := reads fuel _ rest enough (entry.withHold hold) stops (facing.withNoassign _)
  rw [withHold_held] at inner
  rcases inner.split with ⟨v, a, s', value, run, yields⟩ | ⟨value, stop, s', run⟩
  · exact Or.inl ⟨v, a, s', value, run, yields⟩
  · exact Or.inr ⟨value, stop, s', run⟩

/-! ## Operators between two operands -/

/-- The value an operator has, from the values of its operands. -/
def infixWorth (held : Bool) (op : Token) (l : Option Long) (r : Bool → Option Long) :
    Option Long :=
  match l with
  | none => none
  | some a =>
      if op = .O_LAND then (r (held || a == 0)).map (binaryResult .O_LAND a)
      else if op = .O_LOR then (r (held || a != 0)).map (binaryResult .O_LOR a)
      else
        match r held with
        | none => none
        | some b => combine held op a b

/-- One turn of the loop over operators. -/
def Turn (worth : Option Long) (result : EStateM.Result Stop State Addr) (nested : Nested)
    (fuel q : Nat) (s : State) (rest : List Word) : Prop :=
  match worth with
  | some v => ∃ a s', result = evalLoop nested fuel q a s' ∧ Yields s s' a v rest
  | none => ∃ stop s', result = .error stop s'

theorem Turn.value {worth : Option Long} {result : EStateM.Result Stop State Addr} {nested : Nested}
    {fuel q : Nat} (known : worth = some v) (run : result = evalLoop nested fuel q a s')
    (yields : Yields s s' a v rest) : Turn worth result nested fuel q s rest := by
  rw [known]
  exact ⟨a, s', run, yields⟩

theorem Turn.stopped {worth : Option Long} {result : EStateM.Result Stop State Addr}
    {nested : Nested} {fuel q : Nat} {stop : Stop} (known : worth = none)
    (run : result = .error stop s') :
    Turn worth result nested fuel q s rest := by
  rw [known]
  exact ⟨stop, s', run⟩

theorem infix_facts (op : InfixOp) :
    op.val.Ordinary ∧ op.val.isPpmm = false ∧ op.val.isBinop = true ∧ op.val ≠ .O_ASN ∧
      op.val.isAssignop = false ∧ op.val ≠ .O_TERN ∧ 1 ≤ op.val.prec ∧ op.val.prec ≤ MAX_PREC ∧
      op.val.prec ≠ P_TERN ∧ op.val.prec ≠ P_ASSIGN := by
  obtain ⟨op, isInfix⟩ := op
  revert isInfix
  cases op <;> decide

section Turns

variable {nested : Nested} {lit : Prop} {worth : Bool → Option Long} {words : List Word}

variable {a : Addr} {rest : List Word} {s s' : State} {v : Long}

theorem turn_start (nested : Nested) (op : InfixOp) (all : AllLegible lit words)
    (nonempty : words ≠ []) (fuel : Nat) (entry : Entry lit s)
    (left : Yields s s' a v (.op op.val :: (words ++ rest))) :
    ∃ b s'', Operand s s'' b v (words ++ rest) ∧
      evalLoop nested (fuel + 1) op.val.prec a s' =
        (if op.val = .O_LAND ∨ op.val = .O_LOR then do
          let l ← numberAt b
          let skipped := if op.val = .O_LAND then l == 0 else l != 0
          holdAssigns skipped
          let vr ← intvar nested (← evalexpr nested fuel (op.val.prec - 1))
          setNumber b (binaryResult op.val l (← numberAt vr))
          allowAssigns skipped
          evalLoop nested fuel op.val.prec b
        else do
          let vr ← intvar nested (← evalexpr nested fuel (op.val.prec - 1))
          checkDivisor op.val vr
          setNumber b (← compute op.val (← numberAt b) (← numberAt vr))
          evalLoop nested fuel op.val.prec b : ExprM Addr) s'' := by
  obtain ⟨_, _, isBinop, notAsn, notAssign, notTern, _⟩ := infix_facts op
  obtain ⟨⟨tok, _⟩, text⟩ := left.facing
  obtain ⟨s1, run1, moved1⟩ := token_words all nonempty (entry.of_frame left.frame) text
  obtain ⟨b, s2, run2, operand2⟩ := (left.step moved1).cast nested
  refine ⟨b, s2, operand2, ?_⟩
  have here : (!(op.val.isBinop && decide (op.val.prec = op.val.prec))) = false := by
    rw [isBinop]
    simp
  rw [evalLoop, bind_ok (tokenNow_run s'), tok, here, if_neg (by decide), bind_ok run1]
  simp only [notAsn, notAssign, notTern, Bool.false_eq_true, if_false]
  rw [bind_ok run2]

theorem turn_strict (op : InfixOp) (notLand : op.val ≠ .O_LAND) (notLor : op.val ≠ .O_LOR)
    (reads : Reads nested lit worth words (op.val.prec - 1)) (all : AllLegible lit words)
    (nonempty : words ≠ []) {fuel : Nat} (enough : 16 * words.length + op.val.prec + 2 ≤ fuel)
    (entry : Entry lit s) (stops : Stops (op.val.prec - 1) rest)
    (left : Yields s s' a v (.op op.val :: (words ++ rest))) :
    Turn (infixWorth (s.es.noassign != 0) op.val (some v) worth)
      (evalLoop nested (fuel + 1) op.val.prec a s') nested fuel op.val.prec s rest := by
  obtain ⟨b, s2, operand2, opened⟩ := turn_start nested op all nonempty fuel entry left
  have inner := reads fuel s2 rest (by omega) (entry.of_frame operand2.frame) stops
    operand2.facing
  rw [operand2.frame.noassign] at inner
  rw [opened, if_neg (by simp [notLand, notLor])]
  unfold infixWorth
  simp only [notLand, notLor, if_false]
  rcases inner.split with ⟨w, c, s3, value, run3, yields3⟩ | ⟨value, stop, s3, run3⟩
  · obtain ⟨c', s4, run4, right⟩ := yields3.cast nested
    have left4 := operand2.across right.toYields
    have differ : b ≠ c' := by
      rintro rfl
      rcases right.new with new | held
      · exact Nat.not_le_of_lt operand2.inside new
      · exact operand2.apart held
    have held4 : s4.es.noassign = s.es.noassign :=
      right.frame.noassign.trans operand2.frame.noassign
    have step := checkDivisor_compute op.val
      (fun res => do setNumber b res; evalLoop nested fuel op.val.prec b) right differ
      left4.plain.number
    rw [held4] at step
    rw [bind_ok run3, bind_ok run4]
    rcases step with ⟨none, stop, s5, run5⟩ | ⟨res, s5, some, run5, right5, _⟩
    · exact Turn.stopped (by rw [value]; exact none) run5
    · obtain ⟨s6, run6, final⟩ := (operand2.across right5.toYields).setNumber res
      refine Turn.value (by rw [value]; exact some) (run5.trans ?_) final.toYields
      rw [bind_ok run6]
  · exact Turn.stopped (by rw [value]) (bind_error run3)

theorem setNumber_allowAssigns {γ : Type} (p : Addr) (n : Long) (hold : Bool) (k : ExprM γ)
    (s : State) :
    (do setNumber p n; allowAssigns hold; k : ExprM γ) s =
      (do allowAssigns hold; setNumber p n; k : ExprM γ) s := rfl

/-- The turn for `&&` and `||`: the right operand is evaluated in any case, with
assignments held back where it does not decide. -/
theorem turn_lazy (op : InfixOp) (skips : Long → Bool)
    (isLazy : op.val = .O_LAND ∧ skips = (fun l => l == 0) ∨
      op.val = .O_LOR ∧ skips = fun l => l != 0)
    (reads : Reads nested lit worth words (op.val.prec - 1)) (all : AllLegible lit words)
    (nonempty : words ≠ []) {fuel : Nat} (enough : 16 * words.length + op.val.prec + 2 ≤ fuel)
    (entry : Entry lit s) (stops : Stops (op.val.prec - 1) rest)
    (left : Yields s s' a v (.op op.val :: (words ++ rest))) :
    Turn (infixWorth (s.es.noassign != 0) op.val (some v) worth)
      (evalLoop nested (fuel + 1) op.val.prec a s') nested fuel op.val.prec s rest := by
  obtain ⟨b, s2, operand2, opened⟩ := turn_start nested op all nonempty fuel entry left
  have isEither : op.val = .O_LAND ∨ op.val = .O_LOR := isLazy.imp And.left And.left
  have skipping : (if op.val = .O_LAND then v == 0 else v != 0) = skips v := by
    rcases isLazy with ⟨same, rfl⟩ | ⟨same, rfl⟩ <;> rw [same] <;> rfl
  have meaning : infixWorth (s.es.noassign != 0) op.val (some v) worth =
      (worth (s.es.noassign != 0 || skips v)).map (binaryResult op.val v) := by
    rcases isLazy with ⟨same, rfl⟩ | ⟨same, rfl⟩ <;> rw [same] <;> rfl
  rw [opened, if_pos isEither, meaning, bind_ok (numberAt_run b s2), operand2.plain.number]
  simp only [skipping]
  rw [bind_ok (holdAssigns_run (skips v) s2)]
  have inner := reads.held (skips v) fuel (by omega) (entry.of_frame operand2.frame)
    stops operand2.facing
  rw [operand2.frame.noassign] at inner ⊢
  rcases inner with ⟨w, c, s3, value, run3, yields3⟩ | ⟨value, stop, s3, run3⟩
  · obtain ⟨c', s4, run4, right⟩ := yields3.cast nested
    have released := right.toYields.released
    obtain ⟨s6, run6, final⟩ :=
      (operand2.across released).setNumber (binaryResult op.val v w)
    have allowed := allowAssigns_run (skips v) s2 s4 (by
      rw [right.frame.noassign, operand2.frame.noassign]
      rfl)
    refine Turn.value (by rw [value]; rfl) ?_ final.toYields
    rw [bind_ok run3, bind_ok run4, bind_ok (numberAt_run c' s4), right.plain.number,
      setNumber_allowAssigns, bind_ok allowed, bind_ok run6]
  · exact Turn.stopped (by rw [value]; rfl) (bind_error run3)

theorem turn_infix (op : InfixOp) (reads : Reads nested lit worth words (op.val.prec - 1))
    (all : AllLegible lit words) (nonempty : words ≠ []) {fuel : Nat}
    (enough : 16 * words.length + op.val.prec + 2 ≤ fuel) (entry : Entry lit s)
    (stops : Stops (op.val.prec - 1) rest) (left : Yields s s' a v (.op op.val :: (words ++ rest))) :
    Turn (infixWorth (s.es.noassign != 0) op.val (some v) worth)
      (evalLoop nested (fuel + 1) op.val.prec a s') nested fuel op.val.prec s rest := by
  by_cases land : op.val = .O_LAND
  · exact turn_lazy op _ (Or.inl ⟨land, rfl⟩) reads all nonempty enough entry stops left
  · by_cases lor : op.val = .O_LOR
    · exact turn_lazy op _ (Or.inr ⟨lor, rfl⟩) reads all nonempty enough entry stops left
    · exact turn_strict op land lor reads all nonempty enough entry stops left

theorem loopReads_infix {worthL : Bool → Option Long} {wordsL : List Word} (op : InfixOp)
    (left : LoopReads nested lit worthL wordsL op.val.prec)
    (right : Reads nested lit worth words (op.val.prec - 1)) (all : AllLegible lit words)
    (nonempty : words ≠ []) :
    LoopReads nested lit (fun held => infixWorth held op.val (worthL held) worth)
      (wordsL ++ .op op.val :: words) op.val.prec := by
  intro fuel s rest enough entry stops facing
  obtain ⟨ordinary, notPpmm, _, _, _, _, positive, _⟩ := infix_facts op
  simp only [List.length_append, List.length_cons] at enough ⊢
  have stopsHere : Stops (op.val.prec - 1) (.op op.val :: (words ++ rest)) := by
    rintro w ⟨⟩
    exact ⟨_, rfl, ordinary, notPpmm, fun _ => by omega⟩
  have inner := left fuel s (.op op.val :: (words ++ rest)) (by omega) entry stopsHere (by
    simpa using facing)
  cases value : worthL (s.es.noassign != 0) with
  | none =>
      rw [value] at inner
      exact inner
  | some v =>
      rw [value] at inner
      obtain ⟨fuel', a, s', run, yields, left⟩ := inner
      obtain ⟨more, rfl⟩ : ∃ more, fuel' = more + 1 := ⟨fuel' - 1, by omega⟩
      have turn := turn_infix op right all nonempty (show _ ≤ more by omega) entry stops yields
      rw [← run] at turn
      cases result : infixWorth (s.es.noassign != 0) op.val (some v) worth with
      | none =>
          rw [result] at turn
          exact turn
      | some v' =>
          rw [result] at turn
          obtain ⟨a', s'', ran, yields'⟩ := turn
          exact ⟨more, a', s'', ran, yields', by omega⟩

theorem stops_ctern (rest : List Word) : Stops MAX_PREC (.op .CTERN :: rest) := by
  rintro w ⟨⟩
  exact ⟨_, rfl, by decide, rfl, by intro impossible; cases impossible⟩

/-- The value of `? :` from the values of its parts. -/
def ternaryWorth (held : Bool) (c : Option Long) (a b : Bool → Option Long) : Option Long :=
  match c with
  | none => none
  | some n =>
      match a (held || n == 0), b (held || n != 0) with
      | some x, some y => some (if n = 0 then y else x)
      | _, _ => none

theorem Reads.guarded {p : Nat} (reads : Reads nested lit worth words p) (hold : Bool) (fuel : Nat)
    (enough : 16 * words.length + p + 2 ≤ fuel) (entry : Entry lit s) (stops : Stops p rest)
    (facing : Facing s (words ++ rest)) (k : Addr → ExprM Addr) :
    (∃ v a s', worth (s.es.noassign != 0 || hold) = some v ∧ Yields s s' a v rest ∧
        (do
          holdAssigns hold
          let vl ← evalexpr nested fuel p
          allowAssigns hold
          k vl : ExprM Addr) s = k a s') ∨
      worth (s.es.noassign != 0 || hold) = none ∧ ∃ stop s',
        (do
          holdAssigns hold
          let vl ← evalexpr nested fuel p
          allowAssigns hold
          k vl : ExprM Addr) s = .error stop s' := by
  rw [bind_ok (holdAssigns_run hold s)]
  rcases reads.held hold fuel enough entry stops facing with
    ⟨v, a, s', value, run, yields⟩ | ⟨value, stop, s', run⟩
  · refine Or.inl ⟨v, a, withNoassign s.es.noassign s', value, yields.released, ?_⟩
    rw [bind_ok run, bind_ok (allowAssigns_run hold s s' yields.frame.noassign)]
  · exact Or.inr ⟨value, stop, s', bind_error run⟩

/-- Both arms are read; the one that is not selected with assignments held back. -/
theorem reads_ternary {worthC worthA worthB : Bool → Option Long}
    {wordsC wordsA wordsB : List Word} (readsC : Reads nested lit worthC wordsC (P_TERN - 1))
    (readsA : Reads nested lit worthA wordsA MAX_PREC)
    (readsB : Reads nested lit worthB wordsB P_TERN) (allA : AllLegible lit wordsA)
    (allB : AllLegible lit wordsB) (nonemptyA : wordsA ≠ []) (nonemptyB : wordsB ≠ []) :
    Reads nested lit (fun held => ternaryWorth held (worthC held) worthA worthB)
      (wordsC ++ .op .O_TERN :: (wordsA ++ .op .CTERN :: wordsB)) P_TERN := by
  intro fuel s rest enough entry stops facing
  simp only [List.length_append, List.length_cons, P_TERN] at enough
  obtain ⟨more, rfl⟩ : ∃ more, fuel = more + 3 := ⟨fuel - 3, by omega⟩
  have stopsHere : Stops (P_TERN - 1)
      (.op .O_TERN :: (wordsA ++ .op .CTERN :: (wordsB ++ rest))) := by
    rintro w ⟨⟩
    exact ⟨_, rfl, by decide, rfl, by intro _; decide⟩
  have inner := readsC (more + 2) s _ (by unfold P_TERN; omega) entry stopsHere
    (by simpa using facing)
  have opened : evalexpr nested (more + 3) P_TERN =
      evalexpr nested (more + 2) (P_TERN - 1) >>= evalLoop nested (more + 2) P_TERN := rfl
  show Outcome (ternaryWorth _ _ _ _) _ _ _
  rw [opened]
  rcases inner.split with ⟨n, c, s1, value, run1, yields1⟩ | ⟨value, stop, s1, run1⟩
  swap
  · exact Outcome.stopped (by rw [value]; rfl) (bind_error run1)
  obtain ⟨⟨tok, _⟩, text⟩ := yields1.facing
  obtain ⟨s2, run2, moved2⟩ := token_words allA nonemptyA (entry.of_frame yields1.frame) text
  obtain ⟨c', s3, run3, operand3⟩ := (yields1.step moved2).cast nested
  have entry3 := entry.of_frame operand3.frame
  have arms : evalLoop nested (more + 2) P_TERN c s1 = (do
      holdAssigns (!(n != 0))
      let vl ← evalexpr nested (more + 1) MAX_PREC
      allowAssigns (!(n != 0))
      if (← tokenNow) ≠ .CTERN then evalerr .ET_STR (missing ':')
      else do
        token
        holdAssigns (n != 0)
        let vr ← evalexpr nested (more + 1) P_TERN
        allowAssigns (n != 0)
        evalLoop nested (more + 1) P_TERN (if (n != 0) = true then vl else vr) : ExprM Addr)
      s3 := by
    rw [evalLoop, bind_ok (tokenNow_run s1), tok, if_neg (by decide), bind_ok run2,
      if_neg (by decide), bind_ok run3]
    beta_reduce
    rw [if_neg (by decide), if_pos rfl, bind_ok (numberAt_run c' s3), operand3.plain.number]
  rw [bind_ok run1, arms, value]
  have selected : (!(n != 0)) = (n == 0) := by simp [bne]
  have first := readsA.guarded (!(n != 0)) (more + 1) (by unfold MAX_PREC; omega) entry3
    (stops_ctern _) operand3.facing fun vl => do
      if (← tokenNow) ≠ .CTERN then evalerr .ET_STR (missing ':')
      else do
        token
        holdAssigns (n != 0)
        let vr ← evalexpr nested (more + 1) P_TERN
        allowAssigns (n != 0)
        evalLoop nested (more + 1) P_TERN (if (n != 0) = true then vl else vr)
  rw [operand3.frame.noassign] at first
  rcases first with ⟨x, a, s4, valueA, yields4, run4⟩ | ⟨valueA, stop, s4, run4⟩
  swap
  · refine Outcome.stopped ?_ run4
    rw [selected] at valueA
    simp only [ternaryWorth, valueA]
  have yieldsA := operand3.toYields.next yields4
  obtain ⟨⟨tok4, _⟩, text4⟩ := yields4.facing
  obtain ⟨s5, run5, moved5⟩ := token_words allB nonemptyB (entry.of_frame yieldsA.frame) text4
  have yields5 := yieldsA.step moved5
  have second := readsB.guarded (n != 0) (more + 1) (by unfold P_TERN; omega)
    (entry.of_frame yields5.frame) stops yields5.facing fun vr =>
      evalLoop nested (more + 1) P_TERN (if (n != 0) = true then a else vr)
  rw [yields5.frame.noassign] at second
  rw [run4, bind_ok (tokenNow_run s4), tok4, if_neg (by decide), bind_ok run5]
  rcases second with ⟨y, b, s6, valueB, yields6, run6⟩ | ⟨valueB, stop, s6, run6⟩
  swap
  · refine Outcome.stopped ?_ run6
    simp only [ternaryWorth, valueB]
    split <;> trivial
  have leaves := stops.leaves yields6.facing (Nat.le_refl P_TERN)
  rw [run6, evalLoop_exit nested _ leaves]
  rw [selected] at valueA
  have meaning : ternaryWorth (s.es.noassign != 0) (some n) worthA worthB =
      some (if n = 0 then y else x) := by
    simp only [ternaryWorth, valueA, valueB]
  by_cases zero : n = 0
  · refine Outcome.value meaning rfl ?_
    simp only [zero, bne_self_eq_false, Bool.false_eq_true, if_false, if_true]
    exact yields5.next yields6
  · refine Outcome.value meaning rfl ?_
    simp only [zero, bne_iff_ne, ne_eq, not_false_eq_true, if_true, if_false]
    exact yields5.across yields6

/-- Climbing over a variable leaves its own cell as the operand. -/
theorem evalexpr_var (nested : Nested) (x : VarName) (p : Nat) :
    ∀ {fuel : Nat} {s : State} {rest : List Word}, p + 4 ≤ fuel → s.es.owner = none →
      Stops p rest → Facing s (.name x :: rest) →
      ∃ s', evalexpr nested fuel p s = .ok s.es.val s' ∧ Moved s s' rest := by
  induction p with
  | zero =>
      intro fuel s rest enough owner stops facing
      obtain ⟨more, rfl⟩ : ∃ more, fuel = more + 2 := ⟨fuel - 2, by omega⟩
      obtain ⟨⟨tok, _⟩, text⟩ := facing
      obtain ⟨s', run, moved⟩ := token_moves rest owner text (stops.legible s)
      refine ⟨s', ?_, moved⟩
      rw [evalexpr, bind_ok (primary_leaf nested (Or.inl tok) run)]
      exact postfixOps_exit nested _ (stops.token_facts moved.facing).1
  | succ p ih =>
      intro fuel s rest enough owner stops facing
      obtain ⟨more, rfl⟩ : ∃ more, fuel = more + 2 := ⟨fuel - 2, by omega⟩
      obtain ⟨s', run, moved⟩ := ih (show _ ≤ more + 1 by omega) owner
        (stops.weaken (Nat.le_succ p)) facing
      refine ⟨s', ?_, moved⟩
      rw [evalexpr, bind_ok run]
      exact evalLoop_exit nested _ (stops.leaves moved.facing (Nat.le_refl _))

theorem assign_facts (op : AssignOp) :
    op.val.Ordinary ∧ op.val.isPpmm = false ∧ op.val.isBinop = true ∧ op.val.prec = P_ASSIGN := by
  obtain ⟨op, isAssign⟩ := op
  revert isAssign
  cases op <;> decide

/-- Writing the cell of the first token keeps the operand. -/
theorem Yields.update {s'' : State} {p : Addr} (yields : Yields s s' a v rest)
    (updated : Updated s' s'' p) (held : heldCell s = some p) (inside : p < s.shell.next)
    (differ : a ≠ p) : Yields s s'' a v rest where
  facing := by
    refine yields.facing.congr updated.es (Nat.le_of_eq updated.next.symm) ?_
    intro b later
    apply updated.cells
    rintro rfl
    exact Nat.not_le_of_lt inside (yields.fresh b later)
  frame := yields.frame.trans updated.framed fun q same _ => held.trans same
  fresh b later := yields.fresh b (heldCell_congr updated.es ▸ later)
  inside := by
    rw [updated.next]
    exact yields.inside
  new := yields.new
  apart := by
    rw [heldCell_congr updated.es]
    exact yields.apart
  temp := by
    rw [updated.cells a differ]
    exact yields.temp

theorem assign_left (nested : Nested) (op : Token) (yields : Yields s s' a 0 rest)
    (standIn : s'.shell.cell a = temporary (ISSET ||| INTEGER ||| EXPRLVALUE) (.i 0)) :
    ∃ b s'', (∀ k : Addr → ExprM Addr,
        (if op = .O_ASN then pure a >>= k else intvar nested a >>= k) s' = k b s'') ∧
      Yields s s'' b 0 rest ∧ (s''.shell.cell b).number = 0 ∧
      s''.shell.cell a = temporary (ISSET ||| INTEGER ||| EXPRLVALUE) (.i 0) := by
  by_cases asn : op = .O_ASN
  · refine ⟨a, s', fun k => by rw [if_pos asn]; rfl, yields, ?_, standIn⟩
    rw [standIn]
    rfl
  · obtain ⟨b, s'', run, operand⟩ := yields.cast nested
    obtain ⟨_, _, same, _, framed, _⟩ := intvar_temp nested yields.temp yields.inside
    cases run.symm.trans same
    refine ⟨b, s'', fun k => by rw [if_neg asn, bind_ok run], operand.toYields, operand.plain.number, ?_⟩
    rw [framed.cells a yields.inside (by simp)]
    exact standIn

/-- The value of an assignment while it is held back. -/
def assignWorth (held : Bool) (op : Token) (r : Option Long) : Option Long :=
  match r with
  | none => none
  | some b => combine held op 0 b

theorem reads_assign (op : AssignOp) (x : VarName)
    (reads : Reads nested lit worth words P_ASSIGN) (all : AllLegible lit words)
    (nonempty : words ≠ []) :
    Reads nested lit (fun held => assignWorth held op.val (worth held))
      (.name x :: .op op.val :: words) P_ASSIGN := by
  intro fuel s rest enough entry stops facing
  simp only [List.length_cons, P_ASSIGN] at enough
  obtain ⟨more, rfl⟩ : ∃ more, fuel = more + 3 := ⟨fuel - 3, by omega⟩
  obtain ⟨ordinary, notPpmm, isBinop, prec⟩ := assign_facts op
  have stopsHere : Stops 11 (.op op.val :: (words ++ rest)) := by
    rintro w ⟨⟩
    exact ⟨_, rfl, ordinary, notPpmm, fun _ => by rw [prec]; decide⟩
  obtain ⟨s1, run1, moved1⟩ := evalexpr_var nested x 11 (show _ ≤ more + 2 by omega) entry.owner
    stopsHere facing
  obtain ⟨⟨tok, inside, standIn⟩, _⟩ := facing
  have held : heldCell s = some s.es.val := by rw [heldCell, tok]
  have standIn1 := (moved1.frame.cells _ inside (by simp)).trans standIn
  have yields1 : Yields s s1 s.es.val 0 _ :=
    moved1.leaf held inside (by rw [standIn]; exact temporary_temp)
  obtain ⟨⟨tok1, _⟩, text1⟩ := moved1.facing
  obtain ⟨s2, run2, moved2⟩ := token_words all nonempty (entry.of_frame moved1.frame) text1
  have standIn2 := (moved2.frame.cells _ yields1.inside (by simp)).trans standIn1
  obtain ⟨b, s3, run3, yields3, number3, standIn3⟩ :=
    assign_left nested op.val (yields1.step moved2) standIn2
  have entry3 := entry.of_frame yields3.frame
  have checked := assignCheck_standIn op.val standIn3
  have opened : evalexpr nested (more + 3) P_ASSIGN s = (do
      let vr ← intvar nested (← evalexpr nested (more + 1) P_ASSIGN)
      checkDivisor op.val vr
      let res ← compute op.val (← numberAt b) (← numberAt vr)
      setNumber vr res
      storeNumber s.es.val vr
      evalLoop nested (more + 1) P_ASSIGN vr : ExprM Addr) s3 := by
    have here : (!(op.val.isBinop && decide (op.val.prec = P_ASSIGN))) = false := by
      rw [isBinop, prec]
      rfl
    have climbed : evalexpr nested (more + 3) P_ASSIGN =
      evalexpr nested (more + 2) 11 >>= evalLoop nested (more + 2) P_ASSIGN := rfl
    rw [climbed, bind_ok run1, evalLoop, bind_ok (tokenNow_run s1), tok1, here,
      if_neg (by decide), bind_ok run2]
    refine (run3 _).trans ?_
    beta_reduce
    rw [if_pos op.property, bind_ok checked]
  show Outcome (assignWorth _ _ _) _ _ _
  rw [opened]
  have inner := reads (more + 1) s3 rest (by unfold P_ASSIGN; omega) entry3 stops yields3.facing
  rw [yields3.frame.noassign] at inner
  rcases inner.split with ⟨w, c, s4, value, run4, yields4⟩ | ⟨value, stop, s4, run4⟩
  swap
  · exact Outcome.stopped (by rw [value]; rfl) (bind_error run4)
  obtain ⟨c', s5, run5, right⟩ := yields4.cast nested
  have number5 : (s5.shell.cell b).number = 0 := by
    rw [right.frame.cells b yields3.inside yields3.apart]
    exact number3
  have differ : b ≠ c' := by
    rintro rfl
    rcases right.new with new | held'
    · exact Nat.not_le_of_lt yields3.inside new
    · exact yields3.apart held'
  rw [bind_ok run4, bind_ok run5, value]
  have step := checkDivisor_compute op.val (fun res => do
      setNumber c' res
      storeNumber s.es.val c'
      evalLoop nested (more + 1) P_ASSIGN c') right differ number5
  rw [right.frame.noassign.trans yields3.frame.noassign] at step
  rcases step with ⟨none, stop, s6, run6⟩ | ⟨res, s6, some, run6, right6, _⟩
  · exact Outcome.stopped none run6
  obtain ⟨s7, run7, right7⟩ := right6.setNumber res
  have heldApart : heldCell s3 ≠ Option.some s.es.val := fun later =>
    Nat.not_le_of_lt inside (yields3.fresh _ later)
  have integer : has (s7.shell.cell s.es.val).flag INTEGER = true := by
    rw [right7.frame.cells _ (Nat.lt_of_lt_of_le inside yields3.frame.next) heldApart, standIn3]
    decide
  obtain ⟨s8, run8, updated8⟩ := storeNumber_standIn s.es.val integer right7.plain
  have final := yields3.next right7.toYields
  have differ8 : c' ≠ s.es.val := by
    rintro rfl
    rcases right7.new with new | held'
    · exact Nat.not_le_of_lt (Nat.lt_of_lt_of_le inside yields3.frame.next) new
    · exact heldApart held'
  have yields8 := final.update updated8 held inside differ8
  refine Outcome.value some (run6.trans ?_) yields8
  rw [bind_ok run7, bind_ok run8]
  exact evalLoop_exit nested _ (stops.leaves yields8.facing (Nat.le_refl _))

end Turns

/-! ## Trees -/

theorem Tree.level_le (t : Tree) : t.level ≤ MAX_PREC := by
  cases t with
  | binary op l r => exact (infix_facts op).2.2.2.2.2.2.2.1
  | lit n => exact Nat.zero_le _
  | var x => exact Nat.zero_le _
  | group t => exact Nat.zero_le _
  | unary op t => exact Nat.zero_le _
  | ternary c a b => exact (by decide : P_TERN ≤ MAX_PREC)
  | assign op x t => exact (by decide : P_ASSIGN ≤ MAX_PREC)
  | pre op x => exact Nat.zero_le _
  | post op x => exact Nat.zero_le _

theorem Tree.body_ne_nil (t : Tree) : t.body ≠ [] := by
  cases t <;> simp [Tree.body]

theorem Tree.words_ne_nil (t : Tree) (p : Nat) : t.words p ≠ [] := by
  unfold Tree.words parenthesize
  split
  · exact t.body_ne_nil
  · simp

theorem AllLegible.parenthesize {lit : Prop} {words : List Word} (all : AllLegible lit words)
    (level p : Nat) : AllLegible lit (parenthesize level p words) := by
  unfold Expr.parenthesize
  split
  · exact all
  · intro w member
    simp only [List.cons_append, List.mem_cons, List.mem_append, List.mem_nil_iff, or_false]
      at member
    rcases member with rfl | member | rfl
    · exact (by decide : Token.Ordinary .OPEN_PAREN)
    · exact all w member
    · exact (by decide : Token.Ordinary .CLOSE_PAREN)

theorem AllLegible.append {lit : Prop} {left right : List Word} (first : AllLegible lit left)
    (second : AllLegible lit right) : AllLegible lit (left ++ right) := by
  intro w member
  rcases List.mem_append.mp member with here | there
  · exact first w here
  · exact second w there

theorem AllLegible.op {lit : Prop} {tok : Token} (ordinary : tok.Ordinary)
    (all : AllLegible lit rest) : AllLegible lit (.op tok :: rest) := by
  intro w member
  rcases List.mem_cons.mp member with rfl | there
  · exact ordinary
  · exact all w there

theorem AllLegible.name {lit : Prop} {x : VarName} (vary : ¬ lit) (all : AllLegible lit rest) :
    AllLegible lit (.name x :: rest) := by
  intro w member
  rcases List.mem_cons.mp member with rfl | there
  · exact vary
  · exact all w there

theorem unary_ordinary (op : UnaryOp) : op.val.Ordinary := by
  obtain ⟨op, isUnary⟩ := op
  revert isUnary
  cases op <;> decide

theorem step_ordinary (op : StepOp) : op.val.Ordinary := by
  rcases isPpmm_cases op.property with same | same <;> rw [same] <;> decide

theorem allLegible_nil (lit : Prop) : AllLegible lit [] := by
  intro w member
  cases member

theorem Tree.body_legible {lit : Prop} (t : Tree) (literal : lit → t.Literal) :
    AllLegible lit t.body := by
  have nothing := allLegible_nil lit
  induction t with
  | lit n =>
      intro w member
      cases List.mem_singleton.mp member
      trivial
  | var x => exact AllLegible.name literal nothing
  | group t ih =>
      exact AllLegible.op (by decide) ((ih literal).append (AllLegible.op (by decide) nothing))
  | unary op t ih =>
      exact AllLegible.op (unary_ordinary op) ((ih literal).parenthesize _ _)
  | binary op l r ihL ihR =>
      exact ((ihL fun h => (literal h).1).parenthesize _ _).append
        (AllLegible.op (infix_facts op).1 ((ihR fun h => (literal h).2).parenthesize _ _))
  | ternary c a b ihC ihA ihB =>
      exact ((ihC fun h => (literal h).1).parenthesize _ _).append
        (AllLegible.op (by decide) (((ihA fun h => (literal h).2.1).parenthesize _ _).append
          (AllLegible.op (by decide) ((ihB fun h => (literal h).2.2).parenthesize _ _))))
  | assign op x t ih =>
      exact AllLegible.name literal (AllLegible.op (assign_facts op).1
        ((ih fun h => absurd (literal h) id).parenthesize _ _))
  | pre op x => exact AllLegible.op (step_ordinary op) (AllLegible.name literal nothing)
  | post op x => exact AllLegible.name literal (AllLegible.op (step_ordinary op) nothing)

/-- The climber reads the words of a tree, as an operand of any precedence. -/
structure TreeReads (nested : Nested) (lit : Prop) (t : Tree) : Prop where
  body : Reads nested lit (fun held => t.worth held) t.body t.level
  loop : ∀ op l r, t = .binary op l r →
    LoopReads nested lit (fun held => t.worth held) t.body op.val.prec

section Trees

variable {nested : Nested} {lit : Prop} {t : Tree}

theorem TreeReads.words (reads : TreeReads nested lit t) (literal : lit → t.Literal) (p : Nat) :
    Reads nested lit (fun held => t.worth held) (t.words p) p := by
  unfold Tree.words parenthesize
  by_cases fits : t.level ≤ p
  · rw [if_pos fits]
    exact reads.body.climb_to fits
  · rw [if_neg fits]
    exact ((reads.body.climb_to t.level_le).paren (t.body_legible literal) t.body_ne_nil).climb_to
      (Nat.zero_le p)

/-- Only an operator between two operands has the level of such an operator. -/
theorem Tree.binary_of_level {op : InfixOp} (same : t.level = op.val.prec) :
    ∃ op' l r, t = .binary op' l r ∧ op'.val.prec = op.val.prec := by
  obtain ⟨_, _, _, _, _, _, positive, _, notTern, notAssign⟩ := infix_facts op
  cases t with
  | binary op' l r => exact ⟨op', l, r, rfl, same⟩
  | lit n => exact absurd same (Nat.ne_of_lt positive)
  | var x => exact absurd same (Nat.ne_of_lt positive)
  | group t => exact absurd same (Nat.ne_of_lt positive)
  | unary op t => exact absurd same (Nat.ne_of_lt positive)
  | ternary c a b => exact absurd same.symm notTern
  | assign op x t => exact absurd same.symm notAssign
  | pre op x => exact absurd same (Nat.ne_of_lt positive)
  | post op x => exact absurd same (Nat.ne_of_lt positive)

theorem TreeReads.words_loop (reads : TreeReads nested lit t) (literal : lit → t.Literal)
    (op : InfixOp) :
    LoopReads nested lit (fun held => t.worth held) (t.words op.val.prec) op.val.prec := by
  by_cases same : t.level = op.val.prec
  · obtain ⟨op', l, r, shape, precs⟩ := Tree.binary_of_level same
    have loop := reads.loop op' l r shape
    rw [precs] at loop
    rw [Tree.words, parenthesize, if_pos (Nat.le_of_eq same)]
    exact loop
  · have positive := (infix_facts op).2.2.2.2.2.2.1
    have inner := reads.words literal (op.val.prec - 1)
    have sameWords : t.words (op.val.prec - 1) = t.words op.val.prec := by
      unfold Tree.words parenthesize
      by_cases fits : t.level ≤ op.val.prec
      · rw [if_pos fits, if_pos (by omega)]
      · rw [if_neg fits, if_neg (by omega)]
    rw [sameWords] at inner
    have loop := inner.loop (t.words_ne_nil _)
    rw [Nat.sub_add_cancel positive] at loop
    exact loop

theorem TreeReads.of_body (body : Reads nested lit (fun held => t.worth held) t.body t.level)
    (notBinary : ∀ op l r, t ≠ .binary op l r) : TreeReads nested lit t where
  body := body
  loop op l r same := absurd same (notBinary op l r)

theorem treeReads (nested : Nested) (t : Tree) :
    (lit → t.Literal) → TreeReads nested lit t := by
  induction t with
  | lit n =>
      intro _
      exact .of_body (reads_lit nested lit n) (by intros; simp)
  | var x =>
      intro _
      exact .of_body (reads_var nested lit x) (by intros; simp)
  | group t ih =>
      intro literal
      exact .of_body (((ih literal).body.climb_to t.level_le).paren (t.body_legible literal)
        t.body_ne_nil) (by intros; simp)
  | unary op t ih =>
      intro literal
      exact .of_body (reads_unary op ((ih literal).words literal P_PRIMARY)
        ((t.body_legible literal).parenthesize _ _) (t.words_ne_nil _)) (by intros; simp)
  | binary op l r ihL ihR =>
      intro literal
      have literalL : lit → l.Literal := fun h => (literal h).1
      have literalR : lit → r.Literal := fun h => (literal h).2
      have loop := loopReads_infix op ((ihL literalL).words_loop literalL op)
        ((ihR literalR).words literalR (op.val.prec - 1))
        ((r.body_legible literalR).parenthesize _ _) (r.words_ne_nil _)
      exact ⟨loop.reads, by rintro op' l' r' ⟨⟩; exact loop⟩
  | ternary c a b ihC ihA ihB =>
      intro literal
      have literalC : lit → c.Literal := fun h => (literal h).1
      have literalA : lit → a.Literal := fun h => (literal h).2.1
      have literalB : lit → b.Literal := fun h => (literal h).2.2
      exact .of_body (reads_ternary ((ihC literalC).words literalC _)
        ((ihA literalA).words literalA _) ((ihB literalB).words literalB _)
        ((a.body_legible literalA).parenthesize _ _) ((b.body_legible literalB).parenthesize _ _)
        (a.words_ne_nil _) (b.words_ne_nil _)) (by intros; simp)
  | assign op x t ih =>
      intro literal
      have literalT : lit → t.Literal := fun h => absurd (literal h) id
      exact .of_body (reads_assign op x ((ih literalT).words literalT _)
        ((t.body_legible literalT).parenthesize _ _) (t.words_ne_nil _)) (by intros; simp)
  | pre op x =>
      intro literal
      exact .of_body (reads_pre nested literal op x) (by intros; simp)
  | post op x =>
      intro _
      exact .of_body (reads_post nested op x) (by intros; simp)

end Trees

end Netbase.Ksh.Expr
