import Mathlib
import Netbase.Ksh.Expr

/-!
# Two climbers side by side

The climber only looks at tokens and numbers and works through a handful of
operations on variables.  Whatever relation between two states those operations
keep, whole evaluations keep.
-/

namespace Netbase.Ksh.Expr

open Netbase.Text Netbase.Lib

section

variable {W : Type} [Preorder W] (R : W → State → State → Prop) (A : W → Addr → Addr → Prop)

/-- The states are still related. -/
def Kept {α β : Type} (w : W) (_ : α) (_ : β) (s t : State) : Prop := R w s t

/-- The states are still related, and the operands correspond. -/
def Gives (w : W) (a b : Addr) (s t : State) : Prop := R w s t ∧ A w a b

/-- The operations on variables keep a relation between two states. -/
structure Operations (fail : Stop → State → Stop → State → Prop) (nested nested' : Nested) :
    Prop where
  grows : ∀ {w w' a b}, w ≤ w' → A w a b → A w' a b
  noassign : ∀ {w s t}, R w s t → s.es.noassign = t.es.noassign
  number : ∀ {w s t a b}, R w s t → A w a b → (s.shell.cell a).number = (t.shell.cell b).number
  intvar : ∀ {w a b}, A w a b →
    Relates w (R w) (intvar nested a) (intvar nested' b) (Gives R A) fail
  setNumber : ∀ {w a b} (n : Long), A w a b →
    Relates w (R w) (setNumber a n) (setNumber b n) (Kept R) fail
  assignCheck : ∀ {w a b} (op : Token), A w a b →
    Relates w (R w) (assignCheck op a) (assignCheck op b) (Kept R) fail
  storeNumber : ∀ {w a b c d}, A w a b → A w c d →
    Relates w (R w) (storeNumber a c) (storeNumber b d) (Kept R) fail
  hold : ∀ {w} (h : Bool), Relates w (R w) (holdAssigns h) (holdAssigns h) (Kept R) fail
  allow : ∀ {w} (h : Bool), Relates w (R w) (allowAssigns h) (allowAssigns h) (Kept R) fail
  evalerr : ∀ {w s t} (type : ErrorType) (str : List Byte), R w s t →
    fail (.evalerr type s.es.expression str) s (.evalerr type t.es.expression str) t
  unexpected : ∀ {w s t}, R w s t →
    fail (.evalerr .ET_UNEXPECTED s.es.expression (unexpectedText s)) s
      (.evalerr .ET_UNEXPECTED t.es.expression (unexpectedText t)) t
  trap : ∀ {w s t}, R w s t → fail .trap s .trap t
  endless : ∀ {w s t}, R w s t → fail .endless s .endless t

/-- So does reading a token, and both stand at the same one. -/
structure Simulation (fail : Stop → State → Stop → State → Prop) (nested nested' : Nested) :
    Prop extends Operations R A fail nested nested' where
  tok : ∀ {w s t}, R w s t → s.es.tok = t.es.tok
  val : ∀ {w s t}, R w s t → s.es.tok = .VAR ∨ s.es.tok = .LIT → A w s.es.val t.es.val
  token : ∀ w, Relates w (R w) token token (Kept R) fail

end

section Steps

variable {W : Type} [Preorder W] {R : W → State → State → Prop} {A : W → Addr → Addr → Prop}
  {fail : Stop → State → Stop → State → Prop} {nested nested' : Nested} {w : W}

theorem tokenNow_relates (sim : Simulation R A fail nested nested') (w : W) :
    Relates w (R w) tokenNow tokenNow
      (fun w' op op' s t => op = op' ∧ R w' s t ∧ s.es.tok = op) fail := by
  intro s t related
  exact ⟨w, le_refl w, sim.tok related, related, rfl⟩

theorem tokenNow_same (sim : Simulation R A fail nested nested') (w : W) :
    Relates w (R w) tokenNow tokenNow (fun w' op op' s t => op = op' ∧ R w' s t) fail :=
  (tokenNow_relates sim w).weaken (fun _ _ related => related)
    fun _ _ _ _ _ _ found => ⟨found.1, found.2.1⟩

variable {a b : Addr}

theorem numberAt_relates (ops : Operations R A fail nested nested') (corresponds : A w a b) :
    Relates w (R w) (numberAt a) (numberAt b) (fun w' n m s t => n = m ∧ R w' s t) fail := by
  intro s t related
  exact ⟨w, le_refl w, ops.number related corresponds, related⟩

theorem evalerr_relates (ops : Operations R A fail nested nested') {α β : Type}
    {post : W → α → β → State → State → Prop} (type : ErrorType) (str : List Byte) :
    Relates w (R w) (evalerr type str : ExprM α) (evalerr type str : ExprM β) post fail :=
  fun _ _ related => ops.evalerr type str related

theorem unexpected_relates (ops : Operations R A fail nested nested') {α β : Type}
    {post : W → α → β → State → State → Prop} :
    Relates w (R w) (unexpected : ExprM α) (unexpected : ExprM β) post fail :=
  fun _ _ related => ops.unexpected related

theorem relates_same {α β β' : Type} {pre : State → State → Prop} {x y : ExprM α}
    {f : α → ExprM β} {g : α → ExprM β'} {mid : W → α → State → State → Prop}
    {post : W → β → β' → State → State → Prop}
    (first : Relates w pre x y (fun w' a b s t => a = b ∧ mid w' a s t) fail)
    (rest : ∀ w', w ≤ w' → ∀ a, Relates w' (mid w' a) (f a) (g a) post fail) :
    Relates w pre (x >>= f) (y >>= g) post fail := by
  refine Relates.bind first ?_
  rintro w' le a _ s t ⟨rfl, related⟩
  exact rest w' le a s t related

theorem relates_operand {β β' : Type} {pre : State → State → Prop} {x y : ExprM Addr}
    {f : Addr → ExprM β} {g : Addr → ExprM β'} {post : W → β → β' → State → State → Prop}
    (first : Relates w pre x y (Gives R A) fail)
    (rest : ∀ w', w ≤ w' → ∀ a b, A w' a b → Relates w' (R w') (f a) (g b) post fail) :
    Relates w pre (x >>= f) (y >>= g) post fail := by
  refine Relates.bind first ?_
  rintro w' le a b s t ⟨related, corresponds⟩
  exact rest w' le a b corresponds s t related

theorem relates_gives (corresponds : A w a b) :
    Relates w (R w) (pure a : ExprM Addr) (pure b : ExprM Addr) (Gives R A) fail :=
  Relates.pure fun _ _ related => ⟨related, corresponds⟩

theorem checkDivisor_relates (ops : Operations R A fail nested nested') (op : Token)
    (corresponds : A w a b) :
    Relates w (R w) (checkDivisor op a) (checkDivisor op b) (Kept R) fail := by
  refine relates_same (numberAt_relates ops corresponds) fun w' le n => ?_
  by_cases zero : op.divides ∧ n = 0
  · simp only [zero, and_self, if_true]
    refine Relates.read fun s t related => ?_
    rintro s' t' ⟨rfl, rfl⟩
    rw [← ops.noassign related]
    by_cases held : s'.es.noassign ≠ 0
    · rw [if_pos held, if_pos held]
      exact ops.setNumber 1 (ops.grows le corresponds) s' t' related
    · rw [if_neg held, if_neg held]
      exact ops.evalerr _ _ related
  · simp only [zero, if_false]
    exact Relates.pure fun _ _ related => related

theorem compute_relates (ops : Operations R A fail nested nested') (op : Token) (l r : Long) :
    Relates w (R w) (compute op l r) (compute op l r) (fun w' n m s t => n = m ∧ R w' s t)
      fail := by
  unfold compute
  by_cases tooLarge : overflows op l r = true
  · rw [if_pos tooLarge]
    exact Relates.throw fun s t related => ops.trap related
  · rw [if_neg tooLarge]
    exact Relates.pure fun s t related => ⟨rfl, related⟩

theorem doPpmm_relates (ops : Operations R A fail nested nested') (op : Token)
    (corresponds : A w a b) (isPrefix : Bool) :
    Relates w (R w) (doPpmm nested op a isPrefix) (doPpmm nested' op b isPrefix) (Gives R A)
      fail := by
  refine Relates.bind (ops.assignCheck op corresponds) fun w1 le1 _ _ => ?_
  have at1 := ops.grows le1 corresponds
  refine relates_operand (ops.intvar at1) fun w2 le2 vl vl' left => ?_
  have at2 := ops.grows le2 at1
  refine relates_same (numberAt_relates ops left) fun w3 le3 oval => ?_
  refine Relates.bind (ops.setNumber _ (ops.grows le3 left)) fun w4 le4 _ _ => ?_
  have left4 := ops.grows le4 (ops.grows le3 left)
  refine Relates.bind (ops.storeNumber (ops.grows le4 (ops.grows le3 at2)) left4)
    fun w5 le5 _ _ => ?_
  have left5 := ops.grows le5 left4
  cases isPrefix with
  | true => exact relates_gives left5
  | false =>
      refine Relates.bind (ops.setNumber _ left5) fun w6 le6 _ _ => ?_
      exact relates_gives (ops.grows le6 left5)

theorem cast_relates (ops : Operations R A fail nested nested') (op : Token) (corresponds : A w a b)
    {k k' : Addr → ExprM Addr} {post : W → Addr → Addr → State → State → Prop}
    (rest : ∀ w', w ≤ w' → ∀ vl vl', A w' vl vl' → Relates w' (R w') (k vl) (k' vl') post fail) :
    Relates w (R w) (if op = .O_ASN then pure a >>= k else intvar nested a >>= k)
      (if op = .O_ASN then pure b >>= k' else intvar nested' b >>= k') post fail := by
  split
  · exact relates_operand (relates_gives corresponds) rest
  · exact relates_operand (ops.intvar corresponds) rest

theorem postfixOps_relates (sim : Simulation R A fail nested nested') (corresponds : A w a b) :
    Relates w (R w) (postfixOps nested a) (postfixOps nested' b) (Gives R A) fail := by
  refine relates_same (tokenNow_same sim w) fun w1 le1 op => ?_
  have at1 := sim.grows le1 corresponds
  by_cases step : op.isPpmm = true
  · rw [if_pos step, if_pos step]
    refine relates_operand (doPpmm_relates sim.toOperations op at1 false)
      fun w2 le2 vl vl' at2 => ?_
    refine Relates.bind (sim.token w2) fun w3 le3 _ _ => ?_
    exact relates_gives (sim.grows le3 at2)
  · rw [if_neg step, if_neg step]
    exact relates_gives at1

end Steps

/-! ## The climber -/

section Climbing

variable {W : Type} [Preorder W] {R : W → State → State → Prop} {A : W → Addr → Addr → Prop}
  {fail : Stop → State → Stop → State → Prop} {nested nested' : Nested}

/-- The three functions of the climber keep the relation at a depth of calls. -/
structure Climbs (R : W → State → State → Prop) (A : W → Addr → Addr → Prop)
    (fail : Stop → State → Stop → State → Prop) (nested nested' : Nested) (fuel : Nat) : Prop where
  primary : ∀ w, Relates w (R w) (primary nested fuel) (primary nested' fuel) (Gives R A) fail
  evalexpr : ∀ w prec,
    Relates w (R w) (evalexpr nested fuel prec) (evalexpr nested' fuel prec) (Gives R A) fail
  evalLoop : ∀ {w a b} (prec : Nat), A w a b →
    Relates w (R w) (evalLoop nested fuel prec a) (evalLoop nested' fuel prec b) (Gives R A) fail

variable (sim : Simulation R A fail nested nested') {fuel : Nat}
  (climbs : Climbs R A fail nested nested' fuel)

include sim climbs

theorem primary_relates (w : W) :
    Relates w (R w) (primary nested (fuel + 1)) (primary nested' (fuel + 1)) (Gives R A) fail := by
  rw [primary, primary]
  refine relates_same (tokenNow_relates sim w) fun w1 le1 op => ?_
  by_cases unary : op.isUnary = true
  · rw [if_pos unary, if_pos unary]
    refine Relates.bind ((sim.token w1).weaken (fun _ _ here => here.1) fun _ _ _ _ _ _ h => h)
      fun w2 le2 _ _ => ?_
    refine relates_operand (climbs.evalexpr w2 P_PRIMARY) fun w3 le3 a b at3 => ?_
    refine relates_operand (sim.intvar at3) fun w4 le4 vl vl' at4 => ?_
    refine relates_same (numberAt_relates sim.toOperations at4) fun w5 le5 n => ?_
    have at5 := sim.grows le5 at4
    refine Relates.bind (sim.setNumber _ at5) fun w6 le6 _ _ => ?_
    exact relates_gives (sim.grows le6 at5)
  rw [if_neg unary, if_neg unary]
  by_cases paren : op = .OPEN_PAREN
  · rw [if_pos paren, if_pos paren]
    refine Relates.bind ((sim.token w1).weaken (fun _ _ here => here.1) fun _ _ _ _ _ _ h => h)
      fun w2 le2 _ _ => ?_
    refine relates_operand (climbs.evalexpr w2 MAX_PREC) fun w3 le3 a b at3 => ?_
    refine relates_same (tokenNow_same sim w3) fun w4 le4 tok => ?_
    by_cases closed : tok ≠ .CLOSE_PAREN
    · rw [if_pos closed, if_pos closed]
      exact evalerr_relates sim.toOperations _ _
    · rw [if_neg closed, if_neg closed]
      refine Relates.bind (sim.token w4) fun w5 le5 _ _ => ?_
      exact relates_gives (sim.grows le5 (sim.grows le4 at3))
  rw [if_neg paren, if_neg paren]
  by_cases step : op.isPpmm = true
  · rw [if_pos step, if_pos step]
    refine Relates.bind ((sim.token w1).weaken (fun _ _ here => here.1) fun _ _ _ _ _ _ h => h)
      fun w2 le2 _ _ => ?_
    refine relates_same (tokenNow_relates sim w2) fun w3 le3 tok => ?_
    by_cases var : tok ≠ .VAR
    · rw [if_pos var, if_pos var]
      exact (evalerr_relates sim.toOperations _ _).weaken (fun _ _ here => here.1)
        fun _ _ _ _ _ _ h => h
    · rw [if_neg var, if_neg var]
      refine Relates.read fun s t here => ?_
      rintro s' t' ⟨rfl, rfl⟩
      have isVar : s'.es.tok = .VAR := here.2.trans (not_not.mp var)
      have at3 := sim.val here.1 (Or.inl isVar)
      refine relates_operand (doPpmm_relates sim.toOperations op at3 true)
        (fun w4 le4 vl vl' at4 => ?_) s' t' here.1
      refine Relates.bind (sim.token w4) fun w5 le5 _ _ => ?_
      exact relates_gives (sim.grows le5 at4)
  rw [if_neg step, if_neg step]
  by_cases leaf : op = .VAR ∨ op = .LIT
  · rw [if_pos leaf]
    refine Relates.read fun s t here => ?_
    rintro s' t' ⟨rfl, rfl⟩
    have at1 := sim.val here.1 (by rw [here.2]; exact leaf)
    have moved : Relates w1 (R w1) (token >>= fun _ => pure s'.es.val)
        (token >>= fun _ => pure t'.es.val) (Gives R A) fail :=
      Relates.bind (sim.token w1) fun w2 le2 _ _ => relates_gives (sim.grows le2 at1)
    exact moved s' t' here.1
  · rw [if_neg leaf]
    exact (unexpected_relates sim.toOperations).weaken (fun _ _ here => here.1)
      fun _ _ _ _ _ _ h => h

theorem evalexpr_step (w : W) (prec : Nat) :
    Relates w (R w) (evalexpr nested (fuel + 1) prec) (evalexpr nested' (fuel + 1) prec)
      (Gives R A) fail := by
  cases prec with
  | zero =>
      rw [evalexpr, evalexpr]
      exact relates_operand (climbs.primary w) fun _ _ _ _ at1 => postfixOps_relates sim at1
  | succ prec =>
      rw [evalexpr, evalexpr]
      exact relates_operand (climbs.evalexpr w prec) fun _ _ _ _ at1 => climbs.evalLoop _ at1

theorem assign_relates (op : Token) (prec : Nat) {w : W} {vasn vasn' vl vl' : Addr}
    (at1 : A w vasn vasn') (left : A w vl vl') :
    Relates w (R w)
      (do
        assignCheck op vasn
        let vr ← intvar nested (← evalexpr nested fuel P_ASSIGN)
        checkDivisor op vr
        let res ← compute op (← numberAt vl) (← numberAt vr)
        setNumber vr res
        storeNumber vasn vr
        evalLoop nested fuel prec vr)
      (do
        assignCheck op vasn'
        let vr ← intvar nested' (← evalexpr nested' fuel P_ASSIGN)
        checkDivisor op vr
        let res ← compute op (← numberAt vl') (← numberAt vr)
        setNumber vr res
        storeNumber vasn' vr
        evalLoop nested' fuel prec vr)
      (Gives R A) fail := by
  refine Relates.bind (sim.assignCheck op at1) fun w2 le2 _ _ => ?_
  refine relates_operand (climbs.evalexpr w2 P_ASSIGN) fun w3 le3 a b at3 => ?_
  refine relates_operand (sim.intvar at3) fun w4 le4 vr vr' right => ?_
  refine Relates.bind (checkDivisor_relates sim.toOperations op right) fun w5 le5 _ _ => ?_
  have upTo5 := le_trans le2 (le_trans le3 (le_trans le4 le5))
  refine relates_same (numberAt_relates sim.toOperations (sim.grows upTo5 left)) fun w6 le6 l => ?_
  have right6 := sim.grows (le_trans le5 le6) right
  refine relates_same (numberAt_relates sim.toOperations right6) fun w7 le7 r => ?_
  refine relates_same (compute_relates sim.toOperations op l r) fun w8 le8 res => ?_
  have right8 := sim.grows (le_trans le7 le8) right6
  refine Relates.bind (sim.setNumber res right8) fun w9 le9 _ _ => ?_
  have right9 := sim.grows le9 right8
  have upTo9 := le_trans upTo5 (le_trans le6 (le_trans le7 (le_trans le8 le9)))
  refine Relates.bind (sim.storeNumber (sim.grows upTo9 at1) right9) fun w10 le10 _ _ => ?_
  exact climbs.evalLoop prec (sim.grows le10 right9)

/-- `? :`, once its condition is at hand. -/
theorem ternary_relates (prec : Nat) {w : W} {vl vl' : Addr} (left : A w vl vl') :
    Relates w (R w)
      (do
        let ex := (← numberAt vl) != 0
        holdAssigns (!ex)
        let vl ← evalexpr nested fuel MAX_PREC
        allowAssigns (!ex)
        if (← tokenNow) ≠ .CTERN then evalerr .ET_STR (missing ':')
        else do
          token
          holdAssigns ex
          let vr ← evalexpr nested fuel P_TERN
          allowAssigns ex
          evalLoop nested fuel prec (if ex then vl else vr))
      (do
        let ex := (← numberAt vl') != 0
        holdAssigns (!ex)
        let vl ← evalexpr nested' fuel MAX_PREC
        allowAssigns (!ex)
        if (← tokenNow) ≠ .CTERN then evalerr .ET_STR (missing ':')
        else do
          token
          holdAssigns ex
          let vr ← evalexpr nested' fuel P_TERN
          allowAssigns ex
          evalLoop nested' fuel prec (if ex then vl else vr))
      (Gives R A) fail := by
  refine relates_same (numberAt_relates sim.toOperations left) fun w1 le1 n => ?_
  refine Relates.bind (sim.hold _) fun w2 le2 _ _ => ?_
  refine relates_operand (climbs.evalexpr w2 MAX_PREC) fun w3 le3 a a' at3 => ?_
  refine Relates.bind (sim.allow _) fun w4 le4 _ _ => ?_
  refine relates_same (tokenNow_same sim w4) fun w5 le5 tok => ?_
  by_cases colon : tok ≠ .CTERN
  · rw [if_pos colon, if_pos colon]
    exact evalerr_relates sim.toOperations _ _
  · rw [if_neg colon, if_neg colon]
    refine Relates.bind (sim.token w5) fun w6 le6 _ _ => ?_
    refine Relates.bind (sim.hold _) fun w7 le7 _ _ => ?_
    refine relates_operand (climbs.evalexpr w7 P_TERN) fun w8 le8 b b' at8 => ?_
    refine Relates.bind (sim.allow _) fun w9 le9 _ _ => ?_
    apply climbs.evalLoop
    split
    · exact sim.grows (le_trans le4 (le_trans le5 (le_trans le6 (le_trans le7
        (le_trans le8 le9))))) at3
    · exact sim.grows le9 at8

/-- `&&` and `||`, once their left operand is at hand. -/
theorem lazy_relates (op : Token) (prec : Nat) {w : W} {vl vl' : Addr} (left : A w vl vl') :
    Relates w (R w)
      (do
        let l ← numberAt vl
        let skipped := if op = .O_LAND then l == 0 else l != 0
        holdAssigns skipped
        let vr ← intvar nested (← evalexpr nested fuel (prec - 1))
        setNumber vl (binaryResult op l (← numberAt vr))
        allowAssigns skipped
        evalLoop nested fuel prec vl)
      (do
        let l ← numberAt vl'
        let skipped := if op = .O_LAND then l == 0 else l != 0
        holdAssigns skipped
        let vr ← intvar nested' (← evalexpr nested' fuel (prec - 1))
        setNumber vl' (binaryResult op l (← numberAt vr))
        allowAssigns skipped
        evalLoop nested' fuel prec vl')
      (Gives R A) fail := by
  refine relates_same (numberAt_relates sim.toOperations left) fun w1 le1 l => ?_
  refine Relates.bind (sim.hold _) fun w2 le2 _ _ => ?_
  refine relates_operand (climbs.evalexpr w2 (prec - 1)) fun w3 le3 a a' at3 => ?_
  refine relates_operand (sim.intvar at3) fun w4 le4 vr vr' right => ?_
  refine relates_same (numberAt_relates sim.toOperations right) fun w5 le5 r => ?_
  have left5 := sim.grows (le_trans le1 (le_trans le2 (le_trans le3 (le_trans le4 le5)))) left
  refine Relates.bind (sim.setNumber _ left5) fun w6 le6 _ _ => ?_
  refine Relates.bind (sim.allow _) fun w7 le7 _ _ => ?_
  exact climbs.evalLoop prec (sim.grows (le_trans le6 le7) left5)

theorem strict_relates (op : Token) (prec : Nat) {w : W} {vl vl' : Addr} (left : A w vl vl') :
    Relates w (R w)
      (do
        let vr ← intvar nested (← evalexpr nested fuel (prec - 1))
        checkDivisor op vr
        setNumber vl (← compute op (← numberAt vl) (← numberAt vr))
        evalLoop nested fuel prec vl)
      (do
        let vr ← intvar nested' (← evalexpr nested' fuel (prec - 1))
        checkDivisor op vr
        setNumber vl' (← compute op (← numberAt vl') (← numberAt vr))
        evalLoop nested' fuel prec vl')
      (Gives R A) fail := by
  refine relates_operand (climbs.evalexpr w (prec - 1)) fun w1 le1 a a' at1 => ?_
  refine relates_operand (sim.intvar at1) fun w2 le2 vr vr' right => ?_
  refine Relates.bind (checkDivisor_relates sim.toOperations op right) fun w3 le3 _ _ => ?_
  have left3 := sim.grows (le_trans le1 (le_trans le2 le3)) left
  refine relates_same (numberAt_relates sim.toOperations left3) fun w4 le4 l => ?_
  refine relates_same (numberAt_relates sim.toOperations (sim.grows (le_trans le3 le4) right))
    fun w5 le5 r => ?_
  refine relates_same (compute_relates sim.toOperations op l r) fun w6 le6 res => ?_
  have left6 := sim.grows (le_trans le4 (le_trans le5 le6)) left3
  refine Relates.bind (sim.setNumber res left6) fun w7 le7 _ _ => ?_
  exact climbs.evalLoop prec (sim.grows le7 left6)

theorem evalLoop_step {w : W} {a b : Addr} (prec : Nat) (corresponds : A w a b) :
    Relates w (R w) (evalLoop nested (fuel + 1) prec a) (evalLoop nested' (fuel + 1) prec b)
      (Gives R A) fail := by
  rw [evalLoop, evalLoop]
  refine relates_same (tokenNow_same sim w) fun w1 le1 op => ?_
  have at1 := sim.grows le1 corresponds
  by_cases leaves : (!(op.isBinop && decide (op.prec = prec))) = true
  · rw [if_pos leaves, if_pos leaves]
    exact relates_gives at1
  rw [if_neg leaves, if_neg leaves]
  refine Relates.bind (sim.token w1) fun w2 le2 _ _ => ?_
  have at2 := sim.grows le2 at1
  refine cast_relates sim.toOperations op at2 fun w3 le3 vl vl' left => ?_
  beta_reduce
  by_cases assign : op.isAssignop = true
  · rw [if_pos assign, if_pos assign]
    exact assign_relates sim climbs op prec (sim.grows le3 at2) left
  rw [if_neg assign, if_neg assign]
  by_cases ternary : op = .O_TERN
  · rw [if_pos ternary, if_pos ternary]
    exact ternary_relates sim climbs prec left
  rw [if_neg ternary, if_neg ternary]
  by_cases isLazy : op = .O_LAND ∨ op = .O_LOR
  · rw [if_pos isLazy, if_pos isLazy]
    exact lazy_relates sim climbs op prec left
  · rw [if_neg isLazy, if_neg isLazy]
    exact strict_relates sim climbs op prec left

omit climbs in
theorem climbs_of_simulation (fuel : Nat) : Climbs R A fail nested nested' fuel := by
  induction fuel with
  | zero =>
      have stops : ∀ w {x y : ExprM Addr}, x = throw .endless → y = throw .endless →
          Relates w (R w) x y (Gives R A) fail := by
        rintro w x y rfl rfl
        exact Relates.throw fun _ _ related => sim.endless related
      exact
        { primary := fun w => stops w (by rw [primary]) (by rw [primary])
          evalexpr := fun w prec => stops w (by rw [evalexpr]) (by rw [evalexpr])
          evalLoop := fun prec _ => stops _ (by rw [evalLoop]) (by rw [evalLoop]) }
  | succ fuel ih =>
      exact
        { primary := primary_relates sim ih
          evalexpr := evalexpr_step sim ih
          evalLoop := evalLoop_step sim ih }

end Climbing

/-! ## Whole evaluations -/

theorem evaluation_relates {W : Type} [Preorder W] {R : W → State → State → Prop}
    {A : W → Addr → Addr → Prop} {fail : Stop → State → Stop → State → Prop}
    {nested nested' : Nested} (sim : Simulation R A fail nested nested')
    (blank : ∀ w, Relates w (R w) tempvar tempvar (Gives R A) fail)
    (stand : ∀ {w a b}, A w a b → Relates w (R w)
      (onState fun es => { es with tok := .LIT, val := a })
      (onState fun es => { es with tok := .LIT, val := b }) (Kept R) fail)
    {vp vp' : Addr} {mode : ErrorMode}
    (store : ∀ {w a b}, A w vp vp' → A w a b → Relates w (R w) (storeResult vp a mode)
      (storeResult vp' b mode) (Kept R) fail) {w : W} (target : A w vp vp') (expr : List Byte) :
    Relates w (R w) (evaluation nested vp expr mode) (evaluation nested' vp' expr mode)
      (Kept R) fail := by
  refine Relates.bind (sim.token w) fun w1 le1 _ _ => ?_
  refine relates_same (tokenNow_same sim w1) fun w2 le2 tok => ?_
  have finish : ∀ w3, w ≤ w3 → Relates w3 (R w3)
      (do
        let v ← intvar nested (← evalexpr nested (callDepth expr) MAX_PREC)
        if (← tokenNow) ≠ .END then unexpected
        else storeResult vp v mode)
      (do
        let v ← intvar nested' (← evalexpr nested' (callDepth expr) MAX_PREC)
        if (← tokenNow) ≠ .END then unexpected
        else storeResult vp' v mode) (Kept R) fail := by
    intro w3 le3
    have climbs := climbs_of_simulation sim (callDepth expr)
    refine relates_operand (climbs.evalexpr w3 MAX_PREC) fun w4 le4 a b at4 => ?_
    refine relates_operand (sim.intvar at4) fun w5 le5 v v' at5 => ?_
    refine relates_same (tokenNow_same sim w5) fun w6 le6 tok => ?_
    by_cases more : tok ≠ .END
    · rw [if_pos more, if_pos more]
      exact unexpected_relates sim.toOperations
    · rw [if_neg more, if_neg more]
      exact store (sim.grows (le_trans le3 (le_trans le4 (le_trans le5 le6))) target)
        (sim.grows le6 at5)
  have le := le_trans le1 le2
  by_cases empty : tok = .END
  · rw [if_pos empty, if_pos empty]
    refine relates_operand (blank w2) fun w3 le3 p q at3 => ?_
    exact Relates.bind (stand at3) fun w4 le4 _ _ => finish w4 (le_trans le (le_trans le3 le4))
  · rw [if_neg empty, if_neg empty]
    exact finish w2 le

/-! ## One climber -/

/-- The program keeps `inv`; where it stops, `bad` holds. -/
def Retains {α : Type} (inv : State → Prop) (bad : Stop → State → Prop) (x : ExprM α) : Prop :=
  Triple inv x (fun _ => inv) bad

section

variable {inv : State → Prop} {bad : Stop → State → Prop} {nested : Nested}

/-- The operations on variables keep `inv`. -/
structure Upholds (inv : State → Prop) (bad : Stop → State → Prop) (nested : Nested) : Prop where
  token : Retains inv bad token
  intvar : ∀ a, Retains inv bad (intvar nested a)
  setNumber : ∀ a n, Retains inv bad (setNumber a n)
  assignCheck : ∀ op a, Retains inv bad (assignCheck op a)
  storeNumber : ∀ a b, Retains inv bad (storeNumber a b)
  hold : ∀ h, Retains inv bad (holdAssigns h)
  allow : ∀ h, Retains inv bad (allowAssigns h)
  evalerr : ∀ {s} type str, inv s → bad (.evalerr type s.es.expression str) s
  trap : ∀ {s}, inv s → bad .trap s
  endless : ∀ {s}, inv s → bad .endless s

def Twice (inv : State → Prop) (_ : Unit) (s t : State) : Prop := s = t ∧ inv s

def StopTwice (bad : Stop → State → Prop) (e : Stop) (s : State) (e' : Stop) (t : State) : Prop :=
  e = e' ∧ s = t ∧ bad e s

theorem Retains.relates {α : Type} {x : ExprM α} (retains : Retains inv bad x) (w : Unit) :
    Relates w (Twice inv w) x x (fun w' a b s t => Twice inv w' s t ∧ a = b) (StopTwice bad) := by
  rintro s t ⟨rfl, holds⟩
  have run := retains s holds
  cases result : x s with
  | ok a s' =>
      rw [result] at run
      exact ⟨w, le_refl w, ⟨rfl, run⟩, rfl⟩
  | error e s' =>
      rw [result] at run
      exact ⟨rfl, rfl, run⟩

theorem Retains.kept {α : Type} {x : ExprM α} (retains : Retains inv bad x) (w : Unit) :
    Relates w (Twice inv w) x x (Kept (Twice inv)) (StopTwice bad) :=
  (retains.relates w).weaken (fun _ _ here => here) fun _ _ _ _ _ _ done => done.1

theorem Retains.of_relates {α : Type} {x : ExprM α} {post : Unit → α → α → State → State → Prop}
    (related : Relates () (Twice inv ()) x x post (StopTwice bad))
    (keeps : ∀ {w a b s t}, post w a b s t → inv s) : Retains inv bad x := by
  intro s holds
  rcases related.ends (s := s) (t := s) ⟨rfl, holds⟩ with
    ⟨a, b, s', t', w', left, right, le, done⟩ | ⟨e, e', s', t', left, right, done⟩
  · rw [left]
    exact keeps done
  · rw [left]
    exact done.2.2

theorem Upholds.simulation (upholds : Upholds inv bad nested) :
    Simulation (Twice inv) (fun _ => Eq) (StopTwice bad) nested nested where
  grows := fun _ same => same
  noassign := by
    rintro w s t ⟨rfl, _⟩
    rfl
  number := by
    rintro w s t a b ⟨rfl, _⟩ rfl
    rfl
  intvar := by
    rintro w a b rfl
    exact (upholds.intvar a).relates w
  setNumber := by
    rintro w a b n rfl
    exact (upholds.setNumber a n).kept w
  assignCheck := by
    rintro w a b op rfl
    exact (upholds.assignCheck op a).kept w
  storeNumber := by
    rintro w a b c d rfl rfl
    exact (upholds.storeNumber a c).kept w
  hold := fun {w} h => (upholds.hold h).kept w
  allow := fun {w} h => (upholds.allow h).kept w
  evalerr := by
    rintro w s t type str ⟨rfl, holds⟩
    exact ⟨rfl, rfl, upholds.evalerr type str holds⟩
  unexpected := by
    rintro w s t ⟨rfl, holds⟩
    exact ⟨rfl, rfl, upholds.evalerr _ _ holds⟩
  trap := by
    rintro w s t ⟨rfl, holds⟩
    exact ⟨rfl, rfl, upholds.trap holds⟩
  endless := by
    rintro w s t ⟨rfl, holds⟩
    exact ⟨rfl, rfl, upholds.endless holds⟩
  tok := by
    rintro w s t ⟨rfl, _⟩
    rfl
  val := by
    rintro w s t ⟨rfl, _⟩ _
    rfl
  token := fun w => upholds.token.kept w

theorem evaluation_retains (upholds : Upholds inv bad nested) (blank : Retains inv bad tempvar)
    (stand : ∀ a, Retains inv bad (onState fun es => { es with tok := .LIT, val := a }))
    {vp : Addr} {mode : ErrorMode} (store : ∀ a, Retains inv bad (storeResult vp a mode))
    (expr : List Byte) : Retains inv bad (evaluation nested vp expr mode) := by
  refine Retains.of_relates (evaluation_relates upholds.simulation (w := ())
    (fun w => blank.relates w) ?_ ?_ rfl expr) fun done => done.2
  · rintro w a b rfl
    exact (stand a).kept w
  · rintro w a b _ rfl
    exact (store a).kept w

end

end Netbase.Ksh.Expr
