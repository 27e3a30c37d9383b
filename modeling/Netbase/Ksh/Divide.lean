import Netbase.Ksh.Typeset

/-!
# Divisions

The evaluator with the computation of its binary operators as a parameter, and with
elements of arrays.  A machine is a choice of that computation: it says at which
quotients an evaluation is stopped.  What is in front of every quotient is the same on
all machines.
-/

namespace Netbase.Ksh.Divide

open Netbase.Text Netbase.Lib Netbase.Ksh.Expr
open Netbase.Ksh.Typeset (arraysearch ARRAYMAX)
export Netbase.Ksh.Expr (Name Addr DEFINED State)

/-- An evaluation of a text into a variable. -/
abbrev Evaluator := Addr → List Byte → Option (Addr × Nat) → ErrorMode → ShellM Bool

/-- The expansion of a subscript, which may evaluate expressions of its own. -/
abbrev Substitute := Evaluator → List Byte → ShellM (List Byte)

/-- The search for the element of an array by its name and its subscript. -/
abbrev Elements := Name → List Byte → ShellM Addr

/-- What computes a binary operator on two operands. -/
abbrev Operate := Token → Addr → Addr → ExprM Long

/-! ## Elements of arrays -/

def evaluateBy (evaluator : Evaluator) (expr : List Byte) (mode : ErrorMode) :
    ShellM (Bool × Long) := do
  let p := (← get).next
  modify fun sh => sh.alloc (temporary (DEFINED ||| INTEGER) (.i 0))
  let ok ← evaluator p expr none mode
  return (ok, ((← get).cell p).number)

/-- Search for an element; if it is not found, create it in the outermost block. -/
def globalElement (substitute : Substitute) (evaluator : Evaluator) : Elements :=
  fun name subscript => do
    let sub ← substitute evaluator subscript
    let (_, rval) ← evaluateBy evaluator sub .KSH_UNWIND_ERROR
    if rval.toInt < 0 ∨ rval.toInt > ARRAYMAX then throw .unwound
    else do
      let known := (lookup (← get).blocks name).isSome
      let vp := (global (← get) name).1
      modify fun sh => (global sh name).2
      let element := (arraysearch (← get) vp rval.toNat).1
      modify fun sh => (arraysearch sh vp rval.toNat).2
      if known then return element
      else do
        modify fun sh => sh.setFlag element DEFINED
        return element

/-! ## The climber on a machine -/

section

variable (operate : Operate) (elements : Elements)

def varTokenOn (text : List Byte) : ExprM Unit := do
  let after := text.dropWhile letnum
  let len := if after.head? = some (byte '[') then arrayRefLen after else 0
  if after.head? = some (byte '[') ∧ len = 0 then
    evalerr .ET_STR (ascii ['m', 'i', 's', 's', 'i', 'n', 'g', ' ', ']'])
  else if (← get).es.noassign ≠ 0 then do
    let p ← allocate (temporary (ISSET ||| INTEGER ||| EXPRLVALUE) (.i 0))
    onState fun es => { es with tok := .VAR, val := p, tokp := after.drop len }
  else if len ≠ 0 then do
    let p ← inShell (elements (text.takeWhile letnum) ((after.drop 1).take (len - 2)))
    onState fun es => { es with tok := .VAR, val := p, tokp := after.drop len }
  else do
    let found := global (← get).shell (text.takeWhile letnum)
    onShell fun _ => found.2
    onState fun es => { es with tok := .VAR, val := found.1, tokp := after }

def tokenOn : ExprM Unit := do
  let s ← get
  if !readable s then throw .dangling
  else
    match s.es.tokp.dropWhile isspace with
    | [] => onState fun es => { es with tok := .END, tokp := [] }
    | c :: rest =>
        if letter c then varTokenOn elements (c :: rest)
        else if digit c then litToken (c :: rest)
        else opToken (c :: rest)

def postfixOpsOn (nested : Nested) (vl : Addr) : ExprM Addr := do
  let op ← tokenNow
  if op.isPpmm then do
    let vl ← doPpmm nested op vl false
    tokenOn elements
    return vl
  else return vl

mutual

def primaryOn (nested : Nested) : Nat → ExprM Addr
  | 0 => throw .endless
  | fuel + 1 => do
      let op ← tokenNow
      if op.isUnary then do
        tokenOn elements
        let vl ← intvar nested (← evalexprOn nested fuel P_PRIMARY)
        setNumber vl (unaryResult op (← numberAt vl))
        return vl
      else if op = .OPEN_PAREN then do
        tokenOn elements
        let vl ← evalexprOn nested fuel MAX_PREC
        if (← tokenNow) ≠ .CLOSE_PAREN then evalerr .ET_STR (missing ')')
        else do
          tokenOn elements
          return vl
      else if op.isPpmm then do
        tokenOn elements
        if (← tokenNow) ≠ .VAR then evalerr .ET_LVALUE op.spelling
        else do
          let vl ← doPpmm nested op (← get).es.val true
          tokenOn elements
          return vl
      else if op = .VAR ∨ op = .LIT then do
        let vl := (← get).es.val
        tokenOn elements
        return vl
      else unexpected

def evalexprOn (nested : Nested) : Nat → Nat → ExprM Addr
  | 0, _ => throw .endless
  | fuel + 1, 0 => do postfixOpsOn elements nested (← primaryOn nested fuel)
  | fuel + 1, prec + 1 => do evalLoopOn nested fuel (prec + 1) (← evalexprOn nested fuel prec)

def evalLoopOn (nested : Nested) : Nat → Nat → Addr → ExprM Addr
  | 0, _, _ => throw .endless
  | fuel + 1, prec, vl => do
      let op ← tokenNow
      if !(op.isBinop && op.prec = prec) then return vl
      else do
        tokenOn elements
        let vasn := vl
        let vl ← if op = .O_ASN then pure vl else intvar nested vl
        if op.isAssignop then do
          assignCheck op vasn
          let vr ← intvar nested (← evalexprOn nested fuel P_ASSIGN)
          let res ← operate op vl vr
          setNumber vr res
          storeNumber vasn vr
          evalLoopOn nested fuel prec vr
        else if op = .O_TERN then do
          let ex := (← numberAt vl) != 0
          holdAssigns (!ex)
          let vl ← evalexprOn nested fuel MAX_PREC
          allowAssigns (!ex)
          if (← tokenNow) ≠ .CTERN then evalerr .ET_STR (missing ':')
          else do
            tokenOn elements
            holdAssigns ex
            let vr ← evalexprOn nested fuel P_TERN
            allowAssigns ex
            evalLoopOn nested fuel prec (if ex then vl else vr)
        else if op = .O_LAND ∨ op = .O_LOR then do
          let l ← numberAt vl
          let skipped := if op = .O_LAND then l == 0 else l != 0
          holdAssigns skipped
          let vr ← intvar nested (← evalexprOn nested fuel (prec - 1))
          setNumber vl (binaryResult op l (← numberAt vr))
          allowAssigns skipped
          evalLoopOn nested fuel prec vl
        else do
          let vr ← intvar nested (← evalexprOn nested fuel (prec - 1))
          setNumber vl (← operate op vl vr)
          evalLoopOn nested fuel prec vl

end

/-- The evaluation proper, inside its error handler. -/
def evaluationOn (nested : Nested) (vp : Addr) (expr : List Byte) (mode : ErrorMode) :
    ExprM Unit := do
  tokenOn elements
  if (← tokenNow) = .END then do
    let p ← tempvar
    onState fun es => { es with tok := .LIT, val := p }
  else pure ()
  let v ← intvar nested (← evalexprOn operate elements nested (callDepth expr) MAX_PREC)
  if (← tokenNow) ≠ .END then unexpected
  else storeResult vp v mode

end

/-- Parse and evaluate an expression on a machine. -/
def vEvaluateOn (operate : Operate) (substitute : Substitute) : Nat → Evaluator
  | 0, _, _, _, _ => throw .endless
  | depth + 1, vp, expr, owner, mode =>
      let inner := vEvaluateOn operate substitute depth
      handled (evaluationOn operate (globalElement substitute inner) (nestedWith inner) vp expr mode)
        (initialState expr owner) mode

/-- Evaluate an expression to an integer on a machine. -/
def evaluateOn (operate : Operate) (substitute : Substitute) (depth : Nat) (expr : List Byte)
    (mode : ErrorMode) : ShellM (Bool × Long) :=
  evaluateBy (vEvaluateOn operate substitute depth) expr mode

def guarded (arith : Token → Long → Long → ExprM Long) : Operate := fun op vl vr => do
  checkDivisor op vr
  arith op (← numberAt vl) (← numberAt vr)

/-! ## The machine of the evaluator -/

/-- A subscript that is not expanded. -/
def noSubscripts : Substitute := fun _ _ => throw .subscript

/-- No element is found. -/
def noElements : Elements := fun _ _ => throw .subscript

theorem globalElement_noSubscripts (evaluator : Evaluator) :
    globalElement noSubscripts evaluator = noElements := by
  funext name subscript sh
  rfl

theorem inShell_noElements {α : Type} (name : Name) (subscript : List Byte)
    (rest : Addr → ExprM α) :
    (inShell (noElements name subscript) >>= rest) = throw .subscript := by
  funext s
  rfl

theorem varTokenOn_noElements (text : List Byte) : varTokenOn noElements text = varToken text := by
  simp only [varTokenOn, varToken, inShell_noElements]

theorem tokenOn_noElements : tokenOn noElements = token := by
  have same : varTokenOn noElements = varToken := funext varTokenOn_noElements
  unfold tokenOn
  rw [same]
  rfl

theorem postfixOpsOn_noElements (nested : Nested) (vl : Addr) :
    postfixOpsOn noElements nested vl = postfixOps nested vl := by
  simp only [postfixOpsOn, postfixOps, tokenOn_noElements]

/-- The climber is the one of the guarded machine, at a depth of calls. -/
structure Climbs (nested : Nested) (fuel : Nat) : Prop where
  primary : primaryOn (guarded compute) noElements nested fuel = primary nested fuel
  evalexpr : ∀ prec, evalexprOn (guarded compute) noElements nested fuel prec =
    evalexpr nested fuel prec
  evalLoop : ∀ prec vl, evalLoopOn (guarded compute) noElements nested fuel prec vl =
    evalLoop nested fuel prec vl

theorem climbs (nested : Nested) (fuel : Nat) : Climbs nested fuel := by
  induction fuel with
  | zero =>
      exact
        { primary := by rw [primaryOn, primary]
          evalexpr := fun prec => by rw [evalexprOn, evalexpr]
          evalLoop := fun prec vl => by rw [evalLoopOn, evalLoop] }
  | succ fuel ih =>
      refine { primary := ?_, evalexpr := fun prec => ?_, evalLoop := fun prec vl => ?_ }
      · rw [primaryOn, primary]
        simp only [ih.evalexpr, tokenOn_noElements]
      · cases prec with
        | zero =>
            rw [evalexprOn, evalexpr]
            simp only [ih.primary, postfixOpsOn_noElements]
        | succ prec =>
            rw [evalexprOn, evalexpr]
            simp only [ih.evalexpr, ih.evalLoop]
      · rw [evalLoopOn, evalLoop]
        simp only [ih.evalexpr, ih.evalLoop, tokenOn_noElements, guarded, bind_assoc]

theorem vEvaluateOn_compute (depth : Nat) :
    vEvaluateOn (guarded compute) noSubscripts depth = vEvaluate depth := by
  induction depth with
  | zero =>
      funext vp expr owner mode
      rw [vEvaluateOn, vEvaluate]
  | succ depth ih =>
      funext vp expr owner mode
      rw [vEvaluateOn, vEvaluate, ih, globalElement_noSubscripts]
      simp only [evaluationOn, evaluation, tokenOn_noElements, (climbs _ _).evalexpr]

theorem evaluateOn_compute (depth : Nat) (expr : List Byte) (mode : ErrorMode) :
    evaluateOn (guarded compute) noSubscripts depth expr mode = evaluate depth expr mode := by
  rw [evaluateOn, vEvaluateOn_compute]
  rfl

/-! ## The guard -/

theorem checkDivisor_nonzero (op : Token) (vr : Addr) :
    Triple (fun _ => True) (checkDivisor op vr)
      (fun _ s => op.divides = true → (s.shell.cell vr).number ≠ 0) (fun _ _ => True) := by
  intro s _
  change Holds _ _ ((if op.divides = true ∧ (s.shell.cell vr).number = 0 then
    (get >>= fun s => if s.es.noassign ≠ 0 then setNumber vr 1 else evalerr .ET_STR _)
    else pure ()) s)
  by_cases zero : op.divides = true ∧ (s.shell.cell vr).number = 0
  · rw [if_pos zero]
    change Holds _ _ ((if s.es.noassign ≠ 0 then setNumber vr 1 else evalerr .ET_STR _) s)
    by_cases held : s.es.noassign ≠ 0
    · rw [if_pos held]
      intro _
      have written : ((s.shell.write vr { s.shell.cell vr with val := .i 1 }).cell vr).number = 1 :=
        congrArg Var.number (if_pos rfl)
      exact fun zero => absurd (written.symm.trans zero) (by decide)
    · rw [if_neg held]
      trivial
  · rw [if_neg zero]
    exact fun divides number => zero ⟨divides, number⟩

theorem guarded_agree {arith arith' : Token → Long → Long → ExprM Long}
    (agree : ∀ op l r, (op.divides = true → r ≠ 0) → arith op l r = arith' op l r) :
    guarded arith = guarded arith' := by
  funext op vl vr s
  have guard := checkDivisor_nonzero op vr s trivial
  simp only [guarded]
  cases result : checkDivisor op vr s with
  | ok _ s' =>
      rw [result] at guard
      rw [bind_ok result, bind_ok result]
      change arith op (s'.shell.cell vl).number (s'.shell.cell vr).number s' =
        arith' op (s'.shell.cell vl).number (s'.shell.cell vr).number s'
      rw [agree op _ _ guard]
  | error e s' => rw [bind_error result, bind_error result]

/-! ## The quotients an evaluation comes to -/

/-- The quotient does not fit a long. -/
def tooLarge (l r : Long) : Bool := l == BitVec.intMin 64 && r == -1

/-- The division is not defined. -/
def undefinedQuotient (l r : Long) : Bool := r == 0 || tooLarge l r

/-- The arithmetic of a machine that is stopped at some quotients and remainders. -/
def stoppedAt (quotients : Long → Long → Bool) (op : Token) (l r : Long) : ExprM Long :=
  if op.divides && quotients l r then throw .trap else return binaryResult op l r

/-- The evaluation of a text in a shell comes to a quotient or a remainder of a kind. -/
def Divides (quotients : Long → Long → Bool) (substitute : Substitute) (depth : Nat)
    (expr : List Byte) (mode : ErrorMode) (sh : Shell) : Prop :=
  ∃ sh', evaluateOn (guarded (stoppedAt quotients)) substitute depth expr mode sh =
    .error .trap sh'

theorem stoppedAt_tooLarge : stoppedAt tooLarge = compute := by
  funext op l r
  simp only [stoppedAt, compute, overflows, tooLarge, Bool.and_assoc]
  rfl

theorem guarded_undefined :
    guarded (stoppedAt undefinedQuotient) = guarded (stoppedAt tooLarge) := by
  refine guarded_agree fun op l r nonzero => ?_
  by_cases divides : op.divides = true
  · have same : undefinedQuotient l r = tooLarge l r := by
      rw [undefinedQuotient, beq_false_of_ne (nonzero divides), Bool.false_or]
    rw [stoppedAt, stoppedAt, same]
  · simp only [stoppedAt, divides, Bool.false_and]

def noVariables : Shell := { next := 0, cell := fun _ => freshVar [], blocks := [[]] }

/-- The least long, as the expression writes it, divided by minus one. -/
def leastQuotient : List Byte :=
  ascii ['(', '-', '9', '2', '2', '3', '3', '7', '2', '0', '3', '6', '8', '5', '4', '7', '7', '5',
    '8', '0', '7', '-', '1', ')', '/', '-', '1']

/-- The machine is stopped. -/
def trapped {α : Type} : EStateM.Result Stop Shell α → Bool
  | .error .trap _ => true
  | _ => false

theorem trapped_iff {α : Type} (result : EStateM.Result Stop Shell α) :
    trapped result = true ↔ ∃ sh', result = .error .trap sh' := by
  constructor
  · intro stopped
    cases result with
    | ok a sh' => cases stopped
    | error e sh' =>
        cases e with
        | trap => exact ⟨sh', rfl⟩
        | _ => cases stopped
  · rintro ⟨sh', rfl⟩
    rfl

end Netbase.Ksh.Divide
