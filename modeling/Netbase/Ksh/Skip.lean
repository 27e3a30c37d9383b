import Netbase.Ksh.Lockstep

/-!
# Operands that are not selected

The climber evaluates the operand that `&&`, `||` or `? :` does not select, with its
variables replaced by temporaries.  The word behind the operator has been read by
then.  Where that word is not a name, the operand leaves no trace: the expression does
what it does with a literal in its place.
-/

namespace Netbase.Ksh.Expr

open Netbase.Text Netbase.Lib

/-! ## Runs that part -/

/-- Two runs that agree up to cells of their own: each may have handed out cells that
the other does not have. -/
def Parts {α β : Type} (g : Shift) (post : Shift → Nat → α → β → State → State → Prop)
    (x : EStateM.Result Stop State α) (y : EStateM.Result Stop State β) : Prop :=
  ∃ (g' : Shift) (count : Nat), (∀ {p q}, g.old p q → g'.old p q) ∧
    Meets count (post g') (TwinStop g') x y

section Parting

variable {α β : Type} {g : Shift} {count : Nat} {s t : State}
  {post : Shift → Nat → α → β → State → State → Prop}

theorem Parts.done {a : α} {b : β} (after : post g count a b s t) :
    Parts g post (.ok a s) (.ok b t) :=
  ⟨g, count, id, count, Nat.le_refl _, after⟩

theorem Parts.stopped {stop stop' : Stop} (failed : TwinStop g stop s stop' t) :
    Parts g post (.error stop s) (.error stop' t) :=
  ⟨g, 0, id, failed⟩

theorem Parts.widen {g' : Shift} {x : EStateM.Result Stop State α}
    {y : EStateM.Result Stop State β} (keeps : ∀ {p q}, g.old p q → g'.old p q)
    (parts : Parts g' post x y) : Parts g post x y := by
  obtain ⟨g'', count, keeps', meets⟩ := parts
  exact ⟨g'', count, fun old => keeps' (keeps old), meets⟩

theorem Parts.bind {α' β' : Type} {x : ExprM α} {y : ExprM β} {f : α → ExprM α'}
    {h : β → ExprM β'} {after : Shift → Nat → α' → β' → State → State → Prop}
    (first : Parts g post (x s) (y t))
    (next : ∀ g' count' a b s' t', (∀ {p q}, g.old p q → g'.old p q) →
      post g' count' a b s' t' → Parts g' after (f a s') (h b t')) :
    Parts g after ((x >>= f) s) ((y >>= h) t) := by
  obtain ⟨g', count, keeps, meets⟩ := first
  cases left : x s with
  | ok a s' =>
      cases right : y t with
      | ok b t' =>
          rw [left, right] at meets
          obtain ⟨count', _, between⟩ := meets
          rw [bind_ok left, bind_ok right]
          exact (next g' count' a b s' t' keeps between).widen keeps
      | error stop t' =>
          rw [left, right] at meets
          exact meets.elim
  | error stop s' =>
      cases right : y t with
      | ok b t' =>
          rw [left, right] at meets
          exact meets.elim
      | error stop' t' =>
          rw [left, right] at meets
          rw [bind_error left, bind_error right]
          exact ⟨g', count, keeps, meets⟩

theorem Parts.same (count : Nat) {pre : State → State → Prop} {x : ExprM α} {y : ExprM β}
    (related : Relates count pre x y (post g) (TwinStop g)) (here : pre s t) :
    Parts g post (x s) (y t) :=
  ⟨g, count, id, related s t here⟩

theorem TwinShell.inside {sh th : Shell} (twin : TwinShell g count sh th) {p q : Nat}
    (at1 : g.At count p q) : p < sh.next ∧ q < th.next := by
  rw [twin.nextLeft, twin.nextRight]
  show p < g.left + count ∧ q < g.right + count
  rcases at1 with old | ⟨i, small, rfl, rfl⟩
  · have := g.below old
    omega
  · omega

theorem TwinShell.part {sh th sh' th' : Shell} (twin : TwinShell g count sh th)
    (nextLeft : sh.next ≤ sh'.next) (nextRight : th.next ≤ th'.next)
    (left : ∀ {p q}, g.At count p q → sh'.cell p = sh.cell p)
    (right : ∀ {p q}, g.At count p q → th'.cell q = th.cell q)
    (blocksLeft : sh'.blocks = sh.blocks) (blocksRight : th'.blocks = th.blocks) :
    ∃ g' : Shift, (∀ {p q}, g'.old p q ↔ g.At count p q) ∧ g'.left = sh'.next ∧
      g'.gap = sh'.cell ∧ TwinShell g' 0 sh' th' := by
  refine ⟨
    { old := g.At count, left := sh'.next, right := th'.next, low := 0, gap := sh'.cell
      below := fun at1 => ⟨Nat.lt_of_lt_of_le (twin.inside at1).1 nextLeft,
        Nat.lt_of_lt_of_le (twin.inside at1).2 nextRight⟩
      unique := fun at1 at2 => at1.unique at2 }, Iff.rfl, rfl, rfl, ?_⟩
  exact
    { low := Nat.le_refl 0, nextLeft := rfl, nextRight := rfl
      cells := by
        rintro p q (at1 | ⟨i, small, _⟩)
        · rw [left at1, right at1]
          exact twin.cells at1
        · exact absurd small (Nat.not_lt_zero i)
      gap := fun _ _ => rfl
      blocks := by
        rw [blocksLeft, blocksRight]
        exact twin.blocks.imp fun _ _ vars => vars.imp fun _ _ entry => ⟨entry.1, Or.inl entry.2⟩ }

theorem TwinState.part {view : Nat → ExprState → ExprState → Prop} {s' t' : State}
    {touched touched' : Option Addr} (twin : TwinState g view count s t)
    (left : Framed s s' touched) (right : Framed t t' touched')
    (apart : ∀ {p q}, g.At count p q → touched ≠ some p ∧ touched' ≠ some q)
    (owner : s.es.owner = none) (owner' : t.es.owner = none) :
    ∃ g' : Shift, (∀ {p q}, g'.old p q ↔ g.At count p q) ∧ g'.left = s'.shell.next ∧
      g'.gap = s'.shell.cell ∧
      ∀ view' : Nat → ExprState → ExprState → Prop, view' 0 s'.es t'.es →
        TwinState g' view' 0 s' t' := by
  obtain ⟨g', old, left', gap, shells⟩ := twin.shell.part left.next right.next
    (fun at1 => left.cells _ (twin.shell.inside at1).1 (apart at1).1)
    (fun at1 => right.cells _ (twin.shell.inside at1).2 (apart at1).2) left.blocks right.blocks
  refine ⟨g', old, left', gap, fun view' here => ?_⟩
  exact
    { shell := shells
      noassign := by rw [left.noassign, right.noassign, twin.noassign]
      idleLeft := left.evaling.trans twin.idleLeft
      idleRight := right.evaling.trans twin.idleRight
      owner := by
        rw [left.owner, right.owner, owner, owner']
        exact .none
      es := here }

end Parting

/-! ## Skipping an operand -/

/-- One evaluation stands at an operand, at a word whose cell has no partner. -/
structure AtHole (g : Shift) (words : List Word) (count : Nat) (s t : State) : Prop where
  twin : TwinState g (fun _ _ _ => True) count s t
  facing : Facing s words
  ownerLeft : s.es.owner = none
  ownerRight : t.es.owner = none
  alone : ∀ p, heldCell s = some p → p < g.left ∧ ∀ q, ¬ g.old p q
  ended : t.es.tok = .END ∧ t.es.tokp = []

section Holes

variable {g : Shift} {count : Nat} {s t : State} {nested nested' : Nested}
  {words rest : List Word}

theorem Facing.atWord {words : List Word} (facing : Facing s words) (owner : s.es.owner = none) :
    AtWord s.es words where
  owner := owner
  tok := by
    cases words with
    | nil => exact facing.1
    | cons w rest =>
        cases w with
        | op tok => exact facing.1.1
        | num n => exact facing.1.1
        | name x => exact facing.1.1
  tokp := by
    cases words with
    | nil => exact facing.2
    | cons w rest => exact facing.2

def Unnamed (words : List Word) : Prop := ∀ x, words.head? ≠ some (.name x)

theorem Unnamed.legible (unnamed : Unnamed words) (all : AllLegible False words)
    (nonempty : words ≠ []) (rest : List Word) (s : State) :
    ∀ w, (words ++ rest).head? = some w → Legible s w := by
  cases words with
  | nil => exact absurd rfl nonempty
  | cons w more =>
      rintro _ ⟨⟩
      have legible := all w List.mem_cons_self
      cases w with
      | op tok => exact legible
      | num n => trivial
      | name x => exact absurd rfl (unnamed x)

theorem token_hole {view : Nat → ExprState → ExprState → Prop}
    (twin : TwinState g view count s t) (ownerLeft : s.es.owner = none)
    (ownerRight : t.es.owner = none) (ended : t.es.tok = .END ∧ t.es.tokp = [])
    (text : SameWords s.es.tokp (spell (words ++ rest))) (unnamed : Unnamed words)
    (all : AllLegible False words) (nonempty : words ≠ []) :
    ∃ g' s', (∀ {p q}, g'.old p q ↔ g.At count p q) ∧ token s = .ok () s' ∧
      AtHole g' (words ++ rest) 0 s' t := by
  obtain ⟨s', run, moved⟩ := token_moves_skipping _ ownerLeft text
    (unnamed.legible all nonempty rest s)
  obtain ⟨g', old, left, _, twins⟩ := twin.part moved.frame (Framed.refl t none) (by simp)
    ownerLeft ownerRight
  refine ⟨g', s', old, run, ?_⟩
  exact
    { twin := twins _ trivial, facing := moved.facing
      ownerLeft := moved.frame.owner.trans ownerLeft, ownerRight := ownerRight
      alone := by
        intro p held
        refine ⟨?_, fun q related => ?_⟩
        · rw [left]
          exact heldCell_lt moved.facing held
        · exact absurd (moved.fresh p held)
            (Nat.not_le_of_lt (twin.shell.inside (old.mp related)).1)
      ended := ended }

theorem intvar_hole (nests : NestedTwin g nested nested') {a b : Addr} (at1 : g.At count a b) :
    Relates count (AtHole g words count) (intvar nested a) (intvar nested' b)
      (Gives (AtHole g words) g.At) (TwinStop g) := by
  intro s t hole
  have frozen : Steady fun _ e e' => e = s.es ∧ e' = t.es := ⟨fun _ same => same⟩
  have twin : TwinState g (fun _ e e' => e = s.es ∧ e' = t.es) count s t :=
    { hole.twin with es := ⟨rfl, rfl⟩ }
  rcases (intvar_twin frozen nests at1).ends twin with
    ⟨vl, vl', s', t', count', run, run', le, after, at2⟩ | ⟨stop, stop', s', t', run, run', failed⟩
  · obtain ⟨sameLeft, sameRight⟩ := after.es
    rw [run, run']
    refine ⟨count', le, ?_, at2⟩
    exact
      { twin := { after with es := trivial }
        facing := hole.facing.congr sameLeft
          (by rw [hole.twin.shell.nextLeft, after.shell.nextLeft]; exact Nat.add_le_add_left le _)
          (by
            intro p held
            obtain ⟨early, single⟩ := hole.alone p held
            rw [after.shell.gap early single, hole.twin.shell.gap early single])
        ownerLeft := by rw [sameLeft]; exact hole.ownerLeft
        ownerRight := by rw [sameRight]; exact hole.ownerRight
        alone := by
          intro p held
          rw [heldCell_congr sameLeft] at held
          exact hole.alone p held
        ended := by rw [sameRight]; exact hole.ended }
  · rw [run, run']
    exact failed

/-- The operand has been evaluated, and its assignments are allowed again. -/
theorem AtHole.part {s' : State} {a : Addr} {v : Long} (hole : AtHole g words count s t)
    (yields : Yields s s' a v rest) :
    ∃ g' : Shift, (∀ {p q}, g'.old p q ↔ g.At count p q) ∧ TwinAlong g' rest [] 0 s' t := by
  obtain ⟨g', old, _, _, twins⟩ := hole.twin.part yields.frame (Framed.refl t none)
    (by
      intro p q at1
      refine ⟨fun same => ?_, by simp⟩
      obtain ⟨early, single⟩ := hole.alone p same
      rcases at1 with related | ⟨i, _, late, _⟩
      · exact single q related
      · exact absurd early (Nat.not_lt_of_le (late ▸ Nat.le_add_right _ _)))
    hole.ownerLeft hole.ownerRight
  refine ⟨g', old, twins (Along g' rest []) ?_⟩
  exact
    { left := yields.facing.atWord (yields.frame.owner.trans hole.ownerLeft)
      right := ⟨hole.ownerRight, hole.ended.1, hole.ended.2⟩
      val := by
        rintro w _ ⟨⟩ }

/-- An operand that can be skipped: it is read to its end, whatever it computes. -/
def Skips (nested : Nested) (words : List Word) (p : Nat) : Prop :=
  ∃ worth, Reads nested False worth words p ∧ (worth true).isSome

theorem Skips.run {p : Nat} (skips : Skips nested words p) (fuel : Nat)
    (enough : 16 * words.length + p + 2 ≤ fuel) (stops : Stops p rest)
    (facing : Facing s (words ++ rest)) (owner : s.es.owner = none) :
    ∃ v a s', evalexpr nested fuel p (withNoassign (s.es.noassign + 1) s) = .ok a s' ∧
      Yields (withNoassign (s.es.noassign + 1) s) s' a v rest := by
  obtain ⟨worth, reads, isSome⟩ := skips
  obtain ⟨v, value⟩ := Option.isSome_iff_exists.mp isSome
  have entry : Entry False (withNoassign (s.es.noassign + 1) s) :=
    ⟨owner, Or.inr (Nat.succ_ne_zero _)⟩
  have outcome := reads fuel _ rest enough entry stops (facing.withNoassign _)
  have held : ((withNoassign (s.es.noassign + 1) s).es.noassign != 0) = true := by
    simp [withNoassign]
  rw [held, value] at outcome
  obtain ⟨a, s', run, yields⟩ := outcome
  exact ⟨v, a, s', run, yields⟩

theorem skip_arm {p fuel : Nat} (hole : AtHole g (words ++ rest) count s t)
    (skips : Skips nested words p) (enough : 16 * words.length + p + 2 ≤ fuel)
    (stops : Stops p rest) :
    ∃ g' a s', (∀ {p q}, g'.old p q ↔ g.At count p q) ∧ arm nested fuel p true s = .ok a s' ∧
      TwinAlong g' rest [] 0 s' t := by
  obtain ⟨v, a, s', run, yields⟩ := skips.run fuel enough stops hole.facing hole.ownerLeft
  obtain ⟨g', old, twin⟩ := hole.part yields.released
  refine ⟨g', a, withNoassign s.es.noassign s', old, ?_, twin⟩
  unfold arm
  rw [bind_ok (holdAssigns_run true s)]
  simp only [if_true]
  rw [bind_ok run, bind_ok (allowAssigns_run true s s' yields.frame.noassign)]
  rfl

/-- What an operator that skips its right operand gives does not depend on it. -/
theorem binaryResult_skips {op : Token} {l : Long} (skips : op.skips l = true) (r r' : Long) :
    binaryResult op l r = binaryResult op l r' := by
  unfold Token.skips at skips
  split at skips
  case isTrue isLand =>
    have zero : l = 0 := by simpa using skips
    simp [isLand, zero, binaryResult]
  case isFalse notLand =>
    split at skips
    case isTrue isLor =>
      simp only [isLor, binaryResult, skips, Bool.true_or]
    case isFalse => cases skips

/-- The right operand of `&&` or `||` when it is not selected. -/
theorem skip_right {op : Token} {l : Long} (unselected : op.skips l = true) {fuel : Nat}
    {vl vl' : Addr} (at1 : g.At count vl vl') (hole : AtHole g (words ++ rest) count s t)
    (skips : Skips nested words (op.prec - 1)) (enough : 16 * words.length + op.prec + 2 ≤ fuel)
    (stops : Stops (op.prec - 1) rest) :
    Parts g (fun g' => Gives (TwinAlong g' rest []) g'.At)
      ((do
        holdAssigns true
        let vr ← intvar nested (← evalexpr nested fuel (op.prec - 1))
        setNumber vl (binaryResult op l (← numberAt vr))
        allowAssigns true
        return vl : ExprM Addr) s)
      ((do
        setNumber vl' (binaryResult op l 0)
        return vl' : ExprM Addr) t) := by
  obtain ⟨v, a, s1, run1, yields1⟩ := skips.run fuel (by omega) stops hole.facing hole.ownerLeft
  obtain ⟨vr, s2, run2, operand⟩ := yields1.cast nested
  obtain ⟨g', old, twin⟩ := hole.part operand.toYields.released
  rw [bind_ok (holdAssigns_run true s)]
  simp only [if_true]
  rw [bind_ok run1, bind_ok run2, bind_ok (numberAt_run vr s2), setNumber_allowAssigns,
    bind_ok (allowAssigns_run true s s2 operand.frame.noassign),
    binaryResult_skips unselected (s2.shell.cell vr).number 0]
  have at2 : g'.At 0 vl vl' := Or.inl (old.mpr at1)
  refine Parts.widen (fun old' => old.mpr (Or.inl old')) (Parts.same 0 ?_ twin)
  refine Relates.bind (setNumber_twin _ at2) fun count3 le3 _ _ => ?_
  exact relates_gives (at2.grows le3)

end Holes

/-! ## Expressions with an operand that may not be selected -/

/-- `&&` or `||`. -/
abbrev LazyOp := { op : Token // op = .O_LAND ∨ op = .O_LOR }

def LazyOp.between (op : LazyOp) : InfixOp :=
  ⟨op.val, by rcases op.property with same | same <;> rw [same] <;> rfl⟩

/-- An expression with a place for the operand that its operator may not select. -/
inductive Choice where
  | right (op : LazyOp) (l : Tree)
  | thenArm (c b : Tree)
  | elseArm (c a : Tree)

/-- The expression with its operand in place. -/
def Choice.fill : Choice → Tree → Tree
  | .right op l, e => .binary op.between l e
  | .thenArm c b, e => .ternary c e b
  | .elseArm c a, e => .ternary c a e

/-- The words of the operand that decides. -/
def Choice.condition : Choice → List Word
  | .right op l => l.words op.val.prec
  | .thenArm c _ | .elseArm c _ => c.words (P_TERN - 1)

/-- The other operand is not selected. -/
def Choice.skips : Choice → Long → Bool
  | .right op _, n => op.val.skips n
  | .thenArm _ _, n => n == 0
  | .elseArm _ _, n => n != 0

/-- The words of the operand that may not be selected. -/
def Choice.operand : Choice → Tree → List Word
  | .right op _, e => e.words (op.val.prec - 1)
  | .thenArm _ _, e => e.words MAX_PREC
  | .elseArm _ _, e => e.words P_TERN

/-- What is read before the deciding operand is cast to a number, where that is not the
operand in question: the selected arm that follows it. -/
def Choice.ahead : Choice → List Word
  | .right _ _ | .thenArm _ _ => []
  | .elseArm _ a => a.words MAX_PREC

def textOf (words : List Word) : List Byte := (spell words).tail

def Choice.deciding (nested : Nested) (k : Choice) : ExprM Addr := do
  token
  let v ← evalexpr nested (callDepth (textOf k.condition)) MAX_PREC
  onState fun es => { es with tokp := spell k.ahead }
  token
  intvar nested v

/-- Go on with what is selected. -/
def Choice.selected (nested : Nested) (k : Choice) (vl : Addr) (n : Long) : ExprM Addr :=
  match k with
  | .right op _ => do
      setNumber vl (binaryResult op.val n 0)
      return vl
  | .thenArm _ b => do
      onState fun es => { es with tokp := spell (b.words P_TERN) }
      token
      evalexpr nested (callDepth (spell (b.words P_TERN))) P_TERN
  | .elseArm _ a => evalexpr nested (callDepth (spell (a.words MAX_PREC))) MAX_PREC

def Choice.value (depth : Nat) (k : Choice) (sh : Shell) : Option Long :=
  match (do numberAt (← k.deciding (nestedWith (vEvaluate depth))) : ExprM Long)
      ⟨sh, initialState (textOf k.condition) none⟩ with
  | .ok n _ => some n
  | .error .. => none

/-! ## The operand leaves no trace -/

/-- The operator behind the deciding operand. -/
def Choice.op : Choice → Token
  | .right op _ => op.val
  | .thenArm _ _ | .elseArm _ _ => .O_TERN

/-- The words behind that operator. -/
def Choice.behind : Choice → Tree → List Word
  | .right op _, e => e.words (op.val.prec - 1)
  | .thenArm _ b, e => e.words MAX_PREC ++ .op .CTERN :: b.words P_TERN
  | .elseArm _ a, e => a.words MAX_PREC ++ .op .CTERN :: e.words P_TERN

theorem Choice.fill_words (k : Choice) (e : Tree) :
    (k.fill e).words MAX_PREC = k.condition ++ .op k.op :: k.behind e := by
  have fits := (k.fill e).level_le
  rw [Tree.words, parenthesize, if_pos fits]
  cases k <;> rfl

theorem Choice.condition_ne_nil (k : Choice) : k.condition ≠ [] := by
  cases k <;> exact Tree.words_ne_nil _ _

theorem Choice.condition_legible (k : Choice) : AllLegible False k.condition := by
  cases k <;> exact Tree.words_legible _ _

theorem Choice.op_ordinary (k : Choice) : k.op.Ordinary := by
  cases k with
  | right op l => rcases op.property with same | same <;> simp only [Choice.op, same] <;> decide
  | thenArm c b => exact (by decide : Token.O_TERN.Ordinary)
  | elseArm c a => exact (by decide : Token.O_TERN.Ordinary)

theorem Choice.loops {g : Shift} {nested nested' : Nested} (nests : NestedTwin g nested nested')
    (k : Choice) : LoopSyncs g nested nested' k.condition k.op.prec := by
  cases k with
  | right op l => exact (treeSyncs nests l).words_loop op.between
  | thenArm c b => exact ((treeSyncs nests c).words (P_TERN - 1)).loop (c.words_ne_nil _)
  | elseArm c a => exact ((treeSyncs nests c).words (P_TERN - 1)).loop (c.words_ne_nil _)

section Turns

variable {g : Shift} {count : Nat} {s t : State} {nested nested' : Nested}

/-- What an evaluation has at its end. -/
abbrev Finished (g : Shift) : Nat → Addr → Addr → State → State → Prop :=
  Gives (TwinAlong g [] []) g.At

theorem Parts.leaves {x : ExprM Addr} {r : EStateM.Result Stop State Addr} {fuel q : Nat}
    (parts : Parts g Finished (x s) r) :
    Parts g Finished ((x >>= evalLoop nested (fuel + 1) q) s) r := by
  obtain ⟨g', count, keeps, meets⟩ := parts
  refine ⟨g', count, keeps, ?_⟩
  cases left : x s with
  | error stop s' =>
      rw [left] at meets
      rw [bind_error left]
      exact meets
  | ok a s' =>
      rw [left] at meets
      cases r with
      | error stop t' => exact meets.elim
      | ok b t' =>
          obtain ⟨count', le, after, at1⟩ := meets
          have ends : s'.es.tok = .END := after.es.left.tok
          rw [bind_ok left, evalLoop_exit nested a (by rw [ends]; rfl)]
          exact ⟨count', le, after, at1⟩

theorem token_at_end {α : Type} (x : ExprM α) (owner : t.es.owner = none)
    (ended : t.es.tok = .END ∧ t.es.tokp = []) :
    (do
      onState fun es => { es with tokp := spell [] }
      token
      x : ExprM α) t = x t := by
  obtain ⟨sh, es⟩ := t
  obtain ⟨expression, tokp, tok, noassign, val, evaling, owns⟩ := es
  obtain ⟨rfl, rfl⟩ := ended
  replace owner : owns = none := owner
  subst owner
  rfl

theorem AtWord.ended {e : ExprState} (atWord : AtWord e []) : e.tok = .END ∧ e.tokp = [] :=
  ⟨atWord.tok, atWord.tokp⟩

theorem LazyOp.skipped (op : LazyOp) (n : Long) :
    (if op.val = .O_LAND then n == 0 else n != 0) = op.val.skips n := by
  unfold Token.skips
  rcases op.property with same | same <;> simp [same]

/-- An operand that is left alone where it is not selected: it does not begin with a
name, and no quotient in it overflows. -/
structure Harmless (words : List Word) (e : Tree) : Prop where
  unnamed : Unnamed words
  fits : e.Fits true

variable {e : Tree}

theorem Harmless.skips {words : List Word} (harmless : Harmless words e) (nested : Nested) (p : Nat) :
    Skips nested (e.words p) p :=
  ⟨fun held => e.worth held, (treeReads nested e False.elim).words False.elim p,
    (Tree.worth_isSome true fun impossible => by cases impossible).mpr harmless.fits⟩

variable {fuel : Nat} {t2 : State} {vl' v v' : Addr}

theorem right_parts (nests : ∀ g, NestedTwin g nested nested') (op : LazyOp)
    (harmless : Harmless (e.words (op.val.prec - 1)) e)
    (enough : 16 * (e.words (op.val.prec - 1)).length + op.val.prec + 2 ≤ fuel) {a b : Addr}
    (at1 : g.At count a b)
    (twin : TwinAlong g (.op op.val :: e.words (op.val.prec - 1)) [] count s t)
    (run : intvar nested' b t = .ok vl' t2)
    (unselected : op.val.skips (t2.shell.cell vl').number = true) :
    Parts g Finished (evalLoop nested (fuel + 1) op.val.prec a s)
      ((do
        setNumber vl' (binaryResult op.val (t2.shell.cell vl').number 0)
        return vl' : ExprM Addr) t2) := by
  obtain ⟨more, rfl⟩ : ∃ more, fuel = more + 1 := ⟨fuel - 1, by omega⟩
  have text : SameWords s.es.tokp (spell (e.words (op.val.prec - 1) ++ [])) := by
    rw [List.append_nil]
    exact congrArg _ twin.es.left.tokp
  obtain ⟨g1, s1, old, read, hole⟩ := token_hole twin twin.es.left.owner twin.es.right.owner
    twin.es.right.ended text harmless.unnamed (e.words_legible _) (e.words_ne_nil _)
  have opened : evalLoop nested (more + 1 + 1) op.val.prec a s =
      (turn nested (more + 1) op.val a >>= evalLoop nested (more + 1) op.val.prec) s :=
    evalLoop_turn nested op.between (more + 1) a twin.es.left.tok
  rw [opened]
  refine Parts.leaves (Parts.widen (fun old' => old.mpr (Or.inl old')) ?_)
  unfold turn
  rw [bind_ok read]
  rcases (intvar_hole (nests g1) (Or.inl (old.mpr at1))).ends hole with
    ⟨vl, vl'', s2, t2', count2, left, right, _, hole2, at2⟩ | ⟨stop, stop', s2, t2', _, right, _⟩
  · rw [run] at right
    cases right
    rw [bind_ok left, if_pos op.property, bind_ok (numberAt_run vl s2),
      hole2.twin.shell.cells at2]
    simp only [LazyOp.skipped, unselected]
    exact skip_right unselected at2 hole2 (harmless.skips nested _) (by omega) (by rintro w ⟨⟩)
  · rw [run] at right
    cases right

theorem before_retold {w : Word} {words words' : List Word}
    (twin : TwinAlong g (w :: words) [] count s t) :
    TwinState g (Before words words') count s
      { t with es := { t.es with tokp := spell words' } } :=
  { twin with
    es :=
      { ownerLeft := twin.es.left.owner, ownerRight := twin.es.right.owner
        left := congrArg _ twin.es.left.tokp, right := rfl } }

theorem thenArm_parts (nests : ∀ g, NestedTwin g nested nested') {b : Tree}
    (harmless : Harmless (e.words MAX_PREC) e) {fuel' : Nat}
    (enough : 16 * (e.words MAX_PREC).length + 16 * (b.words P_TERN).length + MAX_PREC + 2 ≤ fuel)
    (enough' : 16 * (b.words P_TERN).length + P_TERN + 2 ≤ fuel') (at1 : g.At count v v')
    (twin : TwinAlong g (.op .O_TERN :: (e.words MAX_PREC ++ .op .CTERN :: b.words P_TERN)) []
      count s t) (run : intvar nested' v' t = .ok vl' t2)
    (unselected : ((t2.shell.cell vl').number == 0) = true) :
    Parts g Finished (evalLoop nested (fuel + 1) P_TERN v s)
      ((do
        onState fun es => { es with tokp := spell (b.words P_TERN) }
        token
        evalexpr nested' fuel' P_TERN : ExprM Addr) t2) := by
  have maxPrec : MAX_PREC = 13 := rfl
  have tern : P_TERN = 11 := rfl
  obtain ⟨more, rfl⟩ : ∃ more, fuel = more + 1 := ⟨fuel - 1, by omega⟩
  obtain ⟨g1, s1, old, read, hole⟩ := token_hole twin twin.es.left.owner twin.es.right.owner
    twin.es.right.ended (congrArg _ twin.es.left.tokp) harmless.unnamed (e.words_legible _)
    (e.words_ne_nil _)
  rw [evalLoop_ternary nested (more + 1) v twin.es.left.tok]
  refine Parts.leaves (Parts.widen (fun old' => old.mpr (Or.inl old')) ?_)
  unfold ternaryTurn
  rw [bind_ok read]
  rcases (intvar_hole (nests g1) (Or.inl (old.mpr at1))).ends hole with
    ⟨vl, vl'', s2, t2', count2, left, right, _, hole2, at2⟩ | ⟨stop, stop', s2, t2', _, right, _⟩
  · rw [run] at right
    cases right
    obtain ⟨g3, a, s3, old3, skipped, twin3⟩ := skip_arm hole2 (harmless.skips nested _)
      (show 16 * (e.words MAX_PREC).length + MAX_PREC + 2 ≤ more + 1 by omega)
      (stops_ctern _)
    have zero : ((t2.shell.cell vl').number != 0) = false := by
      rw [bne, unselected]
      rfl
    rw [bind_ok left, bind_ok (numberAt_run vl s2), hole2.twin.shell.cells at2]
    simp only [zero, Bool.not_false]
    have colon : s3.es.tok = .CTERN := twin3.es.left.tok
    rw [bind_ok skipped, bind_ok (tokenNow_run s3), colon, if_neg (by decide), arm_selected]
    simp only [Bool.false_eq_true, if_false, bind_pure]
    refine Parts.widen (fun old' => old3.mpr (Or.inl old')) ?_
    rw [bind_ok (onState_run _ t2)]
    have read3 := token_words_before (g := g3) (b.words_legible P_TERN) (b.words_ne_nil P_TERN) [] [] 0
    rw [List.append_nil] at read3
    refine Parts.same 0 ?_ (before_retold twin3)
    refine Relates.bind read3 fun count4 le4 _ _ => ?_
    have syncs := (treeSyncs (nests g3) b).words P_TERN (more + 1) fuel' count4 [] []
      (by omega) (by omega) ⟨by rintro w ⟨⟩, by rintro w ⟨⟩⟩
    rw [List.append_nil] at syncs
    exact syncs
  · rw [run] at right
    cases right

theorem elseArm_parts (nests : ∀ g, NestedTwin g nested nested') {a : Tree}
    (harmless : Harmless (e.words P_TERN) e) {fuel' : Nat}
    (enough : 16 * (e.words P_TERN).length + 16 * (a.words MAX_PREC).length + MAX_PREC + 2 ≤ fuel)
    (enough' : 16 * (a.words MAX_PREC).length + MAX_PREC + 2 ≤ fuel') (at1 : g.At count v v')
    (twin : TwinAlong g (.op .O_TERN :: (a.words MAX_PREC ++ .op .CTERN :: e.words P_TERN)) []
      count s t) (run : (do
      onState fun es => { es with tokp := spell (a.words MAX_PREC) }
      token
      intvar nested' v' : ExprM Addr) t = .ok vl' t2)
    (unselected : ((t2.shell.cell vl').number != 0) = true) :
    Parts g Finished (evalLoop nested (fuel + 1) P_TERN v s)
      (evalexpr nested' fuel' MAX_PREC t2) := by
  have maxPrec : MAX_PREC = 13 := rfl
  have tern : P_TERN = 11 := rfl
  obtain ⟨more, rfl⟩ : ∃ more, fuel = more + 1 := ⟨fuel - 1, by omega⟩
  rw [evalLoop_ternary nested (more + 1) v twin.es.left.tok]
  refine Parts.leaves ?_
  unfold ternaryTurn
  have ops := twin_operations (along_view g (a.words MAX_PREC ++ .op .CTERN :: e.words P_TERN)
    (a.words MAX_PREC)) (nests g)
  have cast : Relates count (TwinState g (Before (a.words MAX_PREC ++ .op .CTERN :: e.words P_TERN)
      (a.words MAX_PREC)) count) (token >>= fun _ => intvar nested v)
      (token >>= fun _ => intvar nested' v')
      (Gives (TwinAlong g (a.words MAX_PREC ++ .op .CTERN :: e.words P_TERN) (a.words MAX_PREC)) g.At)
      (TwinStop g) := by
    have reads := token_words_before (g := g) (a.words_legible MAX_PREC) (a.words_ne_nil MAX_PREC)
      (.op .CTERN :: e.words P_TERN) [] count
    rw [List.append_nil] at reads
    exact Relates.bind reads fun count1 le1 _ _ => ops.intvar (at1.grows le1)
  rw [bind_ok (onState_run _ t)] at run
  rcases cast.ends (before_retold twin) with
    ⟨vl, vl'', s2, t2', count2, left, right, le2, twin2, at2⟩ | ⟨stop, stop', s2, t2', _, right, _⟩
  · rw [run] at right
    cases right
    have opened : ∀ f : Addr → ExprM Addr, (do
        token
        let vl ← intvar nested v
        f vl : ExprM Addr) s = f vl s2 := by
      intro f
      rw [← bind_assoc]
      exact bind_ok left
    have nonzero : ((s2.shell.cell vl).number != 0) = true := by
      rw [twin2.shell.cells at2]
      exact unselected
    rw [opened, bind_ok (numberAt_run vl s2)]
    simp only [nonzero, Bool.not_true, arm_selected, if_true]
    have syncs := (treeSyncs (nests g) a).words MAX_PREC (more + 1) fuel' count2
      (.op .CTERN :: e.words P_TERN) [] (by omega) (by omega) ⟨stops_ctern _, by rintro w ⟨⟩⟩
    rw [List.append_nil] at syncs
    rcases syncs.ends twin2 with
      ⟨r, r', s3, t3, count3, run3, run3', _, twin3, at3⟩ | ⟨stop, stop', s3, t3, run3, run3', failed⟩
    · have text : SameWords s3.es.tokp (spell (e.words P_TERN ++ [])) := by
        rw [List.append_nil]
        exact congrArg _ twin3.es.left.tokp
      obtain ⟨g4, s4, old4, read4, hole4⟩ := token_hole twin3 twin3.es.left.owner
        twin3.es.right.owner twin3.es.right.ended text harmless.unnamed (e.words_legible _)
        (e.words_ne_nil _)
      obtain ⟨g5, r5, s5, old5, skipped, twin5⟩ := skip_arm hole4 (harmless.skips nested _)
        (show 16 * (e.words P_TERN).length + P_TERN + 2 ≤ more + 1 by omega) (by rintro w ⟨⟩)
      have colon : s3.es.tok = .CTERN := twin3.es.left.tok
      rw [bind_ok run3, bind_ok (tokenNow_run s3), colon, if_neg (by decide), bind_ok read4,
        bind_ok skipped, run3']
      have after : Finished g5 0 r r' s5 t3 := ⟨twin5, Or.inl (old5.mpr (Or.inl (old4.mpr at3)))⟩
      exact (Parts.done after).widen fun old' => old5.mpr (Or.inl (old4.mpr (Or.inl old')))
    · rw [bind_error run3, run3']
      exact Parts.stopped failed
  · rw [run] at right
    cases right

abbrev Choice.Harmless (k : Choice) (e : Tree) : Prop := Expr.Harmless (k.operand e) e

theorem Choice.turn_parts (nests : ∀ g, NestedTwin g nested nested') (k : Choice)
    (harmless : k.Harmless e) (enough : 16 * (k.behind e).length + 16 ≤ fuel)
    (at1 : g.At count v v') (twin : TwinAlong g (.op k.op :: k.behind e) [] count s t) (run : (do
      onState fun es => { es with tokp := spell k.ahead }
      token
      intvar nested' v' : ExprM Addr) t = .ok vl' t2)
    (unselected : k.skips (t2.shell.cell vl').number = true) :
    Parts g Finished (evalLoop nested (fuel + 1) k.op.prec v s)
      (k.selected nested' vl' (t2.shell.cell vl').number t2) := by
  have maxPrec : MAX_PREC = 13 := rfl
  have tern : P_TERN = 11 := rfl
  cases k with
  | right op l =>
      rw [Choice.ahead, token_at_end _ twin.es.right.owner twin.es.right.ended] at run
      have loose : op.val.prec ≤ 10 := by
        rcases op.property with same | same <;> rw [same] <;> decide
      exact right_parts nests op harmless (by simp only [Choice.behind] at enough; omega) at1 twin
        run unselected
  | thenArm c b =>
      rw [Choice.ahead, token_at_end _ twin.es.right.owner twin.es.right.ended] at run
      have longer := spell_length (b.words P_TERN)
      simp only [Choice.behind, List.length_append, List.length_cons] at enough
      exact thenArm_parts nests harmless (by omega) (by unfold callDepth; omega) at1 twin run
        unselected
  | elseArm c a =>
      have longer := spell_length (a.words MAX_PREC)
      simp only [Choice.behind, List.length_append, List.length_cons] at enough
      exact elseArm_parts nests harmless (by omega) (by unfold callDepth; omega) at1 twin run
        unselected

end Turns

/-! ## Whole evaluations -/

section Whole

variable {g : Shift} {count : Nat} {nested nested' : Nested}

/-- The loops of the looser precedences leave a finished operand as it is. -/
theorem evalexpr_climbs (nested : Nested) {fuel p : Nat} {s s' : State} {a : Addr}
    (run : evalexpr nested fuel p s = .ok a s') (ended : s'.es.tok = .END) (k : Nat) :
    evalexpr nested (fuel + k) (p + k) s = .ok a s' := by
  induction k with
  | zero => exact run
  | succ k ih =>
      obtain ⟨more, same⟩ : ∃ more, fuel + k = more + 1 := by
        cases known : fuel + k with
        | zero =>
            rw [known, evalexpr] at ih
            cases ih
        | succ more => exact ⟨more, rfl⟩
      rw [← Nat.add_assoc, ← Nat.add_assoc, evalexpr, bind_ok ih, same]
      exact evalLoop_exit nested a (by rw [ended]; rfl)

theorem Parts.climbs {s : State} {fuel p : Nat} {r : EStateM.Result Stop State Addr}
    (parts : Parts g Finished (evalexpr nested fuel p s) r) (k : Nat) :
    Parts g Finished (evalexpr nested (fuel + k) (p + k) s) r := by
  obtain ⟨g', count, keeps, meets⟩ := parts
  refine ⟨g', count, keeps, ?_⟩
  cases left : evalexpr nested fuel p s with
  | error stop s' =>
      rw [left] at meets
      rw [evalexpr_fails nested left k]
      exact meets
  | ok a s' =>
      rw [left] at meets
      cases r with
      | error stop t' => exact meets.elim
      | ok b t' =>
          have ended : s'.es.tok = .END := by
            obtain ⟨_, _, after, _⟩ := meets
            exact after.es.left.tok
          rw [evalexpr_climbs nested left ended k]
          exact meets

theorem Choice.op_prec (k : Choice) : 9 ≤ k.op.prec ∧ k.op.prec ≤ 11 := by
  cases k with
  | right op l =>
      rcases op.property with same | same <;> simp only [Choice.op, same] <;> decide
  | thenArm c b => exact (by decide : 9 ≤ Token.O_TERN.prec ∧ Token.O_TERN.prec ≤ 11)
  | elseArm c a => exact (by decide : 9 ≤ Token.O_TERN.prec ∧ Token.O_TERN.prec ≤ 11)

theorem Choice.op_stops (k : Choice) (rest : List Word) :
    Stops (k.op.prec - 1) (.op k.op :: rest) := by
  rintro w ⟨⟩
  have positive := k.op_prec.1
  refine ⟨_, rfl, k.op_ordinary, ?_, fun _ => by omega⟩
  cases k with
  | right op l => rcases op.property with same | same <;> simp only [Choice.op, same] <;> rfl
  | thenArm c b => rfl
  | elseArm c a => rfl

theorem callDepth_textOf (words : List Word) (nonempty : words ≠ []) :
    16 * words.length + 16 ≤ callDepth (textOf words) := by
  have longer := spell_length words
  have positive := List.length_pos_of_ne_nil nonempty
  unfold callDepth textOf
  rw [List.length_tail]
  omega

theorem textOf_words (words : List Word) (nonempty : words ≠ []) :
    SameWords (textOf words) (spell words) := by
  cases words with
  | nil => exact absurd rfl nonempty
  | cons w rest =>
      unfold textOf SameWords
      rw [spell_cons, List.tail_cons, List.dropWhile_cons_of_pos (by decide)]

theorem Choice.parts (nests : ∀ g, NestedTwin g nested nested') (k : Choice) {e : Tree}
    (harmless : k.Harmless e) {s t : State}
    (starts : TwinState g (Before ((k.fill e).words MAX_PREC) k.condition) count s t)
    {vl' : Addr} {t2 : State} (decided : k.deciding nested' t = .ok vl' t2)
    (unselected : k.skips (t2.shell.cell vl').number = true) :
    Parts g Finished
      ((do
        token
        evalexpr nested (callDepth (k.fill e).text) MAX_PREC : ExprM Addr) s)
      (k.selected nested' vl' (t2.shell.cell vl').number t2) := by
  have maxPrec : MAX_PREC = 13 := rfl
  obtain ⟨tight, loose⟩ := k.op_prec
  have reads := token_words_before (g := g) k.condition_legible k.condition_ne_nil
    (.op k.op :: k.behind e) [] count
  rw [List.append_nil, ← k.fill_words] at reads
  unfold Choice.deciding at decided
  rcases reads.ends starts with
    ⟨_, _, s1, t1, count1, left1, right1, _, twin1⟩ | ⟨stop, stop', s1, t1, _, right1, _⟩
  · rw [bind_ok right1] at decided
    rw [bind_ok left1]
    have depth := (k.fill e).callDepth_enough
    have depth' := callDepth_textOf k.condition k.condition_ne_nil
    have size := congrArg List.length (k.fill_words e)
    rw [List.length_append, List.length_cons] at size
    obtain ⟨fuel, enough⟩ : ∃ fuel, callDepth (k.fill e).text = fuel + (13 - k.op.prec) :=
      ⟨callDepth (k.fill e).text - (13 - k.op.prec), by omega⟩
    obtain ⟨fuel', enough'⟩ : ∃ fuel', callDepth (textOf k.condition) = fuel' + (13 - k.op.prec) :=
      ⟨callDepth (textOf k.condition) - (13 - k.op.prec), by omega⟩
    have whole : MAX_PREC = k.op.prec + (13 - k.op.prec) := by omega
    rw [enough, whole]
    rw [enough', whole] at decided
    have twin1' : TwinAlong g (k.condition ++ .op k.op :: k.behind e) (k.condition ++ []) count1
        s1 t1 := by
      rw [← k.fill_words, List.append_nil]
      exact twin1
    rcases k.loops (nests g) fuel fuel' count1 (.op k.op :: k.behind e) [] (by omega) (by omega)
        ⟨k.op_stops _, by rintro w ⟨⟩⟩ s1 t1 twin1' with
      ⟨more, more', a, b, s2, t3, count2, less, less', _, at2, twin2, run, run'⟩ |
        ⟨stop, stop', s2, t3, run, run', _⟩
    · obtain ⟨fewer, rfl⟩ : ∃ fewer, more = fewer + 1 := ⟨more - 1, by omega⟩
      obtain ⟨fewer', rfl⟩ : ∃ fewer', more' = fewer' + 1 := ⟨more' - 1, by omega⟩
      have ended : t3.es.tok = .END := twin2.es.right.tok
      rw [evalLoop_exit nested' b (by rw [ended]; rfl)] at run'
      rw [bind_ok (evalexpr_climbs nested' run' ended _)] at decided
      refine Parts.climbs ?_ _
      rw [run]
      exact k.turn_parts nests harmless (by omega) at2 twin2 decided unselected
    · rw [bind_error (evalexpr_fails nested' run' _)] at decided
      cases decided
  · rw [bind_error right1] at decided
    cases decided

theorem token_head {words : List Word} (all : AllLegible False words) (nonempty : words ≠ [])
    {s : State} (owner : s.es.owner = none) (text : SameWords s.es.tokp (spell words)) :
    ∃ s', token s = .ok () s' ∧ s'.es.tok ≠ .END := by
  cases words with
  | nil => exact absurd rfl nonempty
  | cons w rest =>
      have legible := all w List.mem_cons_self
      cases w with
      | op tok =>
          refine ⟨_, token_op legible owner text, ?_⟩
          rintro rfl
          exact legible rfl
      | num n => exact ⟨_, token_num owner text, by rintro ⟨⟩⟩
      | name x =>
          rw [token_letters owner text]
          split
          · exact ⟨_, rfl, by rintro ⟨⟩⟩
          · exact ⟨_, rfl, by rintro ⟨⟩⟩

/-- The end of an evaluation, once the expression has been read. -/
def finish (nested : Nested) (vp : Addr) (mode : ErrorMode) (a : Addr) : ExprM Unit := do
  let v ← intvar nested a
  if (← tokenNow) ≠ .END then unexpected
  else storeResult vp v mode

theorem evaluation_split (nested : Nested) (vp : Addr) (mode : ErrorMode) {words : List Word}
    (all : AllLegible False words) (nonempty : words ≠ []) {s : State} {expr : List Byte}
    (owner : s.es.owner = none) (text : SameWords s.es.tokp (spell words)) :
    evaluation nested vp expr mode s =
      ((do
        token
        evalexpr nested (callDepth expr) MAX_PREC : ExprM Addr) >>= finish nested vp mode) s := by
  obtain ⟨s', read, notEnd⟩ := token_head all nonempty owner text
  unfold evaluation finish
  rw [bind_assoc, bind_ok read, bind_ok read, bind_ok (tokenNow_run s'), if_neg notEnd]

theorem finish_twin (nests : NestedTwin g nested nested') {vp vp' : Addr} (mode : ErrorMode)
    (target : g.At count vp vp') {a b : Addr} (at1 : g.At count a b) :
    Relates count (TwinAlong g [] [] count) (finish nested vp mode a) (finish nested' vp' mode b)
      (Kept (TwinAlong g [] [])) (TwinStop g) := by
  refine relates_operand (intvar_twin (along_view g [] []).toSteady nests at1)
    fun count1 le1 v v' at2 => ?_
  refine tokenNow_along .END rfl rfl ?_
  rw [if_neg (by decide), if_neg (by decide)]
  exact storeResult_twin mode (target.grows le1) at2

end Whole

/-! ## What an evaluation leaves behind -/

def Shell.vars (sh : Shell) : List (List (Name × Var)) :=
  sh.blocks.map fun vars => vars.map fun entry => (entry.1, sh.cell entry.2)

/-- How an evaluation has ended, what the variables are then, and the result. -/
def outcome (vp : Addr) :
    EStateM.Result Stop Shell Bool → Except Stop Bool × List (List (Name × Var)) × Var
  | .ok ok sh => (.ok ok, sh.vars, sh.cell vp)
  | .error stop sh => (.error stop, sh.vars, sh.cell vp)

/-- The variables are in cells that have been handed out. -/
def Shell.Sound (sh : Shell) : Prop := ∀ vars ∈ sh.blocks, ∀ entry ∈ vars, entry.2 < sh.next

section Outcomes

variable {g : Shift} {count : Nat} {sh th : Shell} {p q : Addr}

theorem TwinShell.vars (twin : TwinShell g count sh th) : sh.vars = th.vars := by
  unfold Shell.vars
  refine List.forall₂_eq_eq_eq ▸ ?_
  rw [List.forall₂_map_left_iff, List.forall₂_map_right_iff]
  refine twin.blocks.imp fun vars vars' related => ?_
  refine List.forall₂_eq_eq_eq ▸ ?_
  rw [List.forall₂_map_left_iff, List.forall₂_map_right_iff]
  refine related.imp fun entry entry' same => ?_
  rw [same.1, twin.cells same.2]

theorem TwinShell.observed (twin : TwinShell g count sh th) (target : g.At count p q) :
    (sh.vars, sh.cell p) = (th.vars, th.cell q) := by
  rw [twin.vars, twin.cells target]

/-- The shift that moves nothing. -/
def Shift.still (sh : Shell) : Shift where
  old p q := p = q ∧ p < sh.next
  left := sh.next
  right := sh.next
  low := 0
  gap := sh.cell
  below := by
    rintro p q ⟨rfl, inside⟩
    exact ⟨inside, inside⟩
  unique := by
    rintro p q p' q' ⟨rfl, _⟩ ⟨rfl, _⟩
    exact Iff.rfl

theorem Shell.Sound.twin (sound : sh.Sound) : TwinShell (Shift.still sh) 0 sh sh where
  low := Nat.le_refl 0
  nextLeft := rfl
  nextRight := rfl
  cells := by
    rintro p q (⟨rfl, _⟩ | ⟨i, small, _⟩)
    · rfl
    · exact absurd small (Nat.not_lt_zero i)
  gap _ _ := rfl
  blocks := by
    refine List.forall₂_same.mpr fun vars inside => ?_
    exact List.forall₂_same.mpr fun entry here => ⟨rfl, Or.inl ⟨rfl, sound vars inside entry here⟩⟩

/-- The handler makes no difference between runs that agree up to cells of their own. -/
theorem handled_parts {x y : ExprM Unit} {es es' : ExprState} (mode : ErrorMode)
    (parts : Parts g (fun g' => Kept (TwinAlong g' [] [])) (x ⟨sh, es⟩) (y ⟨th, es'⟩))
    (target : g.old p p) :
    outcome p (handled x es mode sh) = outcome p (handled y es' mode th) := by
  obtain ⟨g', count, keeps, meets⟩ := parts
  unfold handled
  cases left : x ⟨sh, es⟩ with
  | ok a s' =>
      cases right : y ⟨th, es'⟩ with
      | ok b t' =>
          rw [left, right] at meets
          obtain ⟨count', _, after⟩ := meets
          exact congrArg (Prod.mk _) (after.shell.observed (Or.inl (keeps target)))
      | error stop t' =>
          rw [left, right] at meets
          exact meets.elim
  | error stop s' =>
      cases right : y ⟨th, es'⟩ with
      | ok b t' =>
          rw [left, right] at meets
          exact meets.elim
      | error stop' t' =>
          rw [left, right] at meets
          obtain ⟨alike, count', shells, evaling⟩ := meets
          have cleared := TwinStop.cleared shells evaling
          have clearedSame := cleared.observed (Or.inl (keeps target))
          have same := shells.observed (Or.inl (keeps target))
          cases alike with
          | evalerr type expression expression' str str' =>
              cases mode with
              | KSH_RETURN_ERROR => exact congrArg (Prod.mk _) clearedSame
              | KSH_UNWIND_ERROR => exact congrArg (Prod.mk _) clearedSame
          | same stop =>
              cases stop with
              | evalerr type expression str =>
                  cases mode with
                  | KSH_RETURN_ERROR => exact congrArg (Prod.mk _) clearedSame
                  | KSH_UNWIND_ERROR => exact congrArg (Prod.mk _) clearedSame
              | unwound => exact congrArg (Prod.mk _) clearedSame
              | trap => exact congrArg (Prod.mk _) same
              | dangling => exact congrArg (Prod.mk _) same
              | overrun => exact congrArg (Prod.mk _) same
              | subscript => exact congrArg (Prod.mk _) same
              | endless => exact congrArg (Prod.mk _) same

end Outcomes

/-- The evaluation of an expression whose operand is not selected does not depend on
the operand. -/
theorem Choice.outcome_selected (k : Choice) {e : Tree} (harmless : k.Harmless e) (depth : Nat)
    {vp : Addr} (mode : ErrorMode) {sh : Shell} (sound : sh.Sound) (target : vp < sh.next)
    {vl : Addr} {t : State}
    (decided : k.deciding (nestedWith (vEvaluate depth))
      ⟨sh, initialState (textOf k.condition) none⟩ = .ok vl t)
    (unselected : k.skips (t.shell.cell vl).number = true) :
    outcome vp (vEvaluate (depth + 1) vp (k.fill e).text none mode sh) =
      outcome vp (handled
        (fun _ => (k.selected (nestedWith (vEvaluate depth)) vl (t.shell.cell vl).number >>=
          finish (nestedWith (vEvaluate depth)) vp mode) t)
        (initialState (textOf k.condition) none) mode sh) := by
  have nests := nestedWith_twin (vEvaluate_twin depth)
  have starts : TwinState (Shift.still sh) (Before ((k.fill e).words MAX_PREC) k.condition) 0
      ⟨sh, initialState (k.fill e).text none⟩ ⟨sh, initialState (textOf k.condition) none⟩ :=
    { shell := sound.twin, noassign := rfl, idleLeft := rfl, idleRight := rfl, owner := .none
      es :=
        { ownerLeft := rfl, ownerRight := rfl, left := (k.fill e).text_words
          right := textOf_words k.condition k.condition_ne_nil } }
  have old : (Shift.still sh).old vp vp := ⟨rfl, target⟩
  refine handled_parts mode ?_ old
  rw [evaluation_split _ vp mode ((k.fill e).words_legible MAX_PREC) ((k.fill e).words_ne_nil _) rfl
    (k.fill e).text_words]
  refine Parts.bind (k.parts nests harmless starts decided unselected) ?_
  rintro g' count' a b s' t' keeps ⟨after, at1⟩
  exact Parts.same count' (finish_twin (nests g') mode (Or.inl (keeps old)) at1) after

theorem Choice.literal_harmless (k : Choice) (n : Nat) : k.Harmless (.lit n) := by
  refine ⟨?_, trivial⟩
  cases k <;> rintro x ⟨⟩

/-- In an expression whose operand is not selected, a harmless operand does what a
literal does: the evaluation ends in the same way, with the same result and the same
variables. -/
theorem vEvaluate_unselected (k : Choice) (e : Tree) (n : Nat) (depth : Nat) (vp : Addr)
    (mode : ErrorMode) (sh : Shell) (sound : sh.Sound) (target : vp < sh.next) (v : Long)
    (known : k.value depth sh = some v) (unselected : k.skips v = true)
    (harmless : k.Harmless e) :
    outcome vp (vEvaluate (depth + 1) vp (k.fill e).text none mode sh) =
      outcome vp (vEvaluate (depth + 1) vp (k.fill (.lit n)).text none mode sh) := by
  unfold Choice.value at known
  cases decided : k.deciding (nestedWith (vEvaluate depth))
      ⟨sh, initialState (textOf k.condition) none⟩ with
  | error stop t =>
      rw [bind_error decided] at known
      cases known
  | ok vl t =>
      rw [bind_ok decided] at known
      cases known
      rw [k.outcome_selected harmless depth mode sound target decided unselected,
        k.outcome_selected (k.literal_harmless n) depth mode sound target decided unselected]

/-- The variable `x`. -/
def nameX : VarName := ⟨ascii ['x'], ⟨_, _, rfl, by decide⟩, by decide +kernel⟩

/-- A shell in which `x` is 5; the second cell takes results. -/
def shellX : Shell where
  next := 2
  cell p :=
    if p = 0 then { freshVar nameX.val with flag := DEFINED ||| ISSET, val := .s (ascii ['5']) }
    else resultCell
  blocks := [[(nameX.val, 0)]]

theorem shellX_sound : shellX.Sound := by
  unfold Shell.Sound shellX
  decide

/-- `0 && …` -/
def never : Choice := .right ⟨.O_LAND, Or.inl rfl⟩ (.lit 0)

theorem vEvaluate_unselected_step :
    never.Harmless (.pre ⟨.O_PLUSPLUS, rfl⟩ nameX) ∧
      outcome 1 (vEvaluate 1 1 (never.fill (.pre ⟨.O_PLUSPLUS, rfl⟩ nameX)).text none
          .KSH_RETURN_ERROR shellX) =
        outcome 1 (vEvaluate 1 1 (never.fill (.lit 7)).text none .KSH_RETURN_ERROR shellX) := by
  have harmless : never.Harmless (.pre ⟨.O_PLUSPLUS, rfl⟩ nameX) := ⟨by rintro x ⟨⟩, trivial⟩
  exact ⟨harmless, vEvaluate_unselected never _ 7 0 1 .KSH_RETURN_ERROR shellX shellX_sound
    (by decide) 0 (by decide +kernel) rfl harmless⟩

/-- In `0 && x ++` the right operand is not selected, and `x` is incremented. -/
theorem vEvaluate_unselected_name :
    shellX.Sound ∧ never.value 0 shellX = some 0 ∧ never.skips 0 = true ∧
      outcome 1 (vEvaluate 1 1 (never.fill (.post ⟨.O_PLUSPLUS, rfl⟩ nameX)).text none
          .KSH_RETURN_ERROR shellX) ≠
        outcome 1 (vEvaluate 1 1 (never.fill (.lit 7)).text none .KSH_RETURN_ERROR shellX) := by
  refine ⟨shellX_sound, by decide +kernel, rfl, fun same => ?_⟩
  have vars := congrArg (fun result => result.2.1) same
  revert vars
  decide +kernel

end Netbase.Ksh.Expr
