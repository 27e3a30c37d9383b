import Mathlib.Data.List.Forall2
import Netbase.Ksh.Climber

/-!
# Evaluations that differ in their temporaries

Where a variable or a temporary is placed is of no consequence.  Two shells are twins
when the cells of one are those of the other in other places, with cells between them
that have no partner; every evaluation of the same text takes twins to twins.
-/

namespace Netbase.Ksh.Expr

open Netbase.Text Netbase.Lib

/-! ## Cells in other places -/

/-- Which cells correspond: those in `old`, and the ones handed out later, from `left`
on in one shell and from `right` on in the other.  At least `low` of the later ones
exist; `gap` has what is in the cells of the first shell that have no partner. -/
structure Shift where
  old : Nat → Nat → Prop
  left : Nat
  right : Nat
  low : Nat
  gap : Nat → Var
  below : ∀ {p q}, old p q → p < left ∧ q < right
  unique : ∀ {p q p' q'}, old p q → old p' q' → (p = p' ↔ q = q')

/-- The cells that correspond, with `count` cells handed out since. -/
def Shift.At (g : Shift) (count p q : Nat) : Prop :=
  g.old p q ∨ ∃ i, i < count ∧ p = g.left + i ∧ q = g.right + i

theorem Shift.At.grows {g : Shift} {count count' : Nat} {p q : Addr} (le : count ≤ count')
    (at1 : g.At count p q) : g.At count' p q := by
  rcases at1 with old | ⟨i, small, left, right⟩
  · exact Or.inl old
  · exact Or.inr ⟨i, Nat.lt_of_lt_of_le small le, left, right⟩

theorem Shift.At.unique {g : Shift} {count p q p' q' : Nat} (at1 : g.At count p q)
    (at2 : g.At count p' q') : p = p' ↔ q = q' := by
  rcases at1 with old | ⟨i, small, rfl, rfl⟩
  · rcases at2 with old' | ⟨i', small', rfl, rfl⟩
    · exact g.unique old old'
    · have := g.below old
      constructor <;> intro same <;> omega
  · rcases at2 with old' | ⟨i', small', rfl, rfl⟩
    · have := g.below old'
      constructor <;> intro same <;> omega
    · constructor <;> intro same <;> omega

/-- Names and corresponding cells. -/
def Shift.Entry (g : Shift) (count : Nat) (x y : Name × Addr) : Prop :=
  x.1 = y.1 ∧ g.At count x.2 y.2

/-- Shells whose cells correspond. -/
structure TwinShell (g : Shift) (count : Nat) (sh th : Shell) : Prop where
  low : g.low ≤ count
  nextLeft : sh.next = g.left + count
  nextRight : th.next = g.right + count
  cells : ∀ {p q}, g.At count p q → sh.cell p = th.cell q
  gap : ∀ {p}, p < g.left → (∀ q, ¬ g.old p q) → sh.cell p = g.gap p
  blocks : List.Forall₂ (List.Forall₂ (g.Entry count)) sh.blocks th.blocks

section Shells

variable {g : Shift} {count : Nat} {sh th : Shell} {p q : Addr}

theorem TwinShell.write (twin : TwinShell g count sh th) (at1 : g.At count p q) (v : Var) :
    TwinShell g count (sh.write p v) (th.write q v) where
  low := twin.low
  nextLeft := twin.nextLeft
  nextRight := twin.nextRight
  cells {p' q'} at2 := by
    show (if p' = p then v else sh.cell p') = if q' = q then v else th.cell q'
    by_cases same : p' = p
    · rw [if_pos same, if_pos ((at2.unique at1).mp same)]
    · rw [if_neg same, if_neg fun same' => same ((at2.unique at1).mpr same')]
      exact twin.cells at2
  gap {p'} early alone := by
    have differ : p' ≠ p := by
      rintro rfl
      rcases at1 with old | ⟨i, _, left, _⟩
      · exact alone q old
      · exact Nat.not_le_of_lt early (left ▸ Nat.le_add_right _ _)
    show (if p' = p then v else sh.cell p') = _
    rw [if_neg differ]
    exact twin.gap early alone
  blocks := twin.blocks

theorem blocks_grow {blocks blocks' : List (List (Name × Addr))} {count' : Nat}
    (le : count ≤ count') (related : List.Forall₂ (List.Forall₂ (g.Entry count)) blocks blocks') :
    List.Forall₂ (List.Forall₂ (g.Entry count')) blocks blocks' :=
  related.imp fun _ _ vars => vars.imp fun _ _ entry => ⟨entry.1, entry.2.grows le⟩

theorem Shift.at_next (twin : TwinShell g count sh th) : g.At (count + 1) sh.next th.next :=
  Or.inr ⟨count, Nat.lt_succ_self count, twin.nextLeft, twin.nextRight⟩

theorem TwinShell.alloc (twin : TwinShell g count sh th) (v : Var) :
    TwinShell g (count + 1) (sh.alloc v) (th.alloc v) where
  low := Nat.le_succ_of_le twin.low
  nextLeft := by
    show sh.next + 1 = _
    rw [twin.nextLeft, Nat.add_assoc]
  nextRight := by
    show th.next + 1 = _
    rw [twin.nextRight, Nat.add_assoc]
  cells {p' q'} at2 := by
    show (if p' = sh.next then v else sh.cell p') = if q' = th.next then v else th.cell q'
    by_cases same : p' = sh.next
    · rw [if_pos same, if_pos ((at2.unique (Shift.at_next twin)).mp same)]
    · rw [if_neg same, if_neg fun same' => same ((at2.unique (Shift.at_next twin)).mpr same')]
      apply twin.cells
      rcases at2 with old | ⟨i, small, left, right⟩
      · exact Or.inl old
      · refine Or.inr ⟨i, ?_, left, right⟩
        rcases Nat.lt_succ_iff_lt_or_eq.mp small with less | equal
        · exact less
        · exact absurd (left.trans (by rw [equal, twin.nextLeft])) same
  gap {p'} early alone := by
    have differ : p' ≠ sh.next := by
      rw [twin.nextLeft]
      exact Nat.ne_of_lt (Nat.lt_of_lt_of_le early (Nat.le_add_right _ _))
    show (if p' = sh.next then v else sh.cell p') = _
    rw [if_neg differ]
    exact twin.gap early alone
  blocks := blocks_grow (Nat.le_succ count) twin.blocks

theorem TwinShell.setFlag (twin : TwinShell g count sh th) (at1 : g.At count p q) (mask : Flag) :
    TwinShell g count (sh.setFlag p mask) (th.setFlag q mask) := by
  unfold Shell.setFlag
  rw [twin.cells at1]
  exact twin.write at1 _

theorem TwinShell.clearFlag (twin : TwinShell g count sh th) (at1 : g.At count p q)
    (mask : Flag) : TwinShell g count (sh.clearFlag p mask) (th.clearFlag q mask) := by
  unfold Shell.clearFlag
  rw [twin.cells at1]
  exact twin.write at1 _

theorem TwinShell.setintV (twin : TwinShell g count sh th) {p' q' : Addr}
    (at1 : g.At count p q) (at2 : g.At count p' q') :
    (setintV sh p p' = none ∧ setintV th q q' = none) ∨
      ∃ sh' th', setintV sh p p' = some sh' ∧ setintV th q q' = some th' ∧
        TwinShell g count sh' th' := by
  unfold Expr.setintV
  rw [twin.cells at1, twin.cells at2]
  cases getint (th.cell q') with
  | none => exact Or.inl ⟨rfl, rfl⟩
  | some found => exact Or.inr ⟨_, _, rfl, rfl, twin.write at1 _⟩

theorem TwinShell.setintV_getD (twin : TwinShell g count sh th) {p' q' : Addr}
    (at1 : g.At count p q) (at2 : g.At count p' q') :
    TwinShell g count ((Expr.setintV sh p p').getD sh) ((Expr.setintV th q q').getD th) := by
  rcases twin.setintV at1 at2 with ⟨left, right⟩ | ⟨sh', th', left, right, after⟩
  · rw [left, right]
    exact twin
  · rw [left, right]
    exact after

theorem TwinShell.storeText (twin : TwinShell g count sh th) (at1 : g.At count p q)
    (text : List Byte) : TwinShell g count (storeText sh p text) (storeText th q text) := by
  unfold Expr.storeText
  rw [twin.cells at1]
  simp only
  split
  · exact twin.write at1 _
  · exact twin.write at1 _

theorem TwinShell.setint (twin : TwinShell g count sh th) (at1 : g.At count p q) (n : Long) :
    TwinShell g count (setint sh p n) (setint th q n) := by
  unfold Expr.setint
  rw [twin.cells at1]
  simp only
  split
  · exact twin.write at1 _
  · split
    · exact twin.setFlag at1 ISSET
    · exact twin.storeText at1 _

/-! ## Names -/

theorem lookup_entry {vars vars' : List (Name × Addr)}
    (related : List.Forall₂ (g.Entry count) vars vars') (n : Name) :
    (vars.lookup n = none ∧ vars'.lookup n = none) ∨
      ∃ p q, vars.lookup n = some p ∧ vars'.lookup n = some q ∧ g.At count p q := by
  induction related with
  | nil => exact Or.inl ⟨rfl, rfl⟩
  | @cons x y vars vars' entry rest ih =>
      obtain ⟨name, cell⟩ := x
      obtain ⟨name', cell'⟩ := y
      obtain ⟨rfl, at1⟩ := entry
      by_cases same : n == name
      · exact Or.inr ⟨cell, cell', by simp [List.lookup, same], by simp [List.lookup, same], at1⟩
      · simpa [List.lookup, same] using ih

theorem lookup_blocks {blocks blocks' : List (List (Name × Addr))}
    (related : List.Forall₂ (List.Forall₂ (g.Entry count)) blocks blocks') (n : Name) :
    (lookup blocks n = none ∧ lookup blocks' n = none) ∨
      ∃ p q, lookup blocks n = some p ∧ lookup blocks' n = some q ∧ g.At count p q := by
  induction related with
  | nil => exact Or.inl ⟨rfl, rfl⟩
  | cons vars rest ih =>
      simp only [lookup]
      rcases lookup_entry vars n with ⟨left, right⟩ | ⟨p, q, left, right, at1⟩
      · rw [left, right]
        exact ih
      · rw [left, right]
        exact Or.inr ⟨p, q, rfl, rfl, at1⟩

theorem enterGlobal_entry {blocks blocks' : List (List (Name × Addr))} (n : Name)
    (related : List.Forall₂ (List.Forall₂ (g.Entry count)) blocks blocks')
    (at1 : g.At count p q) :
    List.Forall₂ (List.Forall₂ (g.Entry count)) (enterGlobal n p blocks)
      (enterGlobal n q blocks') := by
  induction related with
  | nil => exact .cons (.cons ⟨rfl, at1⟩ .nil) .nil
  | @cons vars vars' rest rest' here more ih =>
      cases more with
      | nil => exact .cons (.cons ⟨rfl, at1⟩ here) .nil
      | cons next others => exact .cons here ih

/-- Looking a name up gives corresponding cells, also where it has to be created. -/
theorem TwinShell.global (twin : TwinShell g count sh th) (n : Name) :
    ∃ count', count ≤ count' ∧ g.At count' (global sh n).1 (global th n).1 ∧
      TwinShell g count' (global sh n).2 (global th n).2 := by
  unfold Expr.global
  rcases lookup_blocks twin.blocks n with ⟨left, right⟩ | ⟨p, q, left, right, at1⟩
  · rw [left, right]
    have fresh := twin.alloc (freshVar n)
    exact ⟨count + 1, Nat.le_succ count, Shift.at_next twin,
      { fresh with blocks := enterGlobal_entry n fresh.blocks (Shift.at_next twin) }⟩
  · rw [left, right]
    exact ⟨count, Nat.le_refl count, at1, twin⟩

end Shells

/-! ## States -/

/-- The same way to stop, up to the texts of the message. -/
inductive Stop.Alike : Stop → Stop → Prop where
  | evalerr (type : ErrorType) (expression expression' str str' : List Byte) :
      Stop.Alike (.evalerr type expression str) (.evalerr type expression' str')
  | same (stop : Stop) : Stop.Alike stop stop

/-- The variables whose strings are read. -/
def Shift.Owner (g : Shift) (count : Nat) (owner owner' : Option (Addr × Nat)) : Prop :=
  Option.Rel (fun x y => g.At count x.1 y.1 ∧ x.2 = y.2) owner owner'

theorem Shift.Owner.grows {g : Shift} {count count' : Nat} {owner owner' : Option (Addr × Nat)}
    (le : count ≤ count') (owners : g.Owner count owner owner') :
    g.Owner count' owner owner' := by
  cases owners with
  | none => exact .none
  | some both => exact .some ⟨both.1.grows le, both.2⟩

/-- Evaluations in twins.  What holds of the tokens is left open in `view`. -/
structure TwinState (g : Shift) (view : Nat → ExprState → ExprState → Prop) (count : Nat)
    (s t : State) : Prop where
  shell : TwinShell g count s.shell t.shell
  noassign : s.es.noassign = t.es.noassign
  idleLeft : s.es.evaling = none
  idleRight : t.es.evaling = none
  owner : g.Owner count s.es.owner t.es.owner
  es : view count s.es t.es

/-- What is known of the tokens lasts. -/
structure Steady (view : Nat → ExprState → ExprState → Prop) : Prop where
  grows : ∀ {count count' e e'}, count ≤ count' → view count e e' → view count' e e'

/-- It does not depend on whether assignments are held back. -/
structure View (view : Nat → ExprState → ExprState → Prop) : Prop extends Steady view where
  held : ∀ {count e e'} (n : Nat), view count e e' →
    view count { e with noassign := n } { e' with noassign := n }

structure TwinStop (g : Shift) (stop : Stop) (s : State) (stop' : Stop) (t : State) : Prop where
  alike : stop.Alike stop'
  twins : ∃ count, TwinShell g count s.shell t.shell ∧
    Option.Rel (g.At count) s.es.evaling t.es.evaling

/-- The same for a stop that has left its evaluation. -/
def ShellStop (g : Shift) (stop : Stop) (sh : Shell) (stop' : Stop) (th : Shell) : Prop :=
  stop.Alike stop' ∧ ∃ count, TwinShell g count sh th

section States

variable {g : Shift} {view : Nat → ExprState → ExprState → Prop} {count : Nat} {s t : State}

theorem TwinState.stop (twin : TwinState g view count s t) {stop stop' : Stop}
    (alike : stop.Alike stop') : TwinStop g stop s stop' t where
  alike := alike
  twins := ⟨count, twin.shell, by rw [twin.idleLeft, twin.idleRight]; exact .none⟩

theorem TwinState.update (twin : TwinState g view count s t) {sh th : Shell}
    (shells : TwinShell g count sh th) :
    TwinState g view count { s with shell := sh } { t with shell := th } :=
  { twin with shell := shells }

theorem onShell_twin {f f' : Shell → Shell}
    (twins : ∀ sh th, TwinShell g count sh th → TwinShell g count (f sh) (f' th)) :
    Relates count (TwinState g view count) (onShell f) (onShell f') (Kept (TwinState g view))
      (TwinStop g) :=
  fun _ _ twin => ⟨count, Nat.le_refl count, twin.update (twins _ _ twin.shell)⟩

theorem cellAt_twin {p q : Addr} (at1 : g.At count p q) :
    Relates count (TwinState g view count) (cellAt p) (cellAt q)
      (fun count' v v' s t => v = v' ∧ TwinState g view count' s t) (TwinStop g) :=
  fun _ _ twin => ⟨count, Nat.le_refl count, twin.shell.cells at1, twin⟩

theorem numberAt_twin {p q : Addr} (at1 : g.At count p q) :
    Relates count (TwinState g view count) (numberAt p) (numberAt q)
      (fun count' n m s t => n = m ∧ TwinState g view count' s t) (TwinStop g) := by
  refine relates_same (cellAt_twin at1) fun count' _ v => ?_
  exact Relates.pure fun _ _ twin => ⟨rfl, twin⟩

theorem evalerr_twin {α β : Type} {post : Nat → α → β → State → State → Prop}
    (type : ErrorType) (str : List Byte) :
    Relates count (TwinState g view count) (evalerr type str : ExprM α)
      (evalerr type str : ExprM β) post (TwinStop g) :=
  fun _ _ twin => twin.stop (.evalerr _ _ _ _ _)

theorem storeNumber_twin {p q p' q' : Addr} (at1 : g.At count p q) (at2 : g.At count p' q') :
    Relates count (TwinState g view count) (storeNumber p p') (storeNumber q q')
      (Kept (TwinState g view)) (TwinStop g) := by
  refine relates_same (cellAt_twin at1) fun count' le v => ?_
  by_cases integer : has v.flag INTEGER = true
  · rw [if_pos integer, if_pos integer]
    exact onShell_twin fun sh th twins => twins.setintV_getD (at1.grows le) (at2.grows le)
  · rw [if_neg integer, if_neg integer]
    refine relates_same (numberAt_twin (at2.grows le)) fun count'' le' n => ?_
    exact onShell_twin fun sh th twins => twins.setint ((at1.grows le).grows le') n

theorem assignCheck_twin (op : Token) {p q : Addr} (at1 : g.At count p q) :
    Relates count (TwinState g view count) (assignCheck op p) (assignCheck op q)
      (Kept (TwinState g view)) (TwinStop g) := by
  refine relates_same (cellAt_twin at1) fun count' _ v => ?_
  by_cases lvalue : v.name = [] ∧ (!has v.flag EXPRLVALUE) = true
  · rw [if_pos lvalue]
    exact evalerr_twin _ _
  rw [if_neg lvalue]
  by_cases readonly : has v.flag RDONLY = true
  · rw [if_pos readonly]
    exact evalerr_twin _ _
  · rw [if_neg readonly]
    exact Relates.pure fun _ _ twin => twin

theorem allocate_twin (g : Shift) (view : Nat → ExprState → ExprState → Prop)
    (steady : Steady view) (count : Nat) (v : Var) :
    Relates count (TwinState g view count) (allocate v) (allocate v)
      (Gives (TwinState g view) g.At) (TwinStop g) := by
  intro s t twin
  have le := Nat.le_succ count
  refine ⟨count + 1, le, ?_, Shift.at_next twin.shell⟩
  exact
    { twin with
      shell := twin.shell.alloc v
      owner := twin.owner.grows le
      es := steady.grows le twin.es }

theorem setNumber_twin {p q : Addr} (n : Long) (at1 : g.At count p q) :
    Relates count (TwinState g view count) (setNumber p n) (setNumber q n)
      (Kept (TwinState g view)) (TwinStop g) := by
  refine onShell_twin fun sh th twins => ?_
  rw [twins.cells at1]
  exact twins.write at1 _

/-- What evaluates the strings of variables takes twins to twins. -/
def NestedTwin (g : Shift) (nested nested' : Nested) : Prop :=
  ∀ {view : Nat → ExprState → ExprState → Prop}, Steady view → ∀ {count p q p' q'},
    g.At count p q → g.At count p' q' →
      Relates count (TwinState g view count) (nested p p') (nested' q q')
        (Kept (TwinState g view)) (TwinStop g)

theorem intvar_twin {nested nested' : Nested} (steady : Steady view)
    (nests : NestedTwin g nested nested') {p q : Addr} (at1 : g.At count p q) :
    Relates count (TwinState g view count) (intvar nested p) (intvar nested' q)
      (Gives (TwinState g view) g.At) (TwinStop g) := by
  refine relates_same (cellAt_twin at1) fun count1 le1 v => ?_
  by_cases keep : v.name = [] ∧
      v.flag &&& (ISSET ||| INTEGER ||| EXPRLVALUE) = (ISSET ||| INTEGER)
  · rw [if_pos keep, if_pos keep]
    exact relates_gives (at1.grows le1)
  rw [if_neg keep, if_neg keep]
  refine relates_operand (allocate_twin g view steady count1 _) fun count2 le2 vq vq' at2 => ?_
  have at3 := (at1.grows le1).grows le2
  refine Relates.read fun s t twin => ?_
  rintro s t ⟨rfl, rfl⟩
  rcases twin.shell.setintV at2 at3 with ⟨left, right⟩ | ⟨sh, th, left, right, shells⟩
  · rw [left, right]
    have fallback : Relates count2 (TwinState g view count2)
        (do nested p vq; return vq) (do nested' q vq'; return vq')
        (Gives (TwinState g view) g.At) (TwinStop g) := by
      refine Relates.bind (nests steady at3 at2) fun count3 le3 _ _ => ?_
      exact relates_gives (at2.grows le3)
    exact fallback s t twin
  · rw [left, right]
    exact ⟨count2, Nat.le_refl _, twin.update shells, at2⟩

theorem twin_operations {nested nested' : Nested} (known : View view)
    (nests : NestedTwin g nested nested') :
    Operations (TwinState g view) g.At (TwinStop g) nested nested' where
  grows le at1 := at1.grows le
  noassign twin := twin.noassign
  number twin at1 := by rw [twin.shell.cells at1]
  intvar at1 := intvar_twin known.toSteady nests at1
  setNumber n at1 := setNumber_twin n at1
  assignCheck op at1 := assignCheck_twin op at1
  storeNumber at1 at2 := storeNumber_twin at1 at2
  hold {count} h := by
    intro s t twin
    refine ⟨count, Nat.le_refl count, ?_⟩
    exact
      { twin with
        noassign := by simp only [twin.noassign]
        es := by
          have after := known.held (if h then s.es.noassign + 1 else s.es.noassign) twin.es
          simpa only [← twin.noassign] using after }
  allow {count} h := by
    intro s t twin
    refine ⟨count, Nat.le_refl count, ?_⟩
    exact
      { twin with
        noassign := by simp only [twin.noassign]
        es := by
          have after := known.held (if h then s.es.noassign - 1 else s.es.noassign) twin.es
          simpa only [← twin.noassign] using after }
  evalerr type str twin := twin.stop (.evalerr _ _ _ _ _)
  unexpected twin := twin.stop (.evalerr _ _ _ _ _)
  trap twin := twin.stop (.same _)
  endless twin := twin.stop (.same _)

end States

/-! ## Reading the same text -/

/-- The token that both stand at. -/
structure SameToken (g : Shift) (count : Nat) (e e' : ExprState) : Prop where
  tok : e.tok = e'.tok
  val : e.tok = .VAR ∨ e.tok = .LIT → g.At count e.val e'.val

/-- Both stand at the same token of the same text. -/
structure SameText (g : Shift) (count : Nat) (e e' : ExprState) : Prop extends
    SameToken g count e e' where
  tokp : e.tokp = e'.tokp

theorem sameText_view (g : Shift) : View (SameText g) where
  grows le same := { same with val := fun leaf => (same.val leaf).grows le }
  held _ same := { tok := same.tok, val := same.val, tokp := same.tokp }

section Tokens

variable {g : Shift} {count : Nat}

/-- A change of the token and the text behind it. -/
def Retokens (f : ExprState → ExprState) : Prop :=
  ∀ e, (f e).noassign = e.noassign ∧ (f e).evaling = e.evaling ∧ (f e).owner = e.owner

theorem onState_twin {f f' : ExprState → ExprState} (keeps : Retokens f) (keeps' : Retokens f')
    {view view' : Nat → ExprState → ExprState → Prop}
    (views : ∀ e e', view count e e' → view' count (f e) (f' e')) :
    Relates count (TwinState g view count) (onState f) (onState f')
      (Kept (TwinState g view')) (TwinStop g) := by
  intro s t twin
  refine ⟨count, Nat.le_refl count, ?_⟩
  obtain ⟨noassign, evaling, owner⟩ := keeps s.es
  obtain ⟨noassign', evaling', owner'⟩ := keeps' t.es
  exact
    { shell := twin.shell
      noassign := noassign.trans (twin.noassign.trans noassign'.symm)
      idleLeft := evaling.trans twin.idleLeft
      idleRight := evaling'.trans twin.idleRight
      owner := by
        show g.Owner count (f s.es).owner (f' t.es).owner
        rw [owner, owner']
        exact twin.owner
      es := views _ _ twin.es }

theorem sameToken_other {tok : Token} (other : ¬ (tok = .VAR ∨ tok = .LIT)) {e e' : ExprState}
    (left : e.tok = tok) (right : e'.tok = tok) : SameToken g count e e' where
  tok := left.trans right.symm
  val leaf := absurd (left ▸ leaf) other

theorem litToken_twin (text : List Byte) :
    Relates count (TwinState g (SameText g) count) (litToken text) (litToken text)
      (Kept (TwinState g (SameText g))) (TwinStop g) := by
  unfold litToken
  refine relates_operand (allocate_twin g _ (sameText_view g).toSteady count _) fun count1 le1 p q at1 => ?_
  have placed : Relates count1 (TwinState g (SameText g) count1)
      (onState fun es => { es with val := p }) (onState fun es => { es with val := q })
      (Kept (TwinState g fun count e e' => g.At count e.val e'.val)) (TwinStop g) :=
    onState_twin (by intro e; exact ⟨rfl, rfl, rfl⟩) (by intro e; exact ⟨rfl, rfl, rfl⟩)
      (by intro e e' _; exact at1)
  refine Relates.bind placed fun count2 le2 _ _ => ?_
  have at2 := at1.grows le2
  refine Relates.read fun s t twin => ?_
  rintro s t ⟨rfl, rfl⟩
  rcases twin.shell.setintV at2 at2 with ⟨left, right⟩ | ⟨sh, th, left, right, shells⟩
  · rw [left, right]
    exact twin.stop (.evalerr _ _ _ _ _)
  · rw [left, right]
    refine ⟨count2, Nat.le_refl _, ?_⟩
    exact
      { shell := shells, noassign := twin.noassign, idleLeft := twin.idleLeft
        idleRight := twin.idleRight, owner := twin.owner
        es := { tok := rfl, val := fun _ => twin.es, tokp := rfl } }

theorem varToken_twin (text : List Byte) :
    Relates count (TwinState g (SameText g) count) (varToken text) (varToken text)
      (Kept (TwinState g (SameText g))) (TwinStop g) := by
  unfold varToken
  simp only
  generalize (if (text.dropWhile letnum).head? = some (byte '[') then
    arrayRefLen (text.dropWhile letnum) else 0) = len
  by_cases bracket : (text.dropWhile letnum).head? = some (byte '[') ∧ len = 0
  · rw [if_pos bracket]
    exact evalerr_twin _ _
  rw [if_neg bracket]
  refine Relates.read fun s t twin => ?_
  rintro s t ⟨rfl, rfl⟩
  rw [← twin.noassign]
  by_cases held : s.es.noassign ≠ 0
  · rw [if_pos held]
    have standIn : Relates count (TwinState g (SameText g) count)
        (do
          let p ← allocate (temporary (ISSET ||| INTEGER ||| EXPRLVALUE) (.i 0))
          onState fun es =>
            { es with tok := .VAR, val := p, tokp := (text.dropWhile letnum).drop len })
        (do
          let p ← allocate (temporary (ISSET ||| INTEGER ||| EXPRLVALUE) (.i 0))
          onState fun es =>
            { es with tok := .VAR, val := p, tokp := (text.dropWhile letnum).drop len })
        (Kept (TwinState g (SameText g))) (TwinStop g) := by
      refine relates_operand (allocate_twin g _ (sameText_view g).toSteady count _)
        fun count1 le1 p q at1 => ?_
      refine onState_twin (by intro e; exact ⟨rfl, rfl, rfl⟩) (by intro e; exact ⟨rfl, rfl, rfl⟩) ?_
      intro e e' _
      exact { tok := rfl, val := fun _ => at1, tokp := rfl }
    exact standIn s t twin
  rw [if_neg held]
  by_cases element : len ≠ 0
  · rw [if_pos element]
    exact twin.stop (.same _)
  rw [if_neg element]
  obtain ⟨count1, le1, at1, shells⟩ := twin.shell.global (text.takeWhile letnum)
  refine ⟨count1, le1, ?_⟩
  exact
    { shell := shells, noassign := twin.noassign, idleLeft := twin.idleLeft
      idleRight := twin.idleRight, owner := twin.owner.grows le1
      es := { tok := rfl, val := fun _ => at1, tokp := rfl } }

theorem findOp_other {text : List Byte} {entry : Token × List Byte × Nat}
    (found : findOp text = some entry) : ¬ (entry.1 = .VAR ∨ entry.1 = .LIT) := by
  have all : ∀ entry ∈ opinfo, ¬ (entry.1 = .VAR ∨ entry.1 = .LIT) := by decide
  exact all entry (List.mem_of_find?_eq_some found)

theorem opToken_twin (text : List Byte) :
    Relates count (TwinState g (SameText g) count) (opToken text) (opToken text)
      (Kept (TwinState g (SameText g))) (TwinStop g) := by
  unfold opToken
  cases found : findOp text with
  | none =>
      refine onState_twin (by intro e; exact ⟨rfl, rfl, rfl⟩) (by intro e; exact ⟨rfl, rfl, rfl⟩) ?_
      intro e e' _
      exact ⟨sameToken_other (show ¬ (Token.BAD = .VAR ∨ Token.BAD = .LIT) by decide) rfl rfl, rfl⟩
  | some entry =>
      refine onState_twin (by intro e; exact ⟨rfl, rfl, rfl⟩) (by intro e; exact ⟨rfl, rfl, rfl⟩) ?_
      intro e e' _
      exact ⟨sameToken_other (findOp_other found) rfl rfl, rfl⟩

theorem readable_twin {view : Nat → ExprState → ExprState → Prop} {s t : State}
    (twin : TwinState g view count s t) : readable s = readable t := by
  unfold readable
  have owners := twin.owner
  revert owners
  cases s.es.owner with
  | none =>
      cases t.es.owner with
      | none => exact fun _ => rfl
      | some owner => rintro ⟨⟩
  | some owner =>
      cases t.es.owner with
      | none => rintro ⟨⟩
      | some owner' =>
          rintro (⟨at1, stored⟩ | _)
          simp only [twin.shell.cells at1, stored]

theorem token_twin (count : Nat) :
    Relates count (TwinState g (SameText g) count) token token (Kept (TwinState g (SameText g)))
      (TwinStop g) := by
  refine Relates.read fun s t twin => ?_
  rintro s t ⟨rfl, rfl⟩
  rw [← readable_twin twin, ← twin.es.tokp]
  by_cases stale : (!readable s) = true
  · rw [if_pos stale]
    exact twin.stop (.same _)
  rw [if_neg stale]
  cases s.es.tokp.dropWhile isspace with
  | nil =>
      have ended : Relates count (TwinState g (SameText g) count)
          (onState fun es => { es with tok := .END, tokp := [] })
          (onState fun es => { es with tok := .END, tokp := [] })
          (Kept (TwinState g (SameText g))) (TwinStop g) := by
        refine onState_twin (by intro e; exact ⟨rfl, rfl, rfl⟩) (by intro e; exact ⟨rfl, rfl, rfl⟩)
          ?_
        intro e e' _
        exact ⟨sameToken_other (show ¬ (Token.END = .VAR ∨ Token.END = .LIT) by decide) rfl rfl, rfl⟩
      exact ended s t twin
  | cons c rest =>
      simp only
      by_cases isLetter : letter c = true
      · rw [if_pos isLetter]
        exact varToken_twin _ s t twin
      rw [if_neg isLetter]
      by_cases isDigit : digit c = true
      · rw [if_pos isDigit]
        exact litToken_twin _ s t twin
      · rw [if_neg isDigit]
        exact opToken_twin _ s t twin

theorem twin_simulation {nested nested' : Nested} (nests : NestedTwin g nested nested') :
    Simulation (TwinState g (SameText g)) g.At (TwinStop g) nested nested' where
  toOperations := twin_operations (sameText_view g) nests
  tok twin := twin.es.tok
  val twin leaf := twin.es.val leaf
  token := token_twin

end Tokens

/-! ## Evaluations inside evaluations -/

/-- The shift with the cells that exist now. -/
def Shift.since (g : Shift) (count : Nat) : Shift := { g with low := count }

section Whole

variable {g : Shift} {count : Nat} {sh th : Shell}

theorem TwinShell.since (twin : TwinShell g count sh th) :
    TwinShell (g.since count) count sh th :=
  { low := Nat.le_refl count, nextLeft := twin.nextLeft, nextRight := twin.nextRight
    cells := twin.cells, gap := twin.gap, blocks := twin.blocks }

theorem TwinShell.forget {now : Nat} (twin : TwinShell (g.since now) count sh th)
    (low : g.low ≤ now) : TwinShell g count sh th :=
  { low := Nat.le_trans low twin.low, nextLeft := twin.nextLeft, nextRight := twin.nextRight
    cells := twin.cells, gap := twin.gap, blocks := twin.blocks }

/-- Evaluations of the same string into corresponding cells. -/
def ShellTwins
    (eval eval' : Addr → List Byte → Option (Addr × Nat) → ErrorMode → ShellM Bool) : Prop :=
  ∀ (g : Shift) {count : Nat} {p q : Addr} {owner owner' : Option (Addr × Nat)}
    (text : List Byte) (mode : ErrorMode), g.At count p q → g.Owner count owner owner' →
      Relates count (TwinShell g count) (eval p text owner mode) (eval' q text owner' mode)
        (fun count' ok ok' sh th => ok = ok' ∧ TwinShell g count' sh th) (ShellStop g)

theorem inShell_ok {α : Type} {x : ShellM α} (s : State) {a : α} {sh : Shell}
    (run : x s.shell = .ok a sh) : inShell x s = .ok a { s with shell := sh } := by
  unfold inShell
  rw [run]

theorem inShell_error {α : Type} {x : ShellM α} (s : State) {stop : Stop} {sh : Shell}
    (run : x s.shell = .error stop sh) : inShell x s = .error stop { s with shell := sh } := by
  unfold inShell
  rw [run]

/-- The state in which the string of `p` is evaluated. -/
def marked (s : State) (p : Addr) : State :=
  ⟨s.shell.setFlag p EXPRINEVAL, { s.es with evaling := some p }⟩

/-- Evaluate the string of a marked variable and take the mark off. -/
def markedRun (eval : Addr → List Byte → Option (Addr × Nat) → ErrorMode → ShellM Bool)
    (p p' : Addr) (text : List Byte) (stored : Nat) : ExprM Unit := do
  let _ ← inShell (eval p' text (some (p, stored)) .KSH_UNWIND_ERROR)
  onShell fun sh => sh.clearFlag p EXPRINEVAL
  onState fun es => { es with evaling := none }

theorem nestedWith_run
    (eval : Addr → List Byte → Option (Addr × Nat) → ErrorMode → ShellM Bool) (p p' : Addr)
    (s : State) :
    nestedWith eval p p' s =
      if has (s.shell.cell p).flag EXPRINEVAL then
        (evalerr .ET_RECURSIVE (s.shell.cell p).name : ExprM Unit) s
      else
        match strVal (s.shell.cell p) with
        | none => .error .overrun (marked s p)
        | some text => markedRun eval p p' text (s.shell.cell p).stored (marked s p) := by
  unfold nestedWith
  rw [bind_ok (show cellAt p s = .ok (s.shell.cell p) s from rfl)]
  split
  · rfl
  · cases strVal (s.shell.cell p) <;> rfl

theorem markedRun_twin {view : Nat → ExprState → ExprState → Prop} (steady : Steady view)
    {eval eval' : Addr → List Byte → Option (Addr × Nat) → ErrorMode → ShellM Bool}
    (twins : ShellTwins eval eval') {p q p' q' : Addr} (at1 : g.At count p q)
    (at2 : g.At count p' q') (text : List Byte) (stored : Nat) {s t : State}
    (twin : TwinState g view count s t) :
    Meets count (Kept (TwinState g view)) (TwinStop g)
      (markedRun eval p p' text stored (marked s p))
      (markedRun eval' q q' text stored (marked t q)) := by
  have marks := (twin.shell.setFlag at1 EXPRINEVAL).since
  have owners : (g.since count).Owner count (some (p, stored)) (some (q, stored)) :=
    .some ⟨at1, rfl⟩
  unfold markedRun
  rcases (twins (g.since count) text .KSH_UNWIND_ERROR at2 owners).ends marks with
    ⟨ok, ok', sh, th, count', left, right, le, rfl, shells⟩ |
    ⟨e, e', sh, th, left, right, alike, count', shells⟩
  · have shells := shells.forget twin.shell.low
    rw [bind_ok (inShell_ok (marked s p) left), bind_ok (inShell_ok (marked t q) right)]
    refine ⟨count', le, ?_⟩
    exact
      { shell := shells.clearFlag (at1.grows le) EXPRINEVAL
        noassign := twin.noassign, idleLeft := rfl, idleRight := rfl
        owner := twin.owner.grows le
        es := by
          have left : { s.es with evaling := none } = s.es := by rw [← twin.idleLeft]
          have right : { t.es with evaling := none } = t.es := by rw [← twin.idleRight]
          show view count' { s.es with evaling := none } { t.es with evaling := none }
          rw [left, right]
          exact steady.grows le twin.es }
  · rw [bind_error (inShell_error (marked s p) left),
      bind_error (inShell_error (marked t q) right)]
    exact ⟨alike, count', shells.forget twin.shell.low, .some (at1.grows shells.low)⟩

theorem nestedWith_twin
    {eval eval' : Addr → List Byte → Option (Addr × Nat) → ErrorMode → ShellM Bool}
    (twins : ShellTwins eval eval') (g : Shift) :
    NestedTwin g (nestedWith eval) (nestedWith eval') := by
  intro view steady count p q p' q' at1 at2 s t twin
  rw [nestedWith_run, nestedWith_run, twin.shell.cells at1]
  by_cases recursive : has (t.shell.cell q).flag EXPRINEVAL = true
  · rw [if_pos recursive, if_pos recursive]
    exact twin.stop (.evalerr _ _ _ _ _)
  rw [if_neg recursive, if_neg recursive]
  cases strVal (t.shell.cell q) with
  | none =>
      exact ⟨.same _, count, twin.shell.setFlag at1 EXPRINEVAL, .some at1⟩
  | some text => exact markedRun_twin steady twins at1 at2 text _ twin

/-- What a handler finds, with the mark of an unfinished variable taken off. -/
theorem TwinStop.cleared {s t : State} (shells : TwinShell g count s.shell t.shell)
    (evaling : Option.Rel (g.At count) s.es.evaling t.es.evaling) :
    TwinShell g count
      (match s.es.evaling with
        | none => s.shell
        | some p => s.shell.clearFlag p EXPRINEVAL)
      (match t.es.evaling with
        | none => t.shell
        | some p => t.shell.clearFlag p EXPRINEVAL) := by
  cases left : s.es.evaling with
  | none =>
      cases right : t.es.evaling with
      | none => exact shells
      | some q =>
          rw [left, right] at evaling
          cases evaling
  | some p =>
      cases right : t.es.evaling with
      | none =>
          rw [left, right] at evaling
          cases evaling
      | some q =>
          rw [left, right] at evaling
          cases evaling with
          | some at1 => exact shells.clearFlag at1 EXPRINEVAL

theorem handled_twin {x y : ExprM Unit} {es es' : ExprState} (mode : ErrorMode)
    {view : Nat → ExprState → ExprState → Prop} {sh th : Shell}
    (runs : Relates count (TwinState (g.since count) view count) x y
      (Kept (TwinState (g.since count) view)) (TwinStop (g.since count)))
    (starts : TwinState (g.since count) view count ⟨sh, es⟩ ⟨th, es'⟩) (low : g.low ≤ count) :
    Meets count (fun count' ok ok' sh th => ok = ok' ∧ TwinShell g count' sh th) (ShellStop g)
      (handled x es mode sh) (handled y es' mode th) := by
  unfold handled
  rcases runs.ends starts with ⟨_, _, s', t', count', left, right, le, twin⟩ |
    ⟨stop, stop', s', t', left, right, alike, count', shells, evaling⟩
  · rw [left, right]
    exact ⟨count', le, rfl, twin.shell.forget low⟩
  · rw [left, right]
    have cleared := (TwinStop.cleared shells evaling).forget low
    have kept := shells.forget low
    have le : count ≤ count' := shells.low
    cases alike with
    | evalerr type expression expression' str str' =>
        cases mode with
        | KSH_RETURN_ERROR => exact ⟨count', le, rfl, cleared⟩
        | KSH_UNWIND_ERROR => exact ⟨.same _, count', cleared⟩
    | same stop =>
        cases stop with
        | evalerr type expression str =>
            cases mode with
            | KSH_RETURN_ERROR => exact ⟨count', le, rfl, cleared⟩
            | KSH_UNWIND_ERROR => exact ⟨.same _, count', cleared⟩
        | unwound => exact ⟨.same _, count', cleared⟩
        | trap => exact ⟨.same _, count', kept⟩
        | dangling => exact ⟨.same _, count', kept⟩
        | overrun => exact ⟨.same _, count', kept⟩
        | subscript => exact ⟨.same _, count', kept⟩
        | endless => exact ⟨.same _, count', kept⟩

theorem storeResult_twin {view : Nat → ExprState → ExprState → Prop} {p q a b : Addr}
    (mode : ErrorMode) (target : g.At count p q) (result : g.At count a b) :
    Relates count (TwinState g view count) (storeResult p a mode) (storeResult q b mode)
      (Kept (TwinState g view)) (TwinStop g) := by
  refine relates_same (cellAt_twin target) fun count1 le1 v => ?_
  have target1 := target.grows le1
  have result1 := result.grows le1
  by_cases integer : has v.flag INTEGER = true
  · rw [if_pos integer, if_pos integer]
    exact onShell_twin fun sh th twins => twins.setintV_getD target1 result1
  rw [if_neg integer, if_neg integer]
  refine relates_same (cellAt_twin result1) fun count2 le2 v' => ?_
  have target2 := target1.grows le2
  cases strVal v' with
  | none => exact Relates.throw fun _ _ twin => twin.stop (.same _)
  | some text =>
      refine relates_same (cellAt_twin target2) fun count3 le3 v'' => ?_
      by_cases readonly : has v''.flag RDONLY = true
      · rw [if_pos readonly, if_pos readonly]
        by_cases unwinds : mode = .KSH_UNWIND_ERROR
        · rw [if_pos unwinds]
          exact Relates.throw fun _ _ twin => twin.stop (.same _)
        · rw [if_neg unwinds]
          exact Relates.pure fun _ _ twin => twin
      · rw [if_neg readonly, if_neg readonly]
        exact onShell_twin fun sh th twins => twins.storeText (target2.grows le3) text

theorem vEvaluate_twin (depth : Nat) : ShellTwins (vEvaluate depth) (vEvaluate depth) := by
  induction depth with
  | zero =>
      intro g count p q owner owner' text mode at1 owners sh th twin
      exact ⟨.same _, count, twin⟩
  | succ depth ih =>
      intro g count p q owner owner' text mode at1 owners sh th twin
      have sim := twin_simulation (nestedWith_twin ih (g.since count))
      have runs := evaluation_relates sim
        (fun count' => allocate_twin _ _ (sameText_view _).toSteady count' _)
        (fun at2 => onState_twin (by intro e; exact ⟨rfl, rfl, rfl⟩)
          (by intro e; exact ⟨rfl, rfl, rfl⟩) (by
            intro e e' same
            exact { tok := rfl, val := fun _ => at2, tokp := same.tokp }))
        (fun target result => storeResult_twin mode target result) at1 text
      refine handled_twin mode runs ?_ twin.low
      exact
        { shell := twin.since, noassign := rfl, idleLeft := rfl, idleRight := rfl
          owner := owners
          es := ⟨sameToken_other (show ¬ (Token.END = .VAR ∨ Token.END = .LIT) by decide) rfl rfl, rfl⟩ }

end Whole

end Netbase.Ksh.Expr
