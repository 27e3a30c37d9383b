import Netbase.Ksh.Twin
import Netbase.Ksh.TreeValue

/-!
# Evaluations that part after a tree

Two texts that begin with the words of the same tree: the climber does the same on
both until the tree has been read, whatever variables it assigns to on the way.  What
stands behind the tree matters only through its first word.
-/

namespace Netbase.Ksh.Expr

open Netbase.Text Netbase.Lib

def Word.token : Word → Token
  | .op tok => tok
  | .num _ => .LIT
  | .name _ => .VAR

/-- The evaluation stands at the first of some words of a text of its own. -/
structure AtWord (e : ExprState) (words : List Word) : Prop where
  owner : e.owner = none
  tok : e.tok = (words.head?.map Word.token).getD .END
  tokp : e.tokp = spell words.tail

/-- Two evaluations stand at the first of their words.  Where that is the same name or
number, the cells correspond. -/
structure Along (g : Shift) (words words' : List Word) (count : Nat) (e e' : ExprState) :
    Prop where
  left : AtWord e words
  right : AtWord e' words'
  val : ∀ w, words.head? = some w → words'.head? = some w →
    w.token = .VAR ∨ w.token = .LIT → g.At count e.val e'.val

theorem along_view (g : Shift) (words words' : List Word) : View (Along g words words') where
  grows le along :=
    { along with val := fun w first first' leaf => (along.val w first first' leaf).grows le }
  held _ along :=
    { left := ⟨along.left.owner, along.left.tok, along.left.tokp⟩
      right := ⟨along.right.owner, along.right.tok, along.right.tokp⟩
      val := along.val }

/-- A word the tokenizer reads back. -/
def Word.Spelled : Word → Prop
  | .op tok => tok.Ordinary
  | _ => True

section Lockstep

variable {g : Shift} {count : Nat}

/-- The relation between evaluations along words. -/
abbrev TwinAlong (g : Shift) (words words' : List Word) : Nat → State → State → Prop :=
  TwinState g (Along g words words')

theorem TwinState.moved {view : Nat → ExprState → ExprState → Prop} {s t : State}
    (twin : TwinState g view count s t) (words words' : List Word) {tok tok' : Token}
    {count' : Nat} (le : count ≤ count') {sh th : Shell} (shells : TwinShell g count' sh th)
    (here : tok = (words.head?.map Word.token).getD .END)
    (here' : tok' = (words'.head?.map Word.token).getD .END) (ownerLeft : s.es.owner = none)
    (ownerRight : t.es.owner = none) {p q : Addr}
    (cells : ∀ w, words.head? = some w → words'.head? = some w →
      w.token = .VAR ∨ w.token = .LIT → g.At count' p q) :
    TwinAlong g words words' count'
      ⟨sh, { s.es with tok := tok, val := p, tokp := spell words.tail }⟩
      ⟨th, { t.es with tok := tok', val := q, tokp := spell words'.tail }⟩ where
  shell := shells
  noassign := twin.noassign
  idleLeft := twin.idleLeft
  idleRight := twin.idleRight
  owner := twin.owner.grows le
  es := { left := ⟨ownerLeft, here, rfl⟩, right := ⟨ownerRight, here', rfl⟩, val := cells }

theorem not_leaf {tok : Token} (ordinary : tok.Ordinary) : ¬ (tok = .VAR ∨ tok = .LIT) := by
  rintro (rfl | rfl)
  · exact ordinary rfl
  · exact ordinary rfl

/-- Two evaluations about to read words of their own. -/
structure Before (words words' : List Word) (_ : Nat) (e e' : ExprState) : Prop where
  ownerLeft : e.owner = none
  ownerRight : e'.owner = none
  left : SameWords e.tokp (spell words)
  right : SameWords e'.tokp (spell words')

variable {w : Word} {p : Nat} {rest rest' : List Word}

variable {w' : Word} {s : State} {q fuel fuel' : Nat} {a b : Addr}

theorem Along.before {words words' : List Word} {e e' : ExprState}
    (along : Along g (w :: words) (w' :: words') count e e') : Before words words' count e e' where
  ownerLeft := along.left.owner
  ownerRight := along.right.owner
  left := congrArg _ along.left.tokp
  right := congrArg _ along.right.tokp

theorem before_of_along {words words' : List Word} {s t : State}
    (twin : TwinAlong g (w :: words) (w' :: words') count s t) :
    TwinState g (Before words words') count s t :=
  { twin with es := twin.es.before }

theorem token_same {words words' : List Word} (readBack : w.Spelled) :
    Relates count (TwinState g (Before (w :: words) (w :: words')) count) token token
      (Kept (TwinAlong g (w :: words) (w :: words'))) (TwinStop g) := by
  intro s t twin
  obtain ⟨ownerLeft, ownerRight, textLeft, textRight⟩ := twin.es
  cases w with
  | op tok =>
      rw [token_op readBack ownerLeft textLeft, token_op readBack ownerRight textRight]
      refine ⟨count, Nat.le_refl _, twin.moved (.op tok :: words) (.op tok :: words')
        (Nat.le_refl _) twin.shell rfl rfl ownerLeft ownerRight ?_⟩
      rintro _ ⟨⟩ _ leaf
      exact absurd leaf (not_leaf readBack)
  | num n =>
      rw [token_num ownerLeft textLeft, token_num ownerRight textRight]
      have fresh := Shift.at_next twin.shell
      have shells := (twin.shell.alloc (temporary ISSET (.s (decimal n)))).write fresh
        (litCell n)
      exact ⟨count + 1, Nat.le_succ _, twin.moved (.num n :: words) (.num n :: words')
        (Nat.le_succ _) shells rfl rfl ownerLeft ownerRight fun _ _ _ _ => fresh⟩
  | name x =>
      rw [token_letters ownerLeft textLeft, token_letters ownerRight textRight,
        ← twin.noassign]
      by_cases held : s.es.noassign ≠ 0
      · rw [if_pos held, if_pos held]
        exact ⟨count + 1, Nat.le_succ _, twin.moved (.name x :: words) (.name x :: words')
          (Nat.le_succ _) (twin.shell.alloc _) rfl rfl ownerLeft ownerRight
          fun _ _ _ _ => Shift.at_next twin.shell⟩
      · rw [if_neg held, if_neg held]
        obtain ⟨count', le, cells, shells⟩ := twin.shell.global x.val
        exact ⟨count', le, twin.moved (.name x :: words) (.name x :: words') le shells rfl rfl
          ownerLeft ownerRight fun _ _ _ _ => cells⟩

theorem token_silent (stops : Stops p rest) (owner : s.es.owner = none)
    (text : SameWords s.es.tokp (spell rest)) :
    token s = .ok ()
      { s with
        es := { s.es with
          tok := (rest.head?.map Word.token).getD .END, tokp := spell rest.tail } } := by
  cases rest with
  | nil =>
      unfold token
      rw [bind_ok (get_run s), show _ = _ from text]
      simp only [readable_of_owner owner]
      rfl
  | cons w rest =>
      obtain ⟨tok, rfl, ordinary, _⟩ := stops w rfl
      exact token_op ordinary owner text

/-- Reading what stands behind an operand in both texts. -/
theorem token_behind {words words' : List Word} (left : Stops p words) (right : Stops p words') :
    Relates count (TwinState g (Before words words') count) token token
      (Kept (TwinAlong g words words')) (TwinStop g) := by
  intro s t twin
  obtain ⟨ownerLeft, ownerRight, textLeft, textRight⟩ := twin.es
  rw [token_silent left ownerLeft textLeft, token_silent right ownerRight textRight]
  refine ⟨count, Nat.le_refl _, twin.moved words words' (Nat.le_refl _) twin.shell rfl rfl
    ownerLeft ownerRight ?_⟩
  intro w first _ leaf
  obtain ⟨tok, rfl, ordinary, _⟩ := left w first
  exact absurd leaf (not_leaf ordinary)

theorem tokenNow_along {α β : Type} {words words' : List Word} {f : Token → ExprM α}
    {f' : Token → ExprM β} {post : Nat → α → β → State → State → Prop} (tok : Token)
    (here : (words.head?.map Word.token).getD .END = tok)
    (here' : (words'.head?.map Word.token).getD .END = tok)
    (rest : Relates count (TwinAlong g words words' count) (f tok) (f' tok) post (TwinStop g)) :
    Relates count (TwinAlong g words words' count) (tokenNow >>= f) (tokenNow >>= f') post
      (TwinStop g) := by
  intro s t twin
  have left : s.es.tok = tok := twin.es.left.tok.trans here
  have right : t.es.tok = tok := twin.es.right.tok.trans here'
  rw [bind_ok (tokenNow_run s), bind_ok (tokenNow_run t), left, right]
  exact rest s t twin

/-- What may stand behind an operand of precedence `p` in two texts. -/
structure Behind (p : Nat) (rest rest' : List Word) : Prop where
  left : Stops p rest
  right : Stops p rest'

theorem Behind.weaken (behind : Behind q rest rest') (le : p ≤ q) : Behind p rest rest' :=
  ⟨behind.left.weaken le, behind.right.weaken le⟩

theorem Behind.token (behind : Behind p rest rest') :
    Relates count (TwinAlong g (w :: rest) (w' :: rest') count) token token
      (Kept (TwinAlong g rest rest')) (TwinStop g) :=
  (token_behind behind.left behind.right).weaken (fun _ _ twin => before_of_along twin)
    fun _ _ _ _ _ _ after => after

theorem AtWord.behind {e : ExprState} (atWord : AtWord e rest) (stops : Stops p rest) :
    e.tok.isPpmm = false ∧ ∀ q, q ≤ p → (e.tok.isBinop && decide (e.tok.prec = q)) = false := by
  rw [atWord.tok]
  cases rest with
  | nil => exact ⟨rfl, fun _ _ => rfl⟩
  | cons w rest =>
      obtain ⟨tok, rfl, _, notPpmm, looser⟩ := stops w rfl
      refine ⟨notPpmm, fun q le => ?_⟩
      show (tok.isBinop && decide (tok.prec = q)) = false
      cases binop : tok.isBinop with
      | false => rfl
      | true =>
          have := looser binop
          rw [Bool.true_and, decide_eq_false_iff_not]
          omega

/-- The two climbers read these words at precedence `p`, doing the same. -/
def Syncs (g : Shift) (nested nested' : Nested) (words : List Word) (p : Nat) : Prop :=
  ∀ (fuel fuel' count : Nat) (rest rest' : List Word), 16 * words.length + p + 2 ≤ fuel →
    16 * words.length + p + 2 ≤ fuel' → Behind p rest rest' →
      Relates count (TwinAlong g (words ++ rest) (words ++ rest') count)
        (evalexpr nested fuel p) (evalexpr nested' fuel' p)
        (Gives (TwinAlong g rest rest') g.At) (TwinStop g)

/-- The two climbers have done the same up to their loops at precedence `q`, or they
have stopped. -/
def Reaches (g : Shift) (nested nested' : Nested) (q fuel fuel' count : Nat)
    (rest rest' : List Word) (x y : EStateM.Result Stop State Addr) : Prop :=
  (∃ more more' a b s' t' count', fuel ≤ more ∧ fuel' ≤ more' ∧ count ≤ count' ∧
      g.At count' a b ∧ TwinAlong g rest rest' count' s' t' ∧
      x = evalLoop nested more q a s' ∧ y = evalLoop nested' more' q b t') ∨
    ∃ stop stop' s' t', x = .error stop s' ∧ y = .error stop' t' ∧ TwinStop g stop s' stop' t'

/-- The two climbers reach their loops with these words read. -/
def LoopSyncs (g : Shift) (nested nested' : Nested) (words : List Word) (q : Nat) : Prop :=
  ∀ (fuel fuel' count : Nat) (rest rest' : List Word), 16 * words.length + q + 2 ≤ fuel →
    16 * words.length + q + 2 ≤ fuel' → Behind (q - 1) rest rest' →
    ∀ s t, TwinAlong g (words ++ rest) (words ++ rest') count s t →
      Reaches g nested nested' q (fuel - words.length) (fuel' - words.length) count rest rest'
        (evalexpr nested fuel q s) (evalexpr nested' fuel' q t)

theorem evalLoop_leaves {nested nested' : Nested} (behind : Behind p rest rest') (le : q ≤ p)
    (at1 : g.At count a b) :
    Relates count (TwinAlong g rest rest' count) (evalLoop nested (fuel + 1) q a)
      (evalLoop nested' (fuel' + 1) q b) (Gives (TwinAlong g rest rest') g.At) (TwinStop g) := by
  intro s t twin
  rw [evalLoop_exit nested a ((twin.es.left.behind behind.left).2 q le),
    evalLoop_exit nested' b ((twin.es.right.behind behind.right).2 q le)]
  exact ⟨count, Nat.le_refl _, twin, at1⟩

theorem postfixOps_leaves {nested nested' : Nested} (behind : Behind p rest rest')
    (at1 : g.At count a b) :
    Relates count (TwinAlong g rest rest' count) (postfixOps nested a) (postfixOps nested' b)
      (Gives (TwinAlong g rest rest') g.At) (TwinStop g) := by
  intro s t twin
  rw [postfixOps_exit nested a (twin.es.left.behind behind.left).1,
    postfixOps_exit nested' b (twin.es.right.behind behind.right).1]
  exact ⟨count, Nat.le_refl _, twin, at1⟩

variable {nested nested' : Nested} {words : List Word}

theorem Syncs.climb (syncs : Syncs g nested nested' words p) :
    Syncs g nested nested' words (p + 1) := by
  intro fuel fuel' count rest rest' enough enough' behind
  obtain ⟨more, rfl⟩ : ∃ more, fuel = more + 2 := ⟨fuel - 2, by omega⟩
  obtain ⟨more', rfl⟩ : ∃ more', fuel' = more' + 2 := ⟨fuel' - 2, by omega⟩
  rw [evalexpr, evalexpr]
  refine Relates.bind (syncs (more + 1) (more' + 1) count rest rest' (by omega) (by omega)
    (behind.weaken (Nat.le_succ p))) ?_
  rintro count' le a b s t ⟨twin, at1⟩
  exact evalLoop_leaves behind (Nat.le_refl _) at1 s t twin

theorem Syncs.climb_to (syncs : Syncs g nested nested' words p) (le : p ≤ q) :
    Syncs g nested nested' words q := by
  induction q, le using Nat.le_induction with
  | base => exact syncs
  | succ q _ ih => exact ih.climb

theorem Syncs.loop (syncs : Syncs g nested nested' words p) (nonempty : words ≠ []) :
    LoopSyncs g nested nested' words (p + 1) := by
  intro fuel fuel' count rest rest' enough enough' behind s t twin
  have positive := List.length_pos_of_ne_nil nonempty
  obtain ⟨more, rfl⟩ : ∃ more, fuel = more + 1 := ⟨fuel - 1, by omega⟩
  obtain ⟨more', rfl⟩ : ∃ more', fuel' = more' + 1 := ⟨fuel' - 1, by omega⟩
  rw [evalexpr, evalexpr]
  rcases (syncs more more' count rest rest' (by omega) (by omega) behind).ends twin with
    ⟨a, b, s', t', count', left, right, le, after, at1⟩ | ⟨stop, stop', s', t', left, right, failed⟩
  · exact Or.inl ⟨more, more', a, b, s', t', count', by omega, by omega, le, at1, after,
      bind_ok left, bind_ok right⟩
  · exact Or.inr ⟨stop, stop', s', t', bind_error left, bind_error right, failed⟩

theorem LoopSyncs.syncs (loop : LoopSyncs g nested nested' words q) :
    Syncs g nested nested' words q := by
  intro fuel fuel' count rest rest' enough enough' behind s t twin
  rcases loop fuel fuel' count rest rest' enough enough' (behind.weaken (Nat.sub_le q 1)) s t twin
    with ⟨more, more', a, b, s', t', count', left, right, le, at1, after, run, run'⟩ |
      ⟨stop, stop', s', t', run, run', failed⟩
  · obtain ⟨less, rfl⟩ : ∃ less, more = less + 1 := ⟨more - 1, by omega⟩
    obtain ⟨less', rfl⟩ : ∃ less', more' = less' + 1 := ⟨more' - 1, by omega⟩
    rw [run, run']
    rcases (evalLoop_leaves behind (Nat.le_refl _) at1).ends after with
      ⟨a', b', s'', t'', count'', run, run', le', done⟩ | ⟨stop, stop', s'', t'', run, run', failed⟩
    · rw [run, run']
      exact ⟨count'', Nat.le_trans le le', done⟩
    · rw [run, run']
      exact failed
  · rw [run, run']
    exact failed

/-! ### Primaries -/

theorem token_words_before (all : AllLegible False words) (nonempty : words ≠ [])
    (rest rest' : List Word) (count : Nat) :
    Relates count (TwinState g (Before (words ++ rest) (words ++ rest')) count) token token
      (Kept (TwinAlong g (words ++ rest) (words ++ rest'))) (TwinStop g) := by
  cases words with
  | nil => exact absurd rfl nonempty
  | cons v words =>
      have readBack : v.Spelled := by
        have this := all v List.mem_cons_self
        cases v with
        | op tok => exact this
        | num n => trivial
        | name x => trivial
      exact token_same readBack

theorem token_words_along (all : AllLegible False words) (nonempty : words ≠ [])
    (rest rest' : List Word) (count : Nat) :
    Relates count (TwinAlong g (w :: (words ++ rest)) (w' :: (words ++ rest')) count) token token
      (Kept (TwinAlong g (words ++ rest) (words ++ rest'))) (TwinStop g) :=
  (token_words_before all nonempty rest rest' count).weaken
    (fun _ _ twin => before_of_along twin) fun _ _ _ _ _ _ after => after

theorem primary_leaf_along (leaf : w.token = .VAR ∨ w.token = .LIT) (fuel fuel' count : Nat)
    (moves : Relates count (TwinAlong g (w :: rest) (w :: rest') count) token token
      (Kept (TwinAlong g rest rest')) (TwinStop g)) :
    Relates count (TwinAlong g (w :: rest) (w :: rest') count) (primary nested (fuel + 1))
      (primary nested' (fuel' + 1)) (Gives (TwinAlong g rest rest') g.At) (TwinStop g) := by
  rw [primary, primary]
  refine tokenNow_along w.token rfl rfl ?_
  have read : Relates count (TwinAlong g (w :: rest) (w :: rest') count)
      (do let vl := (← get).es.val; token; return vl)
      (do let vl := (← get).es.val; token; return vl) (Gives (TwinAlong g rest rest') g.At)
      (TwinStop g) := by
    refine Relates.read fun s t twin => ?_
    rintro s t ⟨rfl, rfl⟩
    have at1 := twin.es.val w rfl rfl leaf
    have moved : Relates count (TwinAlong g (w :: rest) (w :: rest') count)
        (token >>= fun _ => pure s.es.val) (token >>= fun _ => pure t.es.val)
        (Gives (TwinAlong g rest rest') g.At) (TwinStop g) :=
      Relates.bind moves fun _ le _ _ => relates_gives (at1.grows le)
    exact moved s t twin
  rcases leaf with isVar | isLit
  · rw [isVar]
    exact read
  · rw [isLit]
    exact read

theorem syncs_leaf (w : Word) (leaf : w.token = .VAR ∨ w.token = .LIT) :
    Syncs g nested nested' [w] 0 := by
  intro fuel fuel' count rest rest' enough enough' behind
  simp only [List.length_cons, List.length_nil] at enough enough'
  obtain ⟨more, rfl⟩ : ∃ more, fuel = more + 2 := ⟨fuel - 2, by omega⟩
  obtain ⟨more', rfl⟩ : ∃ more', fuel' = more' + 2 := ⟨fuel' - 2, by omega⟩
  rw [evalexpr, evalexpr]
  exact relates_operand (primary_leaf_along leaf more more' count behind.token)
    fun _ _ _ _ at1 => postfixOps_leaves behind at1

theorem Syncs.paren (syncs : Syncs g nested nested' words MAX_PREC)
    (all : AllLegible False words) (nonempty : words ≠ []) :
    Syncs g nested nested' (.op .OPEN_PAREN :: words ++ [.op .CLOSE_PAREN]) 0 := by
  intro fuel fuel' count rest rest' enough enough' behind
  simp only [List.length_append, List.length_cons, List.length_nil] at enough enough'
  obtain ⟨more, rfl⟩ : ∃ more, fuel = more + 2 := ⟨fuel - 2, by omega⟩
  obtain ⟨more', rfl⟩ : ∃ more', fuel' = more' + 2 := ⟨fuel' - 2, by omega⟩
  simp only [List.cons_append, List.append_assoc, List.nil_append]
  have closes (rest : List Word) : Stops MAX_PREC (.op .CLOSE_PAREN :: rest) := by
    rintro w ⟨⟩
    exact ⟨_, rfl, by decide, rfl, by intro impossible; cases impossible⟩
  rw [evalexpr, evalexpr]
  have opened : Relates count
      (TwinAlong g (.op .OPEN_PAREN :: (words ++ .op .CLOSE_PAREN :: rest))
        (.op .OPEN_PAREN :: (words ++ .op .CLOSE_PAREN :: rest')) count)
      (primary nested (more + 1)) (primary nested' (more' + 1))
      (Gives (TwinAlong g rest rest') g.At) (TwinStop g) := by
    rw [primary, primary]
    refine tokenNow_along .OPEN_PAREN rfl rfl ?_
    refine Relates.bind (token_words_along all nonempty _ _ count) fun count1 _ _ _ => ?_
    refine relates_operand (syncs more more' count1 _ _ (by unfold MAX_PREC; omega)
      (by unfold MAX_PREC; omega) ⟨closes rest, closes rest'⟩) fun count2 _ a b at2 => ?_
    refine tokenNow_along .CLOSE_PAREN rfl rfl ?_
    refine Relates.bind behind.token fun count3 le3 _ _ => ?_
    exact relates_gives (at2.grows le3)
  exact relates_operand opened fun _ _ _ _ at1 => postfixOps_leaves behind at1

theorem syncs_unary (nests : NestedTwin g nested nested') (op : UnaryOp)
    (syncs : Syncs g nested nested' words 0) (all : AllLegible False words)
    (nonempty : words ≠ []) : Syncs g nested nested' (.op op.val :: words) 0 := by
  intro fuel fuel' count rest rest' enough enough' behind
  simp only [List.length_cons] at enough enough'
  obtain ⟨more, rfl⟩ : ∃ more, fuel = more + 2 := ⟨fuel - 2, by omega⟩
  obtain ⟨more', rfl⟩ : ∃ more', fuel' = more' + 2 := ⟨fuel' - 2, by omega⟩
  have ops := twin_operations (along_view g rest rest') nests
  rw [evalexpr, evalexpr]
  have signed : Relates count
      (TwinAlong g (.op op.val :: (words ++ rest)) (.op op.val :: (words ++ rest')) count)
      (primary nested (more + 1)) (primary nested' (more' + 1))
      (Gives (TwinAlong g rest rest') g.At) (TwinStop g) := by
    rw [primary, primary]
    refine tokenNow_along op.val rfl rfl ?_
    rw [if_pos op.property, if_pos op.property]
    refine Relates.bind (token_words_along all nonempty _ _ count) fun count1 _ _ _ => ?_
    refine relates_operand (syncs more more' count1 _ _ (by omega) (by omega) behind)
      fun count2 _ a b at2 => ?_
    refine relates_operand (ops.intvar at2) fun count3 _ vl vl' at3 => ?_
    refine relates_same (numberAt_relates ops at3) fun count4 le4 n => ?_
    have at4 := at3.grows le4
    refine Relates.bind (ops.setNumber _ at4) fun count5 le5 _ _ => ?_
    exact relates_gives (at4.grows le5)
  exact relates_operand signed fun _ _ _ _ at1 => postfixOps_leaves behind at1

theorem syncs_pre (nests : NestedTwin g nested nested') (op : StepOp) (x : VarName) :
    Syncs g nested nested' [.op op.val, .name x] 0 := by
  intro fuel fuel' count rest rest' enough enough' behind
  simp only [List.length_cons, List.length_nil] at enough enough'
  obtain ⟨more, rfl⟩ : ∃ more, fuel = more + 2 := ⟨fuel - 2, by omega⟩
  obtain ⟨more', rfl⟩ : ∃ more', fuel' = more' + 2 := ⟨fuel' - 2, by omega⟩
  have ops := twin_operations (along_view g (.name x :: rest) (.name x :: rest')) nests
  rw [evalexpr, evalexpr]
  have stepped : Relates count
      (TwinAlong g ([.op op.val, .name x] ++ rest) ([.op op.val, .name x] ++ rest') count)
      (primary nested (more + 1)) (primary nested' (more' + 1))
      (Gives (TwinAlong g rest rest') g.At) (TwinStop g) := by
    rw [primary, primary]
    refine tokenNow_along op.val rfl rfl ?_
    have walk : Relates count
        (TwinAlong g ([.op op.val, .name x] ++ rest) ([.op op.val, .name x] ++ rest') count)
        (do
          token
          if (← tokenNow) ≠ .VAR then evalerr .ET_LVALUE op.val.spelling
          else do
            let vl ← doPpmm nested op.val (← get).es.val true
            token
            return vl)
        (do
          token
          if (← tokenNow) ≠ .VAR then evalerr .ET_LVALUE op.val.spelling
          else do
            let vl ← doPpmm nested' op.val (← get).es.val true
            token
            return vl)
        (Gives (TwinAlong g rest rest') g.At) (TwinStop g) := by
      have named : AllLegible False [.name x] := AllLegible.name id (allLegible_nil False)
      refine Relates.bind (token_words_along named (by simp) rest rest' count)
        fun count1 _ _ _ => ?_
      refine tokenNow_along .VAR rfl rfl ?_
      refine Relates.read fun s t twin => ?_
      rintro s t ⟨rfl, rfl⟩
      have at1 := twin.es.val (.name x) rfl rfl (Or.inl rfl)
      refine relates_operand (doPpmm_relates ops op.val at1 true)
        (fun count2 _ vl vl' at2 => ?_) s t twin
      refine Relates.bind behind.token fun count3 le3 _ _ => ?_
      exact relates_gives (at2.grows le3)
    rcases isPpmm_cases op.property with same | same <;>
      · rw [same] at walk ⊢
        exact walk
  exact relates_operand stepped fun _ _ _ _ at1 => postfixOps_leaves behind at1

theorem syncs_post (nests : NestedTwin g nested nested') (op : StepOp) (x : VarName) :
    Syncs g nested nested' [.name x, .op op.val] 0 := by
  intro fuel fuel' count rest rest' enough enough' behind
  simp only [List.length_cons, List.length_nil] at enough enough'
  obtain ⟨more, rfl⟩ : ∃ more, fuel = more + 2 := ⟨fuel - 2, by omega⟩
  obtain ⟨more', rfl⟩ : ∃ more', fuel' = more' + 2 := ⟨fuel' - 2, by omega⟩
  have ops := twin_operations (along_view g (.op op.val :: rest) (.op op.val :: rest')) nests
  rw [evalexpr, evalexpr]
  have stepped : AllLegible False [.op op.val] :=
    AllLegible.op (step_ordinary op) (allLegible_nil False)
  refine relates_operand (primary_leaf_along (Or.inl rfl) more more' count
    (token_words_along stepped (by simp) rest rest' count)) fun count1 _ a b at1 => ?_
  refine tokenNow_along op.val rfl rfl ?_
  rw [if_pos op.property, if_pos op.property]
  refine relates_operand (doPpmm_relates ops op.val at1 false) fun count2 _ vl vl' at2 => ?_
  refine Relates.bind behind.token fun count3 le3 _ _ => ?_
  exact relates_gives (at2.grows le3)

/-! ### Operators -/

/-- A turn of the loop at an operator between two operands. -/
def turn (nested : Nested) (fuel : Nat) (op : Token) (vl : Addr) : ExprM Addr := do
  token
  let vl ← intvar nested vl
  if op = .O_LAND ∨ op = .O_LOR then do
    let l ← numberAt vl
    let skipped := if op = .O_LAND then l == 0 else l != 0
    holdAssigns skipped
    let vr ← intvar nested (← evalexpr nested fuel (op.prec - 1))
    setNumber vl (binaryResult op l (← numberAt vr))
    allowAssigns skipped
    return vl
  else do
    let vr ← intvar nested (← evalexpr nested fuel (op.prec - 1))
    checkDivisor op vr
    setNumber vl (← compute op (← numberAt vl) (← numberAt vr))
    return vl

theorem evalLoop_turn (nested : Nested) (op : InfixOp) (fuel : Nat) (a : Addr)
    (here : s.es.tok = op.val) :
    evalLoop nested (fuel + 1) op.val.prec a s =
      (turn nested fuel op.val a >>= evalLoop nested fuel op.val.prec) s := by
  obtain ⟨_, _, isBinop, notAsn, notAssign, notTern, _⟩ := infix_facts op
  rw [evalLoop, bind_ok (tokenNow_run s), here]
  unfold turn
  simp only [isBinop, notAsn, notAssign, notTern, decide_true, Bool.and_self, Bool.not_true,
    Bool.false_eq_true, if_false]
  by_cases either : op.val = .O_LAND ∨ op.val = .O_LOR
  · simp only [if_pos either, bind_assoc, pure_bind]
  · simp only [if_neg either, bind_assoc, pure_bind]

theorem turn_along (nests : NestedTwin g nested nested') (op : InfixOp)
    (right : Syncs g nested nested' words (op.val.prec - 1)) (all : AllLegible False words)
    (nonempty : words ≠ []) (enough : 16 * words.length + op.val.prec + 2 ≤ fuel)
    (enough' : 16 * words.length + op.val.prec + 2 ≤ fuel')
    (behind : Behind (op.val.prec - 1) rest rest') (at1 : g.At count a b) :
    Relates count
      (TwinAlong g (.op op.val :: (words ++ rest)) (.op op.val :: (words ++ rest')) count)
      (turn nested fuel op.val a) (turn nested' fuel' op.val b)
      (Gives (TwinAlong g rest rest') g.At) (TwinStop g) := by
  have opsBefore := twin_operations (along_view g (words ++ rest) (words ++ rest')) nests
  have ops := twin_operations (along_view g rest rest') nests
  unfold turn
  refine Relates.bind (token_words_along all nonempty _ _ count) fun count1 le1 _ _ => ?_
  refine relates_operand (opsBefore.intvar (at1.grows le1)) fun count2 le2 vl vl' at2 => ?_
  by_cases either : op.val = .O_LAND ∨ op.val = .O_LOR
  · rw [if_pos either, if_pos either]
    refine relates_same (numberAt_relates opsBefore at2) fun count3 le3 l => ?_
    refine Relates.bind (opsBefore.hold _) fun count4 le4 _ _ => ?_
    refine relates_operand (right fuel fuel' count4 rest rest' (by omega) (by omega) behind)
      fun count5 le5 r r' at5 => ?_
    refine relates_operand (ops.intvar at5) fun count6 le6 vr vr' at6 => ?_
    refine relates_same (numberAt_relates ops at6) fun count7 le7 n => ?_
    have left7 := at2.grows (show count2 ≤ count7 by omega)
    refine Relates.bind (ops.setNumber _ left7) fun count8 le8 _ _ => ?_
    refine Relates.bind (ops.allow _) fun count9 le9 _ _ => ?_
    exact relates_gives (left7.grows (Nat.le_trans le8 le9))
  · rw [if_neg either, if_neg either]
    refine relates_operand (right fuel fuel' count2 rest rest' (by omega) (by omega) behind)
      fun count3 le3 r r' at3 => ?_
    refine relates_operand (ops.intvar at3) fun count4 le4 vr vr' at4 => ?_
    refine Relates.bind (checkDivisor_relates ops op.val at4) fun count5 le5 _ _ => ?_
    have left5 := at2.grows (Nat.le_trans le3 (Nat.le_trans le4 le5))
    refine relates_same (numberAt_relates ops left5) fun count6 le6 l => ?_
    refine relates_same (numberAt_relates ops (at4.grows (Nat.le_trans le5 le6)))
      fun count7 le7 r => ?_
    refine relates_same (compute_relates ops op.val l r) fun count8 le8 res => ?_
    have left8 := left5.grows (Nat.le_trans le6 (Nat.le_trans le7 le8))
    refine Relates.bind (ops.setNumber res left8) fun count9 le9 _ _ => ?_
    exact relates_gives (left8.grows le9)

theorem loopSyncs_infix {wordsL : List Word} (nests : NestedTwin g nested nested') (op : InfixOp)
    (left : LoopSyncs g nested nested' wordsL op.val.prec)
    (right : Syncs g nested nested' words (op.val.prec - 1)) (all : AllLegible False words)
    (nonempty : words ≠ []) :
    LoopSyncs g nested nested' (wordsL ++ .op op.val :: words) op.val.prec := by
  intro fuel fuel' count rest rest' enough enough' behind s t twin
  obtain ⟨ordinary, notPpmm, _, _, _, _, positive, _⟩ := infix_facts op
  simp only [List.length_append, List.length_cons] at enough enough' ⊢
  simp only [List.append_assoc, List.cons_append] at twin
  have stops (rest : List Word) : Stops (op.val.prec - 1) (.op op.val :: rest) := by
    rintro w ⟨⟩
    exact ⟨_, rfl, ordinary, notPpmm, fun _ => by omega⟩
  rcases left fuel fuel' count (.op op.val :: (words ++ rest)) (.op op.val :: (words ++ rest'))
    (by omega) (by omega) ⟨stops _, stops _⟩ s t twin with
    ⟨more, more', a, b, s1, t1, count1, enough1, enough1', le1, at1, twin1, run, run'⟩ |
      ⟨stop, stop', s1, t1, run, run', failed⟩
  · obtain ⟨less, rfl⟩ : ∃ less, more = less + 1 := ⟨more - 1, by omega⟩
    obtain ⟨less', rfl⟩ : ∃ less', more' = less' + 1 := ⟨more' - 1, by omega⟩
    rw [run, run', evalLoop_turn nested op less a twin1.es.left.tok,
      evalLoop_turn nested' op less' b twin1.es.right.tok]
    have enough2 : 16 * words.length + op.val.prec + 2 ≤ less := by omega
    have enough2' : 16 * words.length + op.val.prec + 2 ≤ less' := by omega
    rcases (turn_along nests op right all nonempty enough2 enough2' behind at1).ends twin1
      with ⟨a2, b2, s2, t2, count2, left2, right2, le2, twin2, at2⟩ |
        ⟨stop, stop', s2, t2, left2, right2, failed⟩
    · exact Or.inl ⟨less, less', a2, b2, s2, t2, count2, by omega, by omega,
        Nat.le_trans le1 le2, at2, twin2, bind_ok left2, bind_ok right2⟩
    · exact Or.inr ⟨stop, stop', s2, t2, bind_error left2, bind_error right2, failed⟩
  · exact Or.inr ⟨stop, stop', s1, t1, run, run', failed⟩

/-- An arm of `? :`, with assignments held back or not. -/
def arm (nested : Nested) (fuel p : Nat) (hold : Bool) : ExprM Addr := do
  holdAssigns hold
  let v ← evalexpr nested fuel p
  allowAssigns hold
  return v

/-- A turn of the loop at `? :`. -/
def ternaryTurn (nested : Nested) (fuel : Nat) (vl : Addr) : ExprM Addr := do
  token
  let vl ← intvar nested vl
  let ex := (← numberAt vl) != 0
  let vl ← arm nested fuel MAX_PREC (!ex)
  if (← tokenNow) ≠ .CTERN then evalerr .ET_STR (missing ':')
  else do
    token
    let vr ← arm nested fuel P_TERN ex
    return if ex then vl else vr

theorem evalLoop_ternary (nested : Nested) (fuel : Nat) (a : Addr) (here : s.es.tok = .O_TERN) :
    evalLoop nested (fuel + 1) P_TERN a s =
      (ternaryTurn nested fuel a >>= evalLoop nested fuel P_TERN) s := by
  have opened : evalLoop nested (fuel + 1) P_TERN a s = (do
      token
      let vl ← intvar nested a
      let ex := (← numberAt vl) != 0
      holdAssigns (!ex)
      let vl ← evalexpr nested fuel MAX_PREC
      allowAssigns (!ex)
      if (← tokenNow) ≠ .CTERN then evalerr .ET_STR (missing ':')
      else do
        token
        holdAssigns ex
        let vr ← evalexpr nested fuel P_TERN
        allowAssigns ex
        evalLoop nested fuel P_TERN (if ex then vl else vr) : ExprM Addr) s := by
    rw [evalLoop, bind_ok (tokenNow_run s), here]
    rfl
  rw [opened]
  unfold ternaryTurn arm
  simp only [bind_assoc, pure_bind]
  refine congrFun (bind_congr fun _ => bind_congr fun vl => bind_congr fun n => bind_congr fun _ =>
    bind_congr fun v => bind_congr fun _ => bind_congr fun tok => ?_) s
  by_cases other : tok ≠ .CTERN
  · rw [if_pos other, if_pos other]
    rfl
  · rw [if_neg other, if_neg other]
    simp only [bind_assoc, pure_bind]

theorem arm_selected (nested : Nested) (fuel p : Nat) :
    arm nested fuel p false = evalexpr nested fuel p := by
  funext s
  have same : arm nested fuel p false s = (evalexpr nested fuel p >>= fun v => pure v) s := rfl
  rw [same, bind_pure]

theorem arm_along (nests : NestedTwin g nested nested') (syncs : Syncs g nested nested' words p)
    (enough : 16 * words.length + p + 2 ≤ fuel) (enough' : 16 * words.length + p + 2 ≤ fuel')
    (behind : Behind p rest rest') (hold : Bool) :
    Relates count (TwinAlong g (words ++ rest) (words ++ rest') count) (arm nested fuel p hold)
      (arm nested' fuel' p hold) (Gives (TwinAlong g rest rest') g.At) (TwinStop g) := by
  have ops (words words' : List Word) := twin_operations (along_view g words words') nests
  refine Relates.bind ((ops _ _).hold hold) fun count1 _ _ _ => ?_
  refine relates_operand (syncs fuel fuel' count1 rest rest' enough enough' behind)
    fun count2 _ v v' at2 => ?_
  refine Relates.bind ((ops _ _).allow hold) fun count3 le3 _ _ => ?_
  exact relates_gives (at2.grows le3)

theorem syncs_ternary (nests : NestedTwin g nested nested') {wordsC wordsA wordsB : List Word}
    (syncsC : Syncs g nested nested' wordsC (P_TERN - 1))
    (syncsA : Syncs g nested nested' wordsA MAX_PREC)
    (syncsB : Syncs g nested nested' wordsB P_TERN) (allA : AllLegible False wordsA)
    (allB : AllLegible False wordsB) (nonemptyA : wordsA ≠ []) (nonemptyB : wordsB ≠ []) :
    Syncs g nested nested' (wordsC ++ .op .O_TERN :: (wordsA ++ .op .CTERN :: wordsB)) P_TERN := by
  intro fuel fuel' count rest rest' enough enough' behind
  simp only [List.length_append, List.length_cons, P_TERN] at enough enough'
  obtain ⟨more, rfl⟩ : ∃ more, fuel = more + 3 := ⟨fuel - 3, by omega⟩
  obtain ⟨more', rfl⟩ : ∃ more', fuel' = more' + 3 := ⟨fuel' - 3, by omega⟩
  simp only [List.append_assoc, List.cons_append]
  have stops (rest : List Word) : Stops (P_TERN - 1) (.op .O_TERN :: rest) := by
    rintro w ⟨⟩
    exact ⟨_, rfl, by decide, rfl, by intro _; decide⟩
  have opened (nested : Nested) (more : Nat) : evalexpr nested (more + 3) P_TERN =
      evalexpr nested (more + 2) (P_TERN - 1) >>= evalLoop nested (more + 2) P_TERN := rfl
  have ops (words words' : List Word) := twin_operations (along_view g words words') nests
  rw [opened, opened]
  refine relates_operand (syncsC (more + 2) (more' + 2) count _ _ (by unfold P_TERN; omega)
    (by unfold P_TERN; omega) ⟨stops _, stops _⟩) fun count1 le1 c c' at1 => ?_
  intro s t twin
  rw [evalLoop_ternary nested (more + 1) c twin.es.left.tok,
    evalLoop_ternary nested' (more' + 1) c' twin.es.right.tok]
  refine relates_operand (A := g.At) (R := TwinAlong g rest rest') ?_ (fun count2 _ v v' at2 =>
    evalLoop_leaves behind (Nat.le_refl _) at2) s t twin
  unfold ternaryTurn
  refine Relates.bind (token_words_along allA nonemptyA _ _ count1) fun count2 le2 _ _ => ?_
  refine relates_operand ((ops _ _).intvar (at1.grows le2)) fun count3 le3 vl vl' at3 => ?_
  refine relates_same (numberAt_relates (ops _ _) at3) fun count4 le4 n => ?_
  refine relates_operand (arm_along nests syncsA (by unfold MAX_PREC; omega)
    (by unfold MAX_PREC; omega) ⟨stops_ctern _, stops_ctern _⟩ _) fun count5 le5 a a' at5 => ?_
  refine tokenNow_along .CTERN rfl rfl ?_
  refine Relates.bind (token_words_along allB nonemptyB _ _ count5) fun count6 le6 _ _ => ?_
  refine relates_operand (arm_along nests syncsB (by unfold P_TERN; omega)
    (by unfold P_TERN; omega) behind _) fun count7 le7 b b' at7 => ?_
  refine relates_gives ?_
  split
  · exact at5.grows (Nat.le_trans le6 le7)
  · exact at7

theorem syncs_assign (nests : NestedTwin g nested nested') (op : AssignOp) (x : VarName)
    (syncs : Syncs g nested nested' words P_ASSIGN) (all : AllLegible False words)
    (nonempty : words ≠ []) :
    Syncs g nested nested' (.name x :: .op op.val :: words) P_ASSIGN := by
  intro fuel fuel' count rest rest' enough enough' behind
  simp only [List.length_cons, P_ASSIGN] at enough enough'
  obtain ⟨more, rfl⟩ : ∃ more, fuel = more + 3 := ⟨fuel - 3, by omega⟩
  obtain ⟨more', rfl⟩ : ∃ more', fuel' = more' + 3 := ⟨fuel' - 3, by omega⟩
  obtain ⟨ordinary, notPpmm, isBinop, prec⟩ := assign_facts op
  have stops (rest : List Word) : Stops 11 (.op op.val :: rest) := by
    rintro w ⟨⟩
    exact ⟨_, rfl, ordinary, notPpmm, fun _ => by rw [prec]; decide⟩
  have opened (nested : Nested) (more : Nat) : evalexpr nested (more + 3) P_ASSIGN =
      evalexpr nested (more + 2) 11 >>= evalLoop nested (more + 2) P_ASSIGN := rfl
  have ops (words words' : List Word) := twin_operations (along_view g words words') nests
  have left : Syncs g nested nested' [.name x] 11 :=
    (syncs_leaf (.name x) (Or.inl rfl)).climb_to (by omega)
  rw [opened, opened]
  refine relates_operand (left (more + 2) (more' + 2) count (.op op.val :: (words ++ rest))
    (.op op.val :: (words ++ rest')) (by simp only [List.length_cons, List.length_nil]; omega)
    (by simp only [List.length_cons, List.length_nil]; omega) ⟨stops _, stops _⟩)
    fun count1 le1 v v' at1 => ?_
  rw [evalLoop, evalLoop]
  refine tokenNow_along op.val rfl rfl ?_
  simp only [isBinop, prec, decide_true, Bool.and_self, Bool.not_true, Bool.false_eq_true,
    if_false]
  refine Relates.bind (token_words_along all nonempty _ _ count1) fun count2 le2 _ _ => ?_
  have at2 := at1.grows le2
  refine cast_relates (ops _ _) op.val at2 fun count3 le3 vl vl' at3 => ?_
  rw [if_pos op.property, if_pos op.property]
  refine Relates.bind ((ops _ _).assignCheck op.val (at2.grows le3)) fun count4 le4 _ _ => ?_
  refine relates_operand (syncs (more + 1) (more' + 1) count4 rest rest'
    (by unfold P_ASSIGN; omega) (by unfold P_ASSIGN; omega) behind) fun count5 le5 r r' at5 => ?_
  refine relates_operand ((ops _ _).intvar at5) fun count6 le6 vr vr' at6 => ?_
  refine Relates.bind (checkDivisor_relates (ops _ _) op.val at6) fun count7 le7 _ _ => ?_
  refine relates_same (numberAt_relates (ops _ _) (at3.grows (show count3 ≤ count7 by omega)))
    fun count8 le8 l => ?_
  refine relates_same (numberAt_relates (ops _ _) (at6.grows (show count6 ≤ count8 by omega)))
    fun count9 le9 n => ?_
  refine relates_same (compute_relates (ops _ _) op.val l n) fun count10 le10 res => ?_
  have right10 := at6.grows (show count6 ≤ count10 by omega)
  refine Relates.bind ((ops _ _).setNumber res right10) fun count11 le11 _ _ => ?_
  have right11 := right10.grows le11
  refine Relates.bind ((ops _ _).storeNumber (at2.grows (show count2 ≤ count11 by omega)) right11)
    fun count12 le12 _ _ => ?_
  exact evalLoop_leaves behind (Nat.le_refl _) (right11.grows le12)

end Lockstep

/-! ## Trees -/

section Trees

variable {g : Shift} {nested nested' : Nested} {t : Tree}

/-- The two climbers read the words of a tree, as an operand of any precedence. -/
structure TreeSyncs (g : Shift) (nested nested' : Nested) (t : Tree) : Prop where
  body : Syncs g nested nested' t.body t.level
  loop : ∀ op l r, t = .binary op l r → LoopSyncs g nested nested' t.body op.val.prec

theorem Tree.legible (t : Tree) : AllLegible False t.body :=
  t.body_legible fun impossible => impossible.elim

theorem Tree.words_legible (t : Tree) (p : Nat) : AllLegible False (t.words p) :=
  t.legible.parenthesize _ _

theorem TreeSyncs.words (syncs : TreeSyncs g nested nested' t) (p : Nat) :
    Syncs g nested nested' (t.words p) p := by
  unfold Tree.words parenthesize
  by_cases fits : t.level ≤ p
  · rw [if_pos fits]
    exact syncs.body.climb_to fits
  · rw [if_neg fits]
    exact ((syncs.body.climb_to t.level_le).paren t.legible t.body_ne_nil).climb_to (Nat.zero_le p)

theorem Tree.words_below {op : InfixOp} (differ : t.level ≠ op.val.prec) :
    t.words (op.val.prec - 1) = t.words op.val.prec := by
  unfold Tree.words parenthesize
  by_cases fits : t.level ≤ op.val.prec
  · rw [if_pos fits, if_pos (by omega)]
  · rw [if_neg fits, if_neg (by omega)]

theorem TreeSyncs.words_loop (syncs : TreeSyncs g nested nested' t) (op : InfixOp) :
    LoopSyncs g nested nested' (t.words op.val.prec) op.val.prec := by
  by_cases same : t.level = op.val.prec
  · obtain ⟨op', l, r, shape, precs⟩ := Tree.binary_of_level same
    have loop := syncs.loop op' l r shape
    rw [precs] at loop
    rw [Tree.words, parenthesize, if_pos (Nat.le_of_eq same)]
    exact loop
  · have positive := (infix_facts op).2.2.2.2.2.2.1
    have inner := syncs.words (op.val.prec - 1)
    rw [Tree.words_below same] at inner
    have loop := inner.loop (t.words_ne_nil _)
    rw [Nat.sub_add_cancel positive] at loop
    exact loop

theorem TreeSyncs.of_body (body : Syncs g nested nested' t.body t.level)
    (notBinary : ∀ op l r, t ≠ .binary op l r) : TreeSyncs g nested nested' t where
  body := body
  loop op l r same := absurd same (notBinary op l r)

theorem treeSyncs (nests : NestedTwin g nested nested') (t : Tree) :
    TreeSyncs g nested nested' t := by
  induction t with
  | lit n => exact .of_body (syncs_leaf _ (Or.inr rfl)) (by intros; simp)
  | var x => exact .of_body (syncs_leaf _ (Or.inl rfl)) (by intros; simp)
  | group t ih =>
      exact .of_body ((ih.body.climb_to t.level_le).paren t.legible t.body_ne_nil) (by intros; simp)
  | unary op t ih =>
      exact .of_body (syncs_unary nests op (ih.words P_PRIMARY) (t.words_legible _)
        (t.words_ne_nil _)) (by intros; simp)
  | binary op l r ihL ihR =>
      have loop := loopSyncs_infix nests op (ihL.words_loop op) (ihR.words (op.val.prec - 1))
        (r.words_legible _) (r.words_ne_nil _)
      exact ⟨loop.syncs, by rintro op' l' r' ⟨⟩; exact loop⟩
  | ternary c a b ihC ihA ihB =>
      exact .of_body (syncs_ternary nests (ihC.words _) (ihA.words _) (ihB.words _)
        (a.words_legible _) (b.words_legible _) (a.words_ne_nil _) (b.words_ne_nil _))
        (by intros; simp)
  | assign op x t ih =>
      exact .of_body (syncs_assign nests op x (ih.words _) (t.words_legible _) (t.words_ne_nil _))
        (by intros; simp)
  | pre op x => exact .of_body (syncs_pre nests op x) (by intros; simp)
  | post op x => exact .of_body (syncs_post nests op x) (by intros; simp)

end Trees

end Netbase.Ksh.Expr
