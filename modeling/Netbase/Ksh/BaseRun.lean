import Netbase.Ksh.TreeEval
import Netbase.Ksh.Climber
import Netbase.Ksh.Base

/-!
# The bases of integer variables in every run

Commands that set variables, one after the other.  As long as no `typeset` is given a
base that the digits do not go up to, every integer variable has a sound base, and
its digits fit the buffer.
-/

namespace Netbase.Ksh.Typeset

open Netbase.Text Netbase.Lib Netbase.Ksh.Expr

/-- A base argument that `typeset` may take over: none, or one the digits go up to. -/
def GoodBase (base : Int) : Prop := base ≤ 0 ∨ Based base

instance (base : Int) : Decidable (GoodBase base) :=
  inferInstanceAs (Decidable (base ≤ 0 ∨ 2 ≤ base ∧ base ≤ 36))

theorem withAttributes_sound {t : Var} (sound : SoundBase t) (bits : Long) (chosen : Bool)
    (set clr : Flag) (field : Int) {base : Int} (good : GoodBase base) :
    SoundBase (withAttributes t bits chosen set clr field base) := by
  intro integer
  unfold withAttributes at integer ⊢
  extract_lets becomes flag type at integer
  extract_lets
  have flagInteger : has flag INTEGER = has t.flag INTEGER := by
    simp only [flag]
    split
    · rw [has_INTEGER_and, has_INTEGER_not, show has ALLOC INTEGER = false from by decide]
      simp
    · rfl
  simp only [has_INTEGER_and, has_INTEGER_or, flagInteger, Bool.and_eq_true, Bool.or_eq_true]
    at integer
  by_cases given : (has set INTEGER && decide (base > 0) && !chosen) = true
  · simp only [given, if_true]
    simp only [Bool.and_eq_true, decide_eq_true_eq] at given
    exact Or.inr (good.resolve_left (by omega))
  · simp only [given, Bool.false_eq_true, if_false, type]
    by_cases was : has t.flag INTEGER = true
    · simp only [becomes, was, Bool.not_true, Bool.false_and, Bool.false_eq_true, if_false]
      exact sound was
    · have now : has set INTEGER = true := integer.1.resolve_left was
      simp [becomes, was, now]

theorem zapped_sound {t : Var} (sound : SoundBase t) : SoundBase (zapped t) := by
  unfold zapped
  split
  · intro _
    exact sound (by assumption)
  · exact soundBase_of_type rfl

theorem copyAttributes_sound {sh : Shell} (sound : SoundBases sh) (n : Name) (vp : Addr) :
    SoundBases (copyAttributes sh n vp) := by
  unfold copyAttributes
  extract_lets v
  split
  · exact sound
  · split
    · exact sound
    · next vq hidden =>
        extract_lets hidden
        refine sound.write vp fun integer => ?_
        by_cases theirs : has hidden.flag INTEGER = true
        · simp only [theirs, if_true]
          exact sound vq theirs
        · simp only [theirs, Bool.false_eq_true, if_false]
          simp only [has_INTEGER_or, has_INTEGER_and, theirs, Bool.false_and, Bool.or_false]
            at integer
          exact sound vp integer

theorem tenter_sound {sh : Shell} (sound : SoundBases sh) (n : Name) :
    SoundBases (tenter sh n).2 := by
  unfold tenter
  split
  · exact sound
  · exact sound.alloc (soundBase_of_type rfl)

section

variable (env : Surroundings)

theorem keeps_of_touches {α : Type} {x : ShellM α} (touches : ∀ sh, Touches sh (leaves x sh)) :
    Keeps SoundBases x := by
  intro sh sound
  have after := sound.touches (touches sh)
  unfold leaves at after
  cases result : x sh with
  | ok a sh' =>
      rw [result] at after
      exact after
  | error stop sh' =>
      rw [result] at after
      exact after

theorem vEvaluate_keeps (vp : Addr) (expr : List Byte) (mode : ErrorMode) :
    Keeps SoundBases (env.vEvaluate vp expr mode) :=
  keeps_of_touches (env.evaluates vp expr mode)

theorem evaluate_keeps (expr : List Byte) (mode : ErrorMode) :
    Keeps SoundBases (evaluate env expr mode) := by
  refine Keeps.bind Keeps.read fun _ => ?_
  refine Keeps.bind (Keeps.update fun _ sound => sound.alloc (soundBase_of_type rfl)) fun _ => ?_
  refine Keeps.bind (vEvaluate_keeps env _ _ _) fun _ => ?_
  exact Keeps.bind Keeps.read fun _ => Keeps.pure _

theorem setstr_keeps (vq : Addr) (s : List Byte) (mode : ErrorMode) (noRoCheck : Bool) :
    Keeps SoundBases (setstr env vq s mode noRoCheck) := by
  refine Triple.reading fun sh sound => ?_
  by_cases readOnly : (has (sh.cell vq).flag RDONLY && !noRoCheck) = true
  · rw [if_pos readOnly]
    cases mode with
    | KSH_UNWIND_ERROR => exact (Keeps.throw _).at_state sound
    | KSH_RETURN_ERROR => exact (Keeps.pure _).at_state sound
  rw [if_neg readOnly]
  by_cases integer : has (sh.cell vq).flag INTEGER = true
  · rw [if_pos integer]
    refine Keeps.at_state ?_ sound
    refine Keeps.bind (vEvaluate_keeps env _ _ _) fun ok => ?_
    cases ok with
    | true =>
        exact Keeps.bind (Keeps.update fun _ sound => sound.setFlag vq (by decide))
          fun _ => Keeps.pure _
    | false => exact Keeps.pure _
  · rw [if_neg integer]
    refine Triple.through (fun _ => SoundBases) ?_ fun _ => Keeps.pure _
    rintro sh' rfl
    exact sound.storeText s (by simpa using integer)

theorem arrayIndexCalc_keeps (n : List Byte) : Keeps SoundBases (arrayIndexCalc env n) := by
  unfold arrayIndexCalc
  extract_lets p len
  split
  · refine Keeps.bind (keeps_of_touches (env.substitutes _)) fun sub => ?_
    refine Keeps.bind (evaluate_keeps env sub _) fun found => ?_
    dsimp only
    split
    · exact Keeps.throw _
    · exact Keeps.pure _
  · exact Keeps.pure _

theorem globalRef_keeps (n : List Byte) : Keeps SoundBases (globalRef env n) := by
  refine Keeps.bind (arrayIndexCalc_keeps env n) fun named => ?_
  refine Keeps.bind Keeps.read fun _ => Keeps.bind Keeps.read fun _ => ?_
  refine Keeps.bind (Keeps.update fun _ sound => sound.global _) fun _ => ?_
  split
  · exact Keeps.pure _
  · refine Keeps.bind Keeps.read fun _ => ?_
    refine Keeps.bind (Keeps.update fun _ sound => sound.arraysearch _ _) fun _ => ?_
    split
    · exact Keeps.pure _
    · exact Keeps.bind (Keeps.update fun _ sound => sound.setFlag _ (by decide))
        fun _ => Keeps.pure _

theorem localRef_keeps (n : List Byte) (copy : Bool) : Keeps SoundBases (localRef env n copy) := by
  refine Keeps.bind (arrayIndexCalc_keeps env n) fun named => ?_
  refine Keeps.bind Keeps.read fun _ => ?_
  refine Keeps.bind (Keeps.update fun _ sound => tenter_sound sound _) fun _ => ?_
  refine Keeps.bind (Keeps.update fun _ sound => ?_) fun _ => ?_
  · split
    · exact copyAttributes_sound sound _ _
    · exact sound
  split
  · exact Keeps.bind (Keeps.update fun _ sound => sound.setFlag _ (by decide)) fun _ => Keeps.pure _
  · refine Keeps.bind Keeps.read fun _ => ?_
    refine Keeps.bind (Keeps.update fun _ sound => sound.arraysearch _ _) fun _ => ?_
    exact Keeps.bind (Keeps.update fun _ sound => sound.setFlag _ (by decide)) fun _ => Keeps.pure _

section Attributes

variable (set clr : Flag) (field : Int) {base : Int} (good : GoodBase base)

include good

theorem setAttributes_keeps (t : Addr) (chosen : Bool) :
    Keeps SoundBases (setAttributes env t chosen set clr field base) := by
  refine Triple.reading fun sh sound => ?_
  have changed := withAttributes_sound (sound t) (env.pointer t) chosen set clr field good
  by_cases again : fakeAssign (sh.cell t) chosen set clr = true
  · simp only [again, if_true]
    split
    · exact (Keeps.throw _).at_state sound
    · refine Keeps.at_state ?_ sound
      refine Keeps.bind (Keeps.update fun _ sound => sound.write t changed) fun _ => ?_
      refine Keeps.bind (setstr_keeps env t _ _ _) fun ok => ?_
      cases ok with
      | true => exact Keeps.pure _
      | false =>
          exact Keeps.bind (Keeps.update fun _ sound => sound.write t (zapped_sound (sound t)))
            fun _ => Keeps.pure _
  · simp only [again, Bool.false_eq_true, if_false]
    exact Keeps.at_state (Keeps.bind (Keeps.update fun _ sound => sound.write t changed)
      fun _ => Keeps.pure _) sound

theorem attributesLoop_keeps (vp : Addr) (given : Bool) (fuel : Nat) :
    ∀ t ok, Keeps SoundBases (attributesLoop env vp given set clr field base fuel t ok) := by
  induction fuel with
  | zero =>
      intro t ok
      cases t with
      | none => exact Keeps.pure _
      | some t => exact Keeps.throw _
  | succ fuel ih =>
      intro t ok
      cases t with
      | none => exact Keeps.pure _
      | some t =>
          refine Keeps.bind (setAttributes_keeps env set clr field good t _) fun fine => ?_
          exact Keeps.bind Keeps.read fun sh => ih _ _

end Attributes

theorem assignValue_keeps (vp : Addr) {base : Int} (good : GoodBase base)
    (val : Option (List Byte)) : Keeps SoundBases (assignValue env vp base val) := by
  cases val with
  | none => exact Keeps.pure _
  | some val =>
      refine Keeps.bind Keeps.read fun sh => ?_
      split
      · refine Keeps.bind (setstr_keeps env vp val _ _) fun _ => ?_
        refine Keeps.update fun sh sound => ?_
        split
        · exact sound.write vp fun _ => Or.inr (good.resolve_left (by omega))
        · exact sound
      · exact Keeps.bind (setstr_keeps env vp val _ _) fun _ => Keeps.pure _

theorem exportBase_sound {sh : Shell} (sound : SoundBases sh) (vpbase : Addr) :
    SoundBases (exportBase sh vpbase) := by
  unfold exportBase
  extract_lets v
  split
  · next exported =>
      simp only [Bool.and_eq_true, Bool.not_eq_true'] at exported
      refine sound.write vpbase fun integer => absurd integer ?_
      simp only [has_INTEGER_or, exported.1.2, v]
      decide
  · exact sound

theorem typesetTarget_keeps (tvar : List Byte) (set : Flag) :
    Keeps SoundBases (typesetTarget env tvar set) := by
  unfold typesetTarget
  split
  · exact localRef_keeps env tvar _
  · exact globalRef_keeps env tvar

theorem typesetBase_keeps (var : List Byte) (vp : Addr) :
    Keeps SoundBases (typesetBase env var vp) := by
  refine Keeps.bind Keeps.read fun _ => ?_
  split
  · exact globalRef_keeps env _
  · exact Keeps.pure _

theorem setAllAttributes_keeps (vp vpbase : Addr) (given : Bool) (set clr : Flag) (field : Int)
    {base : Int} (good : GoodBase base) :
    Keeps SoundBases (setAllAttributes env vp vpbase given set clr field base) := by
  unfold setAllAttributes
  split
  · exact attributesLoop_keeps env set clr field good vp _ _ _ _
  · exact Keeps.pure _

theorem typesetVar_keeps (var tvar : List Byte) (val : Option (List Byte)) (set clr : Flag)
    (field : Int) {base : Int} (good : GoodBase base) :
    Keeps SoundBases (typesetVar env var tvar val set clr field base) := by
  unfold typesetVar
  split
  · exact Keeps.throw _
  refine Keeps.bind (typesetTarget_keeps env tvar set) fun vp => ?_
  refine Keeps.bind (typesetBase_keeps env var vp) fun vpbase => ?_
  extract_lets kept
  refine Keeps.bind Keeps.read fun _ => ?_
  split
  · exact Keeps.throw _
  refine Keeps.bind (setAllAttributes_keeps env vp vpbase _ _ clr field good) fun ok => ?_
  cases ok with
  | true =>
      refine Keeps.bind (assignValue_keeps env vp good val) fun _ => ?_
      exact Keeps.bind (Keeps.update fun _ sound => exportBase_sound sound vpbase)
        fun _ => Keeps.pure _
  | false => exact Keeps.throw _

theorem typeset_keeps (var : List Byte) (set clr : Flag) (field : Int) {base : Int}
    (good : GoodBase base) : Keeps SoundBases (typeset env var set clr field base) := by
  unfold typeset
  split
  · exact Keeps.pure _
  · exact Keeps.bind (typesetVar_keeps env _ _ _ _ _ _ good) fun _ => Keeps.pure _

end

/-! ## The evaluator -/

section Evaluator

variable {start : Shell}

/-- The shell comes from the first one by touches. -/
def Touched (start : Shell) (s : Expr.State) : Prop := Touches start s.shell

/-- Where an evaluation stops, too; and with sound bases no digits overrun their buffer. -/
def TouchedStop (start : Shell) (e : Stop) (s : Expr.State) : Prop :=
  Touches start s.shell ∧ (SoundBases start → e ≠ .overrun)

abbrev Touching {α : Type} (start : Shell) (x : ExprM α) : Prop :=
  Retains (Touched start) (TouchedStop start) x

theorem touching_pure {α : Type} (a : α) : Touching start (pure a : ExprM α) :=
  Triple.pure a fun _ touched => touched

theorem touching_throw {α : Type} {e : Stop} (other : e ≠ .overrun) :
    Touching start (throw e : ExprM α) :=
  Triple.throw e fun _ touched => ⟨touched, fun _ => other⟩

theorem touching_evalerr {α : Type} (type : ErrorType) (str : List Byte) :
    Touching start (evalerr type str : ExprM α) :=
  fun _ touched => ⟨touched, fun _ => by simp⟩

theorem touching_onShell {f : Shell → Shell} (step : ∀ sh, Touch sh (f sh)) :
    Touching start (onShell f) :=
  fun s touched => touched.tail (step s.shell)

theorem touching_onState (f : ExprState → ExprState) : Touching start (onState f) :=
  fun _ touched => touched

theorem touching_read {α : Type} {f : Expr.State → ExprM α} (each : ∀ s, Touching start (f s)) :
    Touching start (get >>= f) :=
  fun s touched => each s s touched

theorem touching_cellAt {α : Type} (p : Addr) {f : Var → ExprM α}
    (each : ∀ v, Touching start (f v)) : Touching start (cellAt p >>= f) :=
  fun s touched => each (s.shell.cell p) s touched

theorem allocate_touching (flag : Flag) (val : Value) :
    Triple (Touched start) (allocate (temporary flag val))
      (fun p s => Touched start s ∧ (s.shell.cell p).type = 0) (TouchedStop start) := by
  intro s touched
  refine ⟨touched.tail (Touch.alloc s.shell flag val), ?_⟩
  simp [Shell.alloc, Shell.write, temporary]

theorem allocate_keeps (flag : Flag) (val : Value) :
    Touching start (allocate (temporary flag val)) :=
  (allocate_touching flag val).weaken (fun _ touched => touched) (fun _ _ after => after.1)
    fun _ _ stopped => stopped

theorem litToken_touching (text : List Byte) : Touching start (litToken text) := by
  unfold litToken
  extract_lets tvar
  refine Triple.bind (allocate_touching ISSET (.s tvar)) fun p => ?_
  refine Triple.through (fun _ s => Touched start s ∧ (s.shell.cell p).type = 0)
    (Triple.update fun _ after => after) fun _ => ?_
  refine Triple.reading fun s after => ?_
  split
  · rintro s' rfl
    exact touching_evalerr _ _ s' after.1
  · next sh stored =>
      rintro s' rfl
      exact after.1.tail (Touch.setintV (Or.inr after.2) stored)

theorem varToken_touching (text : List Byte) : Touching start (varToken text) := by
  unfold varToken
  extract_lets after len
  split
  · exact touching_evalerr _ _
  refine touching_read fun s => ?_
  split
  · exact Triple.bind (allocate_keeps _ _) fun p => touching_onState _
  split
  · exact touching_throw (by simp)
  refine Triple.reading fun s touched => ?_
  extract_lets found
  rintro s' rfl
  exact touched.tail (Touch.global s'.shell _)

theorem token_touching : Touching start token := by
  refine touching_read fun s => ?_
  split
  · exact touching_throw (by simp)
  split
  · exact touching_onState _
  split
  · exact varToken_touching _
  split
  · exact litToken_touching _
  · unfold opToken
    split
    · exact touching_onState _
    · exact touching_onState _

/-- A variable is evaluated by touches. -/
def NestedTouches (start : Shell) (nested : Nested) : Prop :=
  ∀ vp vq, Touching start (nested vp vq)

theorem intvar_touching {nested : Nested} (nests : NestedTouches start nested) (vp : Addr) :
    Touching start (intvar nested vp) := by
  refine touching_cellAt vp fun v => ?_
  split
  · exact touching_pure vp
  refine Triple.bind (allocate_touching (ISSET ||| INTEGER) (.i 0)) fun vq => ?_
  refine Triple.reading fun s after => ?_
  split
  · next sh stored =>
      rintro s' rfl
      exact after.1.tail (Touch.setintV (Or.inr after.2) stored)
  · rintro s' rfl
    exact Triple.bind (nests vp vq) (fun _ => touching_pure vq) s' after.1

theorem setNumber_touching (p : Addr) (n : Long) : Touching start (setNumber p n) :=
  touching_onShell fun sh => Touch.number sh p n

theorem assignCheck_touching (op : Token) (p : Addr) : Touching start (assignCheck op p) := by
  refine touching_cellAt p fun v => ?_
  split
  · exact touching_evalerr _ _
  split
  · exact touching_evalerr _ _
  · exact touching_pure _

/-- An integer variable takes a number over, if there is one. -/
theorem setintV_touches {sh : Shell} {vq : Addr} (integer : has (sh.cell vq).flag INTEGER = true)
    (vp : Addr) : Touches sh ((setintV sh vq vp).getD sh) := by
  cases stored : setintV sh vq vp with
  | none => exact Relation.ReflTransGen.refl
  | some sh' => exact Relation.ReflTransGen.single (Touch.setintV (Or.inl integer) stored)

theorem storeNumber_touching (vasn vr : Addr) : Touching start (storeNumber vasn vr) := by
  intro s touched
  unfold storeNumber
  by_cases integer : has (s.shell.cell vasn).flag INTEGER = true
  · rw [bind_ok (cellAt_run vasn s), if_pos integer]
    exact touched.trans (setintV_touches integer vr)
  · rw [bind_ok (cellAt_run vasn s), if_neg integer, bind_ok (numberAt_run vr s)]
    exact touched.tail (Touch.setint s.shell vasn _)

theorem storeResult_touching (vp : Addr) (mode : ErrorMode) (v : Addr) :
    Touching start (storeResult vp v mode) := by
  intro s touched
  unfold storeResult
  by_cases integer : has (s.shell.cell vp).flag INTEGER = true
  · rw [bind_ok (cellAt_run vp s), if_pos integer]
    exact touched.trans (setintV_touches integer v)
  rw [bind_ok (cellAt_run vp s), if_neg integer, bind_ok (cellAt_run v s)]
  cases shown : strVal (s.shell.cell v) with
  | none =>
      refine ⟨touched, fun sound => ?_⟩
      obtain ⟨s', fits, _⟩ := strVal_fits (sound.touches touched v)
      rw [shown] at fits
      cases fits
  | some text =>
      simp only
      rw [bind_ok (cellAt_run vp s)]
      split
      · split
        · exact touching_throw (by simp) s touched
        · exact touching_pure _ s touched
      · exact touched.tail (Touch.storeText s.shell text (by simpa using integer))

theorem upholds_touched {nested : Nested} (nests : NestedTouches start nested) :
    Upholds (Touched start) (TouchedStop start) nested where
  token := token_touching
  intvar := intvar_touching nests
  setNumber := setNumber_touching
  assignCheck := assignCheck_touching
  storeNumber := storeNumber_touching
  hold := fun _ => touching_onState _
  allow := fun _ => touching_onState _
  evalerr := fun _ _ touched => ⟨touched, fun _ => by simp⟩
  trap := fun touched => ⟨touched, fun _ => by simp⟩
  endless := fun touched => ⟨touched, fun _ => by simp⟩

def Evaluates (start : Shell) (x : ShellM Bool) : Prop :=
  Triple (Touches start) x (fun _ => Touches start)
    fun e sh => Touches start sh ∧ (SoundBases start → e ≠ .overrun)

theorem nestedWith_touches {vEvaluate : Addr → List Byte → Option (Addr × Nat) → ErrorMode →
      ShellM Bool}
    (evaluates : ∀ vp expr owner mode, Evaluates start (vEvaluate vp expr owner mode)) :
    NestedTouches start (nestedWith vEvaluate) := by
  intro vp vq
  refine Triple.through (fun v s => Touched start s ∧ v = s.shell.cell vp)
    (fun s touched => ⟨touched, rfl⟩) fun v => ?_
  by_cases marked : has v.flag EXPRINEVAL = true
  · rw [if_pos marked]
    exact (touching_evalerr _ _).weaken (fun _ after => after.1) (fun _ _ done => done)
      fun _ _ done => done
  rw [if_neg marked]
  refine Triple.through (fun _ s => Touched start s ∧ v = s.shell.cell vp)
    (Triple.update fun _ after => after) fun _ => ?_
  rintro s ⟨touched, rfl⟩
  rw [bind_ok (onShell_run _ s)]
  have marking := touched.tail (Touch.mark s.shell vp)
  cases shown : strVal (s.shell.cell vp) with
  | none =>
      refine ⟨marking, fun sound => ?_⟩
      obtain ⟨s', fits, _⟩ := strVal_fits (sound.touches touched vp)
      rw [shown] at fits
      cases fits
  | some text =>
      simp only
      have inner := evaluates vq text (some (vp, (s.shell.cell vp).stored)) .KSH_UNWIND_ERROR _
        marking
      refine @Triple.through _ _ _ _ (fun s' => s' = { s with shell := s.shell.setFlag vp EXPRINEVAL })
        (inShell _) _ _ _ (fun _ => Touched start) ?_ (fun _ => ?_) _ rfl
      · rintro s' rfl
        unfold inShell
        dsimp only
        cases result : vEvaluate vq text (some (vp, (s.shell.cell vp).stored)) .KSH_UNWIND_ERROR
            (s.shell.setFlag vp EXPRINEVAL) with
        | ok a sh =>
            rw [result] at inner
            exact inner
        | error e sh =>
            rw [result] at inner
            exact inner
      · exact Triple.bind (touching_onShell fun sh => Touch.unmark sh vp) fun _ =>
          touching_onState _

theorem handled_evaluates {x : ExprM Unit} (touching : Touching start x) (es : ExprState)
    (mode : ErrorMode) : Evaluates start (handled x es mode) := by
  intro sh touched
  have run := touching ⟨sh, es⟩ touched
  unfold handled
  cases result : x ⟨sh, es⟩ with
  | ok a s =>
      rw [result] at run
      exact run
  | error stop s =>
      rw [result] at run
      obtain ⟨after, fits⟩ := run
      have clear : ∀ p, Touches start (s.shell.clearFlag p EXPRINEVAL) :=
        fun p => after.tail (Touch.unmark s.shell p)
      cases stop with
      | evalerr type expression str =>
          cases mode with
          | KSH_UNWIND_ERROR =>
              refine ⟨?_, fun _ => by simp⟩
              cases s.es.evaling with
              | none => exact after
              | some p => exact clear p
          | KSH_RETURN_ERROR =>
              change Touches start _
              cases s.es.evaling with
              | none => exact after
              | some p => exact clear p
      | unwound =>
          refine ⟨?_, fun _ => by simp⟩
          cases s.es.evaling with
          | none => exact after
          | some p => exact clear p
      | trap => exact ⟨after, fits⟩
      | dangling => exact ⟨after, fits⟩
      | overrun => exact ⟨after, fits⟩
      | subscript => exact ⟨after, fits⟩
      | endless => exact ⟨after, fits⟩

theorem vEvaluate_evaluates (depth : Nat) :
    ∀ vp expr owner mode, Evaluates start (vEvaluate depth vp expr owner mode) := by
  induction depth with
  | zero => exact fun _ _ _ _ _ touched => ⟨touched, fun _ => by simp⟩
  | succ depth ih =>
      intro vp expr owner mode
      refine handled_evaluates ?_ _ mode
      exact evaluation_retains (upholds_touched (nestedWith_touches ih)) (allocate_keeps _ _)
        (fun _ => touching_onState _) (storeResult_touching vp mode) expr

theorem vEvaluate_touches (depth : Nat) (vp : Addr) (expr : List Byte)
    (owner : Option (Addr × Nat)) (mode : ErrorMode) (sh : Shell) :
    Touches sh (leaves (vEvaluate depth vp expr owner mode) sh) := by
  have run := vEvaluate_evaluates depth vp expr owner mode sh
    (Relation.ReflTransGen.refl : Touches sh sh)
  unfold leaves
  cases result : vEvaluate depth vp expr owner mode sh with
  | ok a sh' =>
      rw [result] at run
      exact run
  | error e sh' =>
      rw [result] at run
      exact run.1

/-- The evaluator of expressions, with texts that need no expansion. -/
def plainSurroundings (depth : Nat) : Surroundings where
  vEvaluate := fun vp expr mode => vEvaluate depth vp expr none mode
  substitute := fun cp => pure cp
  pointer := fun p => BitVec.ofNat 64 p
  restricted := false
  evaluates := fun vp expr mode sh => vEvaluate_touches depth vp expr none mode sh
  substitutes := fun _ _ => Relation.ReflTransGen.refl

end Evaluator

/-! ## Commands -/

/-- What sets variables: `typeset` and its kin, the assignments before a command, what
reads words into a variable or counts in one, arithmetic, and function calls with blocks
of their own. -/
inductive Command where
  | typeset (command : Byte) (opts : List Opt) (names : List (List Byte))
  | assign (typeFlags : Flag) (var : List Byte)
  | setstr (name text : List Byte) (mode : ErrorMode)
  | setint (name : List Byte) (n : Long)
  | evaluate (expr : List Byte) (mode : ErrorMode)
  | newblock
  | popblock
  deriving Repr, DecidableEq

section Runs

variable (env : Surroundings)

/-- The outermost block stays. -/
def popped : List (List (Name × Addr)) → List (List (Name × Addr))
  | [] => []
  | [vars] => [vars]
  | _ :: rest => rest

def Command.run : Command → ShellM Unit
  | .typeset command opts names => do
      let _ ← cTypeset env command opts names
      return ()
  | .assign typeFlags var => do
      let _ ← Typeset.typeset env var typeFlags 0 0 0
      return ()
  | .setstr name text mode => do
      let _ ← Typeset.setstr env (← globalRef env name) text mode false
      return ()
  | .setint name n => do
      let vp ← globalRef env name
      modify fun sh => Expr.setint sh vp n
  | .evaluate expr mode => do
      let _ ← Typeset.evaluate env expr mode
      return ()
  | .newblock => modify fun sh => { sh with blocks := [] :: sh.blocks }
  | .popblock => modify fun sh => { sh with blocks := popped sh.blocks }

/-- The shell after the commands; one that fails leaves what it has done. -/
def runAll (commands : List Command) (sh : Shell) : Shell :=
  commands.foldl (fun sh c => leaves (c.run env) sh) sh

/-- The shell before the first variable is entered. -/
def firstShell : Shell where
  next := 0
  cell := fun _ => freshVar []
  blocks := [[]]

/-- The base argument of a command is none, or one the digits go up to. -/
def Command.GoodBase : Command → Prop
  | .typeset command opts _ =>
      ∀ base, optionNumber (parseOptions command opts).basestr = some base → Typeset.GoodBase base
  | _ => True

theorem typesetAll_keeps (set clr : Flag) (field : Int) {base : Int}
    (good : Typeset.GoodBase base) (names : List (List Byte)) :
    Keeps SoundBases (typesetAll env set clr field base names) := by
  induction names with
  | nil => exact Keeps.pure _
  | cons var rest ih =>
      refine Keeps.bind (typeset_keeps env var set clr field good) fun found => ?_
      cases found with
      | none => exact Keeps.pure _
      | some _ => exact ih

theorem cTypeset_keeps (command : Byte) (opts : List Opt) (names : List (List Byte))
    (good : (Command.typeset command opts names).GoodBase) :
    Keeps SoundBases (cTypeset env command opts names) := by
  unfold cTypeset
  extract_lets o
  split
  · next field base _ number =>
      split
      · exact Keeps.pure _
      · exact typesetAll_keeps env _ _ field (good base number) names
  · exact Keeps.pure _

theorem Command.run_keeps (c : Command) (good : c.GoodBase) :
    Keeps SoundBases (c.run env) := by
  cases c with
  | typeset command opts names =>
      exact Keeps.bind (cTypeset_keeps env command opts names good) fun _ => Keeps.pure _
  | assign typeFlags var =>
      exact Keeps.bind (typeset_keeps env var typeFlags 0 0 (Or.inl (Int.le_refl 0))) fun _ => Keeps.pure _
  | setstr name text mode =>
      refine Keeps.bind (globalRef_keeps env name) fun vp => ?_
      exact Keeps.bind (setstr_keeps env vp text mode false) fun _ => Keeps.pure _
  | setint name n =>
      refine Keeps.bind (globalRef_keeps env name) fun vp => ?_
      exact Keeps.update fun _ sound => sound.setint vp n
  | evaluate expr mode =>
      exact Keeps.bind (evaluate_keeps env expr mode) fun _ => Keeps.pure _
  | newblock => exact Keeps.update fun _ sound => sound
  | popblock => exact Keeps.update fun _ sound => sound

theorem leaves_of_keeps {α : Type} {x : ShellM α} (keeps : Keeps SoundBases x) {sh : Shell}
    (sound : SoundBases sh) : SoundBases (leaves x sh) := by
  have run := keeps sh sound
  unfold leaves
  cases result : x sh with
  | ok a sh' =>
      rw [result] at run
      exact run
  | error stop sh' =>
      rw [result] at run
      exact run

theorem runAll_sound (commands : List Command) (good : ∀ c ∈ commands, c.GoodBase) :
    ∀ {sh}, SoundBases sh → SoundBases (runAll env commands sh) := by
  induction commands with
  | nil => exact fun sound => sound
  | cons c rest ih =>
      intro sh sound
      have first := leaves_of_keeps (c.run_keeps env (good c (by simp))) sound
      exact ih (fun d membership => good d (by simp [membership])) first

theorem firstShell_sound : SoundBases firstShell := fun _ => soundBase_of_type rfl

/-- The base of an integer variable is none or in range, and its digits end within the
buffer. -/
def BaseFits (v : Var) : Prop :=
  has v.flag INTEGER = true →
    (v.type = 0 ∨ 2 ≤ v.type ∧ v.type ≤ 36) ∧ ∃ s, strVal v = some s ∧ s.length < strbufSize

/-- In every run whose base arguments are none or in range, every integer variable has a
base that `str_val` can show. -/
theorem runAll_baseFits (commands : List Command) (good : ∀ c ∈ commands, c.GoodBase) (p : Addr) :
    BaseFits ((runAll env commands firstShell).cell p) := by
  intro integer
  have sound := runAll_sound env commands good firstShell_sound p
  obtain ⟨s, shown, fits⟩ := strVal_fits sound
  exact ⟨sound integer, s, shown, fits integer⟩

end Runs

/-- `typeset -i` with a base argument, and a variable with a value. -/
def typesetBaseOf (base : List Byte) : Command :=
  .typeset (byte 't') [⟨byte 'i', false, some base⟩] [ascii ['x', '=', '5']]

theorem runAll_baseFits_sixteen :
    BaseFits ((runAll (plainSurroundings 1) [typesetBaseOf (ascii ['1', '6'])] firstShell).cell 0) :=
  runAll_baseFits (plainSurroundings 1) [typesetBaseOf (ascii ['1', '6'])]
    (by
      intro c membership
      rw [List.mem_singleton.mp membership]
      intro base number
      have sixteen : base = 16 := by
        refine Option.some.inj (number.symm.trans ?_)
        decide
      rw [sixteen]
      decide) 0

/-- `typeset -i1 x=5` leaves an integer variable whose digits do not end. -/
theorem typeset_base_one :
    ¬BaseFits ((runAll (plainSurroundings 1) [typesetBaseOf (ascii ['1'])] firstShell).cell 0) := by
  intro fits
  have integer : has ((runAll (plainSurroundings 1) [typesetBaseOf (ascii ['1'])]
      firstShell).cell 0).flag INTEGER = true := by decide +kernel
  have one : ((runAll (plainSurroundings 1) [typesetBaseOf (ascii ['1'])]
      firstShell).cell 0).type = 1 := by decide +kernel
  have bounds := (fits integer).1
  rw [one] at bounds
  omega

end Netbase.Ksh.Typeset
