import Mathlib.Order.Basic

/-!
# Computations that fail without losing their state

Pre- and postconditions for programs that carry a state and may stop with an error:
both ways out leave a state, and a specification says what holds of either one.
The second half relates two programs run side by side.
-/

namespace Netbase.Lib

variable {ε σ τ α β : Type}

theorem bind_ok {x : EStateM ε σ α} {f : α → EStateM ε σ β} {s s' : σ} {a : α}
    (run : x s = .ok a s') : (x >>= f) s = f a s' := by
  simp only [bind, EStateM.bind, run]

theorem bind_error {x : EStateM ε σ α} {f : α → EStateM ε σ β} {s s' : σ} {e : ε}
    (run : x s = .error e s') : (x >>= f) s = .error e s' := by
  simp only [bind, EStateM.bind, run]

def Holds (good : α → σ → Prop) (bad : ε → σ → Prop) : EStateM.Result ε σ α → Prop
  | .ok a s => good a s
  | .error e s => bad e s

/-- From a state with `before` the program ends with `good`, or stops with `bad`. -/
def Triple (before : σ → Prop) (x : EStateM ε σ α) (good : α → σ → Prop)
    (bad : ε → σ → Prop) : Prop :=
  ∀ s, before s → Holds good bad (x s)

namespace Triple

variable {before : σ → Prop} {x : EStateM ε σ α} {good : α → σ → Prop} {bad : ε → σ → Prop}

theorem pure (a : α) (ready : ∀ s, before s → good a s) :
    Triple before (Pure.pure a : EStateM ε σ α) good bad :=
  fun s holds => ready s holds

theorem bind {f : α → EStateM ε σ β} {after : β → σ → Prop} (first : Triple before x good bad)
    (rest : ∀ a, Triple (good a) (f a) after bad) : Triple before (x >>= f) after bad := by
  intro s holds
  have run := first s holds
  cases result : x s with
  | ok a s' =>
      rw [result] at run
      rw [bind_ok result]
      exact rest a s' run
  | error e s' =>
      rw [result] at run
      rw [bind_error result]
      exact run

/-- The rule for a sequence with its middle condition given. -/
theorem through {f : α → EStateM ε σ β} {after : β → σ → Prop} (middle : α → σ → Prop)
    (first : Triple before x middle bad) (rest : ∀ a, Triple (middle a) (f a) after bad) :
    Triple before (x >>= f) after bad :=
  first.bind rest

theorem weaken {before' : σ → Prop} {good' : α → σ → Prop} {bad' : ε → σ → Prop}
    (triple : Triple before x good bad) (pre : ∀ s, before' s → before s)
    (post : ∀ a s, good a s → good' a s) (fail : ∀ e s, bad e s → bad' e s) :
    Triple before' x good' bad' := by
  intro s holds
  have run := triple s (pre s holds)
  cases result : x s with
  | ok a s' =>
      rw [result] at run
      exact post a s' run
  | error e s' =>
      rw [result] at run
      exact fail e s' run

theorem throw (e : ε) (ready : ∀ s, before s → bad e s) :
    Triple before (MonadExcept.throw e : EStateM ε σ α) good bad :=
  fun s holds => ready s holds

theorem update {f : σ → σ} {after : PUnit → σ → Prop} (ready : ∀ s, before s → after ⟨⟩ (f s)) :
    Triple before (modify f : EStateM ε σ PUnit) after bad :=
  fun s holds => ready s holds

theorem reading {f : σ → EStateM ε σ α}
    (each : ∀ s, before s → Triple (fun s' => s' = s) (f s) good bad) :
    Triple before (get >>= f) good bad :=
  fun s holds => each s holds s rfl

end Triple

/-- The program keeps an invariant, however it ends. -/
def Keeps (invariant : σ → Prop) (x : EStateM ε σ α) : Prop :=
  Triple invariant x (fun _ => invariant) (fun _ => invariant)

namespace Keeps

variable {invariant : σ → Prop} {x : EStateM ε σ α}

theorem pure (a : α) : Keeps invariant (Pure.pure a : EStateM ε σ α) :=
  Triple.pure a fun _ holds => holds

theorem bind {f : α → EStateM ε σ β} (first : Keeps invariant x)
    (rest : ∀ a, Keeps invariant (f a)) : Keeps invariant (x >>= f) :=
  Triple.bind first rest

theorem throw (e : ε) : Keeps invariant (MonadExcept.throw e : EStateM ε σ α) :=
  Triple.throw e fun _ holds => holds

theorem update {f : σ → σ} (kept : ∀ s, invariant s → invariant (f s)) :
    Keeps invariant (modify f : EStateM ε σ PUnit) :=
  fun s holds => kept s holds

theorem read : Keeps invariant (get : EStateM ε σ σ) :=
  fun _ holds => holds

theorem at_state (keeps : Keeps invariant x) {s : σ} (holds : invariant s) :
    Triple (fun s' => s' = s) x (fun _ => invariant) (fun _ => invariant) := by
  rintro s' rfl
  exact keeps s' holds

end Keeps

/-! ## Two runs side by side -/

/-- Two runs have ended in the same way: with results and states in `post`, or with
errors in `fail`.  The world `w` says what corresponded before; it can only grow. -/
@[reducible] def Meets {W : Type} [Preorder W] (w : W) (post : W → α → β → σ → τ → Prop)
    (fail : ε → σ → ε → τ → Prop) (x : EStateM.Result ε σ α) (y : EStateM.Result ε τ β) : Prop :=
  match x, y with
  | .ok a s', .ok b t' => ∃ w', w ≤ w' ∧ post w' a b s' t'
  | .error e s', .error e' t' => fail e s' e' t'
  | _, _ => False

/-- From states with `pre` the two programs end in the same way. -/
def Relates {W : Type} [Preorder W] (w : W) (pre : σ → τ → Prop) (x : EStateM ε σ α)
    (y : EStateM ε τ β) (post : W → α → β → σ → τ → Prop) (fail : ε → σ → ε → τ → Prop) : Prop :=
  ∀ s t, pre s t → Meets w post fail (x s) (y t)

namespace Relates

variable {W : Type} [Preorder W] {w : W} {pre : σ → τ → Prop} {α' β' : Type}
  {x : EStateM ε σ α} {y : EStateM ε τ β} {post : W → α → β → σ → τ → Prop}
  {fail : ε → σ → ε → τ → Prop}

theorem ends (related : Relates w pre x y post fail) {s : σ} {t : τ} (here : pre s t) :
    (∃ a b s' t' w', x s = .ok a s' ∧ y t = .ok b t' ∧ w ≤ w' ∧ post w' a b s' t') ∨
      ∃ e e' s' t', x s = .error e s' ∧ y t = .error e' t' ∧ fail e s' e' t' := by
  have both := related s t here
  cases left : x s with
  | ok a s' =>
      cases right : y t with
      | ok b t' =>
          rw [left, right] at both
          obtain ⟨w', le, after⟩ := both
          exact Or.inl ⟨a, b, s', t', w', rfl, rfl, le, after⟩
      | error e t' =>
          rw [left, right] at both
          exact both.elim
  | error e s' =>
      cases right : y t with
      | ok b t' =>
          rw [left, right] at both
          exact both.elim
      | error e' t' =>
          rw [left, right] at both
          exact Or.inr ⟨e, e', s', t', rfl, rfl, both⟩

theorem bind {f : α → EStateM ε σ α'} {g : β → EStateM ε τ β'}
    {after : W → α' → β' → σ → τ → Prop} (first : Relates w pre x y post fail)
    (rest : ∀ w', w ≤ w' → ∀ a b, Relates w' (post w' a b) (f a) (g b) after fail) :
    Relates w pre (x >>= f) (y >>= g) after fail := by
  intro s t here
  rcases first.ends here with ⟨a, b, s', t', w', left, right, le, between⟩ |
    ⟨e, e', s', t', left, right, failed⟩
  · rw [bind_ok left, bind_ok right]
    rcases (rest w' le a b).ends between with ⟨a', b', s'', t'', w'', left', right', le', done⟩ |
      ⟨e, e', s'', t'', left', right', failed⟩
    · rw [left', right']
      exact ⟨w'', le_trans le le', done⟩
    · rw [left', right']
      exact failed
  · rw [bind_error left, bind_error right]
    exact failed

theorem pure {a : α} {b : β} (ready : ∀ s t, pre s t → post w a b s t) :
    Relates w pre (Pure.pure a : EStateM ε σ α) (Pure.pure b : EStateM ε τ β) post fail :=
  fun s t here => ⟨w, le_refl w, ready s t here⟩

theorem throw {e e' : ε} (ready : ∀ s t, pre s t → fail e s e' t) :
    Relates w pre (MonadExcept.throw e : EStateM ε σ α)
      (MonadExcept.throw e' : EStateM ε τ β) post fail :=
  fun s t here => ready s t here

theorem read {f : σ → EStateM ε σ α} {g : τ → EStateM ε τ β}
    (each : ∀ s t, pre s t →
      Relates w (fun s' t' => s' = s ∧ t' = t) (f s) (g t) post fail) :
    Relates w pre (get >>= f) (get >>= g) post fail :=
  fun s t here => each s t here s t ⟨rfl, rfl⟩

theorem weaken {pre' : σ → τ → Prop} {post' : W → α → β → σ → τ → Prop}
    (related : Relates w pre x y post fail) (before : ∀ s t, pre' s t → pre s t)
    (after : ∀ w', w ≤ w' → ∀ a b s t, post w' a b s t → post' w' a b s t) :
    Relates w pre' x y post' fail := by
  intro s t here
  rcases related.ends (before s t here) with ⟨a, b, s', t', w', left, right, le, done⟩ |
    ⟨e, e', s', t', left, right, failed⟩
  · rw [left, right]
    exact ⟨w', le, after w' le a b s' t' done⟩
  · rw [left, right]
    exact failed

end Relates

end Netbase.Lib
