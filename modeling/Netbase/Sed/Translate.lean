import Mathlib.Data.Fintype.Card
import Mathlib.Data.List.Nodup
import Mathlib.Logic.Function.Basic
import Netbase.Lib.Outcome
import Netbase.Sed.Delimited
import Netbase.Text.Decimal

/-!
# Translating characters

`compile_tr` makes a table of the operands of the `y` command and `do_tr` runs the pattern space
through it.  The table is made and applied in two ways, which depends on the locale.
-/

namespace Netbase.Sed

open Netbase.Text Netbase.Lib

/-! ## The table -/

/-- What the locale knows of its encoding, with the shift states of `mbrlen`. -/
structure Encoding (σ : Type) where
  mbCurMax : Nat
  initial : σ
  mbrlen : σ → List Byte → Option (Nat × σ)
  btowc : Byte → Bool
  isspace : Byte → Bool
  mbrlen_le : ∀ {st s n st'}, s ≠ [] → mbrlen st s = some (n, st') →
    0 < n ∧ n ≤ s.length ∧ n ≤ mbCurMax

/-- `s_tr.multis` -/
structure Multi where
  fromText : List Byte
  toText : List Byte
  fromText_ne : fromText ≠ []

/-- `s_tr` -/
structure Trans where
  bytetab : Byte → Byte
  multis : List Multi

/-- `_POSIX2_LINE_MAX` -/
def lineMax : Nat := 2048

/-- A string that is read into its buffer, of which the last byte is for the end. -/
def operand (unterminated : Complaint) (p : List Byte) :
    Except Complaint (List Byte × List Byte) := do
  match ← compileDelimited true p with
  | none => .error unterminated
  | some (d, p) => if lineMax < d.length then .error .outside else .ok (d, p)

namespace Encoding

variable {σ : Type} (e : Encoding σ)

/-- `mbsrtowcs` into no buffer: the number of characters. -/
def mbsrtowcs (st : σ) (s : List Byte) : Option Nat :=
  match s with
  | [] => some 0
  | b :: s =>
      match _read : e.mbrlen st (b :: s) with
      | none => none
      | some (n, st') => (mbsrtowcs st' ((b :: s).drop n)).map (· + 1)
termination_by s.length
decreasing_by
  have positive := (e.mbrlen_le (List.cons_ne_nil b s) _read).1
  simp only [List.length_drop, List.length_cons]
  omega

/-- The loop of `compile_tr` for multibyte encodings. -/
def trLoop (mbs1 mbs2 : σ) (op np : List Byte) (y : Trans) : Except Complaint Trans :=
  match op with
  | [] => .ok y
  | b :: op =>
      match _read : e.mbrlen mbs1 (b :: op), e.mbrlen mbs2 np with
      | none, _ => .error .illegalSequence
      | some _, none => .error .illegalSequence
      | some (oclen, mbs1'), some (nclen, mbs2') =>
          if oclen = 1 ∧ nclen = 1 then
            trLoop mbs1' mbs2' ((b :: op).drop oclen) (np.drop nclen)
              { y with bytetab := Function.update y.bytetab b (np.headD 0) }
          else
            trLoop mbs1' mbs2' ((b :: op).drop oclen) (np.drop nclen)
              { bytetab := Function.update y.bytetab b 0
                multis := y.multis ++
                  [{ fromText := (b :: op).take oclen
                     toText := np.take nclen
                     fromText_ne := by
                       have positive := (e.mbrlen_le (List.cons_ne_nil b op) _read).1
                       rw [Ne, List.take_eq_nil_iff]
                       rintro (none_ | none_)
                       · omega
                       · cases none_ }] }
termination_by op.length
decreasing_by
  all_goals
    have positive := (e.mbrlen_le (List.cons_ne_nil b op) _read).1
    simp only [List.length_drop, List.length_cons]
    omega

/-- Pairs are entered into a table one after the other. -/
def enter (tab : Byte → Byte) (pairs : List (Byte × Byte)) : Byte → Byte :=
  pairs.foldl (fun tab pair => Function.update tab pair.1 pair.2) tab

/-- The table of `compile_tr` for operands with the same number of characters. -/
def table (old new : List Byte) : Except Complaint Trans :=
  if e.mbCurMax = 1 then .ok ⟨enter id (old.zip new), []⟩
  else e.trLoop e.initial e.initial old new ⟨fun b => if e.btowc b then b else 0, []⟩

/-- `compile_tr` -/
def compileTr : List Byte → Except Complaint (Trans × List Byte)
  | [] => .error .patternDelimiter
  | c :: p =>
      if c = byte '\\' then .error .patternDelimiter
      else do
        let (old, p) ← operand .unterminatedSource (c :: p)
        let (new, p) ← operand .unterminatedTarget (c :: p)
        let p := p.dropWhile e.isspace
        match e.mbsrtowcs e.initial old, e.mbsrtowcs e.initial new with
        | none, _ => .error .illegalSequence
        | some _, none => .error .illegalSequence
        | some oldlen, some newlen =>
            if newlen ≠ oldlen then .error .notTheSameLength
            else do
              let y ← e.table old new
              .ok (y, p)

/-- The loop of `do_tr` for multibyte encodings. -/
def trText (y : Trans) (s : List Byte) : List Byte :=
  match s with
  | [] => []
  | b :: s =>
      if y.bytetab b ≠ 0 then y.bytetab b :: trText y s
      else
        match y.multis.find? fun multi => multi.fromText.isPrefixOf (b :: s) with
        | some multi => multi.toText ++ trText y ((b :: s).drop multi.fromText.length)
        | none => b :: trText y s
termination_by s.length
decreasing_by
  · exact Nat.lt_succ_self _
  · have positive := List.length_pos_iff.mpr multi.fromText_ne
    simp only [List.length_drop, List.length_cons]
    omega
  · exact Nat.lt_succ_self _

/-- `do_tr` -/
def doTr (y : Trans) (s : List Byte) : List Byte :=
  if e.mbCurMax = 1 then s.map y.bytetab else trText y s

end Encoding
/-! ## What the table does -/

/-- The character that stands for another one. -/
def partner (x y : List Byte) (b : Byte) : Byte := ((x.zip y).lookup b).getD b

namespace Encoding

section

variable {σ : Type} (e : Encoding σ)

/-- A byte is a character wherever it stands. -/
def SingleByte (b : Byte) : Prop := ∀ s, e.mbrlen e.initial (b :: s) = some (1, e.initial)

theorem enter_cases (pairs : List (Byte × Byte)) (b : Byte) :
    (∀ tab, enter tab pairs b = tab b) ∨ ∃ n ∈ pairs.map Prod.snd, ∀ tab, enter tab pairs b = n := by
  induction pairs with
  | nil => exact .inl fun _ => rfl
  | cons pair pairs ih =>
      rcases ih with untouched | ⟨n, member, entered⟩
      · by_cases same : b = pair.1
        · refine .inr ⟨pair.2, List.mem_cons_self .., fun tab => ?_⟩
          have now := untouched (Function.update tab pair.1 pair.2)
          rw [same, Function.update_self] at now
          rw [same]
          exact now
        · refine .inl fun tab => ?_
          have now := untouched (Function.update tab pair.1 pair.2)
          rwa [Function.update_of_ne same] at now
      · exact .inr ⟨n, List.mem_cons_of_mem _ member, fun tab => entered _⟩

variable {e}

theorem mbsrtowcs_single {s : List Byte} (single : ∀ b ∈ s, e.SingleByte b) :
    e.mbsrtowcs e.initial s = some s.length := by
  induction s with
  | nil => rw [mbsrtowcs]; rfl
  | cons b s ih =>
      have one := single b (List.mem_cons_self ..) s
      rw [mbsrtowcs]
      split
      · next none_ => cases none_.symm.trans one
      · next found =>
          cases found.symm.trans one
          rw [List.drop_one, List.tail_cons, ih fun b member => single b (List.mem_cons_of_mem _ member)]
          rfl

theorem trLoop_single {op : List Byte} :
    ∀ {np : List Byte} (y : Trans), (∀ b ∈ op, e.SingleByte b) → (∀ b ∈ np, e.SingleByte b) →
      op.length = np.length →
        e.trLoop e.initial e.initial op np y =
          .ok { y with bytetab := enter y.bytetab (op.zip np) } := by
  induction op with
  | nil =>
      intro np y _ _ _
      rw [trLoop]
      rfl
  | cons b op ih =>
      intro np y single single' same
      cases np with
      | nil => cases same
      | cons b' np =>
          have one := single b (List.mem_cons_self ..) op
          have one' := single' b' (List.mem_cons_self ..) np
          rw [trLoop]
          split
          · next none_ => cases none_.symm.trans one
          · next none_ => cases none_.symm.trans one'
          · next found found' =>
              cases found.symm.trans one
              cases found'.symm.trans one'
              rw [if_pos ⟨rfl, rfl⟩, List.drop_one, List.drop_one, List.tail_cons, List.tail_cons,
                ih _ (fun b member => single b (List.mem_cons_of_mem _ member))
                  (fun b member => single' b (List.mem_cons_of_mem _ member))
                  (Nat.succ.inj same)]
              rfl

theorem trText_bytes {y : Trans} (none_ : y.multis = []) (s : List Byte) :
    trText y s = s.map fun b => if y.bytetab b ≠ 0 then y.bytetab b else b := by
  induction s with
  | nil => rw [trText]; rfl
  | cons b s ih =>
      rw [trText, List.map_cons, ← ih]
      split
      · rfl
      · rw [none_]
        rfl

/-- The two tables of `compile_tr` do the same. -/
theorem entered_multibyte {pairs : List (Byte × Byte)} (some_ : ∀ n ∈ pairs.map Prod.snd, n ≠ 0)
    (b : Byte) :
    (if enter (fun b => if e.btowc b then b else 0) pairs b ≠ 0 then
        enter (fun b => if e.btowc b then b else 0) pairs b else b) = enter id pairs b := by
  rcases enter_cases pairs b with untouched | ⟨n, member, entered⟩
  · rw [untouched, untouched]
    by_cases wide : e.btowc b = true
    · rw [if_pos wide, ite_self]
      rfl
    · rw [if_neg wide, if_neg (fun other => other rfl)]
      rfl
  · rw [entered, entered, if_pos (some_ n member)]

end

end Encoding
/-! ## Commands that translate -/

namespace Encoding

section

variable {σ : Type}

/-- What the operands of `y` are made of. -/
structure Operands (e : Encoding σ) (x y : List Byte) : Prop where
  portable : ∀ b : Byte, 0 < b → b < 128 → e.SingleByte b
  same : x.length = y.length
  distinct : x.Nodup
  source : ∀ b ∈ x, b ≠ 0 ∧ e.SingleByte b
  target : ∀ b ∈ y, b ≠ 0 ∧ e.SingleByte b

/-- The command is accepted, up to its end, and translates characters to their partners. -/
def Translates (e : Encoding σ) (c : Byte) (x y : List Byte) : Prop :=
  ∀ rest, ∃ tr,
    e.compileTr (c :: (written c x ++ c :: (written c y ++ c :: rest))) =
        .ok (tr, rest.dropWhile e.isspace) ∧
      ∀ s, e.doTr tr s = s.map (partner x y)

variable {e : Encoding σ} {c : Byte} {x y old new : List Byte}

theorem length_nodup (distinct : x.Nodup) : x.length ≤ 256 := by
  have card := List.Nodup.length_le_card (distinct.map fun _ _ => UInt8.toFin_inj.mp)
  rwa [List.length_map, Fintype.card_fin] at card

theorem compileDelimited_cons (delimiter : Delimiter c) (p : List Byte) :
    compileDelimited true (c :: p) = delimitedLoop true c p :=
  (if_neg delimiter.backslash).trans (if_neg delimiter.newline)

theorem operand_kept (delimiter : Delimiter c) (unterminated : Complaint) (kept : Remains c x old)
    (short : x.length ≤ 256) (tail : List Byte) :
    operand unterminated (c :: (written c x ++ c :: tail)) = .ok (old, tail) := by
  have fits : ¬ lineMax < old.length := by
    have bound := kept.length_le
    unfold lineMax
    omega
  unfold operand
  rw [compileDelimited_cons delimiter, delimitedLoop_kept delimiter kept]
  exact if_neg fits

theorem operand_loop (delimiter : Delimiter c) {unterminated : Complaint} {p rest : List Byte}
    (run : operand unterminated (c :: p) = .ok (old, rest)) :
    delimitedLoop true c p = .ok (some (old, rest)) := by
  obtain ⟨found, scan, fits⟩ := except_bind_ok.mp run
  rw [compileDelimited_cons delimiter] at scan
  cases found with
  | none => cases fits
  | some found =>
      simp only at fits
      split at fits
      · cases fits
      · cases fits
        exact scan

theorem Operands.kept_single (portable : ∀ b : Byte, 0 < b → b < 128 → e.SingleByte b)
    (single : ∀ b ∈ x, b ≠ 0 ∧ e.SingleByte b) (kept : Remains c x old) :
    ∀ b ∈ old, b ≠ 0 ∧ e.SingleByte b := by
  intro b member
  rcases kept.mem b member with within | rfl | rfl
  · exact single b within
  · exact ⟨by decide, portable _ (by decide) (by decide)⟩
  · exact ⟨by decide, portable _ (by decide) (by decide)⟩

theorem compileTr_cons (delimiter : Delimiter c) (p : List Byte) :
    e.compileTr (c :: p) = (do
      let (old, p) ← operand .unterminatedSource (c :: p)
      let (new, p) ← operand .unterminatedTarget (c :: p)
      let p := p.dropWhile e.isspace
      match e.mbsrtowcs e.initial old, e.mbsrtowcs e.initial new with
      | none, _ => .error .illegalSequence
      | some _, none => .error .illegalSequence
      | some oldlen, some newlen =>
          if newlen ≠ oldlen then .error .notTheSameLength
          else do
            let y ← e.table old new
            .ok (y, p)) :=
  if_neg delimiter.backslash

theorem table_single (single : ∀ b ∈ old, e.SingleByte b)
    (single' : ∀ b ∈ new, b ≠ 0 ∧ e.SingleByte b) (same : old.length = new.length) :
    ∃ tr, e.table old new = .ok tr ∧ ∀ s, e.doTr tr s = s.map (enter id (old.zip new)) := by
  unfold table doTr
  by_cases narrow : e.mbCurMax = 1
  · simp only [if_pos narrow]
    exact ⟨_, rfl, fun s => rfl⟩
  · simp only [if_neg narrow]
    rw [trLoop_single _ single (fun b member => (single' b member).2) same]
    refine ⟨_, rfl, fun s => ?_⟩
    have some_ : ∀ n ∈ (old.zip new).map Prod.snd, n ≠ 0 := by
      intro n member
      obtain ⟨pair, paired, rfl⟩ := List.mem_map.mp member
      exact (single' _ (List.of_mem_zip paired).2).1
    rw [trText_bytes rfl]
    exact congrFun (congrArg List.map (funext fun b => entered_multibyte some_ b)) s

/-- With operands that are kept as `old` and `new`, these decide. -/
theorem compileTr_kept (delimiter : Delimiter c) (operands : e.Operands x y) (kept : Remains c x old)
    (kept' : Remains c y new) (rest : List Byte) :
    (old.length ≠ new.length →
        e.compileTr (c :: (written c x ++ c :: (written c y ++ c :: rest))) =
          .error .notTheSameLength) ∧
      (old.length = new.length → ∃ tr,
        e.compileTr (c :: (written c x ++ c :: (written c y ++ c :: rest))) =
            .ok (tr, rest.dropWhile e.isspace) ∧
          ∀ s, e.doTr tr s = s.map (enter id (old.zip new))) := by
  have short := length_nodup operands.distinct
  have single := Operands.kept_single operands.portable operands.source kept
  have single' := Operands.kept_single operands.portable operands.target kept'
  have first := operand_kept delimiter .unterminatedSource kept short (written c y ++ c :: rest)
  have second := operand_kept delimiter .unterminatedTarget kept' (operands.same ▸ short) rest
  rw [compileTr_cons delimiter, first]
  simp only [bind, Except.bind]
  rw [second]
  simp only [mbsrtowcs_single fun b member => (single b member).2,
    mbsrtowcs_single fun b member => (single' b member).2]
  constructor
  · exact fun differ => if_pos (Ne.symm differ)
  · intro same
    obtain ⟨tr, made, does⟩ := table_single (fun b member => (single b member).2) single' same
    rw [if_neg (fun differ => differ same.symm), made]
    exact ⟨tr, rfl, does⟩

theorem compileTr_reads (delimiter : Delimiter c) {tr : Trans} {rest : List Byte}
    (run : e.compileTr (c :: (written c x ++ c :: (written c y ++ [c]))) = .ok (tr, rest)) :
    ∃ old new, Remains c x old ∧ Remains c y new := by
  rw [compileTr_cons delimiter] at run
  obtain ⟨⟨old, p⟩, first, run⟩ := except_bind_ok.mp run
  obtain ⟨⟨new, q⟩, second, -⟩ := except_bind_ok.mp run
  have scan := operand_loop delimiter first
  have scan' := operand_loop delimiter second
  have nothing (d r : List Byte) : delimitedLoop true c [] ≠ .ok (some (d, r)) := by
    rw [delimitedLoop]
    intro found
    cases found
  -- The last delimiter ends an operand only when the scan stops there.
  have ends {z d r : List Byte} (scan : delimitedLoop true c (written c z ++ [c]) = .ok (some (d, r))) :
      Remains c z d ∧ r = [] := by
    rcases delimitedLoop_written delimiter [] scan with found | ⟨w, t, d', nil, -, scan⟩
    · exact found
    · rw [(List.append_eq_nil_iff.mp nil.symm).2] at scan
      exact absurd scan (nothing d' r)
  have stops {t d r : List Byte} {w : List Byte} (whole : written c y ++ [c] = w ++ t)
      (closed : w = [] ∨ ∃ v, w = v ++ [byte ']'])
      (scan : delimitedLoop true c t = .ok (some (d, r))) : r = [] := by
    rcases closed with rfl | ⟨v, rfl⟩
    · rw [List.nil_append] at whole
      exact (ends (whole ▸ scan)).2
    · rw [List.append_assoc, List.singleton_append] at whole
      rcases written_cut y whole with ⟨u, z, -, -, rfl⟩ | ⟨w', nil, -⟩
      · exact (ends scan).2
      · rw [(List.append_eq_nil_iff.mp nil.symm).2] at scan
        exact absurd scan (nothing d r)
  rcases delimitedLoop_written delimiter _ scan with ⟨kept, rfl⟩ | ⟨w, t, d', whole, closed, later⟩
  · exact ⟨old, new, kept, (ends scan').1⟩
  · rw [stops whole closed later] at scan'
    exact absurd scan' (nothing new q)

/-- `y` translates exactly when the operands, with their bracket expressions as they are written,
are of the same length and pair the characters as the operands do. -/
theorem translates_iff (delimiter : Delimiter c) (operands : e.Operands x y) :
    e.Translates c x y ↔
      ∃ old new, Remains c x old ∧ Remains c y new ∧ old.length = new.length ∧
        ∀ b, enter id (old.zip new) b = partner x y b := by
  constructor
  · intro translates
    obtain ⟨tr, run, does⟩ := translates []
    obtain ⟨old, new, kept, kept'⟩ := compileTr_reads delimiter run
    obtain ⟨differ, agree⟩ := compileTr_kept delimiter operands kept kept' []
    by_cases length : old.length = new.length
    · obtain ⟨tr', run', does'⟩ := agree length
      cases run.symm.trans run'
      refine ⟨old, new, kept, kept', length, fun b => ?_⟩
      have byte := (does' [b]).symm.trans (does [b])
      exact (List.cons.inj byte).1
    · cases run.symm.trans (differ length)
  · rintro ⟨old, new, kept, kept', length, pairs⟩ rest
    obtain ⟨tr, run, does⟩ := (compileTr_kept delimiter operands kept kept' rest).2 length
    refine ⟨tr, run, fun s => ?_⟩
    rw [does, funext pairs]

theorem enter_distinct (pairs : List (Byte × Byte)) (b : Byte) :
    ∀ {tab : Byte → Byte}, (pairs.map Prod.fst).Nodup →
      enter tab pairs b = (pairs.lookup b).getD (tab b) := by
  induction pairs with
  | nil => exact fun _ => rfl
  | cons pair pairs ih =>
      intro tab distinct
      obtain ⟨a, n⟩ := pair
      obtain ⟨alone, distinct⟩ := List.nodup_cons.mp distinct
      have behind := @ih (Function.update tab a n) distinct
      change enter (Function.update tab a n) pairs b = _
      rw [behind, List.lookup_cons]
      by_cases same : b = a
      · have none_ : pairs.lookup b = none := by
          rw [List.lookup_eq_none_iff]
          intro pair member
          rw [bne_iff_ne]
          intro paired
          exact alone (same ▸ paired ▸ List.mem_map.mpr ⟨pair, member, rfl⟩)
        rw [none_, same, Function.update_self, beq_self_eq_true]
        rfl
      · rw [Function.update_of_ne same, beq_false_of_ne same]

theorem enter_partner (operands : e.Operands x y) (b : Byte) :
    enter id (x.zip y) b = partner x y b := by
  refine enter_distinct _ b ?_
  rw [List.map_fst_zip (Nat.le_of_eq operands.same)]
  exact operands.distinct

end

def ofC : Encoding Unit where
  mbCurMax := 1
  initial := ()
  mbrlen := fun _ s => if s = [] then some (0, ()) else some (1, ())
  btowc := fun _ => true
  isspace := Text.isspace
  mbrlen_le := by
    intro _ s n _ some_ read
    rw [if_neg some_] at read
    cases read
    exact ⟨Nat.one_pos, List.length_pos_iff.mpr some_, Nat.le_refl 1⟩

theorem ofC_operands {x y : List Byte} (same : x.length = y.length) (distinct : x.Nodup)
    (some_ : (0 : Byte) ∉ x ++ y) : ofC.Operands x y where
  portable := fun _ _ _ _ => rfl
  same := same
  distinct := distinct
  source := fun _ member =>
    ⟨fun zero => some_ (List.mem_append_left _ (zero ▸ member)), fun _ => rfl⟩
  target := fun _ member =>
    ⟨fun zero => some_ (List.mem_append_right _ (zero ▸ member)), fun _ => rfl⟩

/-- `y/abc/xyz/` -/
theorem translates_letters :
    ofC.Translates (byte '/') (ascii ['a', 'b', 'c']) (ascii ['x', 'y', 'z']) := by
  have operands : ofC.Operands (ascii ['a', 'b', 'c']) (ascii ['x', 'y', 'z']) :=
    ofC_operands rfl (by decide) (by decide)
  exact (translates_iff ⟨by decide, by decide, by decide⟩ operands).mpr
    ⟨_, _, .self (by decide) (by decide), .self (by decide) (by decide), rfl,
      enter_partner operands⟩

/-- `y/[/x/` is refused. -/
theorem translates_bracket : ¬ ofC.Translates (byte '/') [byte '['] [byte 'x'] := by
  intro translates
  have delimiter : Delimiter (byte '/') := ⟨by decide, by decide, by decide⟩
  obtain ⟨tr, run, -⟩ := translates []
  obtain ⟨old, new, kept, -⟩ := compileTr_reads delimiter run
  have whole := delimitedLoop_kept delimiter kept []
  have piece := delimitedPiece_bracket (c := byte '/') (by decide) [byte '/']
  rw [show compileCcl (byte '[' :: [byte '/']) = none from by decide] at piece
  change delimitedLoop true (byte '/') [byte '[', byte '/'] = _ at whole
  rw [delimitedLoop] at whole
  split at whole
  · cases whole
  · next close => cases close.symm.trans piece
  · next copy => cases copy.symm.trans piece

end Encoding

end Netbase.Sed
