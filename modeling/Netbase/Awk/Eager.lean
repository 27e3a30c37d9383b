import Netbase.Awk.Record

/-!
# The record without laziness

The eager model splits `$0` when it is set and rebuilds it when a field or NF is
set.  The lazy record stands for an eager one at every time; only the emptiness
of RS is not remembered until the split.
-/

namespace Netbase.Awk

open Netbase.Text

/-- The record, its fields and NF, each up to date. -/
structure Eager where
  FS : List Byte
  RS : List Byte
  OFS : List Byte
  text : List Byte
  fields : List (List Byte)
  NF : Nf

namespace Eager

def start : Eager := ⟨[blank], [nl], [blank], [], [], .ofNat 0⟩

def field (e : Eager) (n : Nat) : List Byte := e.fields.getD (n - 1) []

def rebuild (e : Eager) : Eager := { e with text := joined e.OFS e.NF.fval e.field }

/-- `$0` is split with the FS and RS in force. -/
def setRecord (awk : Interp) (e : Eager) (s : List Byte) : Eager :=
  { e with
    text := s, fields := awk.split e.FS e.RS s, NF := .ofNat (awk.split e.FS e.RS s).length }

/-- Fields cut off or empty ones added. -/
def resize (fields : List (List Byte)) (n : Nat) : List (List Byte) :=
  (List.range n).map fun i => fields.getD i []

def setField (e : Eager) (n : Nat) (s : List Byte) : Eager :=
  let e := if e.NF.fval < (n : ℚ) then { e with fields := resize e.fields n, NF := .ofNat n } else e
  rebuild { e with fields := e.fields.set (n - 1) s }

def setNF (awk : Interp) (e : Eager) (s : List Byte) : Option Eager :=
  if trunc (awk.number s) < 0 then none
  else some (rebuild { e with
    fields := resize e.fields (trunc (awk.number s)).toNat, NF := ⟨some s, awk.number s⟩ })

def step (awk : Interp) (e : Eager) : Op → Option (List Value × Eager)
  | .getrec record => some ([], e.setRecord awk record)
  | .set 0 s => some ([], e.setRecord awk s)
  | .set (n + 1) s => some ([], e.setField (n + 1) s)
  | .setNF s => (e.setNF awk s).map fun e => ([], e)
  | .setFS s => some ([], { e with FS := s })
  | .setRS s => some ([], { e with RS := s })
  | .setOFS s => some ([], { e with OFS := s })
  | .get 0 => some ([.text e.text], e)
  | .get (n + 1) => some ([.text (e.field (n + 1))], e)
  | .getNF => some ([.number e.NF], e)

def run (awk : Interp) : Eager → List Op → List Value × Bool
  | _, [] => ([], true)
  | e, op :: ops =>
      match e.step awk op with
      | none => ([], false)
      | some (values, e) => (values ++ (run awk e ops).1, (run awk e ops).2)

end Eager

/-! ## The condition -/

/-- The operations for which the fields are built. -/
def Op.Splits : Op → Prop
  | .set (_ + 1) _ | .setNF _ | .get (_ + 1) | .getNF => True
  | _ => False

/-- The value of RS when `$0` was set last. -/
def Op.recordRS (op : Op) (st : State) (rs : List Byte) : List Byte :=
  match op with
  | .getrec _ | .set 0 _ => st.RS
  | _ => rs

/-- Each time a record is split, the emptiness of RS at that time and at the time `$0` was set makes
no difference. -/
def State.Fresh (awk : Interp) : State → List Byte → List Op → Prop
  | _, _, [] => True
  | st, rs, op :: ops =>
      (op.Splits → st.donefld = false → awk.Fresh (st.inputFS.getD st.FS) st.RS rs st.record) ∧
        ∀ values next, st.step awk op = some (values, next) →
          State.Fresh awk next (op.recordRS st rs) ops

/-! ## What the lazy record stands for -/

def State.fields (st : State) : List (List Byte) :=
  (List.range st.lastfld).map fun i => st.fldtab (i + 1)

/-- A lazy record, the value of RS when `$0` was set, and the eager record it stands for. -/
structure Stands (awk : Interp) (st : State) (rs : List Byte) (e : Eager) : Prop where
  FS : e.FS = st.FS
  RS : e.RS = st.RS
  OFS : e.OFS = st.OFS
  clean : ∀ i, st.lastfld < i → st.fldtab i = []
  last : trunc st.NF.fval = st.lastfld
  unsaved : st.inputFS = none → st.donefld = false ∧ st.record = []
  built : st.donefld = true → e.fields = st.fields ∧ e.NF = st.NF
  unbuilt : st.donefld = false → e.text = st.record ∧
    e.fields = awk.split (st.inputFS.getD st.FS) rs st.record ∧ e.NF = .ofNat e.fields.length
  valid : st.donerec = true → e.text = st.record
  stale : st.donerec = false → e.text = joined st.OFS st.NF.fval st.fldtab

theorem trunc_nat (n : Nat) : trunc n = n := by
  simp [trunc]

theorem Interp.split_nil (awk : Interp) (FS RS : List Byte) : awk.split FS RS [] = [] := by
  unfold Interp.split
  split_ifs
  · rfl
  · simp [blankFields]
  · rfl
  · cases FS <;> simp [charFields]
  · rename_i some
    exact absurd rfl some

theorem stands_start (awk : Interp) (rs : List Byte) : Stands awk .start rs .start where
  FS := rfl
  RS := rfl
  OFS := rfl
  clean := fun _ _ => rfl
  last := trunc_nat 0
  unsaved := fun _ => ⟨rfl, rfl⟩
  built := fun built => (nomatch built)
  unbuilt := fun _ => ⟨rfl, (awk.split_nil _ _).symm, rfl⟩
  valid := fun valid => (nomatch valid)
  stale := fun _ => by simp [Eager.start, State.start, joined, Nf.ofNat, trunc]

/-! ## The functions on the fields -/

/-- A field number lies behind a last field exactly when it is greater than NF. -/
theorem lt_trunc (f : ℚ) {n : Nat} (positive : 0 < n) : f < (n : ℚ) ↔ trunc f < n := by
  unfold trunc
  split
  · rw [Int.floor_lt]
    norm_cast
  · rename_i negative
    have below : f < 0 := not_le.mp negative
    have above : (0 : ℚ) < n := by exact_mod_cast positive
    have ceil : ⌈f⌉ ≤ 0 := Int.ceil_le.mpr (by simpa using below.le)
    exact ⟨fun _ => by omega, fun _ => below.trans above⟩

theorem joined_congr {sep : List Byte} {NF : ℚ} {field field' : Nat → List Byte}
    (same : ∀ i < (trunc NF).toNat, field (i + 1) = field' (i + 1)) :
    joined sep NF field = joined sep NF field' := by
  unfold joined
  congr 1
  refine List.map_congr_left fun i mem => ?_
  rw [same i (List.mem_range.mp mem)]

section Building

variable (st : State) (clean : ∀ i, st.lastfld < i → st.fldtab i = [])

include clean

theorem State.setlastfld_clean (f : ℚ) :
    st.setlastfld f =
      if trunc f < 0 then none
      else some { st with
        fldtab := fun i => if i ≤ (trunc f).toNat then st.fldtab i else []
        lastfld := (trunc f).toNat } := by
  unfold State.setlastfld State.cleanfld
  by_cases negative : trunc f < 0
  · simp only [negative, if_true]
  simp only [negative, if_false]
  congr 1
  have table : (if st.lastfld < (trunc f).toNat then
        (fun i => if st.lastfld + 1 ≤ i ∧ i ≤ (trunc f).toNat then [] else st.fldtab i)
      else fun i => if (trunc f).toNat + 1 ≤ i ∧ i ≤ st.lastfld then [] else st.fldtab i) =
      fun i => if i ≤ (trunc f).toNat then st.fldtab i else [] := by
    funext i
    split_ifs <;> grind
  split_ifs at table ⊢ with more
  · rw [table]
  · rw [table]

theorem State.setNf_clean (n : Nat) :
    st.setNf n = { st with
      fldtab := fun i => if i ≤ n then st.fldtab i else []
      lastfld := n
      donerec := false
      NF := .ofNat n } := by
  have natural : ¬(n : ℤ) < 0 := by omega
  unfold State.setNf
  rw [State.setlastfld_clean { st with donerec := false } clean, trunc_nat, if_neg natural]
  simp

theorem State.newfld_clean {n : Nat} (behind : st.lastfld < n) :
    st.newfld n = { st with lastfld := n, donerec := false, NF := .ofNat n } := by
  have table : (fun i => if st.lastfld + 1 ≤ i ∧ i ≤ n then [] else st.fldtab i) = st.fldtab := by
    funext i
    split_ifs <;> grind
  have all : (fun i => if i ≤ n then st.fldtab i else []) = st.fldtab := by
    funext i
    have gone := clean i
    split_ifs <;> grind
  unfold State.newfld State.cleanfld
  have later : ∀ i, n < i → st.fldtab i = [] := fun i after => clean i (behind.trans after)
  rw [table, State.setNf_clean { st with lastfld := n } later]
  simp only [all]

theorem State.fldbld_clean (awk : Interp) (unbuilt : st.donefld = false) :
    st.fldbld awk = { st with
      inputFS := some (st.inputFS.getD st.FS)
      fldtab := fun j => if j = 0 then st.fldtab 0 else
        (awk.split (st.inputFS.getD st.FS) st.RS st.record).getD (j - 1) []
      lastfld := (awk.split (st.inputFS.getD st.FS) st.RS st.record).length
      NF := .ofNat (awk.split (st.inputFS.getD st.FS) st.RS st.record).length
      donefld := true
      donerec := true } := by
  have saved : (if st.inputFS.isNone then st.savefs else st) =
      { st with inputFS := some (st.inputFS.getD st.FS) } := by
    obtain ⟨FS, RS, OFS, inputFS, record, fldtab, lastfld, NF, donefld, donerec⟩ := st
    cases inputFS <;> rfl
  have table : ∀ fields : List (List Byte),
      (fun i => if fields.length + 1 ≤ i ∧ i ≤ st.lastfld then [] else
        if 1 ≤ i ∧ i ≤ fields.length then fields.getD (i - 1) [] else st.fldtab i) =
      fun j => if j = 0 then st.fldtab 0 else fields.getD (j - 1) [] := by
    intro fields
    funext i
    split_ifs <;> grind
  unfold State.fldbld State.cleanfld
  simp only [unbuilt, Bool.false_eq_true, if_false, saved, Option.getD_some, table]
  generalize awk.split (st.inputFS.getD st.FS) st.RS st.record = fields
  have past : ∀ i, fields.length < i → fields.getD (i - 1) [] = [] := fun i after => by
    rw [List.getD_eq_getElem?_getD, List.getElem?_eq_none (by omega), Option.getD_none]
  have later : ∀ i, fields.length < i →
      (if i = 0 then st.fldtab 0 else fields.getD (i - 1) []) = [] := fun i after => by
    rw [if_neg (by omega), past i after]
  have all : (fun i => if i ≤ fields.length then
        (if i = 0 then st.fldtab 0 else fields.getD (i - 1) []) else []) =
      fun i => if i = 0 then st.fldtab 0 else fields.getD (i - 1) [] := by
    funext i
    split_ifs <;> grind
  have built := State.setNf_clean { st with
    inputFS := some (st.inputFS.getD st.FS)
    fldtab := fun i => if i = 0 then st.fldtab 0 else fields.getD (i - 1) []
    lastfld := fields.length
    donefld := true } later fields.length
  rw [built]
  simp only [all]

end Building

/-! ## Every operation keeps the relation -/

section Steps

variable {awk : Interp} {st : State} {rs : List Byte} {e : Eager}

theorem getD_fields (clean : ∀ i, st.lastfld < i → st.fldtab i = []) (i : Nat) :
    st.fields.getD i [] = st.fldtab (i + 1) := by
  unfold State.fields
  by_cases within : i < st.lastfld
  · simp [List.getD_eq_getElem?_getD, within]
  · rw [clean (i + 1) (by omega)]
    simp [List.getD_eq_getElem?_getD, not_lt.mp within]

theorem Stands.field (stands : Stands awk st rs e) (built : st.donefld = true) (n : Nat) :
    e.field (n + 1) = st.fldtab (n + 1) := by
  rw [Eager.field, (stands.built built).1]
  exact getD_fields stands.clean n

theorem Stands.fldbld (stands : Stands awk st rs e)
    (fresh : st.donefld = false → awk.Fresh (st.inputFS.getD st.FS) st.RS rs st.record) :
    Stands awk (st.fldbld awk) rs e ∧ (st.fldbld awk).donefld = true := by
  cases built : st.donefld with
  | true =>
      have same : st.fldbld awk = st := by simp [State.fldbld, built]
      exact ⟨same.symm ▸ stands, same.symm ▸ built⟩
  | false =>
      obtain ⟨text, fields, NF⟩ := stands.unbuilt built
      have now : awk.split (st.inputFS.getD st.FS) st.RS st.record = e.fields :=
        ((awk.split_eq_iff _ _ _ _).mpr (fresh built)).trans fields.symm
      rw [State.fldbld_clean st stands.clean awk built, now]
      refine ⟨?_, rfl⟩
      exact {
        FS := stands.FS
        RS := stands.RS
        OFS := stands.OFS
        clean := fun i after => by
          dsimp only at after ⊢
          rw [if_neg (by omega), List.getD_eq_getElem?_getD, List.getElem?_eq_none (by omega),
            Option.getD_none]
        last := trunc_nat _
        unsaved := fun none => (nomatch none)
        built := fun _ => by
          refine ⟨List.ext_getElem? fun i => ?_, NF⟩
          by_cases within : i < e.fields.length
          · simp [State.fields, within, List.getD_eq_getElem?_getD]
          · simp [State.fields, not_lt.mp within]
        unbuilt := fun unbuilt => (nomatch unbuilt)
        valid := fun _ => text
        stale := fun stale => (nomatch stale) }

theorem Stands.recbld (stands : Stands awk st rs e) :
    Stands awk st.recbld rs e ∧ st.recbld.donerec = true := by
  cases valid : st.donerec with
  | true =>
      have same : st.recbld = st := by simp [State.recbld, valid]
      exact ⟨same.symm ▸ stands, same.symm ▸ valid⟩
  | false =>
      have text := stands.stale valid
      have rebuilt : st.recbld =
          { st with record := joined st.OFS st.NF.fval st.fldtab, donerec := true } := by
        simp [State.recbld, valid]
      rw [rebuilt, ← text]
      refine ⟨?_, rfl⟩
      exact { stands with
        unsaved := fun none => ⟨(stands.unsaved none).1,
          (stands.unbuilt (stands.unsaved none).1).1.trans (stands.unsaved none).2⟩
        built := stands.built
        unbuilt := fun unbuilt => by
          obtain ⟨same, fields, NF⟩ := stands.unbuilt unbuilt
          exact ⟨rfl, by rw [same]; exact fields, NF⟩
        valid := fun _ => rfl
        stale := fun stale => (nomatch stale) }

theorem Stands.setRecord (stands : Stands awk st rs e) (s : List Byte) :
    Stands awk (st.setRecord s) st.RS (e.setRecord awk s) := by
  exact {
    FS := stands.FS
    RS := stands.RS
    OFS := stands.OFS
    clean := stands.clean
    last := stands.last
    unsaved := fun none => (nomatch none)
    built := fun built => (nomatch built)
    unbuilt := fun _ => by
      refine ⟨rfl, ?_, rfl⟩
      simp [Eager.setRecord, State.setRecord, State.savefs, stands.FS, stands.RS]
    valid := fun _ => rfl
    stale := fun stale => (nomatch stale) }

/-- Fields that are set or counted anew: the record is made of them. -/
theorem Stands.rebuild (fldtab : Nat → List Byte) (lastfld : Nat) {NF NF' : Nf} (equal : NF' = NF)
    (stands : Stands awk st rs e) (built : st.donefld = true)
    (clean : ∀ i, lastfld < i → fldtab i = []) (last : trunc NF.fval = lastfld)
    {fields : List (List Byte)} (same : fields = (List.range lastfld).map fun i => fldtab (i + 1)) :
    Stands awk { st with fldtab := fldtab, lastfld := lastfld, NF := NF, donerec := false } rs
      (Eager.rebuild { e with fields := fields, NF := NF' }) := by
  subst equal
  exact {
    FS := stands.FS
    RS := stands.RS
    OFS := stands.OFS
    clean := clean
    last := last
    unsaved := fun none => stands.unsaved none
    built := fun _ => ⟨same, rfl⟩
    unbuilt := fun unbuilt => by simp [built] at unbuilt
    valid := fun valid => (nomatch valid)
    stale := fun _ => by
      simp only [Eager.rebuild, stands.OFS]
      refine joined_congr fun i within => ?_
      have inside : i < lastfld := by simpa [last] using within
      simp [Eager.field, same, List.getD_eq_getElem?_getD, inside] }

theorem Stands.setField (stands : Stands awk st rs e) (built : st.donefld = true) (n : Nat)
    (s : List Byte) : Stands awk (st.setField (n + 1) s) rs (e.setField (n + 1) s) := by
  obtain ⟨fields, NF⟩ := stands.built built
  have behind : st.NF.fval < ((n + 1 : Nat) : ℚ) ↔ st.lastfld < n + 1 := by
    rw [lt_trunc _ n.succ_pos, stands.last]
    norm_cast
  unfold State.setField Eager.setField
  rw [NF]
  by_cases more : st.NF.fval < ((n + 1 : Nat) : ℚ)
  · have past := behind.mp more
    simp only [if_pos more]
    rw [State.newfld_clean { st with donerec := false } stands.clean past]
    refine stands.rebuild (Function.update st.fldtab (n + 1) s) (n + 1) rfl built ?_
      (trunc_nat (n + 1)) ?_
    · intro i after
      rw [Function.update_of_ne (by omega)]
      exact stands.clean i (by omega)
    · refine List.ext_getElem? fun i => ?_
      simp only [Eager.resize, fields, getD_fields stands.clean]
      by_cases within : i < n + 1
      · by_cases at_n : i = n
        · subst at_n
          simp
        · simp [within, at_n, Ne.symm at_n]
      · rw [List.getElem?_eq_none (by simpa using not_lt.mp within),
          List.getElem?_eq_none (by simpa using not_lt.mp within)]
  · have inside := not_lt.mp (mt behind.mpr more)
    simp only [if_neg more]
    refine stands.rebuild (Function.update st.fldtab (n + 1) s) st.lastfld NF built ?_
      stands.last ?_
    · intro i after
      rw [Function.update_of_ne (by omega)]
      exact stands.clean i after
    · refine List.ext_getElem? fun i => ?_
      simp only [fields, State.fields]
      by_cases within : i < st.lastfld
      · by_cases at_n : i = n
        · subst at_n
          simp [within]
        · simp [within, at_n, Ne.symm at_n]
      · rw [List.getElem?_eq_none (by simpa using not_lt.mp within),
          List.getElem?_eq_none (by simpa using not_lt.mp within)]

theorem Stands.setNF (stands : Stands awk st rs e) (built : st.donefld = true) (s : List Byte) :
    (st.setNFsval awk s = none ∧ e.setNF awk s = none) ∨
      ∃ st' e', st.setNFsval awk s = some st' ∧ e.setNF awk s = some e' ∧ Stands awk st' rs e' := by
  obtain ⟨fields, -⟩ := stands.built built
  unfold State.setNFsval Eager.setNF
  rw [State.setlastfld_clean { st with donerec := false, NF := ⟨some s, awk.number s⟩ } stands.clean]
  by_cases negative : trunc (awk.number s) < 0
  · simp [negative]
  · have last : trunc (awk.number s) = (trunc (awk.number s)).toNat := by omega
    simp only [if_neg negative]
    refine .inr ⟨_, _, rfl, rfl, ?_⟩
    refine stands.rebuild _ _ rfl built ?_ last ?_
    · intro i after
      rw [if_neg (by omega)]
    · simp only [Eager.resize, fields, getD_fields stands.clean]
      refine List.map_congr_left fun i mem => ?_
      rw [if_pos (Nat.succ_le_of_lt (List.mem_range.mp mem))]

theorem Stands.step (stands : Stands awk st rs e) (op : Op)
    (fresh : op.Splits → st.donefld = false →
      awk.Fresh (st.inputFS.getD st.FS) st.RS rs st.record) :
    (st.step awk op = none ∧ e.step awk op = none) ∨
      ∃ values st' e', st.step awk op = some (values, st') ∧ e.step awk op = some (values, e') ∧
        Stands awk st' (op.recordRS st rs) e' := by
  cases op with
  | getrec record => exact .inr ⟨_, _, _, rfl, rfl, stands.setRecord record⟩
  | set n s =>
      cases n with
      | zero =>
          have later := stands.recbld.1.setRecord s
          have same : st.recbld.RS = st.RS := by
            unfold State.recbld
            split <;> rfl
          rw [same] at later
          exact .inr ⟨_, _, _, rfl, rfl, later⟩
      | succ n =>
          obtain ⟨split, built⟩ := stands.fldbld (fresh trivial)
          exact .inr ⟨_, _, _, rfl, rfl, split.setField built n s⟩
  | setNF s =>
      obtain ⟨split, built⟩ := stands.fldbld (fresh trivial)
      rcases split.setNF built s with ⟨lazily, eagerly⟩ | ⟨st', e', lazily, eagerly, later⟩
      · exact .inl ⟨by simp [State.step, lazily], by simp [Eager.step, eagerly]⟩
      · exact .inr ⟨[], st', e', by simp [State.step, lazily], by simp [Eager.step, eagerly], later⟩
  | setFS s =>
      refine .inr ⟨_, _, _, rfl, rfl, ?_⟩
      exact { stands with
        FS := rfl
        unbuilt := fun unbuilt => by
          obtain ⟨text, fields, NF⟩ := stands.unbuilt unbuilt
          refine ⟨text, fields.trans ?_, NF⟩
          cases saved : st.inputFS with
          | some fs => rfl
          | none =>
              have empty := (stands.unsaved saved).2
              simp only [empty, awk.split_nil] }
  | setRS s => exact .inr ⟨_, _, _, rfl, rfl, { stands with RS := rfl }⟩
  | setOFS s =>
      obtain ⟨rebuilt, valid⟩ := stands.recbld
      refine .inr ⟨_, _, _, rfl, rfl, ?_⟩
      exact { rebuilt with
        OFS := rfl
        stale := fun stale => by simp [valid] at stale }
  | get n =>
      cases n with
      | zero =>
          obtain ⟨rebuilt, valid⟩ := stands.recbld
          refine .inr ⟨_, _, _, rfl, ?_, rebuilt⟩
          simp [Eager.step, rebuilt.valid valid]
      | succ n =>
          obtain ⟨split, built⟩ := stands.fldbld (fresh trivial)
          refine .inr ⟨_, _, _, rfl, ?_, split⟩
          simp [Eager.step, split.field built n]
  | getNF =>
      obtain ⟨split, built⟩ := stands.fldbld (fresh trivial)
      refine .inr ⟨_, _, _, rfl, ?_, split⟩
      simp [Eager.step, (split.built built).2]

theorem Stands.run (stands : Stands awk st rs e) (ops : List Op) (fresh : st.Fresh awk rs ops) :
    st.run awk ops = e.run awk ops := by
  induction ops generalizing st rs e with
  | nil => rfl
  | cons op ops ih =>
      obtain ⟨now, later⟩ := fresh
      rcases stands.step op now with ⟨lazily, eagerly⟩ | ⟨values, st', e', lazily, eagerly, next⟩
      · simp only [State.run, Eager.run, lazily, eagerly]
      · simp only [State.run, Eager.run, lazily, eagerly, ih next (later values st' lazily)]

end Steps

/-- Every sequence of operations reads the values of the eager model, if the emptiness of RS makes
no difference at the splits. -/
theorem run_eager (awk : Interp) (ops : List Op) (fresh : State.start.Fresh awk [nl] ops) :
    State.start.run awk ops = Eager.start.run awk ops :=
  (stands_start awk [nl]).run ops fresh

/-- An interpreter without regular expressions, in which every string is the number zero. -/
def plain : Interp where
  csv := false
  multibyte := false
  makedfa := fun _ => ⟨fun _ _ => none, fun found => (nomatch found)⟩
  number := fun _ => 0

theorem run_eager_comma :
    State.start.run plain [.setFS [comma], .set 0 (ascii ['a', ',', 'b']), .get 2] =
      Eager.start.run plain [.setFS [comma], .set 0 (ascii ['a', ',', 'b']), .get 2] := by
  refine run_eager plain _ ⟨fun none => none.elim, ?_⟩
  rintro _ _ ⟨⟩
  refine ⟨fun none => none.elim, ?_⟩
  rintro _ _ ⟨⟩
  exact ⟨fun _ _ => .inr (.inr (.inr (.inr (.inr Iff.rfl)))), fun _ _ _ => trivial⟩

/-- RS is emptied between the assignment to `$0` and the first use of NF. -/
theorem run_emptied_RS : ¬∀ (awk : Interp) (ops : List Op),
    State.start.run awk ops = Eager.start.run awk ops := by
  intro claim
  have same := claim plain [.setFS [comma], .set 0 (ascii ['a', '\n', 'b']), .setRS [], .getNF]
  exact absurd same (by decide +kernel)

end Netbase.Awk
