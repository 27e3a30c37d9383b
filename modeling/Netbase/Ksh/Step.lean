import Mathlib
import Netbase.Ksh.Digits
import Netbase.Ksh.TreeValue

/-!
# Increments and decrements

The operand of `++` and `--` goes into a temporary, the new value goes back into the
variable, as a number or as its decimal text, and a postfix operator takes the old
value out of a local once more.
-/

namespace Netbase.Ksh.Expr

open Netbase.Text Netbase.Lib
open Netbase.Ksh.Typeset (integerText_read digitChar_isSome HoldsText shownBase getintText_based Based)

/-- `++x`, `--x`, `x++` or `x--`. -/
structure Form where
  op : StepOp
  isPrefix : Bool

def Form.text (form : Form) (x : VarName) : List Byte :=
  if form.isPrefix then form.op.val.spelling ++ x.val else x.val ++ form.op.val.spelling

/-- The value a step leaves. -/
def Form.stepped (form : Form) (v : Long) : Long :=
  if form.op.val = .O_PLUSPLUS then v + 1 else v - 1

/-- The value the expression is to have. -/
def Form.result (form : Form) (v : Long) : Long := if form.isPrefix then form.stepped v else v

/-- The evaluation has a value and leaves the variable with another. -/
def Leaves (depth : Nat) (text : List Byte) (mode : ErrorMode) (sh : Shell) (p : Addr)
    (result after : Long) : Prop :=
  ∃ sh' base, evaluate depth text mode sh = .ok (true, result) sh' ∧
    getint (sh'.cell p) = some (base, after)

structure Holding (sh : Shell) (x : VarName) (p : Addr) (v : Long) : Prop where
  found : lookup sh.blocks x.val = some p
  inside : p < sh.next
  name : (sh.cell p).name ≠ []
  number : ∃ base, getint (sh.cell p) = some (base, v)

def storedText (v : Var) (n : Long) : List Byte := formatstr v ((strVal (vtemp n)).getD [])

/-- A number that is stored as text, justified as the variable asks for, is read back. -/
def Keeps (v : Var) (n : Long) : Prop :=
  has v.flag INTEGER = true ∨ has v.flag (RJUST ||| LJUST) = false ∨
    ∃ base, getintText (storedText v n) = some (base, n)

/-! ## Through an int -/

theorem throughInt_toInt (n : Long) : (throughInt n).toInt = n.toInt.bmod (2 ^ 32) := by
  rw [throughInt, BitVec.toInt_signExtend_of_le (by decide), BitVec.toInt_setWidth,
    BitVec.toInt_eq_toNat_bmod, Int.bmod_bmod_of_dvd (by decide)]

/-- The numbers that an `int` holds come back from it. -/
theorem throughInt_eq_iff (n : Long) :
    throughInt n = n ↔ -2147483648 ≤ n.toInt ∧ n.toInt ≤ 2147483647 := by
  rw [← BitVec.toInt_inj, throughInt_toInt]
  have low : -(2 ^ 32 / 2 : Int) ≤ n.toInt.bmod (2 ^ 32) := Int.le_bmod (by decide)
  have high : n.toInt.bmod (2 ^ 32) < (2 ^ 32 + 1) / 2 := Int.bmod_lt (by decide)
  constructor
  · intro same
    omega
  · rintro ⟨least, most⟩
    exact Int.bmod_eq_of_le (by omega) (by omega)

/-! ## Stored as text -/

def Caseless (c : Byte) : Prop := toupper c = c ∧ tolower c = c

instance (c : Byte) : Decidable (Caseless c) := inferInstanceAs (Decidable (_ ∧ _))

theorem digitChar_caseless {upper : Bool} {d : Nat} {c : Byte} (small : d < 10)
    (char : digitChar upper d = some c) : Caseless c := by
  rw [digitChar, if_pos small, Option.some.injEq] at char
  subst char
  interval_cases d <;> decide

theorem digitLoop_caseless {upper : Bool} : ∀ {room n : Nat} {s out : List Byte},
    digitLoop upper 10 room n s = some out → (∀ c ∈ s, Caseless c) → ∀ c ∈ out, Caseless c := by
  intro room
  induction room with
  | zero =>
      intro n s out run
      cases run
  | succ room ih =>
      intro n s out run all
      obtain ⟨c, char⟩ := digitChar_isSome upper (n % 10) (by omega)
      have more : ∀ b ∈ c :: s, Caseless b := by
        intro b member
        rcases List.mem_cons.mp member with rfl | old
        · exact digitChar_caseless (Nat.mod_lt n (by decide)) char
        · exact all b old
      rw [digitLoop, char] at run
      dsimp only at run
      by_cases last : n / 10 = 0
      · rw [if_pos last, Option.some.injEq] at run
        subst run
        exact more
      · rw [if_neg last] at run
        exact ih run more

theorem map_of_same {f : Byte → Byte} {s : List Byte} (same : ∀ c ∈ s, f c = c) : s.map f = s := by
  rw [List.map_congr_left same, List.map_id']

theorem strVal_vtemp (n : Long) : ∃ text, strVal (vtemp n) = some text ∧
    getintText text = some (10, n) ∧ ∀ c ∈ text, Caseless c := by
  obtain ⟨text, found, _, read⟩ := integerText_read (v := vtemp n) (Or.inl rfl)
  have flag : (vtemp n).flag = ISSET ||| INTEGER := rfl
  have shown : strVal (vtemp n) = integerText (vtemp n) := by
    unfold strVal
    rw [flag, if_neg (by decide), if_neg (by decide), if_neg (by decide)]
  refine ⟨text, shown.trans found, read, ?_⟩
  have whole : integerText (vtemp n) =
      (digitLoop false 10 (strbufSize - 1)
        (if n.slt 0 then (-n).toNat else n.toNat) []).map fun digits =>
          (if n.slt 0 then [byte '-'] else []) ++ digits := by
    have unmarked : has (ISSET ||| INTEGER) INT_U = false := by decide
    have small : has (ISSET ||| INTEGER) UCASEV_AL = false := by decide
    unfold integerText
    rw [flag, unmarked, small]
    extract_lets upper negative m b
    change _ = (digitLoop upper b (strbufSize - 1) m []).map fun digits =>
      (if negative then [byte '-'] else []) ++ digits
    cases digitLoop upper b (strbufSize - 1) m [] <;> rfl
  rw [whole, Option.map_eq_some_iff] at found
  obtain ⟨digits, run, rfl⟩ := found
  intro c member
  rcases List.mem_append.mp member with sign | digit
  · cases negative : n.slt 0 with
    | true =>
        rw [negative, if_pos rfl, List.mem_singleton] at sign
        subst sign
        decide
    | false =>
        rw [negative, if_neg Bool.false_ne_true] at sign
        cases sign
  · exact digitLoop_caseless run (fun c none_ => by cases none_) c digit

theorem has_or (flag mask more : Flag) :
    has flag (mask ||| more) = (has flag mask || has flag more) := by
  have zero : flag &&& (mask ||| more) = 0#32 ↔ flag &&& mask = 0#32 ∧ flag &&& more = 0#32 := by
    rw [BitVec.and_or_distrib_left, BitVec.or_eq_zero_iff]
  rw [Bool.eq_iff_iff, Bool.or_eq_true]
  unfold has
  rw [bne_iff_ne, bne_iff_ne, bne_iff_ne]
  exact (not_congr zero).trans not_and_or

theorem has_comm (flag mask : Flag) : has flag mask = has mask flag := by
  rw [has, has, BitVec.and_comm]

theorem or_has (flag more mask : Flag) :
    has (flag ||| more) mask = (has flag mask || has more mask) := by
  rw [has_comm, has_or, has_comm mask, has_comm mask]

variable {v : Var} {p : Addr} {s : State} {x : VarName}

theorem formatstr_caseless {text : List Byte} (unjustified : has v.flag (RJUST ||| LJUST) = false)
    (caseless : ∀ c ∈ text, Caseless c) :
    formatstr v text = text := by
  rw [has_or, Bool.or_eq_false_iff] at unjustified
  obtain ⟨right, left⟩ := unjustified
  unfold formatstr
  simp only [right, left, Bool.false_eq_true, if_false]
  by_cases upper : has v.flag UCASEV_AL = true
  · rw [if_pos upper]
    exact map_of_same fun c member => (caseless c member).1
  rw [if_neg upper]
  by_cases lower : has v.flag LCASEV = true
  · rw [if_pos lower]
    exact map_of_same fun c member => (caseless c member).2
  · rw [if_neg lower]

/-- The text that `setstr` stores. -/
def shownText (v : Var) (s : List Byte) : List Byte :=
  if has v.flag (UCASEV_AL ||| LCASEV ||| LJUST ||| RJUST) then formatstr v s else s

theorem storeText_holds (sh : Shell) (p : Addr) (s : List Byte)
    (string : has (sh.cell p).flag INTEGER = false) :
    HoldsText ((storeText sh p s).cell p) (shownText (sh.cell p) s) := by
  have isset : has ((sh.cell p).flag ||| (ALLOC ||| ISSET)) ISSET = true := by
    rw [or_has, show has (ALLOC ||| ISSET) ISSET = true by decide, Bool.or_true]
  have still : has ((sh.cell p).flag ||| (ALLOC ||| ISSET)) INTEGER = false := by
    rw [or_has, string, show has (ALLOC ||| ISSET) INTEGER = false by decide, Bool.or_false]
  unfold storeText
  by_cases exported : has (sh.cell p).flag EXPORT = true
  · rw [if_pos exported, cell_write_self]
    refine ⟨isset, still, ?_⟩
    exact List.drop_left' (List.length_append)
  · rw [if_neg exported, cell_write_self]
    exact ⟨isset, still, rfl⟩

theorem storeText_writes (sh : Shell) (p : Addr) (s : List Byte) :
    ∃ v, storeText sh p s = sh.write p v := by
  unfold storeText
  by_cases exported : has (sh.cell p).flag EXPORT = true
  · exact ⟨_, if_pos exported⟩
  · exact ⟨_, if_neg exported⟩

theorem Updated.write (s : State) (p : Addr) (v : Var) :
    Updated s { s with shell := s.shell.write p v } p :=
  ⟨rfl, rfl, rfl, fun _ other => cell_write_ne _ _ other⟩

theorem shownText_keeps (n : Long) (string : has v.flag INTEGER = false) :
    (∃ base, getintText (shownText v ((strVal (vtemp n)).getD [])) = some (base, n)) ↔
      Keeps v n := by
  obtain ⟨text, found, read, caseless⟩ := strVal_vtemp n
  unfold Keeps storedText shownText
  rw [string, found, Option.getD_some]
  cases justified : has v.flag (RJUST ||| LJUST) with
  | false =>
      have same : formatstr v text = text := formatstr_caseless justified caseless
      rw [same, ite_self]
      exact ⟨fun _ => Or.inr (Or.inl rfl), fun _ => ⟨10, read⟩⟩
  | true =>
      have formatted : has v.flag (UCASEV_AL ||| LCASEV ||| LJUST ||| RJUST) = true := by
        rw [has_or, Bool.or_eq_true] at justified
        rw [has_or, has_or]
        rcases justified with right | left
        · rw [right, Bool.or_true]
        · rw [left, Bool.or_true, Bool.true_or]
      rw [if_pos formatted]
      simp

/-! ## The operator -/

theorem getint_base {base : Int} {n : Long} (read : getint v = some (base, n)) :
    base ≠ -1 := by
  unfold getint at read
  by_cases unset : (!has v.flag ISSET) = true
  · rw [if_pos unset] at read
    cases read
  rw [if_neg unset] at read
  by_cases integer : has v.flag INTEGER = true
  · rw [if_pos integer] at read
    by_cases bad : v.type = -1
    · rw [if_pos bad] at read
      cases read
    · rw [if_neg bad] at read
      cases read
      exact bad
  · rw [if_neg integer] at read
    have based := getintText_based read
    unfold Based at based
    omega

theorem getint_type {base : Int} {n : Long} (read : getint v = some (base, n))
    (integer : has v.flag INTEGER = true) : v.type ≠ -1 := by
  intro bad
  rw [getint, if_pos integer, if_pos bad, ite_self] at read
  cases read

theorem getint_number {n : Long} (set : has v.flag ISSET = true)
    (integer : has v.flag INTEGER = true) (type : v.type ≠ -1) (number : v.val = .i n) :
    getint v = some (v.type, n) := by
  rw [getint, set, integer, Var.number, number, if_neg type]
  rfl

theorem intvar_holding (nested : Nested) {v : Long} {base : Int} (name : (s.shell.cell p).name ≠ [])
    (inside : p < s.shell.next) (number : getint (s.shell.cell p) = some (base, v)) :
    ∃ s', intvar nested p s = .ok s.shell.next s' ∧ Plain (s'.shell.cell s.shell.next) v ∧
      Framed s s' none ∧ s'.es = s.es ∧ s.shell.next < s'.shell.next := by
  let tmp := temporary (ISSET ||| INTEGER) (.i 0)
  let sh := s.shell.alloc tmp
  have same : sh.cell p = s.shell.cell p := by
    simp [sh, cell_alloc, Nat.ne_of_lt inside]
  have fresh : sh.cell s.shell.next = tmp := by simp [sh, cell_alloc]
  let tmp' : Var := { tmp with type := base, val := .i v }
  have set : setintV sh s.shell.next p = some (sh.write s.shell.next tmp') := by
    have flags : (if has (ISSET ||| INTEGER) INTEGER = true then ISSET ||| INTEGER
        else (ISSET ||| INTEGER) &&& ~~~ALLOC) ||| (ISSET ||| INTEGER) = ISSET ||| INTEGER := by
      decide
    unfold setintV
    rw [same, number, fresh]
    simp only [tmp, tmp', temporary, flags, if_true]
  refine ⟨{ s with shell := sh.write s.shell.next tmp' }, ?_, ?_, ?_, rfl, Nat.lt_succ_self _⟩
  · unfold intvar
    rw [bind_ok (cellAt_run p s), if_neg fun kept => name kept.1]
    unfold tempvar
    rw [bind_ok (allocate_run tmp s), bind_ok (get_run _)]
    simp only
    rw [show s.shell.alloc tmp = sh from rfl, set]
    rfl
  · rw [cell_write_self]
    exact ⟨rfl, rfl, getint_base number, rfl⟩
  · exact
      { next := Nat.le_succ _
        cells := by
          intro q old _
          rw [cell_write_ne _ _ (Nat.ne_of_lt old)]
          simp [sh, cell_alloc, Nat.ne_of_lt old]
        blocks := rfl, noassign := rfl, owner := rfl, evaling := rfl, expression := rfl }

theorem storeNumber_keeps {a : Addr} {n : Long}
    (sound : has (s.shell.cell p).flag INTEGER = true → (s.shell.cell p).type ≠ -1)
    (writable : has (s.shell.cell p).flag RDONLY = false) (plain : Plain (s.shell.cell a) n) :
    ∃ s', storeNumber p a s = .ok () s' ∧ Updated s s' p ∧
      ((∃ base, getint (s'.shell.cell p) = some (base, n)) ↔ Keeps (s.shell.cell p) n) := by
  unfold storeNumber
  rw [bind_ok (cellAt_run p s)]
  cases integer : has (s.shell.cell p).flag INTEGER with
  | true =>
      rw [if_pos rfl, onShell_run]
      have stored : setintV s.shell p a = some (s.shell.write p
          { s.shell.cell p with
            flag := (s.shell.cell p).flag ||| (ISSET ||| INTEGER)
            type := if (s.shell.cell p).type = 0 then (s.shell.cell a).type
              else (s.shell.cell p).type
            val := .i n }) := by
        rw [setintV, plain.temp.getint]
        dsimp only
        rw [if_pos integer]
      rw [stored]
      refine ⟨_, rfl, Updated.write s p _, fun _ => Or.inl integer, fun _ => ?_⟩
      rw [Option.getD_some, cell_write_self]
      refine ⟨_, getint_number ?_ ?_ ?_ rfl⟩
      · dsimp only
        rw [or_has, show has (ISSET ||| INTEGER) ISSET = true by decide, Bool.or_true]
      · dsimp only
        rw [or_has, show has (ISSET ||| INTEGER) INTEGER = true by decide, Bool.or_true]
      · dsimp only
        by_cases zero : (s.shell.cell p).type = 0
        · rw [if_pos zero]
          exact plain.type
        · rw [if_neg zero]
          exact sound integer
  | false =>
      rw [if_neg Bool.false_ne_true, bind_ok (numberAt_run a s), plain.number, onShell_run]
      have stored : setint s.shell p n = storeText s.shell p ((strVal (vtemp n)).getD []) := by
        unfold setint
        dsimp only
        rw [integer, writable, if_neg Bool.false_ne_true, if_neg Bool.false_ne_true]
      have holds := storeText_holds s.shell p ((strVal (vtemp n)).getD []) integer
      obtain ⟨v, writes⟩ := storeText_writes s.shell p ((strVal (vtemp n)).getD [])
      rw [writes] at holds
      rw [stored, writes]
      refine ⟨_, rfl, Updated.write s p v, ?_⟩
      rw [holds.getint]
      exact shownText_keeps n integer

/-- What a step leaves: its value in a temporary, and the new number in the variable if the
variable keeps it. -/
structure Stepped (form : Form) (s s' : State) (p a : Addr) (v : Long) : Prop where
  frame : Framed s s' (some p)
  es : s'.es = s.es
  new : s.shell.next ≤ a
  inside : a < s'.shell.next
  plain : Plain (s'.shell.cell a) (if form.isPrefix then form.stepped v else throughInt v)
  keeps : (∃ base, getint (s'.shell.cell p) = some (base, form.stepped v)) ↔
    Keeps (s.shell.cell p) (form.stepped v)

theorem assignCheck_run {op : Token} (name : (s.shell.cell p).name ≠ []) :
    assignCheck op p s =
      if has (s.shell.cell p).flag RDONLY then
        .error (.evalerr .ET_RDONLY s.es.expression op.spelling) s
      else .ok () s := by
  unfold assignCheck
  rw [bind_ok (cellAt_run p s), if_neg fun empty => name empty.1]
  cases has (s.shell.cell p).flag RDONLY <;> rfl

theorem doPpmm_readOnly (nested : Nested) (op : Token) (isPrefix : Bool)
    (name : (s.shell.cell p).name ≠ []) (readOnly : has (s.shell.cell p).flag RDONLY = true) :
    ∃ stop, doPpmm nested op p isPrefix s = .error stop s := by
  refine ⟨.evalerr .ET_RDONLY s.es.expression op.spelling, ?_⟩
  unfold doPpmm
  exact bind_error ((assignCheck_run name).trans (if_pos readOnly))

theorem doPpmm_steps (nested : Nested) (form : Form) {v : Long} {base : Int}
    (name : (s.shell.cell p).name ≠ []) (inside : p < s.shell.next)
    (number : getint (s.shell.cell p) = some (base, v))
    (writable : has (s.shell.cell p).flag RDONLY = false) :
    ∃ a s', doPpmm nested form.op.val p form.isPrefix s = .ok a s' ∧ Stepped form s s' p a v := by
  have differ : s.shell.next ≠ p := Nat.ne_of_gt inside
  obtain ⟨s1, run1, plain1, frame1, es1, next1⟩ := intvar_holding nested name inside number
  have same1 : s1.shell.cell p = s.shell.cell p := frame1.cells p inside (by simp)
  obtain ⟨s2, run2, updated2, cell2⟩ :=
    setNumber_updates s.shell.next (form.stepped v) s1
  have plain2 : Plain (s2.shell.cell s.shell.next) (form.stepped v) := by
    rw [cell2]
    exact plain1.set _
  have same2 : s2.shell.cell p = s.shell.cell p := by rw [updated2.cells p differ.symm, same1]
  have sound : has (s2.shell.cell p).flag INTEGER = true → (s2.shell.cell p).type ≠ -1 := by
    rw [same2]
    exact getint_type number
  obtain ⟨s3, run3, updated3, keeps⟩ := storeNumber_keeps sound (same2 ▸ writable) plain2
  have frame3 : Framed s s3 (some p) :=
    ((frame1.widen _).trans updated2.framed
      (by rintro q ⟨⟩ old; exact absurd old (Nat.lt_irrefl _))).trans updated3.framed
      (fun _ same _ => same)
  have next3 : s.shell.next < s3.shell.next := by
    rw [updated3.next, updated2.next]
    exact next1
  have es3 : s3.es = s.es := by rw [updated3.es, updated2.es, es1]
  have plain3 : Plain (s3.shell.cell s.shell.next) (form.stepped v) := by
    rw [updated3.cells _ differ]
    exact plain2
  rw [same2] at keeps
  unfold doPpmm
  rw [bind_ok ((assignCheck_run name).trans (if_neg (by simp [writable]))), bind_ok run1,
    bind_ok (numberAt_run _ s1), plain1.number]
  rw [show (if form.op.val = .O_PLUSPLUS then v + 1 else v - 1) = form.stepped v from rfl,
    bind_ok run2, bind_ok run3]
  cases first : form.isPrefix with
  | true =>
      refine ⟨_, s3, rfl, frame3, es3, Nat.le_refl _, next3, ?_, keeps⟩
      rw [first, if_pos rfl]
      exact plain3
  | false =>
      obtain ⟨s4, run4, updated4, cell4⟩ := setNumber_updates s.shell.next (throughInt v) s3
      have same4 : s4.shell.cell p = s3.shell.cell p := updated4.cells p differ.symm
      refine ⟨s.shell.next, s4, ?_, ?_, ?_, Nat.le_refl _, ?_, ?_, ?_⟩
      · rw [if_neg Bool.false_ne_true, bind_ok run4]
        rfl
      · exact frame3.trans updated4.framed
          (by rintro q ⟨⟩ old; exact absurd old (Nat.lt_irrefl _))
      · rw [updated4.es, es3]
      · rw [updated4.next]
        exact next3
      · rw [first, if_neg Bool.false_ne_true, cell4]
        exact plain3.set _
      · rw [same4]
        exact keeps

/-! ## The tokens -/

theorem token_variable {s : State} {x : VarName} {rest : List Byte} {p : Addr}
    (text : s.es.tokp = x.val ++ rest) (owner : s.es.owner = none) (free : s.es.noassign = 0)
    (apart : ∀ c, rest.head? = some c → letnum c = false ∧ c ≠ byte '[')
    (found : lookup s.shell.blocks x.val = some p) :
    token s = .ok () { s with es := { s.es with tok := .VAR, val := p, tokp := rest } } := by
  obtain ⟨c, more, shape, isLetter⟩ := x.property.first
  have skipped : s.es.tokp.dropWhile isspace = c :: (more ++ rest) := by
    rw [text, shape, List.cons_append, List.dropWhile_cons_of_neg (by simp [letter_facts isLetter])]
  have stops : rest.takeWhile letnum = [] ∧ rest.dropWhile letnum = rest := by
    cases rest with
    | nil => exact ⟨rfl, rfl⟩
    | cons d rest =>
        have notName := (apart d rfl).1
        exact ⟨List.takeWhile_cons_of_neg (by simp [notName]),
          List.dropWhile_cons_of_neg (by simp [notName])⟩
  have noBracket : rest.head? ≠ some (byte '[') := fun bracket => (apart _ bracket).2 rfl
  unfold token
  rw [bind_ok (get_run s)]
  simp only [readable_of_owner owner, Bool.not_true, Bool.false_eq_true, if_false, skipped,
    isLetter, if_true]
  unfold varToken
  rw [← List.cons_append, ← shape]
  simp only [List.dropWhile_append_of_pos x.property.rest, List.takeWhile_append_of_pos
    x.property.rest, stops, noBracket, false_and, if_false, List.append_nil]
  have named : global s.shell x.val = (p, s.shell) := by rw [global, found]
  rw [bind_ok (get_run s), if_neg (by simp [free]), if_neg (by simp), bind_ok (get_run s), named]
  rfl

theorem stepOp_cases (op : StepOp) : op.val = .O_PLUSPLUS ∨ op.val = .O_MINUSMINUS := by
  obtain ⟨op, isPpmm⟩ := op
  revert isPpmm
  cases op <;> decide

theorem token_stepOp (op : StepOp) {rest : List Byte} (text : s.es.tokp = op.val.spelling ++ rest)
    (owner : s.es.owner = none) :
    token s = .ok () { s with es := { s.es with tok := op.val, tokp := rest } } := by
  unfold token
  rw [bind_ok (get_run s)]
  simp only [readable_of_owner owner, Bool.not_true, Bool.false_eq_true, if_false, text]
  rcases stepOp_cases op with same | same <;> rw [same] <;> rfl

theorem token_end (text : s.es.tokp = []) (owner : s.es.owner = none) :
    token s = .ok () { s with es := { s.es with tok := .END, tokp := [] } } := by
  unfold token
  rw [bind_ok (get_run s)]
  simp only [readable_of_owner owner, Bool.not_true, Bool.false_eq_true, if_false, text]
  rfl

/-! ## The evaluation -/

theorem evalexpr_atEnd (nested : Nested) {fuel : Nat} {s' : State} {a : Addr}
    (run : evalexpr nested (fuel + 1) 0 s = .ok a s') (atEnd : s'.es.tok = .END) :
    ∀ prec, evalexpr nested (fuel + 1 + prec) prec s = .ok a s' := by
  intro prec
  induction prec with
  | zero => exact run
  | succ prec ih =>
      have leaves : (s'.es.tok.isBinop && decide (s'.es.tok.prec = prec + 1)) = false := by
        rw [atEnd]
        rfl
      rw [show fuel + 1 + (prec + 1) = fuel + prec + 1 + 1 by omega, evalexpr,
        show fuel + prec + 1 = fuel + 1 + prec by omega, bind_ok ih,
        show fuel + 1 + prec = fuel + prec + 1 by omega]
      exact evalLoop_exit nested a leaves

/-- The state at the first token of a step. -/
structure AtStep (form : Form) (x : VarName) (p : Addr) (s : State) : Prop where
  owner : s.es.owner = none
  free : s.es.noassign = 0
  found : lookup s.shell.blocks x.val = some p
  tok : s.es.tok = if form.isPrefix then form.op.val else .VAR
  val : form.isPrefix = false → s.es.val = p
  tokp : s.es.tokp = if form.isPrefix then x.val else form.op.val.spelling

theorem spelling_apart (op : StepOp) (c : Byte) (first : op.val.spelling.head? = some c) :
    letnum c = false ∧ c ≠ byte '[' := by
  rcases stepOp_cases op with same | same <;> rw [same] at first <;> cases first <;> decide

theorem stepOp_isPpmm (op : StepOp) : op.val.isPpmm = true ∧ op.val.isUnary = false ∧
    op.val ≠ .OPEN_PAREN := by
  rcases stepOp_cases op with same | same <;> rw [same] <;> decide

/-- The whole expression comes down to one step of its variable. -/
theorem evalexpr_next (nested : Nested) (form : Form) (at_ : AtStep form x p s) (fuel : Nat) :
    ∃ s1, s1.shell = s.shell ∧ s1.es.owner = none ∧ s1.es.evaling = s.es.evaling ∧
      (∀ stop, doPpmm nested form.op.val p form.isPrefix s1 = .error stop s1 →
        evalexpr nested (fuel + 2) 0 s = .error stop s1) ∧
      ∀ a s2, doPpmm nested form.op.val p form.isPrefix s1 = .ok a s2 → s2.es = s1.es →
        evalexpr nested (fuel + 2) 0 s =
          .ok a { s2 with es := { s2.es with tok := .END, tokp := [] } } := by
  obtain ⟨isPpmm, notUnary, notParen⟩ := stepOp_isPpmm form.op
  obtain ⟨owner, free, found, tok, val, tokp⟩ := at_
  cases first : form.isPrefix with
  | true =>
      rw [first, if_pos rfl] at tok tokp
      have read := token_variable (tokp.trans (List.append_nil _).symm) owner free
        (fun c impossible => by cases impossible) found
      have begun : primary nested (fuel + 1) s = (do
          let vl ← doPpmm nested form.op.val p true
          token
          return vl : ExprM Addr)
            { s with es := { s.es with tok := .VAR, val := p, tokp := [] } } := by
        rw [primary, bind_ok (tokenNow_run s), tok, if_neg (by simp [notUnary]), if_neg notParen,
          if_pos isPpmm, bind_ok read, bind_ok (tokenNow_run _), if_neg (by simp)]
        rfl
      refine ⟨{ s with es := { s.es with tok := .VAR, val := p, tokp := [] } }, rfl, owner, rfl,
         fun stop stopped => ?_, fun a s2 steps es => ?_⟩
      · rw [evalexpr]
        exact bind_error (begun.trans (bind_error stopped))
      · have atEnd := token_end (s := s2) (by rw [es]) (by rw [es]; exact owner)
        rw [evalexpr, bind_ok (begun.trans ((bind_ok steps).trans (bind_ok atEnd)))]
        exact postfixOps_exit nested a rfl
  | false =>
      rw [first, if_neg Bool.false_ne_true] at tok tokp
      have read := token_stepOp form.op (tokp.trans (List.append_nil _).symm) owner
      have begun : evalexpr nested (fuel + 2) 0 s = (do
          let vl ← doPpmm nested form.op.val p false
          token
          return vl : ExprM Addr)
            { s with es := { s.es with tok := form.op.val, tokp := [] } } := by
        rw [evalexpr, bind_ok (primary_leaf nested (Or.inl tok) read), postfixOps,
          bind_ok (tokenNow_run _), if_pos isPpmm, val first]
      refine ⟨{ s with es := { s.es with tok := form.op.val, tokp := [] } }, rfl, owner, rfl,
         fun stop stopped => ?_, fun a s2 steps es => ?_⟩
      · exact begun.trans (bind_error stopped)
      · have atEnd := token_end (s := s2) (by rw [es]) (by rw [es]; exact owner)
        exact begun.trans ((bind_ok steps).trans (bind_ok atEnd))

theorem token_atStep (form : Form) (text : s.es.tokp = form.text x) (owner : s.es.owner = none)
    (free : s.es.noassign = 0) (found : lookup s.shell.blocks x.val = some p) :
    ∃ s', token s = .ok () s' ∧ AtStep form x p s' ∧ s'.shell = s.shell := by
  unfold Form.text at text
  cases first : form.isPrefix with
  | true =>
      rw [first, if_pos rfl] at text
      refine ⟨_, token_stepOp form.op text owner, ⟨owner, free, found, ?_, ?_, ?_⟩, rfl⟩
      · rw [first, if_pos rfl]
      · intro impossible
        rw [first] at impossible
        cases impossible
      · rw [first, if_pos rfl]
  | false =>
      rw [first, if_neg Bool.false_ne_true] at text
      refine ⟨_, token_variable text owner free (spelling_apart form.op) found,
        ⟨owner, free, found, ?_, fun _ => rfl, ?_⟩, rfl⟩
      · rw [first, if_neg Bool.false_ne_true]
      · rw [first, if_neg Bool.false_ne_true]

theorem AtStep.not_end {form : Form} (at_ : AtStep form x p s) : s.es.tok ≠ .END := by
  rw [at_.tok]
  cases form.isPrefix with
  | true => rcases stepOp_cases form.op with same | same <;> rw [same] <;> decide
  | false =>
      rw [if_neg Bool.false_ne_true]
      decide

/-- The operand is climbed to from the lowest precedence. -/
theorem evaluation_begins (nested : Nested) (form : Form) (vp : Addr) (mode : ErrorMode)
    (text : s.es.tokp = form.text x) (owner : s.es.owner = none) (free : s.es.noassign = 0)
    (found : lookup s.shell.blocks x.val = some p) :
    ∃ s1, s1.shell = s.shell ∧
      (∀ stop, doPpmm nested form.op.val p form.isPrefix s1 = .error stop s1 →
        evaluation nested vp (form.text x) mode s = .error stop s1) ∧
      ∀ a s2, doPpmm nested form.op.val p form.isPrefix s1 = .ok a s2 → s2.es = s1.es →
        evaluation nested vp (form.text x) mode s = (do
          let v ← intvar nested a
          if (← tokenNow) ≠ .END then unexpected
          else storeResult vp v mode : ExprM Unit)
            { s2 with es := { s2.es with tok := .END, tokp := [] } } := by
  obtain ⟨s', read, at_, shell'⟩ := token_atStep form text owner free found
  obtain ⟨s1, shell1, _, _, fails, steps⟩ :=
    evalexpr_next nested form at_ (16 * (form.text x).length + 17)
  have begun : evaluation nested vp (form.text x) mode s = (do
      let v ← intvar nested (← evalexpr nested (callDepth (form.text x)) MAX_PREC)
      if (← tokenNow) ≠ .END then unexpected
      else storeResult vp v mode : ExprM Unit) s' := by
    unfold evaluation
    rw [bind_ok read, bind_ok (tokenNow_run s'), if_neg at_.not_end]
  refine ⟨s1, shell1.trans shell', fun stop stopped => ?_, fun a s2 stepped es => ?_⟩
  · rw [begun]
    exact bind_error (Nat.zero_add MAX_PREC ▸ evalexpr_fails nested (fails stop stopped) MAX_PREC)
  · rw [begun]
    exact bind_ok (evalexpr_atEnd nested (steps a s2 stepped es) rfl MAX_PREC)

theorem evaluate_steps (form : Form) {sh : Shell} {v : Long} (holding : Holding sh x p v)
    (writable : has (sh.cell p).flag RDONLY = false) (depth : Nat) (mode : ErrorMode) :
    ∃ sh', evaluate (depth + 1) (form.text x) mode sh =
        .ok (true, if form.isPrefix then form.stepped v else throughInt v) sh' ∧
      ((∃ base, getint (sh'.cell p) = some (base, form.stepped v)) ↔
        Keeps (sh.cell p) (form.stepped v)) := by
  obtain ⟨found, inside, name, base, number⟩ := holding
  have apart : p ≠ sh.next := Nat.ne_of_lt inside
  have same0 : (sh.alloc resultCell).cell p = sh.cell p := by rw [cell_alloc, if_neg apart]
  have target : (sh.alloc resultCell).cell sh.next = resultCell := by simp [cell_alloc]
  obtain ⟨s1, shell1, _, steps⟩ := evaluation_begins (nestedWith (vEvaluate depth)) form sh.next
    mode (s := ⟨sh.alloc resultCell, initialState (form.text x) none⟩) rfl rfl rfl found
  have inside1 : p < s1.shell.next := by
    rw [shell1]
    exact Nat.lt_succ_of_lt inside
  obtain ⟨a, s2, run, stepped⟩ := doPpmm_steps (nestedWith (vEvaluate depth)) form
    (s := s1) (p := p) (by rw [shell1, same0]; exact name) inside1
    (by rw [shell1, same0]; exact number) (by rw [shell1, same0]; exact writable)
  have kept2 : s2.shell.cell sh.next = resultCell := by
    rw [stepped.frame.cells sh.next (by rw [shell1]; exact Nat.lt_succ_self _)
      (by simpa using apart), shell1, target]
  obtain ⟨b, s3, cast, plain3, frame3, es3, _, _⟩ :=
    intvar_temp (nestedWith (vEvaluate depth))
      (s := { s2 with es := { s2.es with tok := .END, tokp := [] } }) stepped.plain.temp
      stepped.inside
  have inside2 : sh.next < s2.shell.next :=
    Nat.lt_of_lt_of_le (by rw [shell1]; exact Nat.lt_succ_self _) stepped.frame.next
  have kept3 : s3.shell.cell sh.next = resultCell :=
    (frame3.cells sh.next inside2 (by simp)).trans kept2
  obtain ⟨s4, stored, result, others⟩ := storeResult_integer mode kept3 plain3
  have whole : evaluation (nestedWith (vEvaluate depth)) sh.next (form.text x) mode
      ⟨sh.alloc resultCell, initialState (form.text x) none⟩ = .ok () s4 := by
    rw [steps a s2 run stepped.es, bind_ok cast, bind_ok (tokenNow_run s3), es3,
      if_neg (by simp), stored]
  refine ⟨s4.shell, ?_, ?_⟩
  · rw [evaluate_ok whole, result]
  · have same4 : s4.shell.cell p = s2.shell.cell p :=
      (others p apart).trans (frame3.cells p (Nat.lt_of_lt_of_le inside1 stepped.frame.next) (by simp))
    rw [same4, stepped.keeps, shell1, same0]

theorem evaluate_readOnly (form : Form) {sh : Shell} {v : Long} (holding : Holding sh x p v)
    (readOnly : has (sh.cell p).flag RDONLY = true) (depth : Nat) (mode : ErrorMode) (result : Long)
    (sh' : Shell) :
    evaluate (depth + 1) (form.text x) mode sh ≠ .ok (true, result) sh' := by
  obtain ⟨found, inside, name, _⟩ := holding
  have same0 : (sh.alloc resultCell).cell p = sh.cell p := by
    rw [cell_alloc, if_neg (Nat.ne_of_lt inside)]
  obtain ⟨s1, shell1, fails, _⟩ := evaluation_begins (nestedWith (vEvaluate depth)) form sh.next
    mode (s := ⟨sh.alloc resultCell, initialState (form.text x) none⟩) rfl rfl rfl found
  obtain ⟨stop, stopped⟩ := doPpmm_readOnly (nestedWith (vEvaluate depth)) form.op.val
    form.isPrefix (s := s1) (p := p) (by rw [shell1, same0]; exact name)
    (by rw [shell1, same0]; exact readOnly)
  exact evaluate_failed (fails stop stopped) result sh'

/-- A step has the value of its kind and leaves the variable stepped exactly when the
variable may be written, the value of a postfix step fits an `int`, and what is stored
is read back. -/
theorem step_iff (form : Form) (x : VarName) (sh : Shell) (p : Addr) (v : Long)
    (holding : Holding sh x p v) (depth : Nat) (mode : ErrorMode) :
    Leaves (depth + 1) (form.text x) mode sh p (form.result v) (form.stepped v) ↔
      has (sh.cell p).flag RDONLY = false ∧
      (form.isPrefix = true ∨ -2147483648 ≤ v.toInt ∧ v.toInt ≤ 2147483647) ∧
      Keeps (sh.cell p) (form.stepped v) := by
  cases readOnly : has (sh.cell p).flag RDONLY with
  | true =>
      refine ⟨?_, fun ⟨impossible, _⟩ => by cases impossible⟩
      rintro ⟨sh', base, run, _⟩
      exact absurd run (evaluate_readOnly form holding readOnly depth mode _ sh')
  | false =>
      obtain ⟨sh', run, keeps⟩ := evaluate_steps form holding readOnly depth mode
      have value : (if form.isPrefix then form.stepped v else throughInt v) = form.result v ↔
          form.isPrefix = true ∨ -2147483648 ≤ v.toInt ∧ v.toInt ≤ 2147483647 := by
        rw [← throughInt_eq_iff, Form.result]
        cases form.isPrefix <;> simp
      rw [← value, ← keeps]
      constructor
      · rintro ⟨sh'', base, again, read⟩
        rw [run] at again
        injection again with values shells
        subst shells
        exact ⟨rfl, congrArg Prod.snd values, base, read⟩
      · rintro ⟨_, same, base, read⟩
        exact ⟨sh', base, same ▸ run, read⟩

/-- The name `x`. -/
def integerName : VarName := ⟨[120], ⟨120, [], rfl, by decide⟩, by decide +kernel⟩

/-- A shell whose only variable is the integer `x`. -/
def integerShell (v : Long) : Shell :=
  { next := 1
    cell := fun _ => { freshVar [120] with flag := DEFINED ||| ISSET ||| INTEGER, type := 10, val := .i v }
    blocks := [[([120], 0)]] }

theorem integerShell_holding (v : Long) : Holding (integerShell v) integerName 0 v :=
  ⟨rfl, Nat.one_pos, by simp [integerShell, freshVar], 10, getint_number
    (show has (DEFINED ||| ISSET ||| INTEGER) ISSET = true by decide)
    (show has (DEFINED ||| ISSET ||| INTEGER) INTEGER = true by decide)
    (show (10 : Int) ≠ -1 by decide) rfl⟩

/-- `x--` with `x` minus one. -/
theorem step_iff_minusOne :
    Leaves 1 [120, 45, 45] .KSH_RETURN_ERROR (integerShell (-1)) 0 (-1) (-2) ↔
      has ((integerShell (-1)).cell 0).flag RDONLY = false ∧
      (false = true ∨ -2147483648 ≤ (-1 : Long).toInt ∧ (-1 : Long).toInt ≤ 2147483647) ∧
      Keeps ((integerShell (-1)).cell 0) (-2) :=
  step_iff ⟨⟨.O_MINUSMINUS, rfl⟩, false⟩ integerName (integerShell (-1)) 0 (-1) (integerShell_holding _) 0
    .KSH_RETURN_ERROR

/-- `x++` with `x` 2147483648 has the value -2147483648. -/
theorem postIncrement_truncates :
    ¬ Leaves 1 [120, 43, 43] .KSH_RETURN_ERROR (integerShell 2147483648) 0 2147483648 2147483649 := by
  rintro ⟨sh', base, run, _⟩
  obtain ⟨sh'', truncated, _⟩ := evaluate_steps ⟨⟨.O_PLUSPLUS, rfl⟩, false⟩
    (integerShell_holding 2147483648) (by decide) 0 .KSH_RETURN_ERROR
  have same : (true, (2147483648 : Long)) = (true, throughInt 2147483648) := by
    injection run.symm.trans truncated
  exact absurd (congrArg Prod.snd same) (by decide)

end Netbase.Ksh.Expr
