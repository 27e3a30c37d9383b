import Netbase.Join.Input
import Netbase.Lib.KeyJoin

/-!
# The merge of join

The sets of both files are compared by their join fields, and the smaller one
is written alone.  For sorted files this is the relational join: every pair of
lines with one key, and every line without a partner when its file was chosen.
-/

namespace Netbase.Join

open Netbase.Text Netbase.Lib

/-! ## Options -/

inductive FileNo where
  | one
  | two
  deriving DecidableEq

/-- The options that choose lines; `-a` without a number stands for both files. -/
inductive Flag where
  | a (file : Option FileNo)
  | v (file : FileNo)

/-- What the options leave in the globals of `join`. -/
structure Chosen where
  aflag : Bool
  vflag : Bool
  joinout : Bool
  unpair1 : Bool
  unpair2 : Bool

def Chosen.option (chosen : Chosen) : Flag → Chosen
  | .a none => { chosen with aflag := true, unpair1 := true, unpair2 := true }
  | .a (some .one) => { chosen with aflag := true, unpair1 := true }
  | .a (some .two) => { chosen with aflag := true, unpair2 := true }
  | .v .one => { chosen with vflag := true, joinout := false, unpair1 := true }
  | .v .two => { chosen with vflag := true, joinout := false, unpair2 := true }

def chosen (flags : List Flag) : Chosen := flags.foldl Chosen.option ⟨false, false, true, false, false⟩

/-- The options of the output: the replacement of `-e` and the fields of `-o`. -/
structure Options extends Splitting where
  empty : Option (List Byte)
  olist : List (Nat × Nat)

/-! ## Output -/

def noline : Line := ⟨[]⟩

def outfield (o : Options) (needsep : Nat) (lp : Line) (fieldno : Nat) : List Byte :=
  (if needsep ≠ 0 then o.tabchar.take 1 else []) ++
    match lp.fields[fieldno]? with
    | none => o.empty.getD []
    | some field => field

/-- The fields of one output line, with separators between them. -/
def outfields (o : Options) : Nat → List (Line × Nat) → List Byte
  | _, [] => []
  | needsep, (lp, fieldno) :: more =>
      outfield o needsep lp fieldno ++ outfields o (needsep + 1) more

def outoneline (o : Options) (number : Nat) (lp : Line) : List Byte :=
  outfields o 0
    (if o.olist ≠ [] then
      o.olist.map fun out => if out.1 = number then (lp, out.2) else (noline, 1)
    else (List.range lp.fields.length).map fun cnt => (lp, cnt)) ++ [nl]

def outtwoline (o : Options) (joinf1 : Nat) (lp1 : Line) (joinf2 : Nat) (lp2 : Line) : List Byte :=
  outfields o 0
    (if o.olist ≠ [] then
      o.olist.map fun out => if out.1 = 1 then (lp1, out.2) else (lp2, out.2)
    else
      (lp1, joinf1) ::
        (((List.range lp1.fields.length).filter (joinf1 ≠ ·)).map fun cnt => (lp1, cnt)) ++
        (((List.range lp2.fields.length).filter (joinf2 ≠ ·)).map fun cnt => (lp2, cnt))) ++ [nl]

/-- The sets of one file, or the pairs of the sets of both. -/
def joinlines (o : Options) (F1 : Input) : Option Input → List (List Byte)
  | none => F1.held.map fun lp => outoneline o F1.number lp
  | some F2 =>
      F1.held.flatMap fun lp1 => F2.held.map fun lp2 => outtwoline o F1.joinf lp1 F2.joinf lp2

/-! ## The main loop -/

/-- Sets are compared until one file is used up. -/
def mainLoop (o : Options) (joinout : Bool) :
    Nat → Input → Input → List (List Byte) → Input × Input × List (List Byte)
  | 0, F1, F2, out => (F1, F2, out)
  | fuel + 1, F1, F2, out =>
      if F1.setcnt ≠ 0 ∧ F2.setcnt ≠ 0 then
        let cval := cmp (F1.slot 0) F1.joinf (F2.slot 0) F2.joinf
        if cval = 0 then
          mainLoop o joinout fuel (slurp o.toSplitting F1) (slurp o.toSplitting F2)
            (if joinout then out ++ joinlines o F1 (some F2) else out)
        else if cval < 0 then
          mainLoop o joinout fuel (slurp o.toSplitting F1) F2
            (if F1.unpair then out ++ joinlines o F1 none else out)
        else
          mainLoop o joinout fuel F1 (slurp o.toSplitting F2)
            (if F2.unpair then out ++ joinlines o F2 none else out)
      else (F1, F2, out)

/-- The remaining sets of one file. -/
def drain (o : Options) : Nat → Input → List (List Byte) → List (List Byte)
  | 0, _, out => out
  | fuel + 1, F, out =>
      if F.setcnt ≠ 0 then drain o fuel (slurp o.toSplitting F) (out ++ joinlines o F none)
      else out

/-- Both files after the loop. -/
def finish (o : Options) (fuel : Nat) (F1 F2 : Input) (out : List (List Byte)) :
    List (List Byte) :=
  let out1 := if F1.unpair then drain o fuel F1 out else out
  if F2.unpair then drain o fuel F2 out1 else out1

inductive Refusal where
  | exclusive
  deriving DecidableEq

/-- The lines that join writes. -/
def join (o : Options) (flags : List Flag) (joinf1 joinf2 : Nat) (file1 file2 : List Byte) :
    Except Refusal (List (List Byte)) :=
  let c := chosen flags
  if c.aflag && c.vflag then .error .exclusive
  else
    let fuel := file1.length + file2.length + 1
    let F1 := slurp o.toSplitting ⟨file1, joinf1, c.unpair1, 1, [], none, 0⟩
    let F2 := slurp o.toSplitting ⟨file2, joinf2, c.unpair2, 2, [], none, 0⟩
    let ended := mainLoop o c.joinout fuel F1 F2 []
    .ok (finish o fuel ended.1 ended.2.1 ended.2.2)

/-! ## The relational result -/

/-- Does an option choose the unpaired lines of a file? -/
def Flag.selects (file : FileNo) : Flag → Bool
  | .a none => true
  | .a (some other) => other = file
  | .v other => other = file

def Flag.isA : Flag → Bool
  | .a _ => true
  | .v _ => false

def Flag.isV : Flag → Bool
  | .a _ => false
  | .v _ => true

def records (s : Splitting) (file : List Byte) : List Line := (lines file).map s.line

/-- A file sorted on its join field. -/
def Sorted (joinf : Nat) (rows : List Line) : Prop :=
  rows.Pairwise fun lp1 lp2 => cmp lp1 joinf lp2 joinf ≤ 0

instance (joinf : Nat) (rows : List Line) : Decidable (Sorted joinf rows) :=
  inferInstanceAs (Decidable (rows.Pairwise fun lp1 lp2 => cmp lp1 joinf lp2 joinf ≤ 0))

/-- One output line for every pair unless `-v` is given, and one for every line without a
partner of a chosen file. -/
def rule (o : Options) (flags : List Flag) (joinf1 joinf2 : Nat) :
    JoinRule Line Line (List Byte) (WithTop (List Nat)) where
  left := Line.key joinf1
  right := Line.key joinf2
  paired lp1 lp2 := if flags.any Flag.isV then [] else [outtwoline o joinf1 lp1 joinf2 lp2]
  leftOnly lp := if flags.any (Flag.selects .one) then [outoneline o 1 lp] else []
  rightOnly lp := if flags.any (Flag.selects .two) then [outoneline o 2 lp] else []

theorem chosen_eq (flags : List Flag) :
    chosen flags = ⟨flags.any Flag.isA, flags.any Flag.isV, !flags.any Flag.isV,
      flags.any (Flag.selects .one), flags.any (Flag.selects .two)⟩ := by
  have step : ∀ c : Chosen, flags.foldl Chosen.option c =
      ⟨c.aflag || flags.any Flag.isA, c.vflag || flags.any Flag.isV,
        c.joinout && !flags.any Flag.isV, c.unpair1 || flags.any (Flag.selects .one),
        c.unpair2 || flags.any (Flag.selects .two)⟩ := by
    induction flags with
    | nil => intro c; simp
    | cons flag flags ih =>
        intro c
        rw [List.foldl_cons, ih]
        rcases flag with ((_ | _ | _) | (_ | _)) <;>
          simp [Chosen.option, Flag.isA, Flag.isV, Flag.selects]
  rw [chosen, step]
  simp

/-! ## Sets of sorted files -/

/-- The rows of a file that were not used yet: its set, and what comes behind. -/
structure Current (s : Splitting) (F : Input) (rows : List Line) : Prop where
  held : F.held = (firstSet F.joinf rows).1
  pending : F.pending s = (firstSet F.joinf rows).2
  ready : F.Ready
  clean : ∀ lp ∈ rows, lp.Clean
  sorted : Sorted F.joinf rows

theorem firstSet_append (joinf : Nat) (rows : List Line) :
    (firstSet joinf rows).1 ++ (firstSet joinf rows).2 = rows := by
  cases rows with
  | nil => rfl
  | cons lp rest => simp [firstSet]

variable {F : Input} {rows : List Line} {s : Splitting}

theorem Current.rows_eq (current : Current s F rows) :
    rows = F.held ++ F.pending s := by
  rw [current.held, current.pending, firstSet_append]

/-- The next `slurp` goes on behind the set. -/
theorem Current.slurp (current : Current s F rows) :
    Current s (slurp s F) (F.pending s) ∧ F.Same (slurp s F) := by
  have clean : F.CleanPending s := fun lp member =>
    current.clean lp (by rw [current.rows_eq]; exact List.mem_append_right _ member)
  have read := slurp_sets s current.ready clean
  refine ⟨⟨?_, ?_, read.ready, clean, ?_⟩, read.same⟩
  · rw [read.held, read.same.joinf]
  · rw [read.pending, read.same.joinf]
  · rw [read.same.joinf]
    have sorted := current.sorted
    rw [current.rows_eq] at sorted
    exact (List.pairwise_append.mp sorted).2.1

theorem key_le {joinf : Nat} {lp1 lp2 : Line} (clean : lp1.Clean) (clean' : lp2.Clean)
    (ordered : cmp lp1 joinf lp2 joinf ≤ 0) : lp1.key joinf ≤ lp2.key joinf := by
  have signs := cmp_sign clean clean' joinf joinf
  rcases ordered.lt_or_eq with less | equal
  · exact (signs.2.mp less).le
  · exact (signs.1.mp equal).le

theorem Current.leads (current : Current s F rows) (some : rows ≠ []) :
    (F.slot 0).Clean ∧ F.held ≠ [] ∧
      JoinRule.Leads (Line.key F.joinf) ((F.slot 0).key F.joinf) F.held (F.pending s) := by
  obtain ⟨lp, rest, rfl⟩ := List.exists_cons_of_ne_nil some
  have first : F.slot 0 = lp := by
    have held := current.held
    rw [firstSet, Input.held] at held
    rw [Input.slot, List.getD_eq_getElem?_getD]
    cases slots : F.set with
    | nil => simp [slots] at held
    | cons slot others =>
        cases counted : F.setcnt with
        | zero => simp [counted] at held
        | succ n =>
            rw [slots, counted, List.take_succ_cons] at held
            simp [(List.cons_eq_cons.mp held).1]
  rw [first, current.held, current.pending]
  refine ⟨current.clean lp (by simp), by simp [firstSet], ?_, ?_⟩
  · intro r member
    rcases List.mem_cons.mp member with rfl | later
    · rfl
    · simpa using List.mem_takeWhile_imp later
  · intro r member
    rw [firstSet] at member
    have sorted := List.pairwise_cons.mp current.sorted
    have reached : ∀ r' ∈ rest, lp.key F.joinf ≤ r'.key F.joinf := fun r' inside =>
      key_le (current.clean lp (by simp)) (current.clean r' (List.mem_cons_of_mem _ inside))
        (sorted.1 r' inside)
    cases behind : rest.dropWhile fun other => other.key F.joinf = lp.key F.joinf with
    | nil => simp [behind] at member
    | cons d more =>
        have suffix : d :: more <:+ rest := behind ▸ List.dropWhile_suffix _
        have other : d.key F.joinf ≠ lp.key F.joinf := by
          have stop := List.head_dropWhile_not
            (fun other : Line => decide (other.key F.joinf = lp.key F.joinf)) (l := rest)
            (by simp [behind])
          simpa [behind] using stop
        have above := (reached d (suffix.subset (by simp))).lt_of_ne other.symm
        simp only [behind] at member
        rcases List.mem_cons.mp member with rfl | later
        · exact above
        · have order := (sorted.2.sublist suffix.sublist)
          have clean : ∀ r' ∈ d :: more, r'.Clean := fun r' inside =>
            current.clean r' (List.mem_cons_of_mem _ (suffix.subset inside))
          exact above.trans_le (key_le (clean d (by simp)) (clean r member)
            ((List.pairwise_cons.mp order).1 r later))

theorem Current.setcnt_iff (current : Current s F rows) : F.setcnt ≠ 0 ↔ rows ≠ [] := by
  constructor
  · rintro some rfl
    have inside := current.ready.setcnt
    have held := congrArg List.length current.held
    rw [Input.held, List.length_take, firstSet, List.length_nil] at held
    omega
  · intro some zero
    refine (current.leads some).2.1 ?_
    rw [Input.held, zero, List.take_zero]

theorem Current.pending_length (current : Current s F rows) (some : rows ≠ []) :
    (F.pending s).length < rows.length := by
  have set := List.length_pos_iff.mpr (current.leads some).2.1
  rw [current.rows_eq, List.length_append]
  omega

/-! ## The whole run -/

/-- The file of an input, by what is fixed for it. -/
structure Input.As (F : Input) (joinf : Nat) (unpair : Bool) (number : Nat) : Prop where
  joinf : F.joinf = joinf
  unpair : F.unpair = unpair
  number : F.number = number

theorem Input.As.same {G : Input} {joinf : Nat} {unpair : Bool} {number : Nat}
    (as : F.As joinf unpair number) (same : F.Same G) : G.As joinf unpair number :=
  ⟨same.joinf.trans as.joinf, same.unpair.trans as.unpair, same.number.trans as.number⟩

variable {o : Options} {flags : List Flag} {joinf1 joinf2 : Nat}

/-- What the loop writes for a set of one file, or for the sets of both. -/
theorem written_if {chosen : Bool} {out text written : List (List Byte)}
    (same : written = if chosen then text else []) :
    (if chosen then out ++ text else out) = out ++ written := by
  rw [same]
  cases chosen with
  | false => simp
  | true => rfl

theorem joinlines_pairs (F1 F2 : Input) (as1 : F1.joinf = joinf1) (as2 : F2.joinf = joinf2) :
    (F1.held.flatMap fun lp1 => F2.held.flatMap ((rule o flags joinf1 joinf2).paired lp1)) =
      if !flags.any Flag.isV then joinlines o F1 (some F2) else [] := by
  cases suppressed : flags.any Flag.isV with
  | true => simp [rule, suppressed, List.flatMap_eq_nil_iff]
  | false => simp [rule, suppressed, joinlines, as1, as2, ← List.map_eq_flatMap]

theorem joinlines_left {F1 : Input} {chosen : Bool} (as1 : F1.As joinf1 chosen 1)
    (selected : flags.any (Flag.selects .one) = chosen) :
    F1.held.flatMap (rule o flags joinf1 joinf2).leftOnly =
      if chosen then joinlines o F1 none else [] := by
  cases chosen with
  | false => simp [rule, selected, List.flatMap_eq_nil_iff]
  | true => simp [rule, selected, joinlines, as1.number, ← List.map_eq_flatMap]

theorem joinlines_right {F2 : Input} {chosen : Bool} (as2 : F2.As joinf2 chosen 2)
    (selected : flags.any (Flag.selects .two) = chosen) :
    F2.held.flatMap (rule o flags joinf1 joinf2).rightOnly =
      if chosen then joinlines o F2 none else [] := by
  cases chosen with
  | false => simp [rule, selected, List.flatMap_eq_nil_iff]
  | true => simp [rule, selected, joinlines, as2.number, ← List.map_eq_flatMap]

/-- The sets of one file are written when the other file is used up. -/
theorem drain_join {number : Nat} {joinf : Nat} {unpair : Bool}
    (written : List Line → List (List Byte)) (empty : written [] = [])
    (ahead : ∀ k front later, JoinRule.Leads (Line.key joinf) k front later → front ≠ [] →
      written (front ++ later) = (front.map fun lp => outoneline o number lp) ++ written later) :
    ∀ (fuel : Nat) (F : Input) (out : List (List Byte)) (rows : List Line),
      Current o.toSplitting F rows → F.As joinf unpair number → rows.length < fuel →
      drain o fuel F out = out ++ written rows := by
  intro fuel
  induction fuel with
  | zero => exact fun F out rows _ _ enough => absurd enough (Nat.not_lt_zero _)
  | succ fuel ih =>
      intro F out rows current as enough
      rw [drain]
      by_cases some : rows = []
      · rw [if_neg (fun counted => current.setcnt_iff.mp counted some), some, empty,
          List.append_nil]
      · have leads := current.leads some
        have less := current.pending_length some
        obtain ⟨next, same⟩ := current.slurp
        rw [if_pos (current.setcnt_iff.mpr some),
          ih _ _ _ next (as.same same) (by omega), current.rows_eq,
          ahead _ _ _ (as.joinf ▸ leads.2.2) leads.2.1, joinlines, as.number, List.append_assoc]

/-- When one file is used up, the rest of the other is written if it was chosen. -/
theorem finish_join {F1 F2 : Input} {rows1 rows2 : List Line} {total : Nat}
    (current1 : Current o.toSplitting F1 rows1) (current2 : Current o.toSplitting F2 rows2)
    (as1 : F1.As joinf1 (flags.any (Flag.selects .one)) 1)
    (as2 : F2.As joinf2 (flags.any (Flag.selects .two)) 2)
    (used : rows1 = [] ∨ rows2 = []) (enough : rows1.length + rows2.length < total)
    (out : List (List Byte)) :
    finish o total F1 F2 out = out ++ (rule o flags joinf1 joinf2).join rows1 rows2 := by
  have skip {number joinf : Nat} {unpair : Bool} {F : Input} (current : Current o.toSplitting F [])
      (as : F.As joinf unpair number) (out : List (List Byte)) : drain o total F out = out := by
    cases total with
    | zero => rfl
    | succ total => rw [drain, if_neg fun counted => current.setcnt_iff.mp counted rfl]
  rw [finish, as1.unpair, as2.unpair]
  rcases used with rfl | rfl
  · simp only [skip current1 as1, ite_self]
    by_cases selected : flags.any (Flag.selects .two) = true
    · rw [if_pos selected]
      refine drain_join (JoinRule.join _ []) ?_ ?_ total F2 out rows2 current2 as2
        (by simpa using enough)
      · simp [JoinRule.join, JoinRule.keys]
      · intro k front later leads some
        rw [JoinRule.join_right _ (by simp) leads some]
        simp [rule, selected, ← List.map_eq_flatMap]
    · rw [if_neg selected, JoinRule.join_nil_left (by simp [rule, selected]), List.append_nil]
  · simp only [skip current2 as2, ite_self]
    by_cases selected : flags.any (Flag.selects .one) = true
    · rw [if_pos selected]
      refine drain_join (JoinRule.join _ · []) ?_ ?_ total F1 out rows1 current1 as1
        (by simpa using enough)
      · simp [JoinRule.join, JoinRule.keys]
      · intro k front later leads some
        rw [JoinRule.join_left _ leads (by simp) some]
        simp [rule, selected, ← List.map_eq_flatMap]
    · rw [if_neg selected, JoinRule.join_nil_right (by simp [rule, selected]), List.append_nil]

theorem mainLoop_join (total : Nat) :
    ∀ (fuel : Nat) (F1 F2 : Input) (out : List (List Byte)) (rows1 rows2 : List Line),
      Current o.toSplitting F1 rows1 → Current o.toSplitting F2 rows2 →
      F1.As joinf1 (flags.any (Flag.selects .one)) 1 →
      F2.As joinf2 (flags.any (Flag.selects .two)) 2 →
      rows1.length + rows2.length < fuel → fuel ≤ total →
      ∃ G1 G2 out', mainLoop o (!flags.any Flag.isV) fuel F1 F2 out = (G1, G2, out') ∧
        finish o total G1 G2 out' = out ++ (rule o flags joinf1 joinf2).join rows1 rows2 := by
  intro fuel
  induction fuel with
  | zero => exact fun F1 F2 out rows1 rows2 _ _ _ _ enough => absurd enough (Nat.not_lt_zero _)
  | succ fuel ih =>
      intro F1 F2 out rows1 rows2 current1 current2 as1 as2 enough below
      have counted := and_congr current1.setcnt_iff current2.setcnt_iff
      rw [mainLoop]
      by_cases used : rows1 ≠ [] ∧ rows2 ≠ []
      · obtain ⟨some1, some2⟩ := used
        obtain ⟨clean1, set1, leads1⟩ := current1.leads some1
        obtain ⟨clean2, set2, leads2⟩ := current2.leads some2
        have less1 := current1.pending_length some1
        have less2 := current2.pending_length some2
        obtain ⟨next1, same1⟩ := current1.slurp
        obtain ⟨next2, same2⟩ := current2.slurp
        have signs := cmp_sign clean1 clean2 F1.joinf F2.joinf
        rw [as1.joinf] at leads1 signs
        rw [as2.joinf] at leads2 signs
        rw [if_pos (counted.mpr ⟨some1, some2⟩), as1.joinf, as2.joinf, as1.unpair, as2.unpair]
        rcases lt_trichotomy (cmp (F1.slot 0) joinf1 (F2.slot 0) joinf2) 0 with less | equal | more
        · obtain ⟨G1, G2, out', run, ends⟩ := ih _ _ (if flags.any (Flag.selects .one) then
            out ++ joinlines o F1 none else out) _ _ next1 current2 (as1.same same1) as2
            (by omega) (by omega)
          rw [if_neg less.ne, if_pos less]
          refine ⟨G1, G2, out', run, ?_⟩
          have below2 := leads2.above (signs.2.mp less)
          rw [← current2.rows_eq] at below2
          rw [ends, written_if (joinlines_left as1 rfl), List.append_assoc,
            ← JoinRule.join_left (rule o flags joinf1 joinf2) leads1 below2 set1,
            ← current1.rows_eq]
        · obtain ⟨G1, G2, out', run, ends⟩ := ih _ _ (if !flags.any Flag.isV then
            out ++ joinlines o F1 (some F2) else out) _ _ next1 next2 (as1.same same1)
            (as2.same same2) (by omega) (by omega)
          rw [if_pos equal]
          refine ⟨G1, G2, out', run, ?_⟩
          rw [← signs.1.mp equal] at leads2
          rw [ends, written_if (joinlines_pairs F1 F2 as1.joinf as2.joinf), List.append_assoc,
            ← JoinRule.join_both (rule o flags joinf1 joinf2) leads1 leads2 set1 set2,
            ← current1.rows_eq, ← current2.rows_eq]
        · obtain ⟨G1, G2, out', run, ends⟩ := ih _ _ (if flags.any (Flag.selects .two) then
            out ++ joinlines o F2 none else out) _ _ current1 next2 as1 (as2.same same2)
            (by omega) (by omega)
          rw [if_neg more.ne', if_neg more.not_gt]
          refine ⟨G1, G2, out', run, ?_⟩
          have greater : (F2.slot 0).key joinf2 < (F1.slot 0).key joinf1 :=
            lt_of_le_of_ne (not_lt.mp (fun less => more.not_gt (signs.2.mpr less)))
              (fun equal => more.ne' (signs.1.mpr equal.symm))
          have below1 := leads1.above greater
          rw [← current1.rows_eq] at below1
          rw [ends, written_if (joinlines_right as2 rfl), List.append_assoc,
            ← JoinRule.join_right (rule o flags joinf1 joinf2) below1 leads2 set2,
            ← current2.rows_eq]
      · rw [if_neg (fun both => used (counted.mp both))]
        refine ⟨F1, F2, out, rfl, finish_join current1 current2 as1 as2 ?_ (by omega) out⟩
        by_contra more
        rw [not_or] at more
        exact used more

theorem Current.start {file : List Byte} {joinf : Nat} (sorted : Sorted joinf (records s file))
    (unpair : Bool) (number : Nat) :
    Current s (Join.slurp s ⟨file, joinf, unpair, number, [], none, 0⟩) (records s file) ∧
      (Join.slurp s ⟨file, joinf, unpair, number, [], none, 0⟩).As joinf unpair number := by
  have clean : ∀ lp ∈ records s file, lp.Clean := by
    intro lp member
    obtain ⟨bp, _, rfl⟩ := List.mem_map.mp member
    exact s.line_clean bp
  have read := slurp_sets s (F := ⟨file, joinf, unpair, number, [], none, 0⟩)
    ⟨Nat.le_refl _, by simp⟩ clean
  refine ⟨⟨?_, ?_, read.ready, clean, ?_⟩, ⟨read.same.joinf, read.same.unpair, read.same.number⟩⟩
  · rw [read.held, read.same.joinf]
    rfl
  · rw [read.pending, read.same.joinf]
    rfl
  · rwa [read.same.joinf]

theorem length_records_le (s : Splitting) (file : List Byte) :
    (records s file).length ≤ file.length := by
  rw [records, List.length_map]
  exact length_lines_le file

/-- For sorted files join writes the relational result, unless `-a` and `-v` exclude each
other. -/
theorem join_relational (o : Options) (flags : List Flag) {joinf1 joinf2 : Nat}
    {file1 file2 : List Byte} (sorted1 : Sorted joinf1 (records o.toSplitting file1))
    (sorted2 : Sorted joinf2 (records o.toSplitting file2)) :
    join o flags joinf1 joinf2 file1 file2 =
      if flags.any Flag.isA && flags.any Flag.isV then .error .exclusive
      else .ok ((rule o flags joinf1 joinf2).join (records o.toSplitting file1)
        (records o.toSplitting file2)) := by
  have short1 := length_records_le o.toSplitting file1
  have short2 := length_records_le o.toSplitting file2
  rw [join, chosen_eq]
  dsimp only
  split
  · rfl
  · obtain ⟨current1, as1⟩ := Current.start sorted1 (flags.any (Flag.selects .one)) 1
    obtain ⟨current2, as2⟩ := Current.start sorted2 (flags.any (Flag.selects .two)) 2
    obtain ⟨G1, G2, out, run, ends⟩ := mainLoop_join (file1.length + file2.length + 1)
      (file1.length + file2.length + 1) _ _ [] _ _ current1 current2 as1 as2 (by omega) (Nat.le_refl _)
    rw [run]
    rw [ends, List.nil_append]

/-- A group of two lines against one, and lines without a partner, the last without a field. -/
theorem join_relational_groups :
    join ⟨⟨true, ascii [' ', '\t']⟩, none, []⟩ [.a (some .two)] 0 0
        (ascii ['k', ' ', '1', '\n', 'k', ' ', '2', '\n', 'm'])
        (ascii ['a', '\n', 'k', ' ', '3', '\n', '\n']) =
      .ok [ascii ['a', '\n'], ascii ['k', ' ', '1', ' ', '3', '\n'],
        ascii ['k', ' ', '2', ' ', '3', '\n'], ascii ['\n']] ∧
    join ⟨⟨true, ascii [' ', '\t']⟩, none, []⟩ [.a (some .two)] 0 0
        (ascii ['k', ' ', '1', '\n', 'k', ' ', '2', '\n', 'm'])
        (ascii ['a', '\n', 'k', ' ', '3', '\n', '\n']) =
      .ok ((rule ⟨⟨true, ascii [' ', '\t']⟩, none, []⟩ [.a (some .two)] 0 0).join
        (records ⟨true, ascii [' ', '\t']⟩ (ascii ['k', ' ', '1', '\n', 'k', ' ', '2', '\n', 'm']))
        (records ⟨true, ascii [' ', '\t']⟩ (ascii ['a', '\n', 'k', ' ', '3', '\n', '\n']))) :=
  ⟨by decide, join_relational _ _ (by decide) (by decide)⟩

end Netbase.Join
