import Mathlib.Data.List.Lex
import Mathlib.Data.List.TakeWhile
import Mathlib.Order.WithBot
import Netbase.Text.Lines

/-!
# The input of join

A file is read in sets: all consecutive lines with one join field.  The line
behind a set has been read as well; it waits in its slot as `pushback` and is
swapped to the front of the next set.
-/

namespace Netbase.Join

open Netbase.Text

/-- The options that split a line into fields. -/
structure Splitting where
  spans : Bool
  tabchar : List Byte

structure Line where
  fields : List (List Byte)
  deriving DecidableEq

/-- The memory of a fresh slot is zeroed. -/
instance : Inhabited Line := ⟨⟨[]⟩⟩

/-- The pieces of a text between delimiters. -/
def strsep (tabchar : List Byte) : List Byte → List (List Byte)
  | [] => [[]]
  | c :: text =>
      if c ∈ tabchar then [] :: strsep tabchar text
      else
        match strsep tabchar text with
        | [] => [[c]]
        | piece :: pieces => (c :: piece) :: pieces

/-- The text of a raw line: its newline is overwritten, and a string ends at its first NUL. -/
def text (bp : List Byte) : List Byte :=
  (if bp.getLast? = some nl then bp.dropLast else bp).takeWhile (· ≠ 0)

def Splitting.line (s : Splitting) (bp : List Byte) : Line :=
  ⟨(strsep s.tabchar (text bp)).filter fun fieldp => !(s.spans && fieldp.isEmpty)⟩

/-- The difference of the first bytes that differ, the terminating NUL counted. -/
def strcmp : List Byte → List Byte → Int
  | [], [] => 0
  | [], d :: _ => 0 - d.toNat
  | c :: _, [] => c.toNat - 0
  | c :: cs, d :: ds => if c = d then strcmp cs ds else c.toNat - d.toNat

def cmp (lp1 : Line) (fieldno1 : Nat) (lp2 : Line) (fieldno2 : Nat) : Int :=
  match lp1.fields[fieldno1]?, lp2.fields[fieldno2]? with
  | none, none => 0
  | none, some _ => 1
  | some _, none => -1
  | some field1, some field2 => strcmp field1 field2

/-- One of the two files with the set of lines read last. -/
structure Input where
  fp : List Byte
  joinf : Nat
  unpair : Bool
  number : Nat
  set : List Line
  pushback : Option Nat
  setcnt : Nat

/-- The slots are doubled when all of them are in use. -/
def Input.grow (F : Input) : Input :=
  if F.setcnt = F.set.length then
    { F with set := F.set ++ List.replicate (if F.set.length = 0 then 64 else F.set.length) default }
  else F

def Input.slot (F : Input) (i : Nat) : Line := F.set.getD i default

/-- The line taken from the file goes to the slot behind the set. -/
def Input.read (s : Splitting) (F : Input) : Input :=
  { F with fp := (getline F.fp).2, set := F.set.set F.setcnt (s.line (getline F.fp).1) }

def Input.swap (F : Input) (p : Nat) : Input :=
  { F with set := (F.set.set F.setcnt (F.slot p)).set p (F.slot F.setcnt), pushback := none }

/-- One more line belongs to the set. -/
def Input.count (F : Input) : Input := { F with setcnt := F.setcnt + 1 }

/-- The loop of `slurp`. -/
def slurpLoop (s : Splitting) : Nat → Input → Input
  | 0, F => F
  | fuel + 1, F₀ =>
      let F := F₀.grow
      match F.pushback with
      | some p => slurpLoop s fuel (F.swap p).count
      | none =>
          if F.fp = [] then F
          else
            let F' := F.read s
            if F'.setcnt ≠ 0 ∧
                cmp (F'.slot F'.setcnt) F'.joinf (F'.slot (F'.setcnt - 1)) F'.joinf ≠ 0 then
              { F' with pushback := some F'.setcnt }
            else slurpLoop s fuel F'.count

/-- Every round takes the line pushed back or one of the file. -/
def slurp (s : Splitting) (F : Input) : Input :=
  slurpLoop s (F.fp.length + 2) { F with setcnt := 0 }

def Input.held (F : Input) : List Line := F.set.take F.setcnt

/-! ## Keys -/

/-- The join field as a key: the bytes in lexicographic order, a missing field last. -/
def Line.key (joinf : Nat) (lp : Line) : WithTop (List Nat) :=
  match lp.fields[joinf]? with
  | none => ⊤
  | some field => ((field.map UInt8.toNat : List Nat) : WithTop (List Nat))

/-- The fields of a line are C strings. -/
def Line.Clean (lp : Line) : Prop := ∀ field ∈ lp.fields, 0 ∉ field

theorem strsep_subset (tabchar : List Byte) {piece s : List Byte} (member : piece ∈ strsep tabchar s)
    {c : Byte} (inside : c ∈ piece) : c ∈ s := by
  induction s generalizing piece with
  | nil =>
      obtain rfl : piece = [] := by simpa [strsep] using member
      cases inside
  | cons d s ih =>
      rw [strsep] at member
      split at member
      · rcases List.mem_cons.mp member with rfl | later
        · cases inside
        · exact List.mem_cons_of_mem _ (ih later inside)
      · split at member
        · obtain rfl : piece = [d] := by simpa using member
          exact List.mem_cons.mpr (Or.inl (by simpa using inside))
        · next first pieces found =>
            rcases List.mem_cons.mp member with rfl | later
            · rcases List.mem_cons.mp inside with rfl | behind
              · exact List.mem_cons_self
              · exact List.mem_cons_of_mem _ (ih (by simp [found]) behind)
            · exact List.mem_cons_of_mem _ (ih (by simp [found, later]) inside)

theorem Splitting.line_clean (s : Splitting) (bp : List Byte) : (s.line bp).Clean := by
  intro field member zero
  have piece := (List.mem_filter.mp member).1
  simpa using List.mem_takeWhile_imp (strsep_subset _ piece zero)

theorem toNat_pos {c : Byte} (other : c ≠ 0) : 0 < c.toNat := by
  rw [Nat.pos_iff_ne_zero]
  exact fun zero => other (UInt8.toNat_inj.mp zero)

/-- On C strings `strcmp` is the lexicographic order of the bytes. -/
theorem strcmp_sign {s t : List Byte} (clean : 0 ∉ s) (clean' : 0 ∉ t) :
    (strcmp s t = 0 ↔ s.map UInt8.toNat = t.map UInt8.toNat) ∧
      (strcmp s t < 0 ↔ s.map UInt8.toNat < t.map UInt8.toNat) := by
  induction s generalizing t with
  | nil =>
      cases t with
      | nil => simp [strcmp]
      | cons d t =>
          have positive := toNat_pos (fun zero : d = 0 => clean' (by simp [zero]))
          simp only [strcmp, List.map_nil, List.map_cons, List.nil_lt_cons, iff_true]
          constructor
          · constructor
            · intro equal; omega
            · intro equal; cases equal
          · omega
  | cons c s ih =>
      have positive := toNat_pos (fun zero : c = 0 => clean (by simp [zero]))
      cases t with
      | nil =>
          simp only [strcmp, List.map_nil, List.map_cons, List.not_lt_nil, iff_false]
          constructor
          · constructor
            · intro equal; omega
            · intro equal; cases equal
          · omega
      | cons d t =>
          simp only [List.mem_cons, not_or] at clean clean'
          simp only [strcmp, List.map_cons, List.cons.injEq, List.cons_lt_cons_iff]
          by_cases same : c = d
          · subst same
            simpa using ih clean.2 clean'.2
          · have other : c.toNat ≠ d.toNat := fun equal => same (UInt8.toNat_inj.mp equal)
            rw [if_neg same]
            constructor
            · constructor
              · intro equal; omega
              · exact fun equal => absurd equal.1 other
            · constructor
              · intro less; left; omega
              · rintro (less | ⟨equal, _⟩)
                · omega
                · exact absurd equal other

/-- `cmp` compares the keys. -/
theorem cmp_sign {lp1 lp2 : Line} (clean : lp1.Clean) (clean' : lp2.Clean) (i j : Nat) :
    (cmp lp1 i lp2 j = 0 ↔ lp1.key i = lp2.key j) ∧
      (cmp lp1 i lp2 j < 0 ↔ lp1.key i < lp2.key j) := by
  rw [cmp, Line.key, Line.key]
  cases field1 : lp1.fields[i]? with
  | none =>
      cases field2 : lp2.fields[j]? with
      | none => simp
      | some f2 => simp
  | some f1 =>
      cases field2 : lp2.fields[j]? with
      | none => simp
      | some f2 =>
          have signs := strcmp_sign (clean f1 (List.mem_of_getElem? field1))
            (clean' f2 (List.mem_of_getElem? field2))
          simpa only [WithTop.coe_eq_coe, WithTop.coe_lt_coe] using signs

/-! ## Sets -/

/-- The lines still to come, the line pushed back first. -/
def Input.pending (s : Splitting) (F : Input) : List Line :=
  (F.pushback.map F.slot).toList ++ (lines F.fp).map s.line

/-- The counts stay inside the slots. -/
structure Input.Ready (F : Input) : Prop where
  setcnt : F.setcnt ≤ F.set.length
  pushback : ∀ p, F.pushback = some p → p < F.set.length

/-- What no reading changes. -/
structure Input.Same (F F' : Input) : Prop where
  joinf : F'.joinf = F.joinf
  unpair : F'.unpair = F.unpair
  number : F'.number = F.number

structure Slurped (s : Splitting) (F F' : Input) (group later : List Line) : Prop where
  held : F'.held = group
  pending : F'.pending s = later
  ready : F'.Ready
  same : F.Same F'

theorem Input.slot_grow (F : Input) (i : Nat) : F.grow.slot i = F.slot i := by
  rw [grow]
  split
  · simp only [slot, List.getD_eq_getElem?_getD, List.getElem?_append]
    split
    · rfl
    · next outside =>
        rw [List.getElem?_replicate, List.getElem?_eq_none (by omega)]
        split <;> split <;> rfl
  · rfl

variable {F : Input}

theorem Input.grow_lt (ready : F.Ready) : F.grow.setcnt < F.grow.set.length := by
  have counted := ready.setcnt
  rw [grow]
  split
  · next full =>
      simp only [List.length_append, List.length_replicate]
      split <;> omega
  · omega

@[simp] theorem Input.grow_fp (F : Input) : F.grow.fp = F.fp := by
  rw [grow]; split <;> rfl

@[simp] theorem Input.grow_pushback (F : Input) : F.grow.pushback = F.pushback := by
  rw [grow]; split <;> rfl

@[simp] theorem Input.grow_setcnt (F : Input) : F.grow.setcnt = F.setcnt := by
  rw [grow]; split <;> rfl

theorem Input.grow_same (F : Input) : F.Same F.grow := by
  rw [grow]
  split <;> exact ⟨rfl, rfl, rfl⟩

theorem Input.grow_held (ready : F.Ready) : F.grow.held = F.held := by
  have counted := ready.setcnt
  rw [held, held, grow_setcnt, grow]
  split
  · exact List.take_append_of_le_length counted
  · rfl

theorem Input.Same.trans {G H : Input} (first : F.Same G) (second : G.Same H) : F.Same H :=
  ⟨second.joinf.trans first.joinf, second.unpair.trans first.unpair,
    second.number.trans first.number⟩

theorem take_set_succ {α : Type*} {xs : List α} {i : Nat} (inside : i < xs.length) (a : α) :
    (xs.set i a).take (i + 1) = xs.take i ++ [a] := by
  rw [List.take_succ_eq_append_getElem (by simpa using inside), List.getElem_set_self,
    List.take_set_of_le (Nat.le_refl i)]

theorem Input.slot_eq {i : Nat} (inside : i < F.set.length) : F.slot i = F.set[i] := by
  rw [slot, List.getD_eq_getElem?_getD, List.getElem?_eq_getElem inside, Option.getD_some]

theorem Input.slot_mem_held (some : F.setcnt ≠ 0) (inside : F.setcnt ≤ F.set.length) :
    F.slot (F.setcnt - 1) ∈ F.held := by
  rw [slot_eq (by omega), held]
  exact List.mem_take_iff_getElem.mpr ⟨F.setcnt - 1, by omega, rfl⟩

theorem Input.read_count_held (s : Splitting) (inside : F.setcnt < F.set.length) :
    (F.read s).count.held = F.held ++ [s.line (getline F.fp).1] :=
  take_set_succ inside _

theorem Input.read_held (s : Splitting) (F : Input) : (F.read s).held = F.held :=
  List.take_set_of_le (Nat.le_refl _)

theorem Input.read_slot (s : Splitting) (inside : F.setcnt < F.set.length) :
    (F.read s).slot F.setcnt = s.line (getline F.fp).1 := by
  rw [slot_eq (by simpa [read] using inside)]
  exact List.getElem_set_self _

theorem Input.read_slot_before (s : Splitting) (some : F.setcnt ≠ 0) :
    (F.read s).slot (F.setcnt - 1) = F.slot (F.setcnt - 1) := by
  rw [slot, read, List.getD_eq_getElem?_getD, List.getElem?_set_ne (by omega), slot,
    List.getD_eq_getElem?_getD]

theorem slurpLoop_goes (s : Splitting) (k : WithTop (List Nat)) :
    ∀ (fuel : Nat) (F : Input), F.Ready → F.pushback = none → F.setcnt ≠ 0 →
      (∀ lp ∈ F.held, lp.Clean ∧ lp.key F.joinf = k) → (lines F.fp).length < fuel →
      Slurped s F (slurpLoop s fuel F)
        (F.held ++ ((lines F.fp).map s.line).takeWhile fun lp => lp.key F.joinf = k)
        (((lines F.fp).map s.line).dropWhile fun lp => lp.key F.joinf = k) := by
  intro fuel
  induction fuel with
  | zero => exact fun F _ _ _ _ enough => absurd enough (Nat.not_lt_zero _)
  | succ fuel ih =>
      intro F₀ ready₀ none₀ some₀ alike₀ enough
      have less := Input.grow_lt ready₀
      have before := F₀.grow_same
      rw [← F₀.grow_fp] at enough ⊢
      rw [← Input.grow_held ready₀, ← before.joinf] at alike₀ ⊢
      rw [← F₀.grow_pushback] at none₀
      rw [← F₀.grow_setcnt] at some₀
      rw [slurpLoop]
      generalize F₀.grow = F at *
      simp only [none₀]
      by_cases empty : F.fp = []
      · rw [if_pos empty, empty]
        refine ⟨by simp [lines_nil], ?_, ⟨less.le, by simp [none₀]⟩, before⟩
        simp [Input.pending, none₀, empty, lines_nil]
      · have last := alike₀ _ (Input.slot_mem_held some₀ less.le)
        have sign : cmp ((F.read s).slot (F.read s).setcnt) (F.read s).joinf
            ((F.read s).slot ((F.read s).setcnt - 1)) (F.read s).joinf = 0 ↔
            (s.line (getline F.fp).1).key F.joinf = k := by
          change cmp ((F.read s).slot F.setcnt) F.joinf
            ((F.read s).slot (F.setcnt - 1)) F.joinf = 0 ↔ _
          rw [Input.read_slot s less, Input.read_slot_before s some₀,
            (cmp_sign (s.line_clean _) last.1 F.joinf F.joinf).1, last.2]
        rw [if_neg empty, lines_getline empty, List.map_cons]
        rw [lines_getline empty] at enough
        by_cases goes : (s.line (getline F.fp).1).key F.joinf = k
        · rw [if_neg (fun both => both.2 (sign.mpr goes)),
            List.takeWhile_cons_of_pos (by simpa using goes),
            List.dropWhile_cons_of_pos (by simpa using goes)]
          have alike : ∀ lp ∈ (F.read s).count.held, lp.Clean ∧ lp.key F.joinf = k := by
            rw [Input.read_count_held s less]
            intro lp member
            rcases List.mem_append.mp member with old | new
            · exact alike₀ lp old
            · obtain rfl := List.mem_singleton.mp new
              exact ⟨s.line_clean _, goes⟩
          have ready : (F.read s).count.Ready := by
            refine ⟨?_, by simp [Input.read, Input.count, none₀]⟩
            simpa [Input.read, Input.count] using Nat.succ_le_of_lt less
          have step := ih (F.read s).count ready none₀ (Nat.succ_ne_zero _) alike
            (Nat.lt_of_succ_lt_succ enough)
          rw [Input.read_count_held s less, List.append_assoc] at step
          have same : F.Same (F.read s).count := ⟨rfl, rfl, rfl⟩
          exact ⟨step.held, step.pending, step.ready, before.trans (same.trans step.same)⟩
        · rw [if_pos ⟨some₀, fun equal => goes (sign.mp equal)⟩,
            List.takeWhile_cons_of_neg (by simpa using goes),
            List.dropWhile_cons_of_neg (by simpa using goes), List.append_nil]
          refine ⟨Input.read_held s F, ?_, ⟨?_, ?_⟩, before.trans ⟨rfl, rfl, rfl⟩⟩
          · change (F.read s).slot F.setcnt :: (lines (getline F.fp).2).map s.line = _
            rw [Input.read_slot s less]
          · simpa [Input.read] using less.le
          · simpa [Input.read] using less

def firstSet (joinf : Nat) : List Line → List Line × List Line
  | [] => ([], [])
  | lp :: rest =>
      (lp :: rest.takeWhile fun other => other.key joinf = lp.key joinf,
        rest.dropWhile fun other => other.key joinf = lp.key joinf)

/-- A line pushed back is a C line. -/
def Input.CleanPending (s : Splitting) (F : Input) : Prop := ∀ lp ∈ F.pending s, lp.Clean

theorem length_lines_le (file : List Byte) : (lines file).length ≤ file.length := by
  induction file with
  | nil => exact Nat.le_refl _
  | cons c file ih =>
      rw [lines]
      split
      · simpa using ih
      · split
        · simp
        · next line more found =>
            rw [found] at ih
            simp only [List.length_cons] at ih ⊢
            omega

/-- A swap from behind brings the line pushed back to the front of an empty set. -/
theorem Input.swap_held (zero : F.setcnt = 0) {p : Nat} (inside : p < F.set.length) :
    (F.swap p).count.held = [F.slot p] := by
  obtain ⟨first, others, slots⟩ := List.exists_cons_of_length_pos (Nat.zero_lt_of_lt inside)
  cases p with
  | zero => simp [held, swap, count, slot, zero, slots]
  | succ p => simp [held, swap, count, slot, zero, slots]

theorem slurpLoop_first (s : Splitting) {G : Input} {lp : Line} {fuel : Nat} (same : F.Same G)
    (ready : G.Ready) (none : G.pushback = none) (some : G.setcnt ≠ 0) (held : G.held = [lp])
    (clean : lp.Clean) (enough : (lines G.fp).length < fuel) :
    Slurped s F (slurpLoop s fuel G)
      (firstSet F.joinf (lp :: (lines G.fp).map s.line)).1
      (firstSet F.joinf (lp :: (lines G.fp).map s.line)).2 := by
  have goes := slurpLoop_goes s (lp.key G.joinf) fuel G ready none some
    (by simpa [held] using clean) enough
  rw [held, same.joinf] at goes
  exact ⟨goes.held, goes.pending, goes.ready, same.trans goes.same⟩

/-- `slurp` takes the first set of the lines to come. -/
theorem slurp_sets (s : Splitting) (ready : F.Ready) (clean : F.CleanPending s) :
    Slurped s F (slurp s F) (firstSet F.joinf (F.pending s)).1
      (firstSet F.joinf (F.pending s)).2 := by
  have short := length_lines_le F.fp
  have fresh : Input.Ready { F with setcnt := 0 } := ⟨Nat.zero_le _, ready.pushback⟩
  have less := Input.grow_lt fresh
  have slots := Input.slot_grow { F with setcnt := 0 }
  have start : F.Same { F with setcnt := 0 } := ⟨rfl, rfl, rfl⟩
  have same := start.trans (Input.grow_same { F with setcnt := 0 })
  have fp := Input.grow_fp { F with setcnt := 0 }
  have pushed := Input.grow_pushback { F with setcnt := 0 }
  have zero := Input.grow_setcnt { F with setcnt := 0 }
  have bigger : F.set.length ≤ (Input.grow { F with setcnt := 0 }).set.length := by
    rw [Input.grow]; split <;> simp
  rw [slurp, slurpLoop]
  generalize Input.grow { F with setcnt := 0 } = G at *
  dsimp only at fp pushed zero slots
  cases waiting : F.pushback with
  | some p =>
      rw [waiting] at pushed
      simp only [pushed]
      have inside := ready.pushback p waiting
      have pending : F.pending s = F.slot p :: (lines F.fp).map s.line := by
        simp [Input.pending, waiting]
      have held : (G.swap p).count.held = [F.slot p] := by
        rw [Input.swap_held zero (Nat.lt_of_lt_of_le inside bigger), slots]
        rfl
      rw [pending, ← fp]
      refine slurpLoop_first s (same.trans ⟨rfl, rfl, rfl⟩) ⟨?_, by simp [Input.swap, Input.count]⟩
        rfl (by simp [Input.count]) held (clean _ (by simp [pending])) ?_
      · simpa [Input.swap, Input.count] using Nat.succ_le_of_lt less
      · change (lines G.fp).length < _
        rw [fp]
        omega
  | none =>
      rw [waiting] at pushed
      simp only [pushed]
      have pending : F.pending s = (lines F.fp).map s.line := by simp [Input.pending, waiting]
      by_cases empty : F.fp = []
      · rw [if_pos (fp.trans empty), pending, empty]
        refine ⟨by simp [Input.held, zero, firstSet, lines_nil], ?_, ⟨less.le, by simp [pushed]⟩, same⟩
        simp [Input.pending, pushed, fp, empty, lines_nil, firstSet]
      · rw [if_neg (by rwa [fp]), if_neg (by simp [Input.read, zero]), pending,
          lines_getline empty, List.map_cons, ← fp]
        have held := Input.read_count_held s less
        have nothing : G.held = [] := by simp [Input.held, zero]
        rw [nothing, List.nil_append] at held
        have behind := lines_getline empty
        refine slurpLoop_first s (same.trans ⟨rfl, rfl, rfl⟩)
          ⟨?_, by simp [Input.read, Input.count, pushed]⟩ pushed (by simp [Input.count]) held
          (s.line_clean _) ?_
        · simpa [Input.read, Input.count] using Nat.succ_le_of_lt less
        · change (lines (getline G.fp).2).length < _
          rw [behind] at short
          simp only [List.length_cons] at short
          rw [fp]
          omega

end Netbase.Join
