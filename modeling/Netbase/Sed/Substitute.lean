import Netbase.Lib.Buffer
import Netbase.Text.Decimal

/-!
# Substitution

`substitute` builds the new pattern space from what the matcher finds in one suffix of the
old one after another.  With the global flag the text in front of a match is copied only
if the match is replaced, and an empty match behind a non-empty one is not, wherever it is.
-/

namespace Netbase.Sed

open Netbase.Text Netbase.Lib

/-- What `regexec` leaves in `match`, relative to the start of the search: the span of the
whole match, and those of the groups that took part. -/
structure Match where
  so : Nat
  eo : Nat
  groups : Nat → Option (Nat × Nat)

/-- The entry of `match` for a number. -/
def Match.span (m : Match) (no : Nat) : Option (Nat × Nat) :=
  if no = 0 then some (m.so, m.eo) else m.groups no

def Match.empty (m : Match) : Bool := m.so = m.eo

def groupText (string : List Byte) (m : Match) (no : Nat) : List Byte :=
  match m.span no with
  | some (so, eo) => slice string so (eo - so)
  | none => []

/-- What a replacement becomes for a match in a string. -/
def regsub (string : List Byte) (m : Match) : List Byte → List Byte
  | [] => []
  | [c] => if c = byte '&' then groupText string m 0 else [c]
  | c :: d :: src =>
      if c = byte '&' then groupText string m 0 ++ regsub string m (d :: src)
      else if c = byte '\\' then
        if isdigit d then groupText string m (d.toNat - 48) ++ regsub string m src
        else if d = byte '\\' ∨ d = byte '&' then d :: regsub string m src
        else c :: regsub string m (d :: src)
      else c :: regsub string m (d :: src)

/-- A match with the place its search started from. -/
structure Found where
  off : Nat
  m : Match

def Found.start (f : Found) : Nat := f.off + f.m.so

def Found.stop (f : Found) : Nat := f.off + f.m.eo

/-- Where the next search starts: behind the match, and one further if it is empty. -/
def Found.next (f : Found) : Nat := if f.m.empty then f.start + 1 else f.stop

/-- What replaces a match. -/
def Found.expansion (ps new : List Byte) (f : Found) : List Byte :=
  regsub (ps.drop f.off) f.m new

def globalLoop (regexec : Nat → Option Match) (new ps : List Byte) :
    Nat → Bool → Found → List Byte → List Byte
  | 0, _, _, ss => ss
  | fuel + 1, lastempty, f, ss =>
      let s := ps.drop f.off
      let ss :=
        if lastempty || !f.m.empty then ss ++ s.take f.m.so ++ f.expansion ps new else ss
      let ss := if f.m.empty then ss ++ slice s f.m.so 1 else ss
      if f.next ≤ ps.length then
        match regexec f.next with
        | some m => globalLoop regexec new ps fuel f.m.empty ⟨f.next, m⟩ ss
        | none => ss ++ ps.drop f.next
      else ss

/-- The search for a later occurrence. -/
def nthLoop (regexec : Nat → Option Match) (len : Nat) : Nat → Found → Option Found
  | 0, f => some f
  | n + 1, f =>
      if f.next ≤ len then
        match regexec f.next with
        | some m => nthLoop regexec len n ⟨f.next, m⟩
        | none => none
      else none

/-- The new pattern space, if there is one; `n` is zero for the global flag. -/
def substitute (regexec : Nat → Option Match) (n : Nat) (new ps : List Byte) :
    Option (List Byte) :=
  match regexec 0 with
  | none => none
  | some m =>
      match n with
      | 0 => some (globalLoop regexec new ps (ps.length + 1) true ⟨0, m⟩ [])
      | n + 1 =>
          match nthLoop regexec ps.length n ⟨0, m⟩ with
          | none => none
          | some f => some (ps.take f.start ++ f.expansion ps new ++ ps.drop f.stop)

/-! ## What it is for -/

/-- The matches that are found one after another. -/
def foundFrom (regexec : Nat → Option Match) (len : Nat) : Nat → Found → List Found
  | 0, _ => []
  | fuel + 1, f =>
      f :: match (if f.next ≤ len then regexec f.next else none) with
        | some m => foundFrom regexec len fuel ⟨f.next, m⟩
        | none => []

def found (regexec : Nat → Option Match) (len : Nat) : List Found :=
  match regexec 0 with
  | some m => foundFrom regexec len (len + 1) ⟨0, m⟩
  | none => []

/-- Matches are chosen in order; only an empty one that stands directly behind the match
before it may be left out. -/
inductive Chosen : Option Nat → List Found → List Found → Prop
  | nil (before : Option Nat) : Chosen before [] []
  | take {before : Option Nat} {f : Found} {rest chosen : List Found}
      (more : Chosen (some f.stop) rest chosen) : Chosen before (f :: rest) (f :: chosen)
  | skip {before : Option Nat} {f : Found} {rest chosen : List Found}
      (empty : f.m.empty = true) (behind : before = some f.start)
      (more : Chosen (some f.stop) rest chosen) : Chosen before (f :: rest) chosen

/-- The spans lie one behind another. -/
def InOrder (len : Nat) : Nat → List Found → Prop
  | at_, [] => at_ ≤ len
  | at_, f :: rest => at_ ≤ f.start ∧ f.start ≤ f.stop ∧ InOrder len f.stop rest

/-- The text from a place on with the spans replaced. -/
def splice (ps new : List Byte) : Nat → List Found → List Byte
  | at_, [] => ps.drop at_
  | at_, f :: rest =>
      slice ps at_ (f.start - at_) ++ f.expansion ps new ++ splice ps new f.stop rest

/-- The result is the old text with chosen spans replaced. -/
def Replaces (regexec : Nat → Option Match) (new ps result : List Byte) : Prop :=
  ∃ chosen, Chosen none (found regexec ps.length) chosen ∧ InOrder ps.length 0 chosen ∧
    result = splice ps new 0 chosen

/-- No empty match is found behind a gap after a non-empty one. -/
def Unbroken : List Found → Prop
  | [] => True
  | [_] => True
  | f :: g :: rest =>
      (f.m.empty = false → g.m.empty = true → g.start = f.stop) ∧ Unbroken (g :: rest)

/-- The matcher returns spans inside the text it searches. -/
def Inside (regexec : Nat → Option Match) (len : Nat) : Prop :=
  ∀ off, off ≤ len → ∀ m, regexec off = some m → m.so ≤ m.eo ∧ off + m.eo ≤ len

/-! ## The loop -/

variable {regexec : Nat → Option Match} {new ps : List Byte}

theorem splice_step {at_ : Nat} {chosen : List Found}
    (apart : InOrder ps.length (at_ + 1) chosen) :
    splice ps new at_ chosen = slice ps at_ 1 ++ splice ps new (at_ + 1) chosen := by
  cases chosen with
  | nil =>
      simp only [splice, slice]
      rw [← List.drop_drop, List.take_append_drop]
  | cons f rest =>
      have behind := apart.1
      have one : 1 ≤ f.start - at_ := by omega
      have fewer : f.start - at_ - 1 = f.start - (at_ + 1) := by omega
      rw [splice, splice, ← slice_split at_ one, fewer]
      simp only [List.append_assoc]

variable {f : Found}

theorem Found.start_le_stop (ordered : f.m.so ≤ f.m.eo) : f.start ≤ f.stop :=
  Nat.add_le_add_left ordered _

theorem Found.stop_le_next (f : Found) : f.stop ≤ f.next := by
  unfold Found.next
  split
  · next empty =>
      have same : f.m.so = f.m.eo := by simpa [Match.empty] using empty
      simp only [Found.stop, Found.start]
      omega
  · exact Nat.le_refl _

theorem Found.off_lt_next (ordered : f.m.so ≤ f.m.eo) : f.off < f.next := by
  unfold Found.next
  split
  · simp only [Found.start]
    omega
  · next some =>
      have other : ¬ f.m.so = f.m.eo := by simpa [Match.empty] using some
      simp only [Found.stop]
      omega

theorem InOrder.weaken {len a b : Nat} {chosen : List Found} (apart : InOrder len b chosen)
    (le : a ≤ b) : InOrder len a chosen := by
  cases chosen with
  | nil => exact le_trans le apart
  | cons f rest => exact ⟨le_trans le apart.1, apart.2⟩

def foundNext (regexec : Nat → Option Match) (len fuel : Nat) (f : Found) : List Found :=
  match (if f.next ≤ len then regexec f.next else none) with
  | some m => foundFrom regexec len fuel ⟨f.next, m⟩
  | none => []

theorem foundFrom_succ (len fuel : Nat) (f : Found) :
    foundFrom regexec len (fuel + 1) f = f :: foundNext regexec len fuel f := rfl

theorem foundNext_cases (len fuel : Nat) (f : Found) :
    (∃ m, f.next ≤ len ∧ regexec f.next = some m ∧
      foundNext regexec len fuel f = foundFrom regexec len fuel ⟨f.next, m⟩) ∨
    (foundNext regexec len fuel f = [] ∧ (f.next ≤ len → regexec f.next = none)) := by
  unfold foundNext
  by_cases room : f.next ≤ len
  · rw [if_pos room]
    cases result : regexec f.next with
    | none => exact Or.inr ⟨rfl, fun _ => rfl⟩
    | some m => exact Or.inl ⟨m, room, rfl, rfl⟩
  · rw [if_neg room]
    exact Or.inr ⟨rfl, fun more => absurd more room⟩

theorem chosen_apart (inside : Inside regexec ps.length) (fuel : Nat) :
    ∀ {f : Found} {before : Option Nat} {chosen : List Found}, f.off ≤ ps.length →
      regexec f.off = some f.m →
      Chosen before (foundFrom regexec ps.length fuel f) chosen → InOrder ps.length f.off chosen := by
  induction fuel with
  | zero =>
      intro f before chosen room _ choice
      cases choice
      exact room
  | succ fuel ih =>
      intro f before chosen room here choice
      obtain ⟨ordered, stop⟩ := inside f.off room f.m here
      have start : f.off ≤ f.start := Nat.le_add_right _ _
      have later : ∀ {chosen : List Found},
          Chosen (some f.stop) (foundNext regexec ps.length fuel f) chosen →
            InOrder ps.length f.stop chosen := by
        intro chosen choice
        rcases foundNext_cases ps.length fuel f with ⟨m, more, result, next⟩ | ⟨none, _⟩
        · rw [next] at choice
          exact (ih more result choice).weaken f.stop_le_next
        · rw [none] at choice
          cases choice
          exact stop
      rw [foundFrom_succ] at choice
      cases choice with
      | take more => exact ⟨start, Found.start_le_stop ordered, later more⟩
      | skip empty behind more =>
          exact (later more).weaken (le_trans start (Found.start_le_stop ordered))

/-- What the loop appends for a match itself. -/
def replaced (new ps : List Byte) (lastempty : Bool) (f : Found) : List Byte :=
  if lastempty || !f.m.empty then slice ps f.off f.m.so ++ f.expansion ps new else []

/-- The character behind an empty match. -/
def stepped (ps : List Byte) (f : Found) : List Byte :=
  if f.m.empty then slice ps f.start 1 else []

def remainder (regexec : Nat → Option Match) (new ps : List Byte) (fuel : Nat) (f : Found) :
    List Byte :=
  if f.next ≤ ps.length then
    match regexec f.next with
    | some m => globalLoop regexec new ps fuel f.m.empty ⟨f.next, m⟩ []
    | none => ps.drop f.next
  else []

theorem globalLoop_succ (fuel : Nat) (lastempty : Bool) (f : Found) (ss : List Byte) :
    globalLoop regexec new ps (fuel + 1) lastempty f ss =
      if f.next ≤ ps.length then
        match regexec f.next with
        | some m => globalLoop regexec new ps fuel f.m.empty ⟨f.next, m⟩
            (ss ++ (replaced new ps lastempty f ++ stepped ps f))
        | none => ss ++ (replaced new ps lastempty f ++ stepped ps f) ++ ps.drop f.next
      else ss ++ (replaced new ps lastempty f ++ stepped ps f) := by
  have behind : slice (ps.drop f.off) f.m.so 1 = slice ps f.start 1 := by
    rw [slice, List.drop_drop]
    rfl
  have front : (ps.drop f.off).take f.m.so = slice ps f.off f.m.so := rfl
  have appended : (if f.m.empty then (if lastempty || !f.m.empty then
        ss ++ slice ps f.off f.m.so ++ f.expansion ps new else ss) ++ slice ps f.start 1
      else if lastempty || !f.m.empty then ss ++ slice ps f.off f.m.so ++ f.expansion ps new
        else ss) = ss ++ (replaced new ps lastempty f ++ stepped ps f) := by
    unfold replaced stepped
    split <;> split <;> simp [List.append_assoc]
  rw [globalLoop]
  simp only [behind, front, appended]

theorem globalLoop_append (fuel : Nat) :
    ∀ (lastempty : Bool) (f : Found) (ss : List Byte),
      globalLoop regexec new ps fuel lastempty f ss =
        ss ++ globalLoop regexec new ps fuel lastempty f [] := by
  induction fuel with
  | zero =>
      intro lastempty f ss
      exact (List.append_nil ss).symm
  | succ fuel ih =>
      intro lastempty f ss
      rw [globalLoop_succ, globalLoop_succ]
      split
      · cases regexec f.next with
        | none => simp only [List.append_assoc, List.nil_append]
        | some m =>
            simp only
            rw [ih _ _ (ss ++ _), ih _ _ ([] ++ _)]
            simp only [List.append_assoc, List.nil_append]
      · rw [List.nil_append]

theorem globalLoop_eq (fuel : Nat) (lastempty : Bool) (f : Found) :
    globalLoop regexec new ps (fuel + 1) lastempty f [] =
      replaced new ps lastempty f ++ stepped ps f ++ remainder regexec new ps fuel f := by
  rw [globalLoop_succ, remainder, List.nil_append]
  split
  · cases regexec f.next with
    | none => rfl
    | some m =>
        simp only
        rw [globalLoop_append]
  · rw [List.append_nil]

theorem Found.empty_next (empty : f.m.empty = true) :
    f.start = f.stop ∧ f.next = f.stop + 1 := by
  have same : f.m.so = f.m.eo := by simpa [Match.empty] using empty
  have span : f.start = f.stop := by simp only [Found.start, Found.stop, same]
  exact ⟨span, by rw [Found.next, if_pos empty, span]⟩

theorem Found.some_next (some : f.m.empty = false) : f.next = f.stop := by
  rw [Found.next, if_neg (by simp [some])]

/-- Between a match and the next search at most one character is kept. -/
theorem splice_stepped {chosen : List Found} (apart : InOrder ps.length f.next chosen) :
    splice ps new f.stop chosen = stepped ps f ++ splice ps new f.next chosen := by
  unfold stepped
  cases kind : f.m.empty with
  | true =>
      obtain ⟨span, next⟩ := Found.empty_next kind
      rw [next] at apart ⊢
      rw [if_pos rfl, span, splice_step apart]
  | false => rw [Found.some_next kind, if_neg (by simp), List.nil_append]

theorem remainder_none (fuel : Nat) (stop : f.stop ≤ ps.length)
    (none : f.next ≤ ps.length → regexec f.next = none) :
    stepped ps f ++ remainder regexec new ps fuel f = ps.drop f.stop := by
  unfold remainder
  by_cases room : f.next ≤ ps.length
  · rw [if_pos room, none room]
    have apart : InOrder ps.length f.next [] := room
    have kept : splice ps [] f.stop [] = _ := splice_stepped apart
    exact kept.symm
  · rw [if_neg room, List.append_nil]
    unfold stepped
    cases kind : f.m.empty with
    | true =>
        obtain ⟨span, next⟩ := Found.empty_next kind
        rw [if_pos rfl, span, slice, List.drop_of_length_le (by omega), List.take_nil]
    | false =>
        have next := Found.some_next kind
        omega

/-- What is lost by leaving a match out. -/
def Adjoins (lastempty : Bool) (f : Found) : Prop :=
  lastempty = false → f.m.empty = true → f.m.so = 0

theorem unbroken_foundFrom {len fuel : Nat} (enough : f.next ≤ len → 0 < fuel) :
    Unbroken (foundFrom regexec len (fuel + 1) f) ↔
      ∀ m, f.next ≤ len → regexec f.next = some m →
        Adjoins f.m.empty ⟨f.next, m⟩ ∧ Unbroken (foundFrom regexec len fuel ⟨f.next, m⟩) := by
  rw [foundFrom_succ]
  rcases foundNext_cases len fuel f with ⟨m, room, result, next⟩ | ⟨empty, none⟩
  · obtain ⟨fuel, rfl⟩ : ∃ n, fuel = n + 1 := ⟨fuel - 1, by have := enough room; omega⟩
    have adjoins : Adjoins f.m.empty ⟨f.next, m⟩ ↔
        (f.m.empty = false → m.empty = true → f.next + m.so = f.stop) := by
      refine forall_congr' fun some => imp_congr_right fun _ => ?_
      rw [Found.some_next some]
      simp
    rw [next, foundFrom_succ, Unbroken, ← foundFrom_succ]
    constructor
    · rintro ⟨joins, rest⟩ m' _ result'
      rw [result] at result'
      cases result'
      exact ⟨adjoins.mpr joins, rest⟩
    · intro all
      exact ⟨adjoins.mp (all m room result).1, (all m room result).2⟩
  · rw [empty]
    exact iff_of_true trivial fun m room result => by rw [none room] at result; cases result

theorem globalLoop_splices (inside : Inside regexec ps.length) (fuel : Nat) :
    ∀ {f : Found} {lastempty : Bool} {before : Option Nat}, ps.length < f.off + fuel →
      f.off ≤ ps.length → regexec f.off = some f.m → (lastempty = false → before = some f.off) →
      Adjoins lastempty f → Unbroken (foundFrom regexec ps.length fuel f) →
      ∃ chosen, Chosen before (foundFrom regexec ps.length fuel f) chosen ∧
        globalLoop regexec new ps fuel lastempty f [] = splice ps new f.off chosen := by
  induction fuel with
  | zero =>
      intro f lastempty before enough room
      omega
  | succ fuel ih =>
      intro f lastempty before enough room here track adjoins unbroken
      obtain ⟨ordered, stop⟩ := inside f.off room f.m here
      have further := Found.off_lt_next ordered
      rw [unbroken_foundFrom fun more => by omega] at unbroken
      rw [foundFrom_succ, globalLoop_eq]
      -- what follows the match
      have rest : ∃ chosen, Chosen (some f.stop) (foundNext regexec ps.length fuel f) chosen ∧
          stepped ps f ++ remainder regexec new ps fuel f = splice ps new f.stop chosen := by
        rcases foundNext_cases ps.length fuel f with ⟨m, more, result, next⟩ | ⟨empty, none⟩
        · obtain ⟨joins, unbroken'⟩ := unbroken m more result
          have track' : f.m.empty = false → some f.stop = some f.next := fun some => by
            rw [Found.some_next some]
          obtain ⟨chosen, choice, same⟩ := ih (by show _ < f.next + fuel; omega)
            more result track' joins unbroken'
          have apart := chosen_apart inside fuel more result choice
          refine ⟨chosen, next ▸ choice, ?_⟩
          rw [splice_stepped apart, remainder, if_pos more, result, ← same]
        · refine ⟨[], by rw [empty]; exact Chosen.nil _, ?_⟩
          exact remainder_none fuel stop none
      obtain ⟨chosen, choice, same⟩ := rest
      rw [List.append_assoc, same]
      by_cases left : lastempty = false ∧ f.m.empty = true
      · have start : f.start = f.off := by rw [Found.start, adjoins left.1 left.2, Nat.add_zero]
        refine ⟨chosen, Chosen.skip left.2 ((track left.1).trans (by rw [start])) choice, ?_⟩
        have nothing : replaced new ps lastempty f = [] := by
          simp [replaced, left.1, left.2]
        rw [nothing, List.nil_append, ← (Found.empty_next left.2).1, start]
      · refine ⟨f :: chosen, Chosen.take choice, ?_⟩
        have taken : replaced new ps lastempty f =
            slice ps f.off (f.start - f.off) ++ f.expansion ps new := by
          have kept : (lastempty || !f.m.empty) = true := by
            cases lastempty <;> cases kind : f.m.empty <;> simp_all
          rw [replaced, if_pos kept, Found.start, Nat.add_sub_cancel_left]
        rw [taken, splice]

/-- The loop keeps no more than what is chosen, and less where it leaves text out. -/
theorem globalLoop_length (inside : Inside regexec ps.length) (fuel : Nat) :
    ∀ {f : Found} {lastempty : Bool} {before : Option Nat} {chosen : List Found},
      ps.length < f.off + fuel → f.off ≤ ps.length → regexec f.off = some f.m →
      (lastempty = false → before = some f.off) →
      (lastempty = true → ∀ stop, before = some stop → stop < f.off) →
      Chosen before (foundFrom regexec ps.length fuel f) chosen →
      (globalLoop regexec new ps fuel lastempty f []).length ≤
          (splice ps new f.off chosen).length ∧
        ((globalLoop regexec new ps fuel lastempty f []).length =
            (splice ps new f.off chosen).length →
          Adjoins lastempty f ∧ Unbroken (foundFrom regexec ps.length fuel f)) := by
  induction fuel with
  | zero =>
      intro f lastempty before chosen enough room
      omega
  | succ fuel ih =>
      intro f lastempty before chosen enough room here track clear choice
      obtain ⟨ordered, stop⟩ := inside f.off room f.m here
      have further := Found.off_lt_next ordered
      rw [unbroken_foundFrom fun more => by omega, globalLoop_eq, List.append_assoc,
        List.length_append]
      rw [foundFrom_succ] at choice
      have rest : ∀ {chosen : List Found},
          Chosen (some f.stop) (foundNext regexec ps.length fuel f) chosen →
          (stepped ps f ++ remainder regexec new ps fuel f).length ≤
              (splice ps new f.stop chosen).length ∧
            ((stepped ps f ++ remainder regexec new ps fuel f).length =
                (splice ps new f.stop chosen).length →
              ∀ m, f.next ≤ ps.length → regexec f.next = some m →
                Adjoins f.m.empty ⟨f.next, m⟩ ∧
                  Unbroken (foundFrom regexec ps.length fuel ⟨f.next, m⟩)) := by
        intro chosen choice
        rcases foundNext_cases ps.length fuel f with ⟨m, more, result, next⟩ | ⟨empty, none⟩
        · rw [next] at choice
          have later := ih (by show _ < f.next + fuel; omega) more result
            (fun some => by rw [Found.some_next some])
            (fun empty stop same => by
              cases same
              have next := (Found.empty_next empty).2
              show f.stop < f.next
              omega) choice
          have apart := chosen_apart inside fuel more result choice
          rw [splice_stepped apart, remainder, if_pos more, result]
          simp only [List.length_append, Nat.add_le_add_iff_left, Nat.add_left_cancel_iff]
          refine ⟨later.1, fun equal m' _ result' => ?_⟩
          cases result'
          exact later.2 equal
        · rw [empty] at choice
          cases choice
          rw [remainder_none fuel stop none]
          exact ⟨Nat.le_refl _, fun _ m more result => by rw [none more] at result; cases result⟩
      cases choice with
      | take more =>
          obtain ⟨shorter, exact_⟩ := rest more
          have total : ∀ chosen, (splice ps new f.off (f :: chosen)).length =
              f.m.so + (f.expansion ps new).length + (splice ps new f.stop chosen).length := by
            intro chosen
            rw [splice, List.length_append, List.length_append, Found.start,
              Nat.add_sub_cancel_left, slice_length (by omega)]
          rw [total]
          by_cases left : lastempty = false ∧ f.m.empty = true
          · have nothing : replaced new ps lastempty f = [] := by
              simp [replaced, left.1, left.2]
            rw [nothing, List.length_nil]
            exact ⟨by omega, fun equal => ⟨fun _ _ => by omega, exact_ (by omega)⟩⟩
          · have kept : (lastempty || !f.m.empty) = true := by
              cases lastempty <;> cases kind : f.m.empty <;> simp_all
            have taken : (replaced new ps lastempty f).length =
                f.m.so + (f.expansion ps new).length := by
              rw [replaced, if_pos kept, List.length_append, slice_length (by omega)]
            rw [taken]
            refine ⟨by omega, fun equal => ⟨fun last empty => absurd ⟨last, empty⟩ left,
              exact_ (by omega)⟩⟩
      | skip empty behind more =>
          obtain ⟨shorter, exact_⟩ := rest more
          have tracked : lastempty = false := by
            by_contra other
            have early := clear (by simpa using other) _ behind
            simp only [Found.start] at early
            omega
          have start : f.start = f.off := by
            have both := behind.symm.trans (track tracked)
            simpa using both
          have nothing : replaced new ps lastempty f = [] := by
            simp [replaced, tracked, empty]
          rw [nothing, List.length_nil, Nat.zero_add, ← start, (Found.empty_next empty).1]
          refine ⟨shorter, fun equal => ⟨fun _ _ => ?_, exact_ equal⟩⟩
          simp only [Found.start] at start
          omega

/-- The global flag replaces all that is found, and keeps all other text, exactly where no
empty match is found behind a gap after a non-empty one. -/
theorem substitute_replaces_iff (regexec : Nat → Option Match) (new ps : List Byte)
    (inside : Inside regexec ps.length) :
    Replaces regexec new ps ((substitute regexec 0 new ps).getD ps) ↔
      Unbroken (found regexec ps.length) := by
  cases first : regexec 0 with
  | none =>
      have nothing : found regexec ps.length = [] := by rw [found, first]
      have same : substitute regexec 0 new ps = none := by rw [substitute, first]
      rw [Replaces, nothing, same]
      exact iff_of_true ⟨[], Chosen.nil _, Nat.zero_le _, rfl⟩ trivial
  | some m =>
      have all : found regexec ps.length =
          foundFrom regexec ps.length (ps.length + 1) ⟨0, m⟩ := by rw [found, first]
      have result : substitute regexec 0 new ps =
          some (globalLoop regexec new ps (ps.length + 1) true ⟨0, m⟩ []) := by
        rw [substitute, first]
      have enough : ps.length < (⟨0, m⟩ : Found).off + (ps.length + 1) := by
        show ps.length < 0 + (ps.length + 1)
        omega
      rw [Replaces, all, result, Option.getD_some]
      constructor
      · rintro ⟨chosen, choice, _, same⟩
        refine ((globalLoop_length inside (ps.length + 1) enough (Nat.zero_le _) first ?_ ?_
          choice).2 (congrArg List.length same)).2
        · intro tracked
          cases tracked
        · intro _ _ before
          cases before
      · intro unbroken
        have track : true = false → (none : Option Nat) = some (⟨0, m⟩ : Found).off := by
          intro tracked
          cases tracked
        have adjoins : Adjoins true ⟨0, m⟩ := fun tracked => by cases tracked
        obtain ⟨chosen, choice, same⟩ := globalLoop_splices inside (ps.length + 1) enough
          (Nat.zero_le _) first track adjoins unbroken
        exact ⟨chosen, choice, chosen_apart inside (ps.length + 1) (Nat.zero_le _) first choice,
          same⟩

/-- The search for a later occurrence goes through the matches that are found. -/
theorem nthLoop_eq (inside : Inside regexec ps.length) (n : Nat) :
    ∀ {fuel : Nat} {f : Found}, ps.length < f.off + fuel → f.off ≤ ps.length →
      regexec f.off = some f.m →
      nthLoop regexec ps.length n f = (foundFrom regexec ps.length fuel f)[n]? := by
  induction n with
  | zero =>
      intro fuel f enough room _
      obtain ⟨fuel, rfl⟩ : ∃ k, fuel = k + 1 := ⟨fuel - 1, by omega⟩
      rfl
  | succ n ih =>
      intro fuel f enough room here
      obtain ⟨fuel, rfl⟩ : ∃ k, fuel = k + 1 := ⟨fuel - 1, by omega⟩
      have further := Found.off_lt_next (inside f.off room f.m here).1
      rw [foundFrom_succ, List.getElem?_cons_succ, nthLoop]
      rcases foundNext_cases ps.length fuel f with ⟨m, more, result, next⟩ | ⟨empty, none⟩
      · rw [next, if_pos more, result]
        exact ih (by show _ < f.next + fuel; omega) more result
      · rw [empty, List.getElem?_nil]
        split
        · next more => rw [none more]
        · rfl

theorem substitute_nth (regexec : Nat → Option Match) (n : Nat) (new ps : List Byte)
    (inside : Inside regexec ps.length) :
    substitute regexec (n + 1) new ps =
      (found regexec ps.length)[n]?.map fun f => splice ps new 0 [f] := by
  unfold substitute found
  cases first : regexec 0 with
  | none => rfl
  | some m =>
      have enough : ps.length < (⟨0, m⟩ : Found).off + (ps.length + 1) := by
        show ps.length < 0 + (ps.length + 1)
        omega
      simp only [nthLoop_eq inside n enough (Nat.zero_le _) first]
      cases (foundFrom regexec ps.length (ps.length + 1) ⟨0, m⟩)[n]? with
      | none => rfl
      | some f => rfl

def charOrEnd (c : Byte) (ps : List Byte) (off : Nat) : Option Match :=
  some (let so := (ps.drop off).idxOf c; ⟨so, min (so + 1) (ps.length - off), fun _ => none⟩)

theorem charOrEnd_inside (c : Byte) (ps : List Byte) :
    Inside (charOrEnd c ps) ps.length := by
  intro off room m result
  cases result
  have bound := List.idxOf_le_length (a := c) (l := ps.drop off)
  rw [List.length_drop] at bound
  simp only
  omega

theorem substitute_replaces_all :
    Replaces (charOrEnd (byte 'b') [byte 'a', byte 'b']) [byte 'X'] [byte 'a', byte 'b']
      ((substitute (charOrEnd (byte 'b') [byte 'a', byte 'b']) 0 [byte 'X']
        [byte 'a', byte 'b']).getD [byte 'a', byte 'b']) := by
  refine (substitute_replaces_iff _ _ _ (charOrEnd_inside _ _)).mpr ?_
  exact ⟨fun _ _ => rfl, trivial⟩

/-- Text is lost between a match and the end. -/
theorem substitute_loses_text :
    substitute (charOrEnd (byte 'a') [byte 'a', byte 'b', byte 'c']) 0 [byte 'X']
        [byte 'a', byte 'b', byte 'c'] = some [byte 'X'] ∧
      ¬ Replaces (charOrEnd (byte 'a') [byte 'a', byte 'b', byte 'c']) [byte 'X']
        [byte 'a', byte 'b', byte 'c'] [byte 'X'] := by
  refine ⟨by decide, ?_⟩
  rintro ⟨chosen, choice, _, same⟩
  cases choice with
  | take more =>
      cases more with
      | take more =>
          cases more
          exact absurd same (by decide)
      | skip empty behind more => exact absurd behind (by decide)
  | skip empty behind more => cases behind

end Netbase.Sed
