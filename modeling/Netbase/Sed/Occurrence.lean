import Mathlib.Data.List.NodupEquivFin
import Mathlib.Order.WellFounded
import Netbase.Sed.Substitute

/-!
# One occurrence

With a number `substitute` counts the matches that are found one after another.  The loop of the
global flag leaves out an empty one that is found behind a non-empty one, and so counts others.
-/

namespace Netbase.Sed

open Netbase.Text Netbase.Lib

/-- The matches that the loop of the global flag replaces. -/
def globalFound : Bool → List Found → List Found
  | _, [] => []
  | lastempty, f :: rest =>
      if lastempty || !f.m.empty then f :: globalFound f.m.empty rest
      else globalFound f.m.empty rest

/-- What the loop of the global flag writes for matches. -/
def globalText (new ps : List Byte) : Bool → List Found → List Byte
  | _, [] => []
  | lastempty, f :: rest =>
      replaced new ps lastempty f ++ stepped ps f ++ globalText new ps f.m.empty rest

/-- Where the text behind the last match starts. -/
def behindLast : Nat → List Found → Nat
  | at_, [] => at_
  | _, f :: rest => behindLast f.next rest

section

variable {regexec : Nat → Option Match} {new ps : List Byte}

theorem globalLoop_text (inside : Inside regexec ps.length) (fuel : Nat) :
    ∀ {f : Found} {lastempty : Bool}, ps.length < f.off + fuel → f.off ≤ ps.length →
      regexec f.off = some f.m →
      globalLoop regexec new ps fuel lastempty f [] =
        globalText new ps lastempty (foundFrom regexec ps.length fuel f) ++
          ps.drop (behindLast f.off (foundFrom regexec ps.length fuel f)) := by
  induction fuel with
  | zero =>
      intro f lastempty enough room _
      omega
  | succ fuel ih =>
      intro f lastempty enough room here
      have further := Found.off_lt_next (inside f.off room f.m here).1
      rw [globalLoop_eq, foundFrom_succ, globalText, behindLast, remainder]
      rcases foundNext_cases ps.length fuel f with ⟨m, more, result, next⟩ | ⟨empty, none_⟩
      · have rest := @ih ⟨f.next, m⟩ f.m.empty
          (by show _ < f.next + fuel; omega) more result
        rw [next, if_pos more, result]
        simp only [rest, List.append_assoc]
      · rw [empty, globalText, behindLast, List.append_nil]
        congr 1
        split
        · next more => rw [none_ more]
        · next out => exact (List.drop_eq_nil_of_le (by omega)).symm

theorem substitute_global (inside : Inside regexec ps.length) {m : Match}
    (first : regexec 0 = some m) :
    substitute regexec 0 new ps =
      some (globalText new ps true (found regexec ps.length) ++
        ps.drop (behindLast 0 (found regexec ps.length))) := by
  have enough : ps.length < (⟨0, m⟩ : Found).off + (ps.length + 1) := by
    show ps.length < 0 + (ps.length + 1)
    omega
  simp only [substitute, found, first]
  rw [globalLoop_text inside (ps.length + 1) enough (Nat.zero_le _) first]

/-! ## The places of matches -/

theorem Found.start_lt_next {f : Found} (ordered : f.m.so ≤ f.m.eo) : f.start < f.next := by
  cases kind : f.m.empty with
  | true =>
      obtain ⟨same, next⟩ := Found.empty_next kind
      omega
  | false =>
      have other : ¬ f.m.so = f.m.eo := by simpa [Match.empty] using kind
      rw [Found.some_next kind]
      unfold Found.start Found.stop
      omega

theorem foundFrom_ordered (inside : Inside regexec ps.length) (fuel : Nat) :
    ∀ {f : Found}, f.off ≤ ps.length → regexec f.off = some f.m →
      (foundFrom regexec ps.length fuel f).Pairwise (fun f g => f.start < g.start) ∧
        ∀ g ∈ foundFrom regexec ps.length fuel f, f.off ≤ g.start ∧ g.start ≤ ps.length := by
  induction fuel with
  | zero => exact fun _ _ => ⟨List.Pairwise.nil, fun g member => absurd member List.not_mem_nil⟩
  | succ fuel ih =>
      intro f room here
      obtain ⟨ordered, stop⟩ := inside f.off room f.m here
      have further := Found.start_lt_next ordered
      have behind : f.off ≤ f.start := Nat.le_add_right _ _
      have within : f.start ≤ ps.length := by
        unfold Found.start
        omega
      rw [foundFrom_succ]
      rcases foundNext_cases ps.length fuel f with ⟨m, more, result, next⟩ | ⟨empty, -⟩
      · obtain ⟨apart, places⟩ := ih (f := ⟨f.next, m⟩) more result
        rw [next]
        refine ⟨List.Pairwise.cons (fun g member => ?_) apart, fun g member => ?_⟩
        · exact Nat.lt_of_lt_of_le further (places g member).1
        · rcases List.mem_cons.mp member with rfl | later
          · exact ⟨behind, within⟩
          · have place := places g later
            exact ⟨behind.trans (further.le.trans place.1), place.2⟩
      · rw [empty]
        refine ⟨List.pairwise_singleton _ _, fun g member => ?_⟩
        rw [List.mem_singleton.mp member]
        exact ⟨behind, within⟩

theorem found_ordered (inside : Inside regexec ps.length) :
    (found regexec ps.length).Pairwise (fun f g => f.start < g.start) ∧
      ∀ g ∈ found regexec ps.length, g.start ≤ ps.length := by
  unfold found
  cases first : regexec 0 with
  | none => exact ⟨List.Pairwise.nil, fun g member => absurd member List.not_mem_nil⟩
  | some m =>
      obtain ⟨apart, places⟩ :=
        foundFrom_ordered inside (ps.length + 1) (f := ⟨0, m⟩) (Nat.zero_le _) first
      exact ⟨apart, fun g member => (places g member).2⟩

end

/-! ## Counting matches -/

/-- None of the matches is left out by the loop of the global flag. -/
def Kept : Bool → List Found → Prop
  | _, [] => True
  | lastempty, f :: rest => (lastempty || !f.m.empty) = true ∧ Kept f.m.empty rest

theorem kept_iff (f : Found) (rest : List Found) :
    Kept f.m.empty rest ↔
      (f :: rest).IsChain (fun f g => g.m.empty = true → f.m.empty = true) := by
  induction rest generalizing f with
  | nil => simp [Kept]
  | cons g rest ih =>
      rw [Kept, List.isChain_cons_cons, ih g]
      refine and_congr_left fun _ => ?_
      cases f.m.empty <;> cases g.m.empty <;> simp

theorem kept_true_iff (l : List Found) :
    Kept true l ↔ l.IsChain (fun f g => g.m.empty = true → f.m.empty = true) := by
  cases l with
  | nil => simp [Kept]
  | cons f rest => rw [Kept, Bool.true_or, and_iff_right rfl, kept_iff]

theorem globalFound_sublist (l : List Found) :
    ∀ lastempty, (globalFound lastempty l).Sublist l := by
  induction l with
  | nil => exact fun _ => List.Sublist.slnil
  | cons f rest ih =>
      intro lastempty
      rw [globalFound]
      split
      · exact (ih _).cons_cons f
      · exact (ih _).cons f

theorem later_of_sublist {f : Found} {rest kept : List Found} (sublist : kept.Sublist rest)
    (apart : (f :: rest).Pairwise (fun f g => f.start < g.start)) {n : Nat} {x y : Found}
    (left : kept[n]? = some x) (all : (f :: rest)[n]? = some y) : y.start < x.start := by
  obtain ⟨place, same⟩ := List.sublist_iff_exists_orderEmbedding_getElem?_eq.mp sublist
  have behind : n ≤ place n := place.strictMono.le_apply
  have here : (f :: rest)[place n + 1]? = some x := by rw [List.getElem?_cons_succ, ← same n, left]
  obtain ⟨inside, rfl⟩ := List.getElem?_eq_some_iff.mp all
  obtain ⟨inside', rfl⟩ := List.getElem?_eq_some_iff.mp here
  exact List.pairwise_iff_getElem.mp apart n (place n + 1) inside inside' (by omega)

/-- The match with a number is the same if nothing has been left out up to it, and else a later
one or none. -/
theorem globalFound_get (l : List Found) :
    ∀ {lastempty : Bool} {n : Nat} {y : Found},
      l.Pairwise (fun f g => f.start < g.start) → l[n]? = some y →
      (Kept lastempty (l.take (n + 1)) ∧ (globalFound lastempty l)[n]? = some y) ∨
        (¬ Kept lastempty (l.take (n + 1)) ∧
          ∀ x, (globalFound lastempty l)[n]? = some x → y.start < x.start) := by
  induction l with
  | nil => exact fun _ here => nomatch here
  | cons f rest ih =>
      intro lastempty n y apart here
      rw [globalFound, List.take_succ_cons, Kept]
      cases keep : lastempty || !f.m.empty with
      | false =>
          refine Or.inr ⟨fun kept => Bool.false_ne_true kept.1, fun x left => ?_⟩
          exact later_of_sublist (globalFound_sublist rest f.m.empty) apart left here
      | true =>
          rw [if_pos rfl, and_iff_right rfl]
          cases n with
          | zero => exact Or.inl ⟨trivial, here⟩
          | succ n => exact ih (List.pairwise_cons.mp apart).2 here

/-! ## The replaced text -/

section

variable {regexec : Nat → Option Match} {ps : List Byte}

/-- With a number the match is replaced that has the number under the global flag, and nothing if
there are fewer. -/
def ReplacesNth (regexec : Nat → Option Match) (ps : List Byte) (n : Nat) : Prop :=
  ∀ new, substitute regexec (n + 1) new ps =
    (globalFound true (found regexec ps.length))[n]?.map fun f => splice ps new 0 [f]

/-- A character that stands for itself and is not the one at a place. -/
theorem exists_other (c : Byte) : ∃ d, d ≠ c ∧ d ≠ byte '&' := by
  by_cases same : c = byte 'x'
  · exact ⟨byte 'y', by rw [same]; decide, by decide⟩
  · exact ⟨byte 'x', Ne.symm same, by decide⟩

theorem expansion_single {d : Byte} (plain : d ≠ byte '&') (f : Found) :
    f.expansion ps [d] = [d] := by
  rw [Found.expansion, regsub, if_neg plain]

theorem splice_single (new : List Byte) (f : Found) :
    splice ps new 0 [f] = ps.take f.start ++ f.expansion ps new ++ ps.drop f.stop := rfl

/-- Replacing two matches that start in different places gives different texts. -/
theorem splice_apart {f g : Found} (apart : f.start < g.start) (within : g.start ≤ ps.length) :
    ∃ new, splice ps new 0 [f] ≠ splice ps new 0 [g] := by
  obtain ⟨c, here⟩ : ∃ c, ps[f.start]? = some c :=
    ⟨ps[f.start], List.getElem?_eq_getElem (by omega)⟩
  obtain ⟨d, other, plain⟩ := exists_other c
  refine ⟨[d], fun same => other ?_⟩
  rw [splice_single, splice_single, expansion_single plain, expansion_single plain] at same
  have place := congrArg (·[f.start]?) same
  have front : (ps.take f.start).length = f.start := by
    rw [List.length_take]
    omega
  have front' : f.start < (ps.take g.start).length := by
    rw [List.length_take]
    omega
  simp only [List.append_assoc] at place
  rw [List.getElem?_append_right (by omega), List.getElem?_append_left front',
    List.getElem?_take_of_lt apart, here, front, Nat.sub_self] at place
  exact Option.some.inj place

/-- A number stands for the same match as under the global flag if none of the matches up to it is
an empty one behind a non-empty one. -/
theorem substitute_nth_iff (inside : Inside regexec ps.length) (n : Nat) :
    ReplacesNth regexec ps n ↔
      (n < (found regexec ps.length).length →
        ((found regexec ps.length).take (n + 1)).IsChain
          fun f g => g.m.empty = true → f.m.empty = true) := by
  obtain ⟨apart, within⟩ := found_ordered inside
  unfold ReplacesNth
  simp only [fun new => substitute_nth regexec n new ps inside]
  by_cases many : n < (found regexec ps.length).length
  · have here := List.getElem?_eq_getElem many
    rw [imp_iff_right many, ← kept_true_iff, here]
    rcases @globalFound_get _ true _ _ apart here with ⟨kept, same⟩ | ⟨dropped, later⟩
    · refine iff_of_true (fun new => ?_) kept
      rw [same]
    · refine iff_of_false (fun all => ?_) dropped
      cases left : (globalFound true (found regexec ps.length))[n]? with
      | none =>
          have missing := all []
          rw [left] at missing
          cases missing
      | some x =>
          have member := (globalFound_sublist _ true).subset (List.mem_of_getElem? left)
          obtain ⟨new, differ⟩ := splice_apart (later x left) (within x member)
          have same := all new
          rw [left] at same
          exact differ (Option.some.inj same)
  · refine iff_of_true (fun new => ?_) fun more => absurd more many
    have shorter := (globalFound_sublist (found regexec ps.length) true).length_le
    rw [List.getElem?_eq_none (by omega), List.getElem?_eq_none (by omega)]

end

/-- A matcher for the longest text of one character, also the empty one, at the start. -/
def starOf (c : Byte) (ps : List Byte) (off : Nat) : Option Match :=
  some ⟨0, ((ps.drop off).takeWhile (· = c)).length, fun _ => none⟩

theorem starOf_inside (c : Byte) (ps : List Byte) : Inside (starOf c ps) ps.length := by
  intro off room m result
  cases result
  have bound := (List.takeWhile_sublist (· = c) (l := ps.drop off)).length_le
  rw [List.length_drop] at bound
  simp only
  omega

theorem substitute_second :
    Inside (starOf (byte 'b') (ascii ['a', 'b', 'c'])) (ascii ['a', 'b', 'c']).length ∧
      ReplacesNth (starOf (byte 'b') (ascii ['a', 'b', 'c'])) (ascii ['a', 'b', 'c']) 1 := by
  refine ⟨starOf_inside _ _, (substitute_nth_iff (starOf_inside _ _) 1).mpr fun _ => ?_⟩
  rw [← kept_true_iff]
  exact ⟨rfl, rfl, trivial⟩

/-- `s/b*/x/3` on `abc` replaces the empty match behind `b`, and `s/b*/x/g` the one behind `c`. -/
theorem substitute_third :
    ¬ ReplacesNth (starOf (byte 'b') (ascii ['a', 'b', 'c'])) (ascii ['a', 'b', 'c']) 2 ∧
      substitute (starOf (byte 'b') (ascii ['a', 'b', 'c'])) 3 [byte 'x'] (ascii ['a', 'b', 'c']) =
        some (ascii ['a', 'b', 'x', 'c']) ∧
      substitute (starOf (byte 'b') (ascii ['a', 'b', 'c'])) 0 [byte 'x'] (ascii ['a', 'b', 'c']) =
        some (ascii ['x', 'a', 'x', 'c', 'x']) := by
  refine ⟨fun replaces => ?_, by decide +kernel, by decide +kernel⟩
  exact absurd (replaces [byte 'x']) (by decide +kernel)

end Netbase.Sed
