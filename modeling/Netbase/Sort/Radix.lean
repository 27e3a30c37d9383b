import Mathlib
import Netbase.Sort.Deal

/-!
# The radix sort of sort

Blocks wait on an explicit stack; a block of fewer than `THRESHOLD` records is
sorted by insertion, a larger one is distributed by its next byte.  Whatever
the order in which the blocks are taken, each of them ends as an arrangement of
its own records, and so does the whole array.
-/

namespace Netbase.Sort

open Netbase.Text Netbase.Lib

/-- Divert to `simplesort`. -/
def THRESHOLD : Nat := 20

def radixLoop (unique debug : Bool) : Nat → Work → Option (List Rec)
  | 0, work => if work.stack = [] then some work.arr else none
  | fuel + 1, work =>
      match work.stack with
      | [] => some work.arr
      | ⟨a, n, data_index⟩ :: stack =>
          let popped := { work with stack := stack }
          if n < THRESHOLD ∧ debug = false then
            radixLoop unique debug fuel
              { popped with arr := simplesort unique popped.arr a n data_index }
          else radixLoop unique debug fuel (pass unique popped a n data_index)

def radix_sort (unique debug : Bool) (fuel : Nat) (arr : List Rec) : Option (List Rec) :=
  if arr.length < THRESHOLD ∧ debug = false then some (simplesort unique arr 0 arr.length 0)
  else radixLoop unique debug fuel ⟨arr, fun _ => 0, fun _ => 0, [⟨0, arr.length, 0⟩]⟩

/-! ## Classes of a block -/

/-- Short keys come first, then the piles. -/
def cls (i : Nat) (hdr : Rec) : Nat := if isShort i hdr then 0 else hdr.byteAt i + 1

theorem cls_lt (i : Nat) (hdr : Rec) : cls i hdr < 257 := by
  have small := hdr.byteAt_lt i
  rw [cls]
  split <;> omega

theorem filter_cls_zero (i : Nat) (block : List Rec) :
    block.filter (cls i · = 0) = shorts i block := by
  refine List.filter_congr fun hdr _ => ?_
  cases short : isShort i hdr <;> simp [cls, short]

theorem filter_cls_succ (i : Nat) (block : List Rec) (c : Nat) :
    block.filter (cls i · = c + 1) = pile i (longs i block) c := by
  rw [pile, longs, List.filter_filter]
  refine List.filter_congr fun hdr _ => ?_
  cases short : isShort i hdr <;> simp [cls, short]

variable {w : List Nat}

theorem Starts.key_short {hdr : Rec} (starts : Starts w hdr) (short : isShort w.length hdr = true) :
    hdr.key = w := by
  have length := starts.whole.length_key
  have bound : hdr.keylen ≤ w.length := by simpa [isShort] using short
  exact (starts.front.eq_of_length_le (by omega)).symm

theorem Starts.key_long {hdr : Rec} (starts : Starts w hdr) (long : isShort w.length hdr = false) :
    ∃ x, hdr.key = w ++ hdr.byteAt w.length :: x := by
  obtain ⟨rest, split⟩ := starts.front
  have length := starts.whole.length_key
  have bound : ¬ hdr.keylen ≤ w.length := by simpa [isShort] using long
  rw [← split, List.length_append] at length
  cases rest with
  | nil => simp only [List.length_nil] at length; omega
  | cons c x =>
      rw [Rec.Whole.byteAt_eq split.symm]
      exact ⟨x, split.symm⟩

theorem key_lt_of_cls_lt {hdr hdr' : Rec} (starts : Starts w hdr) (starts' : Starts w hdr')
    (less : cls w.length hdr < cls w.length hdr') :
    hdr.key < hdr'.key := by
  rw [cls, cls] at less
  cases short' : isShort w.length hdr' with
  | true => simp [short'] at less
  | false =>
      obtain ⟨y, split'⟩ := starts'.key_long short'
      cases short : isShort w.length hdr with
      | true =>
          rw [starts.key_short short, split']
          simpa using (append_lt_append (w := w) (x := [])).mpr (List.nil_lt_cons _ y)
      | false =>
          obtain ⟨x, split⟩ := starts.key_long short
          simp only [short, short', Bool.false_eq_true, if_false, Nat.add_lt_add_iff_right] at less
          rw [split, split', append_lt_append, List.cons_lt_cons_iff]
          exact Or.inl less

theorem Starts.pile {block : List Rec} (starts : ∀ hdr ∈ block, Starts w hdr) {c : Nat} {hdr : Rec}
    (member : hdr ∈ Sort.pile w.length (longs w.length block) c) :
    Starts (w ++ [c]) hdr ∧ w.length < hdr.keylen := by
  obtain ⟨inLongs, byte⟩ := List.mem_filter.mp member
  obtain ⟨inBlock, long⟩ := List.mem_filter.mp inLongs
  have begins := starts hdr inBlock
  obtain ⟨x, split⟩ := begins.key_long (by simpa using long)
  have same : hdr.byteAt w.length = c := by simpa using byte
  refine ⟨⟨begins.whole, x, by simp [split, same]⟩, ?_⟩
  have other : ¬ hdr.keylen ≤ w.length := by simpa [isShort] using long
  omega

theorem arranged_shorts (unique : Bool) {block : List Rec} (starts : ∀ hdr ∈ block, Starts w hdr) :
    records.Arranged unique (shorts w.length block)
      (strikeRest unique (shorts w.length block)) := by
  have each : ∀ hdr ∈ shorts w.length block, hdr.key = w ∧ records.live hdr = true := by
    intro hdr member
    obtain ⟨inBlock, short⟩ := List.mem_filter.mp member
    exact ⟨(starts hdr inBlock).key_short short, (starts hdr inBlock).whole.live⟩
  cases found : shorts w.length block with
  | nil => exact Marking.arranged_nil
  | cons first others =>
      rw [found] at each
      refine Marking.arranged_equal (each first (by simp)).2 fun hdr member => ?_
      have behind := each hdr (List.mem_cons_of_mem _ member)
      exact ⟨behind.1.trans (each first (by simp)).1.symm, behind.2⟩

theorem arranged_block (unique : Bool) {block : List Rec} {outs : Nat → List Rec}
    (starts : ∀ hdr ∈ block, Starts w hdr)
    (arranged : ∀ c < 256, records.Arranged unique (pile w.length (longs w.length block) c) (outs c)) :
    records.Arranged unique block
      (strikeRest unique (shorts w.length block) ++ ((List.range 256).map outs).flatten) := by
  have parts : ∀ c < 257, records.Arranged unique (block.filter (cls w.length · = c))
      (c.casesOn (strikeRest unique (shorts w.length block)) outs) := by
    intro c below
    cases c with
    | zero => rw [filter_cls_zero]; exact arranged_shorts unique starts
    | succ c => rw [filter_cls_succ]; exact arranged c (by omega)
  have whole := Marking.Arranged.flatten (m := records) (cls w.length)
    (fun hdr inBlock hdr' inBlock' less =>
      key_lt_of_cls_lt (starts hdr inBlock) (starts hdr' inBlock') less) 257 parts
  rw [List.filter_eq_self.mpr (fun hdr _ => by simpa using cls_lt w.length hdr),
    List.range_succ_eq_map, List.map_cons, List.map_map, List.flatten_cons] at whole
  exact whole

/-! ## The stack -/

theorem exists_map_perm {f : Nat → Saved} {cs : List Nat} {blocks : List Saved}
    (perm : blocks.Perm (cs.map f)) : ∃ cs' : List Nat, blocks = cs'.map f ∧ cs'.Perm cs := by
  have alike : List.Forall₂ (fun block c => block = f c) (cs.map f) cs :=
    List.forall₂_map_left_iff.mpr (List.forall₂_same.mpr fun _ _ => rfl)
  obtain ⟨cs', alike', perm'⟩ := List.perm_comp_forall₂ perm alike
  have equal : List.Forall₂ (· = ·) blocks (cs'.map f) := List.forall₂_map_right_iff.mpr alike'
  rw [List.forall₂_eq_eq_eq] at equal
  exact ⟨cs', equal, perm'⟩

theorem radixLoop_piles {unique debug : Bool} (pre post : List Rec) {i : Nat}
    {rows : List Rec}
    (sorts : ∀ c < 256, 1 < (pile i rows c).length → ∀ pre' post' top stack,
      ∃ out k top', records.Arranged unique (pile i rows c) out ∧ ∀ fuel,
        radixLoop unique debug (k + fuel) ⟨pre' ++ pile i rows c ++ post', fun _ => 0, top,
          ⟨pre'.length, (pile i rows c).length, i + 1⟩ :: stack⟩ =
        radixLoop unique debug fuel ⟨pre' ++ out ++ post', fun _ => 0, top', stack⟩) :
    ∀ (cs : List Nat) (outs : Nat → List Rec) (top : Nat → Nat) (stack : List Saved), cs.Nodup →
      (∀ c ∈ cs, c < 256 ∧ 1 < (pile i rows c).length ∧ outs c = pile i rows c) →
      (∀ c < 256, c ∉ cs → records.Arranged unique (pile i rows c) (outs c)) →
      ∃ outs' k top', (∀ c < 256, records.Arranged unique (pile i rows c) (outs' c)) ∧ ∀ fuel,
        radixLoop unique debug (k + fuel)
          ⟨pre ++ ((List.range 256).map outs).flatten ++ post, fun _ => 0, top,
            cs.map (saved i rows pre.length) ++ stack⟩ =
        radixLoop unique debug fuel
          ⟨pre ++ ((List.range 256).map outs').flatten ++ post, fun _ => 0, top', stack⟩ := by
  intro cs
  induction cs with
  | nil =>
      intro outs top stack _ _ done
      exact ⟨outs, 0, top, fun c below => done c below (by simp), fun fuel => by simp⟩
  | cons c cs ih =>
      intro outs top stack distinct waiting done
      obtain ⟨new, distinct'⟩ := List.nodup_cons.mp distinct
      obtain ⟨below, some, untouched⟩ := waiting c (by simp)
      have lengths : ∀ d < 256, (outs d).length = (pile i rows d).length := by
        intro d belowD
        by_cases inside : d ∈ c :: cs
        · rw [(waiting d inside).2.2]
        · exact (done d belowD inside).length_eq
      have frontLength : ∀ m ≤ 256, ((List.range m).map outs).flatten.length = before i rows m := by
        intro m small
        rw [← length_piles, piles, List.length_flatten, List.length_flatten, List.map_map,
          List.map_map]
        refine congrArg List.sum (List.map_congr_left fun d member => ?_)
        exact lengths d (by have := List.mem_range.mp member; omega)
      have split : List.range 256 = List.range c ++ c :: List.range' (c + 1) (255 - c) := by
        have joined := @List.range'_append_1 0 c (256 - c)
        rw [Nat.zero_add, Nat.add_sub_cancel' (by omega)] at joined
        have head : List.range' c (256 - c) = c :: List.range' (c + 1) (255 - c) := by
          rw [show 256 - c = (255 - c) + 1 by omega, List.range'_succ]
        rw [List.range_eq_range', List.range_eq_range', ← joined, head]
      have parts (f : Nat → List Rec) : ((List.range 256).map f).flatten =
          ((List.range c).map f).flatten ++ f c ++
            ((List.range' (c + 1) (255 - c)).map f).flatten := by
        rw [split]
        simp
      have others (out : List Rec) (ds : List Nat) (none : c ∉ ds) :
          ds.map (Function.update outs c out) = ds.map outs :=
        List.map_congr_left fun d member =>
          Function.update_of_ne (fun same : d = c => none (same ▸ member)) _ _
      obtain ⟨out, k, top', arranged, run⟩ := sorts c below some
        (pre ++ ((List.range c).map outs).flatten)
        (((List.range' (c + 1) (255 - c)).map outs).flatten ++ post) top
        (cs.map (saved i rows pre.length) ++ stack)
      obtain ⟨outs', k', top'', arranged', run'⟩ := ih (Function.update outs c out) top' stack
        distinct'
        (fun d inside => by
          have other : d ≠ c := fun same => new (same ▸ inside)
          rw [Function.update_of_ne other]
          exact waiting d (List.mem_cons_of_mem _ inside))
        (fun d belowD outside => by
          by_cases same : d = c
          · subst same
            rwa [Function.update_self]
          · rw [Function.update_of_ne same]
            exact done d belowD (by simp [same, outside]))
      refine ⟨outs', k + k', top'', arranged', fun fuel => ?_⟩
      have first := run (k' + fuel)
      have later := run' fuel
      rw [List.length_append, frontLength c (by omega)] at first
      rw [parts, others out _ (by simp), others out _ (by simp [List.mem_range'_1]),
        Function.update_self] at later
      rw [parts, untouched, Nat.add_assoc, List.map_cons, List.cons_append, saved]
      simp only [List.append_assoc] at first later ⊢
      rw [first, later]

theorem radixLoop_block (unique debug : Bool) :
    ∀ (d : Nat) (w : List Nat) (block : List Rec),
      (∀ hdr ∈ block, Starts w hdr ∧ hdr.keylen ≤ w.length + d) →
      ∀ (pre post : List Rec) (top : Nat → Nat) (stack : List Saved),
        ∃ out k top', records.Arranged unique block out ∧ ∀ fuel,
          radixLoop unique debug (k + fuel) ⟨pre ++ block ++ post, fun _ => 0, top,
            ⟨pre.length, block.length, w.length⟩ :: stack⟩ =
          radixLoop unique debug fuel ⟨pre ++ out ++ post, fun _ => 0, top', stack⟩ := by
  intro d
  induction d using Nat.strong_induction_on with
  | h d ih =>
      intro w block bounded pre post top stack
      have starts : ∀ hdr ∈ block, Starts w hdr := fun hdr member => (bounded hdr member).1
      by_cases small : block.length < THRESHOLD ∧ debug = false
      · obtain ⟨out, run, arranged⟩ := simplesort_arranged unique pre block post starts
        refine ⟨out, 1, top, arranged, fun fuel => ?_⟩
        rw [Nat.add_comm, radixLoop]
        dsimp only
        rw [if_pos small, run]
      · obtain ⟨top', blocks, passed, perm⟩ := pass_spec (i := w.length) unique pre block post top
          stack
        obtain ⟨cs, same, perm'⟩ := exists_map_perm perm
        have chosen : ∀ c ∈ cs, c < 256 ∧ 1 < (pile w.length (longs w.length block) c).length := by
          intro c member
          simpa using perm'.mem_iff.mp member
        have sorts : ∀ c < 256, 1 < (pile w.length (longs w.length block) c).length →
            ∀ pre' post' top stack, ∃ out k top',
              records.Arranged unique (pile w.length (longs w.length block) c) out ∧ ∀ fuel,
              radixLoop unique debug (k + fuel) ⟨pre' ++ pile w.length (longs w.length block) c ++
                post', fun _ => 0, top, ⟨pre'.length,
                  (pile w.length (longs w.length block) c).length, w.length + 1⟩ :: stack⟩ =
              radixLoop unique debug fuel ⟨pre' ++ out ++ post', fun _ => 0, top', stack⟩ := by
          intro c _ some
          obtain ⟨hdr, member⟩ := List.exists_mem_of_length_pos (Nat.lt_of_succ_lt some)
          obtain ⟨d', rfl⟩ : ∃ d', d = d' + 1 := by
            have longer := (Starts.pile starts member).2
            obtain ⟨inLongs, _⟩ := List.mem_filter.mp member
            have bound := (bounded hdr (List.mem_filter.mp inLongs).1).2
            exact ⟨d - 1, by omega⟩
          have deeper := ih d' (Nat.lt_succ_self d') (w ++ [c])
            (pile w.length (longs w.length block) c) (fun hdr' member' => by
              obtain ⟨inLongs, _⟩ := List.mem_filter.mp member'
              have bound := (bounded hdr' (List.mem_filter.mp inLongs).1).2
              refine ⟨(Starts.pile starts member').1, ?_⟩
              rw [List.length_append, List.length_singleton]
              push_cast at bound ⊢
              omega)
          rwa [List.length_append, List.length_singleton] at deeper
        have single : ∀ c < 256, c ∉ cs →
            records.Arranged unique (pile w.length (longs w.length block) c)
              (pile w.length (longs w.length block) c) := by
          intro c below outside
          have few : (pile w.length (longs w.length block) c).length ≤ 1 := by
            by_contra many
            exact outside (perm'.mem_iff.mpr (by simpa using ⟨below, by omega⟩))
          cases found : pile w.length (longs w.length block) c with
          | nil => exact Marking.arranged_nil
          | cons hdr others =>
              rw [found, List.length_cons] at few
              obtain rfl : others = [] := List.length_eq_zero_iff.mp (by omega)
              have member : hdr ∈ pile w.length (longs w.length block) c := by simp [found]
              exact Marking.arranged_singleton (Starts.pile starts member).1.whole.live
        obtain ⟨outs, k, top'', arranged, run⟩ := radixLoop_piles
          (pre ++ strikeRest unique (shorts w.length block)) post sorts cs
          (pile w.length (longs w.length block)) top' stack
          (perm'.nodup_iff.mpr (List.nodup_range.filter _))
          (fun c member => ⟨(chosen c member).1, (chosen c member).2, rfl⟩) single
        refine ⟨_, k + 1, top'', arranged_block unique starts arranged, fun fuel => ?_⟩
        rw [Nat.add_right_comm, radixLoop]
        dsimp only
        rw [if_neg small, passed, same]
        have final := run fuel
        rw [List.length_append, length_strikeRest] at final
        simp only [List.append_assoc] at final ⊢
        exact final

theorem exists_keylen_le (arr : List Rec) : ∃ d : Nat, ∀ hdr ∈ arr, hdr.keylen ≤ d := by
  induction arr with
  | nil => exact ⟨0, by simp⟩
  | cons first arr ih =>
      obtain ⟨d, bound⟩ := ih
      refine ⟨first.keylen.toNat + d, fun hdr member => ?_⟩
      rcases List.mem_cons.mp member with rfl | behind
      · omega
      · have least := bound hdr behind
        omega

theorem radix_sort_arranged (unique debug : Bool) {arr : List Rec}
    (whole : ∀ hdr ∈ arr, hdr.Whole) :
    ∃ out enough, (∀ fuel, enough ≤ fuel → radix_sort unique debug fuel arr = some out) ∧
      records.Arranged unique arr out := by
  have starts : ∀ hdr ∈ arr, Starts [] hdr := fun hdr member =>
    ⟨whole hdr member, List.nil_prefix⟩
  by_cases small : arr.length < THRESHOLD ∧ debug = false
  · obtain ⟨out, run, arranged⟩ := simplesort_arranged unique [] arr [] starts
    refine ⟨out, 0, fun fuel _ => ?_, arranged⟩
    rw [radix_sort, if_pos small]
    simpa using congrArg some run
  · obtain ⟨d, bound⟩ := exists_keylen_le arr
    obtain ⟨out, k, top', arranged, run⟩ := radixLoop_block unique debug d [] arr
      (fun hdr member => ⟨starts hdr member, by simpa using bound hdr member⟩) [] [] (fun _ => 0) []
    refine ⟨out, k, fun fuel enough => ?_, arranged⟩
    have final := run (fuel - k)
    rw [Nat.add_sub_cancel' enough] at final
    simp only [List.nil_append, List.append_nil, List.length_nil] at final
    rw [radix_sort, if_neg small, final]
    cases fuel - k <;> rfl

/-- The array is rearranged, with duplicates struck out when keys are to be unique.  Without
that it is sorted stably; with it the first records of all keys are left, in strict order. -/
theorem radix_sort_sorts (unique debug : Bool) (arr : List Rec)
    (whole : ∀ hdr ∈ arr, hdr.Whole) :
    ∃ out enough, (∀ fuel, enough ≤ fuel → radix_sort unique debug fuel arr = some out) ∧
      (∃ marked, List.Forall₂ (fun hdr hdr' => hdr' = hdr ∨ unique = true ∧ hdr' = hdr.dup) arr
        marked ∧ marked.Perm out) ∧
      (unique = false → out.Pairwise (fun hdr hdr' => hdr.key ≤ hdr'.key) ∧
        ∀ k, ofKey Rec.key k out = ofKey Rec.key k arr) ∧
      (unique = true →
        (out.filter (Rec.keylen · ≠ -1)).Pairwise (fun hdr hdr' => hdr.key < hdr'.key) ∧
        ∀ k, ofKey Rec.key k (out.filter (Rec.keylen · ≠ -1)) =
          (ofKey Rec.key k arr).take 1) := by
  obtain ⟨out, enough, run, arranged⟩ := radix_sort_arranged unique debug whole
  refine ⟨out, enough, run, arranged.marked, ?_, ?_⟩
  · rintro rfl
    obtain ⟨marked, struck, perm⟩ := arranged.marked
    have equal : List.Forall₂ (· = ·) arr marked :=
      struck.imp fun hdr hdr' kept => (kept.resolve_right (by simp)).symm
    rw [List.forall₂_eq_eq_eq] at equal
    subst equal
    have alive : out.filter records.live = out :=
      List.filter_eq_self.mpr fun hdr member => (whole hdr (perm.mem_iff.mpr member)).live
    have ordered := arranged.ordered
    have kept := arranged.kept
    rw [alive] at ordered kept
    exact ⟨ordered, kept⟩
  · rintro rfl
    exact ⟨arranged.strict, arranged.kept⟩

/-- Keys of which one repeats and one is the front of another. -/
theorem radix_sort_sorts_unique :
    ∃ out enough, (∀ fuel, enough ≤ fuel → radix_sort true true fuel
        [⟨2, ascii ['a', 'b']⟩, ⟨1, ascii ['a', 'x']⟩, ⟨2, ascii ['a', 'b', 'y']⟩] = some out) ∧
      (out.filter (Rec.keylen · ≠ -1)).Pairwise (fun hdr hdr' => hdr.key < hdr'.key) ∧
      ofKey Rec.key [97, 98] (out.filter (Rec.keylen · ≠ -1)) = [⟨2, ascii ['a', 'b']⟩] := by
  obtain ⟨out, enough, run, _, _, unique⟩ := radix_sort_sorts true true
    [⟨2, ascii ['a', 'b']⟩, ⟨1, ascii ['a', 'x']⟩, ⟨2, ascii ['a', 'b', 'y']⟩]
    (by
      intro hdr member
      simp only [List.mem_cons, List.not_mem_nil, or_false] at member
      rcases member with rfl | rfl | rfl <;> exact ⟨by decide, by decide⟩)
  exact ⟨out, enough, run, (unique rfl).1, ((unique rfl).2 [97, 98]).trans (by decide)⟩

end Netbase.Sort
