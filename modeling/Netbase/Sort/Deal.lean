import Netbase.Sort.Simple

/-!
# One pass of the radix sort

A block is distributed by one byte of the keys.  Short keys are moved to the
front while the others are counted; the counts become the ends of the piles,
and the records are dealt to them from the last one down.
-/

namespace Netbase.Sort

open Netbase.Text Netbase.Lib

/-- A block that waits to be sorted: where it starts, its size, and the next byte. -/
structure Saved where
  sa : Nat
  sn : Nat
  si : Nat
  deriving DecidableEq

instance : Inhabited Saved := ⟨⟨0, 0, 0⟩⟩

/-- The variables of the counting loop. -/
structure Counting where
  arr : List Rec
  a : Nat
  n : Nat
  ta : List Rec
  count : Nat → Nat
  nc : Nat
  bmin : Nat

/-- A short key goes to the front of the block, any other record to the temporary array. -/
def countStep (unique : Bool) (sa data_index : Nat) (st : Counting) (ak : Nat) : Counting :=
  let hdr := st.arr.getD ak default
  if hdr.keylen ≤ data_index then
    { st with
      arr := st.arr.set st.a (if unique = true ∧ st.a ≠ sa then hdr.dup else hdr)
      a := st.a + 1
      n := st.n - 1 }
  else
    let c := hdr.byteAt data_index
    let count := Function.update st.count c (st.count c + 1)
    { st with
      ta := st.ta ++ [hdr]
      count := count
      nc := if count c = 1 then st.nc + 1 else st.nc
      bmin := if count c = 1 ∧ c < st.bmin then c else st.bmin }

/-- The variables of the loop over the counts; `big` is the place of the largest block. -/
structure Bounds where
  count : Nat → Nat
  nc : Nat
  ak : Nat
  pushed : List Saved
  big : Nat
  bigc : Nat
  top : Nat → Nat

/-- A pile gets its end, and is saved when there is something to sort in it. -/
def boundsStep (data_index : Nat) (st : Bounds) (cp : Nat) : Bounds :=
  let c := st.count cp
  if c = 0 then st
  else
    { count := Function.update st.count cp 0
      nc := st.nc - 1
      ak := st.ak + c
      pushed := if 1 < c then st.pushed ++ [⟨st.ak, c, data_index + 1⟩] else st.pushed
      big := if 1 < c ∧ st.bigc < c then st.pushed.length else st.big
      bigc := if 1 < c ∧ st.bigc < c then c else st.bigc
      top := Function.update st.top cp (st.ak + c) }

/-- The loop ends with the last count that is not zero. -/
def bounds (data_index : Nat) : Nat → Nat → Bounds → Bounds
  | 0, _, st => st
  | fuel + 1, cp, st =>
      if st.nc = 0 then st else bounds data_index fuel (cp + 1) (boundsStep data_index st cp)

/-- Deal to piles. -/
def deal (data_index : Nat) (ta : List Rec) (arr : List Rec) (top : Nat → Nat) :
    List Rec × (Nat → Nat) :=
  ta.foldr
    (fun hdr st =>
      let c := hdr.byteAt data_index
      (st.1.set (st.2 c - 1) hdr, Function.update st.2 c (st.2 c - 1)))
    (arr, top)

/-- The largest block is sorted last. -/
def swapLargest (pushed : List Saved) (big : Nat) : List Saved :=
  (pushed.set 0 (pushed.getD big default)).set big (pushed.getD 0 default)

/-- The array, the counters that the passes share, and the stack with its top first. -/
structure Work where
  arr : List Rec
  count : Nat → Nat
  top : Nat → Nat
  stack : List Saved

/-- One block is distributed. -/
def pass (unique : Bool) (work : Work) (sa sn data_index : Nat) : Work :=
  let st := (List.range' sa sn).foldl (countStep unique sa data_index)
    ⟨work.arr, sa, sn, [], work.count, 0, 255⟩
  let bs := bounds data_index (256 - st.bmin) st.bmin
    ⟨st.count, st.nc, st.a, [], 0, 2, work.top⟩
  let dealt := deal data_index (st.ta.take st.n) st.arr bs.top
  ⟨dealt.1, bs.count, dealt.2, (swapLargest bs.pushed bs.big).reverse ++ work.stack⟩

/-! ## Piles -/

/-- The records of one byte. -/
def pile (data_index : Nat) (rows : List Rec) (c : Nat) : List Rec :=
  rows.filter (Rec.byteAt · data_index = c)

/-- How many records come before a pile. -/
def before (data_index : Nat) (rows : List Rec) (m : Nat) : Nat :=
  (rows.filter (Rec.byteAt · data_index < m)).length

theorem Rec.byteAt_lt (hdr : Rec) (i : Nat) : hdr.byteAt i < 256 := UInt8.toNat_lt _

variable {i : Nat} {rows : List Rec}

theorem before_succ (m : Nat) :
    before i rows (m + 1) = before i rows m + (pile i rows m).length := by
  rw [before, before, pile]
  induction rows with
  | nil => rfl
  | cons hdr rows ih =>
      rcases Nat.lt_trichotomy (hdr.byteAt i) m with less | equal | more
      · rw [List.filter_cons_of_pos (by simp only [decide_eq_true_eq]; omega),
          List.filter_cons_of_pos (by simpa using less),
          List.filter_cons_of_neg (by simp [less.ne]), List.length_cons, List.length_cons, ih]
        omega
      · rw [List.filter_cons_of_pos (by simp [equal]), List.filter_cons_of_neg (by simp [equal]),
          List.filter_cons_of_pos (by simp [equal]), List.length_cons, List.length_cons, ih]
        omega
      · have notBelow : ¬ hdr.byteAt i < m := by omega
        have notBelow' : ¬ hdr.byteAt i < m + 1 := by omega
        rw [List.filter_cons_of_neg (by simp [notBelow']),
          List.filter_cons_of_neg (by simp [notBelow]),
          List.filter_cons_of_neg (by simp [more.ne']), ih]

theorem before_mono {m n : Nat} (le : m ≤ n) : before i rows m ≤ before i rows n := by
  induction le with
  | refl => exact Nat.le_refl _
  | step _ ih => rw [before_succ]; omega

@[simp] theorem before_zero : before i rows 0 = 0 := by simp [before]

theorem before_all : before i rows 256 = rows.length := by
  rw [before, List.filter_eq_self.mpr]
  intro hdr _
  simpa using hdr.byteAt_lt i

theorem piles_disjoint {c d j k : Nat} (other : c ≠ d) (inC : j < (pile i rows c).length)
    (inD : k < (pile i rows d).length) : before i rows c + j ≠ before i rows d + k := by
  have endC : before i rows (c + 1) = _ := before_succ c
  have endD : before i rows (d + 1) = _ := before_succ d
  rcases Nat.lt_or_gt_of_ne other with less | more
  · have apart : before i rows (c + 1) ≤ before i rows d := before_mono less
    omega
  · have apart : before i rows (d + 1) ≤ before i rows c := before_mono more
    omega

theorem pile_append (front back : List Rec) (c : Nat) :
    pile i (front ++ back) c = pile i front c ++ pile i back c :=
  List.filter_append ..

/-- All piles in the order of their bytes. -/
def piles (data_index : Nat) (rows : List Rec) (m : Nat) : List Rec :=
  ((List.range m).map (pile data_index rows)).flatten

theorem piles_succ (m : Nat) : piles i rows (m + 1) = piles i rows m ++ pile i rows m := by
  simp [piles, List.range_succ]

theorem length_piles (m : Nat) : (piles i rows m).length = before i rows m := by
  induction m with
  | zero => simp [piles]
  | succ m ih => rw [piles_succ, List.length_append, ih, before_succ]

/-! ## Dealing -/

/-- The middle of the array with the piles of the records dealt so far, and the tops. -/
structure Dealt (i : Nat) (rows front back : List Rec) (mid : List Rec) (a : Nat)
    (top : Nat → Nat) : Prop where
  length : mid.length = rows.length
  placed : ∀ c j, j < (pile i back c).length →
    mid[before i rows c + (pile i front c).length + j]? = (pile i back c)[j]?
  top : ∀ c, pile i rows c ≠ [] → top c = a + before i rows c + (pile i front c).length

theorem deal_dealt {pre mid post : List Rec} {top : Nat → Nat}
    (length : mid.length = rows.length)
    (tops : ∀ c, pile i rows c ≠ [] → top c = pre.length + before i rows (c + 1)) :
    ∀ (back front : List Rec), front ++ back = rows →
      ∃ mid', (deal i back (pre ++ mid ++ post) top).1 = pre ++ mid' ++ post ∧
        Dealt i rows front back mid' pre.length (deal i back (pre ++ mid ++ post) top).2 := by
  intro back
  induction back with
  | nil =>
      intro front whole
      rw [List.append_nil] at whole
      subst whole
      refine ⟨mid, rfl, length, fun c j inside => by simp [pile] at inside, fun c some => ?_⟩
      have ends := tops c some
      rw [before_succ] at ends
      change top c = _
      omega
  | cons hdr back ih =>
      intro front whole
      obtain ⟨mid', arr, dealt⟩ := ih (front ++ [hdr]) (by simpa using whole)
      have own : pile i (hdr :: back) (hdr.byteAt i) = hdr :: pile i back (hdr.byteAt i) :=
        List.filter_cons_of_pos (by simp)
      have foreign (c : Nat) (other : c ≠ hdr.byteAt i) : pile i (hdr :: back) c = pile i back c :=
        List.filter_cons_of_neg (by simpa using other.symm)
      have rowsPile (c : Nat) : pile i rows c = pile i front c ++ pile i (hdr :: back) c := by
        rw [← whole, pile_append]
      have frontOwn : (pile i (front ++ [hdr]) (hdr.byteAt i)).length =
          (pile i front (hdr.byteAt i)).length + 1 := by
        simp [pile]
      have frontForeign (c : Nat) (other : c ≠ hdr.byteAt i) :
          pile i (front ++ [hdr]) c = pile i front c := by
        simp [pile, other.symm]
      have some : pile i rows (hdr.byteAt i) ≠ [] := by rw [rowsPile, own]; simp
      have place := dealt.top _ some
      rw [frontOwn] at place
      have lowered : (deal i back (pre ++ mid ++ post) top).2 (hdr.byteAt i) - 1 =
          pre.length + (before i rows (hdr.byteAt i) + (pile i front (hdr.byteAt i)).length) := by
        omega
      have inside : before i rows (hdr.byteAt i) + (pile i front (hdr.byteAt i)).length <
          mid'.length := by
        have behind : before i rows (hdr.byteAt i + 1) = _ := before_succ (hdr.byteAt i)
        have last : before i rows (hdr.byteAt i + 1) ≤ before i rows 256 :=
          before_mono (hdr.byteAt_lt i)
        rw [before_all, ← dealt.length] at last
        rw [rowsPile, own, List.length_append, List.length_cons] at behind
        omega
      refine ⟨mid'.set (before i rows (hdr.byteAt i) + (pile i front (hdr.byteAt i)).length) hdr,
        ?_, ?_, ?_, ?_⟩
      · rw [deal, List.foldr_cons, ← deal, arr]
        dsimp only
        rw [lowered, List.append_assoc, List.set_append_right _ _ (Nat.le_add_right _ _),
          Nat.add_sub_cancel_left, List.set_append_left _ _ inside, ← List.append_assoc]
      · rw [List.length_set, dealt.length]
      · intro c j inPile
        by_cases same : c = hdr.byteAt i
        · subst same
          rw [own] at inPile ⊢
          cases j with
          | zero => rw [Nat.add_zero, List.getElem?_set_self inside, List.getElem?_cons_zero]
          | succ j =>
              have behind := dealt.placed (hdr.byteAt i) j (by simpa using inPile)
              rw [frontOwn] at behind
              rw [List.getElem?_set_ne (by omega), List.getElem?_cons_succ, ← behind]
              congr 1
              omega
        · rw [foreign c same] at inPile ⊢
          have kept := dealt.placed c j inPile
          rw [frontForeign c same] at kept
          have apart : before i rows (hdr.byteAt i) + (pile i front (hdr.byteAt i)).length ≠
              before i rows c + ((pile i front c).length + j) := by
            refine piles_disjoint (Ne.symm same) ?_ ?_
            · rw [rowsPile, own, List.length_append, List.length_cons]
              omega
            · rw [rowsPile, foreign c same, List.length_append]
              omega
          rw [List.getElem?_set_ne (by omega), kept]
      · intro c found
        rw [deal, List.foldr_cons, ← deal]
        dsimp only
        by_cases same : c = hdr.byteAt i
        · subst same
          rw [Function.update_self]
          omega
        · have kept := dealt.top c found
          rw [frontForeign c same] at kept
          rw [Function.update_of_ne same, kept]

theorem Dealt.mid_eq {mid : List Rec} {a : Nat} {top : Nat → Nat}
    (dealt : Dealt i rows [] rows mid a top) : mid = piles i rows 256 := by
  have prefixes : ∀ m, mid.take (before i rows m) = piles i rows m := by
    intro m
    induction m with
    | zero => simp [piles]
    | succ m ih =>
        rw [before_succ, List.take_add, ih, piles_succ]
        congr 1
        refine List.ext_getElem? fun j => ?_
        by_cases inside : j < (pile i rows m).length
        · have placed := dealt.placed m j inside
          rw [List.getElem?_take_of_lt inside, List.getElem?_drop]
          simpa [pile] using placed
        · rw [List.getElem?_take_eq_none (by omega), List.getElem?_eq_none (by omega)]
  have whole := prefixes 256
  rwa [before_all, ← dealt.length, List.take_length] at whole

/-! ## Counting -/

/-- The records whose key ends before the byte, and the others. -/
def isShort (data_index : Nat) (hdr : Rec) : Bool := hdr.keylen ≤ data_index

def shorts (data_index : Nat) (rows : List Rec) : List Rec := rows.filter (isShort data_index)

def longs (data_index : Nat) (rows : List Rec) : List Rec := rows.filter (!isShort data_index ·)

/-- Behind the first short record the others are duplicates. -/
def strikeRest (unique : Bool) : List Rec → List Rec
  | [] => []
  | hdr :: others => hdr :: others.map fun other => if unique then other.dup else other

theorem length_shorts_longs (data_index : Nat) (rows : List Rec) :
    (shorts data_index rows).length + (longs data_index rows).length = rows.length := by
  rw [← List.length_append]
  exact (List.filter_append_perm _ rows).length_eq

theorem length_strikeRest (unique : Bool) (rows : List Rec) :
    (strikeRest unique rows).length = rows.length := by
  cases rows <;> simp [strikeRest]

theorem strikeRest_concat (unique : Bool) (rows : List Rec) (hdr : Rec) :
    strikeRest unique (rows ++ [hdr]) =
      strikeRest unique rows ++ [if unique = true ∧ rows ≠ [] then hdr.dup else hdr] := by
  cases rows with
  | nil => simp [strikeRest]
  | cons first others => simp [strikeRest]

/-- How many counts below `m` are not zero. -/
def nonzero (count : Nat → Nat) (m : Nat) : Nat := ((List.range m).filter (count · ≠ 0)).length

theorem nonzero_succ (count : Nat → Nat) (m : Nat) :
    nonzero count (m + 1) = nonzero count m + if count m ≠ 0 then 1 else 0 := by
  rw [nonzero, nonzero, List.range_succ, List.filter_append, List.length_append]
  by_cases zero : count m = 0 <;> simp [zero]

theorem nonzero_update (count : Nat → Nat) (c m : Nat) :
    nonzero (Function.update count c (count c + 1)) m =
      nonzero count m + if c < m ∧ count c = 0 then 1 else 0 := by
  induction m with
  | zero => simp [nonzero]
  | succ m ih =>
      rw [nonzero_succ, nonzero_succ, ih]
      rcases Nat.lt_trichotomy c m with less | rfl | more
      · have below : c < m + 1 := Nat.lt_succ_of_lt less
        rw [Function.update_of_ne less.ne']
        simp only [less, below, true_and]
        omega
      · rw [Function.update_self]
        by_cases zero : count c = 0 <;> simp [zero]
      · have above : ¬ c < m := by omega
        have above' : ¬ c < m + 1 := by omega
        rw [Function.update_of_ne more.ne]
        simp [above, above']

/-- The counting loop with the records of `front` behind it. -/
structure Counted (unique : Bool) (i : Nat) (pre front rest post : List Rec) (st : Counting) :
    Prop where
  arr : ∃ stale, st.arr = pre ++ strikeRest unique (shorts i front) ++ stale ++ rest ++ post ∧
    (shorts i front).length + stale.length = front.length
  a : st.a = pre.length + (shorts i front).length
  n : st.n + (shorts i front).length = front.length + rest.length
  ta : st.ta = longs i front
  count : ∀ c, st.count c = (pile i (longs i front) c).length
  nc : st.nc = nonzero st.count 256
  bmin : st.bmin ≤ 255 ∧ ∀ c, st.count c ≠ 0 → st.bmin ≤ c

theorem Counted.step {unique : Bool} {pre front rest post : List Rec} {hdr : Rec} {st : Counting}
    (counted : Counted unique i pre front (hdr :: rest) post st) :
    Counted unique i pre (front ++ [hdr]) rest post
      (countStep unique pre.length i st (pre.length + front.length)) := by
  obtain ⟨stale, arr, length⟩ := counted.arr
  have found : st.arr.getD (pre.length + front.length) default = hdr := by
    rw [arr, ← length]
    simp [List.getD_eq_getElem?_getD, length_strikeRest]
  have total := counted.n
  rw [List.length_cons] at total
  rw [countStep, found]
  by_cases short : hdr.keylen ≤ i
  · have more : shorts i (front ++ [hdr]) = shorts i front ++ [hdr] := by
      simp [shorts, isShort, short]
    have same : longs i (front ++ [hdr]) = longs i front := by
      simp [longs, isShort, short]
    have marks : unique = true ∧ st.a ≠ pre.length ↔ unique = true ∧ shorts i front ≠ [] := by
      rw [counted.a, ne_eq, ne_eq, ← List.length_eq_zero_iff]
      exact and_congr_right fun _ => by omega
    have value : (if unique = true ∧ st.a ≠ pre.length then hdr.dup else hdr) =
        if unique = true ∧ shorts i front ≠ [] then hdr.dup else hdr := if_congr marks rfl rfl
    rw [if_pos short, value]
    refine ⟨⟨(stale ++ [hdr]).tail, ?_, ?_⟩, ?_, ?_, ?_, ?_, counted.nc, counted.bmin⟩
    · dsimp only
      rw [more, strikeRest_concat, arr, counted.a]
      cases stale with
      | nil => simp [length_strikeRest]
      | cons g stale => simp [length_strikeRest]
    · rw [more]
      simp only [List.length_append, List.length_tail, List.length_singleton]
      omega
    · rw [more, List.length_append, List.length_singleton, ← Nat.add_assoc, ← counted.a]
    · rw [more]
      simp only [List.length_append, List.length_singleton]
      omega
    · rw [same]; exact counted.ta
    · rw [same]; exact counted.count
  · have same : shorts i (front ++ [hdr]) = shorts i front := by
      simp [shorts, isShort, short]
    have more : longs i (front ++ [hdr]) = longs i front ++ [hdr] := by
      simp [longs, isShort, short]
    rw [if_neg short]
    refine ⟨⟨stale ++ [hdr], ?_, ?_⟩, ?_, ?_, ?_, ?_, ?_, ?_, ?_⟩
    · rw [same, arr]
      simp
    · rw [same]
      simp only [List.length_append, List.length_singleton]
      omega
    · rw [same]; exact counted.a
    · rw [same]
      simp only [List.length_append, List.length_singleton]
      omega
    · rw [more, ← counted.ta]
    · intro c
      dsimp only
      rw [more, pile_append, List.length_append, ← counted.count]
      by_cases own : c = hdr.byteAt i
      · subst own
        simp [pile]
      · rw [Function.update_of_ne own]
        simp [pile, Ne.symm own]
    · dsimp only
      rw [nonzero_update, Function.update_self, ← counted.nc]
      by_cases fresh : st.count (hdr.byteAt i) = 0
      · simp [fresh, hdr.byteAt_lt i]
      · simp [fresh]
    · have small := hdr.byteAt_lt i
      have least := counted.bmin.1
      dsimp only
      split <;> omega
    · intro c counts
      have bound := counted.bmin.2
      dsimp only at counts ⊢
      rw [Function.update_self]
      by_cases own : c = hdr.byteAt i
      · subst own
        split
        · exact Nat.le_refl _
        · next known =>
            by_cases fresh : st.count (hdr.byteAt i) = 0
            · simp only [fresh, zero_add, true_and, not_lt] at known
              exact known
            · exact bound _ fresh
      · rw [Function.update_of_ne own] at counts
        have before := bound c counts
        split <;> omega

theorem counted_all (unique : Bool) (pre block post : List Rec) :
    Counted unique i pre block [] post
      ((List.range' pre.length block.length).foldl (countStep unique pre.length i)
        ⟨pre ++ block ++ post, pre.length, block.length, [], fun _ => 0, 0, 255⟩) := by
  have run : ∀ (rest front : List Rec) (st : Counting), Counted unique i pre front rest post st →
      Counted unique i pre (front ++ rest) []  post
        ((List.range' (pre.length + front.length) rest.length).foldl
          (countStep unique pre.length i) st) := by
    intro rest
    induction rest with
    | nil => intro front st counted; simpa using counted
    | cons hdr rest ih =>
        intro front st counted
        have step := ih (front ++ [hdr]) _ counted.step
        rw [List.length_cons, List.range'_succ, List.foldl_cons]
        simpa [Nat.add_assoc] using step
  have start : Counted unique i pre [] block post
      ⟨pre ++ block ++ post, pre.length, block.length, [], fun _ => 0, 0, 255⟩ := by
    refine ⟨⟨[], by simp [shorts, strikeRest], by simp [shorts]⟩, by simp [shorts],
      by simp [shorts], by simp [longs], by simp [longs, pile], ?_, by simp⟩
    simp [nonzero]
  simpa using run block [] _ start

/-! ## Bounds -/

theorem boundsStep_zero {st : Bounds} {cp : Nat} (zero : st.count cp = 0) :
    boundsStep i st cp = st := by
  rw [boundsStep]
  simp [zero]

theorem foldl_zero {st : Bounds} {cps : List Nat} (zero : ∀ cp ∈ cps, st.count cp = 0) :
    cps.foldl (boundsStep i) st = st := by
  induction cps with
  | nil => rfl
  | cons cp cps ih =>
      rw [List.foldl_cons, boundsStep_zero (zero cp (by simp))]
      exact ih fun c member => zero c (List.mem_cons_of_mem _ member)

theorem bounds_eq : ∀ (fuel cp : Nat) (st : Bounds),
    st.nc = ((List.range' cp fuel).filter (st.count · ≠ 0)).length →
      bounds i fuel cp st = (List.range' cp fuel).foldl (boundsStep i) st := by
  intro fuel
  induction fuel with
  | zero => intro cp st _; rfl
  | succ fuel ih =>
      intro cp st counted
      rw [bounds]
      by_cases done : st.nc = 0
      · rw [if_pos done, foldl_zero]
        rw [done] at counted
        intro c member
        have none := List.filter_eq_nil_iff.mp (List.length_eq_zero_iff.mp counted.symm) c member
        simpa using none
      · rw [if_neg done, List.range'_succ, List.foldl_cons]
        refine ih (cp + 1) _ ?_
        rw [List.range'_succ] at counted
        by_cases zero : st.count cp = 0
        · rw [boundsStep_zero zero, counted, List.filter_cons_of_neg (by simpa using zero)]
        · rw [List.filter_cons_of_pos (by simpa using zero), List.length_cons] at counted
          rw [boundsStep]
          simp only [zero, if_false]
          rw [counted, Nat.add_sub_cancel]
          congr 1
          refine List.filter_congr fun c member => ?_
          have above := (List.mem_range'_1.mp member).1
          rw [Function.update_of_ne (by omega)]

/-- The records of the piles below `m` have their bounds. -/
structure Bounded (i : Nat) (rows : List Rec) (a m : Nat) (st : Bounds) : Prop where
  count : ∀ c, st.count c = if c < m then 0 else (pile i rows c).length
  ak : st.ak = a + before i rows m
  pushed : st.pushed = ((List.range m).filter fun c => 1 < (pile i rows c).length).map fun c =>
    ⟨a + before i rows c, (pile i rows c).length, i + 1⟩
  big : st.big = 0 ∨ st.big < st.pushed.length
  top : ∀ c < m, pile i rows c ≠ [] → st.top c = a + before i rows (c + 1)

theorem Bounded.step {a m : Nat} {st : Bounds} (bounded : Bounded i rows a m st) :
    Bounded i rows a (m + 1) (boundsStep i st m) := by
  have here : st.count m = (pile i rows m).length := by rw [bounded.count, if_neg (by omega)]
  have next : before i rows (m + 1) = before i rows m + (pile i rows m).length := before_succ m
  by_cases zero : st.count m = 0
  · rw [boundsStep_zero zero]
    have none : pile i rows m = [] := List.length_eq_zero_iff.mp (here.symm.trans zero)
    refine ⟨fun c => ?_, ?_, ?_, bounded.big, fun c below found => ?_⟩
    · rw [bounded.count]
      rcases Nat.lt_trichotomy c m with less | rfl | more
      · rw [if_pos less, if_pos (by omega)]
      · rw [if_neg (by omega), if_pos (by omega), none, List.length_nil]
      · rw [if_neg (by omega), if_neg (by omega)]
    · rw [bounded.ak, next, none, List.length_nil, Nat.add_zero]
    · rw [bounded.pushed, List.range_succ, List.filter_append]
      simp [none]
    · refine bounded.top c ?_ found
      have other : c ≠ m := fun same => found (same ▸ none)
      omega
  · rw [boundsStep]
    simp only [zero, if_false]
    refine ⟨fun c => ?_, ?_, ?_, ?_, fun c below found => ?_⟩
    · dsimp only
      rcases Nat.lt_trichotomy c m with less | rfl | more
      · rw [Function.update_of_ne less.ne, bounded.count, if_pos less, if_pos (by omega)]
      · rw [Function.update_self, if_pos (by omega)]
      · rw [Function.update_of_ne more.ne', bounded.count, if_neg (by omega), if_neg (by omega)]
    · dsimp only
      rw [bounded.ak, here, next, Nat.add_assoc]
    · dsimp only
      rw [List.range_succ, List.filter_append, List.map_append, ← bounded.pushed, here, bounded.ak]
      by_cases some : 1 < (pile i rows m).length <;> simp [some]
    · dsimp only
      have big := bounded.big
      by_cases some : 1 < st.count m
      · simp only [some, true_and, if_true, List.length_append, List.length_singleton]
        split <;> omega
      · simp only [some, false_and, if_false]
        exact big
    · dsimp only
      by_cases same : c = m
      · subst same
        rw [Function.update_self, bounded.ak, here, next, Nat.add_assoc]
      · rw [Function.update_of_ne same]
        exact bounded.top c (by omega) found

theorem bounded_all (a : Nat) (top : Nat → Nat) {count : Nat → Nat} (nc : Nat)
    (counts : ∀ c, count c = (pile i rows c).length) (m : Nat) :
    Bounded i rows a m ((List.range m).foldl (boundsStep i) ⟨count, nc, a, [], 0, 2, top⟩) := by
  induction m with
  | zero => exact ⟨fun c => by simp [counts], by simp, by simp, Or.inl rfl, by simp⟩
  | succ m ih =>
      rw [List.range_succ, List.foldl_append]
      exact ih.step

theorem swapLargest_perm {pushed : List Saved} {big : Nat} (place : big = 0 ∨ big < pushed.length) :
    (swapLargest pushed big).Perm pushed := by
  cases pushed with
  | nil => rw [swapLargest]; simp
  | cons first others =>
      have inside : big < (first :: others).length := by
        rcases place with rfl | less
        · simp
        · exact less
      rw [swapLargest, List.getD_eq_getElem?_getD, List.getElem?_eq_getElem inside,
        List.getD_eq_getElem?_getD, List.getElem?_cons_zero, Option.getD_some, Option.getD_some]
      exact List.set_set_perm (Nat.zero_lt_succ _) inside

/-- The blocks that a pass saves. -/
def saved (i : Nat) (rows : List Rec) (a : Nat) (c : Nat) : Saved :=
  ⟨a + before i rows c, (pile i rows c).length, i + 1⟩

theorem pass_spec (unique : Bool) (pre block post : List Rec) (top : Nat → Nat)
    (stack : List Saved) :
    ∃ top' blocks, pass unique ⟨pre ++ block ++ post, fun _ => 0, top, stack⟩ pre.length
        block.length i =
      ⟨pre ++ strikeRest unique (shorts i block) ++ piles i (longs i block) 256 ++ post,
        fun _ => 0, top', blocks ++ stack⟩ ∧
      blocks.Perm (((List.range 256).filter fun c => 1 < (pile i (longs i block) c).length).map
        (saved i (longs i block) (pre.length + (shorts i block).length))) := by
  have counted := counted_all (i := i) unique pre block post
  rw [pass]
  dsimp only
  generalize (List.range' pre.length block.length).foldl (countStep unique pre.length i)
    ⟨pre ++ block ++ post, pre.length, block.length, [], fun _ => 0, 0, 255⟩ = st at counted ⊢
  obtain ⟨stale, arr, length⟩ := counted.arr
  have least := counted.bmin.1
  have below : ∀ c ∈ List.range st.bmin, st.count c = 0 := by
    intro c member
    by_contra counts
    have bound := counted.bmin.2 c counts
    have inside := List.mem_range.mp member
    omega
  have split : List.range 256 = List.range st.bmin ++ List.range' st.bmin (256 - st.bmin) := by
    have joined := @List.range'_append_1 0 st.bmin (256 - st.bmin)
    rw [Nat.zero_add, Nat.add_sub_cancel' (by omega)] at joined
    rw [List.range_eq_range', List.range_eq_range', joined]
  have nc : st.nc = ((List.range' st.bmin (256 - st.bmin)).filter (st.count · ≠ 0)).length := by
    rw [counted.nc, nonzero, split, List.filter_append, List.filter_eq_nil_iff.mpr,
      List.nil_append]
    intro c member
    simpa using below c member
  have run : bounds i (256 - st.bmin) st.bmin ⟨st.count, st.nc, st.a, [], 0, 2, top⟩ =
      (List.range 256).foldl (boundsStep i) ⟨st.count, st.nc, st.a, [], 0, 2, top⟩ := by
    have skip : (List.range st.bmin).foldl (boundsStep i) ⟨st.count, st.nc, st.a, [], 0, 2, top⟩ =
        ⟨st.count, st.nc, st.a, [], 0, 2, top⟩ := foldl_zero below
    rw [bounds_eq _ _ _ nc, split, List.foldl_append, skip]
  have bounded := bounded_all (i := i) st.a top st.nc counted.count 256
  rw [run]
  generalize (List.range 256).foldl (boundsStep i) ⟨st.count, st.nc, st.a, [], 0, 2, top⟩ = bs
    at bounded ⊢
  have parts := length_shorts_longs i block
  have total := counted.n
  rw [List.length_nil, Nat.add_zero] at total
  have all : st.ta.take st.n = longs i block := by
    rw [counted.ta, List.take_of_length_le (by omega)]
  have tops : ∀ c, pile i (longs i block) c ≠ [] →
      bs.top c = (pre ++ strikeRest unique (shorts i block)).length +
        before i (longs i block) (c + 1) := by
    intro c found
    obtain ⟨hdr, member⟩ := List.exists_mem_of_ne_nil _ found
    have small := hdr.byteAt_lt i
    have byte : hdr.byteAt i = c := by simpa using (List.mem_filter.mp member).2
    rw [bounded.top c (by omega) found, counted.a, List.length_append, length_strikeRest]
  have middle : stale.length = (longs i block).length := by omega
  obtain ⟨mid', dealt, final⟩ := deal_dealt middle tops (longs i block) [] rfl
  rw [List.append_nil] at arr
  rw [all, arr]
  refine ⟨(deal i (longs i block) (pre ++ strikeRest unique (shorts i block) ++ stale ++ post)
    bs.top).2, (swapLargest bs.pushed bs.big).reverse, ?_, ?_⟩
  · rw [dealt, final.mid_eq]
    congr 1
    funext c
    rw [bounded.count]
    split
    · rfl
    · next large =>
        refine List.length_eq_zero_iff.mpr (List.filter_eq_nil_iff.mpr fun hdr _ => ?_)
        have small := hdr.byteAt_lt i
        simp only [decide_eq_true_eq]
        omega
  · have pushed := bounded.pushed
    rw [counted.a] at pushed
    exact ((List.reverse_perm _).trans (swapLargest_perm bounded.big)).trans (.of_eq pushed)

end Netbase.Sort
