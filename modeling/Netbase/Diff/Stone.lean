import Mathlib.Data.List.Perm.Subperm
import Netbase.Diff.Classes
import Netbase.Lib.CommonSubsequence

/-!
# Stone's algorithm

`stone` marches through the lines of file 0 and keeps in `klist` for every `k` a
candidate: the end of a common subsequence of length `k` whose last line of file
1 comes as early as possible.  Candidates are chained through `pred`; a line of
file 0 replaces several candidates at once, and `oldc` saves the replaced one
because its successor must be chained to it.  `unravel` reads the match vector `J`
off the chain of the longest candidate.
-/

namespace Netbase.Diff.Stone

open Netbase.Lib
open Netbase.Lib.CommonSubsequence
open Netbase.Diff.Classes

/-- `struct cand` -/
structure Cand where
  x : Nat
  y : Nat
  pred : Nat
  deriving DecidableEq

/-- `k`, `klist` and `clist`; a new candidate goes to the end of `clist`. -/
structure State where
  k : Nat
  klist : Table Nat
  clist : List Cand

def candAt (clist : List Cand) (p : Nat) : Cand := clist.getD p { x := 0, y := 0, pred := 0 }

/-- The line of file 1 at which the candidate for length `l` ends. -/
def State.y (state : State) (l : Nat) : Nat := (candAt state.clist (state.klist l)).y

/-- The loop of `search`. -/
def bisect (state : State) (y : Nat) : Nat → Nat → Nat → Nat
  | 0, i, _ => i + 1
  | fuel + 1, i, j =>
      let l := (i + j) / 2
      if l ≤ i then l + 1
      else if state.y l > y then bisect state y fuel i l
      else if state.y l < y then bisect state y fuel l j
      else l

def search (state : State) (y : Nat) : Nat :=
  if state.y state.k < y then state.k + 1 else bisect state y (state.k + 1) 0 (state.k + 1)

/-- Install a new candidate for length `l`. -/
def State.install (state : State) (l x y pred : Nat) : State :=
  { k := max state.k l
    klist := state.klist.set l state.clist.length
    clist := state.clist ++ [{ x := x, y := y, pred := pred }] }

/-- The state of the inner loop of `stone`. -/
structure Row where
  state : State
  oldl : Nat
  oldc : Nat
  numtries : Nat

/-- Try to match line `i` of file 0 with line `y` of file 1; `true` ends the row. -/
def tryMember (i y : Nat) (row : Row) : Row × Bool :=
  let state := row.state
  if y ≤ (candAt state.clist row.oldc).y then (row, false)
  else
    let l := search state y
    let oldc := if l ≠ row.oldl + 1 then state.klist (l - 1) else row.oldc
    if l ≤ state.k then
      if state.y l ≤ y then ({ row with oldc := oldc }, false)
      else
        ({ state := state.install l i y oldc
           oldl := l
           oldc := state.klist l
           numtries := row.numtries + 1 }, false)
    else ({ row with state := state.install l i y oldc, oldc := oldc }, true)

/-- Match line `i` with the members of its class from entry `j` on. -/
def matchLine (bound i : Nat) (member : Table Int) : Nat → Row → Nat → Nat → State
  | 0, row, _, _ => row.state
  | fuel + 1, row, j, y =>
      match tryMember i y row with
      | (row, true) => row.state
      | (row, false) =>
          if 0 < member (j + 1) ∧ row.numtries < bound then
            matchLine bound i member fuel row (j + 1) (member (j + 1)).toNat
          else row.state

/-- One line of file 0. -/
def stoneLine (bound fuel : Nat) (class_ member : Table Int) (state : State) (i : Nat) : State :=
  if class_ i = 0 then state
  else
    let j := (class_ i).toNat
    matchLine bound i member fuel
      { state := state, oldl := 0, oldc := state.klist 0, numtries := 0 } j (-member j).toNat

/-- All candidates that the lines `1..n` of file 0 give. -/
def stone (bound n m : Nat) (class_ member : Table Int) : State :=
  (List.range' 1 n).foldl (stoneLine bound (m + 1) class_ member)
    { k := 0, klist := Table.fill 0, clist := [{ x := 0, y := 0, pred := 0 }] }

/-- The loop of `isqrt`, Newton's method from `x`. -/
def newton (n : Nat) : Nat → Nat → Nat
  | 0, x => x
  | fuel + 1, y =>
      let x := (n / y + y) / 2
      if x > y + 1 ∨ y > x + 1 then newton n fuel x else x

def isqrt (n : Nat) : Nat := if n = 0 then 0 else newton n (n + 1) 1

/-- `UINT_MAX` -/
def uintMax : Nat := 4294967295

/-- How many candidates one line of file 0 may replace. -/
def tryBound (minimal : Bool) (n : Nat) : Nat := if minimal then uintMax else max 256 (isqrt n)

/-- Follow the chain from candidate `p` and record its matches in `J`. -/
def followChain (clist : List Cand) (pref : Nat) : Nat → Nat → Table Nat → Table Nat
  | 0, _, J => J
  | fuel + 1, p, J =>
      let q := candAt clist p
      if q.y = 0 then J
      else followChain clist pref fuel q.pred (J.set (q.x + pref) (q.y + pref))

/-- `J` before the chain is followed: the common ends match. -/
def endMatches (len0 len1 pref suff : Nat) : Table Nat :=
  ⟨fun i => if i ≤ pref then i else if i > len0 - suff then i + len1 - len0 else 0⟩

def unravel (len0 len1 pref suff : Nat) (state : State) : Table Nat :=
  followChain state.clist pref state.clist.length (state.klist state.k)
    (endMatches len0 len1 pref suff)

/-- The match vector of two files, from their hash values. -/
def matchVector (bound : Nat) (file0 file1 : List Int) : Table Nat :=
  let (pref, suff) := prune file0 file1
  let sfile0 := shortened file0 pref suff
  let sfile1 := shortened file1 pref suff
  let (class_, member) := classesOf sfile0 sfile1
  unravel file0.length file1.length pref suff
    (stone bound sfile0.length sfile1.length class_ member)

/-! ## Chains of candidates -/

theorem candAt_append {clist : List Cand} {p : Nat} (more : List Cand)
    (inside : p < clist.length) : candAt (clist ++ more) p = candAt clist p :=
  List.getD_append _ _ _ _ inside

/-- The matched pairs that the chain from candidate `p` spells, last pair first. -/
inductive Chain (clist : List Cand) : Nat → List (Nat × Nat) → Prop where
  | root {p : Nat} (inside : p < clist.length) (zero : (candAt clist p).y = 0) :
      Chain clist p []
  | link {p : Nat} {pairs : List (Nat × Nat)} (inside : p < clist.length)
      (nonzero : (candAt clist p).y ≠ 0) (back : (candAt clist p).pred < p)
      (rest : Chain clist (candAt clist p).pred pairs) :
      Chain clist p (((candAt clist p).x, (candAt clist p).y) :: pairs)

theorem Chain.inside {clist : List Cand} {p : Nat} {pairs : List (Nat × Nat)}
    (chain : Chain clist p pairs) : p < clist.length := by
  cases chain with
  | root inside _ => exact inside
  | link inside _ _ _ => exact inside

theorem Chain.append {clist : List Cand} {p : Nat} {pairs : List (Nat × Nat)} (more : List Cand)
    (chain : Chain clist p pairs) : Chain (clist ++ more) p pairs := by
  induction chain with
  | root inside zero =>
      exact .root (by simp; omega) (by rw [candAt_append more inside, zero])
  | link inside nonzero back rest ih =>
      rw [← candAt_append more inside] at nonzero back ih ⊢
      exact .link (by simp; omega) nonzero back ih

theorem Chain.length_le {clist : List Cand} {p : Nat} {pairs : List (Nat × Nat)}
    (chain : Chain clist p pairs) : pairs.length ≤ p := by
  induction chain with
  | root _ _ => exact Nat.zero_le _
  | link _ _ back _ ih => exact Nat.succ_le_of_lt (Nat.lt_of_le_of_lt ih back)

/-- The `y` of the last pair of a chain, 0 for the empty chain. -/
def topY (pairs : List (Nat × Nat)) : Nat := (pairs.head?.map Prod.snd).getD 0

theorem Chain.top {clist : List Cand} {p : Nat} {pairs : List (Nat × Nat)}
    (chain : Chain clist p pairs) : (candAt clist p).y = topY pairs := by
  cases chain with
  | root _ zero => exact zero
  | link _ _ _ _ => rfl

/-- Both components fall along the list. -/
def Descends (pairs : List (Nat × Nat)) : Prop :=
  pairs.Pairwise fun later earlier => earlier.1 < later.1 ∧ earlier.2 < later.2

theorem Descends.le_top {pairs : List (Nat × Nat)} (descends : Descends pairs)
    {pair : Nat × Nat} (listed : pair ∈ pairs) : pair.2 ≤ topY pairs := by
  cases pairs with
  | nil => cases listed
  | cons last pairs =>
      rcases List.mem_cons.mp listed with rfl | earlier
      · exact Nat.le_refl _
      · exact Nat.le_of_lt ((List.pairwise_cons.mp descends).1 pair earlier).2

/-- A list of `l` matches among the first `i` lines of file 0, in falling order. -/
structure Matches (good : Nat → Nat → Prop) (i l : Nat) (pairs : List (Nat × Nat)) : Prop where
  length : pairs.length = l
  descends : Descends pairs
  good : ∀ pair ∈ pairs, good pair.1 pair.2 ∧ pair.1 ≤ i

theorem Matches.cons {good : Nat → Nat → Prop} {i l y : Nat} {pairs : List (Nat × Nat)}
    (rest : Matches good i l pairs) (fits : good (i + 1) y) (higher : topY pairs < y) :
    Matches good (i + 1) (l + 1) ((i + 1, y) :: pairs) := by
  refine ⟨by simp [rest.length], List.pairwise_cons.mpr ⟨fun pair listed => ?_, rest.descends⟩,
    fun pair listed => ?_⟩
  · exact ⟨Nat.lt_succ_of_le (rest.good pair listed).2,
      Nat.lt_of_le_of_lt (rest.descends.le_top listed) higher⟩
  · rcases List.mem_cons.mp listed with rfl | earlier
    · exact ⟨fits, Nat.le_refl _⟩
    · exact ⟨(rest.good pair earlier).1, Nat.le_succ_of_le (rest.good pair earlier).2⟩

/-- What holds of the candidates after `i` lines of file 0. -/
structure Valid (good : Nat → Nat → Prop) (i : Nat) (state : State) : Prop where
  chains : ∀ l ≤ state.k, ∃ pairs, Chain state.clist (state.klist l) pairs ∧ Matches good i l pairs
  rising : ∀ l m, l < m → m ≤ state.k → state.y l < state.y m

theorem Valid.succ {good : Nat → Nat → Prop} {i : Nat} {state : State}
    (valid : Valid good i state) : Valid good (i + 1) state := by
  refine ⟨fun l inside => ?_, valid.rising⟩
  obtain ⟨pairs, chain, matches_⟩ := valid.chains l inside
  exact ⟨pairs, chain, matches_.length, matches_.descends, fun pair listed =>
    ⟨(matches_.good pair listed).1, Nat.le_succ_of_le (matches_.good pair listed).2⟩⟩

theorem Valid.inside {good : Nat → Nat → Prop} {i l : Nat} {state : State}
    (valid : Valid good i state) (low : l ≤ state.k) : state.klist l < state.clist.length := by
  obtain ⟨pairs, chain, -⟩ := valid.chains l low
  exact chain.inside

theorem Valid.y_zero {good : Nat → Nat → Prop} {i : Nat} {state : State}
    (valid : Valid good i state) : state.y 0 = 0 := by
  obtain ⟨pairs, chain, matches_⟩ := valid.chains 0 (Nat.zero_le _)
  have empty : pairs = [] := List.eq_nil_of_length_eq_zero matches_.length
  subst empty
  exact chain.top

theorem Valid.mono {good : Nat → Nat → Prop} {i l m : Nat} {state : State}
    (valid : Valid good i state) (less : l ≤ m) (inside : m ≤ state.k) :
    state.y l ≤ state.y m := by
  rcases Nat.eq_or_lt_of_le less with rfl | smaller
  · exact Nat.le_refl _
  · exact Nat.le_of_lt (valid.rising l m smaller inside)

/-! ## The search -/

/-- The place of `y` among the candidates: the first that does not end before it. -/
structure Place (state : State) (y l : Nat) : Prop where
  positive : 0 < l
  inside : l ≤ state.k + 1
  before : state.y (l - 1) < y
  after : l ≤ state.k → y ≤ state.y l

theorem bisect_place {state : State} {y fuel i j : Nat} (less : i < j) (inside : j ≤ state.k + 1)
    (before : state.y i < y) (after : j ≤ state.k → y < state.y j) (enough : j ≤ fuel + i + 1)
    (rising : ∀ l m, l < m → m ≤ state.k → state.y l < state.y m) :
    Place state y (bisect state y fuel i j) := by
  induction fuel generalizing i j with
  | zero =>
      obtain rfl : j = i + 1 := by omega
      exact ⟨Nat.succ_pos i, inside, before, fun low => Nat.le_of_lt (after low)⟩
  | succ fuel ih =>
      rw [bisect]
      split
      · next close =>
          obtain rfl : j = i + 1 := by omega
          have middle : (i + (i + 1)) / 2 = i := by omega
          rw [middle]
          exact ⟨Nat.succ_pos i, inside, before, fun low => Nat.le_of_lt (after low)⟩
      · next wide =>
          split
          · next above =>
              exact ih (by omega) (by omega) before (fun _ => above) (by omega)
          · next notAbove =>
              split
              · next below => exact ih (by omega) inside below after (by omega)
              · next notBelow =>
                  have last := rising ((i + j) / 2 - 1) ((i + j) / 2) (by omega) (by omega)
                  exact ⟨by omega, by omega, by omega, fun _ => by omega⟩

theorem search_place {good : Nat → Nat → Prop} {i y : Nat} {state : State}
    (valid : Valid good i state) (positive : 0 < y) : Place state y (search state y) := by
  unfold search
  split
  · next beyond => exact ⟨by omega, Nat.le_refl _, beyond, fun low => by omega⟩
  · next notBeyond =>
      refine bisect_place (Nat.succ_pos _) (Nat.le_refl _) ?_ (fun low => by omega) (by omega)
        valid.rising
      rw [valid.y_zero]
      exact positive

/-! ## Installing a candidate -/

theorem install_y_same (state : State) (l x y pred : Nat) :
    (state.install l x y pred).y l = y := by
  simp [State.y, State.install, candAt]

theorem install_y_other {state : State} {l m : Nat} (x y pred : Nat) (other : m ≠ l)
    (inside : state.klist m < state.clist.length) :
    (state.install l x y pred).y m = state.y m := by
  unfold State.y State.install
  rw [Table.set_other _ _ other, candAt_append _ inside]

theorem Valid.install {good : Nat → Nat → Prop} {i l y pred : Nat} {state : State}
    {pairs : List (Nat × Nat)} (valid : Valid good (i + 1) state) (place : Place state y l)
    (chain : Chain state.clist pred pairs) (matches_ : Matches good i (l - 1) pairs)
    (fits : good (i + 1) y) (higher : topY pairs < y) :
    Valid good (i + 1) (state.install l (i + 1) y pred) := by
  have positive := place.positive
  have inside := place.inside
  have bound (m : Nat) (low : m ≤ (state.install l (i + 1) y pred).k) (other : m ≠ l) :
      m ≤ state.k := by
    have max_ : m ≤ max state.k l := low
    omega
  constructor
  · intro m low
    by_cases here : m = l
    · have last : candAt (state.install l (i + 1) y pred).clist state.clist.length =
          { x := i + 1, y := y, pred := pred } := by
        simp [State.install, candAt]
      refine ⟨(i + 1, y) :: pairs, ?_, ?_⟩
      · have step : Chain (state.install l (i + 1) y pred).clist state.clist.length
            (((candAt (state.install l (i + 1) y pred).clist state.clist.length).x,
              (candAt (state.install l (i + 1) y pred).clist state.clist.length).y) :: pairs) := by
          refine .link (by simp [State.install]) ?_ ?_ ?_
          · rw [last]
            exact Nat.ne_of_gt (Nat.lt_of_le_of_lt (Nat.zero_le _) higher)
          · rw [last]
            exact chain.inside
          · rw [last]
            exact chain.append _
        rw [last] at step
        rw [here]
        simpa [State.install] using step
      · rw [here]
        have longer := matches_.cons fits higher
        rwa [Nat.sub_add_cancel positive] at longer
    · obtain ⟨others, chainOther, matchesOther⟩ := valid.chains m (bound m low here)
      refine ⟨others, ?_, matchesOther⟩
      have kept : (state.install l (i + 1) y pred).klist m = state.klist m :=
        Table.set_other _ _ here
      rw [kept]
      exact chainOther.append _
  · intro p q less low
    by_cases first : p = l
    · have lowQ := bound q low (by omega)
      rw [first, install_y_same, install_y_other _ _ _ (by omega) (valid.inside lowQ)]
      exact Nat.lt_of_le_of_lt (place.after (by omega)) (valid.rising l q (by omega) lowQ)
    · by_cases second : q = l
      · rw [second, install_y_same, install_y_other _ _ _ first (valid.inside (by omega))]
        exact Nat.lt_of_le_of_lt (valid.mono (by omega) (by omega)) place.before
      · have lowQ := bound q low second
        rw [install_y_other _ _ _ first (valid.inside (by omega)),
          install_y_other _ _ _ second (valid.inside lowQ)]
        exact valid.rising p q less lowQ

/-- Some candidate for length `l` ends at line `y` of file 1 or before. -/
def Reached (state : State) (l y : Nat) : Prop := l ≤ state.k ∧ state.y l ≤ y

/-- Matching the current line with `member` extends a candidate of `start` to length `l`. -/
def Extends (start : State) (member l y : Nat) : Prop :=
  member ≤ y ∧ 0 < l ∧ l - 1 ≤ start.k ∧ start.y (l - 1) < member

theorem install_reached {good : Nat → Nat → Prop} {i l y pred : Nat} {state : State}
    (valid : Valid good i state) (inside : l ≤ state.k + 1) {m last : Nat} (x : Nat) :
    Reached (state.install l x y pred) m last ↔
      if m = l then y ≤ last else Reached state m last := by
  have max_ : (state.install l x y pred).k = max state.k l := rfl
  unfold Reached
  split
  · next here =>
      rw [here, install_y_same, max_]
      exact and_iff_right (by omega)
  · next other =>
      by_cases low : m ≤ state.k
      · rw [install_y_other x y pred other (valid.inside low), max_]
        exact and_congr_left fun _ => by omega
      · rw [max_]
        constructor <;> rintro ⟨bound, -⟩ <;> omega

/-! ## A row -/

/--
The inner loop in the middle of a row that began in state `start`: the
candidates up to `oldl` may have been replaced, the others are those of `start`,
and `oldc` is one of `start` that the members still to come can be chained to.
-/
structure InRow (good : Nat → Nat → Prop) (start : State) (i : Nat) (coming : List Nat)
    (row : Row) : Prop where
  valid : Valid good (i + 1) row.state
  k : row.state.k = start.k
  oldl : row.oldl ≤ start.k
  grown : ∃ more, row.state.clist = start.clist ++ more
  untouched : ∀ l, row.oldl < l → row.state.klist l = start.klist l
  lowered : ∀ l ≤ start.k, row.state.y l ≤ start.y l
  under : ∀ y ∈ coming, row.state.y row.oldl < y
  saved : ∃ l, row.oldl ≤ l ∧ l ≤ start.k ∧ row.oldc = start.klist l ∧
    (l = row.oldl ∨ ∀ y ∈ coming, start.y l < y)

/-- How a member leaves a row: candidates of length `l` are reached as the match allows. -/
def Advances (start : State) (y : Nat) (before after : State) : Prop :=
  ∀ l last, Reached after l last ↔ Reached before l last ∨ Extends start y l last

section

variable {good : Nat → Nat → Prop} {start : State} {i y : Nat} {coming : List Nat} {row : Row}

theorem InRow.start_y (inRow : InRow good start i coming row) (first : Valid good i start)
    {l : Nat} (low : l ≤ start.k) : (candAt row.state.clist (start.klist l)).y = start.y l := by
  obtain ⟨more, grown⟩ := inRow.grown
  rw [grown, candAt_append more (first.inside low)]
  rfl

theorem InRow.untouched_y (inRow : InRow good start i coming row) (first : Valid good i start)
    {l : Nat} (above : row.oldl < l) (low : l ≤ start.k) : row.state.y l = start.y l := by
  rw [State.y, inRow.untouched l above]
  exact inRow.start_y first low

/-- A member that no candidate waits for changes nothing. -/
theorem InRow.skip (inRow : InRow good start i (y :: coming) row) :
    InRow good start i coming row := by
  obtain ⟨l, low, inside, oldc, reason⟩ := inRow.saved
  exact
    { inRow with
      under := fun later listed => inRow.under later (List.mem_cons_of_mem y listed)
      saved := ⟨l, low, inside, oldc,
        reason.imp_right fun less later listed => less later (List.mem_cons_of_mem y listed)⟩ }

theorem advances_of_covered (first : Valid good i start)
    (inRow : InRow good start i coming row) {top : Nat} (inside : top ≤ start.k)
    (reached : row.state.y top ≤ y) (limit : y ≤ start.y top) :
    Advances start y row.state row.state := by
  intro l last
  refine ⟨Or.inl, ?_⟩
  rintro (already | ⟨under, positive, low, below⟩)
  · exact already
  · have lower : l - 1 < top := by
      by_contra notLower
      have larger := first.mono (Nat.not_lt.mp notLower) low
      omega
    have bound : l ≤ row.state.k := by
      rw [inRow.k]
      omega
    refine ⟨bound, ?_⟩
    calc row.state.y l ≤ row.state.y top :=
          inRow.valid.mono (by omega) (by rw [inRow.k]; exact inside)
      _ ≤ y := reached
      _ ≤ last := under

/-- Where the next member goes: behind `oldl`, chained to a candidate of `start`. -/
structure Target (start : State) (row : Row) (y l : Nat) : Prop where
  place : Place row.state y l
  above : row.oldl < l
  low : l - 1 ≤ start.k
  below : start.y (l - 1) < y
  pred : (if l ≠ row.oldl + 1 then row.state.klist (l - 1) else row.oldc) = start.klist (l - 1)

theorem InRow.target (first : Valid good i start)
    (inRow : InRow good start i (y :: coming) row) (positive : 0 < y)
    (beyond : ¬ y ≤ (candAt row.state.clist row.oldc).y) :
    Target start row y (search row.state y) := by
  obtain ⟨saved, low, inside, oldc, reason⟩ := inRow.saved
  rw [oldc, inRow.start_y first inside] at beyond
  have place := search_place inRow.valid positive
  generalize search row.state y = l at place
  have before := place.before
  have bound := place.inside
  rw [inRow.k] at bound
  have above : row.oldl < l := by
    by_contra notAbove
    have after := place.after (by rw [inRow.k]; have := inRow.oldl; omega)
    have smaller := inRow.valid.mono (Nat.not_lt.mp notAbove) (by rw [inRow.k]; exact inRow.oldl)
    have under := inRow.under y List.mem_cons_self
    omega
  -- directly behind `oldl` the saved candidate is the one that was replaced there
  have exact_ (next : l = row.oldl + 1) : saved = row.oldl := by
    rcases reason with same | less
    · exact same
    · by_contra differs
      have moved := inRow.untouched_y first (l := saved) (by omega) inside
      have after := place.after (by rw [inRow.k]; omega)
      have larger := inRow.valid.mono (l := l) (m := saved) (by omega) (by rw [inRow.k]; exact inside)
      omega
  refine ⟨place, above, by omega, ?_, ?_⟩
  · by_cases next : l = row.oldl + 1
    · have index : l - 1 = saved := by
        rw [exact_ next]
        omega
      rw [index]
      omega
    · rw [← inRow.untouched_y first (by omega) (by omega)]
      exact before
  · split
    · next away => exact inRow.untouched (l - 1) (by omega)
    · next notAway =>
        have next : l = row.oldl + 1 := not_not.mp notAway
        rw [oldc, exact_ next, next, Nat.add_sub_cancel]

theorem Target.install_valid {l : Nat} (target : Target start row y l) (first : Valid good i start)
    (inRow : InRow good start i (y :: coming) row) (fits : good (i + 1) y) :
    Valid good (i + 1) (row.state.install l (i + 1) y (start.klist (l - 1))) := by
  obtain ⟨pairs, chain, matches_⟩ := first.chains (l - 1) target.low
  obtain ⟨more, grown⟩ := inRow.grown
  refine inRow.valid.install target.place ?_ matches_ fits ?_
  · rw [grown]
    exact chain.append more
  · rw [← chain.top]
    exact target.below

theorem Target.install_advances {l : Nat} (target : Target start row y l)
    (first : Valid good i start) (inRow : InRow good start i (y :: coming) row) (x pred : Nat) :
    Advances start y row.state (row.state.install l x y pred) := by
  have place := target.place
  have positive := place.positive
  intro m last
  rw [install_reached inRow.valid place.inside x]
  split
  · next here =>
      rw [here]
      constructor
      · intro under
        exact Or.inr ⟨under, positive, target.low, target.below⟩
      · rintro (⟨inside, reached⟩ | ⟨under, -⟩)
        · exact Nat.le_trans (place.after inside) reached
        · exact under
  · next other =>
      refine ⟨Or.inl, ?_⟩
      rintro (already | ⟨under, above, low, below⟩)
      · exact already
      · have smaller : m < l := by
          by_contra notSmaller
          have after := place.after (by rw [inRow.k]; omega)
          rw [inRow.untouched_y first target.above (by omega)] at after
          have larger := first.mono (l := l) (m := m - 1) (by omega) low
          omega
        have bound := place.inside
        refine ⟨by omega, ?_⟩
        have mono := inRow.valid.mono (l := m) (m := l - 1) (by omega) (by omega)
        have before := place.before
        omega

structure Tried (good : Nat → Nat → Prop) (start : State) (i y : Nat) (coming : List Nat)
    (row : Row) (result : Row × Bool) : Prop where
  valid : Valid good (i + 1) result.1.state
  advances : Advances start y row.state result.1.state
  numtries : result.1.numtries ≤ row.numtries + 1
  going : result.2 = false → InRow good start i coming result.1
  ended : result.2 = true → ∀ member, y < member → ∀ l last,
    Extends start member l last → Reached result.1.state l last

theorem tryMember_tried (first : Valid good i start)
    (inRow : InRow good start i (y :: coming) row) (positive : 0 < y) (fits : good (i + 1) y)
    (rising : ∀ later ∈ coming, y < later) :
    Tried good start i y coming row (tryMember (i + 1) y row) := by
  unfold tryMember
  dsimp only
  split
  · next waits =>
      obtain ⟨saved, low, inside, oldc, reason⟩ := inRow.saved
      rw [oldc, inRow.start_y first inside] at waits
      have same : saved = row.oldl := by
        rcases reason with same | less
        · exact same
        · have coming := less y List.mem_cons_self
          omega
      have under := inRow.under y List.mem_cons_self
      exact
        { valid := inRow.valid
          advances := advances_of_covered first inRow inside
            (by rw [same]; exact Nat.le_of_lt under) waits
          numtries := Nat.le_succ _
          going := fun _ => inRow.skip
          ended := fun stop => by cases stop }
  · next beyond =>
      have target := inRow.target first positive beyond
      generalize search row.state y = l at target
      have place := target.place
      have above := target.above
      rw [target.pred]
      split
      · next inside =>
          have insideStart : l ≤ start.k := inRow.k ▸ inside
          have untouched := inRow.untouched_y first above insideStart
          split
          · next reached =>
              refine
                { valid := inRow.valid
                  advances := advances_of_covered first inRow insideStart reached
                    (by rw [← untouched]; exact place.after inside)
                  numtries := Nat.le_succ _
                  going := fun _ => ?_
                  ended := fun stop => by cases stop }
              exact
                { inRow.skip with
                  saved := ⟨l - 1, by dsimp only; omega, target.low, rfl, Or.inr fun later listed =>
                    Nat.lt_trans target.below (rising later listed)⟩ }
          · next unreached =>
              refine
                { valid := target.install_valid first inRow fits
                  advances := target.install_advances first inRow _ _
                  numtries := Nat.le_refl _
                  going := fun _ => ?_
                  ended := fun stop => by cases stop }
              obtain ⟨more, grown⟩ := inRow.grown
              refine
                { valid := target.install_valid first inRow fits
                  k := ?_
                  oldl := insideStart
                  grown := ⟨more ++ [_], by rw [← List.append_assoc, ← grown]; rfl⟩
                  untouched := fun m higher => ?_
                  lowered := fun m low => ?_
                  under := fun later listed => ?_
                  saved := ⟨l, Nat.le_refl l, insideStart, inRow.untouched l above, Or.inl rfl⟩ }
              · show max row.state.k l = start.k
                rw [inRow.k]
                omega
              · have less : l < m := higher
                exact (Table.set_other _ _ (by omega)).trans (inRow.untouched m (by omega))
              · by_cases here : m = l
                · rw [here, install_y_same, ← untouched]
                  exact place.after inside
                · rw [install_y_other _ _ _ here (inRow.valid.inside (by rw [inRow.k]; exact low))]
                  exact inRow.lowered m low
              · rw [install_y_same]
                exact rising later listed
      · next outside =>
          have valid := target.install_valid first inRow fits
          refine
            { valid := valid
              advances := target.install_advances first inRow _ _
              numtries := Nat.le_succ _
              going := fun stop => by cases stop
              ended := fun _ member less m last extends_ => ?_ }
          obtain ⟨under, positive, low, below⟩ := extends_
          have k := inRow.k
          have size : (row.state.install l (i + 1) y (start.klist (l - 1))).k =
              max row.state.k l := rfl
          have covered : m ≤ (row.state.install l (i + 1) y (start.klist (l - 1))).k := by omega
          refine ⟨covered, ?_⟩
          have mono := valid.mono (l := m) (m := l) (by omega) (by omega)
          rw [install_y_same] at mono
          show (row.state.install l (i + 1) y (start.klist (l - 1))).y m ≤ last
          omega

theorem matchLine_spec (first : Valid good i start) (bound fuel : Nat) {j : Nat} {member : Table Int}
    (inRow : InRow good start i (y :: coming) row) (follows : Rest member j coming)
    (rising : (y :: coming).Pairwise (· < ·)) (positive : 0 < y)
    (fits : ∀ z ∈ y :: coming, good (i + 1) z) (enough : coming.length < fuel) :
    Valid good (i + 1) (matchLine bound (i + 1) member fuel row j y) ∧
      (row.numtries + coming.length < bound → ∀ l last,
        Reached (matchLine bound (i + 1) member fuel row j y) l last ↔
          Reached row.state l last ∨ ∃ z ∈ y :: coming, Extends start z l last) := by
  induction coming generalizing fuel j y row with
  | nil =>
      obtain ⟨fuel, rfl⟩ : ∃ less, fuel = less + 1 := ⟨fuel - 1, by omega⟩
      have tried := tryMember_tried first inRow positive (fits y List.mem_cons_self) (by simp)
      cases follows with
      | stop ends =>
          rw [matchLine]
          generalize tryMember (i + 1) y row = result at tried
          obtain ⟨next, stop⟩ := result
          cases stop with
          | true => exact ⟨tried.valid, fun _ l last => by simpa using tried.advances l last⟩
          | false =>
              dsimp only
              rw [if_neg (by omega)]
              exact ⟨tried.valid, fun _ l last => by simpa using tried.advances l last⟩
  | cons z coming ih =>
      obtain ⟨fuel, rfl⟩ : ∃ less, fuel = less + 1 := ⟨fuel - 1, by omega⟩
      obtain ⟨above, higher⟩ := List.pairwise_cons.mp rising
      have tried := tryMember_tried first inRow positive (fits y List.mem_cons_self) above
      cases follows with
      | more entry positiveZ rest =>
          rw [matchLine]
          generalize tryMember (i + 1) y row = result at tried
          obtain ⟨next, stop⟩ := result
          cases stop with
          | true =>
              refine ⟨tried.valid, fun _ l last => (tried.advances l last).trans ⟨?_, ?_⟩⟩
              · exact Or.imp_right fun extends_ => ⟨y, List.mem_cons_self, extends_⟩
              · rintro (already | ⟨member, listed, extends_⟩)
                · exact Or.inl already
                · rcases List.mem_cons.mp listed with rfl | later
                  · exact Or.inr extends_
                  · exact (tried.advances l last).mp
                      (tried.ended rfl member (above member later) l last extends_)
          | false =>
              have grows := tried.numtries
              dsimp only at grows ⊢
              rw [entry, Int.toNat_natCast]
              by_cases open_ : next.numtries < bound
              · rw [if_pos ⟨by omega, open_⟩]
                obtain ⟨valid, reached⟩ := ih fuel (j := j + 1) (tried.going rfl) rest
                  higher positiveZ (fun w listed => fits w (List.mem_cons_of_mem y listed))
                  (by simpa using enough)
                refine ⟨valid, fun few l last => ?_⟩
                rw [List.length_cons] at few
                have enoughTries : next.numtries + coming.length < bound := by omega
                rw [reached enoughTries, tried.advances, or_assoc]
                simp only [List.mem_cons, exists_eq_or_imp]
              · rw [if_neg fun both => open_ both.2]
                refine ⟨tried.valid, fun few => ?_⟩
                rw [List.length_cons] at few
                omega

end

/-! ## All rows -/

/-- Line `x` of file 0 and line `y` of file 1 have the same value. -/
structure SameValue (file0 file1 : List Int) (x y : Nat) : Prop where
  low0 : 0 < x
  high0 : x ≤ file0.length
  low1 : 0 < y
  high1 : y ≤ file1.length
  same : valueAt file1 y = valueAt file0 x

theorem valueAt_getElem? (values : List Int) {i : Nat} (inside : i < values.length) :
    values[i]? = some (valueAt values (i + 1)) := by
  rw [valueAt_eq (i := i + 1) (Nat.succ_pos i), Nat.add_sub_cancel, List.getElem?_eq_getElem inside,
    List.getD_eq_getElem _ _ inside]

theorem class_length_le {m : Nat} {ys : List Nat} (rising : ys.Pairwise (· < ·))
    (inside : ∀ y ∈ ys, 0 < y ∧ y ≤ m) : ys.length ≤ m := by
  have distinct : ys.Nodup := rising.imp Nat.ne_of_lt
  have contained : ys ⊆ List.range' 1 m := fun y listed => by
    obtain ⟨low, high⟩ := inside y listed
    exact List.mem_range'_1.mpr ⟨low, by omega⟩
  simpa using (List.subperm_of_subset distinct contained).length_le

theorem stoneLine_spec {sfile0 sfile1 : List Int} (nonzero : ∀ value ∈ sfile1, value ≠ 0)
    (bound : Nat) {i : Nat} {start : State} (first : Valid (SameValue sfile0 sfile1) i start)
    (inside : i < sfile0.length) :
    Valid (SameValue sfile0 sfile1) (i + 1)
        (stoneLine bound (sfile1.length + 1) (classesOf sfile0 sfile1).1
          (classesOf sfile0 sfile1).2 start (i + 1)) ∧
      (sfile1.length < bound → ∀ l last,
        Reached (stoneLine bound (sfile1.length + 1) (classesOf sfile0 sfile1).1
            (classesOf sfile0 sfile1).2 start (i + 1)) l last ↔
          Reached start l last ∨
            ∃ y, SameValue sfile0 sfile1 (i + 1) y ∧ Extends start y l last) := by
  unfold stoneLine
  rcases classesOf_spec nonzero (i := i + 1) (Nat.succ_pos i) inside with
    ⟨zero, alone⟩ | ⟨j, ys, low, high, index, ⟨⟨y, rest, rfl, head, follows⟩, rising⟩, membership⟩
  · rw [if_pos zero]
    refine ⟨first.succ, fun _ l last => ⟨Or.inl, ?_⟩⟩
    rintro (already | ⟨y, same, -⟩)
    · exact already
    · exact absurd same.same (alone y same.low1 same.high1)
  · rw [if_neg (by omega)]
    dsimp only
    rw [index, Int.toNat_natCast, head, Int.neg_neg, Int.toNat_natCast]
    have listed (z : Nat) : z ∈ y :: rest ↔ SameValue sfile0 sfile1 (i + 1) z := by
      rw [membership]
      exact ⟨fun ⟨lowZ, highZ, same⟩ => ⟨Nat.succ_pos i, inside, lowZ, highZ, same⟩,
        fun same => ⟨same.low1, same.high1, same.same⟩⟩
    have positive (z : Nat) (member : z ∈ y :: rest) : 0 < z := ((listed z).mp member).low1
    have few := class_length_le rising fun z member =>
      ⟨positive z member, ((listed z).mp member).high1⟩
    rw [List.length_cons] at few
    have inRow : InRow (SameValue sfile0 sfile1) start i (y :: rest)
        { state := start, oldl := 0, oldc := start.klist 0, numtries := 0 } :=
      { valid := first.succ
        k := rfl
        oldl := Nat.zero_le _
        grown := ⟨[], (List.append_nil _).symm⟩
        untouched := fun _ _ => rfl
        lowered := fun _ _ => Nat.le_refl _
        under := fun z member => by
          rw [first.y_zero]
          exact positive z member
        saved := ⟨0, Nat.le_refl 0, Nat.zero_le _, rfl, Or.inl rfl⟩ }
    obtain ⟨valid, reached⟩ := matchLine_spec first bound (sfile1.length + 1)
      inRow follows rising (positive y List.mem_cons_self) (fun z member => (listed z).mp member)
      (by omega)
    refine ⟨valid, fun wide l last => ?_⟩
    rw [reached (by dsimp only; omega)]
    exact or_congr Iff.rfl (exists_congr fun z => and_congr_left fun _ => listed z)

theorem valid_start (good : Nat → Nat → Prop) :
    Valid good 0 { k := 0, klist := Table.fill 0, clist := [{ x := 0, y := 0, pred := 0 }] } := by
  refine ⟨fun l low => ⟨[], .root (by simp) rfl, ?_⟩, fun l m less low => ?_⟩
  · have zero : l ≤ 0 := low
    exact ⟨by simp; omega, List.Pairwise.nil, by simp⟩
  · have zero : m ≤ 0 := low
    omega

theorem stone_spec (sfile0 : List Int) {sfile1 : List Int} (nonzero : ∀ value ∈ sfile1, value ≠ 0)
    (bound : Nat) :
    Valid (SameValue sfile0 sfile1) sfile0.length
        (stone bound sfile0.length sfile1.length (classesOf sfile0 sfile1).1
          (classesOf sfile0 sfile1).2) ∧
      (sfile1.length < bound → ∀ l last,
        Reached (stone bound sfile0.length sfile1.length (classesOf sfile0 sfile1).1
            (classesOf sfile0 sfile1).2) l last ↔
          Common sfile0 (sfile1.take last) l) := by
  have rows (count : Nat) (inside : count ≤ sfile0.length) :
      Valid (SameValue sfile0 sfile1) count
          (stone bound count sfile1.length (classesOf sfile0 sfile1).1
            (classesOf sfile0 sfile1).2) ∧
        (sfile1.length < bound → ∀ l last,
          Reached (stone bound count sfile1.length (classesOf sfile0 sfile1).1
              (classesOf sfile0 sfile1).2) l last ↔
            Common (sfile0.take count) (sfile1.take last) l) := by
    induction count with
    | zero =>
        refine ⟨valid_start _, fun _ l last => ⟨?_, ?_⟩⟩
        · rintro ⟨low, -⟩
          obtain rfl : l = 0 := Nat.le_zero.mp low
          exact Common.zero _ _
        · rintro ⟨zs, empty, -, rfl⟩
          rw [List.take_zero, List.sublist_nil] at empty
          rw [empty]
          exact ⟨Nat.le_refl 0, Nat.zero_le last⟩
    | succ count ih =>
        obtain ⟨valid, common⟩ := ih (by omega)
        have unfolded : stone bound (count + 1) sfile1.length (classesOf sfile0 sfile1).1
            (classesOf sfile0 sfile1).2 =
            stoneLine bound (sfile1.length + 1) (classesOf sfile0 sfile1).1
              (classesOf sfile0 sfile1).2
              (stone bound count sfile1.length (classesOf sfile0 sfile1).1
                (classesOf sfile0 sfile1).2) (count + 1) := by
          unfold stone
          rw [List.range'_1_concat, List.foldl_append, Nat.add_comm 1 count]
          rfl
        rw [unfolded]
        obtain ⟨next, reached⟩ := stoneLine_spec nonzero bound valid (by omega)
        refine ⟨next, fun wide l last => ?_⟩
        rw [reached wide, common wide]
        have here := valueAt_getElem? sfile0 (i := count) (by omega)
        cases l with
        | zero => simp [Common.zero]
        | succ l =>
            rw [common_take_succ_iff here]
            refine or_congr Iff.rfl ⟨?_, ?_⟩
            · rintro ⟨y, same, under, -, low, below⟩
              obtain ⟨y, rfl⟩ : ∃ less, y = less + 1 := ⟨y - 1, by have := same.low1; omega⟩
              refine ⟨y, under, ?_, (common wide l y).mp ⟨low, Nat.le_of_lt_succ below⟩⟩
              rw [valueAt_getElem? sfile1 (by have := same.high1; omega), same.same]
            · rintro ⟨y, under, found, shorter⟩
              obtain ⟨insideY, -⟩ := List.getElem?_eq_some_iff.mp found
              rw [valueAt_getElem? sfile1 insideY] at found
              obtain ⟨low, below⟩ := (common wide l y).mpr shorter
              exact ⟨y + 1, ⟨Nat.succ_pos _, inside, Nat.succ_pos _, insideY, Option.some.inj found⟩,
                under, Nat.succ_pos l, low, Nat.lt_succ_of_le below⟩
  have all := rows sfile0.length (Nat.le_refl _)
  rwa [List.take_length] at all

end Netbase.Diff.Stone
