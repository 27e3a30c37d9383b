import Mathlib.Data.List.Flatten
import Mathlib.Data.List.Range
import Mathlib.Data.List.Sort

/-!
# Flushing a line in column order

The characters of a line are sorted by counting them in work arrays that are
kept from line to line.  The last count is cleared in its first byte only; what
is left of it is added to no place that is used.
-/

namespace Netbase.Col

/-! ## The program -/

structure CHAR where
  c_column : Nat
  c_set : Nat
  c_char : Nat
  c_width : Int

structure LINE where
  l_line : List CHAR
  l_lsize : Nat
  l_needs_sort : Bool
  l_max_col : Nat

def alloc_line : LINE := ⟨[], 0, false, 0⟩

def LINE.put (l : LINE) (c : CHAR) : LINE where
  l_line := l.l_line ++ [c]
  l_lsize :=
    if l.l_line.length + 1 ≥ l.l_lsize then if l.l_lsize ≠ 0 then l.l_lsize * 2 else 90
    else l.l_lsize
  l_needs_sort := l.l_needs_sort || c.c_column < l.l_max_col
  l_max_col := if c.c_column < l.l_max_col then l.l_max_col else c.c_column

/-- The work arrays that are kept between lines. -/
structure Work where
  sorted : List CHAR
  count : List Int

/-- What a store finds when its index is in range. -/
def poke {α : Type} (array : List α) (i : Nat) (value : α) : Option (List α) :=
  if i < array.length then some (array.set i value) else none

/-- `count[k]++` -/
def bump (count : List Int) (k : Nat) : Option (Int × List Int) := do
  let n ← count[k]?
  let count ← poke count k (n + 1)
  return (n, count)

/-- Counts are turned into the places their columns begin at. -/
def totals (l_max_col : Nat) : Nat → List Int × Int → Option (List Int × Int)
  | 0, run => some run
  | steps + 1, run => do
      let (count, tot) ← totals l_max_col steps run
      let save ← count[steps]?
      let count ← poke count steps tot
      return (count, tot + save)

/-- `sorted[count[c->c_column]++] = *c` -/
def place (work : Work) (c : CHAR) : Option Work := do
  let (n, count) ← bump work.count c.c_column
  if n < 0 then none
  else
    let sorted ← poke work.sorted n.toNat c
    return ⟨sorted, count⟩

/-- What memory holds: the new parts of the arrays, and an `int` whose first byte is cleared. -/
structure Memory where
  chars : Nat → CHAR
  counts : Nat → Int
  clearFirst : Int → Int

def sortLine (memory : Memory) (work : Work) (l : LINE) : Option (Work × List CHAR) := do
  let sorted := if l.l_lsize > work.sorted.length then
      work.sorted ++ (List.range (l.l_lsize - work.sorted.length)).map memory.chars
    else work.sorted
  let count := if l.l_max_col ≥ work.count.length then
      work.count ++ (List.range (l.l_max_col + 1 - work.count.length)).map memory.counts
    else work.count
  let last ← count[l.l_max_col]?
  let count := List.replicate l.l_max_col 0 ++ memory.clearFirst last ::
    count.drop (l.l_max_col + 1)
  let count ← l.l_line.foldlM (fun count c => (bump count c.c_column).map (·.2)) count
  let (count, _) ← totals l.l_max_col (l.l_max_col + 1) (count, 0)
  let work ← l.l_line.foldlM place ⟨sorted, count⟩
  return (work, work.sorted.take l.l_line.length)

def inOrder (memory : Memory) (work : Work) (l : LINE) : Option (Work × List CHAR) :=
  if l.l_needs_sort then sortLine memory work l else some (work, l.l_line)

/-- What is written. -/
inductive Out
  | char (c : CHAR)
  | shift (set : Nat)
  | space
  | tab
  | backspace

/-- The further characters of a column, those behind them, and the count of the latter. -/
def group (this_col : Nat) : Nat → List CHAR → Option (List CHAR × Nat × List CHAR)
  | 0, rest => some ([], 0, rest)
  | _ + 1, [] => none
  | nchars + 1, e :: rest =>
      if e.c_column = this_col then do
        let (more, left, rest) ← group this_col nchars rest
        return (e :: more, left, rest)
      else some ([], nchars + 1, e :: rest)

/-- Tabs as far as they go. -/
def tabs (last_col this_col : Int) : List Out × Int :=
  if (last_col + 8) / 8 * 8 > this_col then ([], last_col)
  else
    let (rest, col) := tabs ((last_col + 8) / 8 * 8) this_col
    ((if (last_col + 8) / 8 * 8 - last_col = 1 then .space else .tab) :: rest, col)
termination_by (this_col - last_col).toNat
decreasing_by omega

/-- The way to a column. -/
def advance (compress_spaces : Bool) (last_col this_col : Int) : List Out :=
  let (tabbed, col) :=
    if compress_spaces ∧ this_col - last_col > 1 then tabs last_col this_col else ([], last_col)
  tabbed ++ List.replicate (this_col - col).toNat .space

/-- The characters of a column, with backspaces between them. -/
def emit : Nat → List CHAR → List Out × Nat
  | last_set, [] => ([], last_set)
  | last_set, c :: more =>
      let (rest, set) := emit c.c_set more
      ((if c.c_set ≠ last_set then [.shift c.c_set] else []) ++ .char c ::
        (if more = [] then [] else List.replicate c.c_width.toNat .backspace) ++ rest, set)

section

variable (no_backspaces compress_spaces : Bool)

/-- With `-b`, does the last character of a column reach into the next one? -/
def overlaps (c last : CHAR) : Nat → List CHAR → Option Bool
  | 0, _ => some false
  | _ + 1, rest =>
      if no_backspaces then
        rest.head?.map fun endc => c.c_column + last.c_width > endc.c_column
      else some false

/-- Prints the next `nchars` characters, with `steps` to go at most. -/
def printLine : Nat → Nat → List CHAR → Int → Nat → Option (List Out × Nat)
  | _, 0, _, _, last_set => some ([], last_set)
  | 0, _ + 1, _, _, _ => none
  | _, _ + 1, [], _, _ => none
  | steps + 1, nchars + 1, c :: rest, last_col, last_set => do
      let (more, left, rest) ← group c.c_column nchars rest
      let last := more.getLastD c
      if (← overlaps no_backspaces c last left rest) then
        printLine steps left (last :: rest) last_col last_set
      else
        let shown := if no_backspaces then [last] else c :: more
        let (text, set) := emit last_set shown
        let (out, set) ←
          printLine steps left rest (max (c.c_column : Int) last_col + last.c_width) set
        return (advance compress_spaces last_col c.c_column ++ text ++ out, set)

def flush_line (memory : Memory) (work : Work) (last_set : Nat) (l : LINE) :
    Option (Work × Nat × List Out) := do
  let (work, c) ← inOrder memory work l
  let (out, set) ←
    printLine no_backspaces compress_spaces l.l_line.length l.l_line.length c 0 last_set
  return (work, set, out)

def flushed : Work → Nat → List (Memory × LINE) → Option (List (List Out))
  | _, _, [] => some []
  | work, last_set, (memory, l) :: lines => do
      let (work, set, out) ← flush_line no_backspaces compress_spaces memory work last_set l
      let outs ← flushed work set lines
      return out :: outs

end

/-! ## Counting -/

section

variable {m : Nat} {f : Nat → Int} {count : List Int}

/-- The counts of the columns up to `m`. -/
def Counts (m : Nat) (f : Nat → Int) (count : List Int) : Prop := ∀ i ≤ m, count[i]? = some (f i)

theorem Counts.poke (counts : Counts m f count) {k : Nat} (inside : k ≤ m) (value : Int) :
    ∃ count', Col.poke count k value = some count' ∧
      Counts m (fun i => if i = k then value else f i) count' := by
  have short := (List.getElem?_eq_some_iff.mp (counts k inside)).1
  refine ⟨count.set k value, if_pos short, fun i le => ?_⟩
  rw [List.getElem?_set]
  dsimp only
  by_cases same : i = k
  · subst same
    rw [if_pos rfl, if_pos short, if_pos rfl]
  · rw [if_neg (Ne.symm same), if_neg same]
    exact counts i le

theorem Counts.bump (counts : Counts m f count) {k : Nat} (inside : k ≤ m) :
    ∃ count', Col.bump count k = some (f k, count') ∧
      Counts m (fun i => if i = k then f i + 1 else f i) count' := by
  obtain ⟨count', stored, next⟩ := counts.poke inside (f k + 1)
  refine ⟨count', ?_, fun i le => ?_⟩
  · rw [Col.bump, counts k inside]
    dsimp only [Option.bind_eq_bind, Option.bind_some]
    rw [stored]
    rfl
  · rw [next i le]
    dsimp only
    by_cases same : i = k
    · rw [if_pos same, if_pos same, same]
    · rw [if_neg same, if_neg same]

def column (line : List CHAR) (i : Nat) : List CHAR := line.filter (·.c_column = i)

theorem column_cons (c : CHAR) (line : List CHAR) (i : Nat) :
    column (c :: line) i = (if i = c.c_column then [c] else []) ++ column line i := by
  unfold column
  rw [List.filter_cons]
  by_cases same : i = c.c_column
  · rw [if_pos (by simpa using same.symm), if_pos same, List.singleton_append]
  · rw [if_neg (by simpa using Ne.symm same), if_neg same, List.nil_append]

theorem Counts.all (line : List CHAR) :
    ∀ {f : Nat → Int} {count : List Int}, Counts m f count → (∀ c ∈ line, c.c_column ≤ m) →
      ∃ count', line.foldlM (fun count c => (Col.bump count c.c_column).map (·.2)) count =
          some count' ∧ Counts m (fun i => f i + (column line i).length) count' := by
  induction line with
  | nil =>
      intro f count counts _
      exact ⟨count, rfl, fun i le => by simpa [column] using counts i le⟩
  | cons c line ih =>
      intro f count counts inside
      obtain ⟨next, bumped, counts'⟩ := counts.bump (inside c List.mem_cons_self)
      obtain ⟨count', rest, final⟩ :=
        ih counts' fun other mem => inside other (List.mem_cons_of_mem _ mem)
      refine ⟨count', ?_, fun i le => ?_⟩
      · rw [List.foldlM_cons, bumped]
        exact rest
      · rw [final i le]
        dsimp only
        rw [column_cons, List.length_append]
        by_cases same : i = c.c_column
        · rw [if_pos same, if_pos same, List.length_singleton]
          congr 1
          omega
        · rw [if_neg same, if_neg same, List.length_nil]
          congr 1
          omega

def ordered (line : List CHAR) (i : Nat) : List CHAR := (List.range i).flatMap (column line)

theorem ordered_succ (line : List CHAR) (i : Nat) :
    ordered line (i + 1) = ordered line i ++ column line i := by
  rw [ordered, List.range_succ, List.flatMap_append, List.flatMap_singleton]
  rfl

theorem ordered_mono (line : List CHAR) {i j : Nat} (le : i ≤ j) :
    (ordered line i).length ≤ (ordered line j).length := by
  induction le with
  | refl => exact Nat.le_refl _
  | step _ ih =>
      rw [ordered_succ, List.length_append]
      exact Nat.le_add_right_of_le ih

/-- The places at which the columns begin.  Only the count of the last column may be off, and it
is added to no place. -/
theorem Counts.totals (line : List CHAR) {residue : Int} (steps : Nat) (le : steps ≤ m + 1)
    (counts : Counts m (fun i => (if i = m then residue else 0) + (column line i).length) count) :
    ∃ count' tot, totals m steps (count, 0) = some (count', tot) ∧
      (steps ≤ m → tot = (ordered line steps).length) ∧
      Counts m (fun i => if i < steps then ((ordered line i).length : Int)
        else (if i = m then residue else 0) + (column line i).length) count' := by
  induction steps with
  | zero => exact ⟨count, 0, rfl, fun _ => rfl, fun i le => by simpa using counts i le⟩
  | succ steps ih =>
      obtain ⟨count', tot, made, sum, counts'⟩ := ih (by omega)
      obtain ⟨next, stored, final⟩ := counts'.poke (by omega : steps ≤ m) tot
      have save := counts' steps (by omega)
      dsimp only at save
      rw [if_neg (Nat.lt_irrefl _)] at save
      refine ⟨next, tot + ((if steps = m then residue else 0) + (column line steps).length), ?_,
        fun le' => ?_, fun i inside => ?_⟩
      · rw [Col.totals, made]
        dsimp only [Option.bind_eq_bind, Option.bind_some]
        rw [save]
        rw [stored]
        rfl
      · rw [sum (by omega), ordered_succ, List.length_append, if_neg (by omega)]
        omega
      · rw [final i inside]
        dsimp only
        by_cases same : i = steps
        · rw [if_pos same, if_pos (by omega), sum (by omega), same]
        · rw [if_neg same]
          by_cases before : i < steps
          · rw [if_pos before, if_pos (Nat.lt_succ_of_lt before)]
          · rw [if_neg before, if_neg fun later => before (Nat.lt_of_le_of_ne
              (Nat.le_of_lt_succ later) same)]

/-! ## Placing -/

/-- The characters of `front` are at their places behind the beginnings of their columns. -/
structure Placed (m : Nat) (line front : List CHAR) (work : Work) : Prop where
  counts : Counts m (fun i => ((ordered line i).length + (column front i).length : Nat)) work.count
  there : ∀ i ≤ m, ∀ k < (column front i).length,
    work.sorted[(ordered line i).length + k]? = (column front i)[k]?

theorem place_lt {line front rest : List CHAR} (whole : front ++ rest = line) {i j k : Nat}
    (lt : i < j) (inside : k < (column front i).length) :
    (ordered line i).length + k < (ordered line j).length := by
  have part : (column front i).length ≤ (column line i).length :=
    ((whole ▸ List.sublist_append_left front rest : front.Sublist line).filter _).length_le
  have mono := ordered_mono line (Nat.succ_le_of_lt lt)
  rw [Nat.succ_eq_add_one, ordered_succ, List.length_append] at mono
  omega

theorem Placed.place {line front rest : List CHAR} {c : CHAR} {work : Work}
    (placed : Placed m line front work) (whole : front ++ c :: rest = line) (le : c.c_column ≤ m)
    (room : (ordered line (m + 1)).length ≤ work.sorted.length) :
    ∃ work', Col.place work c = some work' ∧ Placed m line (front ++ [c]) work' ∧
      work'.sorted.length = work.sorted.length := by
  obtain ⟨count', bumped, counts⟩ := placed.counts.bump le
  have whole' : front ++ [c] ++ rest = line := by rw [List.append_assoc]; exact whole
  have pushed (i : Nat) : column (front ++ [c]) i =
      column front i ++ if i = c.c_column then [c] else [] := by
    rw [column, List.filter_append]
    congr 1
    have one := column_cons c [] i
    rwa [show column [] i = [] from rfl, List.append_nil] at one
  have grown : (column front c.c_column).length < (column (front ++ [c]) c.c_column).length := by
    rw [pushed, if_pos rfl, List.length_append]
    exact Nat.lt_succ_self _
  have short := Nat.lt_of_lt_of_le (place_lt whole' (Nat.lt_succ_of_le le) grown) room
  refine ⟨⟨work.sorted.set ((ordered line c.c_column).length + (column front c.c_column).length) c,
    count'⟩, ?_, ⟨?_, ?_⟩, List.length_set⟩
  · rw [Col.place, bumped]
    dsimp only [Option.bind_eq_bind, Option.bind_some]
    rw [if_neg (by omega), Int.toNat_natCast, Col.poke, if_pos short]
    rfl
  · intro i inside
    rw [counts i inside]
    dsimp only
    rw [pushed]
    by_cases same : i = c.c_column
    · rw [if_pos same, if_pos same, List.length_append, List.length_singleton]
      rfl
    · rw [if_neg same, if_neg same, List.append_nil]
  · intro i inside k before
    rw [List.getElem?_set]
    by_cases here : (ordered line c.c_column).length + (column front c.c_column).length =
        (ordered line i).length + k
    · have same : i = c.c_column := by
        rcases Nat.lt_trichotomy i c.c_column with lt | same | gt
        · have := place_lt whole' lt before
          omega
        · exact same
        · have := place_lt whole' gt grown
          omega
      subst same
      rw [if_pos here, if_pos short, pushed, if_pos rfl, List.getElem?_append_right (by omega)]
      rw [show k - (column front c.c_column).length = 0 by omega]
      rfl
    · rw [if_neg here]
      rw [pushed] at before ⊢
      by_cases same : i = c.c_column
      · subst same
        rw [if_pos rfl, List.length_append, List.length_singleton] at before
        rw [placed.there _ le k (by omega), List.getElem?_append_left (by omega)]
      · rw [if_neg same, List.append_nil] at before ⊢
        exact placed.there i inside k before

theorem Placed.all {line : List CHAR} (rest : List CHAR) :
    ∀ {front : List CHAR} {work : Work}, Placed m line front work → front ++ rest = line →
      (∀ c ∈ rest, c.c_column ≤ m) → (ordered line (m + 1)).length ≤ work.sorted.length →
      ∃ work', rest.foldlM Col.place work = some work' ∧ Placed m line line work' := by
  induction rest with
  | nil =>
      intro front work placed whole _ _
      rw [List.append_nil] at whole
      exact ⟨work, rfl, whole ▸ placed⟩
  | cons c rest ih =>
      intro front work placed whole inside room
      obtain ⟨next, made, placed', size⟩ := placed.place whole (inside c List.mem_cons_self) room
      obtain ⟨work', later, final⟩ := ih placed' (by rw [List.append_assoc]; exact whole)
        (fun other mem => inside other (List.mem_cons_of_mem _ mem)) (by rwa [size])
      exact ⟨work', by rw [List.foldlM_cons, made]; exact later, final⟩

theorem Placed.sorted {line : List CHAR} {work : Work} (placed : Placed m line line work)
    (steps : Nat) (le : steps ≤ m + 1) :
    work.sorted.take (ordered line steps).length = ordered line steps := by
  induction steps with
  | zero => rfl
  | succ steps ih =>
      rw [ordered_succ, List.length_append, List.take_add, ih (by omega)]
      congr 1
      refine List.ext_getElem? fun k => ?_
      rw [List.getElem?_take]
      by_cases inside : k < (column line steps).length
      · rw [if_pos inside, List.getElem?_drop, placed.there steps (by omega) k inside]
      · rw [if_neg inside, List.getElem?_eq_none (by omega)]

theorem ordered_length (line : List CHAR) (i : Nat) :
    (ordered line i).length = line.countP (·.c_column < i) := by
  induction i with
  | zero => simp [ordered]
  | succ i ih =>
      have parts (line : List CHAR) : line.countP (·.c_column < i) +
          line.countP (·.c_column = i) = line.countP (·.c_column < i + 1) := by
        induction line with
        | nil => rfl
        | cons c line rest =>
            simp only [List.countP_cons, decide_eq_true_eq]
            split <;> split <;> split <;> omega
      rw [ordered_succ, List.length_append, ih, column, ← List.countP_eq_length_filter, parts]

theorem column_ordered (line : List CHAR) (steps i : Nat) :
    column (ordered line steps) i = if i < steps then column line i else [] := by
  induction steps with
  | zero => rfl
  | succ steps ih =>
      have split_ : column (ordered line steps ++ column line steps) i =
          column (ordered line steps) i ++ column (column line steps) i := List.filter_append ..
      have one : column (column line steps) i = if i = steps then column line steps else [] := by
        unfold column
        rw [List.filter_filter]
        by_cases same : i = steps
        · subst same
          simp
        · rw [if_neg same, List.filter_eq_nil_iff]
          intro c _
          simp only [Bool.and_eq_true, decide_eq_true_eq, not_and]
          omega
      rw [ordered_succ, split_, ih, one]
      by_cases same : i = steps
      · subst same
        rw [if_neg (Nat.lt_irrefl _), if_pos rfl, if_pos (Nat.lt_succ_self _), List.nil_append]
      · rw [if_neg same, List.append_nil]
        by_cases before : i < steps
        · rw [if_pos before, if_pos (Nat.lt_succ_of_lt before)]
        · rw [if_neg before, if_neg (by omega)]

theorem ordered_sorted (line : List CHAR) (steps : Nat) :
    (ordered line steps).Pairwise (·.c_column ≤ ·.c_column) ∧
      ∀ c ∈ ordered line steps, c.c_column < steps := by
  induction steps with
  | zero => exact ⟨List.Pairwise.nil, by simp [ordered]⟩
  | succ steps ih =>
      have here : ∀ c ∈ column line steps, c.c_column = steps := fun c mem => by
        simpa using (List.mem_filter.mp mem).2
      rw [ordered_succ]
      refine ⟨List.pairwise_append.mpr ⟨ih.1, ?_, fun c early d late => ?_⟩, fun c mem => ?_⟩
      · exact List.pairwise_of_forall_mem_list fun c one d two => by rw [here c one, here d two]
      · rw [here d late]
        exact (ih.2 c early).le
      · rcases List.mem_append.mp mem with early | late
        · exact Nat.lt_succ_of_lt (ih.2 c early)
        · rw [here c late]
          exact Nat.lt_succ_self _

end

theorem sortLine_ordered (memory : Memory) (work : Work) {l : LINE}
    (inside : ∀ c ∈ l.l_line, c.c_column ≤ l.l_max_col) (fits : l.l_line.length ≤ l.l_lsize) :
    ∃ work', sortLine memory work l = some (work', ordered l.l_line (l.l_max_col + 1)) := by
  unfold sortLine
  generalize sorted_ : (if l.l_lsize > work.sorted.length then _ else work.sorted) = sorted
  generalize count_ : (if l.l_max_col ≥ work.count.length then _ else work.count) = count
  have room : l.l_lsize ≤ sorted.length := by
    rw [← sorted_]
    split
    · rw [List.length_append, List.length_map, List.length_range]
      omega
    · omega
  have some_ : l.l_max_col < count.length := by
    rw [← count_]
    split
    · rw [List.length_append, List.length_map, List.length_range]
      omega
    · omega
  have cleared : Counts l.l_max_col
      (fun i => if i = l.l_max_col then memory.clearFirst count[l.l_max_col] else 0)
      (List.replicate l.l_max_col 0 ++ memory.clearFirst count[l.l_max_col] ::
        count.drop (l.l_max_col + 1)) := by
    intro i le
    dsimp only
    rcases Nat.lt_or_eq_of_le le with lt | rfl
    · rw [if_neg (by omega), List.getElem?_append_left (by rwa [List.length_replicate]),
        List.getElem?_replicate_of_lt lt]
    · rw [if_pos rfl, List.getElem?_append_right (by rw [List.length_replicate]),
        List.length_replicate, Nat.sub_self]
      rfl
  obtain ⟨count', counted, counts⟩ := cleared.all l.l_line inside
  obtain ⟨count'', tot, totalled, -, begins⟩ := counts.totals l.l_line _ (Nat.le_refl _)
  have whole : (ordered l.l_line (l.l_max_col + 1)).length = l.l_line.length := by
    rw [ordered_length, List.countP_eq_length]
    simpa [Nat.lt_succ_iff] using inside
  have start : Placed l.l_max_col l.l_line [] ⟨sorted, count''⟩ := by
    refine ⟨fun i le => ?_, fun i le k before => absurd before (Nat.not_lt_zero _)⟩
    have begun := begins i le
    dsimp only at begun
    rwa [if_pos (Nat.lt_succ_of_le le)] at begun
  obtain ⟨work', made, placed⟩ := Placed.all l.l_line start rfl inside (whole ▸ fits.trans room)
  refine ⟨work', ?_⟩
  dsimp only [Option.bind_eq_bind]
  rw [List.getElem?_eq_getElem some_, Option.bind_some, counted, Option.bind_some, totalled,
    Option.bind_some, made, ← whole]
  exact congrArg (fun c => some (work', c)) (placed.sorted _ (Nat.le_refl _))

/-! ## Lines -/

/-- What is known of a line that these characters were put into. -/
structure Built (line : List CHAR) (l : LINE) : Prop where
  same : l.l_line = line
  fits : line.length ≤ l.l_lsize
  inside : ∀ c ∈ line, c.c_column ≤ l.l_max_col
  sorted : l.l_needs_sort = false → line.Pairwise (·.c_column ≤ ·.c_column)

theorem Built.put {line : List CHAR} {l : LINE} (built : Built line l) (c : CHAR) :
    Built (line ++ [c]) (l.put c) := by
  have fits := built.fits
  refine ⟨?_, ?_, fun d mem => ?_, fun plain => ?_⟩
  · rw [LINE.put, built.same]
  · rw [List.length_append, List.length_singleton, LINE.put, built.same]
    dsimp only
    split <;> [split; skip] <;> omega
  · have le : d.c_column ≤ l.l_max_col ∨ d = c :=
      (List.mem_append.mp mem).imp (built.inside d) List.mem_singleton.mp
    rw [LINE.put]
    dsimp only
    rcases le with le | rfl <;> split <;> omega
  · rw [LINE.put, Bool.or_eq_false_iff, decide_eq_false_iff_not] at plain
    refine List.pairwise_append.mpr
      ⟨built.sorted plain.1, List.pairwise_singleton _ _, fun d mem e here => ?_⟩
    rw [List.mem_singleton.mp here]
    exact (built.inside d mem).trans (Nat.le_of_not_lt plain.2)

theorem built (line : List CHAR) : Built line (line.foldl LINE.put alloc_line) := by
  induction line using List.reverseRecOn with
  | nil => exact ⟨rfl, Nat.le_refl _, by simp, fun _ => List.Pairwise.nil⟩
  | append_singleton line c ih =>
      rw [List.foldl_append]
      exact ih.put c

/-! ## Printing -/

/-- The characters among what is written. -/
def chars : List Out → List CHAR
  | [] => []
  | .char c :: out => c :: chars out
  | _ :: out => chars out

theorem chars_append (out more : List Out) : chars (out ++ more) = chars out ++ chars more := by
  induction out with
  | nil => rfl
  | cons o out ih => cases o <;> simp [chars, ih]

theorem chars_replicate (k : Nat) {o : Out} (blank : chars [o] = []) :
    chars (List.replicate k o) = [] := by
  induction k with
  | zero => rfl
  | succ k ih =>
      rw [List.replicate_succ, ← List.singleton_append, chars_append, blank, ih]
      rfl

theorem chars_tabs (last_col this_col : Int) : chars (tabs last_col this_col).1 = [] := by
  fun_induction tabs last_col this_col with
  | case1 => rfl
  | case2 last_col ge rest col same ih =>
      rw [same] at ih
      split <;> exact ih

theorem chars_advance (compress_spaces : Bool) (last_col this_col : Int) :
    chars (advance compress_spaces last_col this_col) = [] := by
  unfold advance
  split
  next tabbed col same =>
    have none_ : chars tabbed = [] := by
      split at same
      · have := chars_tabs last_col this_col
        rwa [same] at this
      · cases same
        rfl
    rw [chars_append, none_, chars_replicate _ rfl]
    rfl

theorem chars_emit (cs : List CHAR) (last_set : Nat) : chars (emit last_set cs).1 = cs := by
  induction cs generalizing last_set with
  | nil => rfl
  | cons c more ih =>
      have shift : chars (if c.c_set ≠ last_set then [.shift c.c_set] else []) = [] := by
        split <;> rfl
      have back : chars (if more = [] then [] else List.replicate c.c_width.toNat .backspace) =
          [] := by
        split
        · rfl
        · exact chars_replicate _ rfl
      rw [emit, chars_append, chars_append, shift, ih, List.nil_append]
      exact congrArg (fun between => c :: (between ++ more)) back

theorem group_split (k : Nat) (nchars : Nat) : ∀ {rest : List CHAR}, nchars ≤ rest.length →
    ∃ more left rest', group k nchars rest = some (more, left, rest') ∧ rest = more ++ rest' ∧
      nchars = more.length + left := by
  induction nchars with
  | zero => exact fun {rest} _ => ⟨[], 0, rest, rfl, rfl, rfl⟩
  | succ nchars ih =>
      intro rest inside
      cases rest with
      | nil => cases inside
      | cons e rest =>
          rw [group]
          by_cases same : e.c_column = k
          · obtain ⟨more, left, rest', made, parts, count⟩ := ih (Nat.le_of_succ_le_succ inside)
            rw [if_pos same, made]
            exact ⟨e :: more, left, rest', rfl, congrArg (e :: ·) parts, by
              rw [List.length_cons]; omega⟩
          · rw [if_neg same]
            exact ⟨[], nchars + 1, e :: rest, rfl, rfl, (Nat.zero_add _).symm⟩

theorem getLastD_mem (more : List CHAR) (c : CHAR) : more.getLastD c ∈ c :: more := by
  rw [List.getLastD_eq_getLast?]
  cases last : more.getLast? with
  | none => exact List.mem_cons_self
  | some e => exact List.mem_cons_of_mem _ (List.mem_of_getLast? last)

theorem overlaps_some (no_backspaces : Bool) (c last : CHAR) {left : Nat} {rest : List CHAR}
    (inside : left ≤ rest.length) :
    ∃ b, overlaps no_backspaces c last left rest = some b ∧ (b = true → no_backspaces = true) := by
  cases left with
  | zero => exact ⟨false, rfl, nofun⟩
  | succ left =>
      cases rest with
      | nil => cases inside
      | cons e rest => cases no_backspaces <;> exact ⟨_, rfl, by simp⟩

/-- The characters printed are those of the line in their order; only `-b` leaves some out. -/
theorem printLine_chars (no_backspaces compress_spaces : Bool) (steps : Nat) :
    ∀ {nchars : Nat} {cs : List CHAR} {last_col : Int} {last_set : Nat}, nchars ≤ steps →
      nchars ≤ cs.length → ∃ out set,
        printLine no_backspaces compress_spaces steps nchars cs last_col last_set =
          some (out, set) ∧ (chars out).Sublist cs ∧
        (no_backspaces = false → chars out = cs.take nchars) := by
  induction steps with
  | zero =>
      intro nchars cs last_col last_set few inside
      obtain rfl : nchars = 0 := by omega
      exact ⟨[], last_set, by rw [printLine], List.nil_sublist _, fun _ => rfl⟩
  | succ steps ih =>
      intro nchars cs last_col last_set few inside
      cases nchars with
      | zero => exact ⟨[], last_set, by rw [printLine], List.nil_sublist _, fun _ => rfl⟩
      | succ nchars =>
          cases cs with
          | nil => cases inside
          | cons c rest =>
              have short : nchars ≤ rest.length := Nat.le_of_succ_le_succ inside
              obtain ⟨more, left, rest', made, rfl, rfl⟩ := group_split c.c_column nchars short
              rw [List.length_append] at short
              have last : [more.getLastD c].Sublist (c :: more) :=
                List.singleton_sublist.mpr (getLastD_mem more c)
              obtain ⟨b, overlap, only⟩ := overlaps_some no_backspaces c (more.getLastD c)
                (by omega : left ≤ rest'.length)
              rw [printLine, made]
              dsimp only [Option.bind_eq_bind, Option.bind_some]
              rw [overlap, Option.bind_some]
              cases b with
              | true =>
                  obtain ⟨out, set, rest, part, _⟩ := @ih left (more.getLastD c :: rest') last_col
                    last_set (by omega) (by rw [List.length_cons]; omega)
                  exact ⟨out, set, rest, part.trans (last.append (List.Sublist.refl rest')),
                    fun all => absurd (only rfl) (by simp [all])⟩
              | false =>
                  rw [if_neg Bool.false_ne_true]
                  obtain ⟨out, set, rest, part, whole⟩ := @ih left rest'
                    (max (c.c_column : Int) last_col + (more.getLastD c).c_width)
                    (emit last_set (if no_backspaces then [more.getLastD c] else c :: more)).2
                    (by omega) (by omega)
                  rw [rest, Option.bind_some]
                  refine ⟨_, _, rfl, ?_, fun all => ?_⟩
                  · rw [chars_append, chars_append, chars_advance, chars_emit, List.nil_append]
                    rw [← List.cons_append]
                    refine List.Sublist.append ?_ part
                    split
                    · exact last
                    · exact List.Sublist.refl _
                  · rw [chars_append, chars_append, chars_advance, chars_emit, List.nil_append,
                      whole all, all, if_neg Bool.false_ne_true, List.take_succ_cons,
                      List.take_length_add_append, List.cons_append]

/-! ## All lines -/

/-- The characters of a line are printed column by column in their order; only `-b` leaves some
out. -/
structure Ordered (no_backspaces : Bool) (line : List CHAR) (out : List Out) : Prop where
  columns : (chars out).Pairwise (·.c_column ≤ ·.c_column)
  order : ∀ i, (column (chars out) i).Sublist (column line i)
  all : no_backspaces = false → ∀ i, column (chars out) i = column line i

theorem flush_line_ordered (no_backspaces compress_spaces : Bool) (memory : Memory) (work : Work)
    (last_set : Nat) {line : List CHAR} {l : LINE} (built : Built line l) :
    ∃ work' set out, flush_line no_backspaces compress_spaces memory work last_set l =
      some (work', set, out) ∧ Ordered no_backspaces line out := by
  obtain ⟨work', cs, sorted, increasing, same, size⟩ : ∃ work' cs,
      inOrder memory work l = some (work', cs) ∧ cs.Pairwise (·.c_column ≤ ·.c_column) ∧
      (∀ i, column cs i = column line i) ∧ cs.length = line.length := by
    unfold inOrder
    by_cases needs : l.l_needs_sort = true
    · obtain ⟨work', sorted⟩ := sortLine_ordered memory work
        (built.same ▸ built.inside) (built.same ▸ built.fits)
      rw [if_pos needs, sorted, built.same]
      refine ⟨work', _, rfl, (ordered_sorted line _).1, fun i => ?_, ?_⟩
      · rw [column_ordered]
        split
        · rfl
        · refine (List.filter_eq_nil_iff.mpr fun c mem => ?_).symm
          have := built.inside c mem
          simp only [decide_eq_true_eq]
          omega
      · rw [ordered_length, List.countP_eq_length]
        simpa [Nat.lt_succ_iff] using built.inside
    · rw [if_neg needs, built.same]
      exact ⟨work, line, rfl, built.sorted (by simpa using needs), fun _ => rfl, rfl⟩
  obtain ⟨out, set, printed, part, whole⟩ := @printLine_chars no_backspaces compress_spaces
    l.l_line.length l.l_line.length cs 0 last_set (Nat.le_refl _) (by rw [built.same, size])
  refine ⟨work', set, out, ?_, increasing.sublist part, fun i => ?_, fun all i => ?_⟩
  · rw [flush_line, sorted]
    dsimp only [Option.bind_eq_bind, Option.bind_some]
    rw [printed]
    rfl
  · exact same i ▸ part.filter _
  · rw [whole all, built.same, ← size, List.take_length, same]

/-- However many lines are flushed, and whatever the memory holds, every index is in range and the
characters of every line are printed in the order of their columns. -/
theorem flushed_ordered (no_backspaces compress_spaces : Bool)
    (lines : List (Memory × List CHAR)) : ∀ (work : Work) (last_set : Nat), ∃ outs,
      flushed no_backspaces compress_spaces work last_set
          (lines.map fun line => (line.1, line.2.foldl LINE.put alloc_line)) = some outs ∧
        List.Forall₂ (fun line out => Ordered no_backspaces line.2 out) lines outs := by
  induction lines with
  | nil => exact fun _ _ => ⟨[], rfl, .nil⟩
  | cons line lines ih =>
      intro work last_set
      obtain ⟨work', set, out, made, right⟩ :=
        flush_line_ordered no_backspaces compress_spaces line.1 work last_set (built line.2)
      obtain ⟨outs, rest, all⟩ := ih work' set
      refine ⟨out :: outs, ?_, .cons right all⟩
      rw [List.map_cons, flushed, made]
      dsimp only [Option.bind_eq_bind, Option.bind_some]
      rw [rest]
      rfl

end Netbase.Col
