import Netbase.Locate.Fastfind

/-!
# Searching the path list

`patprep` takes the last part of the pattern without metacharacters, and `fastfind` compares
it backwards with each path, from the end of the path down to a cutoff: the characters shared
with the path before need not be searched again if that path had no match.
-/

namespace Netbase.Locate

open Netbase.Text

/-- The size of `globfree`. -/
def GLOBFREE : Nat := 100

/-- Go back from a place until a character is there; one more than its index, or zero. -/
def skipBack (until_ : Byte → Bool) (name : List Byte) : Nat → Nat
  | 0 => 0
  | n + 1 => if until_ (name.getD n 0) then n + 1 else skipBack until_ name n

/-- The index that `patprep` takes for the end of the last part: in front of metacharacters
and of a range at the end, and zero if there is nothing in front of them. -/
def endmark (name : List Byte) : Nat :=
  let p := skipBack (fun c => !(c == byte '*' || c == byte '?')) name name.length - 1
  if name.getD p 0 = byte ']' then skipBack (· == byte '[') name p - 2 else p

/-- What stands in `globfree` between its zeros: at most as many characters as it holds
behind the first zero, and then the last zero must still fit. -/
def patprep (name : List Byte) : Except Fault (List Byte) :=
  let p := endmark name
  let subp :=
    if p = 0 ∧ (name.getD 0 0 ∈ [byte '?', byte '*', byte '[', byte ']', 0]) then [byte '/']
    else
      let start := skipBack (fun c => c == byte ']' || c == byte '*' || c == byte '?') name (p + 1)
      ((name.drop start).take (p + 1 - start)).take (GLOBFREE - 1)
  if 1 + subp.length < GLOBFREE then .ok subp else .error .overrun

/-- Compare backwards what is left of the pattern, from an index of the path. -/
def matchBack (path : List Byte) : List Byte → Int → Except Fault Bool
  | [], _ => .ok true
  | c :: p, q =>
      if q < 0 ∨ q ≥ path.length then .error .overrun
      else if path.getD q.toNat 0 = c then matchBack path p (q - 1)
      else .ok false

def searchBack (patend : Byte) (rest path : List Byte) (cutoff : Nat) : Nat → Except Fault Bool
  | 0 => .ok false
  | s + 1 =>
      if cutoff ≤ s then
        if path.getD s 0 = patend then do
          let found ← matchBack path rest ((s : Int) - 1)
          if found then .ok true else searchBack patend rest path cutoff s
        else searchBack patend rest path cutoff s
      else .ok false

def searchLoop (bigram1 bigram2 : List Byte) (prints : List Byte → Bool) (patend : Byte)
    (rest : List Byte) :
    Nat → Option Byte → List Byte → List Byte → Int → Bool → Except Fault (List (List Byte))
  | _, none, _, _, _, _ => .ok []
  | 0, some _, _, _, _, _ => .error .unread
  | fuel + 1, some c, stream, path, count, found => do
      let word := if c = SWITCH then getw stream else (c.toNat, stream)
      let count := count + word.1 - OFFSET
      let (c, stream, path, p) ← overlay bigram1 bigram2 word.2 path count
      let path ← putPath path p 0
      if p - 1 < 0 ∨ count < 0 then .error .invalid
      else do
        let cutoff := if found then 0 else count.toNat
        let found ← searchBack patend rest path cutoff p.toNat
        let paths ← searchLoop bigram1 bigram2 prints patend rest fuel c stream path count found
        let shown := path.takeWhile (· ≠ 0)
        .ok (if found && prints shown then shown :: paths else paths)

def isMeta (c : Byte) : Bool := c == byte '*' || c == byte '?' || c == byte '[' || c == byte ']'

/-- The paths that `fastfind` prints for a pattern. -/
def fastfindPattern (fnmatch : List Byte → List Byte → Bool) (buffer file pathpart : List Byte) :
    Except Fault (List (List Byte)) := do
  let stream := file.drop (NBG * 2)
  let globflag := byte '*' ∈ pathpart ∨ byte '?' ∈ pathpart ∨ byte '[' ∈ pathpart
  let subp ← patprep pathpart
  searchLoop (readBigrams file 0) (readBigrams file 1)
    (fun path => !globflag || fnmatch pathpart path) (subp.getLastD 0) subp.dropLast.reverse
    (file.length + 1) stream.head? stream.tail buffer 0 false

/-! ## The pattern -/

/-- The characters of a pattern that is to be found as it is. -/
def Plain (name : List Byte) : Prop := ∀ c ∈ name, c ≠ 0 ∧ isMeta c = false

instance (name : List Byte) : Decidable (Plain name) :=
  inferInstanceAs (Decidable (∀ c ∈ name, c ≠ 0 ∧ isMeta c = false))

variable {name path subp : List Byte}

theorem getD_mem {n : Nat} (inside : n < name.length) :
    name.getD n 0 ∈ name := by
  rw [List.getD_eq_getElem?_getD, List.getElem?_eq_getElem inside]
  exact List.getElem_mem inside

theorem skipBack_none {until_ : Byte → Bool} (n : Nat) (never : ∀ c ∈ name, until_ c = false)
    (inside : n ≤ name.length) :
    skipBack until_ name n = 0 := by
  induction n with
  | zero => rfl
  | succ n ih =>
      rw [skipBack, never _ (getD_mem inside), if_neg (by simp)]
      exact ih (by omega)

theorem Plain.not_meta (plain : Plain name) {c : Byte} (inside : c ∈ name) :
    c ≠ byte '*' ∧ c ≠ byte '?' ∧ c ≠ byte '[' ∧ c ≠ byte ']' := by
  simpa [isMeta, and_assoc] using (plain c inside).2

theorem endmark_plain (plain : Plain name) :
    endmark name = name.length - 1 := by
  cases same : name.length with
  | zero =>
      rw [List.length_eq_zero_iff] at same
      rw [same]
      decide
  | succ n =>
      obtain ⟨star, query, _, close⟩ := plain.not_meta (getD_mem (n := n) (by omega))
      have first : skipBack (fun c => !(c == byte '*' || c == byte '?')) name (n + 1) = n + 1 := by
        rw [skipBack, if_pos]
        simpa using ⟨star, query⟩
      unfold endmark
      simp only [same, first, Nat.add_sub_cancel]
      rw [if_neg close]

/-- A pattern without metacharacters is searched as it is if it fits, the empty one as a
slash; longer ones do not fit. -/
theorem patprep_plain (plain : Plain name) :
    patprep name =
      if name = [] then .ok [byte '/']
      else if name.length + 1 < GLOBFREE then .ok name else .error .overrun := by
  by_cases empty : name = []
  · rw [if_pos empty, empty]
    rfl
  · have some : 0 < name.length := List.length_pos_of_ne_nil empty
    obtain ⟨star, query, opens, close⟩ := plain.not_meta (getD_mem some)
    have zero := (plain _ (getD_mem some)).1
    have start : skipBack (fun c => c == byte ']' || c == byte '*' || c == byte '?') name
        name.length = 0 := by
      refine skipBack_none _ (fun c inside => ?_) (Nat.le_refl _)
      obtain ⟨star, query, _, close⟩ := plain.not_meta inside
      simpa using ⟨⟨close, star⟩, query⟩
    have whole : name.length - 1 + 1 = name.length := by omega
    have other : ¬ (name.length - 1 = 0 ∧
        name.getD 0 0 ∈ [byte '?', byte '*', byte '[', byte ']', 0]) := by
      simp only [List.mem_cons, List.not_mem_nil, not_and, not_or]
      exact fun _ => ⟨query, star, opens, close, zero, id⟩
    unfold patprep
    simp only [endmark_plain plain, whole, start, if_neg other, if_neg empty]
    rw [List.drop_zero, Nat.sub_zero, List.take_length, List.length_take]
    unfold GLOBFREE
    by_cases fits : name.length + 1 < 100
    · rw [if_pos fits, if_pos (by omega), List.take_of_length_le (by omega)]
    · rw [if_neg fits, if_neg (by omega)]

/-! ## The search of a path -/

/-- A path that begins inside the pattern: what is left of the pattern is compared with what
is in front of the path. -/
def Runs (subp path : List Byte) : Prop :=
  ∃ n, 0 < n ∧ n ≤ path.length ∧ path.take n <:+ subp

/-- What the comparison of two texts backwards comes to. -/
def compare : List Byte → List Byte → Except Fault Bool
  | [], _ => .ok true
  | _ :: _, [] => .error .overrun
  | c :: p, d :: q => if d = c then compare p q else .ok false

theorem compare_eq (p q : List Byte) :
    compare p q =
      if p <+: q then .ok true else if q <+: p then .error .overrun else .ok false := by
  fun_induction compare p q with
  | case1 q => rw [if_pos (List.nil_prefix)]
  | case2 c p => rw [if_neg (by simp), if_pos (List.nil_prefix)]
  | case3 c p q ih => simp [ih]
  | case4 c p d q differ =>
      have other : ¬ c = d := fun same => differ same.symm
      simp [List.cons_prefix_cons, differ, other]

theorem reverse_take_succ {s : Nat} (inside : s < path.length) :
    (path.take (s + 1)).reverse = path.getD s 0 :: (path.take s).reverse := by
  rw [List.take_succ_eq_append_getElem inside, List.reverse_append,
    List.getD_eq_getElem?_getD, List.getElem?_eq_getElem inside]
  rfl

theorem matchBack_eq (p : List Byte) :
    ∀ n, n ≤ path.length → matchBack path p ((n : Int) - 1) = compare p (path.take n).reverse := by
  induction p with
  | nil => exact fun n _ => rfl
  | cons c p ih =>
      intro n inside
      cases n with
      | zero => rfl
      | succ n =>
          have place : ((n + 1 : Nat) : Int) - 1 = n := by omega
          rw [reverse_take_succ inside, matchBack, compare, place, if_neg (by omega),
            Int.toNat_natCast, ih n (by omega)]

theorem searchBack_succ (nonempty : subp ≠ []) {cutoff s : Nat} (inside : s < path.length)
    (behind : cutoff ≤ s) :
    searchBack (subp.getLastD 0) subp.dropLast.reverse path cutoff (s + 1) =
      if subp <:+ path.take (s + 1) then .ok true
      else if path.take (s + 1) <:+ subp then .error .overrun
      else searchBack (subp.getLastD 0) subp.dropLast.reverse path cutoff s := by
  have back : subp.reverse = subp.getLastD 0 :: subp.dropLast.reverse := by
    rw [← List.dropLast_concat_getLast nonempty]
    simp
  simp only [← List.reverse_prefix]
  have found := compare_eq subp.reverse (path.take (s + 1)).reverse
  rw [searchBack, if_pos behind, matchBack_eq _ s (by omega)]
  simp only [back, reverse_take_succ inside, compare] at found ⊢
  by_cases last : path.getD s 0 = subp.getLastD 0
  · rw [if_pos last] at found ⊢
    rw [found]
    split
    · rfl
    · split <;> rfl
  · rw [if_neg last] at found ⊢
    split at found
    · cases found
    · next shorter =>
        split at found
        · cases found
        · next longer => rw [if_neg shorter, if_neg longer]

/-- Searching down to the cutoff finds the pattern if it ends behind it; else the comparison
leaves the path if a part that ends behind the cutoff is an end of the pattern. -/
theorem searchBack_cases (nonempty : subp ≠ []) (cutoff : Nat) (s : Nat) :
    s ≤ path.length →
      let result := searchBack (subp.getLastD 0) subp.dropLast.reverse path cutoff s
      ((∃ n, cutoff < n ∧ n ≤ s ∧ subp <:+ path.take n) → result = .ok true) ∧
        ((¬ ∃ n, cutoff < n ∧ n ≤ s ∧ subp <:+ path.take n) →
          ((∃ n, cutoff < n ∧ n ≤ s ∧ path.take n <:+ subp) → result = .error .overrun) ∧
            ((¬ ∃ n, cutoff < n ∧ n ≤ s ∧ path.take n <:+ subp) → result = .ok false)) := by
  induction s with
  | zero =>
      intro _
      exact ⟨fun ⟨n, low, high, _⟩ => by omega, fun _ => ⟨fun ⟨n, low, high, _⟩ => by omega,
        fun _ => rfl⟩⟩
  | succ s ih =>
      intro inside
      obtain ⟨finds, leaves⟩ := ih (by omega)
      by_cases behind : cutoff ≤ s
      · rw [searchBack_succ nonempty inside behind]
        by_cases here : subp <:+ path.take (s + 1)
        · rw [if_pos here]
          exact ⟨fun _ => rfl, fun none => absurd ⟨s + 1, by omega, Nat.le_refl _, here⟩ none⟩
        · rw [if_neg here]
          have found_iff : (∃ n, cutoff < n ∧ n ≤ s + 1 ∧ subp <:+ path.take n) ↔
              ∃ n, cutoff < n ∧ n ≤ s ∧ subp <:+ path.take n := by
            constructor
            · rintro ⟨n, low, high, occurs⟩
              have other : n ≠ s + 1 := by
                rintro rfl
                exact here occurs
              exact ⟨n, low, by omega, occurs⟩
            · rintro ⟨n, low, high, occurs⟩
              exact ⟨n, low, by omega, occurs⟩
          rw [found_iff]
          by_cases runs : path.take (s + 1) <:+ subp
          · rw [if_pos runs]
            refine ⟨?_, fun _ => ⟨fun _ => rfl, fun none => absurd ⟨s + 1, by omega,
              Nat.le_refl _, runs⟩ none⟩⟩
            -- an occurrence further in front would be shorter than the part that runs over
            rintro ⟨n, low, high, occurs⟩
            have shorter := occurs.length_le
            have longer := runs.length_le
            rw [List.length_take] at shorter longer
            omega
          · rw [if_neg runs]
            have runs_iff : (∃ n, cutoff < n ∧ n ≤ s + 1 ∧ path.take n <:+ subp) ↔
                ∃ n, cutoff < n ∧ n ≤ s ∧ path.take n <:+ subp := by
              constructor
              · rintro ⟨n, low, high, spill⟩
                have other : n ≠ s + 1 := by
                  rintro rfl
                  exact runs spill
                exact ⟨n, low, by omega, spill⟩
              · rintro ⟨n, low, high, spill⟩
                exact ⟨n, low, by omega, spill⟩
            rw [runs_iff]
            exact ⟨finds, leaves⟩
      · rw [searchBack, if_neg behind]
        exact ⟨fun ⟨n, low, high, _⟩ => by omega, fun _ => ⟨fun ⟨n, low, high, _⟩ => by omega,
          fun _ => rfl⟩⟩

/-- What has no match in a path has none in a part of it, and a part runs over no more. -/
def Clear (subp path : List Byte) : Prop := ¬ subp <:+: path ∧ ¬ Runs subp path

theorem Clear.take (clear : Clear subp path) (n : Nat) :
    Clear subp (path.take n) := by
  refine ⟨fun inside => clear.1 (inside.trans (List.take_prefix n path).isInfix), ?_⟩
  rintro ⟨k, positive, within, spill⟩
  rw [List.length_take] at within
  rw [List.take_take, Nat.min_eq_left (by omega)] at spill
  exact clear.2 ⟨k, positive, by omega, spill⟩

theorem infix_iff_take :
    subp <:+: path ↔ ∃ n, n ≤ path.length ∧ subp <:+ path.take n := by
  constructor
  · rintro ⟨front, back, rfl⟩
    refine ⟨(front ++ subp).length, by simp, ?_⟩
    rw [List.take_left]
    exact List.suffix_append front subp
  · rintro ⟨n, _, occurs⟩
    exact occurs.isInfix.trans (List.take_prefix n path).isInfix

theorem searchBack_path (nonempty : subp ≠ []) (behind : List Byte) {cutoff : Nat}
    (clear : Clear subp (path.take cutoff)) :
    let result := searchBack (subp.getLastD 0) subp.dropLast.reverse (path ++ behind) cutoff
      path.length
    (subp <:+: path → result = .ok true) ∧
      (¬ subp <:+: path → Runs subp path → result = .error .overrun) ∧
        (Clear subp path → result = .ok false) := by
  have inside : path.length ≤ (path ++ behind).length := by simp
  have part : ∀ n, n ≤ path.length → (path ++ behind).take n = path.take n := fun n within =>
    List.take_append_of_le_length within
  have found_iff : (∃ n, cutoff < n ∧ n ≤ path.length ∧ subp <:+ (path ++ behind).take n) ↔
      subp <:+: path := by
    rw [infix_iff_take]
    constructor
    · rintro ⟨n, _, within, occurs⟩
      exact ⟨n, within, part n within ▸ occurs⟩
    · rintro ⟨n, within, occurs⟩
      refine ⟨n, ?_, within, (part n within).symm ▸ occurs⟩
      by_contra early
      refine clear.1 (occurs.isInfix.trans ?_)
      rw [← Nat.min_eq_left (show n ≤ cutoff by omega), ← List.take_take]
      exact (List.take_prefix n _).isInfix
  have runs_iff : (∃ n, cutoff < n ∧ n ≤ path.length ∧ (path ++ behind).take n <:+ subp) ↔
      Runs subp path := by
    constructor
    · rintro ⟨n, low, within, spill⟩
      exact ⟨n, by omega, within, part n within ▸ spill⟩
    · rintro ⟨n, positive, within, spill⟩
      refine ⟨n, ?_, within, (part n within).symm ▸ spill⟩
      by_contra early
      refine clear.2 ⟨n, positive, ?_, ?_⟩
      · rw [List.length_take]
        omega
      · rwa [List.take_take, Nat.min_eq_left (by omega)]
  obtain ⟨finds, leaves⟩ := searchBack_cases nonempty cutoff path.length inside
  rw [found_iff, runs_iff] at leaves
  exact ⟨fun occurs => finds (found_iff.mpr occurs), fun none => (leaves none).1,
    fun clear => (leaves clear.1).2 clear.2⟩

/-! ## The search of the list -/

/-- A path that has no match is compared beyond its beginning. -/
def Overruns (subp path : List Byte) : Prop := ¬ subp <:+: path ∧ Runs subp path

theorem searchLoop_putPaths {table : List Byte} (tableLength : table.length = NBG * 2)
    (file : List Byte) (prints : List Byte → Bool) (nonempty : subp ≠ []) :
    ∀ (paths : List (List Byte)) (oldpath buffer : List Byte) (oldcount fuel : Nat)
      (found : Bool), (∀ path ∈ paths, Storable path) → oldcount < MAXPATHLEN →
      buffer.length = MAXPATHLEN →
      (∀ path, paths.head? = some path →
        buffer.take (commonPrefix path oldpath) = path.take (commonPrefix path oldpath)) →
      (found = false → ∀ path, paths.head? = some path →
        Clear subp (path.take (commonPrefix path oldpath))) →
      paths.length ≤ fuel →
      let result := searchLoop (readBigrams (table ++ file) 0) (readBigrams (table ++ file) 1)
        prints (subp.getLastD 0) subp.dropLast.reverse fuel
        (putPaths table oldpath oldcount paths).head?
        (putPaths table oldpath oldcount paths).tail buffer oldcount found
      ((∀ path ∈ paths, ¬ Overruns subp path) →
          result = .ok (paths.filter fun path => decide (subp <:+: path) && prints path)) ∧
        ((∃ path ∈ paths, Overruns subp path) → result = .error .overrun) := by
  intro paths
  induction paths with
  | nil =>
      intro oldpath buffer oldcount fuel found _ _ _ _ _ _
      refine ⟨fun _ => ?_, fun ⟨path, member, _⟩ => by cases member⟩
      cases fuel <;> rfl
  | cons path paths ih =>
      intro oldpath buffer oldcount fuel found storable small length shared clear enough
      obtain ⟨more, rfl⟩ : ∃ more, fuel = more + 1 :=
        ⟨fuel - 1, by simp only [List.length_cons] at enough; omega⟩
      have this := storable path List.mem_cons_self
      have later : ∀ other ∈ paths, Storable other := fun other member =>
        storable other (List.mem_cons_of_mem _ member)
      obtain ⟨c, stream, rest, laid, junk, split, value, overlaid, stored, stays⟩ :=
        entry_read tableLength file this later small length (shared path rfl)
      have moved : (oldcount : Int) + ((commonPrefix path oldpath : Int) - oldcount + OFFSET) -
          OFFSET = (commonPrefix path oldpath : Nat) := by
        omega
      have positive := List.length_pos_of_ne_nil this.nonempty
      have shown : (path ++ 0 :: junk).takeWhile (· ≠ 0) = path := by
        rw [List.takeWhile_append_of_pos this.ne_zero]
        simp
      have cutoff : Clear subp (path.take (if found then 0 else commonPrefix path oldpath)) := by
        cases found with
        | true =>
            refine ⟨fun inside => nonempty (List.infix_nil.mp inside), ?_⟩
            rintro ⟨n, low, high, _⟩
            simp only [if_true, List.take_zero, List.length_nil] at high
            omega
        | false => exact clear rfl path rfl
      have next := fun now (left : now = false → Clear subp path) =>
        ih path (path ++ 0 :: junk) (commonPrefix path oldpath) more now later
          (count_small oldpath this) stays
          (by
            intro other _
            rw [← commonPrefix_take other path,
              List.take_append_of_le_length (commonPrefix_le_old other path)])
          (by
            intro missed other _
            rw [← commonPrefix_take other path]
            exact (left missed).take _)
          (by simp only [List.length_cons] at enough; omega)
      obtain ⟨finds, overruns, misses⟩ := searchBack_path nonempty (0 :: junk) cutoff
      rw [split, List.head?_cons, List.tail_cons, searchLoop]
      simp only [value, moved, overlaid, stored, bind, Except.bind, Int.toNat_natCast]
      rw [if_neg (by omega)]
      by_cases occurs : subp <:+: path
      · obtain ⟨prints', overruns'⟩ := next true (fun found => by cases found)
        simp only [finds occurs, shown]
        refine ⟨fun clean => ?_, ?_⟩
        · rw [prints' fun other member => clean other (List.mem_cons_of_mem _ member)]
          simp only [List.filter_cons, occurs, decide_true, Bool.true_and]
        · rintro ⟨other, member, spill⟩
          rcases List.mem_cons.mp member with rfl | member
          · exact absurd occurs spill.1
          · rw [overruns' ⟨other, member, spill⟩]
      · by_cases runs : Runs subp path
        · rw [overruns occurs runs]
          exact ⟨fun clean => absurd ⟨occurs, runs⟩ (clean path List.mem_cons_self), fun _ => rfl⟩
        · obtain ⟨prints', overruns'⟩ := next false fun _ => ⟨occurs, runs⟩
          simp only [misses ⟨occurs, runs⟩]
          refine ⟨fun clean => ?_, ?_⟩
          · rw [prints' fun other member => clean other (List.mem_cons_of_mem _ member)]
            simp only [List.filter_cons, occurs, decide_false, Bool.false_and]
            rfl
          · rintro ⟨other, member, spill⟩
            rcases List.mem_cons.mp member with rfl | member
            · exact absurd spill.2 runs
            · rw [overruns' ⟨other, member, spill⟩]

/-- The pattern fits into `globfree`, and no path that has no match begins with an end of it;
for the empty pattern every path has a slash. -/
def Searchable (pathpart : List Byte) (paths : List (List Byte)) : Prop :=
  if pathpart = [] then ∀ path ∈ paths, byte '/' ∈ path
  else pathpart.length + 1 < GLOBFREE ∧ ∀ path ∈ paths, ¬ Overruns pathpart path

theorem overruns_single (c : Byte) (path : List Byte) : ¬ Overruns [c] path := by
  rintro ⟨none, n, positive, within, spill⟩
  obtain ⟨d, rest, rfl⟩ : ∃ d rest, path = d :: rest := by
    cases path with
    | nil => simp only [List.length_nil] at within; omega
    | cons d rest => exact ⟨d, rest, rfl⟩
  obtain ⟨n, rfl⟩ : ∃ k, n = k + 1 := ⟨n - 1, by omega⟩
  have first : d ∈ [c] := spill.subset (by simp)
  rw [List.mem_singleton] at first
  subst first
  exact none ⟨[], rest, rfl⟩

theorem searchLoop_file (argument : List Byte) {buffer : List Byte}
    (length : buffer.length = MAXPATHLEN) {paths : List (List Byte)}
    (storable : ∀ path ∈ paths, Storable path)
    (rooted : ∀ path, paths.head? = some path → path.head? ≠ some (byte ' '))
    (prints : List Byte → Bool) (nonempty : subp ≠ []) :
    let file := bigramArray argument ++ putPaths (bigramArray argument) [byte ' '] 0 paths
    let result := searchLoop (readBigrams file 0) (readBigrams file 1) prints (subp.getLastD 0)
      subp.dropLast.reverse (file.length + 1) (file.drop (NBG * 2)).head?
      (file.drop (NBG * 2)).tail buffer 0 false
    ((∀ path ∈ paths, ¬ Overruns subp path) →
        result = .ok (paths.filter fun path => decide (subp <:+: path) && prints path)) ∧
      ((∃ path ∈ paths, Overruns subp path) → result = .error .overrun) := by
  have tableLength := bigramArray_length argument
  have counted := length_le_putPaths (bigramArray argument) paths [byte ' '] 0
  simp only [← tableLength, List.drop_left]
  refine searchLoop_putPaths tableLength _ prints nonempty paths [byte ' '] buffer 0 _ false
    storable (by decide) length ?_ ?_ (by rw [List.length_append]; omega)
  · intro path first
    simp [commonPrefix_blank (rooted path first)]
  · intro _ path first
    rw [commonPrefix_blank (rooted path first), List.take_zero]
    refine ⟨fun inside => nonempty (List.infix_nil.mp inside), ?_⟩
    rintro ⟨n, low, high, _⟩
    simp only [List.length_nil] at high
    omega

/-- For a pattern without metacharacters the paths of the list that contain it are printed, in
order, exactly if the pattern fits and no comparison leaves the path. -/
theorem fastfindPattern_iff (argument : List Byte) (fnmatch : List Byte → List Byte → Bool)
    {buffer : List Byte} (length : buffer.length = MAXPATHLEN) {paths : List (List Byte)}
    (storable : ∀ path ∈ paths, Storable path)
    (rooted : ∀ path, paths.head? = some path → path.head? ≠ some (byte ' '))
    {pathpart : List Byte} (plain : Plain pathpart) :
    fastfindPattern fnmatch buffer (bigramArray argument ++
        putPaths (bigramArray argument) [byte ' '] 0 paths) pathpart =
        .ok (paths.filter fun path => pathpart <:+: path) ↔
      Searchable pathpart paths := by
  have noglob : ¬ (byte '*' ∈ pathpart ∨ byte '?' ∈ pathpart ∨ byte '[' ∈ pathpart) := by
    rintro (star | query | opens)
    · exact (plain.not_meta star).1 rfl
    · exact (plain.not_meta query).2.1 rfl
    · exact (plain.not_meta opens).2.2.1 rfl
  have run {subp : List Byte} (nonempty : subp ≠ []) :=
    searchLoop_file argument length storable rooted (fun _ => true) nonempty
  unfold fastfindPattern Searchable
  simp only [patprep_plain plain, noglob, decide_false, Bool.not_false, Bool.true_or]
  by_cases empty : pathpart = []
  · have slash := (run (show [byte '/'] ≠ [] by simp)).1 fun path _ => overruns_single _ path
    rw [if_pos empty, if_pos empty]
    simp only [bind, Except.bind, slash, Bool.and_true, empty, List.nil_infix, decide_true,
      Except.ok.injEq, List.filter_eq_self, List.filter_true]
    refine forall₂_congr fun path _ => ?_
    rw [decide_eq_true_eq, List.singleton_infix_iff]
  · rw [if_neg empty, if_neg empty]
    by_cases fits : pathpart.length + 1 < GLOBFREE
    · obtain ⟨prints, overruns⟩ := run empty
      rw [if_pos fits]
      simp only [bind, Except.bind]
      by_cases clean : ∀ path ∈ paths, ¬ Overruns pathpart path
      · rw [prints clean]
        exact iff_of_true (by simp) ⟨fits, clean⟩
      · have spill : ∃ path ∈ paths, Overruns pathpart path := by
          by_contra none
          exact clean fun path member spill => none ⟨path, member, spill⟩
        rw [overruns spill]
        exact iff_of_false (by simp) fun searchable => clean searchable.2
    · rw [if_neg fits]
      exact iff_of_false (by simp [bind, Except.bind]) fun searchable => fits searchable.1

/-- A pattern that is found. -/
theorem fastfindPattern_found :
    fastfindPattern (fun _ _ => false) (List.replicate MAXPATHLEN 0)
        (bigramArray [] ++ putPaths (bigramArray []) [byte ' '] 0 [ascii ['/', 'a']])
        (ascii ['/', 'a']) =
      .ok ([ascii ['/', 'a']].filter fun path => ascii ['/', 'a'] <:+: path) := by
  refine (fastfindPattern_iff [] _ List.length_replicate ?_ ?_ ?_).mpr ?_
  · intro path member
    rw [List.mem_singleton.mp member]
    exact pathName_a.storable
  · rintro path ⟨⟩
    exact pathName_a.rooted
  · decide +kernel
  · rw [Searchable, if_neg (by decide)]
    refine ⟨by decide, fun path member spill => spill.1 ?_⟩
    rw [List.mem_singleton.mp member]

/-- The longest pattern whose last zero no longer fits. -/
def longPattern : List Byte := List.replicate 99 (byte 'a')

theorem longPattern_plain : Plain longPattern := by
  intro c member
  rw [List.eq_of_mem_replicate member]
  decide

/-- For a pattern of ninety-nine characters `globfree` is left by its last zero, and for the
pattern `x/a` the comparison leaves the path `/a` in front. -/
theorem fastfindPattern_overruns :
    Plain longPattern ∧
    fastfindPattern (fun _ _ => false) (List.replicate MAXPATHLEN 0)
        (bigramArray [] ++ putPaths (bigramArray []) [byte ' '] 0 [ascii ['/', 'a']])
        longPattern ≠
      .ok ([ascii ['/', 'a']].filter fun path => longPattern <:+: path) ∧
    Plain (ascii ['x', '/', 'a']) ∧
    fastfindPattern (fun _ _ => false) (List.replicate MAXPATHLEN 0)
        (bigramArray [] ++ putPaths (bigramArray []) [byte ' '] 0 [ascii ['/', 'a']])
        (ascii ['x', '/', 'a']) ≠
      .ok ([ascii ['/', 'a']].filter fun path => ascii ['x', '/', 'a'] <:+: path) := by
  refine ⟨longPattern_plain, ?_, by decide +kernel, ?_⟩
  · have long : patprep longPattern = .error .overrun := by
      rw [patprep_plain longPattern_plain, if_neg (by decide), if_neg (by decide)]
    rw [fastfindPattern, long]
    simp [bind, Except.bind]
  · have spill : Overruns (ascii ['x', '/', 'a']) (ascii ['/', 'a']) :=
      ⟨by decide, 2, by decide, by decide, by decide⟩
    have storable : ∀ path ∈ [ascii ['/', 'a']], Storable path := by
      intro path member
      rw [List.mem_singleton.mp member]
      exact pathName_a.storable
    have rooted : ∀ path, [ascii ['/', 'a']].head? = some path →
        path.head? ≠ some (byte ' ') := by
      rintro path ⟨⟩
      exact pathName_a.rooted
    have length : (List.replicate MAXPATHLEN (0 : Byte)).length = MAXPATHLEN :=
      List.length_replicate
    have result := (searchLoop_file [] length storable rooted (fun _ => true)
      (show ascii ['x', '/', 'a'] ≠ [] by decide)).2 ⟨_, List.mem_cons_self, spill⟩
    have short : patprep (ascii ['x', '/', 'a']) = .ok (ascii ['x', '/', 'a']) := by
      rw [patprep_plain (by decide +kernel), if_neg (by decide), if_pos (by decide)]
    have noglob : ¬ (byte '*' ∈ ascii ['x', '/', 'a'] ∨ byte '?' ∈ ascii ['x', '/', 'a'] ∨
        byte '[' ∈ ascii ['x', '/', 'a']) := by decide
    rw [fastfindPattern, short]
    simp only [noglob, decide_false, Bool.not_false, Bool.true_or, bind, Except.bind]
    rw [result]
    simp

end Netbase.Locate
