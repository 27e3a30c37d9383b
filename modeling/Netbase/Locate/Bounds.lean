import Mathlib.Tactic
import Netbase.Locate.Fastfind

/-!
# The writes of the reader

A database is a list of entries, each a difference of the count and a residue.  The loop over a
residue tests its place in the path buffer before every character, but not before the end of the
path is written: an entry without a residue ends the path wherever its count leads to, and a bigram
in the last two places leaves no place for the end.
-/

namespace Netbase.Locate

open Netbase.Text

/-! ## Entries -/

structure Entry where
  diffcount : Int
  residue : List Byte
  deriving Repr, DecidableEq

theorem getw_length (stream : List Byte) : (getw stream).2.length ≤ stream.length := by
  unfold getw
  split <;> simp only [List.length_cons, List.length_nil] <;> omega

def readCount (c : Byte) (stream : List Byte) : Int × List Byte :=
  if c = SWITCH then getw stream else (c.toNat, stream)

theorem readCount_length (c : Byte) (stream : List Byte) :
    (readCount c stream).2.length ≤ stream.length := by
  unfold readCount
  split
  · exact getw_length stream
  · exact Nat.le_refl _

/-- The characters and bigrams in front of the next count. -/
def residueOf (stream : List Byte) : List Byte := stream.takeWhile (SWITCH < ·)

def behindResidue (stream : List Byte) : List Byte := stream.dropWhile (SWITCH < ·)

def entries : List Byte → List Entry
  | [] => []
  | c :: stream =>
      ⟨(readCount c stream).1 - OFFSET, residueOf (readCount c stream).2⟩ ::
        entries (behindResidue (readCount c stream).2)
  termination_by stream => stream.length
  decreasing_by
    have shorter := (List.dropWhile_sublist (SWITCH < ·) (l := (readCount c stream).2)).length_le
    have read := readCount_length c stream
    simp only [behindResidue, List.length_cons]
    omega

/-- The places that a residue takes up in the path. -/
def width (residue : List Byte) : Nat :=
  (residue.map fun c => if c < PARITY then 1 else 2).sum

@[simp] theorem width_nil : width [] = 0 := rfl

@[simp] theorem width_cons (c : Byte) (residue : List Byte) :
    width (c :: residue) = (if c < PARITY then 1 else 2) + width residue := rfl

theorem width_pos {residue : List Byte} (more : residue ≠ []) : 0 < width residue := by
  cases residue with
  | nil => exact absurd rfl more
  | cons c residue =>
      rw [width_cons]
      split <;> omega

/-- An entry where its count has led to. -/
structure Placed where
  count : Int
  residue : List Byte
  deriving Repr, DecidableEq

def placed : Int → List Entry → List Placed
  | _, [] => []
  | count, e :: entries => ⟨count + e.diffcount, e.residue⟩ :: placed (count + e.diffcount) entries

/-- The place of the end of the path. -/
def Placed.last (e : Placed) : Int := e.count + width e.residue

/-- The path and its end lie in the buffer, and the path is not empty. -/
def Placed.Accepted (e : Placed) : Prop := 0 ≤ e.count ∧ 0 < e.last ∧ e.last < MAXPATHLEN

/-- The end of the path is written outside the buffer: there is no residue to be tested, or a
bigram has taken up the last two places. -/
def Placed.Overruns (e : Placed) : Prop :=
  e.residue = [] ∧ ¬ (0 ≤ e.count ∧ e.count < MAXPATHLEN) ∨
    0 ≤ e.count ∧ e.last = MAXPATHLEN ∧ ∃ c, e.residue.getLast? = some c ∧ ¬ c < PARITY

instance (e : Placed) : Decidable e.Accepted :=
  inferInstanceAs (Decidable (_ ∧ _ ∧ _))

def Bounded (count : Int) (entries : List Entry) : Prop :=
  ∀ front e back, placed count entries = front ++ e :: back → (∀ f ∈ front, f.Accepted) →
    ¬ e.Overruns

theorem bounded_nil (count : Int) : Bounded count [] := by
  intro front e back split
  cases front <;> cases split

theorem bounded_cons (count : Int) (e : Entry) (entries : List Entry) :
    Bounded count (e :: entries) ↔
      ¬ (Placed.mk (count + e.diffcount) e.residue).Overruns ∧
        ((Placed.mk (count + e.diffcount) e.residue).Accepted →
          Bounded (count + e.diffcount) entries) := by
  constructor
  · intro bounded
    refine ⟨bounded [] _ _ rfl fun f member => absurd member List.not_mem_nil, ?_⟩
    intro accepted front f back split before
    refine bounded (⟨count + e.diffcount, e.residue⟩ :: front) f back (by rw [placed, split]; rfl) ?_
    intro g member
    rcases List.mem_cons.mp member with rfl | later
    · exact accepted
    · exact before g later
  · rintro ⟨first, rest⟩ front f back split before
    cases front with
    | nil =>
        rw [placed, List.nil_append, List.cons.injEq] at split
        rwa [← split.1]
    | cons g front =>
        rw [placed, List.cons_append, List.cons.injEq] at split
        have accepted := before g List.mem_cons_self
        rw [← split.1] at accepted
        exact rest accepted front f back split.2 fun g member =>
          before g (List.mem_cons_of_mem _ member)

/-! ## One entry -/

variable {c : Byte} {result : Except Fault (Option Byte × List Byte × List Byte × Int)}
  {stream : List Byte}

theorem behindResidue_low (stream : List Byte) (low : c ≤ SWITCH) :
    residueOf (c :: stream) = [] ∧ behindResidue (c :: stream) = c :: stream := by
  have stop : ¬ decide (SWITCH < c) = true := by
    rw [decide_eq_true_eq]
    exact UInt8.not_lt.mpr low
  exact ⟨List.takeWhile_cons_of_neg stop, List.dropWhile_cons_of_neg stop⟩

theorem behindResidue_high (stream : List Byte) (high : ¬ c ≤ SWITCH) :
    residueOf (c :: stream) = c :: residueOf stream ∧
      behindResidue (c :: stream) = behindResidue stream := by
  have go : decide (SWITCH < c) = true := by
    rw [decide_eq_true_eq]
    exact UInt8.not_le.mp high
  exact ⟨List.takeWhile_cons_of_pos go, List.dropWhile_cons_of_pos go⟩

/-- The residue has been laid over the path, whose end lies behind it, at most one place behind the
buffer. -/
def Laid (stream : List Byte) (p : Int)
    (result : Except Fault (Option Byte × List Byte × List Byte × Int)) : Prop :=
  ∃ path, path.length = MAXPATHLEN ∧
    result = .ok ((behindResidue stream).head?, (behindResidue stream).tail, path,
      p + width (residueOf stream)) ∧
    (residueOf stream = [] ∨ 0 ≤ p ∧ (p + width (residueOf stream) < MAXPATHLEN ∨
      p + width (residueOf stream) = MAXPATHLEN ∧
        ∃ c, (residueOf stream).getLast? = some c ∧ ¬ c < PARITY))

/-- The residue has been refused at one of its places. -/
def Refused (stream : List Byte) (p : Int)
    (result : Except Fault (Option Byte × List Byte × List Byte × Int)) : Prop :=
  result = .error .invalid ∧ residueOf stream ≠ [] ∧
    (p < 0 ∨ MAXPATHLEN < p + width (residueOf stream) ∨
      p + width (residueOf stream) = MAXPATHLEN ∧
        ∃ c, (residueOf stream).getLast? = some c ∧ c < PARITY)

theorem getLast?_residue {residue : List Byte} (more : residue ≠ []) :
    (c :: residue).getLast? = residue.getLast? := by
  cases residue with
  | nil => exact absurd rfl more
  | cons d residue => rfl

theorem overlay_tested {p : Int} (high : ¬ c ≤ SWITCH) (inside : 0 ≤ p ∧ p < MAXPATHLEN - 1)
    (rest : Laid stream (p + width [c]) result ∨ Refused stream (p + width [c]) result) :
    Laid (c :: stream) p result ∨ Refused (c :: stream) p result := by
  obtain ⟨residue, behind⟩ := behindResidue_high stream high
  have whole : p + (width (c :: residueOf stream) : Int) =
      p + (width [c] : Int) + (width (residueOf stream) : Int) := by
    rw [width_cons, width_cons, width_nil]
    omega
  have one : width [c] = if c < PARITY then 1 else 2 := Nat.add_zero _
  unfold Laid Refused at *
  rw [residue, behind, whole]
  rcases rest with ⟨path, length, same, places⟩ | ⟨same, more, places⟩
  · refine Or.inl ⟨path, length, same, Or.inr ⟨inside.1, ?_⟩⟩
    rcases places with none_ | ⟨-, within | ⟨full, d, last, bigram⟩⟩
    · rw [none_, width_nil, one]
      split
      · exact Or.inl (by omega)
      next bigram =>
        by_cases full : p = MAXPATHLEN - 2
        · exact Or.inr ⟨by omega, c, rfl, bigram⟩
        · exact Or.inl (by omega)
    · exact Or.inl within
    · have more : residueOf stream ≠ [] := by
        intro none_
        rw [none_] at last
        cases last
      exact Or.inr ⟨full, d, (getLast?_residue more).trans last, bigram⟩
  · refine Or.inr ⟨same, List.cons_ne_nil _ _, Or.inr ?_⟩
    rw [getLast?_residue more]
    rcases places with low | places
    · omega
    · exact places

theorem overlay_cases (bigram1 bigram2 : List Byte) (stream : List Byte) :
    ∀ {path : List Byte} {p : Int}, path.length = MAXPATHLEN →
      Laid stream p (overlay bigram1 bigram2 stream path p) ∨
        Refused stream p (overlay bigram1 bigram2 stream path p) := by
  induction stream with
  | nil =>
      intro path p length
      refine Or.inl ⟨path, length, ?_, Or.inl rfl⟩
      simp [overlay, behindResidue, residueOf]
  | cons c stream ih =>
      intro path p length
      rw [overlay]
      by_cases low : c ≤ SWITCH
      · obtain ⟨residue, behind⟩ := behindResidue_low stream low
        refine Or.inl ⟨path, length, ?_, Or.inl residue⟩
        rw [if_pos low, behind, residue, width_nil]
        simp
      · rw [if_neg low]
        by_cases outside : p < 0 ∨ p ≥ MAXPATHLEN - 1
        · rw [if_pos outside]
          obtain ⟨residue, -⟩ := behindResidue_high stream low
          refine Or.inr ⟨rfl, by rw [residue]; exact List.cons_ne_nil _ _, ?_⟩
          rw [residue]
          rcases outside with before | behind
          · exact Or.inl before
          · right
            rw [width_cons]
            by_cases single : c < PARITY ∧ residueOf stream = [] ∧ p = MAXPATHLEN - 1
            · refine Or.inr ⟨?_, c, ?_, single.1⟩
              · rw [if_pos single.1, single.2.1, single.2.2, width_nil]
                omega
              · rw [single.2.1]
                rfl
            · left
              by_cases last : residueOf stream = []
              · rw [last, width_nil]
                split
                next char =>
                  have apart : p ≠ MAXPATHLEN - 1 := fun full => single ⟨char, last, full⟩
                  omega
                · omega
              · have more := width_pos last
                split <;> omega
        · rw [if_neg outside]
          have inside : 0 ≤ p ∧ p < MAXPATHLEN - 1 := by omega
          obtain ⟨q, rfl⟩ : ∃ q : Nat, p = q := ⟨p.toNat, by omega⟩
          by_cases char : c < PARITY
          · rw [if_pos char, putPath_inside (by omega)]
            have next := @ih (path.set q c) ((q : Int) + 1) (by simpa using length)
            refine overlay_tested low inside ?_
            rw [width_cons, if_pos char, width_nil]
            exact next
          · rw [if_neg char]
            simp only
            rw [putPath_inside (by omega)]
            simp only [bind, Except.bind]
            rw [show (q : Int) + 1 = (q + 1 : Nat) by omega,
              putPath_inside (by rw [List.length_set]; omega)]
            refine overlay_tested low inside ?_
            rw [width_cons, if_neg char, width_nil]
            exact ih (by simpa using length)

/-! ## The stream -/

theorem behindResidue_length (stream : List Byte) :
    (behindResidue stream).length ≤ stream.length :=
  (List.dropWhile_sublist _).length_le

theorem Refused.entry {count : Int} (refused : Refused stream count result) :
    ¬ (Placed.mk count (residueOf stream)).Overruns ∧
      ¬ (Placed.mk count (residueOf stream)).Accepted := by
  obtain ⟨-, more, places⟩ := refused
  unfold Placed.Overruns Placed.Accepted Placed.last
  simp only
  constructor
  · rintro (⟨none_, -⟩ | ⟨low, full, c, last, bigram⟩)
    · exact more none_
    · rcases places with before | behind | ⟨-, d, last', char⟩
      · omega
      · omega
      · rw [last] at last'
        cases last'
        exact bigram char
  · rintro ⟨low, -, high⟩
    omega

theorem Laid.entry {count : Int} (laid : Laid stream count result) :
    (Placed.mk count (residueOf stream)).Overruns ↔
      ¬ (0 ≤ count + (width (residueOf stream) : Int) ∧
        count + (width (residueOf stream) : Int) < MAXPATHLEN) := by
  obtain ⟨path, -, -, places⟩ := laid
  unfold Placed.Overruns Placed.last
  simp only
  constructor
  · rintro (⟨none_, outside⟩ | ⟨-, full, -⟩)
    · rw [none_, width_nil]
      omega
    · omega
  · intro outside
    rcases places with none_ | ⟨low, within | full⟩
    · rw [none_, width_nil] at outside
      exact Or.inl ⟨none_, by omega⟩
    · omega
    · exact Or.inr ⟨low, full⟩

theorem readLoop_entry (bigram1 bigram2 : List Byte) (fuel : Nat) (c : Byte)
    (stream path : List Byte) (count : Int) :
    readLoop bigram1 bigram2 (fuel + 1) (some c) stream path count =
      (do
        let (next, behind, laid, p) ← overlay bigram1 bigram2 (readCount c stream).2 path
          (count + (readCount c stream).1 - OFFSET)
        let ended ← putPath laid p 0
        if p - 1 < 0 ∨ count + (readCount c stream).1 - OFFSET < 0 then .error .invalid
        else do
          let paths ← readLoop bigram1 bigram2 fuel next behind ended
            (count + (readCount c stream).1 - OFFSET)
          .ok (ended.takeWhile (· ≠ 0) :: paths)) := rfl

theorem readLoop_overrun_iff (bigram1 bigram2 : List Byte) (fuel : Nat) :
    ∀ {stream path : List Byte} {count : Int}, path.length = MAXPATHLEN →
      stream.length ≤ fuel →
      (readLoop bigram1 bigram2 fuel stream.head? stream.tail path count = .error .overrun ↔
        ¬ Bounded count (entries stream)) := by
  induction fuel with
  | zero =>
      intro stream path count _ enough
      have none_ : stream = [] := List.eq_nil_of_length_eq_zero (Nat.le_zero.mp enough)
      subst none_
      rw [entries]
      exact iff_of_false (fun same => nomatch same) fun other => other (bounded_nil count)
  | succ fuel ih =>
      intro stream path count length enough
      cases stream with
      | nil =>
          rw [entries]
          exact iff_of_false (fun same => nomatch same) fun other => other (bounded_nil count)
      | cons c stream =>
          have shorter : (behindResidue (readCount c stream).2).length ≤ fuel := by
            have read := readCount_length c stream
            have rest := behindResidue_length (readCount c stream).2
            simp only [List.length_cons] at enough
            omega
          rw [entries, bounded_cons, List.head?_cons, List.tail_cons, readLoop_entry]
          have place : count + ((readCount c stream).1 - OFFSET) =
              count + (readCount c stream).1 - OFFSET := by omega
          simp only [place]
          generalize count + (readCount c stream).1 - OFFSET = count'
          generalize (readCount c stream).2 = stream' at shorter ⊢
          rcases overlay_cases bigram1 bigram2 stream' (p := count') length with laid | refused
          · have overruns := laid.entry
            obtain ⟨path', length', same, -⟩ := laid
            rw [same]
            simp only [bind, Except.bind]
            by_cases inside : 0 ≤ count' + (width (residueOf stream') : Int) ∧
              count' + (width (residueOf stream') : Int) < MAXPATHLEN
            · rw [putPath, if_pos (by rw [length']; exact inside)]
              simp only
              have stays := overruns.not.mpr (not_not_intro inside)
              by_cases rejected : count' + (width (residueOf stream') : Int) - 1 < 0 ∨ count' < 0
              · rw [if_pos rejected]
                refine iff_of_false (fun same => nomatch same) (not_not_intro ⟨stays, ?_⟩)
                rintro ⟨low, some_, -⟩
                unfold Placed.last at some_
                simp only at low some_
                omega
              · rw [if_neg rejected]
                have accepted : (Placed.mk count' (residueOf stream')).Accepted := by
                  unfold Placed.Accepted Placed.last
                  simp only
                  omega
                have stored : (path'.set (count' + (width (residueOf stream') : Int)).toNat
                    0).length = MAXPATHLEN := by
                  rw [List.length_set, length']
                have next := @ih _ _ count' stored shorter
                rw [and_iff_right stays, imp_iff_right accepted, ← next]
                cases readLoop bigram1 bigram2 fuel (behindResidue stream').head?
                  (behindResidue stream').tail
                  (path'.set (count' + (width (residueOf stream') : Int)).toNat 0) count' with
                | ok paths => exact iff_of_false (fun same => nomatch same) fun same => nomatch same
                | error fault => exact Iff.rfl
            · rw [putPath, if_neg (by rw [length']; exact inside)]
              exact iff_of_true rfl fun bounded => bounded.1 (overruns.mpr inside)
          · obtain ⟨stays, other⟩ := refused.entry
            rw [refused.1]
            exact iff_of_false (fun same => nomatch same)
              (not_not_intro ⟨stays, fun accepted => absurd accepted other⟩)

/-- The paths are read within the buffer if no entry behind accepted ones has the end of its path
outside it with no test in front. -/
theorem fastfind_bounded_iff {buffer : List Byte} (length : buffer.length = MAXPATHLEN)
    (file : List Byte) :
    fastfind buffer file ≠ .error .overrun ↔ Bounded 0 (entries (file.drop (NBG * 2))) := by
  have enough : (file.drop (NBG * 2)).length ≤ file.length + 1 := by
    rw [List.length_drop]
    omega
  exact (readLoop_overrun_iff _ _ _ length enough).not.trans not_not

theorem fastfind_bounded_one :
    (List.replicate MAXPATHLEN (0 : Byte)).length = MAXPATHLEN ∧
      (fastfind (List.replicate MAXPATHLEN 0) (List.replicate (NBG * 2) 0 ++ [14, byte '/']) ≠
          .error .overrun ↔
        Bounded 0 (entries ((List.replicate (NBG * 2) 0 ++ [14, byte '/']).drop (NBG * 2)))) :=
  ⟨List.length_replicate, fastfind_bounded_iff List.length_replicate _⟩

theorem outside_entry {count : Int} (residue : List Byte)
    (outside : count < 0 ∨ MAXPATHLEN < count) :
    ¬ (Placed.mk count residue).Accepted ∧
      ((Placed.mk count residue).Overruns ↔ residue = []) := by
  unfold Placed.Accepted Placed.Overruns Placed.last
  simp only
  refine ⟨by omega, fun overruns => ?_, fun none_ => Or.inl ⟨none_, by omega⟩⟩
  rcases overruns with ⟨none_, -⟩ | ⟨low, full, -⟩
  · exact none_
  · omega

/-- A count is kept in an `int`; one that wraps around leads from one side of the buffer to the
other, so that the exact count tells the same. -/
theorem count_wrap {count word : Int} (inside : 0 ≤ count ∧ count < MAXPATHLEN)
    (low : -2147483648 ≤ word) (high : word < 2147483648) (residue : List Byte) :
    let exact_ := Placed.mk (count + (word - OFFSET)) residue
    let wrapped := Placed.mk (Int.bmod (count + (word - OFFSET)) 4294967296) residue
    (wrapped.Accepted ↔ exact_.Accepted) ∧ (wrapped.Overruns ↔ exact_.Overruns) := by
  intro exact_ wrapped
  have sides : Int.bmod (count + (word - OFFSET)) 4294967296 = count + (word - OFFSET) ∨
      (count + (word - OFFSET) < 0 ∨ MAXPATHLEN < count + (word - OFFSET)) ∧
        (Int.bmod (count + (word - OFFSET)) 4294967296 < 0 ∨
          MAXPATHLEN < Int.bmod (count + (word - OFFSET)) 4294967296) := by
    unfold MAXPATHLEN OFFSET at *
    rw [Int.bmod_def]
    split <;> omega
  rcases sides with same | ⟨side, other⟩
  · simp only [exact_, wrapped, same, and_self]
  · obtain ⟨refused, ends⟩ := outside_entry residue side
    obtain ⟨refused', ends'⟩ := outside_entry residue other
    exact ⟨iff_of_false refused' refused, ends'.trans ends.symm⟩

/-- A database of one entry that leads in front of the buffer. -/
def shortDatabase : List Byte := List.replicate (NBG * 2) 0 ++ [0]

theorem shortDatabase_overrun :
    ¬ ∀ buffer file, buffer.length = MAXPATHLEN → fastfind buffer file ≠ .error .overrun := by
  intro bounded
  refine bounded (List.replicate MAXPATHLEN 0) shortDatabase List.length_replicate ?_
  unfold fastfind shortDatabase
  have head : (List.replicate (NBG * 2) (0 : Byte) ++ [0]).drop (NBG * 2) = [0] :=
    List.drop_left' List.length_replicate
  rw [head, readLoop_overrun_iff _ _ _ List.length_replicate (by simp), entries, bounded_cons]
  rintro ⟨stays, -⟩
  exact stays (Or.inl ⟨rfl, fun inside => absurd inside.1 (by decide)⟩)

end Netbase.Locate
