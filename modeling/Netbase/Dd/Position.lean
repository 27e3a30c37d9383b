import Mathlib.Tactic.Linarith
import Mathlib.Tactic.Ring

/-!
# Skipping input

`pos_in` seeks on a file, and reads what is to be skipped from a pipe or a tape.  The count of
blocks and the size of a block have 64 bits, and the variables that they are copied into are ints.
-/

namespace Netbase.Dd

/-- `INT_MAX` -/
def INT_MAX : Nat := 2147483647

/-- `UINT_MAX` -/
def UINT_MAX : Nat := 4294967295

/-- The value left after a conversion to an int. -/
def toInt (n : Int) : Int := Int.bmod n 4294967296

/-- The value left after a conversion to a `size_t`. -/
def toSize (n : Int) : Nat := (n % 18446744073709551616).toNat

/-- `SSIZE_MAX`; a request for more is refused. -/
def SSIZE_MAX : Nat := 9223372036854775807

inductive Device where
  | file
  | pipe
  | tape
  deriving DecidableEq

/-- The bytes that are still to come, and how many more than one each of the next reads gives at
most. -/
structure Source where
  left : Nat
  cuts : List Nat

/-- What is there for the next read. -/
def Source.available (s : Source) : Nat :=
  match s.cuts with
  | [] => s.left
  | c :: _ => min s.left (c + 1)

/-- `read`: how many bytes have been read. -/
def Source.read (s : Source) (request : Nat) : Option (Nat × Source) :=
  if SSIZE_MAX < request then none
  else
    let n := min request s.available
    some (n, ⟨s.left - n, s.cuts.tail⟩)

/-- How `pos_in` ends: at an offset, behind so many bytes, at the end of the input, with an error,
with the same error for ever, or with an int that overflows. -/
inductive Positioned where
  | sought (offset : Int)
  | skipped (bytes : Nat)
  | ended (bytes : Nat)
  | failed
  | stuck
  | overflow
  deriving DecidableEq

/-- The variables of the loop, with the bytes that have been read. -/
structure Position where
  src : Source
  bcnt : Int
  cnt : Int
  files : Nat
  bytes : Nat

theorem Source.read_left {s s' : Source} {request n : Nat} (read : s.read request = some (n, s')) :
    n ≤ s.left ∧ s'.left = s.left - n := by
  unfold Source.read at read
  split at read
  · cases read
  · cases read
    refine ⟨(Nat.min_le_right _ _).trans ?_, rfl⟩
    unfold Source.available
    split
    · exact Nat.le_refl _
    · exact Nat.min_le_left _ _

/-- One block less is to be skipped; none where that overflows. -/
def oneLess (cnt : Int) : Option Int := if -2147483648 < cnt then some (cnt - 1) else none

/-- The loop of `pos_in`. -/
def posLoop (dev : Device) (noerror : Bool) (dbsz : Nat) (s : Position) : Positioned :=
  if s.cnt = 0 then .skipped s.bytes
  else
    match read : s.src.read (toSize s.bcnt) with
    | none => if noerror then .stuck else .failed
    | some (0, src) =>
        if 1 < s.files then posLoop dev noerror dbsz { s with src := src, files := s.files - 1 }
        else .ended s.bytes
    | some (n + 1, src) =>
        let s' := { s with src := src, bytes := s.bytes + (n + 1) }
        if dev = .pipe ∧ s.bcnt - (n + 1 : Nat) ≠ 0 then
          posLoop dev noerror dbsz { s' with bcnt := s.bcnt - (n + 1 : Nat) }
        else
          match oneLess s.cnt with
          | none => .overflow
          | some cnt =>
              if dev = .pipe then
                posLoop dev noerror dbsz { s' with bcnt := toInt dbsz, cnt := cnt }
              else posLoop dev noerror dbsz { s' with cnt := cnt }
termination_by s.src.left + s.files
decreasing_by
  all_goals
    have left := Source.read_left read
    omega

/-- `pos_in` -/
def posIn (dev : Device) (noerror : Bool) (files offset dbsz : Nat) (src : Source) : Positioned :=
  if dev = .file then .sought (Int.bmod (offset * dbsz) 18446744073709551616)
  else posLoop dev noerror dbsz ⟨src, toInt dbsz, toInt offset, files, 0⟩

/-- What `setup` does to skip input. -/
def skipInput (dev : Device) (noerror : Bool) (files offset dbsz : Nat) (src : Source) :
    Positioned :=
  if offset ≠ 0 then posIn dev noerror files offset dbsz src else .skipped 0

/-! ## What is skipped -/

/-- Exactly the blocks have been read, or the input has ended before. -/
def SkipsExactly (skip ibs : Nat) (src : Source) (p : Positioned) : Prop :=
  p = .skipped (skip * ibs) ∨ (∃ bytes, p = .ended bytes) ∧ src.left < skip * ibs

theorem toInt_eq (n : Int) :
    toInt n = if n % 4294967296 < 2147483648 then n % 4294967296
      else n % 4294967296 - 4294967296 := by
  unfold toInt
  rw [Int.bmod_def]
  norm_num

theorem toInt_small {n : Nat} (small : n ≤ INT_MAX) : toInt n = n := by
  unfold INT_MAX at small
  refine Int.bmod_eq_of_le ?_ ?_
  · norm_num
  · norm_num
    omega

/-- The blocks that are read before a count is 0 or overflows. -/
def rounds (cnt : Int) : Nat := if 0 ≤ cnt then cnt.toNat else (cnt + 2147483649).toNat

section

variable {noerror : Bool} {files ibs : Nat} {s : Position}

theorem read_block {src : Source} {bcnt : Int} (some_ : 0 < bcnt) (small : bcnt ≤ INT_MAX) :
    ∃ n, src.read (toSize bcnt) = some (n, ⟨src.left - n, src.cuts.tail⟩) ∧ n ≤ src.left ∧
      (n : Int) ≤ bcnt ∧ (n = 0 → src.left = 0) := by
  unfold INT_MAX at small
  have request : toSize bcnt = bcnt.toNat := by
    unfold toSize
    omega
  have available : src.available = 0 → src.left = 0 := by
    unfold Source.available
    split <;> omega
  have run : src.read (toSize bcnt) =
      some (min bcnt.toNat src.available, ⟨src.left - min bcnt.toNat src.available, src.cuts.tail⟩) := by
    rw [request, Source.read, if_neg (by unfold SSIZE_MAX; omega)]
  exact ⟨_, run, (Source.read_left run).1, by omega, fun none_ => available (by omega)⟩

/-- Where the loop ends from a place in a block. -/
def pipeEnd (ibs : Nat) (s : Position) : Positioned :=
  if (rounds s.cnt - 1) * ibs + s.bcnt.toNat ≤ s.src.left then
    if 0 < s.cnt then .skipped (s.bytes + ((rounds s.cnt - 1) * ibs + s.bcnt.toNat)) else .overflow
  else .ended (s.bytes + s.src.left)

theorem pipeEnd_part {src : Source} {n : Nat} (within : n ≤ s.src.left)
    (less : (n : Int) ≤ s.bcnt) (left : src.left = s.src.left - n) :
    pipeEnd ibs { s with src := src, bytes := s.bytes + n, bcnt := s.bcnt - n } = pipeEnd ibs s := by
  have rest : (s.bcnt - n).toNat = s.bcnt.toNat - n := by omega
  simp only [pipeEnd, rest, left]
  generalize (rounds s.cnt - 1) * ibs = blocks
  have same : (blocks + (s.bcnt.toNat - n) ≤ s.src.left - n) = (blocks + s.bcnt.toNat ≤ s.src.left) := by
    refine propext ?_
    omega
  have sum : s.bytes + n + (blocks + (s.bcnt.toNat - n)) = s.bytes + (blocks + s.bcnt.toNat) := by
    omega
  have all : s.bytes + n + (s.src.left - n) = s.bytes + s.src.left := by omega
  simp only [same, sum, all]

theorem rounds_next {cnt : Int} (low : -2147483648 < cnt) (nonzero : cnt ≠ 0) (more : cnt ≠ 1) :
    rounds cnt - 1 = rounds (cnt - 1) - 1 + 1 ∧ (0 < cnt ↔ 0 < cnt - 1) := by
  unfold rounds
  split <;> split <;> omega

theorem pipeEnd_block {src : Source} {n : Nat} (within : n ≤ s.src.left) (all : s.bcnt = n)
    (left : src.left = s.src.left - n) (low : -2147483648 < s.cnt) (nonzero : s.cnt ≠ 0)
    (more : s.cnt ≠ 1) :
    pipeEnd ibs { s with src := src, bytes := s.bytes + n, bcnt := ibs, cnt := s.cnt - 1 } =
      pipeEnd ibs s := by
  obtain ⟨next, sign⟩ := rounds_next low nonzero more
  have size : ((ibs : Int)).toNat = ibs := Int.toNat_natCast ibs
  have some_ : s.bcnt.toNat = n := by omega
  simp only [pipeEnd, size, some_, left, next, Nat.succ_mul, ← sign]
  generalize (rounds (s.cnt - 1) - 1) * ibs = blocks
  have same : (blocks + ibs ≤ s.src.left - n) = (blocks + ibs + n ≤ s.src.left) := by
    refine propext ?_
    omega
  have sum : s.bytes + n + (blocks + ibs) = s.bytes + (blocks + ibs + n) := by omega
  have whole : s.bytes + n + (s.src.left - n) = s.bytes + s.src.left := by omega
  simp only [same, sum, whole]

theorem pipeEnd_empty {src : Source} {files : Nat} (some_ : 0 < s.bcnt) (none_ : s.src.left = 0)
    (left : src.left = 0) :
    pipeEnd ibs { s with src := src, files := files } = .ended s.bytes ∧
      pipeEnd ibs s = .ended s.bytes := by
  have positive : ¬ (rounds s.cnt - 1) * ibs + s.bcnt.toNat ≤ 0 := by omega
  simp only [pipeEnd, left, none_, if_neg positive, Nat.add_zero, and_self]

theorem posLoop_last {src : Source} {n : Nat} (all : s.bcnt = n) (within : n ≤ s.src.left)
    (one : s.cnt = 1) :
    posLoop .pipe noerror ibs
      { s with src := src, bytes := s.bytes + n, bcnt := ibs, cnt := s.cnt - 1 } =
      pipeEnd ibs s := by
  have some_ : s.bcnt.toNat = n := by omega
  have last : rounds 1 - 1 = 0 := by decide
  rw [posLoop, if_pos (by simp only [one]; norm_num), pipeEnd, one, last, Nat.zero_mul, some_,
    Nat.zero_add, if_pos within, if_pos Int.one_pos]

theorem pipeEnd_least {n : Nat} (all : s.bcnt = n) (within : n ≤ s.src.left)
    (least : s.cnt = -2147483648) : pipeEnd ibs s = .overflow := by
  have some_ : s.bcnt.toNat = n := by omega
  have last : rounds (-2147483648) - 1 = 0 := by decide
  rw [pipeEnd, least, last, Nat.zero_mul, some_, Nat.zero_add, if_pos within, if_neg (by decide)]

theorem posLoop_pipe (positive : 0 < ibs) (small : ibs ≤ INT_MAX) (k : Nat) :
    ∀ s : Position, s.src.left + s.files ≤ k → 0 < s.bcnt → s.bcnt ≤ ibs → s.cnt ≠ 0 →
      -2147483648 ≤ s.cnt → posLoop .pipe noerror ibs s = pipeEnd ibs s := by
  induction k with
  | zero =>
      intro s measure some_ most nonzero low
      obtain ⟨n, run, within, -, -⟩ := @read_block s.src s.bcnt some_ (by omega)
      obtain rfl : n = 0 := by omega
      rw [posLoop, if_neg nonzero, (@pipeEnd_empty ibs s s.src 0 some_ (by omega) (by omega)).2]
      split
      · next none_ => cases run.symm.trans none_
      · rw [if_neg (by omega)]
      · next read => cases run.symm.trans read
  | succ k ih =>
      intro s measure some_ most nonzero low
      obtain ⟨n, run, within, part, nothing⟩ := @read_block s.src s.bcnt some_ (by omega)
      rw [posLoop, if_neg nonzero]
      split
      · next none_ => cases run.symm.trans none_
      · next src read =>
          obtain ⟨rfl, rfl⟩ : n = 0 ∧ src = ⟨s.src.left - n, s.src.cuts.tail⟩ := by
            cases run.symm.trans read
            exact ⟨rfl, rfl⟩
          have empty := nothing rfl
          obtain ⟨after, before⟩ := @pipeEnd_empty ibs s ⟨s.src.left - 0, s.src.cuts.tail⟩
            (s.files - 1) some_ empty empty
          split
          · have measure' : s.src.left - 0 + (s.files - 1) ≤ k := by omega
            exact (ih ⟨⟨s.src.left - 0, s.src.cuts.tail⟩, s.bcnt, s.cnt, s.files - 1, s.bytes⟩
              measure' some_ most nonzero low).trans (after.trans before.symm)
          · exact before.symm
      · next n' src read =>
          obtain ⟨rfl, rfl⟩ : n = n' + 1 ∧ src = ⟨s.src.left - n, s.src.cuts.tail⟩ := by
            cases run.symm.trans read
            exact ⟨rfl, rfl⟩
          by_cases rest : s.bcnt - ((n' + 1 : Nat) : Int) = 0
          · have all : s.bcnt = ((n' + 1 : Nat) : Int) := by omega
            rw [if_neg fun more => more.2 rest, toInt_small small]
            by_cases least : -2147483648 < s.cnt
            · have step : oneLess s.cnt = some (s.cnt - 1) := if_pos least
              rw [step]
              refine Eq.trans (if_pos rfl) ?_
              by_cases one : s.cnt = 1
              · exact posLoop_last all within one
              · have measure' : s.src.left - (n' + 1) + s.files ≤ k := by omega
                have next := ih ⟨⟨s.src.left - (n' + 1), s.src.cuts.tail⟩, ibs, s.cnt - 1, s.files,
                  s.bytes + (n' + 1)⟩ measure' (by simp only; omega) (Int.le_refl _)
                  (by simp only; omega) (by simp only; omega)
                exact next.trans (pipeEnd_block within all rfl least nonzero one)
            · have step : oneLess s.cnt = none := if_neg least
              rw [step]
              exact (pipeEnd_least all within (by omega)).symm
          · have measure' : s.src.left - (n' + 1) + s.files ≤ k := by omega
            have next := ih ⟨⟨s.src.left - (n' + 1), s.src.cuts.tail⟩, s.bcnt - (n' + 1 : Nat), s.cnt,
              s.files, s.bytes + (n' + 1)⟩ measure' (by simp only; omega) (by simp only; omega)
              nonzero low
            rw [if_pos ⟨rfl, rest⟩]
            exact next.trans (pipeEnd_part within part rfl)

theorem posLoop_refused {src : Source} {bcnt cnt : Int} {bytes : Nat} (nonzero : cnt ≠ 0)
    (refused : src.read (toSize bcnt) = none) :
    posLoop .pipe noerror ibs ⟨src, bcnt, cnt, files, bytes⟩ =
      if noerror then .stuck else .failed := by
  rw [posLoop, if_neg nonzero]
  split
  · rfl
  · next read => cases refused.symm.trans read
  · next read => cases refused.symm.trans read

theorem read_refused {src : Source} (large : INT_MAX < ibs) (most : ibs ≤ UINT_MAX) :
    src.read (toSize (toInt ibs)) = none := by
  have request : SSIZE_MAX < toSize (toInt ibs) := by
    rw [toInt_eq]
    unfold INT_MAX at large
    unfold UINT_MAX at most
    unfold SSIZE_MAX toSize
    split <;> omega
  rw [Source.read, if_pos request]

theorem posLoop_start {src : Source} {cnt : Int} (positive : 0 < ibs) (small : ibs ≤ INT_MAX)
    (nonzero : cnt ≠ 0) (low : -2147483648 ≤ cnt) :
    posLoop .pipe noerror ibs ⟨src, toInt ibs, cnt, files, 0⟩ =
      if rounds cnt * ibs ≤ src.left then
        if 0 < cnt then .skipped (rounds cnt * ibs) else .overflow
      else .ended src.left := by
  have some_ : 0 < rounds cnt := by
    unfold rounds
    split <;> omega
  have blocks : (rounds cnt - 1) * ibs + ibs = rounds cnt * ibs := by
    rw [← Nat.succ_mul, Nat.succ_eq_add_one, Nat.sub_add_cancel some_]
  rw [toInt_small small, posLoop_pipe positive small _ _ (Nat.le_refl _) (by simp only; omega)
    (Int.le_refl _) nonzero low, pipeEnd, Int.toNat_natCast, blocks, Nat.zero_add, Nat.zero_add]

end

theorem rounds_le (skip : Nat) : rounds (toInt skip) ≤ skip := by
  rw [toInt_eq]
  unfold rounds
  split <;> split <;> omega

theorem toInt_low (skip : Nat) : -2147483648 ≤ toInt skip := by
  rw [toInt_eq]
  split <;> omega

theorem rounds_eq_iff {skip : Nat} (positive : 0 < toInt skip) :
    rounds (toInt skip) = skip ↔ skip ≤ INT_MAX := by
  rw [rounds, if_pos (Int.le_of_lt positive), toInt_eq] at *
  unfold INT_MAX
  split at positive <;> split <;> omega

theorem not_skipsExactly {skip ibs : Nat} {src : Source} {p : Positioned}
    (other : ∀ bytes, p ≠ .skipped bytes ∧ p ≠ .ended bytes) : ¬ SkipsExactly skip ibs src p := by
  rintro (same | ⟨⟨bytes, ended⟩, -⟩)
  · exact (other _).1 same
  · exact (other bytes).2 ended

/-- Exactly the blocks are skipped on a pipe if the size of a block and the count are ints, or the
input ends before the blocks that are left of the count. -/
theorem skipInput_exact_iff {noerror : Bool} {files skip ibs : Nat} {src : Source}
    (positive : 0 < ibs) (most : ibs ≤ UINT_MAX) :
    SkipsExactly skip ibs src (skipInput .pipe noerror files skip ibs src) ↔
      skip = 0 ∨ ibs ≤ INT_MAX ∧ (skip ≤ INT_MAX ∨ src.left < rounds (toInt skip) * ibs) := by
  by_cases none_ : skip = 0
  · subst none_
    refine iff_of_true (.inl ?_) (.inl rfl)
    rw [Nat.zero_mul]
    rfl
  have run : skipInput .pipe noerror files skip ibs src =
      posLoop .pipe noerror ibs ⟨src, toInt ibs, toInt skip, files, 0⟩ :=
    (if_pos none_).trans (if_neg (by decide))
  have some_ : 0 < skip * ibs := Nat.mul_pos (Nat.pos_of_ne_zero none_) positive
  rw [run, or_iff_right none_]
  by_cases zero : toInt skip = 0
  · have whole : ¬ skip ≤ INT_MAX := fun small => by
      have same := toInt_small small
      omega
    have nothing : rounds (toInt skip) * ibs = 0 := by rw [zero]; exact Nat.zero_mul ibs
    rw [posLoop, if_pos zero, nothing]
    refine iff_of_false (fun exact_ => ?_) fun holds => by omega
    obtain same | ⟨⟨bytes, ended⟩, -⟩ := exact_
    · exact some_.ne (Positioned.skipped.inj same)
    · cases ended
  by_cases small : ibs ≤ INT_MAX
  · have within : rounds (toInt skip) * ibs ≤ skip * ibs := Nat.mul_le_mul_right ibs (rounds_le skip)
    rw [posLoop_start positive small zero (toInt_low skip), and_iff_right small]
    by_cases enough : rounds (toInt skip) * ibs ≤ src.left
    · rw [if_pos enough, or_iff_left (by omega)]
      by_cases sign : 0 < toInt skip
      · rw [if_pos sign, ← rounds_eq_iff sign]
        refine ⟨fun exact_ => ?_, fun same => .inl (by rw [same])⟩
        obtain same | ⟨⟨bytes, ended⟩, -⟩ := exact_
        · exact Nat.eq_of_mul_eq_mul_right positive (Positioned.skipped.inj same)
        · cases ended
      · rw [if_neg sign]
        refine iff_of_false (not_skipsExactly fun bytes => ⟨nofun, nofun⟩) fun small_ => ?_
        have same := toInt_small small_
        omega
    · rw [if_neg enough]
      have before : src.left < rounds (toInt skip) * ibs := Nat.lt_of_not_le enough
      exact iff_of_true (.inr ⟨⟨_, rfl⟩, before.trans_le within⟩) (.inr before)
  · have refused : src.read (toSize (toInt ibs)) = none := read_refused (Nat.lt_of_not_le small) most
    rw [posLoop_refused zero refused]
    refine iff_of_false (not_skipsExactly fun bytes => ?_) fun holds => small holds.1
    cases noerror <;> exact ⟨nofun, nofun⟩

/-- Two blocks are skipped in two reads. -/
theorem skipInput_exact_two :
    SkipsExactly 2 512 ⟨4096, []⟩ (skipInput .pipe false 1 2 512 ⟨4096, []⟩) :=
  (skipInput_exact_iff (by decide) (by decide)).mpr (.inr ⟨by decide, .inl (by decide)⟩)

/-- Nothing is skipped for a count whose lower bits are all 0. -/
theorem skipInput_none :
    ¬ SkipsExactly 4294967296 1 ⟨4294967297, []⟩
      (skipInput .pipe false 1 4294967296 1 ⟨4294967297, []⟩) := by
  have zero : toInt 4294967296 = 0 := by decide
  have run : skipInput .pipe false 1 4294967296 1 ⟨4294967297, []⟩ = .skipped 0 := by
    rw [skipInput, if_pos (by omega), posIn, if_neg (by decide), posLoop]
    simp only [Nat.cast_ofNat, zero, if_true]
  rw [run]
  rintro (same | ⟨⟨bytes, ended⟩, -⟩)
  · have same := Positioned.skipped.inj same
    omega
  · cases ended

end Netbase.Dd
