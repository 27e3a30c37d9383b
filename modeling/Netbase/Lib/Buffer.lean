import Mathlib.Data.List.Basic
import Mathlib.Data.List.Infix

/-!
# Buffers of a fixed size

A buffer is a list that keeps its length.  Storing is refused where it would leave the
buffer.  What a buffer holds is said by a prefix of it: storing behind a known prefix
makes the prefix longer, and storing at the front starts a new one.
-/

namespace Netbase.Lib

variable {α : Type}

/-- Some entries of a buffer. -/
def slice (buf : List α) (p n : Nat) : List α := (buf.drop p).take n

/-- Store entries at a place; none where they would leave the buffer. -/
def store (buf : List α) (p : Nat) (xs : List α) : Option (List α) :=
  if p + xs.length ≤ buf.length then some (buf.take p ++ xs ++ buf.drop (p + xs.length)) else none

theorem store_length {buf buf' xs : List α} {p : Nat} (stored : store buf p xs = some buf') :
    buf'.length = buf.length := by
  unfold store at stored
  split at stored
  · cases stored
    simp only [List.length_append, List.length_take, List.length_drop]
    omega
  · cases stored

variable {buf xs rest : List α} {n p : Nat}

theorem slice_length (inside : p + n ≤ buf.length) :
    (slice buf p n).length = n := by
  simp only [slice, List.length_take, List.length_drop]
  omega

theorem slice_split {buf : List α} (p : Nat) {k n : Nat} (part : k ≤ n) :
    slice buf p k ++ slice buf (p + k) (n - k) = slice buf p n := by
  unfold slice
  rw [← List.drop_drop]
  have whole := (List.take_append_drop k ((buf.drop p).take n)).symm
  rw [List.take_take, min_eq_left part, List.drop_take] at whole
  exact whole.symm

theorem slice_ne_nil (inside : p + n ≤ buf.length) (positive : 0 < n) : slice buf p n ≠ [] := by
  intro empty
  have length := slice_length inside
  rw [empty] at length
  simp only [List.length_nil] at length
  omega

theorem slice_front {b : List α} (known : b <+: buf) : slice buf 0 b.length = b := by
  obtain ⟨rest, rfl⟩ := known
  simp [slice]

theorem slice_back {a b : List α} (known : a ++ b <+: buf) :
    slice buf a.length b.length = b := by
  obtain ⟨rest, rfl⟩ := known
  simp [slice, List.append_assoc]

theorem store_prefix {a : List α} (known : a <+: buf) (fits : a.length + xs.length ≤ buf.length) :
    ∃ buf', store buf a.length xs = some buf' ∧ a ++ xs <+: buf' ∧ buf'.length = buf.length := by
  obtain ⟨rest, rfl⟩ := known
  have stored : store (a ++ rest) a.length xs = some (a ++ xs ++ rest.drop xs.length) := by
    unfold store
    rw [if_pos fits]
    simp
  exact ⟨_, stored, ⟨_, rfl⟩, store_length stored⟩

theorem store_over {a b c : List α} (known : a ++ b ++ c <+: buf) (same : xs.length = b.length) :
    ∃ buf', store buf a.length xs = some buf' ∧ a ++ xs ++ c <+: buf' ∧
      buf'.length = buf.length := by
  obtain ⟨rest, rfl⟩ := known
  have inside : a.length + xs.length ≤ (a ++ b ++ c ++ rest).length := by
    simp only [List.length_append]
    omega
  have stored : store (a ++ b ++ c ++ rest) a.length xs = some (a ++ xs ++ (c ++ rest)) := by
    have behind : (a ++ (b ++ (c ++ rest))).drop (a.length + xs.length) = c ++ rest := by
      rw [same, ← List.drop_drop]
      simp
    unfold store
    rw [if_pos inside]
    simp only [List.append_assoc, behind, List.take_left]
  exact ⟨_, stored, ⟨rest, by simp [List.append_assoc]⟩, store_length stored⟩

theorem store_take {buf' : List α} (stored : store buf p xs = some buf') :
    buf'.take p = buf.take p := by
  unfold store at stored
  split at stored
  · cases stored
    rw [List.append_assoc, List.take_append_of_le_length, List.take_take, Nat.min_self]
    rw [List.length_take]
    omega
  · cases stored

theorem store_drop {buf' : List α} (stored : store buf p xs = some buf') :
    buf'.drop p = xs ++ buf.drop (p + xs.length) := by
  unfold store at stored
  split at stored
  · cases stored
    rw [List.append_assoc, List.drop_left']
    rw [List.length_take]
    omega
  · cases stored

theorem store_store {buf' buf'' ys : List α} (first : store buf p xs = some buf')
    (second : store buf' (p + xs.length) ys = some buf'') :
    store buf p (xs ++ ys) = some buf'' := by
  have length := store_length first
  unfold store at first second ⊢
  split at first
  · next fits =>
      cases first
      split at second
      · next fits' =>
          cases second
          rw [length, Nat.add_assoc, ← List.length_append] at fits'
          rw [if_pos fits']
          have front : (buf.take p ++ xs ++ buf.drop (p + xs.length)).take (p + xs.length) =
              buf.take p ++ xs := by
            refine List.take_left' ?_
            rw [List.length_append, List.length_take]
            omega
          have back : (buf.take p ++ xs ++ buf.drop (p + xs.length)).drop
              (p + xs.length + ys.length) = buf.drop (p + (xs ++ ys).length) := by
            rw [← List.drop_drop, List.drop_left', List.drop_drop, List.length_append, Nat.add_assoc]
            rw [List.length_append, List.length_take]
            omega
          rw [front, back, ← List.append_assoc (buf.take p) xs ys]
      · cases second
  · cases first

theorem store_front (fits : xs.length ≤ buf.length) :
    ∃ buf', store buf 0 xs = some buf' ∧ xs <+: buf' ∧ buf'.length = buf.length := by
  have nothing : [] <+: buf := List.nil_prefix
  have inside : ([] : List α).length + xs.length ≤ buf.length := by simpa using fits
  obtain ⟨buf', stored, known, length⟩ := store_prefix nothing inside
  exact ⟨buf', stored, by simpa using known, length⟩

/-! ## Blocks -/

structure Split (n : Nat) (xs : List α) (blocks : List (List α)) (rest : List α) : Prop where
  joined : xs = blocks.flatten ++ rest
  full : ∀ block ∈ blocks, block.length = n
  short : rest.length < n

/-- The first full blocks of some entries. -/
def takeBlocks (n : Nat) : Nat → List α → List (List α)
  | 0, _ => []
  | k + 1, xs => xs.take n :: takeBlocks n k (xs.drop n)

def fullBlocks (n : Nat) (xs : List α) : List (List α) := takeBlocks n (xs.length / n) xs

theorem Split.block {blocks : List (List α)} (long : n ≤ xs.length)
    (split : Split n (xs.drop n) blocks rest) : Split n xs (xs.take n :: blocks) rest where
  joined := by
    rw [List.flatten_cons, List.append_assoc, ← split.joined, List.take_append_drop]
  full := by
    intro block membership
    rcases List.mem_cons.mp membership with rfl | later
    · rw [List.length_take, min_eq_left long]
    · exact split.full block later
  short := split.short

theorem exists_split (positive : 0 < n) (xs : List α) :
    ∃ blocks rest, Split n xs blocks rest := by
  induction length : xs.length using Nat.strong_induction_on generalizing xs with
  | _ k ih =>
      by_cases short : xs.length < n
      · exact ⟨[], xs, rfl, by simp, short⟩
      · obtain ⟨blocks, rest, split⟩ :=
          ih (xs.drop n).length (by simp only [List.length_drop]; omega) (xs.drop n) rfl
        exact ⟨xs.take n :: blocks, rest, split.block (Nat.le_of_not_lt short)⟩

theorem Split.extend {held more : List α} {blocks blocks' : List (List α)}
    (first : Split n xs blocks held) (second : Split n (held ++ more) blocks' rest) :
    Split n (xs ++ more) (blocks ++ blocks') rest where
  joined := by
    rw [first.joined, List.append_assoc, second.joined, List.flatten_append, List.append_assoc]
  full := fun block membership =>
    (List.mem_append.mp membership).elim (first.full block) (second.full block)
  short := second.short

theorem flatten_length {blocks : List (List α)} (full : ∀ block ∈ blocks, block.length = n) :
    blocks.flatten.length = n * blocks.length := by
  induction blocks with
  | nil => rfl
  | cons block blocks ih =>
      rw [List.flatten_cons, List.length_append, List.length_cons,
        full block (List.mem_cons_self ..),
        ih fun other inside => full other (List.mem_cons_of_mem _ inside), Nat.mul_succ, Nat.add_comm]

theorem Split.count {blocks : List (List α)} (split : Split n xs blocks rest) :
    xs.length / n = blocks.length := by
  have short := split.short
  rw [split.joined, List.length_append, flatten_length split.full, Nat.mul_add_div (by omega),
    Nat.div_eq_of_lt short, Nat.add_zero]

theorem Split.rest_length {blocks : List (List α)} (split : Split n xs blocks rest) :
    rest.length = xs.length % n := by
  rw [split.joined, List.length_append, flatten_length split.full, Nat.mul_add_mod,
    Nat.mod_eq_of_lt split.short]

theorem takeBlocks_flatten (blocks : List (List α)) (rest : List α)
    (full : ∀ block ∈ blocks, block.length = n) :
    takeBlocks n blocks.length (blocks.flatten ++ rest) = blocks := by
  induction blocks with
  | nil => rfl
  | cons block blocks ih =>
      have length := full block (List.mem_cons_self ..)
      rw [List.length_cons, takeBlocks, List.flatten_cons, List.append_assoc, ← length,
        List.take_left, List.drop_left, length,
        ih fun other inside => full other (List.mem_cons_of_mem _ inside)]

theorem Split.blocks_eq {blocks : List (List α)} (split : Split n xs blocks rest) :
    blocks = fullBlocks n xs := by
  rw [fullBlocks, split.count, split.joined, takeBlocks_flatten blocks rest split.full]

end Netbase.Lib
