import Netbase.Lib.Buffer
import Netbase.Text.Lines

/-!
# Pathnames in the words of a utility

`brace_subst` copies a word of `-exec` into a buffer that is used for one file after another, and
puts the pathname in the place of every `{}`.  The buffer is made larger where a `{}` is met; what
stands in front of the first one is copied without a look at its size.
-/

namespace Netbase.Find

open Netbase.Text Netbase.Lib

/-- `MAXPATHLEN` -/
def MAXPATHLEN : Nat := 1024

/-- A buffer with the length that is recorded for it. -/
structure Area where
  bytes : List Byte
  len : Nat
  sized : bytes.length = len

/-- The buffer that `c_exec` allocates; what it holds is left from before. -/
def Area.alloc (old : Nat → Byte) : Area :=
  ⟨(List.range MAXPATHLEN).map old, MAXPATHLEN, by simp⟩

/-- The loop that doubles the length. -/
def doubled : Nat → Nat → Nat → Nat
  | 0, _, nlen => nlen
  | fuel + 1, need, nlen => if nlen < need then doubled fuel need (nlen * 2) else nlen

/-- The length that is enough for so many bytes. -/
def nextLen (need len : Nat) : Nat := doubled need need len

/-- Allocate again if more bytes are needed. -/
def Area.grow (old : Nat → Byte) (need : Nat) (s : Area) : Area :=
  ⟨s.bytes ++ (List.range (nextLen need s.len - s.len)).map old,
    s.len + (nextLen need s.len - s.len), by simp [s.sized]⟩

def Area.store (s : Area) (p : Nat) (xs : List Byte) : Option Area :=
  match stored : Lib.store s.bytes p xs with
  | some bytes => some ⟨bytes, s.len, (store_length stored).trans s.sized⟩
  | none => none

/-- Two bytes are a pair of braces. -/
def isBraces (ch next : Byte) : Bool := ch == byte '{' && next == byte '}'

/-- The loop of `brace_subst`, with the rest of the word and the place in the buffer. -/
def braceLoop (old : Nat → Byte) (path : List Byte) : List Byte → Nat → Area → Option Area
  | [], p, s => s.store p [0]
  | [ch], p, s => (s.store p [ch]).bind fun s => s.store (p + 1) [0]
  | ch :: next :: orig, p, s =>
      if isBraces ch next then
        ((s.grow old (p + path.length + orig.length + 1)).store p path).bind
          (braceLoop old path orig (p + path.length))
      else (s.store p [ch]).bind (braceLoop old path (next :: orig) (p + 1))

/-- `brace_subst` -/
def braceSubst (old : Nat → Byte) (orig path : List Byte) (s : Area) : Option Area :=
  braceLoop old path orig 0 s

/-! ## What it is for -/

/-- The parts of a word between its braces. -/
def pieces : List Byte → List (List Byte)
  | [] => [[]]
  | [ch] => [[ch]]
  | ch :: next :: orig =>
      if isBraces ch next then [] :: pieces orig
      else (pieces (next :: orig)).modifyHead (ch :: ·)

/-- The word with the pathname for every pair of braces. -/
def substituted (orig path : List Byte) : List Byte := path.intercalate (pieces orig)

/-- What stands in front of the first pair of braces. -/
def lead (orig : List Byte) : List Byte := (pieces orig).headI

theorem pieces_ne_nil (orig : List Byte) : pieces orig ≠ [] := by
  fun_induction pieces orig with
  | case1 => simp
  | case2 ch => simp
  | case3 ch next orig braces ih => simp
  | case4 ch next orig plain ih =>
      obtain ⟨piece, rest, split⟩ := List.exists_cons_of_ne_nil ih
      simp [split]

theorem pieces_plain {ch next : Byte} {orig : List Byte} (plain : isBraces ch next = false) :
    ∃ piece rest, pieces (next :: orig) = piece :: rest ∧
      pieces (ch :: next :: orig) = (ch :: piece) :: rest := by
  obtain ⟨piece, rest, split⟩ := List.exists_cons_of_ne_nil (pieces_ne_nil (next :: orig))
  refine ⟨piece, rest, split, ?_⟩
  rw [pieces, plain, split]
  rfl

theorem pieces_braces {ch next : Byte} {orig : List Byte} (braces : isBraces ch next = true) :
    pieces (ch :: next :: orig) = [] :: pieces orig := by
  rw [pieces, if_pos braces]

theorem substituted_braces {ch next : Byte} (orig path : List Byte)
    (braces : isBraces ch next = true) :
    substituted (ch :: next :: orig) path = path ++ substituted orig path := by
  rw [substituted, pieces_braces braces, List.intercalate_cons_of_ne_nil (pieces_ne_nil orig),
    List.nil_append, substituted]

theorem substituted_plain {ch next : Byte} (orig path : List Byte)
    (plain : isBraces ch next = false) :
    substituted (ch :: next :: orig) path = ch :: substituted (next :: orig) path := by
  obtain ⟨piece, rest, before, after⟩ := @pieces_plain _ _ orig plain
  rw [substituted, substituted, before, after, List.intercalate_cons_cons_left]

theorem lead_braces {ch next : Byte} (orig : List Byte) (braces : isBraces ch next = true) :
    lead (ch :: next :: orig) = [] := by
  rw [lead, pieces_braces braces]
  rfl

theorem lead_plain {ch next : Byte} (orig : List Byte) (plain : isBraces ch next = false) :
    lead (ch :: next :: orig) = ch :: lead (next :: orig) := by
  obtain ⟨piece, rest, before, after⟩ := @pieces_plain _ _ orig plain
  rw [lead, lead, before, after]
  rfl

/-! ## The size of the buffer -/

theorem le_doubled (fuel need nlen : Nat) : nlen ≤ doubled fuel need nlen := by
  induction fuel generalizing nlen with
  | zero => exact Nat.le_refl _
  | succ fuel ih =>
      rw [doubled]
      split
      · exact (Nat.le_mul_of_pos_right _ Nat.two_pos).trans (ih _)
      · exact Nat.le_refl _

theorem doubled_enough (fuel need nlen : Nat) (positive : 0 < nlen) (enough : need ≤ nlen + fuel) :
    need ≤ doubled fuel need nlen := by
  induction fuel generalizing nlen with
  | zero => exact enough
  | succ fuel ih =>
      rw [doubled]
      split
      · exact ih _ (by omega) (by omega)
      · next long => exact Nat.le_of_not_lt long

variable {old : Nat → Byte} {path done : List Byte} {s : Area}

theorem grow_len (positive : 0 < s.len) (need : Nat) :
    need ≤ (s.grow old need).len ∧ s.len ≤ (s.grow old need).len := by
  have enough := doubled_enough need need s.len positive (Nat.le_add_left _ _)
  show need ≤ s.len + (nextLen need s.len - s.len) ∧ _ ≤ s.len + (nextLen need s.len - s.len)
  unfold nextLen
  omega

theorem Area.store_behind (known : done <+: s.bytes) (xs : List Byte)
    (fits : done.length + xs.length ≤ s.len) :
    ∃ s', s.store done.length xs = some s' ∧ s'.len = s.len ∧ done ++ xs <+: s'.bytes := by
  obtain ⟨bytes, stored, longer, _⟩ := store_prefix known (s.sized ▸ fits)
  unfold Area.store
  split
  · next bytes' stored' =>
      cases stored.symm.trans stored'
      exact ⟨_, rfl, rfl, longer⟩
  · next none_ => cases stored.symm.trans none_

theorem Area.store_outside {p : Nat} (xs : List Byte) (long : ¬ p + xs.length ≤ s.len) :
    s.store p xs = none := by
  unfold Area.store
  split
  · next bytes stored =>
      rw [Lib.store, if_neg (s.sized ▸ long)] at stored
      cases stored
  · rfl

/-- Where braces are met there is room for all that follows, once the buffer has grown. -/
theorem braces_grow (known : done <+: s.bytes) (positive : 0 < s.len) (more : Nat) :
    ∃ s', (s.grow old (done.length + path.length + more + 1)).store done.length path = some s' ∧
      done ++ path <+: s'.bytes ∧ (done ++ path).length + more + 1 ≤ s'.len ∧ s.len ≤ s'.len := by
  obtain ⟨enough, least⟩ := @grow_len old s positive (done.length + path.length + more + 1)
  obtain ⟨s', stored, len, longer⟩ := Area.store_behind
    (s := s.grow old (done.length + path.length + more + 1))
    (known.trans (List.prefix_append _ _)) path (by omega)
  refine ⟨s', stored, longer, ?_, by omega⟩
  rw [List.length_append]
  omega

theorem braceLoop_fits (orig : List Byte) :
    ∀ {done : List Byte} {s : Area}, done <+: s.bytes → done.length + orig.length + 1 ≤ s.len →
      ∃ s', braceLoop old path orig done.length s = some s' ∧
        done ++ substituted orig path ++ [0] <+: s'.bytes := by
  fun_induction pieces orig with
  | case1 =>
      intro done s known room
      obtain ⟨s', stored, -, longer⟩ := s.store_behind known [0] room
      exact ⟨s', stored, by simpa [substituted, pieces] using longer⟩
  | case2 ch =>
      intro done s known room
      simp only [List.length_singleton] at room
      obtain ⟨s1, stored, len, longer⟩ := s.store_behind known [ch] (by simp only [List.length_singleton]; omega)
      obtain ⟨s2, stored', -, longest⟩ := s1.store_behind longer [0]
        (by simp only [List.length_append, List.length_singleton]; omega)
      rw [List.length_append] at stored'
      refine ⟨s2, ?_, by simpa [substituted, pieces] using longest⟩
      rw [braceLoop, stored]
      exact stored'
  | case3 ch next orig braces ih =>
      intro done s known room
      obtain ⟨s1, stored, longer, enough, -⟩ :=
        @braces_grow old path _ _ known (by omega) orig.length
      obtain ⟨s2, run, whole⟩ := ih longer enough
      rw [List.length_append] at run
      refine ⟨s2, ?_, ?_⟩
      · rw [braceLoop, if_pos braces, stored]
        exact run
      · rwa [substituted_braces orig path braces, ← List.append_assoc done]
  | case4 ch next orig plain ih =>
      intro done s known room
      have plain' : isBraces ch next = false := by simpa using plain
      simp only [List.length_cons] at room
      obtain ⟨s1, stored, len, longer⟩ := s.store_behind known [ch] (by simp only [List.length_singleton]; omega)
      obtain ⟨s2, run, whole⟩ := ih longer
        (by simp only [List.length_append, List.length_cons, List.length_nil]; omega)
      rw [List.length_append] at run
      refine ⟨s2, ?_, ?_⟩
      · rw [braceLoop, if_neg plain, stored]
        exact run
      · rw [substituted_plain orig path plain']
        simpa using whole

theorem braceLoop_lead (orig : List Byte) :
    ∀ {done : List Byte} {s : Area}, done <+: s.bytes → 0 < s.len →
      [byte '{', byte '}'] <:+: orig →
      (done.length + (lead orig).length ≤ s.len ∧
        ∃ s', braceLoop old path orig done.length s = some s' ∧
          done ++ substituted orig path ++ [0] <+: s'.bytes) ∨
      (¬ done.length + (lead orig).length ≤ s.len ∧
        braceLoop old path orig done.length s = none) := by
  fun_induction pieces orig with
  | case1 =>
      intro done s known positive inside
      exact absurd inside.length_le (by simp)
  | case2 ch =>
      intro done s known positive inside
      exact absurd inside.length_le (by simp)
  | case3 ch next orig braces ih =>
      intro done s known positive inside
      have before := known.length_le
      rw [s.sized] at before
      obtain ⟨s1, stored, longer, enough, -⟩ :=
        @braces_grow old path _ _ known positive orig.length
      obtain ⟨s2, run, whole⟩ := @braceLoop_fits old path orig _ _ longer enough
      rw [List.length_append] at run
      left
      refine ⟨by rw [lead_braces orig braces]; exact before, s2, ?_, ?_⟩
      · rw [braceLoop, if_pos braces, stored]
        exact run
      · rwa [substituted_braces orig path braces, ← List.append_assoc done]
  | case4 ch next orig plain ih =>
      intro done s known positive inside
      have plain' : isBraces ch next = false := by simpa using plain
      have behind : [byte '{', byte '}'] <:+: next :: orig := by
        rcases List.infix_cons_iff.mp inside with here | behind
        · have same := List.cons_prefix_cons.mp here
          exact absurd (by simp [isBraces, ← same.1, ← (List.cons_prefix_cons.mp same.2).1]) plain
        · exact behind
      rw [lead_plain orig plain', substituted_plain orig path plain', braceLoop, if_neg plain]
      by_cases room : done.length + [ch].length ≤ s.len
      · obtain ⟨s1, stored, len, longer⟩ := s.store_behind known [ch] room
        have place : (done ++ [ch]).length = done.length + 1 := List.length_append
        have next_ := ih longer (by omega) behind
        rw [place, len] at next_
        rw [stored, List.length_cons]
        rcases next_ with ⟨fits, s2, run, whole⟩ | ⟨long, run⟩
        · left
          exact ⟨by omega, s2, run, by simpa using whole⟩
        · right
          exact ⟨by omega, run⟩
      · right
        rw [s.store_outside [ch] room]
        rw [List.length_singleton] at room
        exact ⟨by rw [List.length_cons]; omega, rfl⟩

theorem lead_replicate (n : Nat) (rest : List Byte) :
    lead (List.replicate n (byte 'a') ++ byte '{' :: byte '}' :: rest) =
      List.replicate n (byte 'a') := by
  induction n with
  | zero => exact lead_braces rest (by decide)
  | succ n ih =>
      cases n with
      | zero => exact (lead_plain _ (by decide)).trans (congrArg _ ih)
      | succ n => exact (lead_plain _ (by decide)).trans (congrArg _ ih)

end Netbase.Find
