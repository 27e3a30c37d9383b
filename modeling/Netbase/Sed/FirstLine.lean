import Netbase.Text.Lines

/-!
# The first line of the pattern space

`P` writes the pattern space up to its first newline, and `D` deletes it and runs the script
again.  Both look for the newline in one byte less than the space holds, so a newline that is its
last byte is not seen; `P` does not ask whether the space holds anything.
-/

namespace Netbase.Sed

open Netbase.Text

/-- `SPACE`: the block at `space`, of which the first `len` bytes are the text. -/
structure Space where
  space : List Byte
  len : Nat
  appendNewline : Bool
  inside : len ≤ space.length
  small : space.length < 18446744073709551616

def Space.text (ps : Space) : List Byte := ps.space.take ps.len

/-- What a search comes to: the place of the byte, or the block ends before the count does. -/
inductive Memchr where
  | found (k : Nat)
  | missing
  | offEnd
  deriving Repr, DecidableEq

def Memchr.succ : Memchr → Memchr
  | .found k => .found (k + 1)
  | .missing => .missing
  | .offEnd => .offEnd

def memchr : List Byte → Byte → Nat → Memchr
  | _, _, 0 => .missing
  | [], _, _ + 1 => .offEnd
  | b :: block, c, n + 1 => if b = c then .found 0 else (memchr block c n).succ

/-- How many bytes have been looked at. -/
def Memchr.looked (block : List Byte) (n : Nat) : Memchr → Nat
  | .found k => k + 1
  | .missing => n
  | .offEnd => block.length + 1

/-- `psl - 1` in a `size_t`. -/
def lessOne (psl : Nat) : Nat := (psl + 18446744073709551615) % 18446744073709551616

/-- The search that `P` and `D` make. -/
def Space.search (ps : Space) : Memchr := memchr ps.space nl (lessOne ps.len)

def Space.searched (ps : Space) : Nat := ps.search.looked ps.space (lessOne ps.len)

/-- `OUT`, for the text and the flag that are set at the time. -/
def out (text : List Byte) (psanl : Bool) : List Byte := text ++ if psanl then [nl] else []

/-- The command `P`: what is written, unless the search leaves the block. -/
def Space.commandP (ps : Space) : Option (List Byte) :=
  match ps.search with
  | .found k => some (out (ps.space.take k) true)
  | .missing => some (out ps.text ps.appendNewline)
  | .offEnd => none

/-- Where the script goes on behind `D`: at its top with what is left, or with a new cycle. -/
inductive Continued where
  | top (ps : Space)
  | new

/-- `psl -= (p + 1) - ps` and `memmove` of what is left to the front. -/
def Space.removeFirst (ps : Space) (k : Nat) : Space where
  space := (ps.text.drop (k + 1)) ++ ps.space.drop (ps.len - (k + 1))
  len := ps.len - (k + 1)
  appendNewline := ps.appendNewline
  inside := by
    have inside := ps.inside
    simp only [text, List.length_append, List.length_drop, List.length_take]
    omega
  small := by
    have small := ps.small
    have inside := ps.inside
    simp only [text, List.length_append, List.length_drop, List.length_take]
    omega

/-- The command `D`; an empty space is not searched. -/
def Space.commandD (ps : Space) : Option Continued :=
  if ps.len = 0 then some .new
  else
    match ps.search with
    | .found k => some (.top (ps.removeFirst k))
    | .missing => some .new
    | .offEnd => none

/-! ## What they are for -/

/-- `P` writes the text up to its first newline, and reads nothing behind the text. -/
structure Space.PrintsFirst (ps : Space) : Prop where
  output : ps.commandP = some
    (if nl ∈ ps.text then out (ps.text.takeWhile (· ≠ nl)) true else out ps.text ps.appendNewline)
  within : ps.searched ≤ ps.len

/-- `D` leaves what follows the first newline and runs the script again; without a newline it
ends the cycle.  It reads nothing behind the text. -/
structure Space.DeletesFirst (ps : Space) : Prop where
  restart : ∀ front rest, nl ∉ front → ps.text = front ++ nl :: rest →
    ∃ left, ps.commandD = some (.top left) ∧ left.text = rest ∧
      left.appendNewline = ps.appendNewline
  finish : nl ∉ ps.text → ps.commandD = some .new
  within : ps.len ≠ 0 → ps.searched ≤ ps.len

/-- The only newline is the last byte. -/
def Space.EndsOnly (ps : Space) : Prop := ∃ front, nl ∉ front ∧ ps.text = front ++ [nl]

/-! ## The search -/

theorem memchr_found {c : Byte} {block : List Byte} {n k : Nat} :
    memchr block c n = .found k ↔
      k < n ∧ ∃ back, block = block.take k ++ c :: back ∧ c ∉ block.take k := by
  induction block generalizing n k with
  | nil => cases n <;> simp [memchr]
  | cons b block ih =>
      cases n with
      | zero => simp [memchr]
      | succ n =>
          rw [memchr]
          by_cases same : b = c
          · subst same
            cases k <;> simp
          · rw [if_neg same]
            cases k with
            | zero =>
                have other : (memchr block c n).succ ≠ .found 0 := by
                  cases memchr block c n <;> simp [Memchr.succ]
                simp [other, same]
            | succ k =>
                have step : (memchr block c n).succ = .found (k + 1) ↔ memchr block c n = .found k := by
                  cases memchr block c n <;> simp [Memchr.succ]
                rw [step, ih]
                simp [Ne.symm same]

theorem memchr_missing {c : Byte} {block : List Byte} {n : Nat} (bound : n ≤ block.length) :
    memchr block c n = .missing ↔ c ∉ block.take n := by
  induction block generalizing n with
  | nil =>
      have zero : n = 0 := by simpa using bound
      subst zero
      simp [memchr]
  | cons b block ih =>
      cases n with
      | zero => simp [memchr]
      | succ n =>
          have step : (memchr block c n).succ = .missing ↔ memchr block c n = .missing := by
            cases memchr block c n <;> simp [Memchr.succ]
          rw [memchr]
          by_cases same : b = c
          · simp [same]
          · rw [if_neg same, step, ih (by simpa using bound)]
            simp [Ne.symm same]

theorem lessOne_eq {psl : Nat} (positive : psl ≠ 0) (small : psl < 18446744073709551616) :
    lessOne psl = psl - 1 := by
  unfold lessOne
  omega

section

variable {ps : Space}

theorem Space.length_text (ps : Space) : ps.text.length = ps.len := by
  rw [text, List.length_take, Nat.min_eq_left ps.inside]

theorem Space.text_ne_nil (some_ : ps.len ≠ 0) : ps.text ≠ [] := by
  intro none_
  have length := ps.length_text
  rw [none_] at length
  exact some_ length.symm

theorem split_unique {front front' rest rest' : List Byte} (clean : nl ∉ front) (clean' : nl ∉ front')
    (same : front ++ nl :: rest = front' ++ nl :: rest') : front = front' ∧ rest = rest' := by
  induction front generalizing front' with
  | nil =>
      cases front' with
      | nil => simpa using same
      | cons b front' =>
          rw [List.nil_append, List.cons_append, List.cons.injEq] at same
          exact absurd List.mem_cons_self (same.1 ▸ clean')
  | cons b front ih =>
      cases front' with
      | nil =>
          rw [List.nil_append, List.cons_append, List.cons.injEq] at same
          exact absurd List.mem_cons_self (same.1 ▸ clean)
      | cons b' front' =>
          rw [List.cons_append, List.cons_append, List.cons.injEq] at same
          have rest := ih (fun inside => clean (List.mem_cons_of_mem b inside))
            (fun inside => clean' (List.mem_cons_of_mem b' inside)) same.2
          exact ⟨by rw [same.1, rest.1], rest.2⟩

theorem takeWhile_front {front : List Byte} (clean : nl ∉ front) (rest : List Byte) :
    (front ++ nl :: rest).takeWhile (· ≠ nl) = front := by
  have all : ∀ b ∈ front, decide (b ≠ nl) = true := by
    intro b member
    rw [decide_eq_true_eq]
    rintro rfl
    exact clean member
  rw [List.takeWhile_append_of_pos all]
  simp

/-- The search finds the first newline unless it is the last byte. -/
theorem Space.search_cases (some_ : ps.len ≠ 0) :
    (∃ front rest, ps.search = .found front.length ∧ ps.text = front ++ nl :: rest ∧
        nl ∉ front ∧ rest ≠ []) ∨
      ps.search = .missing ∧ (ps.EndsOnly ∨ nl ∉ ps.text) := by
  have inside := ps.inside
  have small := ps.small
  have count := lessOne_eq some_ (by omega : ps.len < 18446744073709551616)
  obtain ⟨init, last, whole⟩ := (List.eq_nil_or_concat' ps.text).resolve_left (ps.text_ne_nil some_)
  have length := ps.length_text
  have front : ps.space.take (ps.len - 1) = init := by
    have shorter : ps.space.take (ps.len - 1) = ps.text.take (ps.len - 1) := by
      rw [text, List.take_take, Nat.min_eq_left (Nat.sub_le _ _)]
    rw [whole, List.length_append, List.length_singleton] at length
    rw [shorter, whole, ← length, Nat.add_sub_cancel, List.take_left]
  unfold Space.search
  rw [count]
  by_cases early : nl ∈ init
  · obtain ⟨before, behind, split, clean⟩ := List.eq_append_cons_of_mem early
    refine Or.inl ⟨before, behind ++ [last], memchr_found.mpr ⟨?_, ?_⟩, by rw [whole, split]; simp,
      clean, by simp⟩
    · have shorter := congrArg List.length (front.trans split)
      rw [List.length_take, List.length_append, List.length_cons] at shorter
      omega
    · have block := List.take_append_drop (ps.len - 1) ps.space
      rw [front, split, List.append_assoc, List.cons_append] at block
      have first : ps.space.take before.length = before := by
        rw [← block, List.take_left]
      rw [first]
      exact ⟨_, block.symm, clean⟩
  · refine Or.inr ⟨(memchr_missing (by omega)).mpr (front ▸ early), ?_⟩
    rw [whole]
    by_cases newline : last = nl
    · exact Or.inl ⟨init, early, by rw [whole, newline]⟩
    · exact Or.inr (by simp [early, Ne.symm newline])

theorem Space.EndsOnly.some (ends : ps.EndsOnly) : ps.len ≠ 0 := by
  obtain ⟨front, -, whole⟩ := ends
  rw [← ps.length_text, whole]
  simp

theorem Space.EndsOnly.search (ends : ps.EndsOnly) : ps.search = .missing := by
  obtain ⟨front, clean, whole⟩ := ends
  rcases Space.search_cases (Space.EndsOnly.some ⟨front, clean, whole⟩) with
    ⟨front', rest, -, split, clean', more⟩ | ⟨missing, -⟩
  · have same := split_unique clean clean' (whole.symm.trans split)
    exact absurd same.2.symm more
  · exact missing

theorem Space.search_empty (none_ : ps.len = 0) : ps.len < ps.searched := by
  unfold Space.searched Space.search
  rw [none_]
  cases memchr ps.space nl (lessOne 0) with
  | found k => exact Nat.succ_pos k
  | missing => exact (by decide : 0 < lessOne 0)
  | offEnd => exact Nat.succ_pos _

theorem Space.searched_le (some_ : ps.len ≠ 0) : ps.searched ≤ ps.len := by
  have small := ps.small
  have inside := ps.inside
  have length := ps.length_text
  unfold Space.searched
  rcases Space.search_cases some_ with ⟨front, rest, found, split, -, -⟩ | ⟨missing, -⟩
  · rw [split, List.length_append, List.length_cons] at length
    rw [found, Memchr.looked]
    omega
  · rw [missing, Memchr.looked, lessOne_eq some_ (by omega)]
    exact Nat.sub_le _ _

theorem Space.printsFirst_iff (ps : Space) :
    ps.PrintsFirst ↔ ps.len ≠ 0 ∧ (ps.EndsOnly → ps.appendNewline = false) := by
  constructor
  · intro prints
    refine ⟨fun none_ => absurd prints.within (Nat.not_le.mpr (ps.search_empty none_)),
      fun ends => ?_⟩
    have output := prints.output
    obtain ⟨front, clean, whole⟩ := ends
    have inside : nl ∈ ps.text := by simp [whole]
    rw [Space.commandP, Space.EndsOnly.search ⟨front, clean, whole⟩] at output
    have length := congrArg List.length (Option.some.inj output)
    rw [if_pos inside, whole, takeWhile_front clean] at length
    cases flag : ps.appendNewline with
    | false => rfl
    | true => simp [out, flag] at length
  · rintro ⟨some_, ends⟩
    refine ⟨?_, ps.searched_le some_⟩
    rcases Space.search_cases some_ with ⟨front, rest, found, split, clean, -⟩ | ⟨missing, last⟩
    · have front_ : ps.space.take front.length = front := by
        have text : ps.text.take front.length = front := by rw [split, List.take_left]
        have length := ps.length_text
        rw [split, List.length_append, List.length_cons] at length
        rw [Space.text, List.take_take, Nat.min_eq_left (by omega)] at text
        exact text
      have inside : nl ∈ ps.text := by simp [split]
      rw [Space.commandP, found, if_pos inside, split, takeWhile_front clean]
      exact congrArg (fun text => some (out text true)) front_
    · rw [Space.commandP, missing]
      rcases last with only | clean
      · obtain ⟨front, clean, whole⟩ := only
        have inside : nl ∈ ps.text := by simp [whole]
        rw [if_pos inside, whole, takeWhile_front clean, ends ⟨front, clean, whole⟩]
        simp [out]
      · rw [if_neg clean]

theorem Space.deletesFirst_iff (ps : Space) : ps.DeletesFirst ↔ ¬ ps.EndsOnly := by
  constructor
  · rintro deletes ⟨front, clean, whole⟩
    obtain ⟨left, restarted, -⟩ := deletes.restart front [] clean whole
    rw [Space.commandD, if_neg (Space.EndsOnly.some ⟨front, clean, whole⟩),
      Space.EndsOnly.search ⟨front, clean, whole⟩] at restarted
    cases restarted
  · intro other
    refine ⟨fun front rest clean whole => ?_, fun clean => ?_, ps.searched_le⟩
    · have length := ps.length_text
      have some_ : ps.len ≠ 0 := by
        rw [← length, whole]
        simp
      rcases Space.search_cases some_ with ⟨front', rest', found, split, clean', -⟩ | ⟨-, last⟩
      · obtain ⟨rfl, rfl⟩ := split_unique clean clean' (whole.symm.trans split)
        refine ⟨ps.removeFirst front.length, by rw [Space.commandD, if_neg some_, found], ?_, rfl⟩
        have behind : ps.text.drop (front.length + 1) = rest := by
          rw [whole, ← List.drop_drop, List.drop_left]
          rfl
        have count : ps.len - (front.length + 1) = rest.length := by
          rw [← length, whole, List.length_append, List.length_cons]
          omega
        show (ps.text.drop (front.length + 1) ++ ps.space.drop (ps.len - (front.length + 1))).take
          (ps.len - (front.length + 1)) = rest
        rw [behind, count, List.take_left]
      · rcases last with only | clean'
        · exact absurd only other
        · exact absurd (by simp [whole]) clean'
    · rw [Space.commandD]
      by_cases none_ : ps.len = 0
      · rw [if_pos none_]
      · rw [if_neg none_]
        rcases Space.search_cases none_ with ⟨front, rest, -, split, -, -⟩ | ⟨missing, -⟩
        · exact absurd (by simp [split]) clean
        · rw [missing]

/-- `P` and `D` take the first line of every space but the empty one and one whose only newline is
its last byte. -/
theorem Space.firstLine_iff (ps : Space) :
    ps.PrintsFirst ∧ ps.DeletesFirst ↔ ps.len ≠ 0 ∧ ¬ ps.EndsOnly := by
  rw [ps.printsFirst_iff, ps.deletesFirst_iff]
  constructor
  · rintro ⟨⟨some_, -⟩, other⟩
    exact ⟨some_, other⟩
  · rintro ⟨some_, other⟩
    exact ⟨⟨some_, fun ends => absurd ends other⟩, other⟩

end

/-- What `G` leaves of the line `a` when the hold space is empty. -/
def appended : Space where
  space := ascii ['a', '\n'] ++ [0]
  len := 2
  appendNewline := true
  inside := by decide
  small := by decide

theorem appended_misread :
    ¬ (appended.PrintsFirst ∧ appended.DeletesFirst) ∧
      appended.commandP = some (ascii ['a', '\n', '\n']) ∧ appended.commandD = some .new := by
  refine ⟨fun both => ?_, by decide, rfl⟩
  exact (Space.deletesFirst_iff appended).mp both.2 ⟨ascii ['a'], by decide, rfl⟩

end Netbase.Sed
