import Mathlib.Data.List.Infix
import Netbase.Text.Lines

/-!
# Delimited strings

`compile_delimited` reads the operands of `s` and `y` and the regular expressions of addresses.  A
bracket expression is copied by `compile_ccl` as it stands, whatever it is read for.
-/

namespace Netbase.Sed

open Netbase.Text

/-! ## Bracket expressions -/

/-- Where `compile_ccl` is: at the opening bracket, where `^` or `]` may follow it, and in its two
loops, the inner one with the mark that it looks for and the byte read last. -/
inductive Ccl where
  | opening
  | start
  | first
  | items
  | marked (d : Byte)
  | named (d c : Byte)
  deriving Repr, DecidableEq

/-- The outer loop of `compile_ccl` at a byte that is followed by `next`. -/
def Ccl.item (b : Byte) (next : Option Byte) : Option Ccl :=
  if b = byte ']' then none
  else
    match next with
    | some d =>
        if b = byte '[' ∧ (d = byte '.' ∨ d = byte ':' ∨ d = byte '=') then some (marked d)
        else some items
    | none => some items

/-- What a byte leads to that is followed by `next`; there is nothing behind the closing bracket. -/
def Ccl.next : Ccl → Byte → Option Byte → Option Ccl
  | opening, _, _ => some start
  | start, b, next =>
      if b = byte '^' then some first else if b = byte ']' then some items else item b next
  | first, b, next => if b = byte ']' then some items else item b next
  | items, b, next => item b next
  | marked d, _, next => some (named d (next.getD 0))
  | named d c, b, _ => if b = byte ']' ∧ c = d then some items else some (named d b)

/-- The loops of `compile_ccl`: what is copied, and what is behind it. -/
def cclLoop : Ccl → List Byte → Option (List Byte × List Byte)
  | _, [] => none
  | st, b :: s =>
      match st.next b s.head? with
      | none => some ([b], s)
      | some st => (cclLoop st s).map fun (t, s) => (b :: t, s)

/-- `compile_ccl` -/
def compileCcl (s : List Byte) : Option (List Byte × List Byte) := cclLoop .opening s

theorem cclNext_none {st : Ccl} {b : Byte} {next : Option Byte} (last : st.next b next = none) :
    b = byte ']' ∧ ∀ next', st.next b next' = none := by
  have item {b : Byte} {next : Option Byte} (last : Ccl.item b next = none) :
      b = byte ']' ∧ ∀ next', Ccl.item b next' = none := by
    unfold Ccl.item at last ⊢
    split at last
    · next close => exact ⟨close, fun _ => if_pos close⟩
    · split at last
      · split at last <;> cases last
      · cases last
  cases st with
  | opening => cases last
  | start =>
      simp only [Ccl.next] at last ⊢
      split at last
      · cases last
      · split at last
        · cases last
        · next hat close => exact absurd (item last).1 close
  | first =>
      simp only [Ccl.next] at last ⊢
      split at last
      · cases last
      · next close => exact absurd (item last).1 close
  | items => exact item last
  | marked d => cases last
  | named d c =>
      simp only [Ccl.next] at last
      split at last <;> cases last

/-- What is copied of a bracket expression ends with a closing bracket, and nothing is lost. -/
theorem cclLoop_split {s t rest : List Byte} :
    ∀ {st : Ccl}, cclLoop st s = some (t, rest) → s = t ++ rest ∧ ∃ w, t = w ++ [byte ']'] := by
  induction s generalizing t rest with
  | nil => exact fun run => nomatch run
  | cons b s ih =>
      intro st run
      rw [cclLoop] at run
      split at run
      · next last =>
          cases run
          rw [(cclNext_none last).1]
          exact ⟨rfl, [], rfl⟩
      · obtain ⟨⟨t', rest'⟩, inner, same⟩ := Option.map_eq_some_iff.mp run
        cases same
        obtain ⟨whole, w, closed⟩ := ih inner
        exact ⟨by rw [whole, List.cons_append], b :: w, by rw [closed, List.cons_append]⟩

/-- What is behind a bracket expression does not matter. -/
theorem cclLoop_append {s t rest : List Byte} (more : List Byte) :
    ∀ {st : Ccl}, cclLoop st s = some (t, rest) →
      cclLoop st (s ++ more) = some (t, rest ++ more) := by
  induction s generalizing t rest with
  | nil => exact fun run => nomatch run
  | cons b s ih =>
      intro st run
      rw [cclLoop] at run
      rw [List.cons_append, cclLoop]
      split at run
      · next last =>
          cases run
          rw [(cclNext_none last).2]
      · next st' onward =>
          obtain ⟨⟨t', rest'⟩, inner, same⟩ := Option.map_eq_some_iff.mp run
          cases same
          have head : (s ++ more).head? = s.head? := by
            cases s with
            | nil => cases inner
            | cons => rfl
          rw [head, onward]
          exact Option.map_eq_some_iff.mpr ⟨_, ih inner, rfl⟩

theorem cclLoop_cut {t rest : List Byte} :
    ∀ {st : Ccl}, cclLoop st (t ++ rest) = some (t, rest) → cclLoop st t = some (t, []) := by
  induction t with
  | nil =>
      intro st run
      obtain ⟨-, w, closed⟩ := cclLoop_split run
      cases w <;> cases closed
  | cons b t ih =>
      intro st run
      rw [List.cons_append, cclLoop] at run
      rw [cclLoop]
      split at run
      · next last =>
          cases run
          rw [(cclNext_none last).2]
      · next st' onward =>
          obtain ⟨⟨t', rest'⟩, inner, same⟩ := Option.map_eq_some_iff.mp run
          cases same
          have head : (t ++ rest).head? = t.head? := by
            obtain ⟨-, w, closed⟩ := cclLoop_split inner
            rw [closed]
            cases w <;> rfl
          rw [head] at onward
          rw [onward]
          exact Option.map_eq_some_iff.mpr ⟨_, ih inner, rfl⟩

/-! ## Delimited strings -/

/-- What stops the compilation: the messages of `compile_delimited` and `compile_tr`, and a string
that does not fit in its buffer. -/
inductive Complaint where
  | backslashAsDelimiter
  | newlineAsDelimiter
  | unbalancedBrackets
  | patternDelimiter
  | unterminatedSource
  | unterminatedTarget
  | illegalSequence
  | notTheSameLength
  | outside
  deriving Repr, DecidableEq

/-- What stands in front of the text: the delimiter, or something that is copied. -/
inductive Round where
  | close
  | copy (t rest : List Byte)
  deriving Repr, DecidableEq

/-- The escapes of `compile_delimited`: what a backslash and a byte are copied as. -/
def escape (isTr : Bool) (c d : Byte) : Option (List Byte) :=
  if d = byte '[' then some [byte '\\', d]
  else if d = c then some [d]
  else if d = byte 'n' then some [nl]
  else if d = byte '\\' then some (if isTr then [d] else [byte '\\', d])
  else none

/-- One round of the loop of `compile_delimited`. -/
def delimitedPiece (isTr : Bool) (c b : Byte) (s : List Byte) : Except Complaint Round :=
  if b = byte '[' ∧ b ≠ c then
    match compileCcl (b :: s) with
    | none => .error .unbalancedBrackets
    | some (t, rest) => .ok (.copy t rest)
  else
    match if b = byte '\\' then s.head?.bind (escape isTr c) else none with
    | some t => .ok (.copy t s.tail)
    | none => if b = c then .ok .close else .ok (.copy [b] s)

theorem delimitedPiece_shorter {isTr : Bool} {c b : Byte} {s t rest : List Byte}
    (piece : delimitedPiece isTr c b s = .ok (.copy t rest)) : rest.length < (b :: s).length := by
  unfold delimitedPiece at piece
  split at piece
  · split at piece
    · cases piece
    · next read =>
        cases piece
        obtain ⟨whole, w, closed⟩ := cclLoop_split read
        rw [whole, closed]
        simp only [List.length_append, List.length_cons, List.length_nil]
        omega
  · split at piece
    · cases piece
      simp only [List.length_tail, List.length_cons]
      omega
    · split at piece
      · cases piece
      · cases piece
        exact Nat.lt_succ_self _

/-- The loop of `compile_delimited`: the string and what is behind it. -/
def delimitedLoop (isTr : Bool) (c : Byte) (p : List Byte) :
    Except Complaint (Option (List Byte × List Byte)) :=
  match p with
  | [] => .ok none
  | b :: s =>
      match _read : delimitedPiece isTr c b s with
      | .error e => .error e
      | .ok .close => .ok (some ([], s))
      | .ok (.copy t rest) =>
          (delimitedLoop isTr c rest).map (Option.map fun (d, p) => (t ++ d, p))
termination_by p.length
decreasing_by exact delimitedPiece_shorter _read

/-- `compile_delimited` -/
def compileDelimited (isTr : Bool) : List Byte → Except Complaint (Option (List Byte × List Byte))
  | [] => .ok none
  | c :: p =>
      if c = byte '\\' then .error .backslashAsDelimiter
      else if c = nl then .error .newlineAsDelimiter
      else delimitedLoop isTr c p
/-! ## Operands as they are written -/

/-- A character as it is written in an operand of `y`. -/
def writtenByte (c b : Byte) : List Byte :=
  if b = c ∨ b = byte '\\' then [byte '\\', b]
  else if b = nl then [byte '\\', byte 'n']
  else [b]

/-- An operand of `y` with the delimiter, backslash and newline escaped. -/
def written (c : Byte) (x : List Byte) : List Byte := x.flatMap (writtenByte c)

/-- What is kept of a character outside of brackets. -/
def keptByte (c b : Byte) : List Byte :=
  if b = byte '[' then [byte '\\', b] else if b = nl ∧ c = byte 'n' then [c] else [b]

inductive Remains (c : Byte) : List Byte → List Byte → Prop
  | nil : Remains c [] []
  | byte {b : Byte} {x d : List Byte} (plain : b = byte '[' → b = c) (behind : Remains c x d) :
      Remains c (b :: x) (keptByte c b ++ d)
  | bracket {u x d : List Byte} (delimiter : c ≠ Text.byte '[') (opens : u.head? = some (Text.byte '['))
      (whole : compileCcl (written c u) = some (written c u, [])) (behind : Remains c x d) :
      Remains c (u ++ x) (written c u ++ d)

/-- The delimiters that are accepted. -/
structure Delimiter (c : Byte) : Prop where
  some_ : c ≠ 0
  backslash : c ≠ byte '\\'
  newline : c ≠ nl

section

variable {c : Byte}

theorem written_append (x y : List Byte) : written c (x ++ y) = written c x ++ written c y :=
  List.flatMap_append

theorem written_cons (b : Byte) (x : List Byte) :
    written c (b :: x) = writtenByte c b ++ written c x := List.flatMap_cons

theorem writtenByte_opening (other : byte '[' ≠ c) : writtenByte c (byte '[') = [byte '['] := by
  unfold writtenByte
  rw [if_neg (not_or.mpr ⟨other, by decide⟩), if_neg (by decide)]

theorem writtenByte_closing (b : Byte) :
    ∃ front, writtenByte c b = front ++ [(writtenByte c b).getLastD 0] ∧ byte ']' ∉ front := by
  unfold writtenByte
  split
  · exact ⟨[byte '\\'], rfl, by decide⟩
  · split
    · exact ⟨[byte '\\'], rfl, by decide⟩
    · exact ⟨[], rfl, List.not_mem_nil⟩

theorem delimitedPiece_written (delimiter : Delimiter c) {b : Byte} (plain : b = byte '[' → b = c)
    (more : List Byte) :
    ∃ first rest, writtenByte c b = first :: rest ∧
      delimitedPiece true c first (rest ++ more) = .ok (.copy (keptByte c b) more) := by
  have escaped {d : Byte} {t : List Byte} (kept : escape true c d = some t) :
      delimitedPiece true c (byte '\\') ([d] ++ more) = .ok (.copy t more) := by
    unfold delimitedPiece
    rw [if_neg (fun both => absurd both.1 (by decide)), if_pos rfl]
    simp only [List.singleton_append, List.head?_cons, Option.bind_some, kept, List.tail_cons]
  unfold writtenByte keptByte
  by_cases same : b = c
  · subst same
    rw [if_pos (.inl rfl)]
    refine ⟨_, _, rfl, escaped ?_⟩
    unfold escape
    split
    · rfl
    · rw [if_pos rfl, if_neg (fun both => delimiter.newline both.1)]
  · have bracket : b ≠ byte '[' := fun opening => same (plain opening)
    rw [if_neg bracket]
    by_cases backslash : b = byte '\\'
    · subst backslash
      rw [if_pos (.inr rfl), if_neg (fun both => absurd both.1 (by decide))]
      refine ⟨_, _, rfl, escaped ?_⟩
      unfold escape
      rw [if_neg bracket, if_neg same, if_neg (by decide), if_pos rfl, if_pos rfl]
    · rw [if_neg (not_or.mpr ⟨same, backslash⟩)]
      by_cases newline : b = nl
      · subst newline
        rw [if_pos rfl]
        refine ⟨_, _, rfl, escaped ?_⟩
        unfold escape
        rw [if_neg (by decide)]
        by_cases letter : c = byte 'n'
        · rw [if_pos letter.symm, if_pos ⟨rfl, letter⟩, letter]
        · rw [if_neg (Ne.symm letter), if_pos rfl, if_neg (fun both => letter both.2)]
      · rw [if_neg newline, if_neg (fun both => newline both.1)]
        refine ⟨_, _, rfl, ?_⟩
        unfold delimitedPiece
        rw [if_neg (fun both => bracket both.1), if_neg backslash]
        simp only [List.nil_append, if_neg same]

/-- A closing bracket ends what a character is written as, the delimiter, or something behind. -/
theorem written_cut {tail t : List Byte} (x : List Byte) :
    ∀ {v : List Byte}, written c x ++ c :: tail = v ++ byte ']' :: t →
      (∃ u y, x = u ++ y ∧ v ++ [byte ']'] = written c u ∧ t = written c y ++ c :: tail) ∨
        ∃ w, tail = w ++ t ∧ (w = [] ∨ ∃ v, w = v ++ [byte ']']) := by
  induction x with
  | nil =>
      intro v same
      right
      cases v with
      | nil => exact ⟨[], (List.cons.inj same).2, .inl rfl⟩
      | cons a v =>
          refine ⟨v ++ [byte ']'], ?_, .inr ⟨v, rfl⟩⟩
          rw [List.append_assoc]
          exact (List.cons.inj same).2
  | cons b x ih =>
      intro v same
      rw [written_cons, List.append_assoc] at same
      -- Where the text is cut in front of the end of the first character.
      have behind {v : List Byte} (same : written c x ++ c :: tail = v ++ byte ']' :: t) :
          (∃ u y, b :: x = u ++ y ∧ writtenByte c b ++ v ++ [byte ']'] = written c u ∧
              t = written c y ++ c :: tail) ∨
            ∃ w, tail = w ++ t ∧ (w = [] ∨ ∃ v, w = v ++ [byte ']']) := by
        rcases ih same with ⟨u, y, whole, front, rest⟩ | outside
        · refine .inl ⟨b :: u, y, by rw [whole, List.cons_append], ?_, rest⟩
          rw [List.append_assoc, front, written_cons]
        · exact .inr outside
      rcases List.append_eq_append_iff.mp same with ⟨v', rfl, rest⟩ | ⟨part, whole, rest⟩
      · exact behind rest
      · cases part with
        | nil =>
            rw [List.append_nil] at whole
            have found := behind (v := []) (by rw [List.nil_append, rest, List.nil_append])
            rwa [List.append_nil, whole] at found
        | cons a part =>
            obtain ⟨rfl, rest⟩ := List.cons.inj rest
            obtain ⟨front, closed, clean⟩ := writtenByte_closing (c := c) b
            have last : part = [] := by
              by_contra more
              refine clean ?_
              have cut := congrArg List.dropLast (whole.symm.trans closed)
              rw [List.dropLast_concat, List.dropLast_append_of_ne_nil (List.cons_ne_nil _ _),
                List.dropLast_cons_of_ne_nil more] at cut
              rw [← cut]
              exact List.mem_append_right _ (List.mem_cons_self ..)
            subst last
            refine .inl ⟨[b], x, rfl, ?_, (List.cons.inj rest).2⟩
            rw [← whole, written, List.flatMap_singleton]

/-! ## Reading an operand -/

theorem delimitedLoop_copy {b : Byte} {s t rest : List Byte}
    (piece : delimitedPiece true c b s = .ok (.copy t rest)) :
    delimitedLoop true c (b :: s) =
      (delimitedLoop true c rest).map (Option.map fun (d, p) => (t ++ d, p)) := by
  rw [delimitedLoop]
  split
  · next error => cases error.symm.trans piece
  · next close => cases close.symm.trans piece
  · next copy =>
      cases copy.symm.trans piece
      rfl

theorem delimitedLoop_close (delimiter : Delimiter c) (tail : List Byte) :
    delimitedLoop true c (c :: tail) = .ok (some ([], tail)) := by
  have piece : delimitedPiece true c c tail = .ok .close := by
    unfold delimitedPiece
    rw [if_neg (fun both => both.2 rfl), if_neg delimiter.backslash]
    simp only [if_pos]
  rw [delimitedLoop]
  split
  · next error => cases error.symm.trans piece
  · rfl
  · next copy => cases copy.symm.trans piece

theorem delimitedLoop_byte (delimiter : Delimiter c) {b : Byte} (plain : b = byte '[' → b = c)
    (more : List Byte) :
    delimitedLoop true c (writtenByte c b ++ more) =
      (delimitedLoop true c more).map (Option.map fun (d, p) => (keptByte c b ++ d, p)) := by
  obtain ⟨first, rest, whole, piece⟩ := delimitedPiece_written delimiter plain more
  rw [whole, List.cons_append]
  exact delimitedLoop_copy piece

/-- A text that begins with an opening bracket is read as a bracket expression. -/
theorem delimitedPiece_bracket (other : byte '[' ≠ c) (s : List Byte) :
    delimitedPiece true c (byte '[') s =
      match compileCcl (byte '[' :: s) with
      | none => .error .unbalancedBrackets
      | some (t, rest) => .ok (.copy t rest) := if_pos ⟨rfl, other⟩

theorem written_opening (other : byte '[' ≠ c) {u : List Byte} (opens : u.head? = some (byte '[')) :
    written c u = byte '[' :: written c u.tail := by
  cases u with
  | nil => cases opens
  | cons b u =>
      cases opens
      rw [written_cons, writtenByte_opening other]
      rfl

theorem delimitedLoop_kept (delimiter : Delimiter c) {x d : List Byte} (kept : Remains c x d)
    (tail : List Byte) :
    delimitedLoop true c (written c x ++ c :: tail) = .ok (some (d, tail)) := by
  induction kept with
  | nil => exact delimitedLoop_close delimiter tail
  | byte plain behind ih =>
      rw [written_cons, List.append_assoc, delimitedLoop_byte delimiter plain, ih]
      rfl
  | @bracket u x d other opens whole behind ih =>
      have read := cclLoop_append (written c x ++ c :: tail) whole
      have front := written_opening other.symm opens
      rw [written_append, List.append_assoc]
      rw [front, List.cons_append] at read ⊢
      have piece := delimitedPiece_bracket other.symm (written c u.tail ++ (written c x ++ c :: tail))
      unfold compileCcl at piece
      rw [read] at piece
      rw [delimitedLoop_copy piece, List.nil_append, ih]
      rfl

/-- What is read ends at the delimiter, or a bracket expression has gone past it. -/
theorem delimitedLoop_written (delimiter : Delimiter c) (tail : List Byte) :
    ∀ {x d r : List Byte}, delimitedLoop true c (written c x ++ c :: tail) = .ok (some (d, r)) →
      Remains c x d ∧ r = tail ∨
        ∃ w t d', tail = w ++ t ∧ (w = [] ∨ ∃ v, w = v ++ [byte ']']) ∧
          delimitedLoop true c t = .ok (some (d', r)) := by
  -- Behind a piece is what remains of the operand, or the text behind its delimiter.
  have split {t : List Byte} {q : Except Complaint (Option (List Byte × List Byte))}
      {d r : List Byte} (run : q.map (Option.map fun (d, p) => (t ++ d, p)) = .ok (some (d, r))) :
      ∃ d', q = .ok (some (d', r)) ∧ d = t ++ d' := by
    cases q with
    | error => cases run
    | ok found =>
        cases found with
        | none => cases run
        | some found =>
            cases run
            exact ⟨_, rfl, rfl⟩
  intro x
  induction size : x.length using Nat.strong_induction_on generalizing x with
  | _ n ih =>
      intro d r run
      cases x with
      | nil =>
          rw [written, List.flatMap_nil, List.nil_append, delimitedLoop_close delimiter] at run
          cases run
          exact .inl ⟨.nil, rfl⟩
      | cons b x =>
          by_cases plain : b = byte '[' → b = c
          · rw [written_cons, List.append_assoc, delimitedLoop_byte delimiter plain] at run
            obtain ⟨d', run', rfl⟩ := split run
            rcases ih x.length (by rw [← size, List.length_cons]; exact Nat.lt_succ_self _) rfl run'
              with ⟨kept, rest⟩ | outside
            · exact .inl ⟨.byte plain kept, rest⟩
            · exact .inr outside
          · rw [Classical.not_imp] at plain
            obtain ⟨rfl, other⟩ := plain
            rw [written_cons, writtenByte_opening other, List.append_assoc,
              List.singleton_append] at run
            cases read : compileCcl (byte '[' :: (written c x ++ c :: tail)) with
            | none =>
                have piece := delimitedPiece_bracket other (written c x ++ c :: tail)
                rw [read] at piece
                rw [delimitedLoop] at run
                split at run
                · cases run
                · next close => cases close.symm.trans piece
                · next copy => cases copy.symm.trans piece
            | some found =>
                obtain ⟨t, rest⟩ := found
                have piece := delimitedPiece_bracket other (written c x ++ c :: tail)
                rw [read] at piece
                rw [delimitedLoop_copy piece] at run
                obtain ⟨d', run', rfl⟩ := split run
                obtain ⟨whole, v, closed⟩ := cclLoop_split read
                have cut : written c (byte '[' :: x) ++ c :: tail = v ++ byte ']' :: rest := by
                  rw [written_cons, writtenByte_opening other, List.append_assoc,
                    List.singleton_append, whole, closed, List.append_assoc, List.singleton_append]
                rcases written_cut (byte '[' :: x) cut with ⟨u, y, same, front, behind⟩ | ⟨w, same, ends⟩
                · subst behind
                  rw [← closed] at front
                  subst front
                  have nonempty : u ≠ [] := by
                    rintro rfl
                    cases v <;> cases closed
                  have opens : u.head? = some (byte '[') := by
                    cases u with
                    | nil => exact absurd rfl nonempty
                    | cons a u => exact congrArg some (List.cons.inj same).1.symm
                  have shorter : y.length < n := by
                    rw [← size, same, List.length_append]
                    have positive := List.length_pos_iff.mpr nonempty
                    omega
                  rcases ih y.length shorter rfl run' with ⟨kept, rest⟩ | outside
                  · refine .inl ⟨?_, rest⟩
                    rw [same]
                    unfold compileCcl at read
                    rw [whole] at read
                    exact .bracket (Ne.symm other) opens (cclLoop_cut read) kept
                  · exact .inr outside
                · exact .inr ⟨w, rest, d', same, ends, run'⟩

end
/-! ## What is kept -/

section

variable {c : Byte}

theorem mem_writtenByte {a b : Byte} (member : a ∈ writtenByte c b) :
    a = b ∨ a = byte '\\' ∨ a = byte 'n' := by
  unfold writtenByte at member
  split at member
  · rcases List.mem_cons.mp member with backslash | same
    · exact .inr (.inl backslash)
    · exact .inl (List.mem_singleton.mp same)
  · split at member
    · rcases List.mem_cons.mp member with backslash | letter
      · exact .inr (.inl backslash)
      · exact .inr (.inr (List.mem_singleton.mp letter))
    · exact .inl (List.mem_singleton.mp member)

theorem mem_keptByte {a b : Byte} (member : a ∈ keptByte c b) :
    a = b ∨ a = byte '\\' ∨ a = byte 'n' := by
  unfold keptByte at member
  split at member
  · rcases List.mem_cons.mp member with backslash | same
    · exact .inr (.inl backslash)
    · exact .inl (List.mem_singleton.mp same)
  · split at member
    · next letter => exact .inr (.inr ((List.mem_singleton.mp member).trans letter.2))
    · exact .inl (List.mem_singleton.mp member)

theorem length_writtenByte (b : Byte) : (writtenByte c b).length ≤ 2 := by
  unfold writtenByte
  split
  · exact Nat.le_refl 2
  · split
    · exact Nat.le_refl 2
    · exact Nat.le_succ 1

theorem length_written (x : List Byte) : (written c x).length ≤ 2 * x.length := by
  induction x with
  | nil => exact Nat.zero_le _
  | cons b x ih =>
      have short := length_writtenByte (c := c) b
      rw [written_cons, List.length_append, List.length_cons]
      omega

/-- What is kept of a character is not longer than what it is written as. -/
theorem length_keptByte (b : Byte) : (keptByte c b).length ≤ 2 := by
  unfold keptByte
  split
  · exact Nat.le_refl 2
  · split
    · exact Nat.le_succ 1
    · exact Nat.le_succ 1

theorem Remains.mem {x d : List Byte} (kept : Remains c x d) :
    ∀ a ∈ d, a ∈ x ∨ a = Text.byte '\\' ∨ a = Text.byte 'n' := by
  induction kept with
  | nil => exact fun a member => absurd member List.not_mem_nil
  | byte plain behind ih =>
      intro a member
      rcases List.mem_append.mp member with now | later
      · exact (mem_keptByte now).imp_left fun same => by rw [same]; exact List.mem_cons_self ..
      · exact (ih a later).imp_left (List.mem_cons_of_mem _)
  | bracket other opens whole behind ih =>
      intro a member
      rcases List.mem_append.mp member with now | later
      · obtain ⟨b, within, here⟩ := List.mem_flatMap.mp now
        exact (mem_writtenByte here).imp_left fun same => by
          rw [same]
          exact List.mem_append_left _ within
      · exact (ih a later).imp_left (List.mem_append_right _)

theorem Remains.length_le {x d : List Byte} (kept : Remains c x d) : d.length ≤ 2 * x.length := by
  induction kept with
  | nil => exact Nat.zero_le _
  | @byte b x d plain behind ih =>
      have short := length_keptByte (c := c) b
      rw [List.length_append, List.length_cons]
      omega
  | @bracket u x d other opens whole behind ih =>
      have short := length_written (c := c) u
      rw [List.length_append, List.length_append]
      omega

theorem Remains.self {x : List Byte} (plain : Text.byte '[' ∉ x) (newlines : nl ∈ x → c ≠ Text.byte 'n') :
    Remains c x x := by
  induction x with
  | nil => exact .nil
  | cons b x ih =>
      rw [List.mem_cons, not_or] at plain
      have alone : keptByte c b = [b] := by
        unfold keptByte
        rw [if_neg (Ne.symm plain.1), if_neg]
        rintro ⟨rfl, letter⟩
        exact newlines (List.mem_cons_self ..) letter
      have kept := Remains.byte (fun opening => absurd opening.symm plain.1)
        (ih plain.2 fun member => newlines (List.mem_cons_of_mem _ member))
      rwa [alone] at kept

end
end Netbase.Sed
