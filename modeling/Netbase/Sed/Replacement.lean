import Netbase.Lib.Template
import Netbase.Sed.Escapes
import Netbase.Sed.Substitute

/-!
# The text of a substitution

`compile_subst` reads the replacement from its chunks and stores it with `&` and the backslash
still standing for something; `regsub` reads what has been stored for every match.  A character
that an escape has been decoded to is stored as it is, and read once more.
-/

namespace Netbase.Sed

open Netbase.Text Netbase.Lib

/-! ## The two readings -/

inductive Unreadable where
  | undefined (ref : Nat)
  | newline
  | unterminated
  deriving Repr, DecidableEq

/-- What a chunk comes to: what is stored for it, and `sawesc` unless the terminator was in it. -/
abbrev Chunk := List Byte × Option Bool

def Chunk.store (bytes : List Byte) (chunk : Except Unreadable Chunk) : Except Unreadable Chunk :=
  chunk.map fun read => (bytes ++ read.1, read.2)

/-- The loop of `compile_subst` over a chunk, with the bytes that still belong to an escape.  The
flag is set behind a backslash; at the end of a chunk it is kept for the next one. -/
def compileChunk (c : Byte) (nsub : Option Nat) :
    Bool → Nat → List Byte → Except Unreadable Chunk
  | sawesc, _, [] => .ok ([], some sawesc)
  | sawesc, skip + 1, _ :: p => compileChunk c nsub sawesc skip p
  | true, 0, b :: p =>
      if isdigit b then
        if nsub.any (· < b.toNat - 48) then .error (.undefined (b.toNat - 48))
        else Chunk.store [byte '\\', b] (compileChunk c nsub false 0 p)
      else if b = byte '&' ∨ b = byte '\\' then
        Chunk.store [byte '\\', b] (compileChunk c nsub false 0 p)
      else
        match unescape (b :: p) with
        | some (v, n) => Chunk.store [v] (compileChunk c nsub false (n - 1) p)
        | none => Chunk.store [b] (compileChunk c nsub false 0 p)
  | false, 0, b :: p =>
      if b = byte '\\' then compileChunk c nsub true 0 p
      else if b = c then .ok ([], none)
      else if b = nl then .error .newline
      else Chunk.store [b] (compileChunk c nsub false 0 p)

/-- `compile_subst`: what is stored of the chunks. -/
def compileSubst (c : Byte) (nsub : Option Nat) :
    Bool → List (List Byte) → Except Unreadable (List Byte)
  | _, [] => .error .unterminated
  | sawesc, chunk :: chunks => do
      let (stored, more) ← compileChunk c nsub sawesc 0 chunk
      match more with
      | none => return stored
      | some sawesc => return stored ++ (← compileSubst c nsub sawesc chunks)

/-! ## What it is for -/

/-- The number of at most so many digits behind the letter of an escape. -/
def number (base most : Nat) (p : List Byte) : Option (Byte × Nat) :=
  let digits := (p.take most).takeWhile fun c => (cton c base).isSome
  if digits = [] then none
  else
    some (UInt8.ofNat (digits.foldl (fun value d => value * base + (cton d base).getD 0) 0),
      digits.length)

/-- The character that an escape denotes, and its length: a letter with up to three octal, three
decimal or two hexadecimal digits, or a letter alone. -/
def character : List Byte → Option (Byte × Nat)
  | [] => none
  | c :: p =>
      if c = byte 'o' then (number 8 3 p).map fun read => (read.1, read.2 + 1)
      else if c = byte 'd' then (number 10 3 p).map fun read => (read.1, read.2 + 1)
      else if c = byte 'x' then (number 16 2 p).map fun read => (read.1, read.2 + 1)
      else unescape (c :: p)

/-- A piece of a replacement: a character, one that an escape denotes, `\\` or `\&`, a group, and
`&`. -/
inductive Piece where
  | char (c : Byte)
  | decoded (v : Byte)
  | quoted (c : Byte)
  | group (d : Byte)
  | matched
  deriving Repr, DecidableEq

/-- The pieces of the text up to the terminator. -/
def pieces (c : Byte) (nsub : Option Nat) :
    Bool → Nat → List Byte → Except Unreadable (List Piece)
  | _, _, [] => .error .unterminated
  | sawesc, skip + 1, _ :: p => pieces c nsub sawesc skip p
  | true, 0, b :: p =>
      if isdigit b then
        if nsub.any (· < b.toNat - 48) then .error (.undefined (b.toNat - 48))
        else (pieces c nsub false 0 p).map (.group b :: ·)
      else if b = byte '&' ∨ b = byte '\\' then (pieces c nsub false 0 p).map (.quoted b :: ·)
      else
        match character (b :: p) with
        | some (v, n) => (pieces c nsub false (n - 1) p).map (.decoded v :: ·)
        | none => (pieces c nsub false 0 p).map (.char b :: ·)
  | false, 0, b :: p =>
      if b = byte '\\' then pieces c nsub true 0 p
      else if b = c then .ok []
      else if b = nl then .error .newline
      else if b = byte '&' then (pieces c nsub false 0 p).map (.matched :: ·)
      else (pieces c nsub false 0 p).map (.char b :: ·)

/-- What a piece stands for. -/
def Piece.symbol : Piece → TemplateSymbol Nat Byte
  | .char c => .letter c
  | .decoded v => .letter v
  | .quoted c => .letter c
  | .group d => .hole (d.toNat - 48)
  | .matched => .hole 0

def meaning (string : List Byte) (m : Match) (ps : List Piece) : List Byte :=
  fill (groupText string m) (ps.map Piece.symbol)

def Piece.stored : Piece → List Byte
  | .char c => [c]
  | .decoded v => [v]
  | .quoted c => [byte '\\', c]
  | .group d => [byte '\\', d]
  | .matched => [byte '&']

def Piece.Valid : Piece → Prop
  | .char c => c ≠ byte '\\' ∧ c ≠ byte '&' ∧ c ≠ 0
  | .decoded _ => True
  | .quoted c => c = byte '&' ∨ c = byte '\\'
  | .group d => isdigit d = true
  | .matched => True

/-- A piece whose first byte says something else behind a backslash. -/
def Piece.special : Piece → Bool
  | .char c => isdigit c
  | .decoded v => isdigit v || v = byte '\\'
  | .quoted c => c = byte '&'
  | .group _ => true
  | .matched => true

/-- BehindStored a decoded backslash, and `\\` behind that, the flag is set. -/
def Piece.opens (opened : Bool) : Piece → Bool
  | .decoded v => v = byte '\\'
  | .quoted c => opened && c = byte '\\'
  | _ => false

/-- No escape denotes `&` or the zero byte, and behind one that denotes the backslash comes, as far
as `\\` goes, no piece that says something else there. -/
def Unmarked : Bool → List Piece → Prop
  | _, [] => True
  | opened, p :: ps =>
      p ≠ .decoded (byte '&') ∧ p ≠ .decoded 0 ∧ (opened = true → p.special = false) ∧
        Unmarked (p.opens opened) ps

/-! ## What is stored -/

/-- What `regsub` takes the stored bytes for. -/
def symbols : List Byte → List (TemplateSymbol Nat Byte)
  | [] => []
  | [c] => [if c = byte '&' then .hole 0 else .letter c]
  | c :: d :: src =>
      if c = byte '&' then .hole 0 :: symbols (d :: src)
      else if c = byte '\\' then
        if isdigit d then .hole (d.toNat - 48) :: symbols src
        else if d = byte '\\' ∨ d = byte '&' then .letter d :: symbols src
        else .letter c :: symbols (d :: src)
      else .letter c :: symbols (d :: src)

theorem regsub_symbols (string : List Byte) (m : Match) (src : List Byte) :
    regsub string m src = fill (groupText string m) (symbols src) := by
  fun_induction symbols src with
  | case1 => rfl
  | case2 c =>
      rw [regsub]
      split <;> simp [TemplateSymbol.fill]
  | case3 d src ih =>
      rw [regsub, if_pos rfl, ih]
      rfl
  | case4 d src digit other ih =>
      rw [regsub, if_neg other, if_pos rfl, if_pos digit, ih]
      rfl
  | case5 d src digit quoted other ih =>
      rw [regsub, if_neg other, if_pos rfl, if_neg digit, if_pos quoted, ih]
      rfl
  | case6 d src digit quoted other ih =>
      rw [regsub, if_neg other, if_pos rfl, if_neg digit, if_neg quoted, ih]
      rfl
  | case7 c d src amp other ih =>
      rw [regsub, if_neg amp, if_neg other, ih]
      rfl

/-- One byte in front of stored ones: a character that says nothing else. -/
theorem symbols_letter {c : Byte} (amp : c ≠ byte '&') (backslash : c ≠ byte '\\')
    (src : List Byte) : symbols (c :: src) = .letter c :: symbols src := by
  cases src with
  | nil => simp only [symbols, if_neg amp]
  | cons d src => rw [symbols, if_neg amp, if_neg backslash]

theorem symbols_matched (src : List Byte) :
    symbols (byte '&' :: src) = .hole 0 :: symbols src := by
  cases src with
  | nil => rfl
  | cons d src => rw [symbols, if_pos rfl]

theorem symbols_group {d : Byte} (digit : isdigit d = true) (src : List Byte) :
    symbols (byte '\\' :: d :: src) = .hole (d.toNat - 48) :: symbols src := by
  rw [symbols, if_neg (by decide), if_pos rfl, if_pos digit]

theorem quoted_not_digit {c : Byte} (quoted : c = byte '&' ∨ c = byte '\\') :
    ¬ isdigit c = true := by
  rcases quoted with rfl | rfl <;> decide

theorem symbols_quoted {c : Byte} (quoted : c = byte '&' ∨ c = byte '\\') (src : List Byte) :
    symbols (byte '\\' :: c :: src) = .letter c :: symbols src := by
  rw [symbols, if_neg (by decide), if_pos rfl, if_neg (quoted_not_digit quoted), if_pos quoted.symm]

theorem symbols_backslash {d : Byte} (digit : isdigit d = false) (backslash : d ≠ byte '\\')
    (amp : d ≠ byte '&') (src : List Byte) :
    symbols (byte '\\' :: d :: src) = .letter (byte '\\') :: symbols (d :: src) := by
  rw [symbols, if_neg (by decide), if_pos rfl, if_neg (by rw [digit]; exact Bool.false_ne_true),
    if_neg fun quoted => quoted.elim backslash amp]

def storedText (ps : List Piece) : List Byte := cString (ps.flatMap Piece.stored)

theorem cString_cons {c : Byte} (some_ : c ≠ 0) (text : List Byte) :
    cString (c :: text) = c :: cString text :=
  List.takeWhile_cons_of_pos (decide_eq_true some_)

theorem isdigit_ne {c d : Byte} (digit : isdigit c = true) (other : isdigit d = false) : c ≠ d := by
  rintro rfl
  rw [other] at digit
  cases digit

theorem storedText_zero (ps : List Piece) : storedText (.decoded 0 :: ps) = [] := rfl

theorem storedText_cons {p : Piece} (valid : p.Valid) (some_ : p ≠ .decoded 0) (ps : List Piece) :
    storedText (p :: ps) = p.stored ++ storedText ps := by
  have backslash : byte '\\' ≠ 0 := by decide
  unfold storedText
  rw [List.flatMap_cons]
  cases p with
  | char c => exact cString_cons valid.2.2 _
  | decoded v => exact cString_cons (fun zero => some_ (by rw [zero])) _
  | quoted c =>
      have other : c ≠ 0 := by
        rcases valid with rfl | rfl <;> decide
      simp only [Piece.stored, List.cons_append, List.nil_append]
      rw [cString_cons backslash, cString_cons other]
  | group d =>
      have other : d ≠ 0 := isdigit_ne valid (by decide)
      simp only [Piece.stored, List.cons_append, List.nil_append]
      rw [cString_cons backslash, cString_cons other]
  | matched => exact cString_cons (by decide) _

/-- What stands behind a backslash that is not read with another one. -/
theorem symbols_behind {p : Piece} (valid : p.Valid) (some_ : p ≠ .decoded 0) (ps : List Piece) :
    symbols (byte '\\' :: storedText (p :: ps)) =
      match p with
      | .char c =>
          if isdigit c then .hole (c.toNat - 48) :: symbols (storedText ps)
          else .letter (byte '\\') :: .letter c :: symbols (storedText ps)
      | .decoded v =>
          if isdigit v then .hole (v.toNat - 48) :: symbols (storedText ps)
          else if v = byte '&' ∨ v = byte '\\' then .letter v :: symbols (storedText ps)
          else .letter (byte '\\') :: .letter v :: symbols (storedText ps)
      | .quoted c => .letter (byte '\\') :: symbols (c :: storedText ps)
      | .group d => .letter (byte '\\') :: .letter d :: symbols (storedText ps)
      | .matched => .letter (byte '&') :: symbols (storedText ps) := by
  rw [storedText_cons valid some_]
  have pair := fun src => symbols_quoted (c := byte '\\') (Or.inr rfl) src
  cases p with
  | char c =>
      simp only [Piece.stored, List.cons_append, List.nil_append]
      split
      · next digit => exact symbols_group digit _
      · next digit =>
          rw [symbols_backslash (Bool.not_eq_true _ ▸ digit) valid.1 valid.2.1,
            symbols_letter valid.2.1 valid.1]
  | decoded v =>
      simp only [Piece.stored, List.cons_append, List.nil_append]
      split
      · next digit => exact symbols_group digit _
      · next digit =>
          split
          · next quoted => exact symbols_quoted quoted _
          · next plain =>
              rw [not_or] at plain
              rw [symbols_backslash (Bool.not_eq_true _ ▸ digit) plain.2 plain.1,
                symbols_letter plain.1 plain.2]
  | quoted c => exact pair _
  | group d =>
      have amp : d ≠ byte '&' := isdigit_ne valid (by decide)
      have backslash : d ≠ byte '\\' := isdigit_ne valid (by decide)
      simp only [Piece.stored, List.cons_append, List.nil_append]
      rw [pair, symbols_letter amp backslash]
  | matched => exact symbols_quoted (Or.inl rfl) _

theorem symbols_front {p : Piece} (valid : p.Valid) (some_ : p ≠ .decoded 0)
    (other : p ≠ .decoded (byte '\\')) (ps : List Piece) :
    symbols (storedText (p :: ps)) =
      (if p = .decoded (byte '&') then .hole 0 else p.symbol) :: symbols (storedText ps) := by
  rw [storedText_cons valid some_]
  cases p with
  | char c =>
      rw [if_neg (by simp)]
      exact symbols_letter valid.2.1 valid.1 _
  | decoded v =>
      by_cases amp : v = byte '&'
      · subst amp
        rw [if_pos rfl]
        exact symbols_matched _
      · rw [if_neg fun same => amp (Piece.decoded.inj same)]
        exact symbols_letter amp (fun same => other (by rw [same])) _
  | quoted c =>
      rw [if_neg (by simp)]
      exact symbols_quoted valid _
  | group d =>
      rw [if_neg (by simp)]
      exact symbols_group valid _
  | matched =>
      rw [if_neg (by simp)]
      exact symbols_matched _

/-- There are no more parts than pieces, with a backslash in front that is not read with another
one. -/
theorem symbols_length {ps : List Piece} (valid : ∀ p ∈ ps, p.Valid) :
    (symbols (storedText ps)).length ≤ ps.length ∧
      (symbols (byte '\\' :: storedText ps)).length ≤ ps.length + 1 := by
  induction ps with
  | nil => exact ⟨Nat.le_refl _, Nat.le_refl _⟩
  | cons p ps ih =>
      obtain ⟨closed, opened⟩ := ih fun q member => valid q (List.mem_cons_of_mem p member)
      have this := valid p List.mem_cons_self
      rw [List.length_cons]
      by_cases zero : p = .decoded 0
      · subst zero
        rw [storedText_zero]
        exact ⟨Nat.zero_le _, Nat.succ_le_succ (Nat.zero_le _)⟩
      · constructor
        · by_cases backslash : p = .decoded (byte '\\')
          · subst backslash
            rw [storedText_cons this zero]
            exact opened
          · rw [symbols_front this zero backslash, List.length_cons]
            omega
        · rw [symbols_behind this zero]
          cases p with
          | char c => simp only; split <;> simp only [List.length_cons] <;> omega
          | decoded v =>
              simp only
              split
              · simp only [List.length_cons]; omega
              · split <;> simp only [List.length_cons] <;> omega
          | quoted c =>
              simp only [List.length_cons]
              rcases this with rfl | rfl
              · rw [symbols_matched, List.length_cons]; omega
              · omega
          | group d => simp only [List.length_cons]; omega
          | matched => simp only [List.length_cons]; omega

theorem unmarked_zero (opened : Bool) (ps : List Piece) :
    ¬ Unmarked opened (.decoded 0 :: ps) := fun unmarked => unmarked.2.1 rfl

def TakenFor (ps : List Piece) : Prop := symbols (storedText ps) = ps.map Piece.symbol

/-- Behind a backslash it is, and the backslash for itself. -/
def TakenBehind (ps : List Piece) : Prop :=
  symbols (byte '\\' :: storedText ps) = .letter (byte '\\') :: ps.map Piece.symbol

section

variable {p : Piece} {ps : List Piece}

/-- A piece other than a decoded backslash is taken for itself unless it is a decoded `&`. -/
theorem takenFor_cons (this : p.Valid) (zero : p ≠ .decoded 0) (backslash : p ≠ .decoded (byte '\\'))
    (closed : TakenFor ps ↔ Unmarked false ps) :
    TakenFor (p :: ps) ↔ Unmarked false (p :: ps) := by
  unfold TakenFor at closed ⊢
  rw [List.map_cons, symbols_front this zero backslash, List.cons.injEq]
  by_cases amp : p = .decoded (byte '&')
  · rw [if_pos amp]
    refine iff_of_false (fun same => ?_) fun unmarked => unmarked.1 amp
    rw [amp] at same
    exact nomatch same.1
  · have closes : p.opens false = false := by
      cases p with
      | decoded v => exact decide_eq_false fun same => backslash (by rw [same])
      | quoted c => rfl
      | char c => rfl
      | group d => rfl
      | matched => rfl
    rw [if_neg amp, and_iff_right rfl, closed, Unmarked, closes]
    simp [amp, zero]

theorem not_takenBehind_backslash (rest : ∀ q ∈ ps, q.Valid) :
    ¬ TakenBehind (.decoded (byte '\\') :: ps) := by
  intro same
  have few := (symbols_length rest).1
  have paired : symbols (byte '\\' :: storedText (.decoded (byte '\\') :: ps)) =
      .letter (byte '\\') :: symbols (storedText ps) := by
    have some_ : Piece.decoded (byte '\\') ≠ .decoded 0 := by decide
    rw [storedText_cons (p := .decoded (byte '\\')) trivial some_]
    exact symbols_quoted (Or.inr rfl) _
  have lengths := congrArg List.length same
  rw [paired] at lengths
  simp only [List.length_cons, List.length_map] at lengths
  omega

theorem takenBehind_decoded {v : Byte} (rest : ∀ q ∈ ps, q.Valid) (zero : v ≠ 0)
    (closed : TakenFor ps ↔ Unmarked false ps) :
    TakenBehind (.decoded v :: ps) ↔ Unmarked true (.decoded v :: ps) := by
  by_cases backslash : v = byte '\\'
  · subst backslash
    refine iff_of_false (not_takenBehind_backslash rest) fun unmarked => ?_
    have plain := unmarked.2.2.1 rfl
    simp [Piece.special] at plain
  unfold TakenFor at closed
  unfold TakenBehind
  rw [symbols_behind (p := .decoded v) trivial fun same => zero (Piece.decoded.inj same)]
  simp only
  cases digit : isdigit v with
  | true => simp [Unmarked, Piece.special, digit]
  | false =>
      rw [if_neg Bool.false_ne_true]
      by_cases amp : v = byte '&'
      · rw [if_pos (Or.inl amp)]
        refine iff_of_false (fun same => ?_) fun unmarked => unmarked.1 (by rw [amp])
        rw [amp] at same
        exact absurd (List.cons.inj same).1 (by decide)
      · rw [if_neg fun quoted => quoted.elim amp backslash]
        simp [Unmarked, Piece.special, Piece.symbol, Piece.opens, digit, closed, amp, backslash, zero]

/-- Behind a backslash a piece is taken for itself unless it says something else there. -/
theorem takenBehind_cons (this : p.Valid) (rest : ∀ q ∈ ps, q.Valid) (zero : p ≠ .decoded 0)
    (closed : TakenFor ps ↔ Unmarked false ps) (opened : TakenBehind ps ↔ Unmarked true ps) :
    TakenBehind (p :: ps) ↔ Unmarked true (p :: ps) := by
  cases p with
  | decoded v => exact takenBehind_decoded rest (fun same => zero (by rw [same])) closed
  | char c =>
      unfold TakenFor at closed
      unfold TakenBehind
      rw [symbols_behind this zero]
      simp only
      cases digit : isdigit c with
      | true => simp [Unmarked, Piece.special, digit]
      | false => simp [Unmarked, Piece.special, Piece.symbol, Piece.opens, digit, closed]
  | quoted c =>
      unfold TakenBehind at opened ⊢
      rw [symbols_behind this zero]
      simp only
      rcases this with rfl | rfl
      · rw [symbols_matched]
        simp [Unmarked, Piece.special, Piece.symbol]
      · rw [List.map_cons, List.cons.injEq, and_iff_right rfl]
        refine opened.trans ?_
        have other : ¬ byte '\\' = byte '&' := by decide
        simp [Unmarked, Piece.special, Piece.opens, other]
  | group d =>
      unfold TakenBehind
      rw [symbols_behind this zero]
      simp [Unmarked, Piece.special, Piece.symbol]
  | matched =>
      have other : ¬ byte '&' = byte '\\' := by decide
      unfold TakenBehind
      rw [symbols_behind this zero]
      simp [Unmarked, Piece.special, other]

end

theorem symbols_iff {ps : List Piece} (valid : ∀ p ∈ ps, p.Valid) :
    (TakenFor ps ↔ Unmarked false ps) ∧ (TakenBehind ps ↔ Unmarked true ps) := by
  induction ps with
  | nil => exact ⟨iff_of_true rfl trivial, iff_of_true rfl trivial⟩
  | cons p ps ih =>
      have rest : ∀ q ∈ ps, q.Valid := fun q member => valid q (List.mem_cons_of_mem p member)
      obtain ⟨closed, opened⟩ := ih rest
      have this := valid p List.mem_cons_self
      by_cases zero : p = .decoded 0
      · subst zero
        exact ⟨iff_of_false (fun same => nomatch same) (unmarked_zero _ _),
          iff_of_false (fun same => nomatch same) (unmarked_zero _ _)⟩
      refine ⟨?_, takenBehind_cons this rest zero closed opened⟩
      by_cases backslash : p = .decoded (byte '\\')
      · subst backslash
        unfold TakenFor
        rw [storedText_cons this zero]
        refine opened.trans ?_
        simp [Unmarked, Piece.opens, byte]
      · exact takenFor_cons this zero backslash closed

/-! ## What it becomes for a match -/

/-- A match in a string of two bytes that gives one of them to a single group. -/
def markingMatch (x : Nat) : Match :=
  let span (no : Nat) := if no = x then (0, 1) else (1, 2)
  ⟨(span 0).1, (span 0).2, fun no => some (span no)⟩

theorem groupText_marking (x : Nat) (a b : Byte) :
    groupText [a, b] (markingMatch x) = marking x a b := by
  funext no
  have span : (markingMatch x).span no = some (if no = x then (0, 1) else (1, 2)) := by
    unfold Match.span markingMatch
    by_cases zero : no = 0
    · rw [if_pos zero, zero]
    · rw [if_neg zero]
  rw [groupText, span, marking]
  by_cases here : no = x
  · rw [if_pos here, if_pos here]
    rfl
  · rw [if_neg here, if_neg here]
    rfl

instance : Nontrivial Byte := ⟨0, 1, by decide⟩

theorem regsub_meaning_iff {ps : List Piece} (valid : ∀ p ∈ ps, p.Valid) :
    (∀ string m, regsub string m (storedText ps) = meaning string m ps) ↔ Unmarked false ps := by
  rw [← (symbols_iff valid).1, TakenFor]
  constructor
  · intro same
    refine eq_of_fill fun x a b => ?_
    have filled := same [a, b] (markingMatch x)
    rwa [regsub_symbols, meaning, groupText_marking] at filled
  · intro same string m
    rw [regsub_symbols, same, meaning]

/-! ## The chunks -/

/-- The loop over a chunk, and the chunks behind it. -/
def compileFrom (c : Byte) (nsub : Option Nat) (sawesc : Bool) (skip : Nat) (p : List Byte)
    (chunks : List (List Byte)) : Except Unreadable (List Byte) :=
  compileChunk c nsub sawesc skip p >>= fun read =>
    match read.2 with
    | none => .ok read.1
    | some sawesc => (compileSubst c nsub sawesc chunks).map (read.1 ++ ·)

theorem compileSubst_cons (c : Byte) (nsub : Option Nat) (sawesc : Bool) (chunk : List Byte)
    (chunks : List (List Byte)) :
    compileSubst c nsub sawesc (chunk :: chunks) = compileFrom c nsub sawesc 0 chunk chunks := by
  rw [compileSubst, compileFrom]
  cases compileChunk c nsub sawesc 0 chunk with
  | error e => rfl
  | ok read =>
      obtain ⟨stored, _ | sawesc⟩ := read
      · rfl
      · show (compileSubst c nsub sawesc chunks >>= fun rest => pure (stored ++ rest)) =
          (compileSubst c nsub sawesc chunks).map (stored ++ ·)
        cases compileSubst c nsub sawesc chunks <;> rfl

/-- Every escape is read in its chunk as it is spelled in the whole text: with no more digits than
it can have, and not cut off by the end of the chunk. -/
def Spelled (c : Byte) : Bool → Nat → List Byte → List (List Byte) → Prop
  | _, _, [], [] => True
  | sawesc, skip, [], chunk :: chunks => Spelled c sawesc skip chunk chunks
  | sawesc, skip + 1, _ :: p, chunks => Spelled c sawesc skip p chunks
  | true, 0, b :: p, chunks =>
      if isdigit b ∨ b = byte '&' ∨ b = byte '\\' then Spelled c false 0 p chunks
      else
        unescape (b :: p) = character (b :: (p ++ chunks.flatten)) ∧
          Spelled c false ((unescape (b :: p)).elim 0 fun read => read.2 - 1) p chunks
  | false, 0, b :: p, chunks =>
      if b = byte '\\' then Spelled c true 0 p chunks
      else if b = c then True
      else Spelled c false 0 p chunks
  termination_by _ _ p chunks => (chunks.length, p.length)

section

variable {c : Byte} {nsub : Option Nat}

/-- What is stored of the pieces of a text, or why it cannot be read. -/
def storedPieces (c : Byte) (nsub : Option Nat) (sawesc : Bool) (skip : Nat) (text : List Byte) :
    Except Unreadable (List Byte) :=
  (pieces c nsub sawesc skip text).map (·.flatMap Piece.stored)

theorem stored_cons (piece : Piece) (rest : Except Unreadable (List Piece)) :
    (rest.map (piece :: ·)).map (·.flatMap Piece.stored) =
      (rest.map (·.flatMap Piece.stored)).map (piece.stored ++ ·) := by
  cases rest <;> rfl

theorem store_bind (bytes : List Byte) (chunk : Except Unreadable Chunk)
    (chunks : List (List Byte)) :
    (Chunk.store bytes chunk >>= fun read =>
        match read.2 with
        | none => .ok read.1
        | some sawesc => (compileSubst c nsub sawesc chunks).map (read.1 ++ ·)) =
      (chunk >>= fun read =>
        match read.2 with
        | none => .ok read.1
        | some sawesc => (compileSubst c nsub sawesc chunks).map (read.1 ++ ·)).map
          (bytes ++ ·) := by
  cases chunk with
  | error e => rfl
  | ok read =>
      obtain ⟨stored, _ | sawesc⟩ := read
      · rfl
      · show (compileSubst c nsub sawesc chunks).map ((bytes ++ stored) ++ ·) =
          ((compileSubst c nsub sawesc chunks).map (stored ++ ·)).map (bytes ++ ·)
        cases compileSubst c nsub sawesc chunks with
        | error e => rfl
        | ok rest => exact congrArg Except.ok (List.append_assoc _ _ _)

/-- What the chunks behind one come to. -/
def BehindStored (c : Byte) (nsub : Option Nat) (chunks : List (List Byte)) : Prop :=
  ∀ sawesc, Spelled c sawesc 0 [] chunks →
    compileSubst c nsub sawesc chunks = storedPieces c nsub sawesc 0 chunks.flatten

theorem compileFrom_piece {chunks : List (List Byte)} {p bytes : List Byte} {flag : Bool}
    {skip : Nat} {piece : Piece} (same : piece.stored = bytes)
    (rest : compileFrom c nsub flag skip p chunks =
      storedPieces c nsub flag skip (p ++ chunks.flatten)) :
    (Chunk.store bytes (compileChunk c nsub flag skip p) >>= fun read =>
      match read.2 with
      | none => .ok read.1
      | some sawesc => (compileSubst c nsub sawesc chunks).map (read.1 ++ ·)) =
      ((pieces c nsub flag skip (p ++ chunks.flatten)).map (piece :: ·)).map
        (·.flatMap Piece.stored) := by
  unfold compileFrom storedPieces at rest
  rw [store_bind, rest, stored_cons, same]

theorem compileFrom_chunk {chunks : List (List Byte)} (behind : BehindStored c nsub chunks)
    (p : List Byte) :
    ∀ {sawesc : Bool} {skip : Nat}, skip ≤ p.length → Spelled c sawesc skip p chunks →
      compileFrom c nsub sawesc skip p chunks =
        storedPieces c nsub sawesc skip (p ++ chunks.flatten) := by
  induction p with
  | nil =>
      intro sawesc skip enough spelled
      have zero : skip = 0 := Nat.le_zero.mp enough
      subst zero
      have rest := behind sawesc spelled
      show (compileSubst c nsub sawesc chunks).map ([] ++ ·) = _
      rw [rest, List.nil_append]
      cases storedPieces c nsub sawesc 0 chunks.flatten <;> rfl
  | cons b p ih =>
      intro sawesc skip enough spelled
      cases skip with
      | succ skip =>
          rw [Spelled] at spelled
          exact ih (Nat.le_of_succ_le_succ enough) spelled
      | zero =>
          have next : ∀ {flag : Bool} {skip : Nat} (piece : Piece) (bytes : List Byte),
              piece.stored = bytes → skip ≤ p.length → Spelled c flag skip p chunks → _ :=
            fun piece bytes same enough spelled => compileFrom_piece same (ih enough spelled)
          cases sawesc with
          | true =>
              rw [Spelled] at spelled
              rw [compileFrom, storedPieces, List.cons_append, compileChunk, pieces]
              by_cases digit : isdigit b
              · rw [if_pos (Or.inl digit)] at spelled
                rw [if_pos digit, if_pos digit]
                split
                · rfl
                · exact next (.group b) _ rfl (Nat.zero_le _) spelled
              · rw [if_neg digit, if_neg digit]
                by_cases quoted : b = byte '&' ∨ b = byte '\\'
                · rw [if_pos (Or.inr quoted)] at spelled
                  rw [if_pos quoted, if_pos quoted]
                  exact next (.quoted b) _ rfl (Nat.zero_le _) spelled
                · rw [if_neg fun any => any.elim digit quoted] at spelled
                  rw [if_neg quoted, if_neg quoted, ← spelled.1]
                  cases read : unescape (b :: p) with
                  | none =>
                      have rest := spelled.2
                      rw [read] at rest
                      exact next (.char b) _ rfl (Nat.zero_le _) rest
                  | some found =>
                      obtain ⟨v, n⟩ := found
                      have rest := spelled.2
                      rw [read] at rest
                      have length := (unescape_read read).2.1
                      exact next (.decoded v) _ rfl (by simp only [List.length_cons] at length; omega)
                        rest
          | false =>
              rw [Spelled] at spelled
              rw [compileFrom, storedPieces, List.cons_append, compileChunk, pieces]
              by_cases backslash : b = byte '\\'
              · rw [if_pos backslash] at spelled
                rw [if_pos backslash, if_pos backslash]
                exact ih (Nat.zero_le _) spelled
              · rw [if_neg backslash] at spelled
                rw [if_neg backslash, if_neg backslash]
                by_cases ends : b = c
                · rw [if_pos ends, if_pos ends]
                  rfl
                · rw [if_neg ends] at spelled
                  rw [if_neg ends, if_neg ends]
                  split
                  · rfl
                  · split
                    · next amp => exact next .matched _ (by rw [amp]; rfl) (Nat.zero_le _) spelled
                    · exact next (.char b) _ rfl (Nat.zero_le _) spelled

theorem compileSubst_pieces (chunks : List (List Byte)) : BehindStored c nsub chunks := by
  induction chunks with
  | nil => exact fun sawesc _ => rfl
  | cons chunk chunks ih =>
      intro sawesc spelled
      rw [Spelled] at spelled
      rw [compileSubst_cons, List.flatten_cons]
      exact compileFrom_chunk ih chunk (Nat.zero_le _) spelled

theorem map_cons_ok {piece : Piece} {rest : Except Unreadable (List Piece)} {ps : List Piece}
    (same : rest.map (piece :: ·) = .ok ps) : ∃ qs, rest = .ok qs ∧ ps = piece :: qs := by
  cases rest with
  | error e => cases same
  | ok qs => exact ⟨qs, rfl, (Except.ok.inj same).symm⟩

theorem pieces_valid (text : List Byte) :
    ∀ {sawesc : Bool} {skip : Nat} {ps : List Piece}, (0 : Byte) ∉ text →
      pieces c nsub sawesc skip text = .ok ps → ∀ p ∈ ps, p.Valid := by
  induction text with
  | nil => exact fun _ read => nomatch read
  | cons b text ih =>
      intro sawesc skip ps clean read
      rw [List.mem_cons, not_or] at clean
      have next : ∀ {flag : Bool} {skip : Nat} (piece : Piece), piece.Valid →
          (pieces c nsub flag skip text).map (piece :: ·) = .ok ps → ∀ p ∈ ps, p.Valid := by
        intro flag skip piece valid read
        obtain ⟨qs, rest, rfl⟩ := map_cons_ok read
        intro p member
        rcases List.mem_cons.mp member with rfl | later
        · exact valid
        · exact ih clean.2 rest p later
      cases skip with
      | succ skip => exact ih clean.2 read
      | zero =>
          cases sawesc with
          | true =>
              rw [pieces] at read
              split at read
              · next digit =>
                  split at read
                  · cases read
                  · exact next (.group b) digit read
              · split at read
                · next quoted => exact next (.quoted b) quoted read
                · next quoted =>
                    rw [not_or] at quoted
                    split at read
                    · exact next (.decoded _) trivial read
                    · exact next (.char b) ⟨quoted.2, quoted.1, Ne.symm clean.1⟩ read
          | false =>
              rw [pieces] at read
              split at read
              · exact ih clean.2 read
              · next backslash =>
                  split at read
                  · cases read
                    exact fun p member => absurd member List.not_mem_nil
                  · split at read
                    · cases read
                    · split at read
                      · exact next .matched trivial read
                      · next amp =>
                          exact next (.char b) ⟨backslash, amp, Ne.symm clean.1⟩ read

end

def Substitutes (c : Byte) (nsub : Option Nat) (chunks : List (List Byte)) (ps : List Piece) :
    Prop :=
  ∃ stored, compileSubst c nsub false chunks = .ok stored ∧
    ∀ string m, regsub string m (cString stored) = meaning string m ps

/-- A replacement whose escapes are read as they are spelled becomes what it stands for if what
they denote is not read once more. -/
theorem compileSubst_substitutes_iff {c : Byte} {nsub : Option Nat} {chunks : List (List Byte)}
    {ps : List Piece} (clean : (0 : Byte) ∉ chunks.flatten)
    (read : pieces c nsub false 0 chunks.flatten = .ok ps)
    (spelled : Spelled c false 0 [] chunks) :
    Substitutes c nsub chunks ps ↔ Unmarked false ps := by
  have compiled : compileSubst c nsub false chunks =
      storedPieces c nsub false 0 chunks.flatten :=
    compileSubst_pieces chunks false spelled
  rw [storedPieces, read] at compiled
  rw [← regsub_meaning_iff (pieces_valid _ clean read)]
  constructor
  · rintro ⟨stored, same, substitutes⟩
    cases compiled.symm.trans same
    exact substitutes
  · intro substitutes
    exact ⟨_, compiled, substitutes⟩

/-- `\t&` -/
theorem compileSubst_tab :
    Substitutes (byte '/') none [ascii ['\\', 't', '&', '/']] [.decoded 9, .matched] := by
  have spelled : Spelled (byte '/') false 0 [] [ascii ['\\', 't', '&', '/']] := by
    have letters : ascii ['\\', 't', '&', '/'] = [92, 116, 38, 47] := rfl
    have bytes : byte '\\' = 92 ∧ byte '/' = 47 ∧ byte '&' = 38 := ⟨rfl, rfl, rfl⟩
    have read : unescape [116, 38, 47] = some (9, 1) := by decide
    have denoted : character [116, 38, 47] = some (9, 1) := by decide
    simp [letters, bytes, Spelled, read, denoted]
  refine (compileSubst_substitutes_iff (by decide +kernel) (by decide +kernel) spelled).mpr ?_
  simp only [Unmarked]
  decide

/-- `\x26` becomes the match, and `\x41` is cut off where its chunk ends. -/
theorem compileSubst_marked :
    (¬ ∀ chunks ps, (0 : Byte) ∉ chunks.flatten →
      pieces (byte '/') none false 0 chunks.flatten = .ok ps →
      Substitutes (byte '/') none chunks ps) ∧
    pieces (byte '/') none false 0 (ascii ['\\', 'x', '4', '1', '/']) =
      .ok [.decoded (byte 'A')] ∧
    compileSubst (byte '/') none false [ascii ['\\', 'x', '4'], ascii ['1', '/']] =
      .ok [4, byte '1'] := by
  refine ⟨fun all => ?_, by decide +kernel, by decide +kernel⟩
  obtain ⟨stored, compiled, substitutes⟩ := all [ascii ['\\', 'x', '2', '6', '/']]
    [.decoded (byte '&')] (by decide +kernel) (by decide +kernel)
  have marked : compileSubst (byte '/') none false [ascii ['\\', 'x', '2', '6', '/']] =
      .ok [byte '&'] := by decide +kernel
  cases marked.symm.trans compiled
  have filled := substitutes [byte 'a'] ⟨0, 1, fun _ => none⟩
  exact absurd filled (by decide +kernel)

end Netbase.Sed
