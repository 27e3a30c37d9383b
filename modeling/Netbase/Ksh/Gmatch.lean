import Mathlib.Data.Nat.Bitwise
import Netbase.Lib.Wildcard
import Netbase.Text.Lines

/-!
# Pattern matching

`do_gmatch` matches a string with a pattern in which `expand` has put `MAGIC` before
the characters that are special.  Pointers are the texts behind them, with a NUL
behind the last byte; parenthesised groups are left out.
-/

namespace Netbase.Ksh.Gmatch

open Netbase.Text Netbase.Lib.Wildcard

def MAGIC : Byte := 7

def NOT : Byte := byte '!'

/-- `*p` -/
def cur (p : List Byte) : Byte := p.headD 0

/-- `p[i]` -/
def nth (p : List Byte) (i : Nat) : Byte := p.getD i 0

/-! ## Classes -/

/-- `*p++` with `MAGIC` taken off, and what is behind it. -/
def classChar (p : List Byte) : Byte × List Byte :=
  if cur p = MAGIC then
    let c := cur p.tail
    if c &&& 128 ≠ 0 then
      let c := c &&& 127
      (if c = byte ' ' then byte '(' else c, p.tail.tail)
    else (c, p.tail.tail)
  else (cur p, p.tail)

def rangeEnd (p : List Byte) : Byte × List Byte :=
  if cur p = MAGIC then
    let d := cur p.tail
    (if d &&& 128 ≠ 0 then d &&& 127 else d, p.tail.tail)
  else (cur p, p.tail)

/-- The loop of `cclass`. -/
def cclassLoop (orig_p : List Byte) (sub : Byte) (not_ : Bool) :
    Nat → List Byte → Bool → Option (List Byte)
  | 0, _, _ => none
  | fuel + 1, p, found =>
      let next (p : List Byte) (found : Bool) :=
        if nth p 0 = MAGIC ∧ nth p 1 = byte ']' then
          if found ≠ not_ then some (p.drop 2) else none
        else cclassLoop orig_p sub not_ fuel p found
      let (c, p) := classChar p
      if c = 0 then if sub = byte '[' then some orig_p else none
      else if nth p 0 = MAGIC ∧ nth p 1 = byte '-' ∧ (nth p 2 ≠ MAGIC ∨ nth p 3 ≠ byte ']') then
        let (d, p) := rangeEnd (p.drop 2)
        if c > d then none else next p (found || c = sub || (c ≤ sub && sub ≤ d))
      else next p (found || c = sub || (c ≤ sub && sub ≤ c))

/-- `cclass` -/
def cclass (p : List Byte) (sub : Byte) : Option (List Byte) :=
  if cur p = MAGIC then
    if cur p.tail = NOT then cclassLoop p sub true (p.length + 1) p.tail.tail false
    else cclassLoop p sub false (p.length + 1) p.tail false
  else cclassLoop p sub false (p.length + 1) p false

/-! ## The loop -/

/-- The operators of parenthesised groups. -/
def groupOps : List Byte := ['*', '+', '?', '@', '!', ' '].map fun c => byte c ||| 128

/-- `pNext` and `sNext` once a star has been met; nothing stands for an `sNext` behind `se`. -/
abbrev Next := Option (List Byte × Option (List Byte))

/-- `backtrack` -/
def backtrack (go : List Byte → List Byte → Next → Option Nat) : Next → Option Nat
  | some (pNext, some sNext) => go sNext pNext (some (pNext, some sNext))
  | _ => some 0

/-- The loop of `do_gmatch`; nothing for a pattern with a group. -/
def doGmatch : Nat → List Byte → List Byte → Next → Option Nat
  | 0, _, _, _ => none
  | fuel + 1, s, p, next =>
      if p = [] ∧ s = [] then some 1
      else
        let sc := cur s
        let pc := cur p
        if pc ≠ MAGIC then
          if sc ≠ pc then backtrack (doGmatch fuel) next else doGmatch fuel s.tail p.tail next
        else
          let pc := cur p.tail
          let rest := p.tail.tail
          if pc = byte '[' then
            if sc = 0 then backtrack (doGmatch fuel) next
            else
              match cclass rest sc with
              | none => backtrack (doGmatch fuel) next
              | some rest => doGmatch fuel s.tail rest next
          else if pc = byte '?' then
            if sc = 0 then backtrack (doGmatch fuel) next else doGmatch fuel s.tail rest next
          else if pc = byte '*' then doGmatch fuel s rest (some (p, behind s))
          else if pc ∈ groupOps then none
          else if sc ≠ pc then backtrack (doGmatch fuel) next
          else doGmatch fuel s.tail rest next

/-! ## Patterns -/

/-- A character that stands for itself in a pattern. -/
def IsPlain (c : Byte) : Prop := c ≠ 0 ∧ c ≠ MAGIC

instance (c : Byte) : Decidable (IsPlain c) := inferInstanceAs (Decidable (_ ∧ _))

/-- A character behind a `MAGIC`. -/
def IsQuoted (c : Byte) : Prop := c ≠ 0 ∧ c < 128

instance (c : Byte) : Decidable (IsQuoted c) := inferInstanceAs (Decidable (_ ∧ _))

/-- A character of a class. -/
inductive Elem where
  | plain (c : Byte) (legal : IsPlain c)
  | quoted (c : Byte) (legal : IsQuoted c)

def Elem.char : Elem → Byte
  | .plain c _ | .quoted c _ => c

def Elem.text : Elem → List Byte
  | .plain c _ => [c]
  | .quoted c _ => [MAGIC, c]

/-- The character stands behind a `MAGIC`. -/
def Elem.Is (e : Elem) (c : Char) : Prop := e.text = [MAGIC, byte c]

instance (e : Elem) (c : Char) : Decidable (e.Is c) := inferInstanceAs (Decidable (_ = _))

/-- One character of a class, or a range. -/
structure Range where
  lo : Elem
  hi : Option Elem

def Range.text (r : Range) : List Byte :=
  r.lo.text ++
    match r.hi with
    | none => []
    | some e => [MAGIC, byte '-'] ++ e.text

def Range.top (r : Range) : Byte :=
  match r.hi with
  | none => r.lo.char
  | some e => e.char

def Range.covers (r : Range) (c : Byte) : Bool := r.lo.char ≤ c && c ≤ r.top

/-- A bracket does not stand for the end of a range, and behind a single character a hyphen is
one of the class only where it is the last. -/
def Separated : List Range → Prop
  | [] => True
  | [r] => ∀ e, r.hi = some e → ¬ e.Is ']'
  | r :: r' :: rest =>
      (∀ e, r.hi = some e → ¬ e.Is ']') ∧
        (r.hi = none → r'.lo.Is '-' → r'.hi = none ∧ rest = []) ∧ Separated (r' :: rest)

structure Class where
  negated : Bool
  first : Range
  more : List Range
  plainFirst : negated = false → ¬ first.lo.Is '!'
  open_ : ∀ r ∈ more, ¬ r.lo.Is ']'
  separated : Separated (first :: more)

def Class.ranges (C : Class) : List Range := C.first :: C.more

/-- A class with a range that is the wrong way round matches nothing. -/
def Class.accepts (C : Class) (c : Byte) : Bool :=
  C.ranges.all (fun r => r.lo.char ≤ r.top) && (C.ranges.any (·.covers c)) != C.negated

def Class.text (C : Class) : List Byte :=
  (if C.negated then [MAGIC, NOT] else []) ++ C.ranges.flatMap Range.text ++ [MAGIC, byte ']']

/-- The quoted character that only its first place in a class gives away. -/
def Class.Clean (C : Class) : Prop := C.negated = true ∨ C.first.lo.text ≠ [MAGIC, MAGIC]

/-- A piece of a pattern for one character. -/
inductive Item where
  | plain (c : Byte) (legal : IsPlain c)
  | quoted (c : Byte) (legal : IsQuoted c)
      (literal : c ≠ byte '[' ∧ c ≠ byte '?' ∧ c ≠ byte '*')
  | any
  | class_ (C : Class)

def Item.accepts : Item → Byte → Bool
  | .plain d _, c | .quoted d _ _, c => c = d
  | .any, _ => true
  | .class_ C, c => C.accepts c

def Item.text : Item → List Byte
  | .plain c _ => [c]
  | .quoted c _ _ => [MAGIC, c]
  | .any => [MAGIC, byte '?']
  | .class_ C => [MAGIC, byte '['] ++ C.text

abbrev Pattern := List (Piece Item)

def pieceText : Piece Item → List Byte
  | .star => [MAGIC, byte '*']
  | .one i => i.text

def Pattern.text (P : Pattern) : List Byte := P.flatMap pieceText

/-- No class that begins with the character `MAGIC` and is not negated is compared with a
character: the pieces in front of it take no text that one is behind. -/
def Pattern.Clean (P : Pattern) (s : List Byte) : Prop :=
  ∀ C rest c t, Reached Item.accepts P s (.one (.class_ C) :: rest) (c :: t) → C.Clean

/-! ## Reading a class -/

theorem low_bit {c : Byte} (low : c < 128) : c &&& 128 = 0 := by
  apply UInt8.toNat_inj.mp
  have clear : c.toNat.testBit 7 = false := Nat.testBit_lt_two_pow (UInt8.lt_iff_toNat_lt.mp low)
  rw [UInt8.toNat_and]
  exact (Nat.and_two_pow c.toNat 7).trans (by rw [clear]; rfl)

theorem Elem.char_ne_zero (e : Elem) : e.char ≠ 0 := by
  cases e with
  | plain c legal => exact legal.1
  | quoted c legal => exact legal.1

theorem classChar_elem (e : Elem) (rest : List Byte) :
    classChar (e.text ++ rest) = (e.char, rest) := by
  cases e with
  | plain c legal => simp [Elem.text, Elem.char, classChar, cur, legal.2]
  | quoted c legal => simp [Elem.text, Elem.char, classChar, cur, low_bit legal.2]

theorem rangeEnd_elem (e : Elem) (rest : List Byte) :
    rangeEnd (e.text ++ rest) = (e.char, rest) := by
  cases e with
  | plain c legal => simp [Elem.text, Elem.char, rangeEnd, cur, legal.2]
  | quoted c legal => simp [Elem.text, Elem.char, rangeEnd, cur, low_bit legal.2]

/-- Where a text of a character begins with a `MAGIC` and some character. -/
theorem Elem.is_of_nth (e : Elem) (c : Char) (rest : List Byte)
    (first : nth (e.text ++ rest) 0 = MAGIC) (second : nth (e.text ++ rest) 1 = byte c) : e.Is c := by
  cases e with
  | plain d legal => exact absurd first legal.2
  | quoted d legal =>
      have same : d = byte c := second
      show [MAGIC, d] = [MAGIC, byte c]
      rw [same]

def closed (more : List Range) (rest : List Byte) : List Byte :=
  more.flatMap Range.text ++ ([MAGIC, byte ']'] ++ rest)

theorem closed_cons (r : Range) (more : List Range) (rest : List Byte) :
    closed (r :: more) rest = r.text ++ closed more rest := by
  simp [closed]

variable {r : Range}

theorem Range.text_single (single : r.hi = none) (rest : List Byte) :
    r.text ++ rest = r.lo.text ++ rest := by
  rw [Range.text, single, List.append_nil]

theorem Range.text_range {e : Elem} (two : r.hi = some e) (rest : List Byte) :
    r.text ++ rest = r.lo.text ++ ([MAGIC, byte '-'] ++ (e.text ++ rest)) := by
  rw [Range.text, two]
  simp

theorem Range.text_front (r : Range) (rest : List Byte) :
    ∃ more, r.text ++ rest = r.lo.text ++ more := by
  rw [Range.text]
  exact ⟨_, List.append_assoc _ _ _⟩

/-- Behind a range the class goes on, unless it was the last. -/
theorem not_closing (open_ : ¬ r.lo.Is ']') (more : List Range) (rest : List Byte) :
    ¬ (nth (closed (r :: more) rest) 0 = MAGIC ∧ nth (closed (r :: more) rest) 1 = byte ']') := by
  obtain ⟨front, text⟩ := r.text_front (closed more rest)
  rw [closed_cons, text]
  exact fun ⟨first, second⟩ => open_ (r.lo.is_of_nth ']' front first second)

theorem not_range {more : List Range} (separated : Separated (r :: more)) (single : r.hi = none)
    (rest : List Byte) :
    ¬ (nth (closed more rest) 0 = MAGIC ∧ nth (closed more rest) 1 = byte '-' ∧
      (nth (closed more rest) 2 ≠ MAGIC ∨ nth (closed more rest) 3 ≠ byte ']')) := by
  rintro ⟨first, second, other⟩
  cases more with
  | nil =>
      have bracket : byte ']' = byte '-' := second
      exact absurd bracket (by decide)
  | cons r' more =>
      obtain ⟨front, text⟩ := r'.text_front (closed more rest)
      rw [closed_cons, text] at first second
      have hyphen : r'.lo.Is '-' := r'.lo.is_of_nth '-' front first second
      obtain ⟨single', last⟩ := separated.2.1 single hyphen
      rw [closed_cons, Range.text_single single', last, show r'.lo.text = _ from hyphen] at other
      rcases other with other | other
      · exact other rfl
      · exact other rfl

theorem Separated.tail {more : List Range} (separated : Separated (r :: more)) :
    Separated more := by
  cases more with
  | nil => trivial
  | cons r' more => exact separated.2.2

theorem Separated.hi {more : List Range} (separated : Separated (r :: more)) {e : Elem}
    (two : r.hi = some e) : ¬ e.Is ']' := by
  cases more with
  | nil => exact separated e two
  | cons r' more => exact separated.1 e two

theorem is_range {e : Elem} (open_ : ¬ e.Is ']') (rest : List Byte) :
    nth ([MAGIC, byte '-'] ++ (e.text ++ rest)) 0 = MAGIC ∧
      nth ([MAGIC, byte '-'] ++ (e.text ++ rest)) 1 = byte '-' ∧
      (nth ([MAGIC, byte '-'] ++ (e.text ++ rest)) 2 ≠ MAGIC ∨
        nth ([MAGIC, byte '-'] ++ (e.text ++ rest)) 3 ≠ byte ']') := by
  refine ⟨rfl, rfl, ?_⟩
  by_contra both
  obtain ⟨third, fourth⟩ := not_or.mp both
  exact open_ (e.is_of_nth ']' rest (not_not.mp third) (not_not.mp fourth))

/-- What the loop of `cclass` has found when it comes to the end. -/
def verdict (rs : List Range) (sub : Byte) (found not_ : Bool) (rest : List Byte) :
    Option (List Byte) :=
  if rs.all (fun r => r.lo.char ≤ r.top) then
    if (found || rs.any (·.covers sub)) ≠ not_ then some rest else none
  else none

theorem verdict_nil (sub : Byte) (found not_ : Bool) (rest : List Byte) :
    verdict [] sub found not_ rest = if found ≠ not_ then some rest else none := by
  simp [verdict]

theorem verdict_cons (r : Range) (rs : List Range) (sub : Byte) (found not_ : Bool)
    (rest : List Byte) : verdict (r :: rs) sub found not_ rest =
      if r.lo.char ≤ r.top then verdict rs sub (found || r.covers sub) not_ rest else none := by
  unfold verdict
  rw [List.all_cons, List.any_cons, Bool.or_assoc]
  by_cases ordered : r.lo.char ≤ r.top
  · rw [if_pos ordered, decide_eq_true ordered, Bool.true_and]
  · rw [if_neg ordered, decide_eq_false ordered, Bool.false_and, if_neg Bool.false_ne_true]

theorem covers_eq (ordered : r.lo.char ≤ r.top) (sub : Byte) (found : Bool) :
    (found || decide (r.lo.char = sub) || (decide (r.lo.char ≤ sub) && decide (sub ≤ r.top))) =
      (found || r.covers sub) := by
  have self : r.lo.char = sub → r.covers sub = true := by
    rintro rfl
    simp [Range.covers, ordered]
  by_cases same : r.lo.char = sub
  · simp [same, self same]
  · simp [same, Range.covers]

theorem cclassLoop_ranges (orig : List Byte) (sub : Byte) (not_ : Bool) (rest : List Byte) :
    ∀ (more : List Range) (r : Range) (fuel : Nat) (found : Bool),
      (∀ q ∈ more, ¬ q.lo.Is ']') → Separated (r :: more) → more.length < fuel →
      cclassLoop orig sub not_ fuel (closed (r :: more) rest) found =
        verdict (r :: more) sub found not_ rest := by
  -- one range is read, and what is behind it decides whether the loop goes on
  have read : ∀ (r : Range) (more : List Range) (fuel : Nat) (found : Bool),
      Separated (r :: more) →
      cclassLoop orig sub not_ (fuel + 1) (closed (r :: more) rest) found =
        if r.lo.char ≤ r.top then
          if nth (closed more rest) 0 = MAGIC ∧ nth (closed more rest) 1 = byte ']' then
            if (found || r.covers sub) ≠ not_ then some ((closed more rest).drop 2) else none
          else cclassLoop orig sub not_ fuel (closed more rest) (found || r.covers sub)
        else none := by
    intro r more fuel found separated
    rw [cclassLoop, closed_cons]
    cases hi : r.hi with
    | none =>
        have ordered : r.lo.char ≤ r.top := by
          rw [Range.top, hi]
          exact UInt8.le_refl _
        have same := covers_eq ordered sub found
        rw [Range.top, hi] at same
        rw [Range.text_single hi, classChar_elem]
        dsimp only
        rw [if_neg r.lo.char_ne_zero, if_neg (not_range separated hi rest), if_pos ordered, same]
    | some e =>
        rw [Range.text_range hi, classChar_elem]
        dsimp only
        rw [if_neg r.lo.char_ne_zero, if_pos (is_range (separated.hi hi) _)]
        have behind : ([MAGIC, byte '-'] ++ (e.text ++ closed more rest)).drop 2 =
            e.text ++ closed more rest := rfl
        have top : r.top = e.char := by rw [Range.top, hi]
        rw [behind, rangeEnd_elem]
        dsimp only
        by_cases ordered : r.lo.char ≤ r.top
        · have same := covers_eq ordered sub found
          rw [top] at same ordered
          rw [top, if_pos ordered, if_neg (show ¬ r.lo.char > e.char from UInt8.not_lt.mpr ordered),
            same]
        · rw [if_neg ordered,
            if_pos (show r.lo.char > e.char by rw [← top]; exact UInt8.not_le.mp ordered)]
  intro more
  induction more with
  | nil =>
      intro r fuel found open_ separated enough
      obtain ⟨fuel, rfl⟩ : ∃ f, fuel = f + 1 := ⟨fuel - 1, by omega⟩
      have closing : nth (closed [] rest) 0 = MAGIC ∧ nth (closed [] rest) 1 = byte ']' :=
        ⟨rfl, rfl⟩
      rw [read r [] fuel found separated, if_pos closing, verdict_cons, verdict_nil]
      rfl
  | cons r' more ih =>
      intro r fuel found open_ separated enough
      obtain ⟨fuel, rfl⟩ : ∃ f, fuel = f + 1 := ⟨fuel - 1, by omega⟩
      have goesOn := not_closing (open_ r' List.mem_cons_self) more rest
      rw [read r (r' :: more) fuel found separated, if_neg goesOn,
        ih r' fuel _ (fun q member => open_ q (List.mem_cons_of_mem _ member)) separated.tail
          (by simp only [List.length_cons] at enough; omega)]
      exact (verdict_cons r (r' :: more) sub found not_ rest).symm

theorem Separated.congr {r' : Range} {more : List Range} (separated : Separated (r :: more))
    (same : r'.hi = r.hi) : Separated (r' :: more) := by
  cases more with
  | nil => exact fun e two => separated e (same ▸ two)
  | cons q more =>
      exact ⟨fun e two => separated.1 e (same ▸ two), fun single => separated.2.1 (same ▸ single),
        separated.2.2⟩

theorem length_closed (more : List Range) (rest : List Byte) :
    more.length ≤ (closed more rest).length := by
  induction more with
  | nil => exact Nat.zero_le _
  | cons r more ih =>
      have front : 1 ≤ r.text.length := by
        unfold Range.text
        cases r.lo <;> simp [Elem.text]
      rw [closed_cons, List.length_append, List.length_cons]
      omega

theorem Class.text_append (C : Class) (rest : List Byte) : C.text ++ rest =
    (if C.negated then [MAGIC, NOT] else []) ++ closed (C.first :: C.more) rest := by
  simp [Class.text, closed, Class.ranges]

theorem verdict_accepts (C : Class) (sub : Byte) (rest : List Byte) :
    verdict (C.first :: C.more) sub false C.negated rest =
      if C.accepts sub then some rest else none := by
  unfold verdict Class.accepts Class.ranges
  rw [Bool.false_or]
  cases (C.first :: C.more).all (fun r => decide (r.lo.char ≤ r.top)) with
  | true =>
      rw [if_pos rfl, Bool.true_and]
      simp only [bne_iff_ne]
  | false =>
      rw [if_neg Bool.false_ne_true, Bool.false_and]
      rfl

/-- A class takes a character of its set and leaves what is behind it. -/
theorem cclass_text (C : Class) (clean : C.Clean) (rest : List Byte) (sub : Byte) :
    cclass (C.text ++ rest) sub = if C.accepts sub then some rest else none := by
  rw [← verdict_accepts, C.text_append]
  have room := length_closed (C.first :: C.more) rest
  simp only [List.length_cons] at room
  cases negated : C.negated with
  | true =>
      have first : cur ([MAGIC, NOT] ++ closed (C.first :: C.more) rest) = MAGIC := rfl
      have second : cur ([MAGIC, NOT] ++ closed (C.first :: C.more) rest).tail = NOT := rfl
      rw [if_pos rfl, cclass, if_pos first, if_pos second]
      refine cclassLoop_ranges _ sub true rest C.more C.first _ false C.open_ C.separated ?_
      simp only [List.length_append]
      omega
  | false =>
      rw [if_neg Bool.false_ne_true, List.nil_append]
      cases lo : C.first.lo with
      | plain c legal =>
          have front : cur (closed (C.first :: C.more) rest) = c := by
            rw [closed_cons, Range.text, lo]
            rfl
          rw [cclass, if_neg (by rw [front]; exact legal.2)]
          exact cclassLoop_ranges _ sub false rest C.more C.first _ false C.open_ C.separated
            (by omega)
      | quoted c legal =>
          have notMagic : c ≠ MAGIC := by
            rcases clean with impossible | other
            · rw [negated] at impossible
              cases impossible
            · rw [lo] at other
              rintro rfl
              exact other rfl
          have notNot : c ≠ NOT := by
            have other := C.plainFirst negated
            rw [lo] at other
            rintro rfl
            exact other rfl
          -- the `MAGIC` is lost, and the character is read as a plain one
          let first : Range := { C.first with lo := .plain c ⟨legal.1, notMagic⟩ }
          have text : closed (C.first :: C.more) rest = MAGIC :: closed (first :: C.more) rest := by
            rw [closed_cons, closed_cons, Range.text, Range.text, lo]
            rfl
          have front : cur (closed (first :: C.more) rest) = c := by
            rw [closed_cons]
            rfl
          have same : verdict (first :: C.more) sub false false rest =
              verdict (C.first :: C.more) sub false false rest := by
            have char : first.lo.char = C.first.lo.char := by rw [lo]; rfl
            have top : first.top = C.first.top := by
              unfold Range.top
              rw [char]
            rw [verdict_cons, verdict_cons, Range.covers, Range.covers, char, top]
          rw [← same, cclass, text, if_pos (show cur (MAGIC :: _) = MAGIC from rfl),
            if_neg (by rw [List.tail_cons, front]; exact notNot), List.tail_cons]
          refine cclassLoop_ranges _ sub false rest C.more first _ false C.open_
            (C.separated.congr rfl) ?_
          have room' := length_closed (first :: C.more) rest
          simp only [List.length_cons] at room' ⊢
          omega

/-! ## The scan -/

/-- A string without a NUL. -/
def IsString (s : List Byte) : Prop := ∀ c ∈ s, c ≠ 0

instance (s : List Byte) : Decidable (IsString s) := inferInstanceAs (Decidable (∀ c ∈ s, _))

theorem IsString.behind {s t : List Byte} (string : IsString s) (left : behind s = some t) :
    IsString t := by
  cases s with
  | nil => cases left
  | cons c s =>
      cases left
      exact fun b member => string b (List.mem_cons_of_mem _ member)

/-- What the loop has of the star to fall back to. -/
def starNext : Option (Back Item Byte) → Next
  | none => none
  | some back => some (Pattern.text (.star :: back.rest), back.next)

/-- The star to fall back to goes on absorbing at a string. -/
def Sound (whole : Pattern) (text : List Byte) (back : Option (Back Item Byte)) : Prop :=
  ∀ rest next, back = some ⟨rest, some next⟩ →
    Absorbing Item.accepts whole text rest next ∧ IsString next

/-- The places the loop comes to. -/
def Visits (whole : Pattern) (text : List Byte) (P : Pattern) (s : List Byte) : Prop :=
  Reached Item.accepts whole text P s ∨
    ∃ rest, P = .star :: rest ∧ Absorbing Item.accepts whole text rest s

theorem Pattern.text_cons (piece : Piece Item) (P : Pattern) :
    Pattern.text (piece :: P) = pieceText piece ++ P.text := by
  simp [Pattern.text]

theorem not_group {c : Byte} (low : c < 128) : c ∉ groupOps := by
  intro member
  obtain ⟨op, -, rfl⟩ := List.mem_map.mp member
  have high : 128 ≤ byte op ||| 128 := by
    rw [UInt8.le_iff_toNat_le, UInt8.toNat_or]
    exact Nat.right_le_or
  exact UInt8.not_lt.mpr high low

theorem doGmatch_nil (fuel : Nat) {c : Byte} {t : List Byte} (text : c ≠ 0) (next : Next) :
    doGmatch (fuel + 1) (c :: t) [] next = backtrack (doGmatch fuel) next := by
  rw [doGmatch, if_neg (by simp)]
  dsimp only [cur, List.headD_nil, List.headD_cons]
  rw [if_pos (by decide), if_pos text]

theorem doGmatch_plain (fuel : Nat) {d : Byte} (legal : IsPlain d) (s rest : List Byte)
    (next : Next) : doGmatch (fuel + 1) s (d :: rest) next =
      if cur s ≠ d then backtrack (doGmatch fuel) next else doGmatch fuel s.tail rest next := by
  rw [doGmatch, if_neg (by simp)]
  dsimp only [cur, List.headD_cons, List.tail_cons]
  rw [if_pos legal.2]
  rfl

theorem doGmatch_magic (fuel : Nat) (d : Byte) (s rest : List Byte) (next : Next) :
    doGmatch (fuel + 1) s (MAGIC :: d :: rest) next =
      if d = byte '[' then
        if cur s = 0 then backtrack (doGmatch fuel) next
        else
          match cclass rest (cur s) with
          | none => backtrack (doGmatch fuel) next
          | some rest => doGmatch fuel s.tail rest next
      else if d = byte '?' then
        if cur s = 0 then backtrack (doGmatch fuel) next else doGmatch fuel s.tail rest next
      else if d = byte '*' then doGmatch fuel s rest (some (MAGIC :: d :: rest, behind s))
      else if d ∈ groupOps then none
      else if cur s ≠ d then backtrack (doGmatch fuel) next
      else doGmatch fuel s.tail rest next := by
  rw [doGmatch, if_neg (by simp)]
  dsimp only [cur, List.headD_cons, List.tail_cons]
  rw [if_neg (by simp)]
  rfl

/-- Behind a piece for one character the loop goes on where the character is taken. -/
theorem doGmatch_item (fuel : Nat) (i : Item) {s : List Byte} (string : IsString s)
    (clean : ∀ C, i = .class_ C → s ≠ [] → C.Clean) (rest : List Byte) (next : Next) :
    doGmatch (fuel + 1) s (i.text ++ rest) next =
      match s with
      | [] => backtrack (doGmatch fuel) next
      | c :: t =>
          if i.accepts c then doGmatch fuel t rest next else backtrack (doGmatch fuel) next := by
  have end_ : ∀ d : Byte, d ≠ 0 → cur [] ≠ d := fun d real same => real same.symm
  have here : ∀ {c : Byte} {t : List Byte}, s = c :: t → c ≠ 0 := by
    rintro c t rfl
    exact string c List.mem_cons_self
  cases i with
  | plain d legal =>
      rw [Item.text, List.singleton_append, doGmatch_plain fuel legal]
      cases s with
      | nil => exact if_pos (end_ d legal.1)
      | cons c t => simp [Item.accepts, cur]
  | quoted d legal literal =>
      obtain ⟨bracket, mark, star⟩ := literal
      rw [Item.text, List.cons_append, List.singleton_append, doGmatch_magic, if_neg bracket,
        if_neg mark, if_neg star, if_neg (not_group legal.2)]
      cases s with
      | nil => exact if_pos (end_ d legal.1)
      | cons c t => simp [Item.accepts, cur]
  | any =>
      rw [Item.text, List.cons_append, List.singleton_append, doGmatch_magic, if_neg (by decide),
        if_pos rfl]
      cases s with
      | nil => rfl
      | cons c t => simp [Item.accepts, cur, here rfl]
  | class_ C =>
      rw [Item.text, List.append_assoc, List.cons_append, List.singleton_append, doGmatch_magic,
        if_pos rfl]
      cases s with
      | nil => rfl
      | cons c t =>
          rw [cclass_text C (clean C rfl (List.cons_ne_nil c t)),
            if_neg (show ¬ cur (c :: t) = 0 from here rfl), show cur (c :: t) = c from rfl]
          by_cases taken : C.accepts c = true
          · rw [if_pos taken]
            exact (if_pos taken).symm
          · rw [if_neg taken]
            exact (if_neg taken).symm

theorem doGmatch_scan {whole : Pattern} {text : List Byte} (clean : whole.Clean text) :
    ∀ fuel (s : List Byte) (P : Pattern) (back : Option (Back Item Byte)),
    IsString s → Visits whole text P s → Sound whole text back →
    doGmatch fuel s P.text (starNext back) = (scan Item.accepts fuel P s back).map Bool.toNat := by
  intro fuel
  induction fuel with
  | zero => exact fun s P back _ _ _ => rfl
  | succ fuel ih =>
      intro s P back string visits sound
      have resumed : backtrack (doGmatch fuel) (starNext back) =
          (resume (scan Item.accepts fuel) back).map Bool.toNat := by
        rcases back with _ | ⟨rest, _ | next⟩
        · rfl
        · rfl
        · obtain ⟨absorbing, string⟩ := sound rest next rfl
          exact ih next (.star :: rest) (some ⟨rest, some next⟩) string
            (Or.inr ⟨rest, rfl, absorbing⟩) sound
      cases P with
      | nil =>
          cases s with
          | nil => rfl
          | cons c t =>
              rw [show Pattern.text [] = [] from rfl,
                doGmatch_nil fuel (string c List.mem_cons_self), resumed]
              rfl
      | cons piece P =>
          cases piece with
          | star =>
              have absorbing : Absorbing Item.accepts whole text P s := by
                rcases visits with reached | ⟨rest, same, absorbing⟩
                · exact reached.absorbing
                · cases same
                  exact absorbing
              rw [Pattern.text_cons, pieceText, List.cons_append, List.singleton_append,
                doGmatch_magic, if_neg (by decide), if_neg (by decide), if_pos rfl, scan]
              refine ih s P (some ⟨P, behind s⟩) string (Or.inl absorbing.reached) ?_
              rintro rest next same
              injection same with same
              injection same with pieces left
              subst pieces
              exact ⟨absorbing.behind left, string.behind left⟩
          | one i =>
              have reached : Reached Item.accepts whole text (.one i :: P) s := by
                rcases visits with reached | ⟨rest, same, _⟩
                · exact reached
                · cases same
              have cleared : ∀ C, i = .class_ C → s ≠ [] → C.Clean := by
                rintro C rfl nonempty
                cases s with
                | nil => exact absurd rfl nonempty
                | cons c t => exact clean C P c t reached
              rw [Pattern.text_cons, pieceText, doGmatch_item fuel i string cleared]
              cases s with
              | nil =>
                  rw [scan]
                  exact resumed
              | cons c t =>
                  dsimp only
                  rw [scan, resumed]
                  cases taken : i.accepts c with
                  | true =>
                      rw [if_pos rfl, if_pos rfl]
                      exact ih t P back (fun b member => string b (List.mem_cons_of_mem _ member))
                        (Or.inl (reached.next taken)) sound
                  | false => rw [if_neg Bool.false_ne_true, if_neg Bool.false_ne_true]

/-- Enough steps for a pattern of so many pieces and so long a string. -/
def steps (P : Pattern) (s : List Byte) : Nat := (P.length + 3) * (s.length + 1) + P.length + 1

/-- Where no class that begins with the character `MAGIC` is come to, the loop comes to an end,
and it returns 1 for what the recursive definition of matching accepts. -/
theorem doGmatch_matches (P : Pattern) (s : List Byte) (fuel : Nat) (clean : P.Clean s)
    (string : IsString s) (enough : steps P s ≤ fuel) :
    ∃ result, doGmatch fuel s P.text none = some result ∧
      (result = 1 ∨ result = 0) ∧ (result = 1 ↔ Matches Item.accepts P s) := by
  obtain ⟨found, scanned, same⟩ := scan_matches Item.accepts P s fuel enough
  refine ⟨found.toNat, ?_, ?_, ?_⟩
  · rw [show (none : Next) = starNext none from rfl, doGmatch_scan clean fuel s P none string
      (Or.inl reached_start) (fun rest next impossible => by cases impossible), scanned]
    rfl
  · cases found <;> simp
  · rw [← same]
    cases found <;> simp

/-- The class of `MAGIC` alone. -/
def bel : Class where
  negated := false
  first := ⟨.quoted MAGIC (by decide), none⟩
  more := []
  plainFirst := by decide
  open_ := by simp
  separated := by simp [Separated]

/-- Its text is read beyond its end: a string it takes is not found. -/
theorem bel_misread : doGmatch 20 [7] (Pattern.text [.one (.class_ bel)]) none = some 0 ∧
    Matches Item.accepts [.one (.class_ bel)] [7] :=
  ⟨by decide, 7, [], rfl, by decide, rfl⟩

/-- The characters from `a` to `m`. -/
def low : Class where
  negated := false
  first := ⟨.plain 97 (by decide), some (.plain 109 (by decide))⟩
  more := []
  plainFirst := by decide
  open_ := by simp
  separated := by simp [Separated, Elem.Is, Elem.text]

theorem doGmatch_matches_low :
    ∃ result, doGmatch 40 [120, 98, 121] (Pattern.text [.star, .one (.class_ low), .one .any]) none =
        some result ∧ (result = 1 ∨ result = 0) ∧
      (result = 1 ↔ Matches Item.accepts [.star, .one (.class_ low), .one .any] [120, 98, 121]) :=
  doGmatch_matches _ _ _
    (by
      rintro C rest c t ⟨front, u, pieces, _⟩
      have member : Piece.one (.class_ C) ∈ ([.star, .one (.class_ low), .one .any] : Pattern) := by
        rw [pieces]
        simp
      have same : C = low := by simpa using member
      rw [same]
      exact Or.inr (by decide))
    (by decide +kernel) (by decide)

end Netbase.Ksh.Gmatch
