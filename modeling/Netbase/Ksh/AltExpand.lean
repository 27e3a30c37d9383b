import Mathlib.Data.List.TakeWhile
import Netbase.Ksh.Gmatch

/-!
# Brace expansion

`alt_expand` replaces the first brace group of a word by each of its alternatives in
turn and goes on in the words it has built.  Pointers are the texts behind them, so the
distance of two of them is that of their lengths; file names are not generated.
-/

namespace Netbase.Ksh.AltExpand

open Netbase.Text Netbase.Ksh.Gmatch

def OBRACE : Byte := byte '{'

def CBRACE : Byte := byte '}'

abbrev Words := List (List Byte)

/-- `p - start` -/
def distance (start p : List Byte) : Nat := start.length - p.length

/-! ## Removing the marks -/

/-- The characters `strchr` finds in `"*+?@! "`, its NUL included. -/
def extended : List Byte := ['*', '+', '?', '@', '!', ' ', '\x00'].map byte

/-- The loop of `debunk`, with the room left of `dlen`. -/
def debunkLoop : List Byte → Nat → List Byte
  | [], _ => []
  | _ :: _, 0 => []
  | c :: s, room + 1 =>
      if c ≠ MAGIC then c :: debunkLoop s room
      else
        match s with
        | [] => []
        | d :: s =>
            if d &&& 128 = 0 ∨ d &&& 127 ∉ extended then d :: debunkLoop s room
            else if d &&& 127 ≠ byte ' ' then
              match room with
              | 0 => [d &&& 127]
              | room + 1 => (d &&& 127) :: byte '(' :: debunkLoop s room
            else byte '(' :: debunkLoop s room

/-- `debunk` of a text in its own place. -/
def debunk (s : List Byte) (dlen : Nat) : List Byte :=
  let front := s.takeWhile (· ≠ MAGIC)
  if front.length = s.length then s
  else if dlen ≤ front.length then s
  else front ++ debunkLoop (s.drop front.length) (dlen - front.length)

/-! ## Expanding -/

def openBrace : List Byte → Option (List Byte)
  | [] => none
  | c :: p =>
      if c = MAGIC then
        match p with
        | [] => none
        | d :: q => if d = OBRACE then some (c :: d :: q) else openBrace q
      else openBrace p

/-- The search for the matching close brace: where it ends, `count` and `comma`. -/
def closeBrace : Nat → Option (List Byte) → List Byte → List Byte × Nat × Option (List Byte)
  | count, comma, [] => ([], count, comma)
  | count, comma, c :: p =>
      if count = 0 then (c :: p, count, comma)
      else if c = MAGIC then
        match p with
        | [] => ([], count, comma)
        | d :: q =>
            if d = OBRACE then closeBrace (count + 1) comma q
            else if d = CBRACE then closeBrace (count - 1) comma q
            else if d = byte ',' ∧ count = 1 then closeBrace count (some (d :: q)) q
            else closeBrace count comma q
      else closeBrace count comma p

/-- The loop over the alternatives. -/
def altFields (go : List Byte → List Byte → List Byte → Words → Option Words)
    (start braceStart braceEnd end_ : List Byte) :
    List Byte → Nat → List Byte → Words → Option Words
  | [], _, _, wp => some wp
  | c :: p, count, fieldStart, wp =>
      if (c :: p).length = braceEnd.length then some wp
      else if c = MAGIC then
        match p with
        | [] => some wp
        | d :: q =>
            if d = OBRACE then
              altFields go start braceStart braceEnd end_ q (count + 1) fieldStart wp
            else
              let count := if d = CBRACE then count - 1 else count
              if (d = CBRACE ∧ count = 0) ∨ (d = byte ',' ∧ count = 1) then
                let l1 := distance start braceStart
                let l2 := distance fieldStart (c :: d :: q)
                let l3 := distance braceEnd end_
                let new := start.take l1 ++ fieldStart.take l2 ++ braceEnd.take l3
                match go new (new.drop l1) (new.drop (l1 + l2 + l3)) wp with
                | none => none
                | some wp => altFields go start braceStart braceEnd end_ q count q wp
              else altFields go start braceStart braceEnd end_ q count fieldStart wp
      else altFields go start braceStart braceEnd end_ p count fieldStart wp

/-- `alt_expand` -/
def altExpand : Nat → List Byte → List Byte → List Byte → Words → Option Words
  | 0, _, _, _, _ => none
  | fuel + 1, start, expStart, end_, wp =>
      match openBrace expStart with
      | none => some (wp ++ [debunk start (distance start end_)])
      | some braceStart =>
          let (braceEnd, count, comma) := closeBrace 1 none (braceStart.drop 2)
          if count ≠ 0 then some (wp ++ [debunk start (distance start end_)])
          else
            match comma with
            | none => altExpand fuel start braceEnd end_ wp
            | some _ =>
                altFields (altExpand fuel) start braceStart braceEnd end_ (braceStart.drop 2) 1
                  (braceStart.drop 2) wp

/-! ## Words -/

/-- A character of a word that is no brace. -/
inductive Piece where
  | plain (c : Byte) (legal : c ≠ 0 ∧ c ≠ MAGIC)
  | quoted (c : Byte) (legal : c ≠ 0 ∧ c ≠ 128 ∧ c ≠ OBRACE ∧ c ≠ CBRACE)

def Piece.text : Piece → List Byte
  | .plain c _ => [c]
  | .quoted c _ => [MAGIC, c]

/-- The character without its mark; an operator of a group with its parenthesis. -/
def Piece.bare : Piece → List Byte
  | .plain c _ => [c]
  | .quoted c _ =>
      if c ∉ groupOps then [c]
      else if c = byte ' ' ||| 128 then [byte '(']
      else [c &&& 127, byte '(']

/-- The marked comma, which separates alternatives inside braces. -/
def Piece.IsComma (u : Piece) : Prop := u.text = [MAGIC, byte ',']

mutual

/-- A word: characters, and groups of alternatives in braces. -/
inductive Word where
  | done
  | piece (u : Piece) (rest : Word)
  | group (fields : Fields) (rest : Word)

/-- The alternatives of a group, two at least. -/
inductive Fields where
  | two (first second : Word)
  | more (first : Word) (others : Fields)

end

mutual

def Word.text : Word → List Byte
  | .done => []
  | .piece u rest => u.text ++ rest.text
  | .group fields rest => [MAGIC, OBRACE] ++ (fields.text ++ ([MAGIC, CBRACE] ++ rest.text))

def Fields.text : Fields → List Byte
  | .two first second => first.text ++ ([MAGIC, byte ','] ++ second.text)
  | .more first others => first.text ++ ([MAGIC, byte ','] ++ others.text)

end

mutual

/-- Inside braces a marked comma is no character of a word. -/
def Word.Legal (inside : Bool) : Word → Prop
  | .done => True
  | .piece u rest => (inside = true → ¬ u.IsComma) ∧ rest.Legal inside
  | .group fields rest => fields.Legal ∧ rest.Legal inside

def Fields.Legal : Fields → Prop
  | .two first second => first.Legal true ∧ second.Legal true
  | .more first others => first.Legal true ∧ others.Legal

end

mutual

/-- What a word stands for: each alternative in its order, with all that the rest stands for. -/
def Word.words : Word → List (List Piece)
  | .done => [[]]
  | .piece u rest => rest.words.map (u :: ·)
  | .group fields rest => fields.words.flatMap fun front => rest.words.map (front ++ ·)

def Fields.words : Fields → List (List Piece)
  | .two first second => first.words ++ second.words
  | .more first others => first.words ++ others.words

end

mutual

def Word.groups : Word → Nat
  | .done => 0
  | .piece _ rest => rest.groups
  | .group fields rest => fields.groups + rest.groups + 1

def Fields.groups : Fields → Nat
  | .two first second => first.groups + second.groups
  | .more first others => first.groups + others.groups

end

def Fields.list : Fields → List Word
  | .two first second => [first, second]
  | .more first others => first :: others.list

def Word.append : Word → Word → Word
  | .done, w => w
  | .piece u rest, w => .piece u (rest.append w)
  | .group fields rest, w => .group fields (rest.append w)

/-- Characters as they stand in a word. -/
def textOf (us : List Piece) : List Byte := us.flatMap Piece.text

/-- Characters without their marks. -/
def bare (us : List Piece) : List Byte := us.flatMap Piece.bare

/-! ## What the words are -/

theorem Word.text_append (a b : Word) : (a.append b).text = a.text ++ b.text := by
  match a with
  | .done => rfl
  | .piece u rest => rw [Word.append, Word.text, Word.text, rest.text_append b, List.append_assoc]
  | .group fields rest =>
      rw [Word.append, Word.text, Word.text, rest.text_append b]
      simp only [List.append_assoc]

theorem Word.groups_append (a b : Word) : (a.append b).groups = a.groups + b.groups := by
  match a with
  | .done => exact (Nat.zero_add _).symm
  | .piece u rest => exact rest.groups_append b
  | .group fields rest =>
      rw [Word.append, Word.groups, Word.groups, rest.groups_append b]
      omega

theorem Word.words_append (a b : Word) : (a.append b).words =
    a.words.flatMap fun front => b.words.map (front ++ ·) := by
  match a with
  | .done => simp [Word.append, Word.words]
  | .piece u rest =>
      rw [Word.append, Word.words, Word.words, rest.words_append b]
      simp only [List.map_flatMap, List.flatMap_map, List.map_map]
      rfl
  | .group fields rest =>
      rw [Word.append, Word.words, Word.words, rest.words_append b]
      simp only [List.map_flatMap, List.flatMap_map, List.flatMap_assoc, List.map_map]
      simp only [Function.comp_def, List.append_assoc]

theorem Word.legal_append {inside : Bool} {a b : Word} (first : a.Legal true)
    (second : b.Legal inside) : (a.append b).Legal inside := by
  match a with
  | .done => exact second
  | .piece u rest => exact ⟨fun _ => first.1 rfl, rest.legal_append first.2 second⟩
  | .group fields rest => exact ⟨first.1, rest.legal_append first.2 second⟩

theorem Fields.legal_list {fields : Fields} (legal : fields.Legal) :
    ∀ a ∈ fields.list, a.Legal true := by
  match fields with
  | .two first second =>
      intro a member
      rcases List.mem_pair.mp member with rfl | rfl
      · exact legal.1
      · exact legal.2
  | .more first others =>
      intro a member
      rcases List.mem_cons.mp member with rfl | member
      · exact legal.1
      · exact Fields.legal_list legal.2 a member

theorem Fields.groups_list (fields : Fields) : ∀ a ∈ fields.list, a.groups ≤ fields.groups := by
  match fields with
  | .two first second =>
      intro a member
      rw [Fields.groups]
      rcases List.mem_pair.mp member with rfl | rfl <;> omega
  | .more first others =>
      intro a member
      rw [Fields.groups]
      rcases List.mem_cons.mp member with rfl | member
      · omega
      · exact Nat.le_trans (others.groups_list a member) (Nat.le_add_left _ _)

theorem Fields.words_list (fields : Fields) : fields.words = fields.list.flatMap Word.words := by
  match fields with
  | .two first second => simp [Fields.words, Fields.list]
  | .more first others => rw [Fields.words, Fields.list, List.flatMap_cons, others.words_list]

/-! ## Scanning -/

theorem Piece.text_cases (u : Piece) : (∃ c, c ≠ MAGIC ∧ u.text = [c]) ∨
    ∃ d, d ≠ OBRACE ∧ d ≠ CBRACE ∧ u.text = [MAGIC, d] := by
  cases u with
  | plain c legal => exact Or.inl ⟨c, legal.2, rfl⟩
  | quoted c legal => exact Or.inr ⟨c, legal.2.2.1, legal.2.2.2, rfl⟩

theorem openBrace_plain {c : Byte} (plain : c ≠ MAGIC) (rest : List Byte) :
    openBrace (c :: rest) = openBrace rest := by
  cases rest <;> simp [openBrace, plain]

theorem openBrace_piece (u : Piece) (rest : List Byte) :
    openBrace (u.text ++ rest) = openBrace rest := by
  rcases u.text_cases with ⟨c, plain, text⟩ | ⟨d, notOpen, _, text⟩
  · rw [text, List.singleton_append, openBrace_plain plain]
  · rw [text, List.cons_append, List.singleton_append, openBrace, if_pos rfl]
    exact if_neg notOpen

theorem closeBrace_zero (comma : Option (List Byte)) (rest : List Byte) :
    closeBrace 0 comma rest = (rest, 0, comma) := by
  cases rest with
  | nil => rfl
  | cons c rest => cases rest <;> simp [closeBrace]

theorem closeBrace_plain {c : Byte} (plain : c ≠ MAGIC) (count : Nat) (comma : Option (List Byte))
    (rest : List Byte) :
    closeBrace (count + 1) comma (c :: rest) = closeBrace (count + 1) comma rest := by
  cases rest <;> simp [closeBrace, plain]

theorem closeBrace_piece (u : Piece) {count : Nat} (comma : Option (List Byte)) (rest : List Byte)
    (ordinary : u.IsComma → count ≠ 0) :
    closeBrace (count + 1) comma (u.text ++ rest) = closeBrace (count + 1) comma rest := by
  rcases u.text_cases with ⟨c, plain, text⟩ | ⟨d, notOpen, notClose, text⟩
  · rw [text, List.singleton_append, closeBrace_plain plain]
  · have outer : ¬ (d = byte ',' ∧ count + 1 = 1) := by
      rintro ⟨rfl, single⟩
      exact ordinary text (Nat.succ.inj single)
    rw [text, List.cons_append, List.singleton_append, closeBrace, if_neg (Nat.succ_ne_zero count),
      if_pos rfl, if_neg notOpen, if_neg notClose, if_neg outer]

theorem closeBrace_open (count : Nat) (comma : Option (List Byte)) (rest : List Byte) :
    closeBrace (count + 1) comma ([MAGIC, OBRACE] ++ rest) = closeBrace (count + 2) comma rest := rfl

theorem closeBrace_close (count : Nat) (comma : Option (List Byte)) (rest : List Byte) :
    closeBrace (count + 1) comma ([MAGIC, CBRACE] ++ rest) = closeBrace count comma rest := rfl

theorem closeBrace_comma (comma : Option (List Byte)) (rest : List Byte) :
    closeBrace 1 comma ([MAGIC, byte ','] ++ rest) = closeBrace 1 (some (byte ',' :: rest)) rest := rfl

theorem closeBrace_inner (count : Nat) (comma : Option (List Byte)) (rest : List Byte) :
    closeBrace (count + 2) comma ([MAGIC, byte ','] ++ rest) = closeBrace (count + 2) comma rest := rfl

mutual

theorem closeBrace_word {w : Word} (legal : w.Legal true) (count : Nat) (comma : Option (List Byte))
    (rest : List Byte) :
    closeBrace (count + 1) comma (w.text ++ rest) = closeBrace (count + 1) comma rest := by
  match w with
  | .done => rfl
  | .piece u w =>
      rw [Word.text, List.append_assoc,
        closeBrace_piece u comma _ (fun impossible => absurd impossible (legal.1 rfl)),
        closeBrace_word legal.2]
  | .group fields w =>
      rw [Word.text, List.append_assoc, closeBrace_open, List.append_assoc, closeBrace_fields legal.1,
        List.append_assoc, closeBrace_close, closeBrace_word legal.2]

theorem closeBrace_fields {fields : Fields} (legal : fields.Legal) (count : Nat)
    (comma : Option (List Byte)) (rest : List Byte) :
    closeBrace (count + 2) comma (fields.text ++ rest) = closeBrace (count + 2) comma rest := by
  match fields with
  | .two first second =>
      rw [Fields.text, List.append_assoc, closeBrace_word legal.1, List.append_assoc,
        closeBrace_inner, closeBrace_word legal.2]
  | .more first others =>
      rw [Fields.text, List.append_assoc, closeBrace_word legal.1, List.append_assoc,
        closeBrace_inner, closeBrace_fields legal.2]

end

theorem closeBrace_group {fields : Fields} (legal : fields.Legal) (comma : Option (List Byte))
    (rest : List Byte) : ∃ p, closeBrace 1 comma (fields.text ++ ([MAGIC, CBRACE] ++ rest)) =
      (rest, 0, some p) := by
  match fields with
  | .two first second =>
      rw [Fields.text, List.append_assoc, closeBrace_word legal.1, List.append_assoc,
        closeBrace_comma, closeBrace_word legal.2, closeBrace_close]
      exact ⟨_, closeBrace_zero _ _⟩
  | .more first others =>
      rw [Fields.text, List.append_assoc, closeBrace_word legal.1, List.append_assoc,
        closeBrace_comma]
      exact closeBrace_group legal.2 _ rest

/-! ## The loop over the alternatives -/

section Loop

variable {go : List Byte → List Byte → List Byte → Words → Option Words}
variable {start braceStart braceEnd end_ : List Byte}

/-- What the loop makes of the word with one alternative in the place of the group. -/
def substitute (go : List Byte → List Byte → List Byte → Words → Option Words)
    (start braceStart braceEnd end_ field : List Byte) (wp : Words) : Option Words :=
  let l1 := distance start braceStart
  let l3 := distance braceEnd end_
  let new := start.take l1 ++ field ++ braceEnd.take l3
  go new (new.drop l1) (new.drop (l1 + field.length + l3)) wp

variable {rest : List Byte}

theorem before_append {n : Nat} (before : n ≤ rest.length) (front : List Byte) :
    n ≤ (front ++ rest).length := by
  rw [List.length_append]
  exact Nat.le_add_left_of_le before

theorem altFields_plain {c : Byte} (plain : c ≠ MAGIC) (count : Nat) (fieldStart : List Byte)
    (wp : Words) (before : braceEnd.length < (c :: rest).length) :
    altFields go start braceStart braceEnd end_ (c :: rest) count fieldStart wp =
      altFields go start braceStart braceEnd end_ rest count fieldStart wp := by
  have goesOn : ¬ (c :: rest).length = braceEnd.length := by omega
  cases rest <;> simp only [altFields, if_neg goesOn, if_neg plain]

theorem altFields_marked (d : Byte) (count : Nat) (fieldStart : List Byte) (wp : Words)
    (before : braceEnd.length ≤ rest.length) :
    altFields go start braceStart braceEnd end_ (MAGIC :: d :: rest) count fieldStart wp =
      if d = OBRACE then
        altFields go start braceStart braceEnd end_ rest (count + 1) fieldStart wp
      else
        let count := if d = CBRACE then count - 1 else count
        if (d = CBRACE ∧ count = 0) ∨ (d = byte ',' ∧ count = 1) then
          let field := fieldStart.take (distance fieldStart (MAGIC :: d :: rest))
          match substitute go start braceStart braceEnd end_ field wp with
          | none => none
          | some wp => altFields go start braceStart braceEnd end_ rest count rest wp
        else altFields go start braceStart braceEnd end_ rest count fieldStart wp := by
  have goesOn : ¬ (MAGIC :: d :: rest).length = braceEnd.length := by
    simp only [List.length_cons]
    omega
  have taken : (fieldStart.take (distance fieldStart (MAGIC :: d :: rest))).length =
      distance fieldStart (MAGIC :: d :: rest) := by
    rw [List.length_take]
    exact Nat.min_eq_left (Nat.sub_le _ _)
  rw [altFields, if_neg goesOn, if_pos rfl]
  simp only [substitute, taken]

theorem altFields_piece (u : Piece) {count : Nat} (fieldStart : List Byte) (wp : Words)
    (before : braceEnd.length ≤ rest.length) (ordinary : u.IsComma → count ≠ 0) :
    altFields go start braceStart braceEnd end_ (u.text ++ rest) (count + 1) fieldStart wp =
      altFields go start braceStart braceEnd end_ rest (count + 1) fieldStart wp := by
  rcases u.text_cases with ⟨c, plain, text⟩ | ⟨d, notOpen, notClose, text⟩
  · rw [text, List.singleton_append,
      altFields_plain plain _ _ _ (by simp only [List.length_cons]; omega)]
  · have outer : ¬ ((d = CBRACE ∧ count + 1 = 0) ∨ (d = byte ',' ∧ count + 1 = 1)) := by
      rintro (⟨close, _⟩ | ⟨rfl, single⟩)
      · exact notClose close
      · exact ordinary text (Nat.succ.inj single)
    rw [text, List.cons_append, List.singleton_append, altFields_marked d _ _ _ before,
      if_neg notOpen]
    dsimp only
    rw [if_neg notClose, if_neg outer]

theorem altFields_open (count : Nat) (fieldStart : List Byte) (wp : Words)
    (before : braceEnd.length ≤ rest.length) :
    altFields go start braceStart braceEnd end_ ([MAGIC, OBRACE] ++ rest) count fieldStart wp =
      altFields go start braceStart braceEnd end_ rest (count + 1) fieldStart wp := by
  rw [List.cons_append, List.singleton_append, altFields_marked _ _ _ _ before, if_pos rfl]

theorem altFields_close (count : Nat) (fieldStart : List Byte) (wp : Words)
    (before : braceEnd.length ≤ rest.length) :
    altFields go start braceStart braceEnd end_ ([MAGIC, CBRACE] ++ rest) (count + 2) fieldStart wp =
      altFields go start braceStart braceEnd end_ rest (count + 1) fieldStart wp := by
  rw [List.cons_append, List.singleton_append, altFields_marked _ _ _ _ before,
    if_neg (by decide)]
  dsimp only
  rw [if_pos rfl, if_neg (by simp [CBRACE, byte])]
  rfl

theorem altFields_inner (count : Nat) (fieldStart : List Byte) (wp : Words)
    (before : braceEnd.length ≤ rest.length) :
    altFields go start braceStart braceEnd end_ ([MAGIC, byte ','] ++ rest) (count + 2) fieldStart wp =
      altFields go start braceStart braceEnd end_ rest (count + 2) fieldStart wp := by
  rw [List.cons_append, List.singleton_append, altFields_marked _ _ _ _ before,
    if_neg (by decide)]
  have notClose : byte ',' ≠ CBRACE := by decide
  dsimp only
  rw [if_neg notClose, if_neg]
  rintro (⟨close, _⟩ | ⟨_, single⟩)
  · exact notClose close
  · omega

mutual

theorem altFields_word {w : Word} (legal : w.Legal true) {rest : List Byte} (count : Nat)
    (fieldStart : List Byte) (wp : Words) (before : braceEnd.length ≤ rest.length) :
    altFields go start braceStart braceEnd end_ (w.text ++ rest) (count + 1) fieldStart wp =
      altFields go start braceStart braceEnd end_ rest (count + 1) fieldStart wp := by
  match w with
  | .done => rfl
  | .piece u w =>
      rw [Word.text, List.append_assoc, altFields_piece u _ _ (before_append before w.text)
        (fun impossible => absurd impossible (legal.1 rfl)), altFields_word legal.2 _ _ _ before]
  | .group fields w =>
      have behind := before_append before w.text
      have closing := before_append behind [MAGIC, CBRACE]
      have inner := before_append closing fields.text
      rw [Word.text, List.append_assoc, List.append_assoc, List.append_assoc,
        altFields_open _ _ _ inner, altFields_fields legal.1 _ _ _ closing, altFields_close _ _ _ behind,
        altFields_word legal.2 _ _ _ before]

theorem altFields_fields {fields : Fields} (legal : fields.Legal) {rest : List Byte} (count : Nat)
    (fieldStart : List Byte) (wp : Words) (before : braceEnd.length ≤ rest.length) :
    altFields go start braceStart braceEnd end_ (fields.text ++ rest) (count + 2) fieldStart wp =
      altFields go start braceStart braceEnd end_ rest (count + 2) fieldStart wp := by
  match fields with
  | .two first second =>
      have later := before_append before second.text
      have comma := before_append later [MAGIC, byte ',']
      rw [Fields.text, List.append_assoc, List.append_assoc, altFields_word legal.1 _ _ _ comma,
        altFields_inner _ _ _ later, altFields_word legal.2 _ _ _ before]
  | .more first others =>
      have later := before_append before others.text
      have comma := before_append later [MAGIC, byte ',']
      rw [Fields.text, List.append_assoc, List.append_assoc, altFields_word legal.1 _ _ _ comma,
        altFields_inner _ _ _ later, altFields_fields legal.2 _ _ _ before]

end

theorem altFields_one {w : Word} (legal : w.Legal true) {d : Byte} (wp : Words)
    (before : braceEnd.length ≤ rest.length) (mark : d = CBRACE ∨ d = byte ',') :
    altFields go start braceStart braceEnd end_ (w.text ++ ([MAGIC, d] ++ rest)) 1
        (w.text ++ ([MAGIC, d] ++ rest)) wp =
      match substitute go start braceStart braceEnd end_ w.text wp with
      | none => none
      | some wp => altFields go start braceStart braceEnd end_ rest
          (if d = CBRACE then 0 else 1) rest wp := by
  have ends : ((d = CBRACE ∧ (if d = CBRACE then 1 - 1 else 1) = 0) ∨
      (d = byte ',' ∧ (if d = CBRACE then 1 - 1 else 1) = 1)) := by
    rcases mark with rfl | rfl
    · exact Or.inl ⟨rfl, rfl⟩
    · exact Or.inr ⟨rfl, rfl⟩
  have closes : d ≠ OBRACE := by
    rcases mark with rfl | rfl <;> decide
  have field : (w.text ++ (MAGIC :: d :: rest)).take
      (distance (w.text ++ (MAGIC :: d :: rest)) (MAGIC :: d :: rest)) = w.text := by
    rw [distance, List.length_append, Nat.add_sub_cancel, List.take_left]
  rw [altFields_word legal 0 _ _ (before_append before [MAGIC, d]), List.cons_append,
    List.singleton_append, altFields_marked d _ _ _ before, if_neg closes]
  dsimp only
  rw [if_pos ends, field]

/-- All alternatives take the place of the group in their order. -/
theorem altFields_group {fields : Fields} (legal : fields.Legal) (wp : Words) :
    altFields go start braceStart braceEnd end_ (fields.text ++ ([MAGIC, CBRACE] ++ braceEnd)) 1
        (fields.text ++ ([MAGIC, CBRACE] ++ braceEnd)) wp =
      fields.list.foldlM (fun wp w => substitute go start braceStart braceEnd end_ w.text wp) wp := by
  have ended : ∀ wp,
      altFields go start braceStart braceEnd end_ braceEnd 0 braceEnd wp = some wp := by
    intro wp
    cases braceEnd with
    | nil => rfl
    | cons c rest => cases rest <;> simp [altFields]
  match fields with
  | .two first second =>
      rw [Fields.text, List.append_assoc, List.append_assoc,
        altFields_one legal.1 _ (by simp only [List.length_append]; omega) (Or.inr rfl),
        Fields.list, List.foldlM_cons]
      cases substitute go start braceStart braceEnd end_ first.text wp with
      | none => rfl
      | some wp =>
          dsimp only
          rw [if_neg (by decide), altFields_one legal.2 _ (Nat.le_refl _) (Or.inl rfl), if_pos rfl]
          show _ = [second].foldlM
            (fun wp w => substitute go start braceStart braceEnd end_ w.text wp) wp
          rw [List.foldlM_cons]
          cases substitute go start braceStart braceEnd end_ second.text wp with
          | none => rfl
          | some wp => exact ended wp
  | .more first others =>
      rw [Fields.text, List.append_assoc, List.append_assoc,
        altFields_one legal.1 _ (by simp only [List.length_append]; omega) (Or.inr rfl),
        Fields.list, List.foldlM_cons]
      cases substitute go start braceStart braceEnd end_ first.text wp with
      | none => rfl
      | some wp =>
          dsimp only
          rw [if_neg (by decide)]
          exact altFields_group legal.2 wp

/-- The word that is built: what stands before the group, the alternative, what is behind. -/
theorem substitute_append (front group field wp) :
    substitute go (front ++ group) group braceEnd [] field wp =
      go (front ++ (field ++ braceEnd)) (field ++ braceEnd) [] wp := by
  have l1 : distance (front ++ group) group = front.length := by
    rw [distance, List.length_append, Nat.add_sub_cancel]
  have l3 : distance braceEnd [] = braceEnd.length := rfl
  have whole : (front ++ (field ++ braceEnd)).length ≤
      front.length + field.length + braceEnd.length := by
    simp only [List.length_append]
    omega
  unfold substitute
  dsimp only
  rw [l1, l3, List.take_left, List.take_length, List.append_assoc, List.drop_left,
    List.drop_eq_nil_of_le whole]

end Loop

theorem foldlM_words {α : Type} {step : Words → α → Option Words} {words : α → Words} :
    ∀ (l : List α), (∀ a ∈ l, ∀ wp, step wp a = some (wp ++ words a)) → ∀ wp,
      l.foldlM step wp = some (wp ++ l.flatMap words) := by
  intro l
  induction l with
  | nil => exact fun _ wp => by rw [List.flatMap_nil, List.append_nil]; rfl
  | cons a l ih =>
      intro each wp
      rw [List.foldlM_cons, each a List.mem_cons_self]
      show l.foldlM step (wp ++ words a) = _
      rw [ih (fun b member => each b (List.mem_cons_of_mem _ member)), List.flatMap_cons,
        List.append_assoc]

/-! ## Removing the marks of a word -/

theorem debunkLoop_plain {c : Byte} (plain : c ≠ MAGIC) (s : List Byte) (room : Nat) :
    debunkLoop (c :: s) (room + 1) = c :: debunkLoop s room := by
  cases s <;> simp [debunkLoop, plain]

theorem debunkLoop_marked (d : Byte) (s : List Byte) (room : Nat) :
    debunkLoop (MAGIC :: d :: s) (room + 1) =
      if d &&& 128 = 0 ∨ d &&& 127 ∉ extended then d :: debunkLoop s room
      else if d &&& 127 ≠ byte ' ' then
        match room with
        | 0 => [d &&& 127]
        | room + 1 => (d &&& 127) :: byte '(' :: debunkLoop s room
      else byte '(' :: debunkLoop s room := by
  cases room <;> simp only [debunkLoop, ne_eq, not_true_eq_false, if_false]

theorem debunkLoop_front {front : List Byte} (plain : ∀ c ∈ front, c ≠ MAGIC) (s : List Byte)
    (room : Nat) :
    debunkLoop (front ++ s) (front.length + room) = front ++ debunkLoop s room := by
  induction front with
  | nil => rw [List.nil_append, List.nil_append, List.length_nil, Nat.zero_add]
  | cons c front ih =>
      rw [List.length_cons, Nat.add_right_comm, List.cons_append, List.cons_append,
        debunkLoop_plain (plain c List.mem_cons_self),
        ih fun d member => plain d (List.mem_cons_of_mem _ member)]

/-- In its own place and with room for all of it a text loses its marks only. -/
theorem debunk_length (s : List Byte) : debunk s s.length = debunkLoop s s.length := by
  obtain ⟨front, rest, split, plain, taken⟩ : ∃ front rest, s = front ++ rest ∧
      (∀ c ∈ front, c ≠ MAGIC) ∧ s.takeWhile (· ≠ MAGIC) = front := by
    refine ⟨s.takeWhile (· ≠ MAGIC), s.dropWhile (· ≠ MAGIC),
      List.takeWhile_append_dropWhile.symm, fun c member => ?_, rfl⟩
    simpa using List.mem_takeWhile_imp member
  have run := debunkLoop_front plain rest rest.length
  rw [← List.length_append, ← split] at run
  rw [run]
  unfold debunk
  rw [taken]
  by_cases whole : front.length = s.length
  · have none_ : rest = [] := by
      rw [split, List.length_append] at whole
      exact List.length_eq_zero_iff.mp (by omega)
    dsimp only
    rw [if_pos whole, split, none_]
    rfl
  · have behind : s.drop front.length = rest := by rw [split, List.drop_left]
    have room : s.length - front.length = rest.length := by
      rw [split, List.length_append, Nat.add_sub_cancel_left]
    dsimp only
    rw [if_neg whole, if_neg (by rw [split, List.length_append] at whole ⊢; omega), behind, room]

theorem groupOps_facts (d : Byte) :
    (d ≠ 128 → ((d &&& 128 = 0 ∨ d &&& 127 ∉ extended) ↔ d ∉ groupOps)) ∧
      (d ∈ groupOps → (d &&& 127 = byte ' ' ↔ d = byte ' ' ||| 128)) := by
  revert d
  apply forall_byte
  decide +kernel

theorem extended_iff {d : Byte} (other : d ≠ 128) :
    (d &&& 128 = 0 ∨ d &&& 127 ∉ extended) ↔ d ∉ groupOps :=
  (groupOps_facts d).1 other

theorem space_iff {d : Byte} (op : d ∈ groupOps) : d &&& 127 = byte ' ' ↔ d = byte ' ' ||| 128 :=
  (groupOps_facts d).2 op

theorem debunkLoop_piece (u : Piece) (s : List Byte) (room : Nat) :
    debunkLoop (u.text ++ s) (u.bare.length + room) = u.bare ++ debunkLoop s room := by
  cases u with
  | plain c legal =>
      rw [Piece.text, Piece.bare, List.length_singleton, Nat.add_comm, List.singleton_append,
        debunkLoop_plain legal.2, List.singleton_append]
  | quoted c legal =>
      rw [Piece.text, Piece.bare, List.cons_append, List.singleton_append]
      by_cases operator : c ∈ groupOps
      · rw [if_neg (not_not.mpr operator)]
        have marked : ¬ (c &&& 128 = 0 ∨ c &&& 127 ∉ extended) :=
          fun other => (extended_iff legal.2.1).mp other operator
        by_cases space : c = byte ' ' ||| 128
        · rw [if_pos space, List.length_singleton, Nat.add_comm, debunkLoop_marked, if_neg marked,
            if_neg (not_not.mpr ((space_iff operator).mpr space))]
          rfl
        · rw [if_neg space, show [c &&& 127, byte '('].length = 2 from rfl, Nat.add_comm,
            debunkLoop_marked, if_neg marked, if_pos (fun same => space ((space_iff operator).mp same))]
          rfl
      · rw [if_pos operator, List.length_singleton, Nat.add_comm, debunkLoop_marked,
          if_pos ((extended_iff legal.2.1).mpr operator)]
        rfl

theorem textOf_append (us vs : List Piece) : textOf us ++ textOf vs = textOf (us ++ vs) :=
  List.flatMap_append.symm

theorem Piece.bare_length (u : Piece) : u.bare.length ≤ u.text.length := by
  cases u with
  | plain c legal => exact Nat.le_refl _
  | quoted c legal =>
      rw [Piece.bare, Piece.text]
      split
      · exact Nat.le_succ 1
      · split
        · exact Nat.le_succ 1
        · exact Nat.le_refl 2

theorem bare_length (us : List Piece) : (bare us).length ≤ (textOf us).length := by
  induction us with
  | nil => exact Nat.le_refl _
  | cons u us ih =>
      have first := u.bare_length
      simp only [bare, textOf, List.flatMap_cons, List.length_append] at ih ⊢
      omega

theorem debunkLoop_textOf (us : List Piece) (room : Nat) :
    debunkLoop (textOf us) ((bare us).length + room) = bare us := by
  induction us with
  | nil => cases room <;> rfl
  | cons u us ih =>
      rw [bare, textOf, List.flatMap_cons, List.flatMap_cons, List.length_append, Nat.add_assoc,
        debunkLoop_piece]
      exact congrArg (u.bare ++ ·) ih

/-- `debunk` takes the marks off a word. -/
theorem debunk_textOf (us : List Piece) : debunk (textOf us) (textOf us).length = bare us := by
  obtain ⟨room, same⟩ := Nat.exists_eq_add_of_le (bare_length us)
  rw [debunk_length, same, debunkLoop_textOf]

/-! ## The expansion of a word -/

theorem Word.front (w : Word) : (∃ us, w.text = textOf us ∧ w.words = [us] ∧
      openBrace w.text = none) ∨
    ∃ us fields rest, w.text = textOf us ++ (Word.group fields rest).text ∧
      w.words = (Word.group fields rest).words.map (us ++ ·) ∧
      w.groups = (Word.group fields rest).groups ∧
      (∀ inside, w.Legal inside → (Word.group fields rest).Legal inside) ∧
      openBrace w.text = some (Word.group fields rest).text := by
  match w with
  | .done => exact Or.inl ⟨[], rfl, rfl, rfl⟩
  | .group fields rest =>
      exact Or.inr ⟨[], fields, rest, by simp [textOf], by simp, rfl, fun _ legal => legal, rfl⟩
  | .piece u w =>
      rcases w.front with
        ⟨us, text, words, found⟩ | ⟨us, fields, rest, text, words, groups, legal, found⟩
      · refine Or.inl ⟨u :: us, ?_, ?_, ?_⟩
        · rw [Word.text, text, textOf, textOf, List.flatMap_cons]
        · rw [Word.words, words, List.map_singleton]
        · rw [Word.text, openBrace_piece, found]
      · refine Or.inr ⟨u :: us, fields, rest, ?_, ?_, groups,
          fun inside both => legal inside both.2, ?_⟩
        · rw [Word.text, text, textOf, textOf, List.flatMap_cons, List.append_assoc]
        · rw [Word.words, words, List.map_map]
          rfl
        · rw [Word.text, openBrace_piece, found]

/-- What stands before the place where the scan goes on has been expanded. -/
theorem altExpand_word : ∀ (fuel : Nat) (pre : List Piece) (w : Word) (inside : Bool) (wp : Words),
    w.Legal inside → w.groups < fuel →
    altExpand fuel (textOf pre ++ w.text) w.text [] wp =
      some (wp ++ w.words.map fun us => bare (pre ++ us)) := by
  intro fuel
  induction fuel with
  | zero => exact fun _ _ _ _ _ impossible => absurd impossible (Nat.not_lt_zero _)
  | succ fuel ih =>
      intro pre w inside wp legal enough
      rcases w.front with
        ⟨us, text, words, found⟩ | ⟨us, fields, rest, text, words, groups, front, found⟩
      · rw [altExpand, found, text, words, List.map_singleton]
        dsimp only [distance, List.length_nil]
        rw [Nat.sub_zero, textOf_append, debunk_textOf]
      · have sound := front inside legal
        rw [groups, Word.groups] at enough
        obtain ⟨comma, closes⟩ := closeBrace_group sound.1 none rest.text
        have inner : (Word.group fields rest).text.drop 2 =
            fields.text ++ ([MAGIC, CBRACE] ++ rest.text) := rfl
        rw [altExpand, found]
        dsimp only
        rw [inner, closes]
        dsimp only
        rw [if_neg (not_not.mpr rfl), altFields_group sound.1]
        -- each alternative, put in the place of the group, is expanded with what is behind it
        have each : ∀ a ∈ fields.list, ∀ wp, substitute (altExpand fuel) (textOf pre ++ w.text)
            (Word.group fields rest).text rest.text [] a.text wp =
              some (wp ++ (a.append rest).words.map fun vs => bare (pre ++ us ++ vs)) := by
          intro a member wp
          have fewer := fields.groups_list a member
          have run := ih (pre ++ us) (a.append rest) inside wp
            (Word.legal_append (Fields.legal_list sound.1 a member) sound.2)
            (by rw [Word.groups_append]; omega)
          rw [text, ← List.append_assoc, textOf_append, substitute_append, ← Word.text_append, run]
        rw [foldlM_words _ each, words, Word.words, Fields.words_list]
        simp only [Word.words_append, List.map_flatMap, List.flatMap_assoc, List.map_map,
          Function.comp_def, List.append_assoc]

/-- The expansion of a word comes to an end and appends exactly its words, each without marks,
to those there are. -/
theorem altExpand_words (w : Word) (legal : w.Legal false) (wp : Words) (fuel : Nat)
    (enough : w.groups < fuel) :
    altExpand fuel w.text w.text [] wp = some (wp ++ w.words.map bare) :=
  altExpand_word fuel [] w false wp legal enough

/-- The character `c` of a word. -/
def letter (c : Byte) (legal : c ≠ 0 ∧ c ≠ MAGIC := by decide) : Word :=
  .piece (.plain c legal) .done

/-- `{a{b,},c}d{e,f}` -/
def nested : Word :=
  .group (.two ((letter 97).append (.group (.two (letter 98) .done) .done)) (letter 99))
    ((letter 100).append (.group (.two (letter 101) (letter 102)) .done))

theorem altExpand_words_nested : altExpand 4 nested.text nested.text [] [] =
    some [[97, 98, 100, 101], [97, 98, 100, 102], [97, 100, 101], [97, 100, 102], [99, 100, 101],
      [99, 100, 102]] :=
  altExpand_words nested (by simp [nested, letter, Word.append, Word.Legal, Fields.Legal,
    Piece.IsComma, Piece.text, byte]) [] 4 (by decide)

end Netbase.Ksh.AltExpand
