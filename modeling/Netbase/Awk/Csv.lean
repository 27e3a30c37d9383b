import Mathlib.Data.List.TakeWhile
import Mathlib.Tactic
import Netbase.Text.Lines

/-!
# Records of comma-separated values

`readcsvrec` reads a record up to the first newline outside of quotes, and takes a carriage
return in front of any newline away.  `fldbld` then splits the record.  A list of fields in
the usual encoding comes back with each of its line ends reduced to a newline.
-/

namespace Netbase.Awk

open Netbase.Text

def quote : Byte := byte '"'

def comma : Byte := byte ','

def cr : Byte := 13

/-- Take a carriage return away from the end of the buffer. -/
def dropReturn (buf : List Byte) : List Byte :=
  if buf.getLast? = some cr then buf.dropLast else buf

/-- The loop of `readcsvrec`: the buffer, what is left of the stream, and whether the loop
ended at a newline. -/
def csvLoop : List Byte → Bool → List Byte → List Byte × List Byte × Bool
  | [], _, buf => (buf, [], false)
  | c :: inf, inQuote, buf =>
      if c = nl then
        if inQuote then csvLoop inf inQuote (dropReturn buf ++ [c]) else (buf, inf, true)
      else csvLoop inf (if c = quote then !inQuote else inQuote) (buf ++ [c])

/-- The record, the rest of the stream, and what is returned: a newline or the end of file. -/
def readcsvrec (inf : List Byte) : List Byte × List Byte × Bool :=
  let (buf, inf, newline) := csvLoop inf false []
  (if newline then dropReturn buf else buf, inf, newline)

/-- The loop over a quoted field, behind its first quote. -/
def quotedField : List Byte → List Byte × List Byte
  | [] => ([], [])
  | [c] => if c = quote then ([], []) else ([c], [])
  | c :: d :: r =>
      if c = quote ∧ d = quote then (quote :: (quotedField r).1, (quotedField r).2)
      else if c = quote ∧ d = comma then ([], d :: r)
      else (c :: (quotedField (d :: r)).1, (quotedField (d :: r)).2)

def csvField : List Byte → List Byte × List Byte
  | [] => ([], [])
  | c :: r => if c = quote then quotedField r else (c :: r).span (· ≠ comma)

def csvFieldsLoop : Nat → List Byte → List (List Byte)
  | 0, _ => []
  | fuel + 1, r =>
      match csvField r with
      | (field, []) => [field]
      | (field, _ :: r) => field :: csvFieldsLoop fuel r

/-- `fldbld` in this mode, for the string in the record. -/
def csvFields (record : List Byte) : List (List Byte) :=
  match record.takeWhile (· ≠ 0) with
  | [] => []
  | r => csvFieldsLoop (r.length + 1) r

/-! ## The encoding -/

def doubled : List Byte → List Byte
  | [] => []
  | c :: field => if c = quote then quote :: quote :: doubled field else c :: doubled field

def special (c : Byte) : Bool := c == quote || c == comma || c == cr || c == nl

def quoted (field : List Byte) : List Byte := quote :: doubled field ++ [quote]

def encodeField (field : List Byte) : List Byte :=
  if field.any special then quoted field else field

def encodeFields : List (List Byte) → List Byte
  | [] => []
  | [field] => encodeField field
  | field :: fields => encodeField field ++ comma :: encodeFields fields

def encodeRecord (fields : List (List Byte)) : List Byte :=
  if fields = [[]] then quoted [] else encodeFields fields

/-- Each carriage return in front of a newline taken away. -/
def newlines : List Byte → List Byte
  | [] => []
  | [c] => [c]
  | c :: d :: field => if c = cr ∧ d = nl then newlines (d :: field) else c :: newlines (d :: field)

/-! ## Reading -/

theorem newlines_head (c : Byte) (field : List Byte) (other : ¬ (c = cr ∧ field.head? = some nl)) :
    newlines (c :: field) = c :: newlines field := by
  cases field with
  | nil => rfl
  | cons d field =>
      rw [newlines, if_neg]
      rintro ⟨rfl, rfl⟩
      exact other ⟨rfl, rfl⟩

theorem csvLoop_byte {c : Byte} (inside : c ≠ nl) (plain : c ≠ quote) (inf buf : List Byte)
    (inQuote : Bool) : csvLoop (c :: inf) inQuote buf = csvLoop inf inQuote (buf ++ [c]) := by
  rw [csvLoop, if_neg inside, if_neg plain]

theorem csvLoop_quote (inf buf : List Byte) (inQuote : Bool) :
    csvLoop (quote :: inf) inQuote buf = csvLoop inf (!inQuote) (buf ++ [quote]) := by
  rw [csvLoop, if_neg (by decide), if_pos rfl]

theorem dropReturn_append_return (buf : List Byte) : dropReturn (buf ++ [cr]) = buf := by
  simp [dropReturn]

theorem dropReturn_keep {buf : List Byte} (other : buf.getLast? ≠ some cr) :
    dropReturn buf = buf := by
  rw [dropReturn, if_neg other]

theorem newlines_pair (field : List Byte) :
    newlines (cr :: nl :: field) = nl :: newlines field := by
  rw [newlines, if_pos ⟨rfl, rfl⟩]
  exact newlines_head nl field (fun both => absurd both.1 (by decide))

theorem doubled_cons {c : Byte} (plain : c ≠ quote) (field : List Byte) :
    doubled (c :: field) = c :: doubled field := by
  rw [doubled, if_neg plain]

theorem doubled_quote (field : List Byte) :
    doubled (quote :: field) = quote :: quote :: doubled field := by
  rw [doubled, if_pos rfl]

theorem csvLoop_newline (inf buf : List Byte) :
    csvLoop (nl :: inf) true buf = csvLoop inf true (dropReturn buf ++ [nl]) := by
  rw [csvLoop, if_pos rfl, if_pos rfl]

/-- The inside of a quoted field is read with its line ends reduced. -/
theorem csvLoop_doubled (n : Nat) :
    ∀ (field buf inf : List Byte), field.length ≤ n →
      (field.head? = some nl → buf.getLast? ≠ some cr) →
      csvLoop (doubled field ++ inf) true buf =
        csvLoop inf true (buf ++ doubled (newlines field)) := by
  induction n with
  | zero =>
      intro field buf inf short _
      obtain rfl : field = [] := List.length_eq_zero_iff.mp (Nat.le_zero.mp short)
      simp [doubled, newlines]
  | succ n ih =>
      intro field buf inf short front
      cases field with
      | nil => simp [doubled, newlines]
      | cons c field =>
          simp only [List.length_cons] at short
          by_cases isQuote : c = quote
          · subst isQuote
            rw [newlines_head _ _ (fun both => absurd both.1 (by decide)), doubled_quote,
              doubled_quote, List.cons_append, List.cons_append, csvLoop_quote, csvLoop_quote,
              Bool.not_true, Bool.not_false, ih _ _ _ (by omega) (fun _ => by simp; decide)]
            simp
          · by_cases isNewline : c = nl
            · subst isNewline
              rw [newlines_head _ _ (fun both => absurd both.1 (by decide)), doubled_cons isQuote,
                doubled_cons isQuote, List.cons_append, csvLoop_newline,
                dropReturn_keep (front rfl), ih _ _ _ (by omega) (fun _ => by simp; decide)]
              simp
            · rw [doubled_cons isQuote, List.cons_append, csvLoop_byte isNewline isQuote]
              by_cases pair : c = cr ∧ field.head? = some nl
              · obtain ⟨rfl, next⟩ := pair
                cases field with
                | nil => cases next
                | cons d field =>
                    obtain rfl : d = nl := by simpa using next
                    simp only [List.length_cons] at short
                    rw [newlines_pair, doubled_cons (by decide), doubled_cons (by decide),
                      List.cons_append, csvLoop_newline, dropReturn_append_return,
                      ih _ _ _ (by omega) (fun _ => by simp; decide)]
                    simp
              · rw [newlines_head _ _ pair, doubled_cons isQuote, ih _ _ _ (by omega)]
                · simp
                · intro next same
                  exact pair ⟨by simpa using same, next⟩

theorem csvLoop_plain {field : List Byte} (plain : field.any special = false)
    (inf buf : List Byte) : csvLoop (field ++ inf) false buf = csvLoop inf false (buf ++ field) := by
  induction field generalizing buf with
  | nil => simp
  | cons c field ih =>
      simp only [List.any_cons, Bool.or_eq_false_iff, special, beq_eq_false_iff_ne] at plain
      obtain ⟨⟨⟨⟨notQuote, _⟩, _⟩, notNewline⟩, rest⟩ := plain
      have tail : field.any special = false := rest
      rw [List.cons_append, csvLoop_byte notNewline notQuote, ih tail]
      simp

theorem newlines_plain {field : List Byte} (plain : field.any special = false) :
    newlines field = field := by
  induction field with
  | nil => rfl
  | cons c field ih =>
      simp only [List.any_cons, Bool.or_eq_false_iff, special, beq_eq_false_iff_ne] at plain
      obtain ⟨⟨⟨_, notReturn⟩, _⟩, rest⟩ := plain
      rw [newlines_head _ _ (fun both => notReturn both.1), ih rest]

/-- Reducing line ends leaves a byte for which a field is quoted. -/
theorem any_special_newlines (field : List Byte) :
    (newlines field).any special = field.any special := by
  induction field with
  | nil => rfl
  | cons c field ih =>
      by_cases pair : c = cr ∧ field.head? = some nl
      · obtain ⟨rfl, next⟩ := pair
        cases field with
        | nil => cases next
        | cons d field =>
            obtain rfl : d = nl := by simpa using next
            rw [newlines_pair]
            rfl
      · rw [newlines_head _ _ pair, List.any_cons, List.any_cons, ih]

theorem csvLoop_encodeField (field inf buf : List Byte) :
    csvLoop (encodeField field ++ inf) false buf =
      csvLoop inf false (buf ++ encodeField (newlines field)) := by
  rw [encodeField, encodeField, any_special_newlines]
  split
  · have inside := csvLoop_doubled _ field (buf ++ [quote]) ([quote] ++ inf) (Nat.le_refl _)
      (fun _ => by simp; decide)
    rw [quoted, List.cons_append, List.cons_append, csvLoop_quote, List.append_assoc,
      Bool.not_false, inside, List.singleton_append, csvLoop_quote]
    simp [quoted]
  · next none =>
      have plain : field.any special = false := by simpa using none
      rw [newlines_plain plain, csvLoop_plain plain]

theorem csvLoop_encodeFields (fields : List (List Byte)) (inf buf : List Byte) :
    csvLoop (encodeFields fields ++ inf) false buf =
      csvLoop inf false (buf ++ encodeFields (fields.map newlines)) := by
  induction fields generalizing buf with
  | nil => simp [encodeFields]
  | cons field fields ih =>
      cases fields with
      | nil => exact csvLoop_encodeField field inf buf
      | cons next fields =>
          rw [encodeFields, List.append_assoc, csvLoop_encodeField, List.cons_append,
            csvLoop_byte (by decide) (by decide), ih]
          · simp [encodeFields]
          · simp

theorem newlines_eq_nil {field : List Byte} : newlines field = [] ↔ field = [] := by
  constructor
  · intro none
    cases field with
    | nil => rfl
    | cons c field =>
        by_cases pair : c = cr ∧ field.head? = some nl
        · obtain ⟨rfl, next⟩ := pair
          cases field with
          | nil => cases next
          | cons d field =>
              obtain rfl : d = nl := by simpa using next
              rw [newlines_pair] at none
              cases none
        · rw [newlines_head _ _ pair] at none
          cases none
  · rintro rfl
    rfl

theorem encodeField_getLast (field : List Byte) : (encodeField field).getLast? ≠ some cr := by
  rw [encodeField]
  split
  · rw [quoted, List.getLast?_concat]
    decide
  · next none =>
      intro last
      have inside : cr ∈ field := List.mem_of_getLast? last
      exact none (List.any_eq_true.mpr ⟨cr, inside, by decide⟩)

theorem encodeFields_getLast (fields : List (List Byte)) :
    (encodeFields fields).getLast? ≠ some cr := by
  induction fields with
  | nil => simp [encodeFields]
  | cons field fields ih =>
      cases fields with
      | nil => exact encodeField_getLast field
      | cons next fields =>
          rw [encodeFields, List.getLast?_append, List.getLast?_cons]
          · cases last : (encodeFields (next :: fields)).getLast? with
            | none => simp; decide
            | some c =>
                rw [last] at ih
                simpa using ih
          · simp

theorem readcsvrec_encodeRecord (fields : List (List Byte)) (rest : List Byte) :
    readcsvrec (encodeRecord fields ++ nl :: rest) =
      (encodeRecord (fields.map newlines), rest, true) := by
  by_cases empty : fields = [[]]
  · subst empty
    rfl
  · have mapped : fields.map newlines ≠ [[]] := by
      intro same
      cases fields with
      | nil => cases same
      | cons field fields =>
          obtain ⟨first, others⟩ := List.cons_eq_cons.mp same
          rw [newlines_eq_nil.mp first, List.map_eq_nil_iff.mp others] at empty
          exact empty rfl
    rw [encodeRecord, if_neg empty, encodeRecord, if_neg mapped, readcsvrec, csvLoop_encodeFields]
    rw [csvLoop, if_pos rfl]
    simp [dropReturn_keep (encodeFields_getLast _)]

/-! ## Splitting -/

theorem quotedField_doubled (field : List Byte) (rest : List Byte)
    (behind : rest = [] ∨ rest.head? = some comma) :
    quotedField (doubled field ++ quote :: rest) = (field, rest) := by
  induction field with
  | nil =>
      cases rest with
      | nil => rfl
      | cons c rest =>
          obtain rfl : c = comma := by simpa using behind
          rfl
  | cons c field ih =>
      by_cases isQuote : c = quote
      · subst isQuote
        rw [doubled_quote, List.cons_append, List.cons_append, quotedField, if_pos ⟨rfl, rfl⟩, ih]
      · rw [doubled_cons isQuote, List.cons_append]
        cases tail : doubled field ++ quote :: rest with
        | nil => simp at tail
        | cons d tail' =>
            rw [tail] at ih
            rw [quotedField, if_neg (fun both => isQuote both.1), if_neg (fun both => isQuote both.1),
              ih]

theorem csvField_encodeField (field : List Byte) (rest : List Byte)
    (behind : rest = [] ∨ rest.head? = some comma) (some : encodeField field ++ rest ≠ []) :
    csvField (encodeField field ++ rest) = (field, rest) := by
  rw [encodeField] at some ⊢
  split
  · rw [quoted, List.cons_append, List.cons_append, csvField, if_pos rfl, List.append_assoc]
    exact quotedField_doubled field rest behind
  · next none =>
      rw [if_neg none] at some
      have clean : ∀ c ∈ field, c ≠ quote ∧ c ≠ comma := by
        intro c inside
        have plain : special c = false := by
          by_contra isSpecial
          exact none (List.any_eq_true.mpr ⟨c, inside, by simpa using isSpecial⟩)
        simp only [special, Bool.or_eq_false_iff, beq_eq_false_iff_ne] at plain
        exact ⟨plain.1.1.1, plain.1.1.2⟩
      have taken : (field ++ rest).span (· ≠ comma) = (field, rest) := by
        rw [List.span_eq_takeWhile_dropWhile]
        have pass : ∀ c ∈ field, decide (c ≠ comma) = true := fun c inside => by
          simpa using (clean c inside).2
        rw [List.takeWhile_append_of_pos pass, List.dropWhile_append_of_pos pass]
        cases rest with
        | nil => simp
        | cons c rest =>
            obtain rfl : c = comma := by simpa using behind
            simp
      cases whole : field ++ rest with
      | nil => exact absurd whole some
      | cons c r =>
          have notQuote : c ≠ quote := by
            cases field with
            | nil =>
                cases rest with
                | nil => cases whole
                | cons d rest =>
                    obtain rfl : d = comma := by simpa using behind
                    obtain rfl : comma = c := (List.cons_eq_cons.mp whole).1
                    decide
            | cons d field =>
                obtain rfl : d = c := (List.cons_eq_cons.mp whole).1
                exact (clean d (by simp)).1
          rw [csvField, if_neg notQuote, ← whole]
          exact taken

theorem csvFieldsLoop_encodeFields (fields : List (List Byte)) :
    ∀ fuel, (encodeFields fields).length < fuel → fields ≠ [] →
      csvFieldsLoop fuel (encodeFields fields) = fields := by
  induction fields with
  | nil => exact fun fuel _ none => absurd rfl none
  | cons field fields ih =>
      intro fuel enough _
      obtain ⟨fuel, rfl⟩ : ∃ k, fuel = k + 1 := ⟨fuel - 1, by omega⟩
      cases fields with
      | nil =>
          by_cases some : encodeField field = []
          · have empty : field = [] := by
              rw [encodeField] at some
              split at some
              · simp [quoted] at some
              · exact some
            subst empty
            rfl
          · have read := csvField_encodeField field [] (Or.inl rfl) (by simpa using some)
            rw [List.append_nil] at read
            rw [encodeFields, csvFieldsLoop, read]
      | cons next fields =>
          have read := csvField_encodeField field
            (comma :: encodeFields (next :: fields)) (Or.inr rfl) (by simp)
          rw [encodeFields] at enough ⊢
          · simp only [List.length_append, List.length_cons] at enough
            rw [csvFieldsLoop, read]
            change field :: csvFieldsLoop fuel (encodeFields (next :: fields)) = _
            rw [ih fuel (by omega) (by simp)]
          · simp
          · simp

theorem zero_notMem_doubled {field : List Byte} (clean : 0 ∉ field) : 0 ∉ doubled field := by
  induction field with
  | nil => simp [doubled]
  | cons c field ih =>
      rw [doubled]
      split <;> simp_all

theorem zero_notMem_encodeField {field : List Byte} (clean : 0 ∉ field) :
    0 ∉ encodeField field := by
  have zero : (0 : Byte) ≠ quote := by decide
  rw [encodeField]
  split
  · simp [quoted, zero, zero_notMem_doubled clean]
  · exact clean

theorem zero_notMem_encodeFields {fields : List (List Byte)} (clean : ∀ field ∈ fields, 0 ∉ field) :
    0 ∉ encodeFields fields := by
  have zero : (0 : Byte) ≠ comma := by decide
  induction fields with
  | nil => simp [encodeFields]
  | cons field fields ih =>
      have first := zero_notMem_encodeField (clean field (by simp))
      have rest := ih (fun other inside => clean other (List.mem_cons_of_mem _ inside))
      cases fields with
      | nil => exact first
      | cons next fields =>
          rw [encodeFields]
          · simp [first, zero, rest]
          · simp

theorem csvFields_encodeRecord {fields : List (List Byte)} (some : fields ≠ [])
    (clean : ∀ field ∈ fields, 0 ∉ field) : csvFields (encodeRecord fields) = fields := by
  by_cases empty : fields = [[]]
  · subst empty
    rfl
  · have filled : encodeFields fields ≠ [] := by
      cases fields with
      | nil => exact absurd rfl some
      | cons field fields =>
          cases fields with
          | nil =>
              rw [encodeFields, encodeField]
              split
              · simp [quoted]
              · rintro rfl
                exact empty rfl
          | cons next fields =>
              rw [encodeFields]
              · simp
              · simp
    have whole : (encodeFields fields).takeWhile (· ≠ 0) = encodeFields fields := by
      refine List.takeWhile_eq_self_iff.mpr fun c inside => ?_
      have other : c ≠ 0 := by
        rintro rfl
        exact zero_notMem_encodeFields clean inside
      simpa using other
    rw [encodeRecord, if_neg empty, csvFields, whole]
    cases spelled : encodeFields fields with
    | nil => exact absurd spelled filled
    | cons c r =>
        change csvFieldsLoop ((c :: r).length + 1) (c :: r) = fields
        rw [← spelled]
        exact csvFieldsLoop_encodeFields fields _ (Nat.lt_succ_self _) some

theorem newlines_subset {field : List Byte} {c : Byte} (inside : c ∈ newlines field) :
    c ∈ field := by
  induction field with
  | nil => exact inside
  | cons d field ih =>
      by_cases pair : d = cr ∧ field.head? = Option.some nl
      · obtain ⟨rfl, next⟩ := pair
        cases field with
        | nil => cases next
        | cons e field =>
            obtain rfl : e = nl := by simpa using next
            rw [newlines, if_pos ⟨rfl, rfl⟩] at inside
            exact List.mem_cons_of_mem _ (ih inside)
      · rw [newlines_head _ _ pair] at inside
        rcases List.mem_cons.mp inside with rfl | rest
        · exact List.mem_cons_self
        · exact List.mem_cons_of_mem _ (ih rest)

/-- An encoded list of fields comes back with its line ends reduced to newlines, and no more
than its record is read. -/
theorem csv_roundTrip (fields : List (List Byte)) (some : fields ≠ [])
    (clean : ∀ field ∈ fields, 0 ∉ field) (rest : List Byte) :
    (readcsvrec (encodeRecord fields ++ nl :: rest)).2 = (rest, true) ∧
      csvFields (readcsvrec (encodeRecord fields ++ nl :: rest)).1 = fields.map newlines := by
  rw [readcsvrec_encodeRecord]
  refine ⟨rfl, csvFields_encodeRecord (by simpa using some) ?_⟩
  intro field inside zero
  obtain ⟨original, member, rfl⟩ := List.mem_map.mp inside
  exact clean original member (newlines_subset zero)

/-- Three fields, one with a quote, a comma and both kinds of line ends, come back so. -/
theorem csv_roundTrip_three :
    (readcsvrec (encodeRecord [[byte 'a'], [quote, comma, cr, nl, nl, cr], []] ++
      nl :: [byte 'b'])).2 = ([byte 'b'], true) ∧
    csvFields (readcsvrec (encodeRecord [[byte 'a'], [quote, comma, cr, nl, nl, cr], []] ++
      nl :: [byte 'b'])).1 = [[byte 'a'], [quote, comma, nl, nl, cr], []] :=
  csv_roundTrip [[byte 'a'], [quote, comma, cr, nl, nl, cr], []] (by decide)
    (by decide) [byte 'b']

/-- A field that is a carriage return and a newline comes back as a newline. -/
theorem csv_reduces_return :
    csvFields (readcsvrec (encodeRecord [[cr, nl]] ++ nl :: [])).1 ≠ [[cr, nl]] := by
  decide

end Netbase.Awk
