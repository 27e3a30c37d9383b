import Mathlib.Data.List.TakeWhile
import Netbase.Vis.Decode

/-!
# Decoding what has been encoded

Each byte is written in one of four shapes, and three of them are read back in front
of anything that may follow.  The fourth is a letter behind a backslash that the
decoder has a meaning of its own for: the encoder avoids most of these letters, but
not `E` and `x`.
-/

namespace Netbase.Vis

open Netbase.Text

/-- The decoder between two characters. -/
def ground : AState := SS .S_GROUND

/-! ## Feeding -/

section Feeding

variable {flag : Flags} (running : test flag UNVIS_END = false)

include running

theorem unvis_ground (t c : Byte) : unvis t c ground flag = unvis 0 c ground flag := by
  simp only [unvis, running, Bool.false_eq_true, if_false, ground, SS]

/-- The ground state does not ask for a character again. -/
theorem unvis_ground_code (t c : Byte) : (unvis t c ground flag).code ≠ .UNVIS_VALIDPUSH := by
  simp only [unvis, running, Bool.false_eq_true, if_false, ground, SS]
  repeat' split
  all_goals (rintro ⟨⟩)

/-- A reply that asks for the character again leaves the ground state. -/
def Reply.Settled (reply : Reply) : Prop :=
  reply.code = .UNVIS_VALIDPUSH → reply.astate = ground

omit running in
theorem feed_succ (again : Nat) (t : Byte) (state : AState) (c : Byte) :
    feed flag (again + 1) t state c =
      match (unvis t c state flag).code with
      | .UNVIS_VALID =>
          some ([(unvis t c state flag).cp], (unvis t c state flag).cp, (unvis t c state flag).astate)
      | .UNVIS_VALIDPUSH =>
          (feed flag again (unvis t c state flag).cp (unvis t c state flag).astate c).map
            fun fed => ((unvis t c state flag).cp :: fed.1, fed.2)
      | .UNVIS_NOCHAR => some ([], (unvis t c state flag).cp, (unvis t c state flag).astate)
      | .UNVIS_SYNBAD => none := rfl

theorem feed_ground (again : Nat) (t c : Byte) :
    feed flag (again + 1) t ground c = feed flag 1 t ground c := by
  rw [feed_succ again, feed_succ 0]
  cases code : (unvis t c ground flag).code with
  | UNVIS_VALIDPUSH => exact absurd code (unvis_ground_code running t c)
  | UNVIS_VALID => rfl
  | UNVIS_NOCHAR => rfl
  | UNVIS_SYNBAD => rfl

end Feeding

theorem feeds_append (flag : Flags) (xs ys : List Byte) (t : Byte) (state : AState) :
    feeds flag t state (xs ++ ys) =
      match feeds flag t state xs with
      | none => none
      | some (out, t, state) => (feeds flag t state ys).map fun fed => (out ++ fed.1, fed.2) := by
  induction xs generalizing t state with
  | nil =>
      simp only [List.nil_append, feeds]
      cases feeds flag t state ys with
      | none => rfl
      | some fed => rfl
  | cons c xs ih =>
      simp only [List.cons_append, feeds]
      cases feed flag 2 t state c with
      | none => rfl
      | some fed =>
          obtain ⟨out, t', state'⟩ := fed
          simp only [ih]
          cases feeds flag t' state' xs with
          | none => rfl
          | some fed =>
              obtain ⟨out', t'', state''⟩ := fed
              simp only [Option.map_some]
              cases feeds flag t'' state'' ys with
              | none => rfl
              | some fed => simp

theorem decodeFrom_append {flag : Flags} {xs ys out : List Byte} {t t' : Byte}
    {state state' : AState} (fed : feeds flag t state xs = some (out, t', state')) :
    decodeFrom flag t state (xs ++ ys) = (decodeFrom flag t' state' ys).map (out ++ ·) := by
  unfold decodeFrom
  rw [feeds_append, fed]
  simp only
  cases feeds flag t' state' ys with
  | none => rfl
  | some fed => simp

/-- In the ground state the last character does not matter any more. -/
theorem decodeFrom_ground {flag : Flags} (running : test flag UNVIS_END = false) (t : Byte)
    (src : List Byte) : decodeFrom flag t ground src = decodeFrom flag 0 ground src := by
  cases src with
  | nil => rfl
  | cons c src =>
      unfold decodeFrom
      simp only [feeds, feed, unvis_ground running t c]

/-! ## Escapes -/

/-- The way the rest of the string is written and read. -/
inductive Style where
  | svis
  | http
  | mime
  deriving Repr, DecidableEq

/-- The flag of a style, which is the same for the encoder and the decoder. -/
def Style.flag : Style → Flags
  | .svis => 0
  | .http => VIS_HTTPSTYLE
  | .mime => VIS_MIMESTYLE

theorem Style.running (style : Style) : test style.flag UNVIS_END = false := by
  cases style <;> decide

/-- The rest of an escape is read to its end as one character. -/
def completes (target : Byte) : Byte → AState → List Byte → Bool
  | _, _, [] => false
  | cp, state, [c] => state.st != .S_GROUND && decide (unvis cp c state 0 = valid target)
  | cp, state, c :: rest =>
      state.st != .S_GROUND && (unvis cp c state 0).code == .UNVIS_NOCHAR &&
        completes target (unvis cp c state 0).cp (unvis cp c state 0).astate rest

theorem unvis_style (style : Style) {cp c : Byte} {state : AState}
    (inside : (state.st != .S_GROUND) = true) :
    unvis cp c state style.flag = unvis cp c state 0 := by
  have running : test 0 UNVIS_END = false := by decide
  simp only [unvis, style.running, running, Bool.false_eq_true, if_false]
  cases st : state.st with
  | S_GROUND =>
      rw [st] at inside
      cases inside
  | _ => rfl

theorem feeds_completes (style : Style) {target : Byte} : ∀ {tail : List Byte} {cp : Byte}
    {state : AState}, completes target cp state tail = true →
      feeds style.flag cp state tail = some ([target], target, ground) := by
  intro tail
  induction tail with
  | nil =>
      intro cp state impossible
      cases impossible
  | cons c rest ih =>
      intro cp state complete
      cases rest with
      | nil =>
          simp only [completes, Bool.and_eq_true, decide_eq_true_eq] at complete
          simp only [feeds, feed_succ, unvis_style style complete.1, complete.2]
          rfl
      | cons d rest =>
          simp only [completes, Bool.and_eq_true, beq_iff_eq] at complete
          obtain ⟨⟨inside, code⟩, more⟩ := complete
          rw [feeds, feed_succ, unvis_style style inside, code]
          simp only [ih more]
          rfl

/-- These characters begin an escape. -/
def leads (c : Byte) : Bool := c == byte '\\' || c == byte '%' || c == byte '='

/-- An escape that is read as one character. -/
structure Escapes (style : Style) (c : Byte) (e : List Byte) : Prop where
  shape : ∃ lead tail st, e = lead :: tail ∧ leads lead = true ∧
    unvis 0 lead ground style.flag = nochar 0 st ∧ completes c 0 (SS st) tail = true
  clean : (0 : Byte) ∉ e
  short : e.length ≤ 4

theorem Escapes.decodes {style : Style} {c : Byte} {e : List Byte} (escapes : Escapes style c e) :
    feeds style.flag 0 ground e = some ([c], c, ground) := by
  obtain ⟨lead, tail, st, rfl, _, opened, complete⟩ := escapes.shape
  rw [feeds, feed_succ, opened]
  simp only [nochar, feeds_completes style complete]
  rfl

/-- An escape behind a backslash. -/
def behindSlash (c : Byte) (e : List Byte) : Bool :=
  e.headD 0 == byte '\\' && completes c 0 (SS .S_START) e.tail && !e.contains 0 &&
    e.length ≤ 4

theorem escapes_of_behindSlash (style : Style) {c : Byte} {e : List Byte}
    (checked : behindSlash c e = true) : Escapes style c e := by
  simp only [behindSlash, Bool.and_eq_true, beq_iff_eq, Bool.not_eq_true',
    decide_eq_true_eq] at checked
  obtain ⟨⟨⟨slash, complete⟩, clean⟩, short⟩ := checked
  refine ⟨?_, by simpa using clean, short⟩
  cases e with
  | nil => cases complete
  | cons lead tail =>
      replace slash : lead = byte '\\' := slash
      subst slash
      exact ⟨_, tail, .S_START, rfl, by decide, by cases style <;> decide, complete⟩

/-- The letters that the encoder puts behind a backslash and the decoder reads
differently. -/
def misreadLetter (c : Byte) : Bool := c == byte 'E' || c == byte 'x'

/-- Each way of writing a byte down is read back to its end. -/
theorem forms_escape (c : Byte) :
    behindSlash c (octal c) = true ∧
      (isgraph c || iswwhite c || behindSlash c (metaForm true c)) = true ∧
      (match cstyle c 0 with
        | none => !misreadLetter c
        | some e =>
            c == 0 || (misreadLetter c && e == [byte '\\', c]) ||
              (!misreadLetter c && behindSlash c e)) = true ∧
      (completes c 0 (SS .S_HEX1) [xtoa (c >>> 4 &&& 0xf), xtoa (c &&& 0xf)] &&
        xtoa (c >>> 4 &&& 0xf) != 0 && xtoa (c &&& 0xf) != 0) = true ∧
      (completes c 0 (SS .S_MIME1) [XTOA (c >>> 4 &&& 0xf), XTOA (c &&& 0xf)] &&
        XTOA (c >>> 4 &&& 0xf) != 0 && XTOA (c &&& 0xf) != 0) = true := by
  revert c
  refine forall_byte ?_
  decide +kernel

theorem escapes_of_digits {style : Style} {c lead high low : Byte} {st : St}
    (leading : leads lead = true) (opened : unvis 0 lead ground style.flag = nochar 0 st)
    (checked : (completes c 0 (SS st) [high, low] && high != 0 && low != 0) = true) :
    Escapes style c [lead, high, low] := by
  simp only [Bool.and_eq_true, bne_iff_ne] at checked
  obtain ⟨⟨complete, highNonzero⟩, lowNonzero⟩ := checked
  refine ⟨⟨_, _, st, rfl, leading, opened, complete⟩, ?_, Nat.le_succ 3⟩
  simp only [List.mem_cons, List.not_mem_nil, or_false]
  rintro (rfl | zero | zero)
  · exact absurd leading (by decide)
  · exact highNonzero zero.symm
  · exact lowNonzero zero.symm

theorem http_escapes (c : Byte) :
    Escapes .http c [byte '%', xtoa (c >>> 4 &&& 0xf), xtoa (c &&& 0xf)] := by
  refine escapes_of_digits (by decide) (show _ = nochar 0 .S_HEX1 by decide) ?_
  exact (forms_escape c).2.2.2.1

theorem mime_escapes (c : Byte) :
    Escapes .mime c [byte '=', XTOA (c >>> 4 &&& 0xf), XTOA (c &&& 0xf)] := by
  refine escapes_of_digits (by decide) (show _ = nochar 0 .S_MIME1 by decide) ?_
  exact (forms_escape c).2.2.2.2

theorem cstyle_next {c : Byte} (nonzero : c ≠ 0) (nextc : Byte) : cstyle c nextc = cstyle c 0 := by
  unfold cstyle
  simp only [if_neg nonzero]

/-! ## Shapes of an encoded character -/

/-- How a character is written: as itself, as an escape, as a zero whose second digit
is left out, or as a letter that is misread. -/
inductive Shape (style : Style) (misread : Byte → Prop) (c nextc : Byte) : List Byte → Prop where
  | raw (plain : unvis 0 c ground style.flag = valid c) (nonzero : c ≠ 0)
      (readable : ¬ misread c) : Shape style misread c nextc [c]
  | escape {e : List Byte} (escapes : Escapes style c e) (readable : ¬ misread c) :
      Shape style misread c nextc e
  | nul (zero : c = 0) (apart : isoctal nextc = false) (readable : ¬ misread c) :
      Shape style misread c nextc (ascii ['\\', '0'])
  | letter (odd : misread c) (known : misreadLetter c = true) :
      Shape style misread c nextc [byte '\\', c]

/-- The characters that are not read back: `E` and `x` where they are extra characters
and the escapes of C are asked for. -/
def Misread (flags : Flags) (extra : List Byte) (c : Byte) : Prop :=
  test flags VIS_CSTYLE = true ∧ c ∈ extra ∧ misreadLetter c = true

theorem unvis_plain (style : Style) {c : Byte} (slash : c ≠ byte '\\')
    (percent : style = .http → c ≠ byte '%') (equals : style = .mime → c ≠ byte '=') :
    unvis 0 c ground style.flag = valid c := by
  have bare : (c == byte '\\') = false := by simpa using slash
  cases style with
  | svis => simp [unvis, ground, SS, valid, bare, Style.flag, test]
  | http =>
      have other : (c == byte '%') = false := by simpa using percent rfl
      simp only [unvis, ground, SS, valid, bare, other, Bool.and_false]
      rfl
  | mime =>
      have other : (c == byte '=') = false := by simpa using equals rfl
      simp only [unvis, ground, SS, valid, bare, other, Bool.and_false]
      rfl

section Characters

variable {flags : Flags} {extra : List Byte} {c : Byte} (style : Style)
  (slash : test flags VIS_NOSLASH = false)

include slash

/-- The octal and the `M-` forms. -/
theorem numeric_escapes {iswextra : Bool} (called : iswextra = false → isgraph c = false ∧
      iswwhite c = false) :
    Escapes style c (if iswextra || c &&& 0x7f = 32 || test flags VIS_OCTAL then octal c
      else metaForm (!test flags VIS_NOSLASH) c) := by
  split
  · exact escapes_of_behindSlash style (forms_escape c).1
  · rename_i neither
    have plain : iswextra = false := by
      cases iswextra with
      | false => rfl
      | true => exact absurd (by simp) neither
    obtain ⟨notGraph, notWhite⟩ := called plain
    have checked := (forms_escape c).2.1
    rw [notGraph, notWhite, Bool.or_false, Bool.false_or] at checked
    rw [slash]
    exact escapes_of_behindSlash style checked

theorem doMbyte_shape (nextc : Byte) {iswextra : Bool} (listed : iswextra = wcschr extra c)
    (called : iswextra = false → isgraph c = false ∧ iswwhite c = false) :
    Shape style (Misread flags extra) c nextc (doMbyte flags c nextc iswextra) := by
  have numeric := numeric_escapes style slash called
  unfold doMbyte
  cases cs : test flags VIS_CSTYLE with
  | false =>
      refine .escape numeric ?_
      rintro ⟨on, _⟩
      rw [cs] at on
      cases on
  | true =>
      simp only [if_true]
      by_cases zero : c = 0
      · subst zero
        have readable : ¬ Misread flags extra 0 := by
          rintro ⟨_, _, impossible⟩
          exact absurd impossible (by decide)
        cases octal : isoctal nextc with
        | true =>
            have written : cstyle 0 nextc = some (ascii ['\\', '0', '0', '0']) := by
              simp only [cstyle, octal]
              rfl
            have checked : behindSlash 0 (ascii ['\\', '0', '0', '0']) = true := by decide
            rw [written]
            exact .escape (escapes_of_behindSlash style checked) readable
        | false =>
            have written : cstyle 0 nextc = some (ascii ['\\', '0']) := by
              simp only [cstyle, octal]
              rfl
            rw [written]
            exact .nul rfl octal readable
      · have checked := (forms_escape c).2.2.1
        rw [cstyle_next zero nextc]
        cases form : cstyle c 0 with
        | none =>
            rw [form] at checked
            refine .escape numeric ?_
            rintro ⟨_, _, odd⟩
            rw [odd] at checked
            cases checked
        | some e =>
            rw [form] at checked
            simp only [Bool.or_eq_true, Bool.and_eq_true, beq_iff_eq, zero, false_or,
              Bool.not_eq_true'] at checked
            rcases checked with ⟨odd, rfl⟩ | ⟨fine, checked⟩
            · have graph : isgraph c = true := by
                simp only [misreadLetter, Bool.or_eq_true, beq_iff_eq] at odd
                rcases odd with rfl | rfl <;> decide
              have isExtra : c ∈ extra := by
                cases hit : iswextra with
                | false =>
                    have impossible := (called hit).1
                    rw [graph] at impossible
                    cases impossible
                | true =>
                    rw [listed, wcschr] at hit
                    simpa [zero] using hit
              exact .letter ⟨cs, isExtra, odd⟩ odd
            · refine .escape (escapes_of_behindSlash style checked) ?_
              rintro ⟨_, _, odd⟩
              rw [fine] at odd
              cases odd

theorem doSvis_shape (nextc : Byte) (slashed : byte '\\' ∈ extra)
    (percent : style = .http → c ≠ byte '%') (equals : style = .mime → c ≠ byte '=') :
    Shape style (Misread flags extra) c nextc (doSvis flags c nextc extra) := by
  unfold doSvis
  simp only
  split
  · rename_i shown
    simp only [Bool.and_eq_true, Bool.not_eq_true'] at shown
    obtain ⟨notExtra, _⟩ := shown
    simp only [wcschr, Bool.or_eq_false_iff, beq_eq_false_iff_ne, List.contains_eq_mem,
      decide_eq_false_iff_not] at notExtra
    obtain ⟨notListed, nonzero⟩ := notExtra
    refine .raw (unvis_plain style ?_ percent equals) nonzero fun odd => notListed odd.2.1
    rintro rfl
    exact notListed slashed
  · rename_i hidden
    refine doMbyte_shape style slash nextc rfl ?_
    intro notExtra
    rw [notExtra] at hidden
    simp only [Bool.not_false, Bool.true_and, Bool.or_eq_true, not_or, Bool.not_eq_true] at hidden
    exact hidden.1

/-- The function a style encodes a character with. -/
def Style.encode : Style → Flags → Byte → Byte → List Byte → List Byte
  | .svis => doSvis
  | .http => doHvis
  | .mime => doMvis

theorem encode_shape (nextc : Byte) (slashed : byte '\\' ∈ extra) :
    Shape style (Misread flags extra) c nextc (style.encode flags c nextc extra) := by
  cases style with
  | svis => exact doSvis_shape .svis slash nextc slashed (by rintro ⟨⟩) (by rintro ⟨⟩)
  | http =>
      show Shape _ _ _ _ (doHvis flags c nextc extra)
      unfold doHvis
      split
      · rename_i safe
        refine doSvis_shape .http slash nextc slashed ?_ (by rintro ⟨⟩)
        rintro _ rfl
        exact absurd safe (by decide)
      · rename_i notSafe
        refine .escape (http_escapes c) ?_
        rintro ⟨_, _, odd⟩
        refine notSafe ?_
        simp only [misreadLetter, Bool.or_eq_true, beq_iff_eq] at odd
        rcases odd with rfl | rfl <;> decide
  | mime =>
      show Shape _ _ _ _ (doMvis flags c nextc extra)
      unfold doMvis
      split
      · rename_i escaped
        refine .escape (mime_escapes c) ?_
        rintro ⟨_, _, odd⟩
        simp only [misreadLetter, Bool.or_eq_true, beq_iff_eq] at odd
        rcases odd with rfl | rfl
        · exact absurd escaped (by simp [mimeEscapes, isspace, byte, wcschr, ascii])
        · exact absurd escaped (by simp [mimeEscapes, isspace, byte, wcschr, ascii])
      · rename_i shown
        refine doSvis_shape .mime slash nextc slashed (by rintro ⟨⟩) ?_
        rintro _ rfl
        exact absurd (by simp [mimeEscapes, isspace, byte]) shown

end Characters

/-! ## Strings -/

section Strings

variable {style : Style} {misread : Byte → Prop} {f : Byte → Byte → List Byte}
  (shapes : ∀ c nextc, Shape style misread c nextc (f c nextc))

variable {e : List Byte} {t d : Byte}

/-- The first character of what a character is written as. -/
theorem Shape.first {c nextc : Byte} (shape : Shape style misread c nextc e) :
    e = [c] ∨ ∃ lead tail, e = lead :: tail ∧ leads lead = true := by
  cases shape with
  | raw plain nonzero readable => exact Or.inl rfl
  | escape escapes readable =>
      obtain ⟨lead, tail, _, rfl, leading, _⟩ := escapes.shape
      exact Or.inr ⟨lead, tail, rfl, leading⟩
  | nul zero apart readable => exact Or.inr ⟨_, _, rfl, by decide⟩
  | letter odd known => exact Or.inr ⟨_, _, rfl, by decide⟩

theorem Shape.clean {c nextc : Byte} (shape : Shape style misread c nextc e) :
    (0 : Byte) ∉ e := by
  cases shape with
  | raw plain nonzero readable => simpa using nonzero.symm
  | escape escapes readable => exact escapes.clean
  | nul zero apart readable => decide
  | letter odd known =>
      simp only [misreadLetter, Bool.or_eq_true, beq_iff_eq] at known
      rcases known with rfl | rfl <;> decide

theorem Shape.of_misread {c nextc : Byte} (shape : Shape style misread c nextc e) (odd : misread c) :
    (c = byte 'E' ∧ e = [byte '\\', byte 'E']) ∨ (c = byte 'x' ∧ e = [byte '\\', byte 'x']) := by
  cases shape with
  | raw plain nonzero readable => exact absurd odd readable
  | escape escapes readable => exact absurd odd readable
  | nul zero apart readable => exact absurd odd readable
  | letter _ known =>
      simp only [misreadLetter, Bool.or_eq_true, beq_iff_eq] at known
      rcases known with rfl | rfl
      · exact Or.inl ⟨rfl, rfl⟩
      · exact Or.inr ⟨rfl, rfl⟩

theorem leads_facts {lead : Byte} (leading : leads lead = true) :
    isoctal lead = false ∧ isxdigit lead = false := by
  simp only [leads, Bool.or_eq_true, beq_iff_eq] at leading
  rcases leading with (rfl | rfl) | rfl <;> decide

abbrev decodes (style : Style) (src : List Byte) : Option (List Byte) :=
  decodeFrom style.flag 0 ground src

theorem decodes_append {e out rest : List Byte}
    (fed : feeds style.flag 0 ground e = some (out, t, ground)) :
    decodes style (e ++ rest) = (decodes style rest).map (out ++ ·) := by
  rw [decodes, decodeFrom_append fed, decodeFrom_ground style.running]

variable {rest : List Byte}

theorem decodeFrom_pushed {state : AState} (pushed : unvis t d state style.flag = validpush t) :
    decodeFrom style.flag t state (d :: rest) = (decodes style (d :: rest)).map (t :: ·) := by
  have again : feed style.flag 2 t state d =
      (feed style.flag 2 0 ground d).map fun fed => (t :: fed.1, fed.2) := by
    rw [feed_succ 1, pushed, feed_ground style.running 1]
    show Option.map _ (feed style.flag 1 t ground d) = _
    rw [feed_succ 0, feed_succ 0, unvis_ground style.running t]
    rfl
  unfold decodes decodeFrom
  simp only [feeds, again]
  cases feed style.flag 2 0 ground d with
  | none => rfl
  | some fed =>
      simp only [Option.map_some]
      cases feeds style.flag fed.2.1 fed.2.2 rest with
      | none => rfl
      | some fed => simp

theorem decodeFrom_waits {t' : Byte} {state : AState} {st : St}
    (waits : unvis t d state style.flag = nochar t' st) :
    decodeFrom style.flag t state (d :: rest) = decodeFrom style.flag t' (SS st) rest := by
  unfold decodeFrom
  rw [feeds, feed_succ, waits]
  cases more : feeds style.flag t' (SS st) rest with
  | none => simp [nochar, more]
  | some fed => simp [nochar, more]

/-- A zero with one digit is read when something else follows. -/
theorem decodeFrom_octal2 (apart : ∀ d, rest.head? = some d → isoctal d = false) :
    decodeFrom style.flag 0 (SS .S_OCTAL2) rest = (decodes style rest).map (0 :: ·) := by
  cases rest with
  | nil => rfl
  | cons d rest =>
      refine decodeFrom_pushed ?_
      simp only [unvis, style.running, Bool.false_eq_true, if_false, SS, apart d rfl]

theorem Shape.decodes {c nextc : Byte} (shape : Shape style misread c nextc e)
    (readable : ¬ misread c)
    (follows : isoctal nextc = false → ∀ d, rest.head? = some d → isoctal d = false) :
    decodes style (e ++ rest) = (decodes style rest).map (c :: ·) := by
  cases shape with
  | raw plain nonzero _ =>
      have fed : feeds style.flag 0 ground [c] = some ([c], c, ground) := by
        rw [feeds, feed_succ, plain]
        rfl
      exact decodes_append fed
  | escape escapes _ => exact decodes_append escapes.decodes
  | nul zero apart _ =>
      subst zero
      have fed : feeds style.flag 0 ground (ascii ['\\', '0']) = some ([], 0, SS .S_OCTAL2) := by
        cases style <;> decide
      rw [Vis.decodes, decodeFrom_append fed, decodeFrom_octal2 (follows apart)]
      cases Vis.decodes style rest <;> rfl
  | letter odd _ => exact absurd odd readable

include shapes

/-- What the loop writes for the characters that are left. -/
theorem visLoop_first {len : Nat} {src : List Byte} {h : Byte}
    (first : (visLoop f (len + 1) (d :: src)).head? = some h) : h = d ∨ leads h = true := by
  rw [visLoop] at first
  rcases (shapes d (src.headD 0)).first with same | ⟨lead, tail, same, leading⟩
  · rw [same] at first
    cases first
    exact Or.inl rfl
  · rw [same] at first
    cases first
    exact Or.inr leading

theorem visLoop_follows (s ahead : List Byte) :
    isoctal ((s ++ ahead).headD 0) = false →
      ∀ d, (visLoop f s.length (s ++ ahead)).head? = some d → isoctal d = false := by
  intro apart d first
  cases s with
  | nil => cases first
  | cons n s =>
      rcases visLoop_first shapes first with rfl | leading
      · exact apart
      · exact (leads_facts leading).1

theorem visLoop_clean : ∀ (len : Nat) (src : List Byte), (0 : Byte) ∉ visLoop f len src
  | 0, _ => by simp [visLoop]
  | _ + 1, [] => by simp [visLoop]
  | len + 1, c :: src => by
      rw [visLoop, List.mem_append, not_or]
      exact ⟨(shapes c _).clean, visLoop_clean len src⟩

theorem decodes_visLoop (s ahead : List Byte) (readable : ∀ c ∈ s, ¬ misread c) :
    decodes style (visLoop f s.length (s ++ ahead)) = some s := by
  induction s with
  | nil => rfl
  | cons c s ih =>
      rw [List.length_cons, List.cons_append, visLoop,
        (shapes c _).decodes (readable c List.mem_cons_self) (visLoop_follows shapes s ahead),
        ih fun d member => readable d (List.mem_cons_of_mem _ member)]
      rfl

/-! ## Misread letters -/

omit shapes in
theorem decodes_letterE (rest : List Byte) :
    decodes style ([byte '\\', byte 'E'] ++ rest) = (decodes style rest).map (27 :: ·) := by
  have fed : feeds style.flag 0 ground [byte '\\', byte 'E'] = some ([27], 27, ground) := by
    cases style <;> decide
  exact decodes_append fed

omit shapes in
theorem decodes_letterX (rest : List Byte) :
    decodes style ([byte '\\', byte 'x'] ++ rest) =
      decodeFrom style.flag 0 (SS .S_HEX) rest := by
  have fed : feeds style.flag 0 ground [byte '\\', byte 'x'] = some ([], 0, SS .S_HEX) := by
    cases style <;> decide
  rw [decodes, decodeFrom_append fed]
  cases decodeFrom style.flag 0 (SS .S_HEX) rest <;> rfl

omit shapes in
/-- The first digit behind `x`; without one there is no result. -/
theorem decodeFrom_hex (d : Byte) (rest : List Byte) :
    decodeFrom style.flag 0 (SS .S_HEX) (d :: rest) =
      if isxdigit d then decodeFrom style.flag (xtod d) (SS .S_HEX2) rest else none := by
  cases digit : isxdigit d with
  | false =>
      have refused : unvis 0 d (SS .S_HEX) style.flag = bad 0 := by
        simp only [unvis, style.running, Bool.false_eq_true, if_false, SS, digit, Bool.not_false,
          if_true]
      rw [decodeFrom, feeds, feed_succ, refused]
      rfl
  | true =>
      refine decodeFrom_waits ?_
      simp only [unvis, unvisHex1, style.running, Bool.false_eq_true, if_false, SS, digit,
        Bool.not_true, if_true]

omit shapes in
theorem decodeFrom_hex2 (t d : Byte) (rest : List Byte) :
    decodeFrom style.flag t (SS .S_HEX2) (d :: rest) =
      if isxdigit d then (decodes style rest).map ((xtod d ||| (t <<< 4)) :: ·)
      else (decodes style (d :: rest)).map (t :: ·) := by
  cases digit : isxdigit d with
  | false =>
      refine decodeFrom_pushed ?_
      simp only [unvis, style.running, Bool.false_eq_true, if_false, SS, digit]
  | true =>
      have fed : feeds style.flag t (SS .S_HEX2) [d] =
          some ([xtod d ||| (t <<< 4)], xtod d ||| (t <<< 4), ground) := by
        have read : unvis t d (SS .S_HEX2) style.flag = valid (xtod d ||| (t <<< 4)) := by
          simp only [unvis, style.running, Bool.false_eq_true, if_false, SS, digit, if_true]
        rw [feeds, feed_succ, read]
        rfl
      rw [← List.singleton_append, decodeFrom_append fed, decodeFrom_ground style.running]
      rfl

/-- A digit at the front of what is left stands for itself. -/
theorem visLoop_digit {s ahead : List Byte} (digit : isxdigit d = true)
    (written : visLoop f s.length (s ++ ahead) = d :: rest) :
    ∃ s', s = d :: s' ∧ rest = visLoop f s'.length (s' ++ ahead) := by
  cases s with
  | nil => cases written
  | cons c s =>
      rw [List.length_cons, List.cons_append, visLoop] at written
      rcases (shapes c ((s ++ ahead).headD 0)).first with same | ⟨lead, tail, same, leading⟩
      · rw [same] at written
        cases written
        exact ⟨s, rfl, rfl⟩
      · rw [same] at written
        cases written
        rw [(leads_facts leading).2] at digit
        cases digit

/-- What is decoded behind `x` is shorter than what was written there, if the strings
behind are not longer. -/
theorem hex_short {ahead : List Byte} (s : List Byte)
    (short : ∀ s' : List Byte, s'.length ≤ s.length → ∀ out,
      decodes style (visLoop f s'.length (s' ++ ahead)) = some out → out.length ≤ s'.length)
    {out : List Byte}
    (read : decodeFrom style.flag 0 (SS .S_HEX) (visLoop f s.length (s ++ ahead)) = some out) :
    out.length ≤ s.length := by
  cases written : visLoop f s.length (s ++ ahead) with
  | nil =>
      rw [written] at read
      cases read
      exact Nat.zero_le _
  | cons d rest =>
      rw [written, decodeFrom_hex] at read
      cases digit : isxdigit d with
      | false =>
          rw [digit] at read
          cases read
      | true =>
          obtain ⟨s1, rfl, rfl⟩ := visLoop_digit shapes digit written
          rw [digit, if_pos rfl] at read
          rw [List.length_cons] at short ⊢
          cases written1 : visLoop f s1.length (s1 ++ ahead) with
          | nil =>
              rw [written1] at read
              cases read
              exact Nat.le_add_left _ _
          | cons d1 rest1 =>
              rw [written1, decodeFrom_hex2] at read
              cases digit1 : isxdigit d1 with
              | false =>
                  rw [digit1, if_neg (by decide), ← written1, Option.map_eq_some_iff] at read
                  obtain ⟨out', more, rfl⟩ := read
                  exact Nat.succ_le_succ (short s1 (Nat.le_succ _) out' more)
              | true =>
                  obtain ⟨s2, rfl, rfl⟩ := visLoop_digit shapes digit1 written1
                  rw [digit1, if_pos rfl, Option.map_eq_some_iff] at read
                  obtain ⟨out', more, rfl⟩ := read
                  rw [List.length_cons] at short ⊢
                  exact Nat.succ_le_succ (Nat.le_succ_of_le (short s2 (by omega) out' more))

theorem decodes_short (ahead : List Byte) (n : Nat) : ∀ s : List Byte, s.length ≤ n → ∀ out,
    decodes style (visLoop f s.length (s ++ ahead)) = some out → out.length ≤ s.length := by
  induction n with
  | zero =>
      intro s small out read
      have empty : s = [] := List.eq_nil_of_length_eq_zero (Nat.le_zero.mp small)
      subst empty
      cases read
      exact Nat.le_refl _
  | succ n ih =>
      intro s small out read
      cases s with
      | nil =>
          cases read
          exact Nat.le_refl _
      | cons c s =>
          have shorter : s.length ≤ n := Nat.le_of_succ_le_succ small
          rw [List.length_cons, List.cons_append, visLoop] at read
          have shape := shapes c ((s ++ ahead).headD 0)
          by_cases odd : misread c
          · rcases shape.of_misread odd with ⟨_, written⟩ | ⟨_, written⟩
            · rw [written, decodes_letterE, Option.map_eq_some_iff] at read
              obtain ⟨out', more, rfl⟩ := read
              exact Nat.succ_le_succ (ih s shorter out' more)
            · rw [written, decodes_letterX] at read
              exact Nat.le_succ_of_le
                (hex_short shapes s (fun s' le => ih s' (Nat.le_trans le shorter)) read)
          · rw [shape.decodes odd (visLoop_follows shapes s ahead), Option.map_eq_some_iff] at read
            obtain ⟨out', more, rfl⟩ := read
            exact Nat.succ_le_succ (ih s shorter out' more)

theorem decodes_misread (s ahead : List Byte) (odd : ∃ c ∈ s, misread c) :
    decodes style (visLoop f s.length (s ++ ahead)) ≠ some s := by
  induction s with
  | nil =>
      obtain ⟨c, member, _⟩ := odd
      cases member
  | cons c s ih =>
      rw [List.length_cons, List.cons_append, visLoop]
      intro read
      have shape := shapes c ((s ++ ahead).headD 0)
      by_cases here : misread c
      · rcases shape.of_misread here with ⟨rfl, written⟩ | ⟨rfl, written⟩
        · rw [written, decodes_letterE, Option.map_eq_some_iff] at read
          obtain ⟨out, _, same⟩ := read
          cases same
        · rw [written, decodes_letterX] at read
          have short := hex_short shapes s
            (fun s' le => decodes_short shapes ahead s.length s' le) read
          exact absurd short (Nat.not_succ_le_self _)
      · rw [shape.decodes here (visLoop_follows shapes s ahead), Option.map_eq_some_iff] at read
        obtain ⟨out, more, same⟩ := read
        cases same
        obtain ⟨d, member, bad⟩ := odd
        rcases List.mem_cons.mp member with rfl | inside
        · exact here bad
        · exact ih ⟨d, inside, bad⟩ more

end Strings

/-! ## The two functions -/

/-- The options that the round trip is asked for. -/
structure Options where
  octal : Bool
  cstyle : Bool
  sp : Bool
  tab : Bool
  nl : Bool
  safe : Bool
  dq : Bool
  glob : Bool
  shell : Bool

/-- A flag that is set or not. -/
def flagIf (on : Bool) (flag : Flags) : Flags := if on then flag else 0

def flagWord (style : Style) (o : Options) : Flags :=
  VIS_NOLOCALE ||| style.flag ||| flagIf o.octal VIS_OCTAL ||| flagIf o.cstyle VIS_CSTYLE |||
    flagIf o.sp VIS_SP ||| flagIf o.tab VIS_TAB ||| flagIf o.nl VIS_NL ||| flagIf o.safe VIS_SAFE |||
    flagIf o.dq VIS_DQ ||| flagIf o.glob VIS_GLOB ||| flagIf o.shell VIS_SHELL

theorem flagWord_facts (style : Style) (o : Options) :
    test (flagWord style o) VIS_NOSLASH = false ∧
      test (flagWord style o) VIS_CSTYLE = o.cstyle ∧
      test (flagWord style o) VIS_HTTPSTYLE = decide (style = .http) ∧
      test (flagWord style o) VIS_MIMESTYLE = decide (style = .mime) := by
  obtain ⟨octal, cstyle, sp, tab, nl, safe, dq, glob, shell⟩ := o
  revert octal cstyle sp tab nl safe dq glob shell
  cases style <;> decide +kernel

theorem getvisfun_flagWord (style : Style) (o : Options) :
    getvisfun (flagWord style o) = style.encode := by
  obtain ⟨_, _, http, mime⟩ := flagWord_facts style o
  unfold getvisfun
  rw [http, mime]
  cases style <;> rfl

theorem mem_if_nil {on : Bool} {list : List Byte} {c : Byte} (absent : c ∉ list) :
    (c ∈ if on then list else []) ↔ False := by
  cases on with
  | false => simp
  | true => simpa using absent

theorem mem_makeextralist {flags : Flags} {src : List Byte} {c : Byte}
    (letter : misreadLetter c = true) : c ∈ makeextralist flags src ↔ c ∈ cstring src := by
  have absent : c ∉ charGlob ∧ c ∉ charShell ∧ c ∉ ([32] : List Byte) ∧ c ∉ ([9] : List Byte) ∧
      c ∉ ([10] : List Byte) ∧ c ∉ [byte '"'] ∧ c ∉ [byte '\\'] := by
    simp only [misreadLetter, Bool.or_eq_true, beq_iff_eq] at letter
    rcases letter with rfl | rfl <;> decide
  obtain ⟨glob, shell, sp, tab, newline, dq, slash⟩ := absent
  unfold makeextralist
  simp only [List.mem_append, mem_if_nil glob, mem_if_nil shell, mem_if_nil sp, mem_if_nil tab,
    mem_if_nil newline, mem_if_nil dq, mem_if_nil slash, or_false]

theorem slash_mem_makeextralist {flags : Flags} (slash : test flags VIS_NOSLASH = false)
    (src : List Byte) : byte '\\' ∈ makeextralist flags src := by
  unfold makeextralist
  rw [slash]
  simp

theorem cstring_clean {s : List Byte} (clean : (0 : Byte) ∉ s) : cstring s = s := by
  unfold cstring
  rw [List.takeWhile_eq_self_iff]
  intro c member
  simp only [ne_eq, decide_not, Bool.not_eq_true', decide_eq_false_iff_not]
  rintro rfl
  exact clean member

theorem source_ahead (s : List Byte) (after : Byte) :
    ∃ ahead, (if s.length = 1 then s ++ [after] else s) = s ++ ahead := by
  split
  · exact ⟨[after], rfl⟩
  · exact ⟨[], (List.append_nil s).symm⟩

/-- What `strsvisx` writes is read back by `strunvisx` exactly when no `E` and no `x`
of the string is an extra character under `VIS_CSTYLE`. -/
theorem strunvisx_strsvisx (style : Style) (o : Options) (extra s : List Byte) (after : Byte)
    (out : List Byte) (encoded : strsvisx s after (flagWord style o) extra = some out) :
    strunvisx out style.flag = some s ↔
      ∀ c ∈ s, ¬ (o.cstyle = true ∧ c ∈ cstring extra ∧ (c = byte 'E' ∨ c = byte 'x')) := by
  obtain ⟨slash, cstyle, _, _⟩ := flagWord_facts style o
  obtain ⟨ahead, source⟩ := source_ahead s after
  have shapes : ∀ c nextc, Shape style
      (Misread (flagWord style o) (makeextralist (flagWord style o) extra)) c nextc
      (style.encode (flagWord style o) c nextc (makeextralist (flagWord style o) extra)) :=
    fun c nextc => encode_shape style slash nextc (slash_mem_makeextralist slash extra)
  have misread : ∀ c, Misread (flagWord style o) (makeextralist (flagWord style o) extra) c ↔
      o.cstyle = true ∧ c ∈ cstring extra ∧ (c = byte 'E' ∨ c = byte 'x') := by
    intro c
    unfold Misread
    rw [cstyle]
    constructor
    · rintro ⟨on, member, letter⟩
      refine ⟨on, (mem_makeextralist letter).mp member, ?_⟩
      simpa only [misreadLetter, Bool.or_eq_true, beq_iff_eq] using letter
    · rintro ⟨on, member, letter⟩
      have known : misreadLetter c = true := by
        simpa only [misreadLetter, Bool.or_eq_true, beq_iff_eq] using letter
      exact ⟨on, (mem_makeextralist known).mpr member, known⟩
  unfold strsvisx at encoded
  simp only [source, getvisfun_flagWord] at encoded
  split at encoded
  · cases encoded
  rename_i fits
  rw [cstring_clean (visLoop_clean shapes _ _)] at encoded
  split at encoded
  · cases encoded
  cases encoded
  have room : s.length + 1 ≤ SIZE_MAX := by
    rw [List.length_append] at fits
    unfold SIZE_MAX at fits ⊢
    omega
  unfold strunvisx strnunvisx
  rw [cstring_clean (visLoop_clean shapes _ _)]
  constructor
  · intro read c member odd
    have misreads := decodes_misread shapes s ahead ⟨c, member, (misread c).mpr odd⟩
    refine misreads ?_
    revert read
    show (match decodes style _ with | none => none | some decoded => _) = _ → _
    cases decodes style _ with
    | none => rintro ⟨⟩
    | some decoded =>
        simp only
        split
        · exact id
        · rintro ⟨⟩
  · intro readable
    have read := decodes_visLoop shapes s ahead fun c member odd =>
      readable c member ((misread c).mp odd)
    show (match decodes style _ with | none => none | some decoded => _) = _
    rw [read]
    exact if_pos room

def bare : Options :=
  { octal := false, cstyle := false, sp := false, tab := false, nl := false, safe := false
    dq := false, glob := false, shell := false }

theorem strunvisx_strsvisx_nul :
    strunvisx (ascii ['\\', '0', '\\', 'M', '^', '?', 'E']) 0 = some [0, 255, byte 'E'] :=
  (strunvisx_strsvisx .svis { bare with cstyle := true } (ascii ['x']) [0, 255, byte 'E'] 0 _
    (by decide +kernel)).mpr (by decide +kernel)

/-- `E` as an extra character is written `\E`, which is read as an escape character. -/
theorem strunvisx_strsvisx_E :
    strsvisx [byte 'E'] 0 (flagWord .svis { bare with cstyle := true }) [byte 'E'] =
        some [byte '\\', byte 'E'] ∧
      strunvisx [byte '\\', byte 'E'] 0 = some [27] := by
  decide +kernel

end Netbase.Vis
