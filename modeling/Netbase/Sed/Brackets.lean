import Mathlib
import Netbase.Sed.Escapes

/-!
# Escapes and brackets

In a bracket expression a backslash is an ordinary character.  The grammar of bracket expressions
and the tracker of `parse_escapes` are two readers of the same text; their texts are the same as
long as they agree, wherever an escape is spelled, on whether it stands in a bracket.
-/

namespace Netbase.Sed

open Netbase.Text

/-! ## Two readers -/

namespace Reader

variable {σ τ : Type}

/-- A bracket is opened by its opening character and closed by its closing one. -/
structure Lawful (r : Reader σ) : Prop where
  inside_copy : ∀ {s c}, r.outside s = false → c ≠ byte ']' → r.outside (r.copy s c) = false
  outside_copy : ∀ {s c}, r.outside s = true → c ≠ byte '[' → r.outside (r.copy s c) = true
  outside_pair : ∀ {s d}, r.outside s = true → d ≠ byte '[' → r.outside (r.pair s d) = true
  outside_escape : ∀ s, r.outside (r.escape s) = r.outside s
  outside_pass : ∀ s c, r.outside (r.pass s c) = r.outside s

/-- Behind a backslash and a byte that are no escape. -/
def literal (r : Reader σ) (s : σ) (d : Byte) : σ :=
  if r.outside s then r.pair s d else r.copy (r.copy s (byte '\\')) d

/-- Two readers agree on the brackets wherever an escape is spelled. -/
def Agrees (r : Reader σ) (g : Reader τ) : σ → τ → Nat → List Byte → Prop
  | _, _, _, [] => True
  | s, u, skip + 1, c :: text => Agrees r g (r.pass s c) (g.pass u c) skip text
  | _, _, 0, [_] => True
  | s, u, 0, c :: d :: text =>
      if c = byte '\\' then
        match unescape (d :: text) with
        | some (_, n) =>
            r.outside s = g.outside u ∧
              if r.outside s then Agrees r g (r.escape s) (g.escape u) n (d :: text)
              else Agrees r g (r.copy s c) (g.copy u c) 0 (d :: text)
        | none => Agrees r g (r.literal s d) (g.literal u d) 0 text
      else Agrees r g (r.copy s c) (g.copy u c) 0 (d :: text)

theorem agrees_skip (r : Reader σ) (g : Reader τ) (skip : Nat) :
    ∀ (s : σ) (u : τ) (text : List Byte), skip ≤ text.length →
      (Agrees r g s u skip text ↔
        Agrees r g ((text.take skip).foldl r.pass s) ((text.take skip).foldl g.pass u) 0
          (text.drop skip)) := by
  induction skip with
  | zero => exact fun _ _ _ _ => Iff.rfl
  | succ skip ih =>
      intro s u text enough
      cases text with
      | nil => exact absurd enough (Nat.not_succ_le_zero skip)
      | cons c text =>
          rw [Agrees, ih _ _ _ (Nat.le_of_succ_le_succ enough)]
          rfl

variable {r : Reader σ} {g : Reader τ}

theorem Lawful.passed (lawful : r.Lawful) (passed : List Byte) :
    ∀ s, r.outside (passed.foldl r.pass s) = r.outside s := by
  induction passed with
  | nil => exact fun _ => rfl
  | cons c passed ih => exact fun s => (ih _).trans (lawful.outside_pass s c)

theorem Lawful.decode_inside (lawful : r.Lawful) (front : List Byte) :
    ∀ {s : σ} (text : List Byte), r.outside s = false → byte ']' ∉ front →
      ∃ s', r.outside s' = false ∧
        r.decode s 0 (front ++ text) = front ++ r.decode s' 0 text := by
  induction front with
  | nil => exact fun {s} _ inside _ => ⟨s, inside, rfl⟩
  | cons c front ih =>
      intro s text inside clean
      rw [List.mem_cons, not_or] at clean
      obtain ⟨s', inside', same⟩ :=
        ih text (lawful.inside_copy inside (Ne.symm clean.1)) clean.2
      refine ⟨s', inside', ?_⟩
      rw [List.cons_append, decode_copy _ fun all => Bool.false_ne_true (inside.symm.trans all.2.2),
        same, List.cons_append]

theorem Lawful.decode_literal (lawful : r.Lawful) {s : σ} {d : Byte} {text : List Byte}
    (none_ : unescape (d :: text) = none) :
    r.decode s 0 (byte '\\' :: d :: text) =
      byte '\\' :: d :: r.decode (r.literal s d) 0 text := by
  unfold literal
  cases place : r.outside s with
  | true =>
      rw [if_pos rfl]
      exact r.decode_pair place none_
  | false =>
      have inside := lawful.inside_copy place (show byte '\\' ≠ byte ']' by decide)
      rw [if_neg Bool.false_ne_true,
        decode_copy _ fun all => Bool.false_ne_true (place.symm.trans all.2.2),
        decode_copy _ fun all => Bool.false_ne_true (inside.symm.trans all.2.2)]

/-- No bracket is opened or closed. -/
def Plain (text : List Byte) : Prop := byte '[' ∉ text ∧ byte ']' ∉ text

theorem plain_append {front back : List Byte} : Plain (front ++ back) ↔ Plain front ∧ Plain back := by
  simp only [Plain, List.mem_append, not_or]
  tauto

theorem plain_cons {c : Byte} {text : List Byte} :
    Plain (c :: text) ↔ (c ≠ byte '[' ∧ c ≠ byte ']') ∧ Plain text := by
  simp only [Plain, List.mem_cons, not_or]
  tauto

theorem plain_alnum {text : List Byte} (all : ∀ c ∈ text, alnum c = true) : Plain text := by
  have other : alnum (byte '[') ≠ true ∧ alnum (byte ']') ≠ true := by decide
  exact ⟨fun member => other.1 (all _ member), fun member => other.2 (all _ member)⟩

theorem plain_backslash : Plain [byte '\\'] := by
  unfold Plain
  decide

theorem Plain.tail {text : List Byte} (plain : Plain text) : Plain text.tail :=
  ⟨fun member => plain.1 (List.mem_of_mem_tail member),
    fun member => plain.2 (List.mem_of_mem_tail member)⟩

/-- What stands in second place has been written already, or is the backslash. -/
theorem plain_second {ahead text other : List Byte} {d : Byte} (plain : Plain ahead)
    (same : ahead ++ byte '\\' :: d :: text = d :: other) :
    (d ≠ byte '[' ∧ d ≠ byte ']') ∧ (ahead ++ [byte '\\', d]).tail ++ text = other := by
  cases ahead with
  | nil =>
      rw [List.nil_append, List.cons.injEq] at same
      refine ⟨?_, same.2⟩
      rw [← same.1]
      decide
  | cons e ahead =>
      rw [List.cons_append, List.cons.injEq] at same
      refine ⟨same.1 ▸ (plain_cons.mp plain).1, ?_⟩
      rw [← same.2, List.cons_append, List.tail_cons, List.append_assoc]
      rfl

/-- A reader in a bracket that has come ahead of one outside stays ahead: nothing that it has
written opens or closes a bracket, and so nothing that the other one can write does. -/
theorem decode_ahead (inner : r.Lawful) (outer : g.Lawful) (bound : Nat) :
    ∀ {text ahead : List Byte} {s : σ} {u : τ}, text.length ≤ bound → r.outside s = false →
      g.outside u = true → Plain ahead → ahead ≠ [] →
      ahead ++ r.decode s 0 text ≠ g.decode u 0 text := by
  induction bound with
  | zero =>
      intro text ahead s u short _ _ _ some_ same
      rw [List.eq_nil_of_length_eq_zero (Nat.le_zero.mp short), decode, decode,
        List.append_nil] at same
      exact some_ same
  | succ bound ih =>
      intro text ahead s u short inside outside plain some_ same
      obtain ⟨first, ahead, rfl⟩ := List.exists_cons_of_ne_nil some_
      obtain ⟨letter, plain⟩ := plain_cons.mp plain
      have copied : ∀ c text, r.decode s 0 (c :: text) = c :: r.decode (r.copy s c) 0 text :=
        fun c text => decode_copy _ fun all => Bool.false_ne_true (inside.symm.trans all.2.2)
      rcases text with _ | ⟨c, _ | ⟨d, text⟩⟩
      · rw [decode, decode] at same
        cases same
      · have lengths := congrArg List.length same
        simp only [decode, List.length_append, List.length_cons, List.length_nil] at lengths
        omega
      · have fewer : (d :: text).length ≤ bound := Nat.le_of_succ_le_succ short
        by_cases backslash : c = byte '\\'
        · subst backslash
          cases read : unescape (d :: text) with
          | some found =>
              obtain ⟨v, n⟩ := found
              obtain ⟨-, length, digits⟩ := unescape_read read
              have spelled := plain_alnum digits
              have inside' := inner.inside_copy inside (show byte '\\' ≠ byte ']' by decide)
              have outside' := (outer.passed ((d :: text).take n) (g.escape u)).trans
                ((outer.outside_escape u).trans outside)
              obtain ⟨s', inside'', same'⟩ := inner.decode_inside ((d :: text).take n)
                ((d :: text).drop n) inside' spelled.2
              rw [List.take_append_drop] at same'
              rw [copied, same', g.decode_escape outside read, g.decode_skip _ _ _ length,
                List.cons_append, List.cons.injEq] at same
              refine @ih ((d :: text).drop n) (ahead ++ byte '\\' :: (d :: text).take n) _ _ (by rw [List.length_drop]; omega) inside''
                outside' ?_ (by simp) ?_
              · exact plain_append.mpr ⟨plain, plain_append.mpr ⟨plain_backslash, spelled⟩⟩
              · rw [List.append_assoc, List.cons_append]
                exact same.2
          | none =>
              rw [inner.decode_literal read, g.decode_pair outside read, literal, inside,
                if_neg Bool.false_ne_true, List.cons_append, List.cons.injEq] at same
              obtain ⟨second, behind⟩ := plain_second plain same.2
              have all : Plain (ahead ++ [byte '\\', d]) := plain_append.mpr ⟨plain,
                plain_append.mpr ⟨plain_backslash, plain_cons.mpr ⟨second, by simp [Plain]⟩⟩⟩
              have inside' := inner.inside_copy
                (inner.inside_copy inside (show byte '\\' ≠ byte ']' by decide)) second.2
              refine @ih text (ahead ++ [byte '\\', d]).tail _ _
                (Nat.le_of_succ_le fewer) inside' (outer.outside_pair outside second.1)
                all.tail ?_ behind
              cases ahead <;> simp
        · have other : g.decode u 0 (c :: d :: text) =
              c :: g.decode (g.copy u c) 0 (d :: text) :=
            decode_copy _ fun all => backslash all.1
          rw [copied, other, List.cons_append, List.cons.injEq] at same
          rw [same.1] at letter
          refine @ih _ (ahead ++ [c]) _ _ fewer (inner.inside_copy inside letter.2)
            (outer.outside_copy outside letter.1)
            (plain_append.mpr ⟨plain, plain_cons.mpr ⟨letter, by simp [Plain]⟩⟩) (by simp) ?_
          rw [List.append_assoc]
          exact same.2

theorem decode_apart (inner : r.Lawful) (outer : g.Lawful) {s : σ} {u : τ} {text : List Byte}
    {v : Byte} {n : Nat} (inside : r.outside s = false) (outside : g.outside u = true)
    (read : unescape text = some (v, n)) :
    r.decode s 0 (byte '\\' :: text) ≠ g.decode u 0 (byte '\\' :: text) := by
  obtain ⟨positive, length, digits⟩ := unescape_read read
  have spelled := plain_alnum digits
  have inside' := inner.inside_copy inside (show byte '\\' ≠ byte ']' by decide)
  have outside' := (outer.passed (text.take n) (g.escape u)).trans
    ((outer.outside_escape u).trans outside)
  obtain ⟨s', inside'', same'⟩ :=
    inner.decode_inside (text.take n) (text.drop n) inside' spelled.2
  rw [List.take_append_drop] at same'
  rw [decode_copy _ fun all => Bool.false_ne_true (inside.symm.trans all.2.2), same',
    g.decode_escape outside read, g.decode_skip _ _ _ length]
  intro same
  refine decode_ahead inner outer _ (Nat.le_refl _) inside'' outside' spelled ?_
    (List.cons.inj same).2
  intro none_
  have count := congrArg List.length none_
  rw [List.length_take, List.length_nil] at count
  omega

/-- Two readers decode the same if they agree wherever an escape is spelled. -/
theorem decode_eq_iff (left : r.Lawful) (right : g.Lawful) (bound : Nat) :
    ∀ {text : List Byte} {s : σ} {u : τ}, text.length ≤ bound →
      (r.decode s 0 text = g.decode u 0 text ↔ Agrees r g s u 0 text) := by
  induction bound with
  | zero =>
      intro text s u short
      rw [List.eq_nil_of_length_eq_zero (Nat.le_zero.mp short), decode, decode, Agrees]
      exact iff_of_true rfl trivial
  | succ bound ih =>
      intro text s u short
      rcases text with _ | ⟨c, _ | ⟨d, text⟩⟩
      · exact iff_of_true (by rw [decode, decode]) trivial
      · exact iff_of_true (by rw [decode, decode]) trivial
      · have fewer : (d :: text).length ≤ bound := Nat.le_of_succ_le_succ short
        rw [Agrees]
        by_cases backslash : c = byte '\\'
        · subst backslash
          rw [if_pos rfl]
          cases read : unescape (d :: text) with
          | none =>
              rw [left.decode_literal read, right.decode_literal read]
              simp only [List.cons.injEq, true_and]
              exact ih (Nat.le_of_succ_le fewer)
          | some found =>
              obtain ⟨v, n⟩ := found
              simp only
              obtain ⟨-, length, -⟩ := unescape_read read
              cases place : r.outside s with
              | true =>
                  cases place' : g.outside u with
                  | true =>
                      rw [r.decode_escape place read, g.decode_escape place' read,
                        r.decode_skip _ _ _ length, g.decode_skip _ _ _ length, if_pos rfl,
                        and_iff_right rfl, agrees_skip _ _ _ _ _ _ length, List.cons.injEq,
                        and_iff_right rfl]
                      exact ih (by rw [List.length_drop]; omega)
                  | false =>
                      exact iff_of_false (Ne.symm (decode_apart right left place' place read))
                        fun all => Bool.noConfusion all.1
              | false =>
                  cases place' : g.outside u with
                  | true =>
                      exact iff_of_false (decode_apart left right place place' read)
                        fun all => Bool.noConfusion all.1
                  | false =>
                      rw [decode_copy r fun all => Bool.false_ne_true (place.symm.trans all.2.2),
                        decode_copy g fun all => Bool.false_ne_true (place'.symm.trans all.2.2),
                        if_neg Bool.false_ne_true, and_iff_right rfl, List.cons.injEq,
                        and_iff_right rfl]
                      exact ih fewer
        · rw [decode_copy r fun all => backslash all.1, decode_copy g fun all => backslash all.1,
            if_neg backslash, List.cons.injEq, and_iff_right rfl]
          exact ih fewer

end Reader

/-! ## The grammar of brackets -/

/-- Where a byte stands: outside of brackets, behind the opening bracket or `[^`, inside, with a
`[` in front that can open a part, or in a part, with its character in front that can close it. -/
inductive Within where
  | outside
  | opening
  | first
  | inside (opened : Bool)
  | part (c : Byte) (closing : Bool)
  deriving Repr, DecidableEq

def Within.next (w : Within) (c : Byte) : Within :=
  match w with
  | .outside => if c = byte '[' then .opening else .outside
  | .opening => if c = byte '^' then .first else .inside (c = byte '[')
  | .first => .inside (c = byte '[')
  | .inside opened =>
      if c = byte ']' then .outside
      else if opened = true ∧ (c = byte '.' ∨ c = byte ':' ∨ c = byte '=') then .part c false
      else .inside (c = byte '[')
  | .part d closing =>
      if closing = true ∧ c = byte ']' then .inside false else .part d (c = d)

/-- The reader of the grammar: outside of brackets a backslash takes the next byte with it. -/
def grammar : Reader Within where
  outside w := w = .outside
  copy := Within.next
  pair _ _ := .outside
  escape w := w
  pass w _ := w

theorem grammar_lawful : grammar.Lawful where
  inside_copy := by
    intro w c inside other
    cases w with
    | outside => cases inside
    | opening =>
        simp only [grammar, Within.next]
        split <;> rfl
    | first => rfl
    | inside opened =>
        simp only [grammar, Within.next, if_neg other]
        split <;> rfl
    | part d closing =>
        simp only [grammar, Within.next]
        split <;> rfl
  outside_copy := by
    intro w c outside other
    cases of_decide_eq_true outside
    simp only [grammar, Within.next, if_neg other]
    rfl
  outside_pair := fun _ _ => rfl
  outside_escape := fun _ => rfl
  outside_pass := fun _ _ => rfl

theorem tracker_lawful : tracker.Lawful where
  inside_copy := by
    intro t c inside other
    have some_ : t.bracket ≠ 0 := of_decide_eq_false inside
    refine decide_eq_false ?_
    show track t.bracket c t.prev t.behind ≠ 0
    unfold track
    split
    · exact some_
    · split
      · split
        · next part _ =>
            rcases part with rfl | rfl | rfl <;> decide
        · exact some_
      · exact some_
  outside_copy := by
    intro t c outside other
    have none_ : t.bracket = 0 := of_decide_eq_true outside
    refine decide_eq_true ?_
    show track t.bracket c t.prev t.behind = 0
    rw [none_, track_outside, if_neg other]
  outside_pair := by
    intro t d outside other
    have none_ : t.bracket = 0 := of_decide_eq_true outside
    refine decide_eq_true ?_
    show track t.bracket d (byte '\\') t.prev = 0
    rw [none_, track_outside, if_neg other]
  outside_escape := fun _ => rfl
  outside_pass := fun _ _ => rfl

/-- Every escape that stands outside of the brackets is decoded, and the rest is copied. -/
def Decoded (text : List Byte) : Prop := parseEscapes text = grammar.decode .outside 0 text

/-- Wherever an escape is spelled the bytes that the tracker looks back on tell whether it stands
in a bracket. -/
def Told (text : List Byte) : Prop :=
  Reader.Agrees tracker grammar Tracked.start Within.outside 0 text

/-- The escapes of a text are decoded if its brackets are told wherever one is spelled. -/
theorem parseEscapes_decoded_iff (text : List Byte) : Decoded text ↔ Told text := by
  unfold Decoded Told
  rw [parseEscapes_eq]
  exact Reader.decode_eq_iff tracker_lawful grammar_lawful text.length (Nat.le_refl _)

/-- The state of the grammar behind a text. -/
def Within.behind : Within → Nat → List Byte → Within
  | w, _, [] => w
  | w, skip + 1, _ :: text => Within.behind w skip text
  | w, 0, [c] => w.next c
  | w, 0, c :: d :: text =>
      if c = byte '\\' ∧ w = .outside then
        match unescape (d :: text) with
        | some (_, n) => Within.behind w n (d :: text)
        | none => Within.behind w 0 text
      else Within.behind (w.next c) 0 (d :: text)

/-- Every bracket and every part of one is closed. -/
def WellFormed (text : List Byte) : Prop := Within.outside.behind 0 text = .outside

instance (text : List Byte) : Decidable (WellFormed text) := inferInstanceAs (Decidable (_ = _))

instance (text : List Byte) : Decidable (Decoded text) := inferInstanceAs (Decidable (_ = _))

/-- An escaped bracket, a closing bracket in first place, and a class behind a tab: the escape is
copied, decoded in the bracket, and copied. -/
theorem parseEscapes_misled :
    (¬ ∀ text, WellFormed text → Decoded text) ∧
      parseEscapes (ascii ['\\', '[', '\\', 't']) = ascii ['\\', '[', '\\', 't'] ∧
      parseEscapes (ascii ['[', ']', '\\', 't', ']']) = ascii ['[', ']', '\t', ']'] ∧
      parseEscapes (ascii ['\\', 't', '[', '[', ':', 'x', ':', ']', ']', '\\', 't']) =
        ascii ['\t', '[', '[', ':', 'x', ':', ']', ']', '\\', 't'] := by
  refine ⟨fun all => ?_, by decide +kernel, by decide +kernel, by decide +kernel⟩
  have wrong : ¬ Decoded (ascii ['\\', '[', '\\', 't']) := by decide +kernel
  exact wrong (all _ (by decide +kernel))

end Netbase.Sed
