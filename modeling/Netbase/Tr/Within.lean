import Mathlib
import Netbase.Tr.Str

/-!
# Staying inside the operand

Every scanner reads inside the string and leaves the pointer there, with two exceptions:
a bracket that is the last character, and a range from the character zero that breaks
off behind its dash.  A run without them stays inside to its end, and every round of it
brings the end nearer.
-/

namespace Netbase.Tr

open Netbase.Text Netbase.Lib

/-- The run exits with a diagnostic. -/
def Diagnosed (e : Stop) : Prop := ∃ message, e = .errx message

/-- The pointer is inside the operand. -/
abbrev Within (text str : List Byte) : Prop := Inside (0 : Byte) text str

/-- A part of the string has been read and nothing else has changed, but that the end of
the string may have been noted. -/
structure Consumed (text : List Byte) (s t : STR) : Prop where
  within : Within text t.str
  shorter : t.str.length < s.str.length
  state : t.state = s.state ∨ t.state = .EOS
  rest : t = { s with str := t.str, state := t.state }

/-- Such a text stands for the character zero, with this behind it. -/
def Zero (str rest : List Byte) : Prop :=
  ∃ k ∈ [1, 2, 3], str = byte '\\' :: (List.replicate k (byte '0') ++ rest)

section Characters

variable {text : List Byte}

theorem look_within {str : List Byte} (within : Within text str) :
    Ends (fun c => ∃ rest, str = c :: rest) Diagnosed (look .stray str : Scan Byte) := by
  obtain ⟨c, rest, rfl⟩ := within.cases
  exact ⟨rest, rfl⟩

theorem digit_nonzero {c : Byte} (digit : isdigit c = true) : c ≠ 0 := by
  rintro rfl
  exact absurd digit (by decide)

theorem octal_within (left val : Nat) {str : List Byte} (within : Within text str) :
    Ends (fun r => Within text r.2 ∧ r.2 <:+ str) Diagnosed (octal left val str) := by
  induction left generalizing val str with
  | zero => exact ⟨within, List.suffix_refl _⟩
  | succ left ih =>
      obtain ⟨c, rest, rfl⟩ := within.cases
      change Ends _ _ (if isdigit c then octal left (val * 8 + (c.toNat - 48)) rest
        else pure (val, c :: rest))
      by_cases digit : isdigit c = true
      · rw [if_pos digit]
        refine (ih _ (within.next (digit_nonzero digit))).weaken fun r facts => ?_
        exact ⟨facts.1, facts.2.trans (List.suffix_cons c rest)⟩
      · rw [if_neg digit]
        exact ⟨within, List.suffix_refl _⟩

theorem octal_zero (left val : Nat) {str rest : List Byte}
    (run : octal left val str = .ok (0, rest)) :
    val = 0 ∧ ∃ k ≤ left, str = List.replicate k (byte '0') ++ rest := by
  induction left generalizing val str with
  | zero =>
      cases run
      exact ⟨rfl, 0, le_refl 0, rfl⟩
  | succ left ih =>
      cases str with
      | nil => cases run
      | cons c str =>
          change (if isdigit c then octal left (val * 8 + (c.toNat - 48)) str
            else pure (val, c :: str)) = _ at run
          by_cases digit : isdigit c = true
          · rw [if_pos digit] at run
            obtain ⟨zero, k, le, same⟩ := ih _ run
            have isZero : c = byte '0' := by
              rw [isdigit, Bool.and_eq_true, decide_eq_true_eq, decide_eq_true_eq] at digit
              apply UInt8.toNat_inj.mp
              change c.toNat = 48
              omega
            refine ⟨by omega, k + 1, by omega, ?_⟩
            rw [same, isZero, List.replicate_succ, List.cons_append]
          · rw [if_neg digit] at run
            cases run
            exact ⟨rfl, 0, Nat.zero_le _, rfl⟩

theorem escape_range (c : Byte) : 0 ≤ escape c ∧ escape c < 256 ∧ (escape c = 0 → c = 0) := by
  revert c
  apply forall_byte
  decide +kernel

theorem backslash_within {s : STR} {rest : List Byte} (here : s.str = byte '\\' :: rest)
    (within : Within text s.str) :
    Ends (fun r => Consumed text s r.2 ∧ 0 ≤ r.1 ∧ r.1 < 256 ∧ (r.1 = 0 → Zero s.str r.2.str))
      Diagnosed (backslash s) := by
  rw [here] at within
  have inside := within.next (by decide)
  obtain ⟨c, behind, rfl⟩ := inside.cases
  have length : s.str.length = behind.length + 2 := by rw [here, List.length_cons, List.length_cons]
  rw [backslash, here]
  change Ends _ _ (if isdigit c then (do
      let r ← octal 3 0 (c :: behind)
      if (r.1 : Int) ≥ OOBCH then throw (.errx "Invalid octal character value")
      else return ((r.1 : Int), { s with str := r.2 }))
    else if c = 0 then pure (92, { s with state := .EOS, str := c :: behind })
    else pure (escape c, { s with str := behind }))
  by_cases digit : isdigit c = true
  · rw [if_pos digit]
    have first : octal 3 0 (c :: behind) = octal 2 (0 * 8 + (c.toNat - 48)) behind := if_pos digit
    have read := octal_within 2 (0 * 8 + (c.toNat - 48)) (inside.next (digit_nonzero digit))
    cases result : octal 2 (0 * 8 + (c.toNat - 48)) behind with
    | error e =>
        rw [result] at read
        rw [first, result]
        exact read
    | ok r =>
        obtain ⟨val, left⟩ := r
        rw [result] at read
        have shorter : left.length ≤ behind.length := read.2.length_le
        rw [first, result]
        change Ends _ _ (if (val : Int) ≥ OOBCH then
            throw (Stop.errx "Invalid octal character value")
          else pure ((val : Int), { s with str := left }))
        by_cases large : (val : Int) ≥ OOBCH
        · rw [if_pos large]
          exact ⟨_, rfl⟩
        · rw [if_neg large]
          refine ⟨⟨read.1, ?_, Or.inl rfl, rfl⟩, Int.natCast_nonneg val, not_le.mp large,
            fun zero => ?_⟩
          · change left.length < s.str.length
            omega
          · have isZero : val = 0 := Int.natCast_eq_zero.mp zero
            rw [isZero] at result
            obtain ⟨-, k, le, same⟩ := octal_zero 3 0 (first.trans result)
            have count := congrArg List.length same
            rw [List.length_append, List.length_replicate, List.length_cons] at count
            refine ⟨k, ?_, by rw [same]⟩
            simp only [List.mem_cons, List.not_mem_nil, or_false]
            omega
  rw [if_neg digit]
  by_cases last : c = 0
  · rw [if_pos last]
    have other : (92 : Int) ≠ 0 := by decide
    have below : (92 : Int) < 256 := by decide
    refine ⟨⟨inside, ?_, Or.inr rfl, rfl⟩, Int.zero_le_ofNat 92, below,
      fun zero => absurd zero other⟩
    rw [length]
    exact Nat.lt_succ_self _
  · rw [if_neg last]
    obtain ⟨positive, below, zero⟩ := escape_range c
    refine ⟨⟨inside.next last, ?_, Or.inl rfl, rfl⟩, positive, below,
      fun isZero => absurd (zero isZero) last⟩
    rw [length]
    exact Nat.lt_add_of_pos_right (by decide)

theorem character_within {s : STR} {c : Byte} {rest : List Byte} (here : s.str = c :: rest)
    (more : c ≠ 0) (within : Within text s.str) :
    Ends (fun r => Consumed text s r.2 ∧ 0 ≤ r.1 ∧ r.1 < 256) Diagnosed (character s) := by
  rw [character, here]
  change Ends _ _ (if c = byte '\\' then backslash s
    else pure ((c.toNat : Int), { s with str := rest }))
  by_cases escaped : c = byte '\\'
  · rw [if_pos escaped]
    rw [escaped] at here
    exact (backslash_within here within).weaken fun r facts => ⟨facts.1, facts.2.1, facts.2.2.1⟩
  · rw [if_neg escaped]
    rw [here] at within
    refine ⟨⟨within.next more, ?_, Or.inl rfl, rfl⟩, Int.natCast_nonneg _, ?_⟩
    · rw [here]
      exact Nat.lt_succ_self _
    · exact Int.ofNat_lt.mpr c.toNat_lt

end Characters

section Brackets

variable {text : List Byte}

theorem digitIn_nul (base : Nat) : digitIn base 0 = none := by
  have value : digitIn base 0 = if base < base then some base else none := rfl
  rw [value, if_neg (lt_irrefl base)]

theorem number_within (base val : Nat) {str : List Byte} (within : Within text str) :
    Ends (fun r => Within text r.2 ∧ r.2 <:+ str) Diagnosed (number base val str) := by
  induction str generalizing val with
  | nil => exact absurd rfl within.somewhere
  | cons c str ih =>
      rw [number]
      cases digit : digitIn base c with
      | none => exact ⟨within, List.suffix_refl _⟩
      | some d =>
          have nonzero : c ≠ 0 := by
            rintro rfl
            rw [digitIn_nul] at digit
            cases digit
          refine (ih _ (within.next nonzero)).weaken fun r facts => ?_
          exact ⟨facts.1, facts.2.trans (List.suffix_cons c str)⟩

theorem hexadecimal_front {str : List Byte} (hex : hexadecimal str = true) :
    ∃ x rest, x ≠ 0 ∧ str = byte '0' :: x :: rest := by
  match str, hex with
  | zero :: x :: c :: rest, hex =>
      simp only [hexadecimal, Bool.and_eq_true, Bool.or_eq_true, beq_iff_eq] at hex
      obtain ⟨⟨rfl, isX⟩, -⟩ := hex
      refine ⟨x, c :: rest, ?_, rfl⟩
      rcases isX with rfl | rfl <;> decide

theorem strtol_within {str : List Byte} (within : Within text str) :
    Ends (fun r => Within text r.2 ∧ r.2 <:+ str) Diagnosed (strtol str) := by
  rw [strtol]
  have ends : ∀ {front : List Byte} (base : Nat), Within text front → front <:+ str →
      Ends (fun r => Within text r.2 ∧ r.2 <:+ str) Diagnosed
        (number base 0 front >>= fun r => pure (min r.1 longMax.toNat, r.2)) := by
    intro front base inside suffix
    refine Ends.bind (number_within base 0 inside) fun r facts => ?_
    exact ⟨facts.1, facts.2.trans suffix⟩
  by_cases hex : hexadecimal str = true
  · rw [if_pos hex]
    obtain ⟨x, rest, nonzero, rfl⟩ := hexadecimal_front hex
    have behind := (within.next (by decide)).next nonzero
    exact ends 16 behind ((List.suffix_cons _ _).trans (List.suffix_cons _ _))
  rw [if_neg hex]
  split
  · exact ends 8 within (List.suffix_refl _)
  · exact ends 10 within (List.suffix_refl _)

theorem genequiv_within {s : STR} {c : Byte} {rest : List Byte} (here : s.str = c :: rest)
    (more : c ≠ 0) (within : Within text s.str) (equiv : s.equiv.2 = OOBCH) :
    Ends (fun t => t.state = .SET ∧ t.cnt = 0 ∧ t.set = [t.equiv.1, OOBCH] ∧ t.equiv.2 = OOBCH)
      Diagnosed (genequiv s) := by
  rw [genequiv]
  refine Ends.bind (character_within here more within) ?_
  rintro ⟨x, t⟩ ⟨(consumed : Consumed text s t), -, -⟩
  have same : t.equiv.2 = OOBCH := by
    rw [consumed.rest]
    exact equiv
  refine Ends.bind (look_within consumed.within) ?_
  rintro d ⟨behind, is⟩
  by_cases equals : d ≠ byte '='
  · rw [if_pos equals]
    exact ⟨_, rfl⟩
  rw [if_neg equals]
  have inside := consumed.within
  rw [is, not_not.mp equals] at inside
  have after := inside.next (by decide)
  have tail : t.str.tail = behind := by rw [is, List.tail_cons]
  change Ends _ _ (look Stop.stray t.str.tail >>= _)
  rw [tail]
  refine Ends.bind (look_within after) ?_
  rintro e -
  split
  · exact ⟨_, rfl⟩
  · exact ⟨rfl, rfl, by rw [same], same⟩

/-- What the count of a sequence leaves. -/
def Counted (text : List Byte) (s t : STR) : Prop :=
  Within text t.str ∧ t.str.length ≤ s.str.length ∧ t = { s with str := t.str, state := t.state }

theorem seqcount_within {s : STR} (within : Within text s.str) :
    Ends (fun r => Counted text s r.2) Diagnosed (seqcount s) := by
  rw [seqcount]
  obtain ⟨c, rest, here⟩ := within.cases
  rw [here]
  change Ends _ _ (if c = byte '\\' then _ else _)
  by_cases escaped : c = byte '\\'
  · rw [if_pos escaped]
    rw [escaped] at here
    refine Ends.bind (backslash_within here within) ?_
    rintro ⟨x, t⟩ ⟨(consumed : Consumed text s t), -⟩
    exact ⟨consumed.within, consumed.shorter.le, consumed.rest⟩
  rw [if_neg escaped]
  rw [here] at within
  by_cases closed : c = byte ']'
  · rw [if_pos closed]
    refine ⟨within.next (by rw [closed]; decide), ?_, rfl⟩
    rw [here]
    exact Nat.le_succ _
  rw [if_neg closed]
  by_cases digit : isdigit c = true
  · rw [if_pos digit]
    refine Ends.bind (strtol_within within) ?_
    rintro ⟨val, ep⟩ ⟨(inside : Within text ep), (suffix : ep <:+ c :: rest)⟩
    refine Ends.bind (look_within inside) ?_
    rintro d ⟨behind, is⟩
    by_cases bracket : d = byte ']'
    · rw [if_pos bracket]
      change ep = d :: behind at is
      rw [is, bracket] at inside
      have length := suffix.length_le
      refine ⟨?_, ?_, rfl⟩
      · change Within text ep.tail
        rw [is]
        exact inside.next (by decide)
      · change ep.tail.length ≤ s.str.length
        rw [List.length_tail, here]
        omega
    · rw [if_neg bracket]
      exact ⟨_, rfl⟩
  · rw [if_neg digit]
    exact ⟨_, rfl⟩

theorem genseq_within {s : STR} {c : Byte} {rest : List Byte} (here : s.str = c :: rest)
    (more : c ≠ 0) (within : Within text s.str) :
    Ends (fun t => Within text t.str ∧ t.str.length < s.str.length ∧
      (t.state = .SEQUENCE ∨ t.state = .INFINITE) ∧ t.equiv = s.equiv) Diagnosed (genseq s) := by
  rw [genseq]
  by_cases first : s.which = .STRING1
  · rw [if_pos first]
    exact ⟨_, rfl⟩
  rw [if_neg first]
  refine Ends.bind (character_within here more within) ?_
  rintro ⟨x, t⟩ ⟨(consumed : Consumed text s t), -, -⟩
  refine Ends.bind (look_within consumed.within) ?_
  rintro d ⟨behind, is⟩
  by_cases star : d ≠ byte '*'
  · rw [if_pos star]
    exact ⟨_, rfl⟩
  rw [if_neg star]
  have inside := consumed.within
  rw [is, not_not.mp star] at inside
  have after := inside.next (by decide)
  have tail : t.str.tail = behind := by rw [is, List.tail_cons]
  have ready : Within text t.str.tail := by
    rw [tail]
    exact after
  refine Ends.bind
    (seqcount_within (s := { t with lastch := x, str := t.str.tail }) ready) ?_
  rintro ⟨cnt, u⟩ ⟨inside, length, unchanged⟩
  change u.str.length ≤ t.str.tail.length at length
  have shorter := consumed.shorter
  rw [List.length_tail] at length
  refine ⟨inside, ?_, ?_, ?_⟩
  · change u.str.length < s.str.length
    omega
  · change (if cnt ≠ 0 then State.SEQUENCE else State.INFINITE) = _ ∨ _
    split
    · exact Or.inl rfl
    · exact Or.inr rfl
  · change u.equiv = s.equiv
    have first := congrArg STR.equiv unchanged
    have second := congrArg STR.equiv consumed.rest
    exact first.trans second

theorem genclass_marked (isclass : Class → Nat → Bool) (name : List Byte) :
    Ends (fun q => q.length ≤ 257 ∧ ∃ k : Nat, q[k]? = some OOBCH) Diagnosed (genclass isclass name) := by
  rw [genclass]
  cases classes.lookup name with
  | none => exact ⟨_, rfl⟩
  | some cls =>
      have few : (((List.range NCHARS).filter (isclass cls)).map Int.ofNat).length ≤ 256 := by
        rw [List.length_map]
        exact (List.length_filter_le _ _).trans (List.length_range ▸ le_refl _)
      change Ends _ _ (Except.ok (_ ++ OOBCH :: _))
      generalize ((List.range NCHARS).filter (isclass cls)).map Int.ofNat = chars at few
      refine ⟨?_, chars.length, ?_⟩
      · rw [List.length_append, List.length_cons, List.length_replicate, NCHARS]
        omega
      · rw [List.getElem?_append_right (le_refl _), Nat.sub_self]
        rfl

/-- The end of the set is at or behind the place of the next character. -/
def Ready (s : STR) : Prop :=
  s.state = .SET → s.set.length ≤ 257 ∧ ∃ k, s.cnt.toNat ≤ k ∧ s.set[k]? = some OOBCH

/-- A bracket expression has been read. -/
structure Opened (text : List Byte) (s t : STR) : Prop where
  within : Within text t.str
  shorter : t.str.length < s.str.length
  state : t.state ≠ .NORMAL
  ready : Ready t
  equiv : t.equiv.2 = OOBCH

theorem pair_within {d : Byte} {str p : List Byte} (more : d ≠ 0)
    (found : (List.isPrefixOf [d, byte ']'] p) = true) (inside : Within text p) (suffix : p <:+ str) :
    Within text (p.drop 2) ∧ (p.drop 2).length < str.length := by
  obtain ⟨q, rfl⟩ := List.isPrefixOf_iff_prefix.mp found
  refine ⟨(inside.next more).next (by decide), ?_⟩
  have length := suffix.length_le
  rw [List.length_append] at length
  change q.length < str.length
  change 2 + q.length ≤ str.length at length
  omega

/-- A class: the text up to `:]` names it. -/
theorem class_within (isclass : Class → Nat → Bool) {s : STR} {behind : List Byte}
    (length : s.str.length = behind.length + 2) (beyond : Within text behind)
    (equiv : s.equiv.2 = OOBCH) :
    Ends (fun r => r.1 = true → Opened text s r.2) Diagnosed
      (search 0 Stop.stray (ascii [':', ']']).isPrefixOf behind >>= fun found =>
        match found with
        | none => pure (false, s)
        | some p => do
            let q ← genclass isclass (behind.take (behind.length - p.length))
            pure (true, { s with state := .SET, set := q, cnt := 0, str := p.drop 2 })) := by
  obtain ⟨found, run, facts⟩ := search_inside Stop.stray (ascii [':', ']']).isPrefixOf beyond
  rw [run]
  cases found with
  | none => exact fun absent => nomatch absent
  | some p =>
      obtain ⟨at_, wanted, suffix⟩ := facts p rfl
      obtain ⟨left, shorter⟩ := pair_within (by decide) wanted at_ suffix
      change Ends _ _ (genclass isclass _ >>= _)
      refine Ends.bind (genclass_marked isclass _) ?_
      rintro q ⟨few, k, mark⟩ -
      exact
        { within := left
          shorter := by
            change (p.drop 2).length < s.str.length
            omega
          state := fun normal => nomatch normal
          ready := fun _ => ⟨few, k, Nat.zero_le k, mark⟩
          equiv := equiv }

/-- An equivalence: the character up to `=]`. -/
theorem equivalence_within {s : STR} {behind : List Byte}
    (length : s.str.length = behind.length + 2) (beyond : Within text behind)
    (equiv : s.equiv.2 = OOBCH) :
    Ends (fun r => r.1 = true → Opened text s r.2) Diagnosed
      (search 0 Stop.stray (ascii ['=', ']']).isPrefixOf behind >>= fun found =>
        match found with
        | none => pure (false, s)
        | some p => do
            let t ← genequiv { s with str := behind }
            pure (true, { t with str := p.drop 2 })) := by
  obtain ⟨found, run, facts⟩ := search_inside Stop.stray (ascii ['=', ']']).isPrefixOf beyond
  rw [run]
  cases found with
  | none => exact fun absent => nomatch absent
  | some p =>
      obtain ⟨at_, wanted, suffix⟩ := facts p rfl
      obtain ⟨left, shorter⟩ := pair_within (by decide) wanted at_ suffix
      obtain ⟨d, after, is⟩ := beyond.cases
      rw [is] at run
      change Ends _ _ (genequiv { s with str := behind } >>= _)
      refine Ends.bind (genequiv_within (s := { s with str := behind }) is (search_some run) beyond
        equiv) ?_
      rintro t ⟨state, cnt, set, kept⟩ -
      exact
        { within := left
          shorter := by
            change (p.drop 2).length < s.str.length
            omega
          state := by
            change t.state ≠ .NORMAL
            rw [state]
            decide
          ready := fun _ => by
            change t.set.length ≤ 257 ∧ ∃ k : Nat, t.cnt.toNat ≤ k ∧ t.set[k]? = some OOBCH
            rw [set, cnt]
            exact ⟨Nat.le_add_left 2 255, 1, by decide, rfl⟩
          equiv := kept }

theorem sequence_within {s : STR} {c : Byte} {behind : List Byte}
    (length : s.str.length = behind.length + 2) (nonzero : c ≠ 0)
    (inside : Within text (c :: behind)) (equiv : s.equiv.2 = OOBCH) :
    Ends (fun r => r.1 = true → Opened text s r.2) Diagnosed
      (search 0 Stop.stray (headIn (ascii ['*', ']'])) behind >>= fun found =>
        match found with
        | none => pure (false, s)
        | some p =>
            if p.head? ≠ some (byte '*') then pure (false, s)
            else do
              match ← search 0 Stop.stray (headIn (ascii [']'])) p with
              | none => pure (false, s)
              | some _ => do
                  let t ← genseq { s with str := c :: behind }
                  pure (true, t)) := by
  have beyond := inside.next nonzero
  obtain ⟨found, run, facts⟩ := search_inside Stop.stray (headIn (ascii ['*', ']'])) beyond
  rw [run]
  cases found with
  | none => exact fun absent => nomatch absent
  | some p =>
      change Ends _ _ (if p.head? ≠ some (byte '*') then pure (false, s) else _)
      by_cases star : p.head? ≠ some (byte '*')
      · rw [if_pos star]
        exact fun absent => nomatch absent
      rw [if_neg star]
      obtain ⟨closing, run', -⟩ := search_inside Stop.stray
        (headIn (ascii [']'])) (facts p rfl).1
      rw [run']
      cases closing with
      | none => exact fun absent => nomatch absent
      | some _ =>
          change Ends _ _ (genseq { s with str := c :: behind } >>= _)
          refine Ends.bind (genseq_within (s := { s with str := c :: behind }) rfl
            nonzero inside) ?_
          rintro t ⟨left, shorter, state, kept⟩ -
          change t.str.length < behind.length + 1 at shorter
          have notSet : t.state ≠ .SET := by
            rcases state with state | state <;> rw [state] <;> decide
          exact
            { within := left
              shorter := by
                change t.str.length < s.str.length
                omega
              state := by
                change t.state ≠ .NORMAL
                rcases state with state | state <;> rw [state] <;> decide
              ready := fun set => absurd set notSet
              equiv := (congrArg Prod.snd kept).trans equiv }

theorem bracket_within (isclass : Class → Nat → Bool) (free : 0 ∉ text) {s : STR}
    {rest : List Byte} (here : s.str = byte '[' :: rest) (more : rest ≠ [0])
    (within : Within text s.str) (equiv : s.equiv.2 = OOBCH) :
    Ends (fun r => r.1 = true → Opened text s r.2) Diagnosed (bracket isclass s) := by
  rw [here] at within
  have inside := within.next (by decide)
  obtain ⟨c, behind, rfl⟩ := inside.cases
  have nonzero : c ≠ 0 := by
    rintro rfl
    exact more (by rw [inside.at_end free])
  have beyond := inside.next nonzero
  have length : s.str.length = behind.length + 2 := by rw [here, List.length_cons, List.length_cons]
  rw [bracket, here]
  change Ends _ _ (if c = byte ':' then _ else _)
  by_cases colon : c = byte ':'
  · rw [if_pos colon]
    exact class_within isclass length beyond equiv
  rw [if_neg colon]
  by_cases equals : c = byte '='
  · rw [if_pos equals]
    exact equivalence_within length beyond equiv
  rw [if_neg equals]
  exact sequence_within length nonzero inside equiv

end Brackets

section Steps

variable {text : List Byte}

/-- What a range that has been looked for leaves. -/
structure Ranged (text : List Byte) (s : STR) (taken : Bool) (t : STR) : Prop where
  within : Within text t.str
  shorter : t.str.length ≤ s.str.length
  state : if taken then t.state = .RANGE else t.state = s.state ∨ t.state = .EOS
  equiv : t.equiv = s.equiv

theorem genrange_within (free : 0 ∉ text) {s : STR} {rest : List Byte}
    (here : s.str = byte '-' :: rest) (within : Within text s.str) (positive : 0 ≤ s.lastch)
    (below : s.lastch < 256) (whole : s.lastch = 0 → rest ≠ [0]) :
    Ends (fun r => Ranged text s r.1 r.2) Diagnosed (genrange s) := by
  have inside : Within text rest := by
    rw [here] at within
    exact within.next (by decide)
  have length : s.str.length = rest.length + 1 := by rw [here, List.length_cons]
  obtain ⟨c, behind, is⟩ := inside.cases
  rw [genrange, here]
  change Ends _ _ (character { s with str := rest } >>= _)
  by_cases last : c = 0
  · rw [is, last] at inside
    rw [is, last, inside.at_end free] at whole ⊢
    have nonzero : s.lastch ≠ 0 := fun zero => whole zero rfl
    have less : (0 : Int) < s.lastch % 256 := by omega
    have read : character { s with str := [0] } = .ok (0, { s with str := [] }) := rfl
    rw [read]
    change Ends _ _ (if (0 : Int) < s.lastch % 256 then
      pure (false, { s with str := [byte '-', 0] }) else _)
    rw [if_pos less]
    have same : s.str = [byte '-', 0] := by rw [here, is, last, inside.at_end free]
    exact
      { within := same ▸ within
        shorter := by rw [same]
        state := Or.inl rfl
        equiv := rfl }
  · refine Ends.bind (character_within (s := { s with str := rest }) is last inside) ?_
    rintro ⟨stopval, t⟩ ⟨consumed, -, -⟩
    have state : t.state = s.state ∨ t.state = .EOS := consumed.state
    have shorter : t.str.length < rest.length := consumed.shorter
    have kept : t.equiv = s.equiv := by
      rw [show t = _ from consumed.rest]
    change Ends _ _ (if stopval < t.lastch % 256 then pure (false, { t with str := byte '-' :: rest })
      else pure (true, _))
    split
    · exact
        { within := here ▸ within
          shorter := by rw [here]
          state := state
          equiv := kept }
    · exact
        { within := consumed.within
          shorter := by
            change t.str.length ≤ s.str.length
            omega
          state := rfl
          equiv := kept }

/-- A character has been taken, and a range behind it where there is one. -/
structure Advanced (text : List Byte) (s : STR) (r : STR × Option Bool) : Prop where
  within : Within text r.1.str
  shorter : r.1.str.length ≤ s.str.length
  state : r.1.state ≠ .SET
  equiv : r.1.equiv = s.equiv

theorem orRange_within (free : 0 ∉ text) {s : STR} (within : Within text s.str)
    (state : s.state = .NORMAL ∨ s.state = .EOS) (positive : 0 ≤ s.lastch) (below : s.lastch < 256)
    (whole : s.lastch = 0 → s.str ≠ [byte '-', 0]) :
    Ends (Advanced text s) Diagnosed (orRange s) := by
  have notSet : s.state ≠ .SET := by
    rcases state with state | state <;> rw [state] <;> decide
  rw [orRange]
  refine Ends.bind (look_within within) ?_
  rintro c ⟨rest, here⟩
  by_cases dash : c = byte '-'
  · rw [if_pos dash]
    rw [dash] at here
    rw [here] at whole
    refine Ends.bind (genrange_within free here within positive below
      fun zero last => whole zero (by rw [last])) ?_
    rintro ⟨taken, t⟩ ranged
    refine ⟨ranged.within, ranged.shorter, ?_, ranged.equiv⟩
    have after := ranged.state
    cases taken with
    | true =>
        change t.state = .RANGE at after
        change t.state ≠ .SET
        rw [after]
        decide
    | false =>
        change t.state = s.state ∨ t.state = .EOS at after
        change t.state ≠ .SET
        rcases after with after | after <;> rw [after]
        · exact notSet
        · decide
  · rw [if_neg dash]
    exact ⟨within, le_refl _, notSet, rfl⟩

/-- What every round keeps. -/
structure Sound (text : List Byte) (s : STR) : Prop where
  within : Within text s.str
  ready : Ready s
  equiv : s.equiv.2 = OOBCH

/-- A bracket is the last character, or a range from the character zero breaks off behind
its dash. -/
def Runaway (str : List Byte) : Prop := str = [byte '[', 0] ∨ Zero str [byte '-', 0]

/-- The rounds of a call without a character are at most this many. -/
def depth (s : STR) : Nat := 2 * s.str.length + if s.state = .NORMAL then 0 else 1

/-- What is still to come of a state before the scanner goes on in the string. -/
def remaining (s : STR) : Nat :=
  match s.state with
  | .EOS | .INFINITE => 0
  | .NORMAL => 1
  | .RANGE | .SEQUENCE => s.cnt.toNat + 2
  | .SET => s.set.length - s.cnt.toNat + 2

def weight (s : STR) : ℕ ×ₗ ℕ := toLex (s.str.length, remaining s)

theorem weight_shorter {s t : STR} (shorter : t.str.length < s.str.length) : weight t < weight s :=
  Prod.Lex.toLex_lt_toLex.mpr (Or.inl shorter)

theorem weight_remaining {s t : STR} (same : t.str = s.str) (less : remaining t < remaining s) :
    weight t < weight s :=
  Prod.Lex.toLex_lt_toLex.mpr (Or.inr ⟨congrArg List.length same, less⟩)

/-- What a round does to a sound state: it goes on, unless the state is final. -/
structure Onward (text : List Byte) (s : STR) (r : STR × Option Bool) : Prop where
  sound : Sound text r.1
  again : r.2 = none → depth r.1 < depth s
  down : s.state ≠ .EOS → s.state ≠ .INFINITE → weight r.1 < weight s
  stays : s.state = .EOS ∨ s.state = .INFINITE → r.1 = s

/-- Where the string is read, it gets shorter, or its end is noted. -/
structure Progress (text : List Byte) (s : STR) (r : STR × Option Bool) : Prop where
  sound : Sound text r.1
  further : r.1.str.length < s.str.length ∨ r = ({ s with state := .EOS }, some false)

theorem Advanced.progress {s t : STR} {r : STR × Option Bool} (advanced : Advanced text t r)
    (shorter : t.str.length < s.str.length) (equiv : t.equiv.2 = OOBCH) : Progress text s r where
  sound :=
    { within := advanced.within
      ready := fun set => absurd set advanced.state
      equiv := (congrArg Prod.snd advanced.equiv).trans equiv }
  further := Or.inl (advanced.shorter.trans_lt shorter)

theorem normal_progress (isclass : Class → Nat → Bool) (free : 0 ∉ text) {s : STR}
    (sound : Sound text s) (normal : s.state = .NORMAL) (straight : ¬ Runaway s.str) :
    Ends (Progress text s) Diagnosed (step isclass s) := by
  have within := sound.within
  obtain ⟨c, rest, here⟩ := within.cases
  have shorter : rest.length < s.str.length := by
    rw [here]
    exact Nat.lt_succ_self _
  simp only [step, normal]
  rw [here]
  change Ends _ _ (if c = 0 then pure ({ s with state := .EOS, str := c :: rest }, some false)
    else _)
  by_cases last : c = 0
  · rw [if_pos last]
    refine ⟨⟨?_, (fun set => nomatch set), sound.equiv⟩, Or.inr ?_⟩
    · exact here ▸ within
    · rw [← here]
  rw [if_neg last]
  have inside : Within text rest := (here ▸ within).next last
  have nonzero : (c.toNat : Int) ≠ 0 := fun zero =>
    last (UInt8.toNat_inj.mp (Int.natCast_eq_zero.mp zero))
  have plain : Ends (Progress text s) Diagnosed
      (orRange { s with state := .NORMAL, str := rest, lastch := c.toNat }) := by
    refine (orRange_within (s := { s with state := .NORMAL, str := rest, lastch := c.toNat }) free
      inside (Or.inl rfl) (Int.natCast_nonneg _) (Int.ofNat_lt.mpr c.toNat_lt)
      fun zero => absurd zero nonzero).weaken fun r advanced => ?_
    exact advanced.progress shorter sound.equiv
  by_cases escaped : c = byte '\\'
  · rw [if_pos escaped]
    rw [escaped] at here
    change Ends _ _ (backslash s >>= _)
    refine Ends.bind (backslash_within here within) ?_
    rintro ⟨x, t⟩ ⟨(consumed : Consumed text s t), (positive : 0 ≤ x), (below : x < 256),
      (zero : x = 0 → Zero s.str t.str)⟩
    have state : t.state = .NORMAL ∨ t.state = .EOS := normal ▸ consumed.state
    have kept : t.equiv = s.equiv := by
      rw [show t = _ from consumed.rest]
    refine (orRange_within (s := { t with lastch := x }) free consumed.within state positive below
      fun isZero broken => straight (Or.inr ?_)).weaken fun r advanced => ?_
    · change t.str = [byte '-', 0] at broken
      exact broken ▸ zero isZero
    · exact advanced.progress consumed.shorter ((congrArg Prod.snd kept).trans sound.equiv)
  rw [if_neg escaped]
  by_cases bracketed : c = byte '['
  · rw [if_pos bracketed]
    have more : rest ≠ [0] := fun end_ => straight (Or.inl (by rw [here, bracketed, end_]))
    rw [bracketed] at here
    change Ends _ _ (bracket isclass s >>= _)
    refine Ends.bind (bracket_within isclass free here more within sound.equiv) ?_
    rintro ⟨taken, t⟩ opened
    cases taken with
    | true =>
        have opened : Opened text s t := opened rfl
        exact ⟨⟨opened.within, opened.ready, opened.equiv⟩, Or.inl opened.shorter⟩
    | false => exact plain
  · rw [if_neg bracketed]
    exact plain

theorem Progress.onward {s : STR} {r : STR × Option Bool} (progress : Progress text s r)
    (normal : s.state = .NORMAL) : Onward text s r where
  sound := progress.sound
  again := fun again => by
    rcases progress.further with shorter | noted
    · rw [depth, depth, if_pos normal]
      split <;> omega
    · rw [noted] at again
      cases again
  down := fun _ _ => by
    rcases progress.further with shorter | noted
    · exact weight_shorter shorter
    · refine weight_remaining (by rw [noted]) ?_
      rw [noted, remaining, remaining, normal]
      exact Nat.one_pos
  stays := fun final => by
    rcases final with final | final <;> rw [normal] at final <;> cases final

theorem onward_counted {s t : STR} (sound : Sound text s) (same : t.str = s.str)
    (equiv : t.equiv = s.equiv) (ready : Ready t) (less : remaining t < remaining s)
    (moving : s.state ≠ .EOS ∧ s.state ≠ .INFINITE) : Onward text s (t, some true) where
  sound := ⟨same ▸ sound.within, ready, (congrArg Prod.snd equiv).trans sound.equiv⟩
  again := fun again => nomatch again
  down := fun _ _ => weight_remaining same less
  stays := fun final => absurd final (not_or.mpr moving)

theorem onward_again {s t : STR} (sound : Sound text s) (same : t.str = s.str)
    (equiv : t.equiv = s.equiv) (normal : t.state = .NORMAL) (other : s.state ≠ .NORMAL)
    (less : 1 < remaining s) (moving : s.state ≠ .EOS ∧ s.state ≠ .INFINITE) :
    Onward text s (t, none) where
  sound :=
    { within := same ▸ sound.within
      ready := fun set => by
        rw [normal] at set
        cases set
      equiv := (congrArg Prod.snd equiv).trans sound.equiv }
  again := fun _ => by
    rw [depth, depth, if_pos normal, if_neg other, same]
    exact Nat.lt_succ_self _
  down := fun _ _ => by
    refine weight_remaining same ?_
    rw [remaining, normal]
    exact less
  stays := fun final => absurd final (not_or.mpr moving)

theorem toNat_pred {cnt : BitVec 32} (more : cnt ≠ 0) : (cnt - 1).toNat + 1 = cnt.toNat := by
  have positive : cnt.toNat ≠ 0 := fun zero => more (BitVec.eq_of_toNat_eq zero)
  rw [BitVec.toNat_sub]
  change (2 ^ 32 - 1 + cnt.toNat) % 2 ^ 32 + 1 = cnt.toNat
  omega

theorem counting_onward {s : STR} (sound : Sound text s) (state : s.state ≠ .NORMAL)
    (counting : remaining s = s.cnt.toNat + 2) (moving : s.state ≠ .EOS ∧ s.state ≠ .INFINITE)
    {next : STR} (same : next.str = s.str) (equiv : next.equiv = s.equiv) (ready : Ready next)
    (less : s.cnt ≠ 0 → remaining next = (s.cnt - 1).toNat + 2) :
    Ends (Onward text s) Diagnosed
      (if s.cnt = 0 then pure ({ s with state := .NORMAL }, none)
        else pure (next, some true) : Scan (STR × Option Bool)) := by
  by_cases done : s.cnt = 0
  · rw [if_pos done]
    refine onward_again sound rfl rfl rfl state ?_ moving
    rw [counting]
    omega
  · rw [if_neg done]
    refine onward_counted sound same equiv ready ?_ moving
    rw [counting, less done]
    have pred := toNat_pred done
    omega

theorem set_onward (isclass : Class → Nat → Bool) {s : STR} (sound : Sound text s)
    (state : s.state = .SET) : Ends (Onward text s) Diagnosed (step isclass s) := by
  obtain ⟨few, k, behind, mark⟩ := sound.ready state
  have bound : k < s.set.length := (List.getElem?_eq_some_iff.mp mark).1
  have inside : s.cnt.toNat < s.set.length := behind.trans_lt bound
  have count : remaining s = s.set.length - s.cnt.toNat + 2 := by rw [remaining, state]
  have moving : s.state ≠ .EOS ∧ s.state ≠ .INFINITE := by
    rw [state]
    decide
  simp only [step, state, List.getElem?_eq_getElem inside]
  by_cases final : s.set[s.cnt.toNat] = OOBCH
  · rw [if_pos final]
    refine onward_again sound rfl rfl rfl (by rw [state]; decide) ?_ moving
    rw [count]
    omega
  · rw [if_neg final]
    have succ : (s.cnt + 1).toNat = s.cnt.toNat + 1 := by
      rw [BitVec.toNat_add]
      change (s.cnt.toNat + 1) % 2 ^ 32 = s.cnt.toNat + 1
      omega
    have later : s.cnt.toNat ≠ k := by
      intro here
      rw [← here, List.getElem?_eq_getElem inside] at mark
      exact final (Option.some.inj mark)
    refine onward_counted sound rfl rfl (fun _ => ⟨few, k, ?_, mark⟩) ?_ moving
    · change (s.cnt + 1).toNat ≤ k
      omega
    · rw [count]
      change s.set.length - (s.cnt + 1).toNat + 2 < _
      omega

theorem step_onward (isclass : Class → Nat → Bool) (free : 0 ∉ text) {s : STR}
    (sound : Sound text s) (straight : s.state = .NORMAL → ¬ Runaway s.str) :
    Ends (Onward text s) Diagnosed (step isclass s) := by
  have moving : s.state = .RANGE ∨ s.state = .SEQUENCE → s.state ≠ .EOS ∧ s.state ≠ .INFINITE := by
    rintro (state | state) <;> rw [state] <;> decide
  have final : s.state = .EOS ∨ s.state = .INFINITE → ∀ more : Bool,
      Onward text s (s, some more) := fun final more =>
    { sound := sound
      again := fun again => nomatch again
      down := fun notEnd notInfinite => (final.elim notEnd notInfinite).elim
      stays := fun _ => rfl }
  cases state : s.state with
  | NORMAL =>
      exact (normal_progress isclass free sound state (straight state)).weaken
        fun _ progress => progress.onward state
  | EOS =>
      have run : step isclass s = .ok (s, some false) := by
        simp only [step, state]
        rfl
      rw [run]
      exact final (Or.inl state) false
  | INFINITE =>
      have run : step isclass s = .ok (s, some true) := by
        simp only [step, state]
        rfl
      rw [run]
      exact final (Or.inr state) true
  | RANGE =>
      simp only [step, state]
      exact counting_onward sound (by rw [state]; decide) (by rw [remaining, state])
        (moving (Or.inl state)) rfl rfl (fun set => nomatch set) fun _ => rfl
  | SEQUENCE =>
      simp only [step, state]
      exact counting_onward sound (by rw [state]; decide) (by rw [remaining, state])
        (moving (Or.inr state)) rfl rfl (fun set => nomatch set) fun _ => rfl
  | SET => exact set_onward isclass sound state

end Steps

/-! ## Runs -/

/-- A string without a NUL in it. -/
structure Operand where
  text : List Byte
  free : 0 ∉ text

/-- The scanner at the start of an operand. -/
def Operand.create (operand : Operand) (which : Which) : STR :=
  str_create which (operand.text ++ [0])

section Runs

variable (isclass : Class → Nat → Bool)

/-- The states that the rounds come through. -/
inductive Visits : STR → STR → Prop where
  | refl (s : STR) : Visits s s
  | round {s t u : STR} {ret : Option Bool} (run : step isclass s = .ok (t, ret))
      (rest : Visits t u) : Visits s u

variable {isclass} {text : List Byte} {s t : STR}

theorem Visits.trans {u : STR} (first : Visits isclass s t) (second : Visits isclass t u) :
    Visits isclass s u := by
  induction first with
  | refl s => exact second
  | round run _ ih => exact Visits.round run (ih second)

/-- No state on the way runs over the end of the string. -/
def Straight (isclass : Class → Nat → Bool) (s : STR) : Prop :=
  ∀ t, Visits isclass s t → t.state = .NORMAL → ¬ Runaway t.str

theorem Straight.on (straight : Straight isclass s) (visits : Visits isclass s t) :
    Straight isclass t :=
  fun u further => straight u (visits.trans further)

theorem create_sound (operand : Operand) (which : Which) :
    Sound operand.text (operand.create which) where
  within := Inside.start
  ready := fun set => nomatch set
  equiv := rfl

theorem depth_lt (s : STR) : depth s < 2 * s.str.length + 2 := by
  rw [depth]
  split <;> omega

structure Called (isclass : Class → Nat → Bool) (text : List Byte) (s t : STR) : Prop where
  sound : Sound text t
  visits : Visits isclass s t
  down : s.state ≠ .EOS → s.state ≠ .INFINITE → weight t < weight s
  stays : s.state = .EOS ∨ s.state = .INFINITE → t = s

theorem Onward.called {ret : Option Bool} (onward : Onward text s (t, ret))
    (run : step isclass s = .ok (t, ret)) : Called isclass text s t where
  sound := onward.sound
  visits := Visits.round run (Visits.refl t)
  down := onward.down
  stays := onward.stays

theorem Called.behind {u : STR} (onward : Onward text s (t, none))
    (run : step isclass s = .ok (t, none)) (called : Called isclass text t u) :
    Called isclass text s u where
  sound := called.sound
  visits := Visits.round run called.visits
  down := fun notEnd notInfinite => by
    have less : weight t < weight s := onward.down notEnd notInfinite
    by_cases final : t.state = .EOS ∨ t.state = .INFINITE
    · rw [called.stays final]
      exact less
    · exact (called.down (fun is => final (Or.inl is)) fun is => final (Or.inr is)).trans less
  stays := fun final => by
    have same : t = s := onward.stays final
    have less := onward.again rfl
    rw [same] at less
    exact absurd less (lt_irrefl _)

theorem rounds_called (free : 0 ∉ text) (fuel : Nat) (sound : Sound text s)
    (straight : Straight isclass s) (enough : depth s < fuel) :
    Ends (fun r => Called isclass text s r.1) Diagnosed (rounds isclass fuel s) := by
  induction fuel generalizing s with
  | zero => exact absurd enough (Nat.not_lt_zero _)
  | succ fuel ih =>
      have onward := step_onward isclass free sound (straight s (Visits.refl s))
      rw [rounds]
      cases run : step isclass s with
      | error e =>
          rw [run] at onward
          exact onward
      | ok r =>
          obtain ⟨t, ret⟩ := r
          rw [run] at onward
          have visits : Visits isclass s t := Visits.round run (Visits.refl t)
          cases ret with
          | none =>
              have onward : Onward text s (t, none) := onward
              have less : depth t < depth s := onward.again rfl
              change Ends _ _ (rounds isclass fuel t)
              have enough' : depth t < fuel := less.trans_le (Nat.lt_succ_iff.mp enough)
              refine (ih onward.sound (straight.on visits) enough').weaken fun r called => ?_
              exact called.behind onward run
          | some more => exact Onward.called onward run

theorem next_called (free : 0 ∉ text) (sound : Sound text s) (straight : Straight isclass s) :
    Ends (fun r => Called isclass text s r.1) Diagnosed (next isclass s) :=
  rounds_called free _ sound straight (depth_lt s)

/-- The run lemma: calls from a sound state stay inside the string, or exit. -/
theorem calls_sound (free : 0 ∉ text) (n : Nat) (sound : Sound text s)
    (straight : Straight isclass s) :
    Ends (fun t => Sound text t) Diagnosed (calls isclass n s) := by
  induction n generalizing s with
  | zero => exact sound
  | succ n ih =>
      rw [calls]
      refine Ends.bind (next_called free sound straight) ?_
      rintro ⟨t, more⟩ called
      exact ih called.sound (straight.on called.visits)

/-- A run that neither exits nor comes to an infinite sequence reaches the end. -/
theorem calls_eos (free : 0 ∉ text) (sound : Sound text s) (straight : Straight isclass s)
    (finite : ∀ n, ∃ t, calls isclass n s = .ok t ∧ t.state ≠ .INFINITE) :
    ∃ n t, calls isclass n s = .ok t ∧ t.state = .EOS := by
  induction size_eq : weight s using WellFoundedLT.induction generalizing s with
  | ind size ih =>
      by_cases done : s.state = .EOS
      · exact ⟨0, s, rfl, done⟩
      have moving : s.state ≠ .INFINITE := by
        obtain ⟨t, same, state⟩ := finite 0
        cases same
        exact state
      have called := next_called free sound straight
      cases run : next isclass s with
      | error e =>
          obtain ⟨t, same, -⟩ := finite 1
          rw [calls, run] at same
          cases same
      | ok r =>
          obtain ⟨t, more⟩ := r
          rw [run] at called
          have called : Called isclass text s t := called
          have shift : ∀ n, calls isclass (n + 1) s = calls isclass n t := fun n => by
            rw [calls, run]
            rfl
          have less : weight t < size := size_eq ▸ called.down done moving
          obtain ⟨n, u, reached, state⟩ := ih (weight t) less called.sound
            (straight.on called.visits) (fun n => shift n ▸ finite (n + 1)) rfl
          exact ⟨n + 1, u, (shift n).trans reached, state⟩

/-- The first calls end with the rounds from this state on. -/
def Standing (isclass : Class → Nat → Bool) (start s : STR) : Prop :=
  ∃ n fuel, depth s < fuel ∧
    calls isclass (n + 1) start = (rounds isclass fuel s >>= fun r => pure r.1)

theorem calls_succ (n : Nat) (s : STR) :
    calls isclass (n + 1) s = (calls isclass n s >>= fun t => next isclass t >>= fun r => pure r.1) := by
  induction n generalizing s with
  | zero => rfl
  | succ n ih =>
      rw [calls]
      conv_rhs => rw [calls, bind_assoc]
      refine bind_congr fun r => ?_
      exact ih r.1

theorem Standing.round {start : STR} {ret : Option Bool} (standing : Standing isclass start s)
    (onward : Onward text s (t, ret)) (run : step isclass s = .ok (t, ret)) :
    Standing isclass start t := by
  obtain ⟨n, fuel, enough, same⟩ := standing
  cases fuel with
  | zero => exact absurd enough (Nat.not_lt_zero _)
  | succ fuel =>
      rw [rounds, run] at same
      cases ret with
      | none =>
          have less : depth t < depth s := onward.again rfl
          exact ⟨n, fuel, less.trans_le (Nat.lt_succ_iff.mp enough), same⟩
      | some more =>
          have reached : calls isclass (n + 1) start = .ok t := same
          refine ⟨n + 1, 2 * t.str.length + 2, depth_lt t, ?_⟩
          rw [calls_succ, reached]
          rfl

theorem bracket_strays (normal : s.state = .NORMAL) (last : s.str = [byte '[', 0]) :
    step isclass s = .error .stray := by
  obtain ⟨which, state, cnt, lastch, equiv, set, str⟩ := s
  cases normal
  cases last
  rfl

theorem zero_strays (isclass : Class → Nat → Bool) (normal : s.state = .NORMAL)
    (zero : Zero s.str [byte '-', 0]) :
    ∃ t, step isclass s = .ok (t, none) ∧ t.state = .RANGE ∧ t.cnt = 1 ∧ t.str = [] := by
  obtain ⟨which, state, cnt, lastch, equiv, set, str⟩ := s
  cases normal
  obtain ⟨k, few, same⟩ := zero
  cases same
  simp only [List.mem_cons, List.not_mem_nil, or_false] at few
  rcases few with rfl | rfl | rfl
  · exact ⟨_, rfl, rfl, rfl, rfl⟩
  · exact ⟨_, rfl, rfl, rfl, rfl⟩
  · exact ⟨_, rfl, rfl, rfl, rfl⟩

/-- Every call of a run stays inside the string, or exits. -/
def Stays (isclass : Class → Nat → Bool) (text : List Byte) (start : STR) : Prop :=
  ∀ n, Ends (fun t => Within text t.str) Diagnosed (calls isclass n start)

theorem Standing.straight {start : STR} (stays : Stays isclass text start)
    (standing : Standing isclass start s) (normal : s.state = .NORMAL) : ¬ Runaway s.str := by
  intro runaway
  obtain ⟨n, fuel, enough, same⟩ := standing
  have inside := stays (n + 1)
  rw [same] at inside
  rcases runaway with last | zero
  · cases fuel with
    | zero => exact absurd enough (Nat.not_lt_zero _)
    | succ fuel =>
        rw [rounds, bracket_strays normal last] at inside
        obtain ⟨message, stray⟩ := inside
        cases stray
  · obtain ⟨t, run, state, cnt, out⟩ := zero_strays isclass normal zero
    have two : 2 < fuel := by
      obtain ⟨k, -, is⟩ := zero
      have length : 3 ≤ s.str.length := by
        rw [is, List.length_cons, List.length_append, List.length_cons, List.length_cons]
        omega
      have two : 2 < depth s := by
        rw [depth]
        omega
      exact two.trans enough
    obtain ⟨fuel, rfl⟩ : ∃ k, fuel = k + 2 := ⟨fuel - 2, by omega⟩
    have one : (1 : BitVec 32) ≠ 0 := by decide
    have ranged : step isclass t =
        .ok ({ t with cnt := t.cnt - 1, lastch := t.lastch + 1 }, some true) := by
      simp only [step, state, cnt, if_neg one]
      rfl
    rw [rounds, run] at inside
    change Ends _ _ (rounds isclass (fuel + 1) t >>= fun r => pure r.1) at inside
    rw [rounds, ranged] at inside
    exact inside.somewhere out

theorem Visits.standing {start : STR} (free : 0 ∉ text) (stays : Stays isclass text start)
    (visits : Visits isclass s t) (standing : Standing isclass start s) (sound : Sound text s) :
    Standing isclass start t ∧ Sound text t := by
  induction visits with
  | refl s => exact ⟨standing, sound⟩
  | round run _ ih =>
      have onward := step_onward isclass free sound fun normal => standing.straight stays normal
      rw [run] at onward
      exact ih (standing.round onward run) onward.sound

end Runs

/-- Any number of calls on any operand stays inside the string or exits with a diagnostic,
and a run that neither exits nor comes to an infinite sequence ends in `EOS`, exactly if
the scanner comes to no bracket that is the last character and to no range from the
character zero that breaks off behind its dash. -/
theorem calls_within_iff (isclass : Class → Nat → Bool) (which : Which) (operand : Operand) :
    ((∀ n, Ends (fun s => Within operand.text s.str) Diagnosed
        (calls isclass n (operand.create which))) ∧
      ((∀ n, ∃ s, calls isclass n (operand.create which) = .ok s ∧ s.state ≠ .INFINITE) →
        ∃ n s, calls isclass n (operand.create which) = .ok s ∧ s.state = .EOS)) ↔
    ∀ s, Visits isclass (operand.create which) s → s.state = .NORMAL → ¬ Runaway s.str := by
  have sound := create_sound operand which
  constructor
  · rintro ⟨stays, -⟩ s visits normal
    have start : Standing isclass (operand.create which) (operand.create which) :=
      ⟨0, _, depth_lt _, rfl⟩
    exact (visits.standing operand.free stays start sound).1.straight stays normal
  · intro straight
    refine ⟨fun n => ?_, calls_eos operand.free sound straight⟩
    exact (calls_sound operand.free n sound straight).weaken fun s here => here.within

def bracketOperand : Operand := ⟨[byte '['], by decide⟩

theorem bracketOperand_strays :
    ¬ ∀ n, Ends (fun s => Within bracketOperand.text s.str) Diagnosed
      (calls (fun _ _ => false) n (bracketOperand.create .STRING1)) := by
  intro inside
  obtain ⟨message, stray⟩ := inside 1
  cases stray

end Netbase.Tr
