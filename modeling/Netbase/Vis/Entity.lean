import Netbase.Vis.RoundTrip

/-!
# References

With `VIS_HTTP1866` the decoder reads a byte as the name of its entity or as its
number, between `&` and `;`.  A name brings it back to the ground state.  A number
is added up from the sum so far and ten times that sum, and the decoder stays where
it is behind the `;`.
-/

namespace Netbase.Vis

open Netbase.Text

/-- A way to write a byte. -/
inductive Form (b : Byte) where
  | literal (plain : b ≠ byte '&' ∧ b ≠ byte '\\' ∧ b ≠ 0)
  | numeric
  | named (name : List Byte) (known : (name, b) ∈ nv)

def Form.text {b : Byte} : Form b → List Byte
  | .literal _ => [b]
  | .numeric => byte '&' :: byte '#' :: (decimal b.toNat ++ [byte ';'])
  | .named name _ => byte '&' :: (name ++ [byte ';'])

def Form.isNumeric {b : Byte} : Form b → Bool
  | .numeric => true
  | _ => false

abbrev Written := (b : Byte) × Form b

/-- The text of a string. -/
def written (items : List Written) : List Byte := items.flatMap fun item => item.2.text

/-- The string itself. -/
def bytes (items : List Written) : List Byte := items.map Sigma.fst

/-! ## One reference -/

theorem http1866_running : test VIS_HTTP1866 UNVIS_END = false := by decide

def numberSum (b : Byte) : Byte :=
  (decimal b.toNat).foldl (fun cp digit => cp + (cp * 10 + digit - byte '0')) 0

theorem feeds_byte (b : Byte) :
    (numberSum b = b ↔ b < 10) ∧
      feeds VIS_HTTP1866 0 ground (Form.numeric (b := b)).text =
        some ([numberSum b], numberSum b, SS .S_NUMBER) ∧
      (b ≠ byte '&' ∧ b ≠ byte '\\' ∧ b ≠ 0 →
        feeds VIS_HTTP1866 0 ground [b] = some ([b], b, ground)) := by
  revert b
  refine forall_byte ?_
  decide +kernel

theorem numberSum_eq_iff (b : Byte) : numberSum b = b ↔ b < 10 := (feeds_byte b).1

theorem nv_feeds : ∀ entry ∈ nv,
    feeds VIS_HTTP1866 0 ground (byte '&' :: (entry.1 ++ [byte ';'])) =
        some ([entry.2], entry.2, ground) ∧ (0 : Byte) ∉ entry.1 := by
  decide +kernel

theorem feeds_named {b : Byte} {name : List Byte} (known : (name, b) ∈ nv) :
    feeds VIS_HTTP1866 0 ground (byte '&' :: (name ++ [byte ';'])) = some ([b], b, ground) := by
  exact (nv_feeds (name, b) known).1

/-! ## Behind a number -/

/-- The decoder behind the `;` of a number, with its sum. -/
def decodesOn (sum : Byte) (src : List Byte) : Option (List Byte) :=
  decodeFrom VIS_HTTP1866 sum (SS .S_NUMBER) src

theorem decodesOn_semicolon (sum : Byte) (rest : List Byte) :
    decodesOn sum (byte ';' :: rest) = (decodesOn sum rest).map (sum :: ·) := by
  have fed : feeds VIS_HTTP1866 sum (SS .S_NUMBER) [byte ';'] =
      some ([sum], sum, SS .S_NUMBER) := rfl
  exact decodeFrom_append fed

theorem decodesOn_digit (sum : Byte) {d : Byte} (other : d ≠ byte ';') (digit : isdigit d = true)
    (rest : List Byte) :
    decodesOn sum (d :: rest) = decodesOn (sum + (sum * 10 + d - byte '0')) rest := by
  have replied : unvis sum d (SS .S_NUMBER) VIS_HTTP1866 =
      nochar (sum + (sum * 10 + d - byte '0')) .S_NUMBER := by
    simp only [unvis, http1866_running, Bool.false_eq_true, if_false, SS, if_neg other, digit,
      Bool.not_true, nochar]
  have fed : feeds VIS_HTTP1866 sum (SS .S_NUMBER) [d] =
      some ([], sum + (sum * 10 + d - byte '0'), SS .S_NUMBER) := by
    rw [feeds, feed_succ, replied]
    rfl
  have joined : decodesOn sum ([d] ++ rest) =
      (decodesOn (sum + (sum * 10 + d - byte '0')) rest).map ([] ++ ·) := decodeFrom_append fed
  simpa only [List.singleton_append, List.nil_append, Option.map_id'] using joined

theorem decodesOn_other (sum : Byte) {c : Byte} (other : c ≠ byte ';') (digit : isdigit c = false)
    (rest : List Byte) : decodesOn sum (c :: rest) = none := by
  have replied : unvis sum c (SS .S_NUMBER) VIS_HTTP1866 = bad sum := by
    simp only [unvis, http1866_running, Bool.false_eq_true, if_false, SS, if_neg other, digit,
      Bool.not_false, if_true]
  rw [decodesOn, decodeFrom, feeds, feed_succ, replied]
  rfl

theorem decodesOn_cases {item : Written} {items : List Written} {sum : Byte} {out : List Byte}
    (decoded : decodesOn sum (written (item :: items)) = some out) :
    (item.1 = byte ';' ∧ ∃ later, decodesOn sum (written items) = some later ∧
        sum :: later = out) ∨
      ∃ next, decodesOn next (written items) = some out := by
  obtain ⟨b, form⟩ := item
  rw [written, List.flatMap_cons, ← written] at decoded
  cases form with
  | literal plain =>
      dsimp only [Form.text] at decoded
      rw [List.singleton_append] at decoded
      by_cases semicolon : b = byte ';'
      · rw [semicolon, decodesOn_semicolon] at decoded
        exact Or.inl ⟨semicolon, Option.map_eq_some_iff.mp decoded⟩
      · cases digit : isdigit b with
        | true =>
            rw [decodesOn_digit sum semicolon digit] at decoded
            exact Or.inr ⟨_, decoded⟩
        | false =>
            rw [decodesOn_other sum semicolon digit] at decoded
            cases decoded
  | numeric =>
      rw [Form.text, List.cons_append, decodesOn_other sum (by decide) (by decide)] at decoded
      cases decoded
  | named name known =>
      rw [Form.text, List.cons_append, decodesOn_other sum (by decide) (by decide)] at decoded
      cases decoded

theorem decodesOn_length {items : List Written} {sum : Byte} {out : List Byte}
    (decoded : decodesOn sum (written items) = some out) : out.length ≤ items.length := by
  induction items generalizing sum out with
  | nil =>
      cases decoded
      exact Nat.le_refl _
  | cons item items ih =>
      rcases decodesOn_cases decoded with ⟨-, later, rest, rfl⟩ | ⟨next, rest⟩
      · exact Nat.succ_le_succ (ih rest)
      · exact Nat.le_succ_of_le (ih rest)

/-- Behind a number that was read right no string is read right any more. -/
theorem decodesOn_loses {sum : Byte} (small : sum < 10) {items : List Written}
    (more : items ≠ []) : decodesOn sum (written items) ≠ some (bytes items) := by
  intro decoded
  obtain ⟨item, items, rfl⟩ := List.exists_cons_of_ne_nil more
  rcases decodesOn_cases decoded with ⟨semicolon, later, -, joined⟩ | ⟨next, rest⟩
  · have first : sum = item.1 := (List.cons.inj joined).1
    rw [first, semicolon] at small
    exact absurd small (by decide)
  · have bound := decodesOn_length rest
    rw [bytes, List.length_map] at bound
    exact absurd bound (Nat.not_succ_le_self _)

/-! ## Strings -/

/-- Numbers stand for a single digit and at the very end only. -/
def Numbered (items : List Written) : Prop :=
  ∀ front item back, items = front ++ item :: back → item.2.isNumeric = true →
    item.1 < 10 ∧ back = []

theorem numbered_cons {item : Written} {items : List Written} :
    Numbered (item :: items) ↔
      (item.2.isNumeric = true → item.1 < 10 ∧ items = []) ∧ Numbered items := by
  constructor
  · intro numbered
    refine ⟨numbered [] item items rfl, fun front other back split => ?_⟩
    exact numbered (item :: front) other back (by rw [split, List.cons_append])
  · rintro ⟨first, rest⟩ front other back split
    cases front with
    | nil =>
        cases split
        exact first
    | cons head front =>
        cases split
        exact rest front other back rfl

theorem decodeFrom_written (items : List Written) :
    decodeFrom VIS_HTTP1866 0 ground (written items) = some (bytes items) ↔ Numbered items := by
  induction items with
  | nil =>
      refine ⟨fun _ front item back split => ?_, fun _ => rfl⟩
      exact absurd split (by simp)
  | cons item items ih =>
      obtain ⟨b, form⟩ := item
      have ordinary (fed : feeds VIS_HTTP1866 0 ground form.text = some ([b], b, ground))
          (alpha : form.isNumeric = false) :
          decodeFrom VIS_HTTP1866 0 ground (written (⟨b, form⟩ :: items)) =
              some (bytes (⟨b, form⟩ :: items)) ↔ Numbered (⟨b, form⟩ :: items) := by
        rw [written, List.flatMap_cons, ← written, decodeFrom_append fed,
          decodeFrom_ground http1866_running, numbered_cons, ← ih, bytes, List.map_cons, ← bytes]
        dsimp only
        rw [alpha]
        cases decodeFrom VIS_HTTP1866 0 ground (written items) with
        | none => simp
        | some out => simp
      cases form with
      | literal plain => exact ordinary ((feeds_byte b).2.2 plain) rfl
      | named name known => exact ordinary (feeds_named known) rfl
      | numeric =>
          rw [written, List.flatMap_cons, ← written, decodeFrom_append (feeds_byte b).2.1,
            numbered_cons, ← decodesOn, bytes, List.map_cons, ← bytes]
          constructor
          · intro decoded
            obtain ⟨later, rest, joined⟩ := Option.map_eq_some_iff.mp decoded
            rw [List.singleton_append] at joined
            have right := (List.cons.inj joined).1
            have small : b < 10 := (numberSum_eq_iff b).mp right
            rw [(List.cons.inj joined).2, right] at rest
            have none_ : items = [] := by
              by_contra more
              exact decodesOn_loses small more rest
            subst none_
            exact ⟨fun _ => ⟨small, rfl⟩, fun front item back split => absurd split (by simp)⟩
          · rintro ⟨last, -⟩
            obtain ⟨small, none_⟩ := last rfl
            subst none_
            rw [(numberSum_eq_iff b).mpr small]
            rfl

theorem written_clean (items : List Written) : (0 : Byte) ∉ written items := by
  intro inside
  obtain ⟨⟨b, form⟩, -, inside⟩ := List.mem_flatMap.mp inside
  cases form with
  | literal plain => exact plain.2.2 (List.mem_singleton.mp inside).symm
  | numeric =>
      simp only [Form.text, List.mem_cons, List.mem_append, List.not_mem_nil, or_false] at inside
      rcases inside with zero | zero | digit | zero
      · exact absurd zero (by decide)
      · exact absurd zero (by decide)
      · exact absurd (isdigit_of_mem_decimal _ _ digit) (by decide)
      · exact absurd zero (by decide)
  | named name known =>
      simp only [Form.text, List.mem_cons, List.mem_append, List.not_mem_nil, or_false] at inside
      rcases inside with zero | letter | zero
      · exact absurd zero (by decide)
      · exact (nv_feeds _ known).2 letter
      · exact absurd zero (by decide)

/--
A string in references is decoded exactly when it fits into memory and its only
number, if there is one, is the last reference and stands for a byte below ten.
-/
theorem strunvisx_written_iff (items : List Written) :
    strunvisx (written items) VIS_HTTP1866 = some (bytes items) ↔
      items.length < SIZE_MAX ∧ Numbered items := by
  rw [← decodeFrom_written, strunvisx, strnunvisx, cstring_clean (written_clean items), ← ground]
  have length : (bytes items).length = items.length := List.length_map ..
  cases decoded : decodeFrom VIS_HTTP1866 0 ground (written items) with
  | none => simp
  | some out =>
      dsimp only
      constructor
      · intro returned
        split at returned
        · next fits =>
            cases returned
            exact ⟨by omega, rfl⟩
        · cases returned
      · rintro ⟨fits, same⟩
        cases same
        rw [if_pos (by omega)]

/-- An ampersand by its number, and a letter behind it. -/
def numberedAmp : List Written :=
  [⟨byte '&', .numeric⟩, ⟨byte 'a', .literal (by decide)⟩]

theorem numberedAmp_lost :
    written numberedAmp = ascii ['&', '#', '3', '8', ';', 'a'] ∧
      strunvisx (written numberedAmp) VIS_HTTP1866 ≠ some (bytes numberedAmp) := by
  decide +kernel

end Netbase.Vis
