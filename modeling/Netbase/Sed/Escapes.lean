import Mathlib.Data.List.TakeWhile
import Mathlib.Tactic
import Netbase.Text.Lines

/-!
# Escapes

`unescape` reads what follows a backslash.  `parse_escapes` rewrites the text of a regular
expression in its own buffer, and looks back in that buffer for the bracket it stands in.
-/

namespace Netbase.Sed

open Netbase.Text

/-- `cton`; a byte that is no digit has no value. -/
def cton (c : Byte) (base : Nat) : Option Nat :=
  if byte '0' ≤ c ∧ c ≤ byte '7' then some (c.toNat - 48)
  else if c = byte '8' ∨ c = byte '9' then if base = 8 then none else some (c.toNat - 48)
  else if byte 'a' ≤ c ∧ c ≤ byte 'f' then if base = 16 then some (c.toNat - 87) else none
  else if byte 'A' ≤ c ∧ c ≤ byte 'F' then if base = 16 then some (c.toNat - 55) else none
  else none

/-- The loop of `ston`: the number, and how many digits have been read. -/
def stonLoop (base : Nat) : Nat → List Byte → Nat × Nat
  | r, [] => (r, 0)
  | r, c :: p =>
      match cton c base with
      | none => (r, 0)
      | some n =>
          if r < 255 then ((stonLoop base (r * base + n) p).1, (stonLoop base (r * base + n) p).2 + 1)
          else (r, 0)

/-- `ston`: the character, and how many digits it takes. -/
def ston (base : Nat) : List Byte → Option (Byte × Nat)
  | [] => none
  | c :: p =>
      (cton c base).map fun r => (UInt8.ofNat (stonLoop base r p).1, (stonLoop base r p).2 + 1)

/-- `unescape`: the character for the text behind a backslash, and how many bytes it takes. -/
def unescape : List Byte → Option (Byte × Nat)
  | [] => none
  | c :: p =>
      if c = byte 'o' then (ston 8 p).map fun read => (read.1, read.2 + 1)
      else if c = byte 'd' then (ston 10 p).map fun read => (read.1, read.2 + 1)
      else if c = byte 'x' then (ston 16 p).map fun read => (read.1, read.2 + 1)
      else if c = byte 'a' then some (7, 1)
      else if c = byte 'f' then some (12, 1)
      else if c = byte 'n' then some (10, 1)
      else if c = byte 'r' then some (13, 1)
      else if c = byte 't' then some (9, 1)
      else if c = byte 'v' then some (11, 1)
      else none

/-! ## The buffer -/

/-- The bytes of a text at a place of the buffer. -/
def look (buf : List Byte) (p : Nat) : Byte := buf.getD p 0

/-- The bracket behind a byte, of which the two bytes in front are read back. -/
def track (bracket c prev prev2 : Byte) : Byte :=
  if c = byte '[' then if bracket = 0 then c else bracket
  else if c = byte '.' ∨ c = byte ':' ∨ c = byte '=' then
    if bracket = byte '[' ∧ prev = byte '[' then c else bracket
  else if c = byte ']' then
    if bracket = 0 then bracket
    else if bracket = byte '[' then 0
    else if prev2 ≠ bracket ∧ prev = bracket then byte '['
    else bracket
  else bracket

/-- The loop of `parse_escapes`, for reading at `p` and writing at `q`. -/
def parseLoop : Nat → Byte → List Byte → Nat → Nat → List Byte
  | 0, _, buf, _, q => buf.take q
  | fuel + 1, bracket, buf, p, q =>
      if buf.length ≤ p then buf.take q
      else if look buf p = byte '\\' ∧ p + 1 < buf.length ∧ bracket = 0 then
        match unescape (buf.drop (p + 1)) with
        | some (c, n) => parseLoop fuel bracket (buf.set q c) (p + 1 + n) (q + 1)
        | none =>
            let buf := buf.set q (byte '\\')
            let c := look buf (p + 1)
            let bracket := track bracket c (look buf p) (look buf (p - 1))
            parseLoop fuel bracket (buf.set (q + 1) c) (p + 2) (q + 2)
      else
        let c := look buf p
        let bracket := track bracket c (look buf (p - 1)) (look buf (p - 2))
        parseLoop fuel bracket (buf.set q c) (p + 1) (q + 1)

/-- `parse_escapes` -/
def parseEscapes (buf : List Byte) : List Byte := parseLoop (buf.length + 1) 0 buf 0 0

/-! ## Texts that end at a zero -/

/-- The text up to its end. -/
def cString (buf : List Byte) : List Byte := buf.takeWhile (· ≠ 0)

theorem cString_clean {buf : List Byte} (clean : (0 : Byte) ∉ buf) : cString buf = buf := by
  refine List.takeWhile_eq_self_iff.mpr fun c member => ?_
  rw [decide_eq_true_eq]
  rintro rfl
  exact clean member

theorem cString_notMem (buf : List Byte) : (0 : Byte) ∉ cString buf := by
  intro member
  have some_ := List.mem_takeWhile_imp member
  simp at some_

theorem cString_length (buf : List Byte) : (cString buf).length ≤ buf.length :=
  (List.takeWhile_sublist _).length_le

/-! ## What is read behind a backslash -/

/-- A letter or a digit. -/
def alnum (c : Byte) : Bool :=
  (byte '0' ≤ c && c ≤ byte '9') || (byte 'a' ≤ c && c ≤ byte 'z') ||
    (byte 'A' ≤ c && c ≤ byte 'Z')

theorem cton_alnum {c : Byte} {base n : Nat} (value : cton c base = some n) : alnum c = true := by
  unfold cton at value
  simp only [alnum, Bool.or_eq_true, Bool.and_eq_true, decide_eq_true_eq]
  split at value
  · next digit => exact Or.inl (Or.inl ⟨digit.1, UInt8.le_trans digit.2 (by decide)⟩)
  · split at value
    · next digit => rcases digit with rfl | rfl <;> exact Or.inl (Or.inl (by decide))
    · split at value
      · next small => exact Or.inl (Or.inr ⟨small.1, UInt8.le_trans small.2 (by decide)⟩)
      · split at value
        · next capital => exact Or.inr ⟨capital.1, UInt8.le_trans capital.2 (by decide)⟩
        · cases value

theorem stonLoop_read (base : Nat) (p : List Byte) :
    ∀ r, (stonLoop base r p).2 ≤ p.length ∧
      ∀ c ∈ p.take (stonLoop base r p).2, alnum c = true := by
  induction p with
  | nil => exact fun r => ⟨Nat.le_refl _, fun c member => by simp [stonLoop] at member⟩
  | cons c p ih =>
      intro r
      rw [stonLoop]
      cases value : cton c base with
      | none => exact ⟨Nat.zero_le _, fun d member => by simp at member⟩
      | some n =>
          simp only
          split
          · obtain ⟨length, digits⟩ := ih (r * base + n)
            refine ⟨Nat.succ_le_succ length, fun d member => ?_⟩
            rw [List.take_succ_cons] at member
            rcases List.mem_cons.mp member with rfl | later
            · exact cton_alnum value
            · exact digits d later
          · exact ⟨Nat.zero_le _, fun d member => by simp at member⟩

theorem ston_read {base : Nat} {p : List Byte} {v : Byte} {n : Nat}
    (read : ston base p = some (v, n)) :
    0 < n ∧ n ≤ p.length ∧ ∀ c ∈ p.take n, alnum c = true := by
  cases p with
  | nil => cases read
  | cons c p =>
      obtain ⟨r, value, same⟩ := Option.map_eq_some_iff.mp read
      cases same
      obtain ⟨length, digits⟩ := stonLoop_read base p r
      refine ⟨Nat.succ_pos _, Nat.succ_le_succ length, fun d member => ?_⟩
      rw [List.take_succ_cons] at member
      rcases List.mem_cons.mp member with rfl | later
      · exact cton_alnum value
      · exact digits d later

theorem unescape_read {p : List Byte} {v : Byte} {n : Nat} (read : unescape p = some (v, n)) :
    0 < n ∧ n ≤ p.length ∧ ∀ c ∈ p.take n, alnum c = true := by
  cases p with
  | nil => cases read
  | cons c p =>
      have number : ∀ base, (ston base p).map (fun read => (read.1, read.2 + 1)) = some (v, n) →
          alnum c = true → 0 < n ∧ n ≤ (c :: p).length ∧ ∀ d ∈ (c :: p).take n, alnum d = true := by
        intro base read letter
        obtain ⟨⟨w, m⟩, digits, same⟩ := Option.map_eq_some_iff.mp read
        cases same
        obtain ⟨-, length, digits⟩ := ston_read digits
        refine ⟨Nat.succ_pos _, Nat.succ_le_succ length, fun d member => ?_⟩
        rw [List.take_succ_cons] at member
        rcases List.mem_cons.mp member with rfl | later
        · exact letter
        · exact digits d later
      have single : ∀ w : Byte, some (w, 1) = some (v, n) → alnum c = true →
          0 < n ∧ n ≤ (c :: p).length ∧ ∀ d ∈ (c :: p).take n, alnum d = true := by
        intro w same letter
        cases same
        refine ⟨Nat.one_pos, Nat.succ_le_succ (Nat.zero_le _), fun d member => ?_⟩
        rw [List.take_succ_cons, List.take_zero, List.mem_singleton] at member
        rwa [member]
      rw [unescape] at read
      repeat' split at read
      all_goals
        first
          | (next letter => exact number _ read (by rw [letter]; decide))
          | (next letter => exact single _ read (by rw [letter]; decide))
          | cases read

/-! ## Reading with a state -/

/-- What a reader of a regular expression keeps: whether an escape can start here, and what comes
of a byte that is copied, of a pair of a backslash and a byte that are copied, and of the backslash
and the other bytes of an escape. -/
structure Reader (σ : Type) where
  outside : σ → Bool
  copy : σ → Byte → σ
  pair : σ → Byte → σ
  escape : σ → σ
  pass : σ → Byte → σ

namespace Reader

variable {σ : Type} (r : Reader σ)

def decode : σ → Nat → List Byte → List Byte
  | _, _, [] => []
  | s, skip + 1, c :: text => decode (r.pass s c) skip text
  | _, 0, [c] => [c]
  | s, 0, c :: d :: text =>
      if c = byte '\\' ∧ r.outside s = true then
        match unescape (d :: text) with
        | some (v, n) => v :: decode (r.escape s) n (d :: text)
        | none => c :: d :: decode (r.pair s d) 0 text
      else c :: decode (r.copy s c) 0 (d :: text)

theorem decode_skip (skip : Nat) :
    ∀ (s : σ) (text : List Byte), skip ≤ text.length →
      r.decode s skip text = r.decode ((text.take skip).foldl r.pass s) 0 (text.drop skip) := by
  induction skip with
  | zero => exact fun _ _ _ => rfl
  | succ skip ih =>
      intro s text enough
      cases text with
      | nil => exact absurd enough (Nat.not_succ_le_zero skip)
      | cons c text =>
          rw [decode, ih _ _ (Nat.le_of_succ_le_succ enough)]
          rfl

theorem decode_copy {s : σ} {c : Byte} {text : List Byte}
    (plain : ¬ (c = byte '\\' ∧ text ≠ [] ∧ r.outside s = true)) :
    r.decode s 0 (c :: text) = c :: r.decode (r.copy s c) 0 text := by
  cases text with
  | nil => simp only [decode]
  | cons d text =>
      rw [decode, if_neg fun all => plain ⟨all.1, List.cons_ne_nil _ _, all.2⟩]

theorem decode_escape {s : σ} {text : List Byte} {v : Byte} {n : Nat}
    (outside : r.outside s = true) (read : unescape text = some (v, n)) :
    r.decode s 0 (byte '\\' :: text) = v :: r.decode (r.escape s) n text := by
  cases text with
  | nil => cases read
  | cons d text =>
      rw [decode, if_pos ⟨rfl, outside⟩, read]

theorem decode_pair {s : σ} {d : Byte} {text : List Byte} (outside : r.outside s = true)
    (none_ : unescape (d :: text) = none) :
    r.decode s 0 (byte '\\' :: d :: text) =
      byte '\\' :: d :: r.decode (r.pair s d) 0 text := by
  rw [decode, if_pos ⟨rfl, outside⟩, none_]

end Reader

/-! ## The tracker -/

/-- What the two bytes in front tell of the bracket, and how many bytes escapes have taken away. -/
structure Tracked where
  bracket : Byte
  prev : Byte
  prev2 : Byte
  dropped : Nat
  deriving Repr, DecidableEq

/-- In the buffer the second byte in front has been written over when one byte has been taken
away: there the first one stands. -/
def Tracked.behind (t : Tracked) : Byte := if t.dropped = 1 then t.prev else t.prev2

/-- The tracker reads the text itself, not the buffer. -/
def tracker : Reader Tracked where
  outside t := t.bracket = 0
  copy t c := ⟨track t.bracket c t.prev t.behind, c, t.prev, t.dropped⟩
  pair t d := ⟨track t.bracket d (byte '\\') t.prev, d, byte '\\', t.dropped⟩
  escape t := ⟨t.bracket, byte '\\', t.prev, t.dropped⟩
  pass t c := ⟨t.bracket, c, t.prev, t.dropped + 1⟩

def Tracked.start : Tracked := ⟨0, 0, 0, 0⟩

theorem track_outside (c prev prev2 : Byte) :
    track 0 c prev prev2 = if c = byte '[' then c else 0 := by
  unfold track
  have other : ¬ (0 : Byte) = byte '[' := by decide
  simp [other]

theorem track_bracket (c prev prev2 prev2' : Byte) :
    track (byte '[') c prev prev2 = track (byte '[') c prev prev2' := by
  unfold track
  have some_ : ¬ byte '[' = 0 := by decide
  simp [some_]

/-! ## The buffer and the text -/

/-- The two bytes at the end of what has been read. -/
structure Backs (front : List Byte) (t : Tracked) : Prop where
  prev : t.prev = front.getLastD 0
  prev2 : t.prev2 = front.dropLast.getLastD 0

theorem Backs.concat {front : List Byte} {t u : Tracked} {c : Byte} (backs : Backs front t)
    (prev : u.prev = c) (prev2 : u.prev2 = t.prev) : Backs (front ++ [c]) u where
  prev := by rw [prev, List.getLastD_concat]
  prev2 := by rw [prev2, backs.prev, List.dropLast_concat]

/-- What has been written of what has been read: the tracker has counted the bytes taken away, and
in a bracket the last byte has been copied. -/
structure Buffered (front written : List Byte) (t : Tracked) : Prop where
  dropped : written.length + t.dropped = front.length
  whole : t.dropped = 0 → written = front
  backs : Backs front t
  copied : t.bracket ≠ 0 → written.getLastD 0 = front.getLastD 0
  opened : t.bracket ≠ 0 → 1 ≤ front.length
  parted : t.bracket ≠ 0 → t.bracket ≠ byte '[' → 2 ≤ front.length

/-- The buffer: what has been written, what is left of what has been read, and the rest. -/
def buffer (front written rest : List Byte) : List Byte :=
  written ++ front.drop written.length ++ rest

section

variable {front written rest : List Byte} {t : Tracked}

theorem Buffered.le (state : Buffered front written t) : written.length ≤ front.length := by
  have dropped := state.dropped
  omega

theorem buffer_length (le : written.length ≤ front.length) :
    (buffer front written rest).length = front.length + rest.length := by
  simp only [buffer, List.length_append, List.length_drop]
  omega

theorem buffer_drop (le : written.length ≤ front.length) (k : Nat) :
    (buffer front written rest).drop (front.length + k) = rest.drop k := by
  have length : (written ++ front.drop written.length).length = front.length := by
    rw [List.length_append, List.length_drop]
    omega
  rw [buffer, ← length, List.drop_length_add_append]

theorem look_ahead (le : written.length ≤ front.length) (k : Nat) :
    look (buffer front written rest) (front.length + k) = rest.getD k 0 := by
  have dropped : (buffer front written rest).drop (front.length + k) = rest.drop k :=
    buffer_drop le k
  unfold look
  rw [List.getD_eq_getElem?_getD, List.getD_eq_getElem?_getD, ← List.head?_drop, dropped,
    List.head?_drop]

theorem buffer_set (le : written.length ≤ front.length) (c d : Byte) :
    (buffer front written (d :: rest)).set written.length c =
      buffer (front ++ [d]) (written ++ [c]) rest := by
  unfold buffer
  rw [List.append_assoc, List.set_append_right _ _ (Nat.le_refl _), Nat.sub_self,
    List.length_append, List.length_singleton, ← List.append_cons, List.append_assoc]
  congr 1
  cases gap : front.drop written.length with
  | nil =>
      have same : front.length = written.length :=
        Nat.le_antisymm (List.drop_eq_nil_iff.mp gap) le
      rw [List.nil_append, List.set_cons_zero, ← same, List.drop_of_length_le (by simp)]
      rfl
  | cons b left =>
      have more : written.length < front.length := by
        by_contra few
        rw [List.drop_of_length_le (by omega)] at gap
        cases gap
      have next : front.drop (written.length + 1) = left := by
        rw [← List.drop_drop, gap]
        rfl
      rw [List.cons_append, List.set_cons_zero, List.drop_append_of_le_length (by omega), next]
      simp

/-- Passing over bytes moves the place of reading only. -/
theorem buffer_pass (le : written.length ≤ front.length) (n : Nat) :
    buffer front written rest = buffer (front ++ rest.take n) written (rest.drop n) := by
  unfold buffer
  rw [List.drop_append_of_le_length le]
  simp only [List.append_assoc, List.take_append_drop]

theorem getLastD_eq (text : List Byte) : text.getLastD 0 = text.getD (text.length - 1) 0 := by
  rw [List.getLastD_eq_getLast?, List.getLast?_eq_getElem?, List.getD_eq_getElem?_getD]

theorem getLastD_dropLast {text : List Byte} (two : 2 ≤ text.length) :
    text.dropLast.getLastD 0 = text.getD (text.length - 2) 0 := by
  rw [getLastD_eq, List.length_dropLast, List.getD_eq_getElem?_getD, List.getD_eq_getElem?_getD,
    List.getElem?_dropLast, if_pos (by omega)]
  congr 2

theorem look_written {p : Nat} (inside : p < written.length) :
    look (buffer front written rest) p = written.getD p 0 := by
  unfold look buffer
  rw [List.append_assoc, List.getD_eq_getElem?_getD, List.getElem?_append_left inside,
    List.getD_eq_getElem?_getD]

/-- Behind what has been written the text still stands. -/
theorem look_gap {p : Nat} (behind : written.length ≤ p) (inside : p < front.length) :
    look (buffer front written rest) p = front.getD p 0 := by
  have within : p - written.length < (front.drop written.length).length := by
    rw [List.length_drop]
    omega
  unfold look buffer
  rw [List.append_assoc, List.getD_eq_getElem?_getD, List.getElem?_append_right behind,
    List.getElem?_append_left within, List.getElem?_drop, List.getD_eq_getElem?_getD]
  congr 2
  omega

theorem look_back (state : Buffered front written t) (some_ : t.bracket ≠ 0) :
    look (buffer front written rest) (front.length - 1) = t.prev := by
  have opened := state.opened some_
  have dropped := state.dropped
  rw [state.backs.prev, getLastD_eq]
  by_cases none_ : t.dropped = 0
  · rw [look_written (by omega), state.whole none_]
  · exact look_gap (by omega) (by omega)

theorem look_behind (state : Buffered front written t) (some_ : t.bracket ≠ 0)
    (part : t.bracket ≠ byte '[') :
    look (buffer front written rest) (front.length - 2) = t.behind := by
  have parted := state.parted some_ part
  have dropped := state.dropped
  unfold Tracked.behind
  split
  · next one =>
      have last : front.length - 2 = written.length - 1 := by omega
      rw [look_written (by omega), last, ← getLastD_eq, state.copied some_, state.backs.prev]
  · next other =>
      rw [state.backs.prev2, getLastD_dropLast parted]
      by_cases none_ : t.dropped = 0
      · rw [look_written (by omega), state.whole none_]
      · exact look_gap (by omega) (by omega)

theorem track_buffer (state : Buffered front written t) (c : Byte) :
    track t.bracket c (look (buffer front written rest) (front.length - 1))
        (look (buffer front written rest) (front.length - 2)) =
      track t.bracket c t.prev t.behind := by
  by_cases none_ : t.bracket = 0
  · rw [none_, track_outside, track_outside]
  · rw [look_back state none_]
    by_cases part : t.bracket = byte '['
    · rw [part]
      exact track_bracket _ _ _ _
    · rw [look_behind state none_ part]

end

theorem Tracked.start_buffered : Buffered [] [] Tracked.start where
  dropped := rfl
  whole _ := rfl
  backs := ⟨rfl, rfl⟩
  copied some_ := absurd rfl some_
  opened some_ := absurd rfl some_
  parted some_ := absurd rfl some_

theorem track_part {t : Tracked} {c prev prev2 : Byte} {n : Nat} (opened : t.bracket ≠ 0 → 1 ≤ n)
    (some_ : track t.bracket c prev prev2 ≠ 0)
    (part : track t.bracket c prev prev2 ≠ byte '[') : 2 ≤ n + 1 := by
  refine Nat.succ_le_succ (opened fun none_ => ?_)
  rw [none_, track_outside] at some_ part
  split at some_
  · next bracket => exact part (by rw [if_pos bracket, bracket])
  · exact some_ rfl

section

variable {front written rest : List Byte} {t : Tracked}

theorem Buffered.copy (state : Buffered front written t) (c : Byte) :
    Buffered (front ++ [c]) (written ++ [c]) (tracker.copy t c) where
  dropped := by
    have dropped := state.dropped
    simp only [tracker, List.length_append, List.length_singleton]
    omega
  whole none_ := by rw [state.whole none_]
  backs := state.backs.concat rfl rfl
  copied _ := by rw [List.getLastD_concat, List.getLastD_concat]
  opened _ := by
    rw [List.length_append, List.length_singleton]
    omega
  parted some_ part := by
    rw [List.length_append, List.length_singleton]
    exact track_part state.opened some_ part

theorem Buffered.pair (state : Buffered front written t) (d : Byte) :
    Buffered (front ++ [byte '\\'] ++ [d]) (written ++ [byte '\\'] ++ [d])
      (tracker.pair t d) where
  dropped := by
    have dropped := state.dropped
    simp only [tracker, List.length_append, List.length_singleton]
    omega
  whole all := by rw [state.whole all]
  backs := Backs.concat (t := tracker.escape t) (state.backs.concat rfl rfl) rfl rfl
  copied _ := by rw [List.getLastD_concat, List.getLastD_concat]
  opened _ := by
    rw [List.length_append, List.length_singleton]
    omega
  parted _ _ := by
    simp only [List.length_append, List.length_singleton]
    omega

theorem Buffered.pass (passed : List Byte) :
    ∀ {front : List Byte} {t : Tracked}, Backs front t → t.bracket = 0 →
      written.length + t.dropped = front.length → 0 < t.dropped + passed.length →
      Buffered (front ++ passed) written (passed.foldl tracker.pass t) := by
  induction passed with
  | nil =>
      intro front t backs none_ dropped some_
      rw [List.append_nil]
      exact
        { dropped := dropped
          whole := fun zero => absurd (show t.dropped = 0 from zero) (Nat.ne_of_gt some_)
          backs := backs
          copied := fun some_ => absurd none_ some_
          opened := fun some_ => absurd none_ some_
          parted := fun some_ => absurd none_ some_ }
  | cons c passed ih =>
      intro front t backs none_ dropped some_
      rw [List.append_cons, List.foldl_cons]
      refine ih (backs.concat rfl rfl) none_ ?_ ?_
      · simp only [tracker, List.length_append, List.length_singleton]
        omega
      · simp only [tracker]
        omega

theorem Buffered.escaped (state : Buffered front written t) (outside : t.bracket = 0)
    {text : List Byte} {v : Byte} {n : Nat} (read : unescape text = some (v, n)) :
    (buffer front written (byte '\\' :: text)).set written.length v =
        buffer (front ++ byte '\\' :: text.take n) (written ++ [v]) (text.drop n) ∧
      (front ++ byte '\\' :: text.take n).length = front.length + 1 + n ∧
      Buffered (front ++ byte '\\' :: text.take n) (written ++ [v])
        ((text.take n).foldl tracker.pass (tracker.escape t)) := by
  obtain ⟨positive, length, -⟩ := unescape_read read
  have le := state.le
  have dropped := state.dropped
  have started : Backs (front ++ [byte '\\']) (tracker.escape t) := state.backs.concat rfl rfl
  refine ⟨?_, ?_, ?_⟩
  · rw [buffer_set le, buffer_pass (by simpa using le), ← List.append_cons]
  · rw [List.length_append, List.length_cons, List.length_take]
    omega
  · rw [List.append_cons]
    refine Buffered.pass (text.take n) started outside ?_ ?_
    · simp only [tracker, List.length_append, List.length_singleton]
      omega
    · rw [List.length_take]
      omega

theorem passed_bracket (passed : List Byte) :
    ∀ t, (passed.foldl tracker.pass t).bracket = t.bracket := by
  induction passed with
  | nil => exact fun _ => rfl
  | cons c passed ih => exact fun t => ih (tracker.pass t c)

theorem parseLoop_eq (fuel : Nat) :
    ∀ {front written rest : List Byte} {t : Tracked}, Buffered front written t →
      rest.length < fuel →
      parseLoop fuel t.bracket (buffer front written rest) front.length written.length =
        written ++ tracker.decode t 0 rest := by
  induction fuel with
  | zero => exact fun _ enough => absurd enough (Nat.not_lt_zero _)
  | succ fuel ih =>
      intro front written rest t state enough
      have le := state.le
      rw [parseLoop, buffer_length le]
      cases rest with
      | nil =>
          rw [if_pos (by simp), Reader.decode, List.append_nil]
          unfold buffer
          rw [List.append_assoc, List.take_left]
      | cons c rest =>
          have here : look (buffer front written (c :: rest)) front.length = c := look_ahead le 0
          have more : front.length + 1 < front.length + (c :: rest).length ↔ rest ≠ [] := by
            rw [List.length_cons, ← List.length_pos_iff]
            omega
          have shorter : rest.length < fuel := Nat.lt_of_succ_lt_succ enough
          rw [if_neg (by simp), here]
          by_cases start : c = byte '\\' ∧ rest ≠ [] ∧ t.bracket = 0
          · obtain ⟨rfl, some_, outside⟩ := start
            obtain ⟨d, rest, rfl⟩ := List.exists_cons_of_ne_nil some_
            rw [if_pos ⟨rfl, more.mpr some_, outside⟩, buffer_drop le 1, List.drop_succ_cons,
              List.drop_zero]
            cases read : unescape (d :: rest) with
            | some found =>
                obtain ⟨v, n⟩ := found
                obtain ⟨place, count, passed⟩ := state.escaped outside read
                have fewer : ((d :: rest).drop n).length < fuel := by
                  rw [List.length_drop]
                  omega
                have next := ih passed fewer
                rw [tracker.decode_escape (decide_eq_true outside) read,
                  tracker.decode_skip _ _ _ (unescape_read read).2.1]
                have bracket : (tracker.escape t).bracket = t.bracket := rfl
                rw [← place, count, passed_bracket, bracket, List.append_assoc,
                  List.length_append, List.length_singleton] at next
                exact next
            | none =>
                have next := @ih _ _ rest _ (state.pair d) (Nat.lt_of_succ_lt shorter)
                have le' : (written ++ [byte '\\']).length ≤ (front ++ [byte '\\']).length := by
                  simpa using le
                have ahead := @look_ahead _ _ (d :: rest) le' 0
                have last := @buffer_set _ _ rest le' d d
                simp only [List.length_append, List.length_singleton, Nat.add_zero,
                  List.getD_cons_zero] at ahead last
                simp only [List.length_append, List.length_singleton, tracker, outside,
                  track_outside, List.append_assoc] at next
                rw [tracker.decode_pair (decide_eq_true outside) read]
                simp only [buffer_set le, ahead, last, outside, track_outside]
                simpa [tracker, outside, track_outside] using next
          · rw [if_neg (fun all => start ⟨all.1, more.mp all.2.1, all.2.2⟩)]
            have next := ih (state.copy c) shorter
            simp only [List.length_append, List.length_singleton] at next
            simp only [track_buffer state c]
            rw [buffer_set le, tracker.decode_copy (fun all => start
              ⟨all.1, all.2.1, of_decide_eq_true all.2.2⟩)]
            rw [List.append_assoc] at next
            exact next

end

theorem parseEscapes_eq (buf : List Byte) :
    parseEscapes buf = tracker.decode Tracked.start 0 buf :=
  parseLoop_eq (buf.length + 1) Tracked.start_buffered (Nat.lt_succ_self _)

end Netbase.Sed
