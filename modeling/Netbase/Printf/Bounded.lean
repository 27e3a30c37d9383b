import Netbase.Printf.Text

/-!
# What is left in the buffer

The formatted output is what the fields of a format come to, with no regard to a buffer.  What the
loop puts into the buffer is that output as far as it fits, while the counter is its full length.
-/

namespace Netbase.Printf

open Netbase.Text Netbase.Lib

/-- The output, and the counts that have been stored on the way. -/
structure Formatted where
  out : List Byte
  counts : List (Nat × Int)
  deriving Repr, DecidableEq

def formatLoop : Nat → List Byte → List Arg → Formatted → Except Fault Formatted
  | 0, _, _, f => .ok f
  | _ + 1, [], _, f => .ok f
  | fuel + 1, c :: fmt, ap, f =>
      if c = 0 then .ok f
      else if c ≠ byte '%' then formatLoop fuel fmt ap { f with out := f.out ++ [c] }
      else do
        match ← scan .flag {} fmt ap with
        | none => .ok f
        | some ⟨s, ch, fmt, ap⟩ =>
            if ch = byte 'n' then
              match ap with
              | .count :: ap =>
                  formatLoop fuel fmt ap
                    { f with counts := f.counts ++ [storedCount s.flags f.out.length] }
              | _ => .error .mismatch
            else
              let (field, ap) ← s.field ch ap
              formatLoop fuel fmt ap
                { f with out := f.out ++ field.text s.width s.flags.ladjust }

/-- What a format and its arguments stand for; there is nothing if the arguments do not match, or
if a number of the format is no `int`. -/
def formatted (fmt : List Byte) (ap : List Arg) : Except Fault Formatted :=
  formatLoop (fmt.length + 1) fmt ap ⟨[], []⟩

/-! ## A field is written -/

theorem pad_eq (c : Byte) (n : Nat) (sink : Sink Byte) :
    pad c n sink = sink.puts (List.replicate n c) := by
  induction n generalizing sink with
  | zero => rfl
  | succ n ih => exact ih _

theorem putText_eq (cp : List Byte) (sink : Sink Byte) : putText cp sink = sink.puts cp := by
  induction cp generalizing sink with
  | nil => rfl
  | cons c cp ih => exact ih _

theorem Field.length_text (f : Field) (width : Nat) (ladjust : Bool) :
    (f.text width ladjust).length = max width (f.lead.length + f.body.length) := by
  unfold Field.text
  dsimp only
  split_ifs <;> simp only [List.length_append, List.length_replicate] <;> omega

theorem realsz_eq (r : Ready) : r.realsz = r.field.lead.length + r.field.body.length := by
  unfold Ready.realsz Ready.field
  simp only [List.length_append, List.length_replicate]
  split_ifs <;> simp only [List.length_cons, List.length_nil] <;> omega

theorem put_lead (r : Ready) (sink : Sink Byte) :
    (if r.s.sign ≠ 0 then PUTCHAR r.s.sign sink
      else if r.hexPrefix then PUTCHAR r.ch (PUTCHAR (byte '0') sink)
      else sink) = sink.puts r.field.lead := by
  unfold Ready.field
  split_ifs <;> rfl

theorem write_eq (r : Ready) (sink : Sink Byte) :
    r.write (r.s.width - r.realsz) sink =
      sink.puts (r.field.text r.s.width r.s.flags.ladjust) := by
  have body : ∀ sink : Sink Byte,
      putText r.cp (sink.puts (List.replicate (r.dprec - r.cp.length) (byte '0'))) =
        sink.puts r.field.body :=
    fun sink => by rw [putText_eq, ← Sink.puts_append]; rfl
  unfold Ready.write Field.text
  simp only [put_lead, pad_eq, body, realsz_eq]
  have zeros : r.field.zeros = r.s.flags.zeropad := rfl
  rw [zeros]
  cases r.s.flags.ladjust <;> cases r.s.flags.zeropad <;> simp [Sink.puts_append]

theorem emit_text (r : Ready) (o : Out)
    (short : o.ret + (r.field.text r.s.width r.s.flags.ladjust).length ≤ INT_MAX) :
    emit r o = .ok
      { o with
        sink := o.sink.puts (r.field.text r.s.width r.s.flags.ladjust)
        ret := o.ret + (r.field.text r.s.width r.s.flags.ladjust).length } := by
  rw [← write_eq]
  rw [r.field.length_text, ← realsz_eq] at short ⊢
  have size : int r.realsz = .ok r.realsz := if_pos (by omega)
  have count : int (o.ret + max r.s.width r.realsz) = .ok (o.ret + max r.s.width r.realsz) :=
    if_pos short
  unfold emit
  rw [size]
  show (int (o.ret + max r.s.width r.realsz) >>= _) = _
  rw [count]
  rfl

/-! ## The loop -/

/-- A conversion takes a character of the format at least. -/
theorem scan_shorter (fmt : List Byte) :
    ∀ {mode : Mode} {s : Conversion} {ap : List Arg} {r : Scanned},
      scan mode s fmt ap = .ok (some r) → r.fmt.length < fmt.length := by
  induction fmt with
  | nil => exact fun read => nomatch read
  | cons ch fmt ih =>
      intro mode s ap r read
      have further : ∀ {mode s ap}, scan mode s fmt ap = .ok (some r) →
          r.fmt.length < (ch :: fmt).length := fun read => Nat.lt_succ_of_lt (ih read)
      unfold scan at read
      split at read
      · split at read
        · exact further read
        · cases read
      split at read
      · exact further read
      split at read
      · split at read
        · exact further read
        · cases read
      split at read
      · split at read
        · split at read
          · exact further read
          · cases read
        · cases read
      split at read
      · exact further read
      split at read
      · exact further read
      split at read
      · exact further read
      split at read
      · exact further read
      split at read
      · cases read
      · cases read
        exact Nat.lt_succ_self _

/-- What has been put into the buffer, counted and stored so far is the output. -/
structure Follows (sbuf : List Byte) (f : Formatted) (o : Out) : Prop where
  sink : o.sink.Holds sbuf f.out
  ret : o.ret = f.out.length
  counts : o.counts = f.counts

variable {f : Formatted} {sbuf : List Byte} {ap : List Arg}

theorem Follows.text {o : Out} (follows : Follows sbuf f o) (text : List Byte) :
    Follows sbuf { f with out := f.out ++ text }
      { o with sink := o.sink.puts text, ret := o.ret + text.length } where
  sink := follows.sink.puts text
  ret := by rw [List.length_append, ← follows.ret]
  counts := follows.counts

theorem Follows.conversion {o : Out} (follows : Follows sbuf f o) {s : Conversion} {ch : Byte}
    {rest : List Arg} {field : Field} (read : s.field ch ap = .ok (field, rest))
    (short : (f.out ++ field.text s.width s.flags.ladjust).length ≤ INT_MAX) :
    ∃ ready o', convert s ch ap = .ok (ready, rest) ∧ emit ready o = .ok o' ∧
      Follows sbuf { f with out := f.out ++ field.text s.width s.flags.ladjust } o' := by
  rw [List.length_append] at short
  have length := field.length_text s.width s.flags.ladjust
  obtain ⟨ready, made, is⟩ := convert_is read (by omega)
  have written := emit_text ready o
  rw [is.field, is.width, is.ladjust] at written
  exact ⟨ready, _, made, written (by rw [follows.ret]; exact short), follows.text _⟩

/-- What stands at the front of the format. -/
inductive Advances (fuel : Nat) (c : Byte) (fmt : List Byte) (ap : List Arg) (f g : Formatted) :
    Prop where
  | nul (zero : c = 0) (same : f = g)
  | char (other : c ≠ 0) (plain : c ≠ byte '%')
      (rest : formatLoop fuel fmt ap { f with out := f.out ++ [c] } = .ok g)
  | ended (conversion : c = byte '%') (scanned : scan .flag {} fmt ap = .ok none) (same : f = g)
  | count {s : Conversion} {behind : List Byte} {args : List Arg} (conversion : c = byte '%')
      (scanned : scan .flag {} fmt ap = .ok (some ⟨s, byte 'n', behind, .count :: args⟩))
      (rest : formatLoop fuel behind args
        { f with counts := f.counts ++ [storedCount s.flags f.out.length] } = .ok g)
  | field {s : Conversion} {ch : Byte} {behind : List Byte} {args args' : List Arg} {field : Field}
      (conversion : c = byte '%') (letter : ch ≠ byte 'n')
      (scanned : scan .flag {} fmt ap = .ok (some ⟨s, ch, behind, args⟩))
      (read : s.field ch args = .ok (field, args'))
      (rest : formatLoop fuel behind args'
        { f with out := f.out ++ field.text s.width s.flags.ladjust } = .ok g)

theorem formatLoop_advances {fuel : Nat} {c : Byte} {fmt : List Byte} {g : Formatted}
    (read : formatLoop (fuel + 1) (c :: fmt) ap f = .ok g) :
    Advances fuel c fmt ap f g := by
  rw [formatLoop] at read
  by_cases zero : c = 0
  · rw [if_pos zero] at read
    cases read
    exact .nul zero rfl
  rw [if_neg zero] at read
  by_cases plain : c ≠ byte '%'
  · rw [if_pos plain] at read
    exact .char zero plain read
  rw [if_neg plain] at read
  have conversion := not_not.mp plain
  cases scanned : scan .flag {} fmt ap with
  | error e =>
      rw [scanned] at read
      cases read
  | ok found =>
      rw [scanned] at read
      match found with
      | none =>
          cases read
          exact .ended conversion scanned rfl
      | some ⟨s, ch, behind, args⟩ =>
          by_cases letter : ch = byte 'n'
          · simp only [bind, Except.bind, if_pos letter] at read
            rw [letter] at scanned
            match args with
            | .count :: args => exact .count conversion scanned read
            | .word _ :: _ => cases read
            | .text _ :: _ => cases read
            | [] => cases read
          · simp only [bind, Except.bind, if_neg letter] at read
            cases field : s.field ch args with
            | error e =>
                rw [field] at read
                cases read
            | ok taken =>
                rw [field] at read
                exact .field conversion letter scanned field read

/-- The output only grows, and the loop follows it as long as an `int` can count it; neither runs
out of fuel. -/
theorem loop_follows (fuel : Nat) :
    ∀ {fmt : List Byte} {ap : List Arg} {f g : Formatted}, fmt.length < fuel →
      formatLoop fuel fmt ap f = .ok g →
      f.out.length ≤ g.out.length ∧
        ∀ {o : Out} (enough : Nat), fmt.length < enough → Follows sbuf f o →
          g.out.length ≤ INT_MAX →
          ∃ o', loop enough fmt ap o = .ok o' ∧ Follows sbuf g o' := by
  induction fuel with
  | zero => exact fun shorter => absurd shorter (Nat.not_lt_zero _)
  | succ fuel ih =>
      intro fmt ap f g shorter read
      match fmt with
      | [] =>
          cases read
          refine ⟨Nat.le_refl _, fun {o} enough more follows _ => ?_⟩
          obtain ⟨enough, rfl⟩ := Nat.exists_eq_add_one_of_ne_zero (Nat.ne_zero_of_lt more)
          exact ⟨o, rfl, follows⟩
      | c :: fmt =>
          have fewer : fmt.length < fuel := Nat.lt_of_succ_lt_succ shorter
          -- a step of the loop takes some of its fuel
          have step : ∀ {o : Out}, (∀ enough, fmt.length < enough →
                ∃ o', loop (enough + 1) (c :: fmt) ap o = .ok o' ∧ Follows sbuf g o') →
              ∀ enough, (c :: fmt).length < enough →
                ∃ o', loop enough (c :: fmt) ap o = .ok o' ∧ Follows sbuf g o' := by
            intro o all enough more
            obtain ⟨enough, rfl⟩ := Nat.exists_eq_add_one_of_ne_zero (Nat.ne_zero_of_lt more)
            exact all enough (Nat.lt_of_succ_lt_succ more)
          cases formatLoop_advances read with
          | nul zero same =>
              subst same
              refine ⟨Nat.le_refl _, fun {o} enough more follows _ =>
                step (fun enough _ => ⟨o, ?_, follows⟩) enough more⟩
              simp [loop, zero]
          | char other plain rest =>
              obtain ⟨grows, rest⟩ := ih fewer rest
              rw [List.length_append, List.length_singleton] at grows
              refine ⟨Nat.le_of_succ_le grows, fun {o} enough more follows short =>
                step (fun enough more => ?_) enough more⟩
              have count : int (o.ret + 1) = .ok (o.ret + 1) :=
                if_pos (by rw [follows.ret]; omega)
              rw [loop, if_neg other, if_pos plain, count]
              exact rest enough more (follows.text [c]) short
          | ended conversion scanned same =>
              subst same conversion
              refine ⟨Nat.le_refl _, fun {o} enough more follows _ =>
                step (fun enough _ => ⟨o, ?_, follows⟩) enough more⟩
              rw [loop, if_neg (by decide), if_neg (not_not.mpr rfl), scanned]
              rfl
          | count conversion scanned rest =>
              subst conversion
              have behind := scan_shorter _ scanned
              obtain ⟨grows, rest⟩ := ih (Nat.lt_trans behind fewer) rest
              refine ⟨grows, fun {o} enough more follows short =>
                step (fun enough more => ?_) enough more⟩
              rw [loop, if_neg (by decide), if_neg (not_not.mpr rfl), scanned]
              refine rest enough (Nat.lt_trans behind more) ⟨follows.sink, follows.ret, ?_⟩ short
              rw [follows.counts, follows.ret]
          | field conversion letter scanned taken rest =>
              subst conversion
              have behind := scan_shorter _ scanned
              obtain ⟨grows, rest⟩ := ih (Nat.lt_trans behind fewer) rest
              refine ⟨Nat.le_trans ?_ grows, fun {o} enough more follows short =>
                step (fun enough more => ?_) enough more⟩
              · rw [List.length_append]
                exact Nat.le_add_right _ _
              · obtain ⟨ready, o', made, written, follows'⟩ :=
                  follows.conversion taken (Nat.le_trans grows short)
                rw [loop, if_neg (by decide), if_neg (not_not.mpr rfl), scanned]
                simp only [bind, Except.bind, if_neg letter, made, written]
                exact rest enough (Nat.lt_trans behind more) follows' short

/-! ## The buffer -/

/-- Where no `int` overflows the end mark decides what is returned. -/
theorem vsnprintf_ss_close {fmt : List Byte} (read : formatted fmt ap = .ok f)
    (short : f.out.length ≤ INT_MAX) (fits : sbuf.length ≤ INT_MAX) :
    ∃ o, Follows sbuf f o ∧
      vsnprintf_ss sbuf fmt ap =
        match o.sink.close 0 with
        | some sbuf => .ok ⟨o.ret, sbuf, o.counts⟩
        | none => .error .outside := by
  have start : Follows sbuf ⟨[], []⟩ ⟨⟨sbuf, 0⟩, 0, []⟩ := ⟨Sink.holds_start sbuf, rfl, rfl⟩
  obtain ⟨o, written, follows⟩ :=
    (loop_follows _ (Nat.lt_succ_self _) read).2 _ (Nat.lt_succ_self _) start short
  refine ⟨o, follows, ?_⟩
  unfold vsnprintf_ss
  rw [if_neg (Nat.not_lt.mpr fits), written]
  rfl

/-- For a buffer of at least one byte that an `int` can count, and an output that it can count, the
output's length is returned, and its first bytes are left in the buffer with a NUL behind them. A
larger buffer is refused. -/
theorem vsnprintf_ss_bounded (sbuf fmt : List Byte) (ap : List Arg) :
    (INT_MAX < sbuf.length → vsnprintf_ss sbuf fmt ap = .ok ⟨-1, sbuf, []⟩) ∧
      ∀ f, formatted fmt ap = .ok f → f.out.length ≤ INT_MAX → sbuf ≠ [] →
        sbuf.length ≤ INT_MAX →
        vsnprintf_ss sbuf fmt ap = .ok ⟨f.out.length, truncated sbuf f.out 0, f.counts⟩ := by
  refine ⟨fun large => if_pos large, fun f read short some_ fits => ?_⟩
  obtain ⟨o, follows, result⟩ := vsnprintf_ss_close read short fits
  rw [result, follows.sink.close some_, follows.ret, follows.counts]

/-- `%5d,%s` in seven bytes -/
theorem vsnprintf_ss_bounded_seven :
    vsnprintf_ss (List.replicate 7 1) (ascii ['%', '5', 'd', ',', '%', 's'])
        [.word (BitVec.ofInt 64 (-12)), .text none] =
      .ok ⟨12, ascii [' ', ' ', '-', '1', '2', ','] ++ [0], []⟩ :=
  (vsnprintf_ss_bounded (List.replicate 7 1) (ascii ['%', '5', 'd', ',', '%', 's'])
    [.word (BitVec.ofInt 64 (-12)), .text none]).2
    ⟨ascii [' ', ' ', '-', '1', '2', ',', '(', 'n', 'u', 'l', 'l', ')'], []⟩
    (by decide +kernel) (by decide) (List.cons_ne_nil _ _) (by decide)

/-- An empty buffer has no room for the NUL, a buffer that is too large is refused, and a width or
an output that no `int` can count overflows. -/
theorem vsnprintf_ss_faults :
    formatted (ascii ['a']) [] = .ok ⟨ascii ['a'], []⟩ ∧
      vsnprintf_ss [] (ascii ['a']) [] = .error .outside ∧
      vsnprintf_ss (List.replicate (INT_MAX + 1) 0) (ascii ['a']) [] =
        .ok ⟨-1, List.replicate (INT_MAX + 1) 0, []⟩ ∧
      vsnprintf_ss [1] (ascii ['%', '2', '1', '4', '7', '4', '8', '3', '6', '4', '8', 'c'])
        [.word 97] = .error .overflow ∧
      vsnprintf_ss [1] (ascii ['a', '%', '2', '1', '4', '7', '4', '8', '3', '6', '4', '7', 'c'])
        [.word 97] = .error .overflow := by
  refine ⟨by decide +kernel, by decide +kernel, if_pos ?_, by decide +kernel, by decide +kernel⟩
  rw [List.length_replicate]
  exact Nat.lt_succ_self _

end Netbase.Printf
