import Mathlib.Data.List.TakeWhile
import Netbase.Xargs.Tokens

/-!
# What xargs delivers

The state between two characters is read as the batch in the buffer and the
part of a token behind it.  A token that outgrows the room sends the batch off
before its end, which a batch cut by `join` shows again at the end of the token.
-/

namespace Netbase.Xargs

open Netbase.Text

/-! ## The buffer -/

/-- Words one behind the other, each with its NUL. -/
def pack (words : List (List Byte)) : List Byte := (words.map (· ++ [0])).flatten

/-- The places at which packed words start. -/
def starts : Nat → List (List Byte) → List Nat
  | _, [] => []
  | k, word :: words => k :: starts (k + word.length + 1) words

@[simp] theorem space_nil : space [] = 0 := rfl

@[simp] theorem space_cons (word : List Byte) (words : List (List Byte)) :
    space (word :: words) = word.length + 1 + space words := by
  simp [space]

@[simp] theorem space_append (words more : List (List Byte)) :
    space (words ++ more) = space words + space more := by
  simp [space]

@[simp] theorem length_pack (words : List (List Byte)) : (pack words).length = space words := by
  induction words with
  | nil => rfl
  | cons word words ih => simp [pack, space] at ih ⊢; omega

theorem pack_concat (words : List (List Byte)) (word : List Byte) :
    pack (words ++ [word]) = pack words ++ word ++ [0] := by
  simp [pack]

@[simp] theorem length_starts (k : Nat) (words : List (List Byte)) :
    (starts k words).length = words.length := by
  induction words generalizing k with
  | nil => rfl
  | cons word words ih => simp [starts, ih]

theorem starts_concat (k : Nat) (words : List (List Byte)) (word : List Byte) :
    starts k (words ++ [word]) = starts k words ++ [k + space words] := by
  induction words generalizing k with
  | nil => rfl
  | cons first words ih =>
      simp only [List.cons_append, starts, ih, space_cons]
      rw [show k + first.length + 1 + space words = k + (first.length + 1 + space words) by omega]

theorem cstring_terminated (word rest : List Byte) : cstring (word ++ 0 :: rest) = cstring word := by
  induction word with
  | nil => rfl
  | cons c word ih =>
      simp only [cstring, List.cons_append, List.takeWhile_cons] at ih ⊢
      rw [ih]

theorem cstring_clean {word : List Byte} (clean : 0 ∉ word) : cstring word = word := by
  refine List.takeWhile_eq_self_iff.mpr fun c mem => ?_
  simpa using fun zero : c = 0 => clean (zero ▸ mem)

theorem length_cstring (word : List Byte) : (cstring word).length ≤ word.length :=
  (List.takeWhile_prefix _).length_le

theorem space_cstring (words : List (List Byte)) : space (words.map cstring) ≤ space words := by
  induction words with
  | nil => rfl
  | cons word words ih =>
      have short := length_cstring word
      simp only [List.map_cons, space_cons]
      omega

theorem map_cstring_clean {words : List (List Byte)} (clean : ∀ word ∈ words, 0 ∉ word) :
    words.map cstring = words := by
  conv_rhs => rw [← List.map_id words]
  exact List.map_congr_left fun word mem => cstring_clean (clean word mem)

theorem map_starts (before rest : List Byte) (words : List (List Byte)) :
    (starts before.length words).map (fun a => cstring ((before ++ (pack words ++ rest)).drop a)) =
      words.map cstring := by
  induction words generalizing before with
  | nil => rfl
  | cons word words ih =>
      have next := ih (before ++ (word ++ [0]))
      have place : (before ++ (word ++ [0])).length = before.length + word.length + 1 := by
        simp; omega
      have memory : before ++ (word ++ [0]) ++ (pack words ++ rest) =
          before ++ (pack (word :: words) ++ rest) := by
        simp [pack]
      rw [place, memory] at next
      simp only [starts, List.map_cons, next, List.drop_left]
      congr 1
      rw [show pack (word :: words) ++ rest = word ++ 0 :: (pack words ++ rest) by simp [pack]]
      exact cstring_terminated word _

/-! ## The state between two characters -/

/-- The memory of a state: the words in the buffer and the token behind them. -/
structure Holds (st : State) (xs : List (List Byte)) (t : Token) (quoting : Quoting) : Prop where
  bbp : st.bbp = pack xs ++ t.bytes
  argp : st.argp = space xs
  xp : st.xp = starts 0 xs
  wasquoted : st.wasquoted = t.quoted
  insingle : st.insingle = decide (quoting = .quoted .single)
  indouble : st.indouble = decide (quoting = .quoted .double)

theorem Holds.p {st : State} {xs : List (List Byte)} {t : Token} {quoting : Quoting}
    (holds : Holds st xs t quoting) : st.p = space xs + t.bytes.length := by
  simp [State.p, holds.bbp]

theorem Holds.args {st : State} {xs : List (List Byte)} {t : Token} {quoting : Quoting}
    (holds : Holds st xs t quoting) : st.args = xs.map cstring := by
  have read := map_starts [] t.bytes xs
  simpa [State.args, holds.bbp, holds.xp] using read

theorem Holds.current {st : State} {xs : List (List Byte)} {t : Token} {quoting : Quoting}
    (holds : Holds st xs t quoting) : st.bbp.drop st.argp = t.bytes := by
  rw [holds.bbp, holds.argp, ← length_pack, List.drop_left]

/-- A state between two characters.  `batch` was pending when the token `t` began, and `xs` is
pending now: the same, or nothing when the token has outgrown the room. -/
structure Stands (cfg : Config) (st : State) (batch xs : List (List Byte)) (t : Token)
    (quoting : Quoting) (given : List (List Byte)) : Prop where
  holds : Holds st xs t quoting
  given : st.ran.flatten ++ xs.map cstring = given
  room : space xs + t.bytes.length < cfg.nline
  few : batch.length < cfg.nargs
  fits : space batch < cfg.nline
  pending : xs = batch ∨ xs = [] ∧ cfg.nline ≤ space batch + t.bytes.length

section Steps

variable {cfg : Config} {st : State} {batch xs : List (List Byte)} {t : Token}
  {quoting : Quoting} {given : List (List Byte)}

theorem Stands.join (stands : Stands cfg st batch xs t quoting given) :
    cfg.join batch t = xs ++ [t.bytes] := by
  have room := stands.room
  rcases stands.pending with same | ⟨moved, full⟩
  · subst same
    simp [Config.join, room]
  · subst moved
    simp [Config.join, Nat.not_lt.mpr full]

theorem Stands.same (stands : Stands cfg st batch xs t quoting given) (none : ¬t.IsArg) :
    xs = batch := by
  have bare : t.bytes = [] := by
    by_contra bytes
    exact none (.inl bytes)
  rcases stands.pending with same | ⟨-, full⟩
  · exact same
  · have fits := stands.fits
    simp [bare] at full
    omega

theorem Stands.few_xs (stands : Stands cfg st batch xs t quoting given) : xs.length < cfg.nargs := by
  have few := stands.few
  rcases stands.pending with same | ⟨moved, -⟩
  · rwa [same]
  · subst moved
    simp only [List.length_nil]
    omega

/-- The charge for the fixed words is at most one byte short. -/
theorem Config.words_le (cfg : Config) : space cfg.words ≤ cfg.cnt + 1 := by
  unfold Config.words Config.cnt
  split <;> simp

theorem Config.within_of_room (cfg : Config) {words : List (List Byte)}
    (few : words.length ≤ cfg.nargs) (room : space words < cfg.nline) :
    cfg.Within (words.map cstring) := by
  have charge := cfg.words_le
  have short := space_cstring words
  have line : cfg.nline = cfg.size - cfg.cnt := rfl
  refine ⟨by simpa using few, ?_⟩
  omega

theorem Stands.within (stands : Stands cfg st batch xs t quoting given) :
    cfg.Within (xs.map cstring) :=
  cfg.within_of_room (Nat.le_of_lt stands.few_xs) (by have room := stands.room; omega)

/-- What is run on the way from one state to another. -/
structure Goes (cfg : Config) (ran later : List (List (List Byte))) : Prop where
  behind : ran <+: later
  within : (∀ args ∈ ran, cfg.Within args) → ∀ args ∈ later, cfg.Within args

theorem Goes.refl (cfg : Config) (ran : List (List (List Byte))) : Goes cfg ran ran :=
  ⟨List.prefix_refl ran, id⟩

theorem Goes.concat {ran : List (List (List Byte))} {args : List (List Byte)}
    (within : cfg.Within args) : Goes cfg ran (ran ++ [args]) := by
  refine ⟨List.prefix_append _ _, fun before other mem => ?_⟩
  rcases List.mem_append.mp mem with old | new
  · exact before other old
  · rwa [List.mem_singleton.mp new]

theorem Config.prerun_ok {next : State} (ok : cfg.prerun st = .ok next) :
    next = { st with ran := st.ran ++ [st.args], waits := st.waits + 1 } := by
  unfold Config.prerun at ok
  split at ok
  · exact (Except.ok.inj ok).symm
  · cases ok

theorem Stands.addch (stands : Stands cfg st batch xs t quoting given) {ch : Byte} {next : State}
    (ok : cfg.addch st ch = .ok next) :
    ∃ xs', Stands cfg next batch xs' (t.add ch) quoting given ∧ Goes cfg st.ran next.ran := by
  have p := stands.holds.p
  have room := stands.room
  unfold Config.addch Config.ebp at ok
  split at ok
  case isTrue free =>
      cases ok
      refine ⟨xs, ⟨?_, stands.given, ?_, stands.few, stands.fits, ?_⟩, .refl cfg _⟩
      · exact { stands.holds with bbp := by simp [stands.holds.bbp, Token.add] }
      · simp only [Token.add, List.length_append, List.length_singleton]
        omega
      · rcases stands.pending with same | ⟨moved, full⟩
        · exact .inl same
        · refine .inr ⟨moved, ?_⟩
          simp only [Token.add, List.length_append, List.length_singleton]
          omega
  case isFalse full =>
      split at ok
      · cases ok
      rename_i some
      split at ok
      · cases ok
      split at ok
      · cases ok
      rename_i run
      have ran := Config.prerun_ok run
      subst ran
      cases ok
      have nonempty : xs ≠ [] := by
        rintro rfl
        exact some (by simp [stands.holds.xp, starts])
      have same : xs = batch := stands.pending.resolve_right fun moved => nonempty moved.1
      have positive : 0 < space xs := by
        obtain ⟨word, words, rfl⟩ := List.exists_cons_of_ne_nil nonempty
        simp only [space_cons]
        omega
      have moved : (st.bbp.drop st.argp).take (cfg.nline - 1 - st.argp) = t.bytes := by
        rw [stands.holds.current, stands.holds.argp]
        exact List.take_of_length_le (by omega)
      refine ⟨[], ⟨?_, ?_, ?_, stands.few, stands.fits, .inr ⟨rfl, ?_⟩⟩, ?_⟩
      · exact { stands.holds with
          bbp := by simp [moved, pack, Token.add]
          argp := rfl
          xp := rfl }
      · simp [stands.holds.args, stands.given]
      · simp only [space_nil, Token.add, List.length_append, List.length_singleton]
        omega
      · simp only [← same, Token.add, List.length_append, List.length_singleton]
        omega
      · simp only [stands.holds.args]
        exact .concat stands.within

/-- The words in the buffer behind the end of a token. -/
def collected (xs : List (List Byte)) (t : Token) : List (List Byte) :=
  if t.IsArg then xs ++ [t.bytes] else xs

theorem collected_eq (xs : List (List Byte)) (t : Token) :
    collected xs t = xs ++ collected [] t := by
  unfold collected
  split <;> simp

theorem Stands.collected_length (stands : Stands cfg st batch xs t quoting given) :
    (collected xs t).length ≤ cfg.nargs := by
  have few := stands.few_xs
  unfold collected
  split
  · simp only [List.length_append, List.length_singleton]
    omega
  · omega

theorem Stands.after (stands : Stands cfg st batch xs t quoting given) :
    cfg.after batch t = cfg.settle (collected xs t) := by
  unfold Config.after collected
  split
  · rw [stands.join]
  · rename_i none
    rw [stands.same none]

theorem Holds.collect (holds : Holds st xs t quoting) :
    st.collect false =
      { st with bbp := pack (collected xs t), xp := starts 0 (collected xs t) } := by
  have position : st.argp ≠ st.p ↔ t.bytes ≠ [] := by
    rw [holds.p, holds.argp, ← List.length_pos_iff]
    omega
  unfold State.collect collected
  by_cases arg : t.IsArg
  · have makes : (st.argp ≠ st.p ∨ st.wasquoted = true) ∧ false = false :=
      ⟨by rwa [position, holds.wasquoted], rfl⟩
    rw [if_pos makes, if_pos arg, pack_concat, starts_concat, holds.bbp, holds.xp, holds.argp]
    simp
  · have makes : ¬((st.argp ≠ st.p ∨ st.wasquoted = true) ∧ false = false) := by
      rintro ⟨makes, -⟩
      rw [position, holds.wasquoted] at makes
      exact arg makes
    have bare : t.bytes = [] := by
      by_contra bytes
      exact arg (.inl bytes)
    rw [if_neg makes, if_neg arg, ← holds.xp]
    simp [show pack xs = st.bbp by simp [holds.bbp, bare]]

theorem args_packed (st : State) (words : List (List Byte)) :
    State.args { st with bbp := pack words, xp := starts 0 words } = words.map cstring := by
  have read := map_starts [] [] words
  simpa [State.args] using read

/-- Whether a batch is run behind a separator that is not the end. -/
theorem maxed_iff (cfg : Config) (st : State) (words : List (List Byte)) (positive : 0 < cfg.nline) :
    cfg.maxed { st with bbp := pack words, xp := starts 0 words } false false = true ↔
      words.length = cfg.nargs ∨ cfg.nline ≤ space words ∨ cfg.xflag = true := by
  have full : cfg.ebp < space words ↔ cfg.nline ≤ space words := by
    unfold Config.ebp
    omega
  simp [Config.maxed, State.p, Lflag, full, or_assoc]

/-- Behind the end-of-file string, what is pending is run and xargs exits. -/
theorem Stands.arg2_found (stands : Stands cfg st batch xs t quoting given)
    (found : cfg.foundeof t.bytes = true) {eof : Bool} {next : Next}
    (ok : cfg.arg2 st eof = .ok next) : next = .exits (st.ran ++ [xs.map cstring]) := by
  have kept : st.collect true = st := by simp [State.collect]
  have run : cfg.maxed st eof true = true := by simp [Config.maxed]
  simp only [Config.arg2, stands.holds.current, found, kept, run, if_true] at ok
  split at ok
  · cases ok
  split at ok
  · cases ok
  rename_i ran
  have ran := Config.prerun_ok ran
  subst ran
  simp only [or_true, if_true, Config.leave] at ok
  split at ok
  · cases ok
  rename_i left
  split at left
  · cases left
    cases ok
    rw [stands.holds.args]
  · cases left

/-- At the end of the input the last token is collected and everything pending is run. -/
theorem Stands.arg2_eof (stands : Stands cfg st batch xs t quoting given)
    (on : cfg.foundeof t.bytes = false) {next : Next} (ok : cfg.arg2 st true = .ok next) :
    next = .exits (st.ran ++ [(collected xs t).map cstring]) := by
  have run : cfg.maxed
      { st with bbp := pack (collected xs t), xp := starts 0 (collected xs t) } true false = true := by
    simp [Config.maxed]
  simp only [Config.arg2, stands.holds.current, on, stands.holds.collect, run, if_true] at ok
  split at ok
  · cases ok
  split at ok
  · cases ok
  rename_i ran
  have ran := Config.prerun_ok ran
  subst ran
  simp only [true_or, if_true, Config.leave, args_packed] at ok
  split at ok
  · cases ok
  rename_i left
  split at left
  · cases left
    cases ok
    rfl
  · cases left

theorem Stands.arg2_goes (stands : Stands cfg st batch xs t .plain given)
    (on : cfg.foundeof t.bytes = false) {next : Next} (ok : cfg.arg2 st false = .ok next) :
    ∃ st', next = .goes st' ∧
      Stands cfg st' (cfg.after batch t) (cfg.after batch t) .empty .plain
        (given ++ (collected [] t).map cstring) ∧
      (st'.ran = st.ran ++ [(collected xs t).map cstring] ∨
        st'.ran = st.ran ∧ space (collected xs t) < cfg.nline) := by
  have positive : 0 < cfg.nline := Nat.lt_of_le_of_lt (Nat.zero_le _) stands.fits
  have gave : st.ran.flatten ++ (collected xs t).map cstring =
      given ++ (collected [] t).map cstring := by
    rw [collected_eq, List.map_append, ← List.append_assoc, stands.given]
  have few := stands.few
  have run := maxed_iff cfg st (collected xs t) positive
  rw [stands.after]
  simp only [Config.arg2, stands.holds.current, on, stands.holds.collect] at ok
  split at ok
  case isTrue maxed =>
      have settled : cfg.settle (collected xs t) = [] := if_pos (run.mp maxed)
      split at ok
      · cases ok
      split at ok
      · cases ok
      rename_i ran
      have ran := Config.prerun_ok ran
      subst ran
      simp only [args_packed, Bool.false_eq_true, or_self, if_false] at ok
      cases ok
      refine ⟨_, rfl, ?_, .inl rfl⟩
      rw [settled]
      refine ⟨⟨rfl, rfl, rfl, rfl, ?_, ?_⟩, ?_, by simpa [Token.empty], ?_, by simpa, .inl rfl⟩
      · simpa using stands.holds.insingle
      · simpa using stands.holds.indouble
      · simpa using gave
      · simp only [List.length_nil]
        omega
  case isFalse maxed =>
      have kept := mt run.mpr maxed
      have settled : cfg.settle (collected xs t) = collected xs t := if_neg kept
      simp only [not_or, Nat.not_le] at kept
      cases ok
      refine ⟨_, rfl, ?_, .inr ⟨rfl, kept.2.1⟩⟩
      rw [settled]
      refine ⟨⟨?_, ?_, rfl, rfl, ?_, ?_⟩, gave, by simpa [Token.empty] using kept.2.1, ?_, kept.2.1,
        .inl rfl⟩
      · simp [Token.empty]
      · simp [State.p]
      · simpa using stands.holds.insingle
      · simpa using stands.holds.indouble
      · exact Nat.lt_of_le_of_ne stands.collected_length kept.1

/-! ## The whole input -/

theorem Config.wanted_step (cfg : Config) {t : Token} (ts : List Token) (ending : Ending)
    (on : cfg.foundeof t.bytes = false) :
    cfg.wanted (t :: ts) ending = (cfg.wanted ts ending).map (collected [] t ++ ·) := by
  by_cases arg : t.IsArg
  · simp [cfg.wanted_cons ts ending arg on, collected, arg]
  · simp [cfg.wanted_skip ts ending arg, collected, arg]

theorem Config.wanted_end (cfg : Config) {t : Token} (on : cfg.foundeof t.bytes = false) :
    cfg.wanted [] (.clean t) = some (collected [] t) := by
  by_cases arg : t.IsArg
  · simp [cfg.wanted_last arg on, collected, arg]
  · simp [cfg.wanted_last_skip arg, collected, arg]

theorem zero_not_mem_cstring (word : List Byte) : 0 ∉ cstring word := by
  intro mem
  simpa using List.mem_takeWhile_imp mem

/-- The condition on an argument says that it is run as it was read, in a batch within the limits. -/
theorem Stands.arrives (stands : Stands cfg st batch xs t quoting given)
    (clean : ∀ word ∈ batch, 0 ∉ word) :
    cfg.Arrives batch t ↔ (collected [] t).map cstring = collected [] t ∧
      cfg.Within ((collected xs t).map cstring) := by
  by_cases arg : t.IsArg
  · have clean_xs : ∀ word ∈ xs, 0 ∉ word := by
      rcases stands.pending with same | ⟨moved, -⟩
      · rwa [same]
      · simp [moved]
    have few : ((xs ++ [t.bytes]).map cstring).length ≤ cfg.nargs := by
      simpa [collected, arg] using stands.collected_length
    simp only [Config.Arrives, arg, true_imp_iff, collected, if_true, stands.join, List.nil_append,
      List.map_cons, List.map_nil, List.cons.injEq, and_true]
    constructor
    · rintro ⟨unmarked, fits⟩
      have all : ∀ word ∈ xs ++ [t.bytes], 0 ∉ word := by
        simpa [or_imp, forall_and, unmarked] using clean_xs
      exact ⟨cstring_clean unmarked, few, by rwa [map_cstring_clean all]⟩
    · rintro ⟨unmarked, -, fits⟩
      have fresh : 0 ∉ t.bytes := unmarked ▸ zero_not_mem_cstring t.bytes
      have all : ∀ word ∈ xs ++ [t.bytes], 0 ∉ word := by
        simpa [or_imp, forall_and, fresh] using clean_xs
      exact ⟨fresh, by rwa [map_cstring_clean all] at fits⟩
  · simp only [Config.Arrives, arg, false_imp_iff, collected, if_false, List.map_nil, true_and,
      true_iff]
    exact stands.within

/-- What becomes of a state and the tokens from it on: what is run extends what was run and given,
and it is what is wanted, within the limits, exactly under the condition. -/
def Outcome (cfg : Config) (ran : List (List (List Byte))) (batch given : List (List Byte))
    (tokens : List Token × Ending) (lists : List (List (List Byte))) : Prop :=
  ∃ more, lists.flatten = given ++ more ∧ ran <+: lists ∧
    ((∀ args ∈ ran, cfg.Within args) → (∀ word ∈ batch, 0 ∉ word) →
      (((∀ args ∈ lists, cfg.Within args) ∧ cfg.wanted tokens.1 tokens.2 = some more) ↔
        cfg.Meets batch tokens.1 tokens.2))

theorem Outcome.of_goes {ran later lists : List (List (List Byte))} {tokens : List Token × Ending}
    (goes : Goes cfg ran later) (outcome : Outcome cfg later batch given tokens lists) :
    Outcome cfg ran batch given tokens lists := by
  obtain ⟨more, flat, behind, iff⟩ := outcome
  exact ⟨more, flat, goes.behind.trans behind, fun before => iff (goes.within before)⟩

/-- Everything that is wanted must have been given when xargs exits at an end-of-file string. -/
theorem Stands.outcome_found (stands : Stands cfg st batch xs t quoting given)
    (tokens : List Token × Ending)
    (meets : cfg.Meets batch tokens.1 tokens.2 ↔ cfg.wanted tokens.1 tokens.2 = some []) :
    Outcome cfg st.ran batch given tokens (st.ran ++ [xs.map cstring]) := by
  refine ⟨[], by simpa using stands.given, List.prefix_append _ _, fun before _ => ?_⟩
  have all := (Goes.concat stands.within).within before
  rw [meets]
  exact ⟨fun delivered => delivered.2, fun wanted => ⟨all, wanted⟩⟩

theorem Config.mem_of_mem_settle (cfg : Config) {words : List (List Byte)} {word : List Byte}
    (mem : word ∈ cfg.settle words) : word ∈ words := by
  unfold Config.settle at mem
  split at mem
  · cases mem
  · exact mem

/-- A separator between the states before and behind it. -/
theorem Stands.outcome_goes {st' : State} {ts : List Token} {ending : Ending}
    {lists : List (List (List Byte))} (stands : Stands cfg st batch xs t quoting given)
    (on : cfg.foundeof t.bytes = false)
    (step : st'.ran = st.ran ++ [(collected xs t).map cstring] ∨
      st'.ran = st.ran ∧ space (collected xs t) < cfg.nline)
    (rest : Outcome cfg st'.ran (cfg.after batch t) (given ++ (collected [] t).map cstring)
      (ts, ending) lists) :
    Outcome cfg st.ran batch given (t :: ts, ending) lists := by
  obtain ⟨more, flat, behind, iff⟩ := rest
  have ran : st.ran <+: st'.ran := by
    rcases step with run | ⟨same, -⟩
    · exact run ▸ List.prefix_append _ _
    · exact same ▸ List.prefix_refl _
  refine ⟨(collected [] t).map cstring ++ more, by simpa using flat, ran.trans behind, ?_⟩
  intro before clean
  have meets : cfg.Meets batch (t :: ts) ending ↔
      cfg.Arrives batch t ∧ cfg.Meets (cfg.after batch t) ts ending := by
    simp [Config.Meets, on]
  have unmarked : cfg.Arrives batch t → ∀ word ∈ cfg.after batch t, 0 ∉ word := by
    intro arrives
    have joined : ∀ word ∈ (if t.IsArg then cfg.join batch t else batch), 0 ∉ word := by
      split
      · rename_i arg
        unfold Config.join
        split
        · simpa [or_imp, forall_and, (arrives arg).1] using clean
        · simpa using (arrives arg).1
      · exact clean
    exact fun word mem => joined word (cfg.mem_of_mem_settle mem)
  rw [meets, stands.arrives clean, cfg.wanted_step ts ending on]
  constructor
  · rintro ⟨within, wanted⟩
    obtain ⟨words, later, joined⟩ := Option.map_eq_some_iff.mp wanted
    obtain ⟨same, rfl⟩ := List.append_inj joined (by simp)
    have fits : cfg.Within ((collected xs t).map cstring) := by
      rcases step with run | ⟨-, free⟩
      · exact within _ (behind.subset (by simp [run]))
      · exact cfg.within_of_room stands.collected_length free
    have arrives := (stands.arrives clean).mpr ⟨same.symm, fits⟩
    exact ⟨⟨same.symm, fits⟩,
      (iff (fun args mem => within args (behind.subset mem)) (unmarked arrives)).mp ⟨within, later⟩⟩
  · rintro ⟨⟨same, fits⟩, meets⟩
    have arrives := (stands.arrives clean).mpr ⟨same, fits⟩
    have after : ∀ args ∈ st'.ran, cfg.Within args := by
      rcases step with run | ⟨equal, -⟩
      · exact run ▸ (Goes.concat fits).within before
      · exact equal ▸ before
    obtain ⟨within, later⟩ := (iff after (unmarked arrives)).mpr meets
    exact ⟨within, by rw [later, same]; rfl⟩

theorem Stands.outcome_eof (stands : Stands cfg st batch xs t quoting given)
    (on : cfg.foundeof t.bytes = false) (some : ¬(batch = [] ∧ t.bytes = [])) :
    Outcome cfg st.ran batch given ([], .clean t) (st.ran ++ [(collected xs t).map cstring]) := by
  refine ⟨(collected [] t).map cstring, ?_, List.prefix_append _ _, fun before clean => ?_⟩
  · rw [List.flatten_concat, collected_eq xs, List.map_append, ← List.append_assoc, stands.given]
  have meets : cfg.Meets batch [] (.clean t) ↔ cfg.Arrives batch t := by
    simp [Config.Meets, some, on]
  rw [meets, stands.arrives clean, cfg.wanted_end on]
  constructor
  · rintro ⟨within, wanted⟩
    exact ⟨(Option.some.inj wanted).symm, within _ (by simp)⟩
  · rintro ⟨same, fits⟩
    exact ⟨(Goes.concat fits).within before, by rw [same]⟩

theorem Stands.outcome_leave (stands : Stands cfg st batch xs t quoting given) (empty : st.p = 0) :
    Outcome cfg st.ran batch given ([], t.ending quoting) st.ran := by
  have p := stands.holds.p
  have bare : t.bytes = [] := List.eq_nil_of_length_eq_zero (by omega)
  have none : xs = [] := by
    cases xs with
    | nil => rfl
    | cons word words => simp only [space_cons] at p; omega
  have same : batch = [] := by
    rcases stands.pending with same | ⟨-, full⟩
    · rw [← same, none]
    · have fits := stands.fits
      simp only [bare, List.length_nil] at full
      omega
  refine ⟨[], by simpa [none] using stands.given, List.prefix_refl _, fun before _ => ?_⟩
  cases quoting with
  | plain =>
      have unquoted : cfg.wanted [] (.clean t) = some [] ↔ t.quoted = false := by
        cases quoted : t.quoted <;>
          simp +contextual [Config.wanted, Token.IsArg, Config.IsEof, bare, quoted, eq_comm]
      simp only [Token.ending, Config.Meets, same, bare, and_self, if_true, unquoted]
      exact ⟨fun delivered => delivered.2, fun none => ⟨before, none⟩⟩
  | quoted quote => simp [Token.ending, Config.Meets, Config.wanted]
  | escaped => simp [Token.ending, Config.Meets, Config.wanted]

theorem Stands.counted (stands : Stands cfg st batch xs t quoting given) (count : Nat) :
    Stands cfg { st with count := count } batch xs t quoting given :=
  { stands with holds := { stands.holds with } }

theorem Stands.quoted (stands : Stands cfg st batch xs t quoting given) (open' : Quoting) :
    Stands cfg { st with
      insingle := decide (open' = .quoted .single), indouble := decide (open' = .quoted .double),
      wasquoted := true } batch xs t.mark open' given :=
  { stands with holds := { stands.holds with wasquoted := rfl, insingle := rfl, indouble := rfl } }

/-- A backslash outside quotes, and the character behind it. -/
theorem Stands.requoted (stands : Stands cfg st batch xs t quoting given) {later : Quoting}
    (before : ∀ quote, quoting ≠ .quoted quote) (behind : ∀ quote, later ≠ .quoted quote) :
    Stands cfg st batch xs t later given :=
  { stands with holds := { stands.holds with
      insingle := by simpa [before, behind] using stands.holds.insingle
      indouble := by simpa [before, behind] using stands.holds.indouble } }

/-- One end of a token outside quotes, from what the rest of the input comes to. -/
theorem Stands.separator (stands : Stands cfg st batch xs t .plain given)
    {lists : List (List (List Byte))} {rest : List Token × Ending} {next : Next}
    (ok : cfg.arg2 st false = .ok next)
    (exits : ∀ ran, next = .exits ran → lists = ran)
    (goes : ∀ st', next = .goes st' → ∀ given', Stands cfg st' (cfg.after batch t)
      (cfg.after batch t) .empty .plain given' →
        Outcome cfg st'.ran (cfg.after batch t) given' rest lists) :
    Outcome cfg st.ran batch given (t.before rest) lists := by
  cases on : cfg.foundeof t.bytes with
  | true =>
      rw [exits _ (stands.arg2_found on ok)]
      exact stands.outcome_found _ (by simp [Token.before, Config.Meets, on])
  | false =>
      obtain ⟨st', same, behind, step⟩ := stands.arg2_goes on ok
      exact stands.outcome_goes on step (goes st' same _ behind)

end Steps

/-! ## The switch -/

theorem Config.jump_zero (cfg : Config) (st : State) (zflag : cfg.zflag = true) (c : Byte) :
    cfg.jump st c = if c = 0 then .zero else .addch := by
  simp only [Config.jump, zflag, or_true, if_true]
  split_ifs <;> simp_all [blank, tab]

theorem Config.jump_quoted (cfg : Config) (st : State) (zflag : cfg.zflag = false) (quote : Quote)
    (single : st.insingle = decide (quote = .single))
    (double : st.indouble = decide (quote = .double)) (c : Byte) :
    cfg.jump st c =
      if c = nl then .arg1
      else if c = quote.byte then (if quote = .single then .single else .double)
      else .addch := by
  cases quote <;>
    simp only [Config.jump, zflag, single, double, Quote.byte, reduceCtorEq, decide_true,
      decide_false, Bool.false_eq_true, or_false, or_true, if_true, if_false] <;>
    split_ifs <;> simp_all [blank, tab, nl, squote, dquote, backslash]

theorem Config.jump_plain (cfg : Config) (st : State) (zflag : cfg.zflag = false)
    (single : st.insingle = false) (double : st.indouble = false) (c : Byte) :
    cfg.jump st c =
      if c = blank ∨ c = tab then .arg2
      else if c = nl then .arg1
      else if c = squote then .single
      else if c = dquote then .double
      else if c = backslash then .escape
      else .addch := by
  simp only [Config.jump, zflag, single, double, Bool.false_eq_true, or_false, if_false]
  split_ifs <;> simp_all [nl, squote, dquote, backslash]

theorem bind_ok {α β : Type} {x : Except Failure α} {f : α → Except Failure β} {b : β}
    (ok : x >>= f = .ok b) : ∃ a, x = .ok a ∧ f a = .ok b := by
  cases x with
  | error failure => cases ok
  | ok a => exact ⟨a, rfl, ok⟩

/-- From every state on, the loop over an input ends as its tokens ask for. -/
def Config.Runs (cfg : Config) (input : List Byte) : Prop :=
  ∀ {st : State} {batch xs : List (List Byte)} {t : Token} {quoting : Quoting}
    {given : List (List Byte)} {lists : List (List (List Byte))},
    (cfg.zflag = true → quoting = .plain) → Stands cfg st batch xs t quoting given →
    cfg.parseInput (decide (quoting = .escaped)) st input = .ok lists →
    Outcome cfg st.ran batch given (lex cfg.zflag quoting t input) lists

section Loop

variable {cfg : Config} {st : State} {batch xs : List (List Byte)} {t : Token}
  {quoting : Quoting} {given : List (List Byte)} {lists : List (List (List Byte))}
  {c : Byte} {rest : List Byte}

theorem Config.runs_nil (cfg : Config) : cfg.Runs [] := by
  intro st batch xs t quoting given lists _ stands ok
  have insingle := stands.holds.insingle
  have indouble := stands.holds.indouble
  by_cases escaped : quoting = .escaped
  · subst escaped
    cases ok
  simp only [Config.parseInput, escaped, decide_false] at ok
  split at ok
  case isTrue empty =>
      unfold Config.leave at ok
      split at ok
      · cases ok
        exact stands.outcome_leave empty
      · cases ok
  case isFalse some =>
      cases quoting with
      | escaped => exact absurd rfl escaped
      | quoted quote => cases quote <;> simp [insingle, indouble] at ok
      | plain =>
          have pending : ¬(batch = [] ∧ t.bytes = []) := by
            rintro ⟨rfl, bare⟩
            have p := stands.holds.p
            rcases stands.pending with rfl | ⟨rfl, -⟩ <;>
              exact some (by simp [p, bare])
          simp only [insingle, indouble, reduceCtorEq, decide_false, Bool.false_eq_true, or_self,
            if_false] at ok
          obtain ⟨next, run, ok⟩ := bind_ok ok
          cases on : cfg.foundeof t.bytes with
          | true =>
              cases stands.arg2_found on run
              cases ok
              exact stands.outcome_found _ (by simp [lex, Token.ending, Config.Meets, on, pending])
          | false =>
              cases stands.arg2_eof on run
              cases ok
              exact stands.outcome_eof on pending

theorem Config.Runs.changed {st' : State} (runs : cfg.Runs rest)
    (stands : Stands cfg st' batch xs t quoting given) (plain : cfg.zflag = true → quoting = .plain)
    (ok : cfg.parseInput (decide (quoting = .escaped)) st' rest = .ok lists) (same : st'.ran = st.ran) :
    Outcome cfg st.ran batch given (lex cfg.zflag quoting t rest) lists :=
  same ▸ runs plain stands ok

theorem Config.Runs.add (runs : cfg.Runs rest) (plain : cfg.zflag = true → quoting = .plain)
    (out : quoting ≠ .escaped) (stands : Stands cfg st batch xs t quoting given)
    (ok : (cfg.addch st c >>= fun st => cfg.parseInput false st rest) = .ok lists) :
    Outcome cfg st.ran batch given (lex cfg.zflag quoting (t.add c) rest) lists := by
  obtain ⟨st', run, ok⟩ := bind_ok ok
  obtain ⟨xs', behind, goes⟩ := stands.addch run
  exact .of_goes goes (runs plain behind (by simpa [out] using ok))

theorem Config.Runs.separate (runs : cfg.Runs rest) (stands : Stands cfg st batch xs t .plain given)
    (count : Nat)
    (ok : (cfg.arg2 { st with count := count } false >>= fun next =>
      next.andThen (cfg.parseInput false · rest)) = .ok lists) :
    Outcome cfg st.ran batch given (t.before (lex cfg.zflag .plain .empty rest)) lists := by
  obtain ⟨next, run, ok⟩ := bind_ok ok
  refine (stands.counted count).separator run ?_ ?_
  · rintro ran rfl
    exact (Except.ok.inj ok).symm
  · rintro st' rfl given' behind
    exact runs (fun _ => rfl) behind ok

theorem Config.Runs.quoted (runs : cfg.Runs rest) (bytes : cfg.zflag = false) {quote : Quote}
    (stands : Stands cfg st batch xs t (.quoted quote) given)
    (ok : cfg.parseInput false st (c :: rest) = .ok lists) :
    Outcome cfg st.ran batch given (lex cfg.zflag (.quoted quote) t (c :: rest)) lists := by
  have insingle := stands.holds.insingle
  have indouble := stands.holds.indouble
  have jump := cfg.jump_quoted st bytes quote (by simpa using insingle) (by simpa using indouble) c
  simp only [Config.parseInput, jump] at ok
  simp only [lex, bytes, Bool.false_eq_true, if_false]
  by_cases newline : c = nl
  · cases quote <;> simp [newline, insingle, indouble] at ok
  by_cases closes : c = quote.byte
  · rw [if_neg newline, if_pos closes] at ok ⊢
    rw [← bytes]
    refine runs.changed (stands.quoted .plain) (fun _ => rfl) ?_ rfl
    cases quote <;> simpa [insingle, indouble] using ok
  · rw [if_neg newline, if_neg closes] at ok ⊢
    rw [← bytes]
    exact runs.add (by simp [bytes]) (by simp) stands ok

theorem Config.Runs.plain (runs : cfg.Runs rest) (bytes : cfg.zflag = false)
    (stands : Stands cfg st batch xs t .plain given)
    (ok : cfg.parseInput false st (c :: rest) = .ok lists) :
    Outcome cfg st.ran batch given (lex cfg.zflag .plain t (c :: rest)) lists := by
  have insingle : st.insingle = false := by simpa using stands.holds.insingle
  have indouble : st.indouble = false := by simpa using stands.holds.indouble
  simp only [Config.parseInput, cfg.jump_plain st bytes insingle indouble c] at ok
  simp only [lex, bytes, Bool.false_eq_true, if_false]
  have opened := fun quote => stands.quoted (.quoted quote)
  rw [← bytes]
  by_cases between : c = blank ∨ c = tab
  · rw [if_pos between] at ok
    rw [if_pos (or_assoc.mp (.inl between))]
    exact runs.separate stands st.count ok
  by_cases newline : c = nl
  · rw [if_neg between, if_pos newline] at ok
    rw [if_pos (.inr (.inr newline))]
    rw [if_neg (by simp [insingle, indouble])] at ok
    exact runs.separate stands (st.count + 1) ok
  rw [if_neg between, if_neg newline] at ok
  rw [if_neg fun some => (or_assoc.mpr some).elim between newline]
  by_cases single : c = squote
  · rw [if_pos single] at ok ⊢
    exact runs.changed (opened .single) (by simp [bytes])
      (by simpa [insingle, indouble] using ok) rfl
  by_cases double : c = dquote
  · rw [if_neg single, if_pos double] at ok ⊢
    exact runs.changed (opened .double) (by simp [bytes])
      (by simpa [insingle, indouble] using ok) rfl
  rw [if_neg single, if_neg double] at ok ⊢
  by_cases escape : c = backslash
  · rw [if_pos escape] at ok ⊢
    have escaped : Stands cfg st batch xs t .escaped given := stands.requoted (by simp) (by simp)
    exact runs (by simp [bytes]) escaped (by simpa using ok)
  · rw [if_neg escape] at ok ⊢
    exact runs.add (by simp) (by simp) stands ok

end Loop

theorem Config.runs (cfg : Config) (input : List Byte) : cfg.Runs input := by
  induction input with
  | nil => exact cfg.runs_nil
  | cons c rest ih =>
      intro st batch xs t quoting given lists plain stands ok
      cases bytes : cfg.zflag with
      | true =>
          have unquoted := plain bytes
          subst unquoted
          simp only [Config.parseInput, reduceCtorEq, decide_false, cfg.jump_zero st bytes c] at ok
          simp only [lex, if_true]
          rw [← bytes]
          by_cases zero : c = 0
          · rw [if_pos zero] at ok ⊢
            exact ih.separate stands (st.count + 1) ok
          · rw [if_neg zero] at ok ⊢
            exact ih.add plain (by simp) stands ok
      | false =>
          cases quoting with
          | escaped =>
              simp only [Config.parseInput, decide_true] at ok
              simp only [lex, Bool.false_eq_true, if_false]
              rw [← bytes]
              exact ih.add (by simp) (by simp) (stands.requoted (by simp) (by simp)) ok
          | quoted quote => exact bytes ▸ ih.quoted bytes stands (by simpa using ok)
          | plain => exact bytes ▸ ih.plain bytes stands (by simpa using ok)

/-- Xargs that does not exit with an error delivers what the input asks for exactly when no token
is taken wrongly for the end-of-file string, no argument holds a NUL, no batch fills the buffer to
the last byte behind the utility nobody named, and no quotes end the input with nothing pending. -/
theorem Config.xargs_delivers (cfg : Config) (input : List Byte) (lists : List (List (List Byte)))
    (ok : cfg.xargs input = .ok lists) :
    cfg.Delivers input lists ↔
      cfg.Meets [] (lex cfg.zflag .plain .empty input).1 (lex cfg.zflag .plain .empty input).2 := by
  unfold Config.xargs at ok
  split at ok
  · cases ok
  rename_i nargs
  split at ok
  · cases ok
  rename_i nline
  have stands : Stands cfg .start [] [] .empty .plain [] :=
    ⟨⟨rfl, rfl, rfl, rfl, rfl, rfl⟩, rfl, Nat.pos_of_ne_zero nline, Nat.pos_of_ne_zero nargs,
      Nat.pos_of_ne_zero nline, .inl rfl⟩
  obtain ⟨more, flat, -, iff⟩ := cfg.runs input (fun _ => rfl) stands
    (by simpa using ok)
  have started := iff (by simp [State.start]) (by simp)
  rw [List.nil_append] at flat
  rwa [← flat] at started

/-- Two arguments for every command of the utility `x`, up to the string END. -/
def pairs : Config :=
  { zflag := false, xflag := false, nargs := 2, size := 64, eofstr := ascii ['E', 'N', 'D'],
    utility := [ascii ['x']], survives := fun _ => true }

theorem xargs_delivers_line :
    pairs.Delivers (ascii ['a', ' ', 'b', '\n']) [[ascii ['a'], ascii ['b']]] ↔
      pairs.Meets [] (lex pairs.zflag .plain .empty (ascii ['a', ' ', 'b', '\n'])).1
        (lex pairs.zflag .plain .empty (ascii ['a', ' ', 'b', '\n'])).2 :=
  pairs.xargs_delivers _ _ (by decide)

/-- Two blanks in a row end the input when there is an end-of-file string. -/
theorem xargs_double_blank : ¬∀ (cfg : Config) (input : List Byte)
    (lists : List (List (List Byte))), cfg.xargs input = .ok lists → cfg.Delivers input lists := by
  intro claim
  have delivers := claim pairs (ascii ['a', ' ', ' ', 'b', '\n']) [[ascii ['a']]] (by decide)
  exact absurd delivers.2 (by decide)

end Netbase.Xargs
