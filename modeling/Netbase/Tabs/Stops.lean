import Mathlib.Tactic
import Netbase.Text.Decimal

/-!
# The stops of unexpand

The stops are read from the arguments of `-t` into a block that grows by twenty, and are kept if
each is greater than the one before it.  The block grows by twenty bytes, not by twenty stops, and
a single stop is the interval that the columns are divided by, also when it is zero.
-/

namespace Netbase.Tabs.Sized

open Netbase.Text

/-! ## Reading the stops -/

def ulongMax : Nat := 18446744073709551615

def digit (base : Nat) (c : Byte) : Option Nat :=
  let value :=
    if isdigit c then c.toNat - 48
    else if byte 'a' ≤ c ∧ c ≤ byte 'f' then c.toNat - 87
    else if byte 'A' ≤ c ∧ c ≤ byte 'F' then c.toNat - 55
    else base
  if value < base then some value else none

/-- The base that a number announces, and its digits. -/
def announced : List Byte → Nat × List Byte
  | [] => (10, [])
  | c :: rest =>
      if c = byte '0' then
        match rest with
        | x :: d :: rest =>
            if (x = byte 'x' ∨ x = byte 'X') ∧ (digit 16 d).isSome then (16, d :: rest)
            else (8, c :: x :: d :: rest)
        | rest => (8, c :: rest)
      else (10, c :: rest)

/-- `strtoul(tab, &ep, 0)`: the number, whether `errno` is `ERANGE`, and `ep`. -/
def strtoul (tab : List Byte) : UInt64 × Bool × List Byte :=
  let text := tab.dropWhile isspace
  let negative := text.head? = some (byte '-')
  let (base, digits) :=
    announced (if negative ∨ text.head? = some (byte '+') then text.tail else text)
  let read := digits.takeWhile fun c => (digit base c).isSome
  let value := (read.filterMap (digit base)).foldl (fun value d => value * base + d) 0
  if read = [] then (0, false, tab)
  else if ulongMax < value then (UInt64.ofNat ulongMax, true, digits.drop read.length)
  else
    (if negative then -UInt64.ofNat value else UInt64.ofNat value, false, digits.drop read.length)

/-- The pieces that `strsep` cuts at `", \t"`, without the empty ones. -/
def tabs (optarg : List Byte) : List (List Byte) :=
  (optarg.splitOnP fun c => c = byte ',' || c = byte ' ' || c = byte '\t').filter (· ≠ [])

/-- The stops read so far, the bytes at `tabstops`, and whether all stops lie inside them. -/
structure Stops where
  tabstops : List UInt64
  maxstops : Nat
  inside : Bool
  deriving Repr, DecidableEq

def Stops.none : Stops := ⟨[], 0, true⟩

/-- `erealloc(tabstops, maxstops)`, when `nstops` has come up to `maxstops`. -/
def Stops.grow (s : Stops) : Nat :=
  if s.maxstops ≤ s.tabstops.length then s.maxstops + 20 else s.maxstops

/-- `tabstops[nstops++] = i`, eight bytes. -/
def Stops.store (s : Stops) (i : UInt64) : Stops where
  tabstops := s.tabstops ++ [i]
  maxstops := s.grow
  inside := s.inside && 8 * (s.tabstops.length + 1) ≤ s.grow

/-- One piece; `none` is an exit with an error. -/
def Stops.read (s : Stops) (tab : List Byte) : Option Stops :=
  let (i, erange, ep) := strtoul tab
  if ep ≠ [] ∨ (erange ∧ i = UInt64.ofNat ulongMax) then Option.none
  else if s.tabstops.getLast?.any (fun last => i ≤ last) then Option.none
  else some (s.store i)

/-- The arguments of all options `-t`, in their order. -/
def accept (optargs : List (List Byte)) : Option Stops :=
  (optargs.flatMap tabs).foldlM Stops.read Stops.none

/-! ## The columns -/

/-- Why a line is not written to its end: a division by zero, or a loop that still runs. -/
inductive Interrupted where
  | divisionByZero
  | running
  deriving Repr, DecidableEq

/-- A quotient of two `size_t`. -/
def quotient (a b : UInt64) : Except Interrupted UInt64 :=
  if b = 0 then .error .divisionByZero else .ok (a / b)

def dstop (tabstops : List UInt64) : UInt64 := tabstops.headD 8

def limit (tabstops : List UInt64) : UInt64 :=
  if tabstops.length ≤ 1 then 4294967295 else tabstops.getLastD 0 - 1

def stopsBehind (tabstops : List UInt64) (column : UInt64) : List UInt64 :=
  tabstops.dropWhile (· ≤ column)

def multiple (dstop column : UInt64) : Except Interrupted UInt64 :=
  (quotient column dstop).map fun quotient => (1 + quotient) * dstop

/-- The column that a blank is counted to, unless it is written as it is. -/
def counted (tabstops : List UInt64) (dcol : UInt64) (c : Byte) :
    Except Interrupted (Option UInt64) :=
  if c = byte ' ' then .ok (some (dcol + 1))
  else if c = byte '\t' then
    if tabstops.length ≤ 1 then (multiple (dstop tabstops) dcol).map some
    else
      match stopsBehind tabstops dcol with
      | t :: _ :: _ => if t - 1 < limit tabstops then .ok (some t) else .ok none
      | _ => .ok none
  else .ok none

/-- The tabs of a single interval, and the column behind them. -/
def intervalTabs (dstop dcol : UInt64) : Nat → UInt64 → Except Interrupted (List Byte × UInt64)
  | 0, _ => .error .running
  | fuel + 1, ocol => do
      let next ← quotient (ocol + dstop) dstop
      let last ← quotient dcol dstop
      if next ≤ last then
        if dcol - ocol < 2 then return ([], ocol)
        else
          let rest ← intervalTabs dstop dcol fuel (← multiple dstop ocol)
          return (byte '\t' :: rest.1, rest.2)
      else return ([], ocol)

/-- The tabs of several stops, and the column behind them. -/
def stopTabs (dcol limit : UInt64) : List UInt64 → UInt64 → List Byte × UInt64
  | [], ocol => ([], ocol)
  | t :: stops, ocol =>
      if t ≤ dcol ∧ ocol < dcol ∧ ocol < limit then
        let rest := stopTabs dcol limit stops t
        (byte '\t' :: rest.1, rest.2)
      else ([], ocol)

/-- What is written for the blanks, and the column behind it. -/
def output (tabstops : List UInt64) (fuel : Nat) (dcol ocol : UInt64) :
    Except Interrupted (List Byte × UInt64) := do
  let tabs ←
    if tabstops.length ≤ 1 then intervalTabs (dstop tabstops) dcol fuel ocol
    else .ok (stopTabs dcol (limit tabstops) (stopsBehind tabstops ocol) ocol)
  let spaces := (min dcol (limit tabstops)).toNat - tabs.2.toNat
  return (tabs.1 ++ List.replicate spaces (byte ' '), tabs.2 + UInt64.ofNat spaces)

/-- The columns behind a character. -/
def moved (c : Byte) (dcol ocol : UInt64) : UInt64 × UInt64 :=
  if c = byte '\x08' then if 0 < ocol then (dcol - 1, ocol - 1) else (dcol, ocol)
  else (dcol + 1, ocol + 1)

/-- `tabify`, with so many rounds for each loop over the tabs. -/
def tabify (all : Bool) (tabstops : List UInt64) (fuel : Nat) :
    UInt64 → UInt64 → List Byte → Except Interrupted (List Byte)
  | _, _, [] => .ok []
  | dcol, ocol, c :: p => do
      match ← counted tabstops dcol c with
      | some dcol => tabify all tabstops fuel dcol ocol p
      | none =>
          let out ← output tabstops fuel dcol ocol
          let next := moved c dcol out.2
          let rest ←
            if all && next.1 < limit tabstops then tabify all tabstops fuel next.1 next.2 p
            else .ok p
          return out.1 ++ c :: rest

/-! ## The stops that are accepted -/

/-- What holds of the stops behind so many pieces. -/
structure Stops.Kept (s : Stops) (pieces : Nat) : Prop where
  count : s.tabstops.length = pieces
  increasing : s.tabstops.Pairwise (· < ·)
  block : s.maxstops = 20 * ((pieces + 19) / 20)
  inside : s.inside = decide (pieces ≤ 2)

theorem Stops.none_kept : Stops.none.Kept 0 := ⟨rfl, List.Pairwise.nil, rfl, rfl⟩

theorem Stops.grow_eq {s : Stops} {pieces : Nat} (kept : s.Kept pieces) :
    s.grow = 20 * ((pieces + 20) / 20) := by
  unfold grow
  rw [kept.count, kept.block]
  split <;> omega

theorem pairwise_concat {stops : List UInt64} {i : UInt64} (increasing : stops.Pairwise (· < ·))
    (greater : stops.getLast?.any (fun last => i ≤ last) = false) :
    (stops ++ [i]).Pairwise (· < ·) := by
  rcases List.eq_nil_or_concat' stops with rfl | ⟨front, last, rfl⟩
  · exact List.pairwise_singleton _ _
  · have above : last < i := by simpa using greater
    refine List.pairwise_append.mpr ⟨increasing, List.pairwise_singleton _ _, ?_⟩
    intro t member u single
    rw [List.mem_singleton.mp single]
    rcases List.mem_append.mp member with early | late
    · have below := (List.pairwise_append.mp increasing).2.2 t early last (List.mem_singleton_self _)
      exact UInt64.lt_trans below above
    · rwa [List.mem_singleton.mp late]

theorem Stops.read_some {s next : Stops} {tab : List Byte} (read : s.read tab = some next) :
    next = s.store (strtoul tab).1 ∧
      s.tabstops.getLast?.any (fun last => (strtoul tab).1 ≤ last) = false := by
  unfold Stops.read at read
  generalize strtoul tab = number at read ⊢
  obtain ⟨i, erange, ep⟩ := number
  simp only at read ⊢
  split at read
  · cases read
  · split at read
    · cases read
    next greater => exact ⟨(Option.some.inj read).symm, Bool.not_eq_true _ ▸ greater⟩

theorem Stops.read_kept {s next : Stops} {tab : List Byte} {pieces : Nat} (kept : s.Kept pieces)
    (read : s.read tab = some next) : next.Kept (pieces + 1) := by
  obtain ⟨rfl, greater⟩ := Stops.read_some read
  have grown := Stops.grow_eq kept
  refine ⟨?_, pairwise_concat kept.increasing greater, grown, ?_⟩
  · rw [store, List.length_append, kept.count, List.length_singleton]
  · rw [store, kept.inside, grown, kept.count]
    have room : pieces ≤ 2 ∧ 8 * (pieces + 1) ≤ 20 * ((pieces + 20) / 20) ↔ pieces + 1 ≤ 2 := by
      omega
    rw [← Bool.decide_and]
    exact decide_eq_decide.mpr room

theorem Stops.fold_kept {pieces : List (List Byte)} {s next : Stops} {n : Nat} (kept : s.Kept n)
    (read : pieces.foldlM Stops.read s = some next) : next.Kept (n + pieces.length) := by
  induction pieces generalizing s n with
  | nil => exact Option.some.inj read ▸ kept
  | cons tab pieces ih =>
      rw [List.foldlM_cons] at read
      obtain ⟨between, first, rest⟩ := Option.bind_eq_some_iff.mp read
      have all := ih (Stops.read_kept kept first) rest
      rwa [List.length_cons, Nat.add_comm pieces.length, ← Nat.add_assoc]

theorem accept_kept {optargs : List (List Byte)} {s : Stops} (accepted : accept optargs = some s) :
    s.Kept (optargs.flatMap tabs).length := by
  have kept := Stops.fold_kept Stops.none_kept accepted
  rwa [Nat.zero_add] at kept

theorem accept_single {optargs : List (List Byte)} {s : Stops} {tab : List Byte}
    (accepted : accept optargs = some s) (single : optargs.flatMap tabs = [tab]) :
    s.tabstops = [(strtoul tab).1] := by
  rw [accept, single, List.foldlM_cons] at accepted
  obtain ⟨between, first, rest⟩ := Option.bind_eq_some_iff.mp accepted
  cases rest
  rw [(Stops.read_some first).1]
  rfl

/-! ## The divisions -/

def Divides {α : Type} (result : Except Interrupted α) : Prop :=
  result ≠ .error .divisionByZero

section

variable {α β : Type}

theorem Divides.ok (a : α) : Divides (.ok a) := fun same => nomatch same

theorem Divides.bind {result : Except Interrupted α} {next : α → Except Interrupted β}
    (first : Divides result) (rest : ∀ a, Divides (next a)) : Divides (result >>= next) := by
  cases result with
  | error interrupted =>
      intro same
      cases interrupted with
      | divisionByZero => exact first rfl
      | running => exact nomatch same
  | ok a => exact rest a

theorem Divides.map {result : Except Interrupted α} (f : α → β) (first : Divides result) :
    Divides (result.map f) := by
  cases result with
  | error interrupted =>
      intro same
      cases interrupted with
      | divisionByZero => exact first rfl
      | running => exact nomatch same
  | ok a => exact Divides.ok _

end

theorem quotient_divides {a b : UInt64} (some_ : b ≠ 0) : Divides (quotient a b) := by
  rw [quotient, if_neg some_]
  exact Divides.ok _

theorem multiple_divides {dstop : UInt64} (some_ : dstop ≠ 0) (column : UInt64) :
    Divides (multiple dstop column) := (quotient_divides some_).map _

theorem intervalTabs_divides {dstop : UInt64} (some_ : dstop ≠ 0) (dcol : UInt64) (fuel : Nat) :
    ∀ ocol, Divides (intervalTabs dstop dcol fuel ocol) := by
  induction fuel with
  | zero => exact fun ocol same => nomatch same
  | succ fuel ih =>
      intro ocol
      rw [intervalTabs]
      refine (quotient_divides some_).bind fun next => (quotient_divides some_).bind fun last => ?_
      split
      · split
        · exact Divides.ok _
        · exact (multiple_divides some_ ocol).bind fun column =>
            (ih column).bind fun rest => Divides.ok _
      · exact Divides.ok _

section

variable {tabstops : List UInt64}

/-- The columns are divided by a single stop only. -/
def Divisible (tabstops : List UInt64) : Prop := tabstops.length ≤ 1 → dstop tabstops ≠ 0

theorem counted_divides (divisible : Divisible tabstops) (dcol : UInt64) (c : Byte) :
    Divides (counted tabstops dcol c) := by
  rw [counted]
  split
  · exact Divides.ok _
  · split
    · split
      next few => exact (multiple_divides (divisible few) dcol).map some
      · split
        · split <;> exact Divides.ok _
        · exact Divides.ok _
    · exact Divides.ok _

theorem output_divides (divisible : Divisible tabstops) (fuel : Nat) (dcol ocol : UInt64) :
    Divides (output tabstops fuel dcol ocol) := by
  rw [output]
  split
  next few =>
    exact (intervalTabs_divides (divisible few) dcol fuel ocol).bind fun tabs => Divides.ok _
  · exact Divides.ok _

theorem tabify_divides (divisible : Divisible tabstops) (all : Bool) (fuel : Nat)
    (line : List Byte) : ∀ dcol ocol, Divides (tabify all tabstops fuel dcol ocol line) := by
  induction line with
  | nil => exact fun _ _ => Divides.ok _
  | cons c line ih =>
      intro dcol ocol
      rw [tabify]
      refine (counted_divides divisible dcol c).bind fun count => ?_
      cases count with
      | some dcol => exact ih dcol ocol
      | none =>
          refine (output_divides divisible fuel dcol ocol).bind fun out => ?_
          simp only
          split
          · exact (ih _ _).bind fun rest => Divides.ok _
          · exact Divides.ok _

/-- A tab in the first column is counted by a division. -/
theorem tabify_zero (all : Bool) (fuel : Nat) :
    ¬ Divides (tabify all [0] fuel 0 0 [byte '\t']) := fun divides => divides rfl

theorem divisible_iff : Divisible tabstops ↔ tabstops ≠ [0] := by
  unfold Divisible dstop
  rcases tabstops with _ | ⟨t, _ | ⟨u, rest⟩⟩ <;> simp

end

structure Stops.Safe (s : Stops) : Prop where
  inside : s.inside = true
  increasing : s.tabstops.Pairwise (· < ·)
  divides : ∀ all fuel line, Divides (tabify all s.tabstops fuel 0 0 line)

/-- Stops that are accepted are safe if there are at most two of them, and not zero alone. -/
theorem accept_safe_iff {optargs : List (List Byte)} {s : Stops}
    (accepted : accept optargs = some s) :
    s.Safe ↔ (optargs.flatMap tabs).length ≤ 2 ∧
      ∀ tab, optargs.flatMap tabs = [tab] → (strtoul tab).1 ≠ 0 := by
  have kept := accept_kept accepted
  have divisible : (∀ all fuel line, Divides (tabify all s.tabstops fuel 0 0 line)) ↔
      ∀ tab, optargs.flatMap tabs = [tab] → (strtoul tab).1 ≠ 0 := by
    constructor
    · intro divides tab single zero
      have stops := accept_single accepted single
      rw [zero] at stops
      exact tabify_zero true 0 (stops ▸ divides true 0 [byte '\t'])
    · intro other all fuel line
      refine tabify_divides (divisible_iff.mpr fun zero => ?_) all fuel line 0 0
      have count := kept.count
      rw [zero] at count
      obtain ⟨tab, single⟩ := List.length_eq_one_iff.mp count.symm
      have stops := accept_single accepted single
      rw [zero] at stops
      exact other tab single (List.cons.inj stops).1.symm
  constructor
  · intro safe
    exact ⟨of_decide_eq_true (kept.inside.symm.trans safe.inside), divisible.mp safe.divides⟩
  · rintro ⟨few, other⟩
    exact ⟨kept.inside.trans (decide_eq_true few), kept.increasing, divisible.mpr other⟩

theorem accept_safe_two :
    ∃ s, accept [ascii ['4', ',', '8']] = some s ∧ s.Safe := by
  refine ⟨⟨[4, 8], 20, true⟩, by decide +kernel, ?_⟩
  have accepted : accept [ascii ['4', ',', '8']] = some ⟨[4, 8], 20, true⟩ := by decide +kernel
  exact (accept_safe_iff accepted).mpr
    ⟨by decide +kernel, fun tab single => by
      have two : ([ascii ['4', ',', '8']].flatMap tabs).length = 2 := by decide +kernel
      rw [single] at two
      cases two⟩

/-- Three stops do not fit in twenty bytes, and a stop of zero is divided by. -/
theorem accept_three_outside :
    ¬ (∀ optarg s, accept [optarg] = some s → s.Safe) ∧
      accept [ascii ['1', ',', '2', ',', '3']] = some ⟨[1, 2, 3], 20, false⟩ ∧
      accept [ascii ['0']] = some ⟨[0], 20, true⟩ := by
  have three : accept [ascii ['1', ',', '2', ',', '3']] = some ⟨[1, 2, 3], 20, false⟩ := by
    decide +kernel
  exact ⟨fun safe => Bool.false_ne_true (safe _ _ three).inside, three, by decide +kernel⟩

end Netbase.Tabs.Sized
