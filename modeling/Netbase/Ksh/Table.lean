import Netbase.Lib.Probe
import Mathlib.Data.Nat.Bitwise

/-!
# Hashed tables of the Korn shell

The open-addressing table behind variables, aliases, functions and commands.
Entries live in memory cells and the table holds their addresses; a slot without
an address is a null pointer.  `size` and `nfree` are shorts, so every store into
them goes through `short`.  A probe outside the slot array and a probe that never
ends are faults.
-/

namespace Netbase.Ksh

open Netbase.Lib

/-- The bytes of a name before its terminating zero. -/
abbrev Name := List UInt8

abbrev Addr := Nat

/-- The flag bit of an entry that is defined. -/
def DEFINED : BitVec 32 := 2

structure Tbl where
  name : Name
  flag : BitVec 32
  deriving Repr, DecidableEq

def Tbl.isDefined (p : Tbl) : Bool :=
  p.flag &&& DEFINED != 0

/-- The cells handed out so far; `next` is the first one never handed out. -/
structure Area where
  next : Addr
  cell : Addr → Tbl

def Area.write (area : Area) (p : Addr) (tbl : Tbl) : Area :=
  { area with cell := fun q => if q = p then tbl else area.cell q }

structure Table where
  size : Int
  nfree : Int
  tbls : List (Option Addr)
  deriving Repr, DecidableEq

inductive Fault where
  | outside
  | endless
  deriving Repr, DecidableEq

/-- The value left after a store into a short. -/
def short (x : Int) : Int := Int.bmod x 65536

def INIT_TBLS : Int := 8

def hash (n : Name) : BitVec 32 :=
  n.foldl (fun h c => 2 * h + c.toBitVec.signExtend 32) 0 * 32821

/-- The slot index `h & (size - 1)`, an unsigned number. -/
def homeSlot (size : Int) (h : BitVec 32) : Int :=
  (h &&& BitVec.ofInt 32 (size - 1)).toNat

/-- What the slot at an index holds, when the index is inside the array. -/
def slotAt (tbls : List (Option Addr)) (pp : Int) : Option (Option Addr) :=
  if pp < 0 then none else tbls[pp.toNat]?

/-- The probe loop shared by searching, entering and expanding.  A walk that has
looked at every slot looks at the same slots again. -/
def probe (tp : Table) (hit : Addr → Bool) : Nat → Int → Except Fault (Int × Option Addr)
  | 0, _ => .error .endless
  | fuel + 1, pp =>
      match slotAt tp.tbls pp with
      | none => .error .outside
      | some none => .ok (pp, none)
      | some (some p) =>
          if hit p then .ok (pp, some p)
          else probe tp hit fuel ((if pp = 0 then pp + tp.size else pp) - 1)

def probeFrom (tp : Table) (hit : Addr → Bool) (h : BitVec 32) :
    Except Fault (Int × Option Addr) :=
  probe tp hit (tp.tbls.length + 1) (homeSlot tp.size h)

/-- Store an address into a slot and count it. -/
def fill (tp : Table) (pp : Int) (p : Addr) : Table :=
  { tp with
    nfree := short (tp.nfree - 1)
    tbls := tp.tbls.set pp.toNat (some p) }

/-- The loop of `texpand` over the old slots. -/
def rehash (area : Area) : List (Option Addr) → Table → Except Fault Table
  | [], tp => .ok tp
  | none :: rest, tp => rehash area rest tp
  | some p :: rest, tp =>
      if (area.cell p).isDefined then
        match probeFrom tp (fun _ => false) (hash (area.cell p).name) with
        | .error fault => .error fault
        | .ok (pp, _) => rehash area rest (fill tp pp p)
      else rehash area rest tp

/-- An empty table of `nsize` slots. -/
def freshTable (nsize : Int) : Table where
  size := short nsize
  nfree := short ((8 * nsize).tdiv 10)
  tbls := List.replicate nsize.toNat none

def texpand (area : Area) (tp : Table) (nsize : Int) : Except Fault Table :=
  rehash area (tp.tbls.take tp.size.toNat) (freshTable nsize)

def tinit (area : Area) (tsize : Int) : Except Fault Table :=
  if tsize = 0 then .ok ⟨0, 0, []⟩ else texpand area ⟨0, 0, []⟩ tsize

def mytsearch (area : Area) (tp : Table) (n : Name) (h : BitVec 32) :
    Except Fault (Option Addr) :=
  if tp.size = 0 then .ok none
  else
    match probeFrom tp (fun p => (area.cell p).name = n && (area.cell p).isDefined) h with
    | .error fault => .error fault
    | .ok (_, p) => .ok p

/-- `tenter` from its label `Search`; every jump back follows an expansion. -/
def tenterSearch (n : Name) (h : BitVec 32) :
    Nat → Area → Table → Except Fault (Area × Table × Addr)
  | 0, _, _ => .error .endless
  | fuel + 1, area, tp =>
      match probeFrom tp (fun p => (area.cell p).name = n) h with
      | .error fault => .error fault
      | .ok (_, some p) => .ok (area, tp, p)
      | .ok (pp, none) =>
          if tp.nfree ≤ 0 then
            match texpand area tp (2 * tp.size) with
            | .error fault => .error fault
            | .ok larger => tenterSearch n h fuel area larger
          else
            .ok ({ area.write area.next ⟨n, 0⟩ with next := area.next + 1 },
              fill tp pp area.next, area.next)

/-- An expanded table has room, so the second search is the last one. -/
def tenter (area : Area) (tp : Table) (n : Name) (h : BitVec 32) :
    Except Fault (Area × Table × Addr) :=
  if tp.size = 0 then
    match texpand area tp INIT_TBLS with
    | .error fault => .error fault
    | .ok larger => tenterSearch n h 2 area larger
  else tenterSearch n h 2 area tp

def mytdelete (area : Area) (p : Addr) : Area :=
  area.write p { area.cell p with flag := 0 }

/-- The assignment callers make to an entry `tenter` gave them. -/
def setDefined (area : Area) (p : Addr) : Area :=
  area.write p { area.cell p with flag := (area.cell p).flag ||| DEFINED }

/-! ## Sequences of calls -/

structure State where
  area : Area
  table : Table

inductive Call where
  | enter (n : Name)
  | delete (p : Addr)
  | search (n : Name)

/-- A call together with what it returned. -/
inductive Event where
  | entered (n : Name) (p : Addr)
  | deleted (p : Addr)
  | searched (n : Name) (result : Option Addr)
  deriving Repr, DecidableEq

def perform (s : State) : Call → Except Fault (State × Event)
  | .enter n =>
      match tenter s.area s.table n (hash n) with
      | .error fault => .error fault
      | .ok (area, table, p) => .ok (⟨setDefined area p, table⟩, .entered n p)
  | .delete p => .ok (⟨mytdelete s.area p, s.table⟩, .deleted p)
  | .search n =>
      match mytsearch s.area s.table n (hash n) with
      | .error fault => .error fault
      | .ok result => .ok (s, .searched n result)

/-- Perform calls in order; the events come back with the latest one first. -/
def performAll : List Call → State → List Event → Except Fault (State × List Event)
  | [], s, events => .ok (s, events)
  | call :: rest, s, events =>
      match perform s call with
      | .error fault => .error fault
      | .ok (s', event) => performAll rest s' (event :: events)

/-- The state of a new table, before any cell has been handed out. -/
def start (tsize : Int) : Except Fault State :=
  match tinit ⟨0, fun _ => ⟨[], 0⟩⟩ tsize with
  | .error fault => .error fault
  | .ok table => .ok ⟨⟨0, fun _ => ⟨[], 0⟩⟩, table⟩

def lastEntered : List Event → Name → Option Addr
  | [], _ => none
  | .entered m p :: events, n => if m = n then some p else lastEntered events n
  | .deleted p :: events, n =>
      if lastEntered events n = some p then none else lastEntered events n
  | .searched _ _ :: events, n => lastEntered events n

/-! ## The table invariant -/

def Area.nameAt (area : Area) (p : Addr) : Name := (area.cell p).name

/-- The home slot of an entry in a table of `count` slots. -/
def home (area : Area) (count : Nat) (p : Addr) : Nat :=
  (homeSlot count (hash (area.nameAt p))).toNat

/-- A table of `2 ^ k` slots whose fields fit their shorts, at most four fifths
full, with every entry on its probe chain and one entry a name. -/
structure Sound (area : Area) (tp : Table) (k : Nat) : Prop where
  small : k ≤ 14
  size : tp.size = (2 ^ k : Nat)
  length : tp.tbls.length = 2 ^ k
  free : 0 ≤ tp.nfree
  count : tp.nfree + tp.tbls.countP Option.isSome = (8 * 2 ^ k / 10 : Nat)
  chained : Probe.Chained tp.tbls (home area (2 ^ k))
  distinct : Probe.Distinct tp.tbls area.nameAt
  handed : ∀ p, some p ∈ tp.tbls → p < area.next

theorem short_of_small {x : Int} (low : -32768 ≤ x) (high : x < 32768) : short x = x := by
  unfold short
  rw [Int.bmod_eq_iff (by decide)]
  omega

variable {k : Nat} {tp : Table} {p : Addr}

theorem two_pow_le (small : k ≤ 14) : 2 ^ k ≤ 16384 :=
  Nat.pow_le_pow_right (by decide) small

theorem homeSlot_two_pow (small : k ≤ 31) (h : BitVec 32) :
    homeSlot (2 ^ k : Nat) h = (h.toNat % 2 ^ k : Nat) := by
  have bound : 2 ^ k ≤ 2 ^ 31 := Nat.pow_le_pow_right (by decide) small
  have positive : 0 < 2 ^ k := Nat.two_pow_pos k
  have mask : (BitVec.ofInt 32 ((2 ^ k : Nat) - 1)).toNat = 2 ^ k - 1 := by
    rw [BitVec.toNat_ofInt, Int.emod_eq_of_lt (by omega) (by omega)]
    omega
  unfold homeSlot
  rw [BitVec.toNat_and, mask, Nat.and_two_pow_sub_one_eq_mod]

theorem homeSlot_lt (small : k ≤ 31) (h : BitVec 32) :
    0 ≤ homeSlot (2 ^ k : Nat) h ∧ (homeSlot (2 ^ k : Nat) h).toNat < 2 ^ k := by
  rw [homeSlot_two_pow small]
  have := Nat.mod_lt h.toNat (Nat.two_pow_pos k)
  omega

theorem slotAt_natCast (tbls : List (Option Addr)) (i : Nat) :
    slotAt tbls (i : Int) = tbls[i]? := by
  unfold slotAt
  rw [if_neg (by omega), Int.toNat_natCast]

theorem probe_move {count i : Nat} (positive : 0 < count) :
    (if (i : Int) = 0 then (i : Int) + count else i) - 1 = (Probe.down count i : Nat) := by
  unfold Probe.down
  split <;> split <;> omega

theorem probe_ends (hit : Addr → Bool) (size : tp.size = tp.tbls.length) {empty : Nat}
    (free : tp.tbls[empty]? = some none) :
    ∀ (fuel i : Nat), i < tp.tbls.length →
      Probe.steps tp.tbls.length i empty < fuel →
      ∃ j result, probe tp hit fuel (i : Int) = .ok ((j : Nat), result) ∧
        Probe.Probes tp.tbls hit i (j, result) := by
  have emptyBound : empty < tp.tbls.length := (List.getElem?_eq_some_iff.mp free).1
  intro fuel
  induction fuel with
  | zero => intro i bound short; omega
  | succ fuel ih =>
      intro i bound enough
      unfold probe
      rw [slotAt_natCast]
      cases held : tp.tbls[i]? with
      | none =>
          rw [List.getElem?_eq_none_iff] at held
          omega
      | some slot =>
          cases slot with
          | none => exact ⟨i, none, rfl, Probe.Probes.empty held⟩
          | some p =>
              cases hits : hit p with
              | true => exact ⟨i, some p, by simp [hits], Probe.Probes.found held hits⟩
              | false =>
                  have differ : i ≠ empty := by
                    rintro rfl
                    simp [held] at free
                  have fewer := Probe.steps_down bound emptyBound differ
                  have move := probe_move (i := i) (Nat.zero_lt_of_lt bound)
                  rw [← size] at move
                  obtain ⟨j, result, run, rest⟩ :=
                    ih (Probe.down tp.tbls.length i) (Probe.down_lt bound) (by omega)
                  refine ⟨j, result, ?_, Probe.Probes.next held hits rest⟩
                  simp only [hits, Bool.false_eq_true, if_false, move]
                  exact run

theorem Sound.exists_empty {area : Area} (sound : Sound area tp k) :
    ∃ j : Nat, tp.tbls[j]? = some none := by
  apply Probe.exists_empty
  have positive : 0 < 2 ^ k := Nat.two_pow_pos k
  have := sound.count
  have := sound.free
  rw [sound.length]
  omega

theorem Sound.probeFrom_ends {area : Area} (sound : Sound area tp k) (hit : Addr → Bool)
    (h : BitVec 32) :
    ∃ j result, probeFrom tp hit h = .ok ((j : Nat), result) ∧
      Probe.Probes tp.tbls hit (homeSlot (2 ^ k : Nat) h).toNat (j, result) := by
  obtain ⟨empty, free⟩ := sound.exists_empty
  have emptyBound : empty < tp.tbls.length := (List.getElem?_eq_some_iff.mp free).1
  obtain ⟨nonneg, within⟩ := homeSlot_lt (k := k) (by have := sound.small; omega) h
  have bound : (homeSlot (2 ^ k : Nat) h).toNat < tp.tbls.length := by
    rw [sound.length]
    exact within
  have size : tp.size = tp.tbls.length := by rw [sound.size, sound.length]
  obtain ⟨j, result, run, probes⟩ :=
    probe_ends hit size free (tp.tbls.length + 1) _ bound
      (Nat.lt_succ_of_lt (Probe.steps_lt bound emptyBound))
  refine ⟨j, result, ?_, probes⟩
  unfold probeFrom
  rw [sound.size, ← run, Int.toNat_of_nonneg nonneg]

theorem Sound.transfer {area area' : Area} (sound : Sound area tp k)
    (names : ∀ p, p < area.next → area'.nameAt p = area.nameAt p) (later : area.next ≤ area'.next) :
    Sound area' tp k where
  small := sound.small
  size := sound.size
  length := sound.length
  free := sound.free
  count := sound.count
  chained := by
    intro j p held
    have same := names p (sound.handed p (List.mem_of_getElem? held))
    have reaches := sound.chained j p held
    unfold home at reaches ⊢
    rw [same]
    exact reaches
  distinct := by
    intro i j left right hleft hright same
    rw [names left (sound.handed left (List.mem_of_getElem? hleft)),
      names right (sound.handed right (List.mem_of_getElem? hright))] at same
    exact sound.distinct i j left right hleft hright same
  handed := fun p member => Nat.lt_of_lt_of_le (sound.handed p member) later

theorem Sound.fill_new {area : Area} (sound : Sound area tp k) (room : 0 < tp.nfree) {j : Nat}
    (empty : tp.tbls[j]? = some none) (reaches : Probe.Reaches tp.tbls (home area (2 ^ k) p) j)
    (unseen : ∀ q, some q ∈ tp.tbls → area.nameAt q ≠ area.nameAt p) (handed : p < area.next) :
    Sound area (fill tp (j : Int) p) k := by
  have bound := two_pow_le sound.small
  have count := sound.count
  have stored : short (tp.nfree - 1) = tp.nfree - 1 := short_of_small (by omega) (by omega)
  refine
    { small := sound.small, size := sound.size, length := ?_, free := ?_, count := ?_
      chained := ?_, distinct := ?_, handed := ?_ }
  · simpa [fill] using sound.length
  · simp only [fill, stored]
    omega
  · simp only [fill, stored, Int.toNat_natCast, Probe.countP_set_full empty]
    omega
  · simpa [fill] using sound.chained.set empty reaches
  · simpa [fill] using sound.distinct.set empty unseen
  · intro q member
    simp only [fill, Int.toNat_natCast, Probe.mem_set_iff empty] at member
    rcases member with rfl | member
    · exact handed
    · exact sound.handed q member

theorem mem_fill_iff {j : Nat} (empty : tp.tbls[j]? = some none) (p q : Addr) :
    some q ∈ (fill tp (j : Int) p).tbls ↔ q = p ∨ some q ∈ tp.tbls := by
  simp only [fill, Int.toNat_natCast]
  exact Probe.mem_set_iff empty

theorem freshTable_nothing (count : Nat) (q : Addr) :
    some q ∉ (freshTable (count : Int)).tbls := by
  intro member
  simp [freshTable, List.mem_replicate] at member

theorem short_eighty {count : Nat} (bound : count ≤ 16384) :
    short ((8 * (count : Int)).tdiv 10) = (8 * count / 10 : Nat) := by
  rw [Int.tdiv_eq_ediv_of_nonneg (by omega)]
  rw [short_of_small (by omega) (by omega)]
  omega

theorem freshTable_sound (area : Area) (small : k ≤ 14) :
    Sound area (freshTable (2 ^ k : Nat)) k := by
  have bound := two_pow_le small
  have stored := short_eighty bound
  refine
    { small := small, size := ?_, length := ?_, free := ?_, count := ?_
      chained := ?_, distinct := ?_, handed := ?_ }
  · simp only [freshTable]
    exact short_of_small (by omega) (by omega)
  · simp only [freshTable, Int.toNat_natCast, List.length_replicate]
  · simp only [freshTable, stored]
    omega
  · simp only [freshTable, stored, Int.toNat_natCast, List.countP_replicate]
    simp
  · exact Probe.Chained.replicate _ _
  · exact Probe.Distinct.replicate _ _
  · intro p member
    exact absurd member (freshTable_nothing _ p)

/-- The old slots still to be moved into the new table fit beside what it holds. -/
structure Movable (area : Area) (rest : List (Option Addr)) (tp : Table) : Prop where
  handed : ∀ p, some p ∈ rest → p < area.next
  distinct : rest.Pairwise fun left right =>
    ∀ p q, left = some p → right = some q → area.nameAt p ≠ area.nameAt q
  unseen : ∀ p q, some p ∈ rest → some q ∈ tp.tbls → area.nameAt q ≠ area.nameAt p
  fits : (rest.countP Option.isSome : Int) ≤ tp.nfree

theorem Movable.tail {area : Area} {slot : Option Addr} {rest : List (Option Addr)}
    (movable : Movable area (slot :: rest) tp) : Movable area rest tp where
  handed p member := movable.handed p (List.mem_cons_of_mem _ member)
  distinct := (List.pairwise_cons.mp movable.distinct).2
  unseen p q member held := movable.unseen p q (List.mem_cons_of_mem _ member) held
  fits := by
    have := movable.fits
    rw [List.countP_cons] at this
    omega

theorem rehash_sound {area : Area} :
    ∀ (rest : List (Option Addr)) (tp : Table), Sound area tp k → Movable area rest tp →
      ∃ tp', rehash area rest tp = .ok tp' ∧ Sound area tp' k ∧
        tp.nfree - rest.countP Option.isSome ≤ tp'.nfree ∧
        ∀ q, some q ∈ tp'.tbls ↔
          some q ∈ tp.tbls ∨ (some q ∈ rest ∧ (area.cell q).isDefined = true) := by
  intro rest
  induction rest with
  | nil =>
      intro tp sound movable
      exact ⟨tp, rfl, sound, by simp, by simp⟩
  | cons slot rest ih =>
      intro tp sound movable
      cases slot with
      | none =>
          obtain ⟨tp', run, sound', fewer, members⟩ := ih tp sound movable.tail
          refine ⟨tp', run, sound', by simpa using fewer, ?_⟩
          intro q
          simp [members q]
      | some p =>
          have fits := movable.fits
          rw [List.countP_cons, Option.isSome_some, if_pos rfl] at fits
          cases defined : (area.cell p).isDefined with
          | false =>
              obtain ⟨tp', run, sound', fewer, members⟩ := ih tp sound movable.tail
              refine ⟨tp', by simpa [rehash, defined] using run, sound', ?_, ?_⟩
              · rw [List.countP_cons]
                omega
              · intro q
                rw [members q, List.mem_cons, Option.some.injEq]
                constructor
                · rintro (held | ⟨member, isDefined⟩)
                  · exact Or.inl held
                  · exact Or.inr ⟨Or.inr member, isDefined⟩
                · rintro (held | ⟨rfl | member, isDefined⟩)
                  · exact Or.inl held
                  · simp [defined] at isDefined
                  · exact Or.inr ⟨member, isDefined⟩
          | true =>
              obtain ⟨j, result, probed, probes⟩ :=
                sound.probeFrom_ends (fun _ => false) (hash (area.cell p).name)
              obtain ⟨reaches, held, hits⟩ := probes.stop
              cases result with
              | some q => simpa using hits q rfl
              | none =>
                  have unseen : ∀ q, some q ∈ tp.tbls → area.nameAt q ≠ area.nameAt p :=
                    fun q => movable.unseen p q List.mem_cons_self
                  have filled : Sound area (fill tp (j : Int) p) k :=
                    sound.fill_new (by omega) held reaches unseen
                      (movable.handed p List.mem_cons_self)
                  have bound := two_pow_le sound.small
                  have count := sound.count
                  have stored : (fill tp (j : Int) p).nfree = tp.nfree - 1 :=
                    short_of_small (by omega) (by omega)
                  have rest' : Movable area rest (fill tp (j : Int) p) :=
                    { handed := movable.tail.handed
                      distinct := movable.tail.distinct
                      unseen := by
                        intro q other member inside
                        rw [mem_fill_iff held] at inside
                        rcases inside with rfl | inside
                        · exact (List.pairwise_cons.mp movable.distinct).1 _ member _ _ rfl rfl
                        · exact movable.tail.unseen q other member inside
                      fits := by omega }
                  obtain ⟨tp', run, sound', fewer, members⟩ := ih _ filled rest'
                  refine ⟨tp', ?_, sound', ?_, ?_⟩
                  · simp only [rehash, defined, if_true, probed]
                    exact run
                  · rw [List.countP_cons, Option.isSome_some, if_pos rfl]
                    omega
                  · intro q
                    rw [members q, mem_fill_iff held, List.mem_cons, Option.some.injEq]
                    constructor
                    · rintro ((rfl | before) | ⟨member, isDefined⟩)
                      · exact Or.inr ⟨Or.inl rfl, defined⟩
                      · exact Or.inl before
                      · exact Or.inr ⟨Or.inr member, isDefined⟩
                    · rintro (before | ⟨rfl | member, isDefined⟩)
                      · exact Or.inl (Or.inr before)
                      · exact Or.inl (Or.inl rfl)
                      · exact Or.inr ⟨member, isDefined⟩

theorem Sound.pairwise {area : Area} (sound : Sound area tp k) :
    tp.tbls.Pairwise fun left right =>
      ∀ p q, left = some p → right = some q → area.nameAt p ≠ area.nameAt q := by
  rw [List.pairwise_iff_getElem]
  intro i j iBound jBound less p q hp hq same
  have := sound.distinct i j p q (List.getElem?_eq_some_iff.mpr ⟨iBound, hp⟩)
    (List.getElem?_eq_some_iff.mpr ⟨jBound, hq⟩) same
  omega

theorem Sound.eq_of_name {area : Area} (sound : Sound area tp k) {q : Addr} (hp : some p ∈ tp.tbls)
    (hq : some q ∈ tp.tbls) (same : area.nameAt p = area.nameAt q) : p = q := by
  obtain ⟨i, left⟩ := List.mem_iff_getElem?.mp hp
  obtain ⟨j, right⟩ := List.mem_iff_getElem?.mp hq
  obtain rfl := sound.distinct i j p q left right same
  rw [left] at right
  cases right
  rfl

theorem eighty_double {count : Nat} (positive : 0 < count) :
    8 * count / 10 < 8 * (count * 2) / 10 := by
  rcases Nat.lt_or_ge count 2 with one | more
  · obtain rfl : count = 1 := by omega
    decide
  · omega

/-- Doubling a full table drops the deleted entries and makes room. -/
theorem Sound.texpand_grows {area : Area} (sound : Sound area tp k) (below : k < 14)
    (full : tp.nfree ≤ 0) :
    ∃ tp', texpand area tp (2 * tp.size) = .ok tp' ∧ Sound area tp' (k + 1) ∧
      0 < tp'.nfree ∧
      ∀ q, some q ∈ tp'.tbls ↔ some q ∈ tp.tbls ∧ (area.cell q).isDefined = true := by
  have fresh := freshTable_sound area (k := k + 1) below
  have twice : 2 * tp.size = (2 ^ (k + 1) : Nat) := by
    rw [sound.size, pow_succ]
    omega
  have positive := Nat.two_pow_pos k
  have nothing := freshTable_nothing (2 ^ (k + 1))
  have empty : (freshTable (2 ^ (k + 1) : Nat)).tbls.countP Option.isSome = 0 := by
    simp [freshTable, List.countP_replicate]
  have nfree : (freshTable (2 ^ (k + 1) : Nat)).nfree = (8 * (2 ^ k * 2) / 10 : Nat) := by
    have count := fresh.count
    omega
  have more := eighty_double positive
  have count := sound.count
  have free := sound.free
  have movable : Movable area tp.tbls (freshTable (2 ^ (k + 1) : Nat)) :=
    { handed := sound.handed
      distinct := sound.pairwise
      unseen := fun p q _ inside => absurd inside (nothing q)
      fits := by omega }
  obtain ⟨tp', run, sound', fewer, members⟩ := rehash_sound _ _ fresh movable
  have whole : tp.tbls.take tp.size.toNat = tp.tbls := by
    rw [sound.size, Int.toNat_natCast, List.take_of_length_le (by rw [sound.length])]
  refine ⟨tp', ?_, sound', by omega, ?_⟩
  · unfold texpand
    rw [whole, twice]
    exact run
  · intro q
    rw [members q]
    constructor
    · rintro (inside | kept)
      · exact absurd inside (nothing q)
      · exact kept
    · exact Or.inr

/-- A table that has no slots in use: never expanded, or expanded to a size whose
short is zero. -/
def Unused (tp : Table) : Prop :=
  tp.size = 0 ∧ ∀ p, some p ∉ tp.tbls

theorem Unused.texpand_first (unused : Unused tp) (area : Area) :
    texpand area tp INIT_TBLS = .ok (freshTable (2 ^ 3 : Nat)) := by
  unfold texpand
  rw [unused.1]
  rfl

/-! ## Searching and entering -/

/-- What `tenter` leaves behind: the entry it returns is stored under the name and
every other defined entry is where it was. -/
structure Entered (area : Area) (tp : Table) (n : Name) (area' : Area) (tp' : Table)
    (p : Addr) : Prop where
  sound : ∃ k, Sound area' tp' k
  stored : some p ∈ tp'.tbls
  name : area'.nameAt p = n
  former : p < area.next → area.nameAt p = n
  others : ∀ q, q ≠ p → area'.cell q = area.cell q
  kept : ∀ q, q ≠ p → (area.cell q).isDefined = true →
    (some q ∈ tp'.tbls ↔ some q ∈ tp.tbls)

theorem Sound.probe_stored {area : Area} (sound : Sound area tp k) (stored : some p ∈ tp.tbls)
    (hit : Addr → Bool) (hits : hit p = true)
    (only : ∀ q, hit q = true → area.nameAt q = area.nameAt p) :
    ∃ j : Nat, probeFrom tp hit (hash (area.nameAt p)) = .ok ((j : Int), some p) := by
  obtain ⟨j, result, run, probes⟩ := sound.probeFrom_ends hit (hash (area.nameAt p))
  obtain ⟨i, held⟩ := List.mem_iff_getElem?.mp stored
  obtain ⟨q, rfl⟩ := Probe.Probes.isSome_of_reaches (sound.chained i p held) held hits probes
  obtain ⟨_, found, hitsFound⟩ := probes.stop
  have same := sound.eq_of_name (List.mem_of_getElem? found) stored (only q (hitsFound q rfl))
  rw [same] at run
  exact ⟨j, run⟩

/-- Entering a name whose entry is in the table, deleted or not, returns that entry
and creates nothing. -/
theorem Sound.tenter_stored {area : Area} (sound : Sound area tp k) (stored : some p ∈ tp.tbls) :
    tenter area tp (area.nameAt p) (hash (area.nameAt p)) = .ok (area, tp, p) := by
  obtain ⟨j, run⟩ := sound.probe_stored stored
    (fun q => (area.cell q).name = area.nameAt p) (by simp [Area.nameAt])
    (fun q same => of_decide_eq_true same)
  have positive := Nat.two_pow_pos k
  have size : tp.size ≠ 0 := by
    rw [sound.size]
    omega
  simp only [tenter, if_neg size, tenterSearch, run]

theorem nameAt_write (area : Area) (p q : Addr) (tbl : Tbl) :
    (area.write p tbl).nameAt q = if q = p then tbl.name else area.nameAt q := by
  unfold Area.nameAt Area.write
  by_cases same : q = p <;> simp [same]

theorem Sound.tenterSearch_create {area : Area} (sound : Sound area tp k) (room : 0 < tp.nfree)
    {n : Name} (unseen : ∀ q, some q ∈ tp.tbls → area.nameAt q ≠ n) (fuel : Nat) :
    ∃ area' tp' p, tenterSearch n (hash n) (fuel + 1) area tp = .ok (area', tp', p) ∧
      Entered area tp n area' tp' p := by
  obtain ⟨j, result, run, probes⟩ :=
    sound.probeFrom_ends (fun p => (area.cell p).name = n) (hash n)
  obtain ⟨reaches, held, hits⟩ := probes.stop
  cases result with
  | some q =>
      exact absurd (of_decide_eq_true (hits q rfl)) (unseen q (List.mem_of_getElem? held))
  | none =>
      let area' : Area := { area.write area.next ⟨n, 0⟩ with next := area.next + 1 }
      have created : area'.nameAt area.next = n := by
        simp [area', Area.nameAt, Area.write]
      have others : ∀ q, q ≠ area.next → area'.cell q = area.cell q := by
        intro q differ
        simp [area', Area.write, differ]
      have transferred : Sound area' tp k := by
        refine sound.transfer ?_ (Nat.le_succ _)
        intro p handed
        unfold Area.nameAt
        rw [others p (Nat.ne_of_lt handed)]
      have distinct : ∀ q, some q ∈ tp.tbls → area'.nameAt q ≠ area'.nameAt area.next := by
        intro q member
        have differ : q ≠ area.next := Nat.ne_of_lt (sound.handed q member)
        rw [created]
        unfold Area.nameAt
        rw [others q differ]
        exact unseen q member
      have reachesHome : Probe.Reaches tp.tbls (home area' (2 ^ k) area.next) j := by
        unfold home
        rw [created]
        exact reaches
      refine ⟨area', fill tp (j : Int) area.next, area.next, ?_, ?_⟩
      · simp only [tenterSearch, run]
        rw [if_neg (by omega)]
      · exact
          { sound := ⟨k, transferred.fill_new room held reachesHome distinct (Nat.lt_succ_self _)⟩
            stored := (mem_fill_iff held _ _).mpr (Or.inl rfl)
            name := created
            former := fun less => absurd less (Nat.lt_irrefl _)
            others := others
            kept := by
              intro q differ _
              rw [mem_fill_iff held]
              simp [differ] }

theorem Entered.of_members {area : Area} {larger : Table} {n : Name} {area' : Area} {tp' : Table}
    (entered : Entered area larger n area' tp' p) (members : ∀ q, (area.cell q).isDefined = true →
      (some q ∈ larger.tbls ↔ some q ∈ tp.tbls)) : Entered area tp n area' tp' p where
  sound := entered.sound
  stored := entered.stored
  name := entered.name
  former := entered.former
  others := entered.others
  kept q differ defined := (entered.kept q differ defined).trans (members q defined)

/-- The call goes on to the step that stores `32768` into the short `size`. -/
def Overgrows (s : State) (n : Name) : Prop :=
  s.table.size = 16384 ∧ s.table.nfree ≤ 0 ∧
    ∀ p, some p ∈ s.table.tbls → s.area.nameAt p ≠ n

/-- The table is usable: not in use yet, or sound. -/
def Shaped (s : State) : Prop :=
  Unused s.table ∨ ∃ k, Sound s.area s.table k

theorem Sound.tenter_enters {area : Area} (sound : Sound area tp k) {n : Name}
    (fits : ¬ Overgrows ⟨area, tp⟩ n) :
    ∃ area' tp' p, tenter area tp n (hash n) = .ok (area', tp', p) ∧
      Entered area tp n area' tp' p := by
  by_cases present : ∃ p, some p ∈ tp.tbls ∧ area.nameAt p = n
  · obtain ⟨p, stored, rfl⟩ := present
    refine ⟨area, tp, p, sound.tenter_stored stored, ?_⟩
    exact
      { sound := ⟨k, sound⟩, stored := stored, name := rfl
        former := fun _ => rfl, others := fun _ _ => rfl
        kept := fun _ _ _ => Iff.rfl }
  · have unseen : ∀ q, some q ∈ tp.tbls → area.nameAt q ≠ n :=
      fun q member same => present ⟨q, member, same⟩
    have positive := Nat.two_pow_pos k
    have size : tp.size ≠ 0 := by
      rw [sound.size]
      omega
    simp only [tenter, if_neg size]
    by_cases room : 0 < tp.nfree
    · exact sound.tenterSearch_create room unseen 1
    · have below : k < 14 := by
        apply Nat.lt_of_le_of_ne sound.small
        rintro rfl
        exact fits ⟨sound.size, Int.not_lt.mp room, unseen⟩
      obtain ⟨larger, grown, soundLarger, roomLarger, members⟩ :=
        sound.texpand_grows below (by omega)
      obtain ⟨area', tp', p, run, entered⟩ :=
        soundLarger.tenterSearch_create roomLarger (n := n)
          (fun q member => unseen q ((members q).mp member).1) 0
      refine ⟨area', tp', p, ?_, entered.of_members ?_⟩
      · obtain ⟨j, result, probed, probes⟩ :=
          sound.probeFrom_ends (fun p => (area.cell p).name = n) (hash n)
        obtain ⟨_, held, hits⟩ := probes.stop
        cases result with
        | some q =>
            exact absurd (of_decide_eq_true (hits q rfl)) (unseen q (List.mem_of_getElem? held))
        | none =>
            rw [tenterSearch]
            simp only [probed]
            rw [if_pos (by omega)]
            simp only [grown]
            exact run
      · intro q defined
        simp [members q, defined]

/-- `tenter` succeeds on every usable table it does not overgrow. -/
theorem Shaped.tenter_enters {s : State} (shaped : Shaped s) {n : Name} (fits : ¬ Overgrows s n) :
    ∃ area' tp' p, tenter s.area s.table n (hash n) = .ok (area', tp', p) ∧
      Entered s.area s.table n area' tp' p := by
  rcases shaped with unused | ⟨k, sound⟩
  · have fresh := freshTable_sound s.area (k := 3) (by decide)
    have nothing := freshTable_nothing (2 ^ 3)
    obtain ⟨area', tp', p, run, entered⟩ :=
      fresh.tenterSearch_create (by decide) (n := n)
        (fun q member => absurd member (nothing q)) 1
    refine ⟨area', tp', p, ?_, entered.of_members ?_⟩
    · simp only [tenter, unused.1, if_true, unused.texpand_first]
      exact run
    · intro q _
      exact iff_of_false (nothing q) (unused.2 q)
  · exact sound.tenter_enters fits

end Netbase.Ksh
