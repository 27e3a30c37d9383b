import Netbase.Ksh.Table

/-!
# Runs of calls on a hashed table

Any sequence of entering, deleting and searching keeps the table usable and keeps
it in step with the history: a search returns the entry last entered under the
name and not deleted since.  The sequence may not drive the table past 16384
slots, because the next size does not fit the short it is stored in.
-/

namespace Netbase.Ksh

open Netbase.Lib

def Agrees (s : State) (events : List Event) : Prop :=
  ∀ n p, lastEntered events n = some p ↔
    some p ∈ s.table.tbls ∧ s.area.nameAt p = n ∧ (s.area.cell p).isDefined = true

structure Valid (s : State) (events : List Event) : Prop where
  shaped : Shaped s
  agrees : Agrees s events

variable {s : State}

theorem Shaped.handed (shaped : Shaped s) {p : Addr} (stored : some p ∈ s.table.tbls) :
    p < s.area.next := by
  rcases shaped with unused | ⟨k, sound⟩
  · exact absurd stored (unused.2 p)
  · exact sound.handed p stored

theorem mytdelete_isDefined (area : Area) (p q : Addr) :
    ((mytdelete area p).cell q).isDefined = true ↔
      q ≠ p ∧ (area.cell q).isDefined = true := by
  unfold mytdelete Area.write
  by_cases same : q = p
  · simp [same, Tbl.isDefined]
  · simp [same]

theorem mytdelete_nameAt (area : Area) (p q : Addr) :
    (mytdelete area p).nameAt q = area.nameAt q := by
  unfold mytdelete
  rw [nameAt_write]
  split
  · subst q
    rfl
  · rfl

theorem or_defined (flag : BitVec 32) : ¬ (flag ||| DEFINED) &&& DEFINED = 0#32 := by
  intro cleared
  have bit := congrArg (fun word => word.getLsbD 1) cleared
  simp [DEFINED] at bit

theorem setDefined_isDefined (area : Area) (p q : Addr) :
    ((setDefined area p).cell q).isDefined = true ↔
      q = p ∨ (area.cell q).isDefined = true := by
  unfold setDefined Area.write
  by_cases same : q = p
  · simp [same, Tbl.isDefined, or_defined]
  · simp [same]

theorem setDefined_nameAt (area : Area) (p q : Addr) :
    (setDefined area p).nameAt q = area.nameAt q := by
  unfold setDefined
  rw [nameAt_write]
  split
  · subst q
    rfl
  · rfl

theorem Valid.mytsearch_eq {events : List Event} (valid : Valid s events) (n : Name) :
    mytsearch s.area s.table n (hash n) = .ok (lastEntered events n) := by
  rcases valid.shaped with unused | ⟨k, sound⟩
  · have nothing : lastEntered events n = none := by
      cases entered : lastEntered events n with
      | none => rfl
      | some p => exact absurd ((valid.agrees n p).mp entered).1 (unused.2 p)
    simp only [mytsearch, unused.1, if_true, nothing]
  · have positive := Nat.two_pow_pos k
    have size : s.table.size ≠ 0 := by
      rw [sound.size]
      omega
    simp only [mytsearch, if_neg size]
    cases entered : lastEntered events n with
    | some p =>
        obtain ⟨stored, rfl, defined⟩ := (valid.agrees n p).mp entered
        obtain ⟨j, run⟩ := sound.probe_stored stored
          (fun q => (s.area.cell q).name = s.area.nameAt p &&
            (s.area.cell q).isDefined)
          (by simp [Area.nameAt, defined])
          (fun q hits => of_decide_eq_true (Bool.and_eq_true _ _ ▸ hits).1)
        simp only [run]
    | none =>
        obtain ⟨j, result, run, probes⟩ := sound.probeFrom_ends
          (fun q => (s.area.cell q).name = n && (s.area.cell q).isDefined) (hash n)
        obtain ⟨_, held, hits⟩ := probes.stop
        cases result with
        | none => simp only [run]
        | some q =>
            have found := hits q rfl
            simp only [Bool.and_eq_true, decide_eq_true_eq] at found
            have known := (valid.agrees n q).mpr
              ⟨List.mem_of_getElem? held, found.1, found.2⟩
            rw [entered] at known
            cases known

theorem Valid.delete {events : List Event} (valid : Valid s events) (p : Addr) :
    Valid ⟨mytdelete s.area p, s.table⟩ (.deleted p :: events) where
  shaped := by
    rcases valid.shaped with unused | ⟨k, sound⟩
    · exact Or.inl unused
    · exact Or.inr ⟨k, sound.transfer (fun q _ => mytdelete_nameAt s.area p q) (Nat.le_refl _)⟩
  agrees := by
    intro n q
    have before := valid.agrees n q
    simp only [mytdelete_nameAt, mytdelete_isDefined, lastEntered]
    by_cases gone : lastEntered events n = some p
    · simp only [if_pos gone]
      constructor
      · intro impossible
        cases impossible
      · rintro ⟨stored, named, differ, defined⟩
        have known := before.mpr ⟨stored, named, defined⟩
        rw [gone] at known
        cases known
        exact absurd rfl differ
    · simp only [if_neg gone]
      constructor
      · intro known
        obtain ⟨stored, named, defined⟩ := before.mp known
        refine ⟨stored, named, ?_, defined⟩
        rintro rfl
        exact gone known
      · rintro ⟨stored, named, _, defined⟩
        exact before.mpr ⟨stored, named, defined⟩

theorem Valid.enter {events : List Event} (valid : Valid s events) {n : Name} {area' : Area}
    {tp' : Table} {p : Addr} (entered : Entered s.area s.table n area' tp' p) :
    Valid ⟨setDefined area' p, tp'⟩ (.entered n p :: events) where
  shaped := by
    obtain ⟨k, sound⟩ := entered.sound
    exact Or.inr ⟨k, sound.transfer (fun q _ => setDefined_nameAt area' p q) (Nat.le_refl _)⟩
  agrees := by
    obtain ⟨k, sound⟩ := entered.sound
    intro m q
    have before := valid.agrees m q
    simp only [setDefined_nameAt, setDefined_isDefined, lastEntered]
    by_cases same : n = m
    · subst m
      simp only [if_true, Option.some.injEq]
      constructor
      · rintro rfl
        exact ⟨entered.stored, entered.name, Or.inl rfl⟩
      · rintro ⟨stored, named, _⟩
        exact sound.eq_of_name entered.stored stored (entered.name.trans named.symm)
    · simp only [if_neg same]
      have apart : area'.nameAt q = m → q ≠ p := by
        rintro named rfl
        exact same (entered.name.symm.trans named)
      constructor
      · intro known
        obtain ⟨stored, named, defined⟩ := before.mp known
        have differ : q ≠ p := by
          rintro rfl
          exact same ((entered.former (valid.shaped.handed stored)).symm.trans named)
        have cell := entered.others q differ
        refine ⟨(entered.kept q differ defined).mpr stored, ?_, Or.inr ?_⟩
        · unfold Area.nameAt
          rw [cell]
          exact named
        · rw [cell]
          exact defined
      · rintro ⟨stored, named, defined⟩
        have differ := apart named
        have cell := entered.others q differ
        rw [or_iff_right differ, cell] at defined
        refine before.mpr ⟨(entered.kept q differ defined).mp stored, ?_, defined⟩
        unfold Area.nameAt at named ⊢
        rw [← cell]
        exact named

/-- The calls stay within the sizes a short can hold: no call in turn overgrows. -/
def Fitting : List Call → State → Prop
  | [], _ => True
  | call :: rest, s =>
      (∀ n, call = .enter n → ¬ Overgrows s n) ∧
        ∀ s' event, perform s call = .ok (s', event) → Fitting rest s'

theorem Valid.perform {events : List Event} (valid : Valid s events) {call : Call}
    (fits : ∀ n, call = .enter n → ¬ Overgrows s n) :
    ∃ s' event, perform s call = .ok (s', event) ∧ Valid s' (event :: events) := by
  cases call with
  | enter n =>
      obtain ⟨area', tp', p, run, entered⟩ := valid.shaped.tenter_enters (fits n rfl)
      refine ⟨⟨setDefined area' p, tp'⟩, .entered n p, ?_, valid.enter entered⟩
      simp only [Ksh.perform, run]
  | delete p => exact ⟨_, _, rfl, valid.delete p⟩
  | search n =>
      refine ⟨s, .searched n (lastEntered events n), ?_, valid.shaped, valid.agrees⟩
      simp only [Ksh.perform, valid.mytsearch_eq n]

theorem Valid.performAll (calls : List Call) :
    ∀ {s : State} {events : List Event}, Valid s events → Fitting calls s →
      ∃ s' events', performAll calls s events = .ok (s', events') ∧ Valid s' events' := by
  induction calls with
  | nil => exact fun valid _ => ⟨_, _, rfl, valid⟩
  | cons call rest ih =>
      intro s events valid fitting
      obtain ⟨s', event, run, valid'⟩ := valid.perform fitting.1
      obtain ⟨last, events', runRest, validLast⟩ := ih valid' (fitting.2 s' event run)
      refine ⟨last, events', ?_, validLast⟩
      simp only [Ksh.performAll, run]
      exact runRest

/-- Zero, or a power of two in the range of `int` other than the one whose short is
negative. -/
def UsableSize (tsize : Int) : Prop :=
  tsize = 0 ∨ ∃ k : Nat, k < 31 ∧ k ≠ 15 ∧ tsize = (2 ^ k : Nat)

theorem short_two_pow_large {k : Nat} (large : 16 ≤ k) : short (2 ^ k : Nat) = 0 := by
  obtain ⟨more, rfl⟩ := Nat.exists_eq_add_of_le large
  unfold short
  rw [pow_add, Int.natCast_mul]
  exact Int.mul_bmod_right _ _

theorem start_valid {tsize : Int} (usable : UsableSize tsize) :
    ∃ s, start tsize = .ok s ∧ Valid s [] := by
  have none_entered : ∀ (s : State), (∀ p, some p ∉ s.table.tbls) → Agrees s [] :=
    fun s nothing n p => iff_of_false (by simp [lastEntered]) (fun held => nothing p held.1)
  rcases usable with rfl | ⟨k, _, notFifteen, rfl⟩
  · exact ⟨_, rfl, Or.inl ⟨rfl, by simp⟩, none_entered _ (by simp)⟩
  · have positive := Nat.two_pow_pos k
    have nonzero : ((2 ^ k : Nat) : Int) ≠ 0 := by omega
    refine ⟨⟨⟨0, fun _ => ⟨[], 0⟩⟩, freshTable (2 ^ k : Nat)⟩, ?_, ?_,
      none_entered _ (freshTable_nothing _)⟩
    · simp only [start, tinit, if_neg nonzero, texpand, List.take_nil, rehash]
    · rcases Nat.lt_or_ge k 15 with small | large
      · exact Or.inr ⟨k, freshTable_sound _ (by omega)⟩
      · have size : (freshTable (2 ^ k : Nat)).size = 0 := by
          simp only [freshTable]
          exact short_two_pow_large (by omega)
        exact Or.inl ⟨size, freshTable_nothing _⟩

/-- Starting from any usable size, after every sequence of calls that fits: a search
returns the entry last entered and not deleted since, a table with slots has a null
one, and entering a name whose entry is still stored returns that entry. -/
theorem table_run {tsize : Int} (usable : UsableSize tsize) (calls : List Call) :
    ∃ s, start tsize = .ok s ∧ (Fitting calls s →
      ∃ s' events, performAll calls s [] = .ok (s', events) ∧
        (∀ n, mytsearch s'.area s'.table n (hash n) = .ok (lastEntered events n)) ∧
        (s'.table.size ≠ 0 → ∃ j : Nat, s'.table.tbls[j]? = some none) ∧
        Probe.Distinct s'.table.tbls s'.area.nameAt ∧
        ∀ p, some p ∈ s'.table.tbls →
          tenter s'.area s'.table (s'.area.nameAt p) (hash (s'.area.nameAt p)) =
            .ok (s'.area, s'.table, p)) := by
  obtain ⟨s, started, valid⟩ := start_valid usable
  refine ⟨s, started, fun fitting => ?_⟩
  obtain ⟨s', events, run, valid'⟩ := valid.performAll calls fitting
  refine ⟨s', events, run, valid'.mytsearch_eq, ?_⟩
  rcases valid'.shaped with unused | ⟨k, sound⟩
  · refine ⟨fun inUse => absurd unused.1 inUse, ?_, fun p held => absurd held (unused.2 p)⟩
    intro i j left right held
    exact absurd (List.mem_of_getElem? held) (unused.2 left)
  · exact ⟨fun _ => sound.exists_empty, sound.distinct, fun p held => sound.tenter_stored held⟩

/-- One name entered and then looked for in a table that starts without slots. -/
theorem table_run_one_name :
    UsableSize 0 ∧ ∃ s s' events, start 0 = .ok s ∧
      performAll [.enter [97], .search [97]] s [] = .ok (s', events) ∧
      mytsearch s'.area s'.table [97] (hash [97]) = .ok (lastEntered events [97]) := by
  refine ⟨Or.inl rfl, ?_⟩
  obtain ⟨s, started, run⟩ := table_run (Or.inl rfl : UsableSize 0) [.enter [97], .search [97]]
  have fresh : s.table.size = 0 := by
    cases started
    rfl
  have fitting : Fitting [.enter [97], .search [97]] s := by
    refine ⟨?_, fun s' event _ => ⟨?_, fun _ _ _ => trivial⟩⟩
    · rintro n _ ⟨grown, _⟩
      rw [fresh] at grown
      cases grown
    · rintro n impossible
      cases impossible
  obtain ⟨s', events, performed, searched, _⟩ := run fitting
  exact ⟨s, s', events, started, performed, searched [97]⟩

/-! ## The size that does not fit -/

theorem freshTable_32768_length : (freshTable 32768).tbls.length = 32768 := by
  unfold freshTable
  rw [List.length_replicate]
  rfl

theorem freshTable_32768_size : (freshTable 32768).size = -32768 := by
  simp only [freshTable]
  decide

/-- In a table of `32768` slots the stored size is negative and a hash above 65535
leads outside the slots. -/
theorem probeFrom_outside {tp : Table} (size : tp.size = -32768)
    (length : tp.tbls.length = 32768) (hit : Addr → Bool) {h : BitVec 32}
    (large : 65536 ≤ h.toNat) : probeFrom tp hit h = .error .outside := by
  have mask : (BitVec.ofInt 32 (-32768 - 1)).toNat = 4294934527 := by decide
  have far : 32768 ≤ h.toNat &&& 4294934527 := by
    have high : (h.toNat &&& 4294934527) >>> 16 = h.toNat >>> 16 % 2 ^ 16 := by
      rw [Nat.shiftRight_and_distrib, ← Nat.and_two_pow_sub_one_eq_mod]
      rfl
    simp only [Nat.shiftRight_eq_div_pow] at high
    omega
  unfold probeFrom homeSlot probe
  rw [size, BitVec.toNat_and, mask, slotAt_natCast,
    List.getElem?_eq_none (by rw [length]; exact far)]

theorem hash_a_large : 65536 ≤ (hash [97]).toNat := by decide

theorem start_32768 :
    start 32768 = .ok ⟨⟨0, fun _ => ⟨[], 0⟩⟩, freshTable 32768⟩ := by
  simp [start, tinit, texpand, rehash]

theorem mytsearch_32768 (area : Area) :
    mytsearch area (freshTable 32768) [97] (hash [97]) = .error .outside := by
  have nonzero : (freshTable 32768).size ≠ 0 := by
    rw [freshTable_32768_size]
    decide
  simp only [mytsearch, if_neg nonzero,
    probeFrom_outside freshTable_32768_size freshTable_32768_length _ hash_a_large]

/-- A table initialised with 32768 slots faults on the first search, where nothing
has been entered and the search should answer so. -/
theorem mytsearch_outside_32768 :
    ∃ s, start 32768 = .ok s ∧ lastEntered [] [97] = none ∧
      mytsearch s.area s.table [97] (hash [97]) = .error .outside := by
  exact ⟨_, start_32768, rfl, mytsearch_32768 _⟩

end Netbase.Ksh
