import Mathlib
import Netbase.Awk.Eager

/-!
# The room for the fields

The fields are stored one after the other, each with a NUL behind it, and most
rules store one more NUL behind them all.  The buffer that the program begins
with has one byte less for that than the ones that follow it.
-/

namespace Netbase.Awk

open Netbase.Text

/-! ## Stores -/

/-- The bytes allocated for `fields`, and the size they are recorded with. -/
structure Room where
  allocated : Nat
  fieldssize : Nat

def recinit (n : Nat) : Room := ⟨n + 1, n⟩

/-- The room `fldbld` makes for a record. -/
def Room.fldbld (room : Room) (r : List Byte) : Room :=
  if r.length > room.fieldssize then ⟨r.length + 2, r.length⟩ else room

def Room.refldbld (room : Room) (rec : List Byte) : Room :=
  if rec.length > room.fieldssize then ⟨rec.length + 1, rec.length⟩ else room

/-- Where fields that are stored from the beginning end. -/
def spread (fields : List (List Byte)) : Nat := (fields.map (·.length + 1)).sum

/-- Where the stores of the loop of `refldbld` end, which gives up when the room is used up. -/
def refldStored (fieldssize : Nat) : Nat → List (List Byte) → Nat
  | fr, [] => fr
  | fr, [rec] =>
      if fieldssize + 1 - fr = 0 then fr else fr + min rec.length (fieldssize + 1 - fr - 1) + 1
  | fr, field :: fields =>
      if field.length ≥ fieldssize + 1 - fr then fr
      else refldStored fieldssize (fr + field.length + 1) fields

/-- The room for a record, and where the stores that are made for it end. -/
def Interp.store (awk : Interp) (inputFS RS r : List Byte) (room : Room) : Room × Nat :=
  let room := room.fldbld r
  let fields := awk.split inputFS RS r
  if awk.csv = false ∧ 1 < inputFS.length then
    let room := room.refldbld r
    (room, max 1 (refldStored room.fieldssize 0 fields))
  else if awk.csv = false ∧ inputFS = [] then (room, 1)
  else if awk.csv = false ∧ inputFS ≠ [blank] ∧ r = [] then (room, 0)
  else (room, spread fields + 1)

/-- A record with the separators it is split at. -/
structure Splitting where
  inputFS : List Byte
  RS : List Byte
  r : List Byte
  clean : 0 ∉ r

/-- Do all stores for these records stay in their room? -/
def Interp.Inside (awk : Interp) : Room → List Splitting → Prop
  | _, [] => True
  | room, s :: splittings =>
      (awk.store s.inputFS s.RS s.r room).2 ≤ (awk.store s.inputFS s.RS s.r room).1.allocated ∧
        Interp.Inside awk (awk.store s.inputFS s.RS s.r room).1 splittings

/-! ## What is stored -/

theorem spread_cons (field : List Byte) (fields : List (List Byte)) :
    spread (field :: fields) = field.length + 1 + spread fields := rfl

theorem refldStored_le (fieldssize : Nat) (fields : List (List Byte)) :
    ∀ {fr : Nat}, fr ≤ fieldssize + 1 → refldStored fieldssize fr fields ≤ fieldssize + 1 := by
  intro fr inside
  fun_induction refldStored fieldssize fr fields with
  | case1 => exact inside
  | case2 => exact inside
  | case3 fr rec some_ => omega
  | case4 => exact inside
  | case5 fr field fields _ more ih => exact ih (by omega)

theorem spread_sepFields (isSep : Byte → Bool) (r : List Byte) :
    spread (sepFields isSep r) = r.length + 1 := by
  induction r with
  | nil => rfl
  | cons c r ih =>
      rw [sepFields]
      split
      · rw [spread_cons, ih, List.length_nil, List.length_cons]
        omega
      · cases pieces : sepFields isSep r with
        | nil => exact absurd pieces (sepFields_ne_nil isSep r)
        | cons field fields =>
            rw [pieces, spread_cons] at ih
            rw [spread_cons, List.length_cons, List.length_cons]
            omega

/-- The pieces behind a separator, if there is one. -/
def behind (isSep : Byte → Bool) : List Byte → List (List Byte)
  | [] => []
  | _ :: rest => sepFields isSep rest

theorem sepFields_takeWhile (isSep : Byte → Bool) (r : List Byte) :
    sepFields isSep r =
      r.takeWhile (!isSep ·) :: behind isSep (r.dropWhile (!isSep ·)) := by
  induction r with
  | nil => rfl
  | cons c r ih =>
      rw [sepFields]
      cases sep : isSep c with
      | true => simp [sep, behind]
      | false => simp [sep, ih]

theorem spread_filter (pieces : List (List Byte)) :
    spread (pieces.filter (· ≠ [])) + pieces.count [] = spread pieces := by
  induction pieces with
  | nil => rfl
  | cons piece pieces ih =>
      cases piece with
      | nil => simp [spread_cons, ← ih]; omega
      | cons c piece => simp [spread_cons, ← ih]; omega

theorem blankFields_eq (r : List Byte) :
    blankFields r = (sepFields isBlank r).filter (· ≠ []) := by
  have skip (r : List Byte) : (sepFields isBlank r).filter (· ≠ []) =
      (sepFields isBlank (r.dropWhile isBlank)).filter (· ≠ []) := by
    induction r with
    | nil => rfl
    | cons c r ih =>
        cases sep : isBlank c with
        | true => simpa [sepFields, sep] using ih
        | false => simp [sep]
  fun_induction blankFields r with
  | case1 r skipped =>
      rw [skip, skipped]
      rfl
  | case2 r c rest skipped ih =>
      have word : isBlank c = false := by
        have head := List.head?_dropWhile_not isBlank r
        rw [skipped] at head
        simpa using head
      rw [skip, skipped, sepFields_takeWhile, ih]
      cases left : rest.dropWhile (!isBlank ·) with
      | nil => simp [word, left, sepFields, behind]
      | cons b t =>
          have sep : isBlank b = true := by
            have head := List.head?_dropWhile_not (!isBlank ·) rest
            rw [left] at head
            simpa using head
          simp [word, left, sepFields, sep, behind]

theorem quotedField_length (r : List Byte) :
    (quotedField r).1.length + (quotedField r).2.length ≤ r.length := by
  fun_induction quotedField r with
  | case1 => exact Nat.le_refl _
  | case2 => exact Nat.zero_le _
  | case3 => exact Nat.le_refl _
  | case4 c d r both ih =>
      simp only [List.length_cons]
      omega
  | case5 c d r both other => simp
  | case6 c d r both other ih =>
      simp only [List.length_cons] at ih ⊢
      omega

theorem csvField_length (r : List Byte) :
    (csvField r).1.length + (csvField r).2.length ≤ r.length := by
  cases r with
  | nil => exact Nat.le_refl _
  | cons c r =>
      rw [csvField]
      split
      · exact (quotedField_length r).trans (Nat.le_succ _)
      · rw [List.span_eq_takeWhile_dropWhile, ← List.length_append,
          List.takeWhile_append_dropWhile]

theorem spread_csv (fuel : Nat) : ∀ {r : List Byte}, r.length < fuel →
    spread (csvFieldsLoop fuel r) ≤ r.length + 1 ∧
      (spread (csvFieldsLoop fuel r) = r.length + 1 ↔
        ∀ piece ∈ sepFields (· = comma) r, piece.head? ≠ some quote) := by
  induction fuel with
  | zero => exact fun {r} few => absurd few (Nat.not_lt_zero _)
  | succ fuel ih =>
      intro r few
      have shrinks := csvField_length r
      have step : spread (csvFieldsLoop (fuel + 1) r) ≤
            (csvField r).1.length + (csvField r).2.length + 1 ∧
          (spread (csvFieldsLoop (fuel + 1) r) =
            (csvField r).1.length + (csvField r).2.length + 1 ↔
              ∀ piece ∈ behind (· = comma) (csvField r).2, piece.head? ≠ some quote) := by
        rw [csvFieldsLoop]
        cases field : csvField r with
        | mk f rest =>
            cases rest with
            | nil => exact ⟨Nat.le_refl _, iff_of_true rfl (by simp [behind])⟩
            | cons d r' =>
                rw [field, List.length_cons] at shrinks
                obtain ⟨most, tight⟩ := @ih r' (by omega)
                dsimp only [behind]
                rw [spread_cons, List.length_cons, ← tight]
                omega
      cases r with
      | nil => exact ⟨Nat.le_refl _, iff_of_true rfl (by simp [sepFields])⟩
      | cons c r =>
          have pieces := sepFields_takeWhile (· = comma) (c :: r)
          rw [pieces, List.forall_mem_cons]
          by_cases quoted_ : c = quote
          · subst quoted_
            have less := quotedField_length r
            rw [csvField, if_pos rfl] at step
            rw [List.length_cons]
            refine ⟨by omega, iff_of_false (by omega) fun all => all.1 ?_⟩
            rw [List.takeWhile_cons_of_pos (by decide)]
            rfl
          · have parts : csvField (c :: r) = ((c :: r).takeWhile (fun d => !decide (d = comma)),
                (c :: r).dropWhile (fun d => !decide (d = comma))) := by
              rw [csvField, if_neg quoted_, List.span_eq_takeWhile_dropWhile]
              simp only [ne_eq, decide_not]
            have whole := congrArg List.length
              (@List.takeWhile_append_dropWhile _ (fun d => !decide (d = comma)) (c :: r))
            rw [List.length_append] at whole
            rw [parts] at step
            rw [whole] at step
            have plain : ((c :: r).takeWhile fun d => !decide (d = comma)).head? ≠ some quote := by
              rw [List.takeWhile_cons]
              split
              · simpa using quoted_
              · simp
            exact ⟨step.1, step.2.trans (and_iff_right plain).symm⟩

/-! ## Runs -/

/-- A record that takes two bytes more than it has: the separators are single bytes, one between
any two fields. -/
def Interp.Tight (awk : Interp) (s : Splitting) : Prop :=
  if awk.csv then ∀ piece ∈ sepFields (· = comma) s.r, piece.head? ≠ some quote
  else s.inputFS.length = 1 ∧ (s.inputFS = [blank] → [] ∉ sepFields isBlank s.r)

/-- A tight record takes two bytes more than it has, and another one no more than one byte more
than the room is recorded with. -/
theorem Interp.store_tight (awk : Interp) (s : Splitting) {room : Room} (some_ : s.r ≠ [])
    (fits : s.r.length ≤ room.fieldssize) :
    (awk.store s.inputFS s.RS s.r room).1 = room ∧
      (awk.Tight s → (awk.store s.inputFS s.RS s.r room).2 = s.r.length + 2) ∧
      (¬awk.Tight s → (awk.store s.inputFS s.RS s.r room).2 ≤ room.fieldssize + 1) := by
  have same : room.fldbld s.r = room := if_neg (Nat.not_lt.mpr fits)
  have again : room.refldbld s.r = room := if_neg (Nat.not_lt.mpr fits)
  unfold Interp.store Interp.Tight
  rw [same]
  cases csv : awk.csv with
  | true =>
      have clean : s.r.takeWhile (· ≠ 0) = s.r := List.takeWhile_eq_self_iff.mpr fun c mem => by
        simpa using fun zero : c = 0 => s.clean (zero ▸ mem)
      have fields : awk.split s.inputFS s.RS s.r = csvFieldsLoop (s.r.length + 1) s.r := by
        simp only [Interp.split, csv, csvFields, clean, Bool.true_eq_false, false_and, if_false,
          if_true]
      obtain ⟨most, tight⟩ := spread_csv (s.r.length + 1) (Nat.lt_succ_self s.r.length)
      simp only [Bool.true_eq_false, false_and, if_false, if_true, fields]
      refine ⟨trivial, fun all => by rw [tight.mpr all], fun some_ => ?_⟩
      have less := Nat.lt_of_le_of_ne most fun full => some_ (tight.mp full)
      omega
  | false =>
      rcases fs : s.inputFS with _ | ⟨sep, _ | ⟨more, rest⟩⟩
      · simp
      · simp only [Interp.split, csv, some_]
        by_cases white : sep = blank
        · subst white
          have stored := spread_filter (sepFields isBlank s.r)
          rw [← blankFields_eq, spread_sepFields] at stored
          have empty := @List.count_pos_iff _ _ _ [] (sepFields isBlank s.r)
          simp
          refine ⟨fun all => ?_, fun surplus => ?_⟩
          · have := mt empty.mp all
            omega
          · have := empty.mpr surplus
            omega
        · simp [white, spread_sepFields]
      · have bound := refldStored_le room.fieldssize (awk.split (sep :: more :: rest) s.RS s.r)
          (Nat.zero_le _)
        simp [again]
        exact bound

theorem Interp.store_nil (awk : Interp) (inputFS RS : List Byte) (room : Room) :
    (awk.store inputFS RS [] room).1 = room ∧ (awk.store inputFS RS [] room).2 ≤ 1 := by
  have same : room.fldbld [] = room := if_neg (Nat.not_lt_zero _)
  have again : room.refldbld [] = room := if_neg (Nat.not_lt_zero _)
  have none_ : awk.split inputFS RS [] = [] := by
    unfold Interp.split
    split
    · exact if_pos rfl
    · split
      · rw [blankFields]
        rfl
      · split
        · rfl
        · cases inputFS with
          | nil => rw [charFields]
          | cons sep rest => exact if_pos rfl
  unfold Interp.store
  dsimp only
  rw [same, again, none_]
  split
  · exact ⟨rfl, Nat.le_refl _⟩
  · split
    · exact ⟨rfl, Nat.le_refl _⟩
    · split
      · exact ⟨rfl, Nat.zero_le _⟩
      · exact ⟨rfl, Nat.le_refl _⟩

theorem Room.fldbld_fits (room : Room) (r : List Byte) :
    r.length ≤ (room.fldbld r).fieldssize := by
  unfold Room.fldbld
  split
  · exact Nat.le_refl _
  · omega

/-- The stores for a record end two bytes behind the recorded size at the latest. -/
theorem Interp.store_le (awk : Interp) (s : Splitting) (room : Room) :
    (awk.store s.inputFS s.RS s.r room).1 = room.fldbld s.r ∧
      (awk.store s.inputFS s.RS s.r room).2 ≤ (room.fldbld s.r).fieldssize + 2 := by
  have fits := room.fldbld_fits s.r
  have made : awk.store s.inputFS s.RS s.r room =
      awk.store s.inputFS s.RS s.r (room.fldbld s.r) := by
    have again : (room.fldbld s.r).fldbld s.r = room.fldbld s.r := if_neg (Nat.not_lt.mpr fits)
    unfold Interp.store
    rw [again]
  rw [made]
  by_cases none_ : s.r = []
  · obtain ⟨same, most⟩ := awk.store_nil s.inputFS s.RS (room.fldbld s.r)
    rw [none_] at same most ⊢
    exact ⟨same, by omega⟩
  · obtain ⟨same, tight, loose⟩ := awk.store_tight s none_ fits
    refine ⟨same, ?_⟩
    by_cases all : awk.Tight s
    · rw [tight all]
      omega
    · exact (loose all).trans (Nat.le_succ _)

theorem Interp.inside_grown (awk : Interp) (records : List Splitting) :
    ∀ {room : Room}, room.allocated = room.fieldssize + 2 → awk.Inside room records := by
  induction records with
  | nil => exact fun {room} _ => trivial
  | cons s records ih =>
      intro room more
      obtain ⟨same, most⟩ := awk.store_le s room
      have kept : (room.fldbld s.r).allocated = (room.fldbld s.r).fieldssize + 2 := by
        unfold Room.fldbld
        split
        · rfl
        · exact more
      rw [Interp.Inside, same, kept]
      exact ⟨most, ih kept⟩

/-- The size the program begins with. -/
def RECSIZE : Nat := 8192

/-- The stores for a sequence of records stay in the room for the fields exactly when no record of
just the initial size takes two bytes more, unless a longer one came before it. -/
theorem Interp.inside_iff (awk : Interp) (records : List Splitting) :
    awk.Inside (recinit RECSIZE) records ↔
      ∀ front s back, records = front ++ s :: back → s.r.length = RECSIZE →
        (∀ t ∈ front, t.r.length ≤ RECSIZE) → ¬awk.Tight s := by
  induction records with
  | nil => exact iff_of_true trivial fun front s back parts => by simp at parts
  | cons s records ih =>
      have step : awk.Inside (recinit RECSIZE) (s :: records) ↔
          (s.r.length = RECSIZE → ¬awk.Tight s) ∧
            (s.r.length ≤ RECSIZE → awk.Inside (recinit RECSIZE) records) := by
        rw [Interp.Inside]
        by_cases long : s.r.length > RECSIZE
        · obtain ⟨same, most⟩ := awk.store_le s (recinit RECSIZE)
          have grown : (recinit RECSIZE).fldbld s.r = ⟨s.r.length + 2, s.r.length⟩ := if_pos long
          rw [grown] at same most
          rw [same]
          exact iff_of_true ⟨most, awk.inside_grown records rfl⟩
            ⟨fun size => absurd size long.ne', fun fits => absurd long (Nat.not_lt.mpr fits)⟩
        · have fits : s.r.length ≤ (recinit RECSIZE).fieldssize := Nat.le_of_not_lt long
          have short : s.r.length ≤ RECSIZE := fits
          by_cases none_ : s.r = []
          · obtain ⟨same, most⟩ := awk.store_nil s.inputFS s.RS (recinit RECSIZE)
            rw [none_, same]
            exact ⟨fun all => ⟨nofun, fun _ => all.2⟩,
              fun all => ⟨most.trans (by decide), all.2 (Nat.zero_le _)⟩⟩
          · obtain ⟨same, tight, loose⟩ := awk.store_tight s none_ fits
            rw [same]
            refine and_congr ⟨fun inside size all => ?_, fun all => ?_⟩ ⟨fun all _ => all,
              fun all => all short⟩
            · rw [tight all, size] at inside
              exact absurd inside (by decide)
            · by_cases snug : awk.Tight s
              · have other := fun size => all size snug
                rw [tight snug]
                change s.r.length + 2 ≤ RECSIZE + 1
                have := Nat.lt_of_le_of_ne short other
                omega
              · exact loose snug
      rw [step, ih]
      constructor
      · rintro ⟨here, later⟩ front t back parts size short
        cases front with
        | nil =>
            cases parts
            exact here size
        | cons first front =>
            cases parts
            exact later (short s List.mem_cons_self) front t back rfl size fun u mem =>
              short u (List.mem_cons_of_mem _ mem)
      · intro all
        refine ⟨fun size => all [] s records rfl size (by simp), fun fits front t back parts size
          short => all (s :: front) t back (congrArg (s :: ·) parts) size fun u mem => ?_⟩
        rcases List.mem_cons.mp mem with rfl | later
        · exact fits
        · exact short u later

theorem Interp.inside_long : ¬∀ (awk : Interp) (records : List Splitting),
    awk.Inside (recinit RECSIZE) records := by
  intro claim
  obtain ⟨r, size, all⟩ : ∃ r : List Byte, r.length = RECSIZE ∧ ∀ c ∈ r, c = byte 'a' :=
    ⟨List.replicate RECSIZE (byte 'a'), List.length_replicate, fun c => List.eq_of_mem_replicate⟩
  let s : Splitting := ⟨[comma], [nl], r, fun mem => absurd (all 0 mem) (by decide)⟩
  have nonempty : s.r ≠ [] := List.ne_nil_of_length_pos (size ▸ by decide)
  obtain ⟨same, tight, -⟩ := @Interp.store_tight plain s (recinit RECSIZE) nonempty size.le
  have inside := (claim plain [s]).1
  have other : [comma] ≠ [blank] := by decide
  rw [same, tight ⟨rfl, fun white => absurd white other⟩] at inside
  change r.length + 2 ≤ RECSIZE + 1 at inside
  omega

end Netbase.Awk
