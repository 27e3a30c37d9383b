import Mathlib.Data.List.Count
import Netbase.Csplit.Overflow

/-!
# Winding the overflow file back

`toomuch` looks for the lines that are thrown back in whole buffers from the end
of the file, and counts the newlines that are left as it goes.  It stops when
none is left, also at the start of a buffer that a line runs across, and reads
the whole of the first buffer when only a part of it is left.
-/

namespace Netbase.Csplit

open Netbase.Text

/-! ## One buffer -/

theorem scanBack_short (rev : List Byte) :
    ∀ {i n : Nat}, rev.count nl ≤ n →
      scanBack rev i n = (i + rev.length, (n : Int) - rev.count nl) := by
  induction rev with
  | nil => exact fun {i n} _ => by simp [scanBack]
  | cons c rest ih =>
      intro i n few
      rw [scanBack]
      by_cases newline : c = nl
      · subst newline
        rw [List.count_cons_self] at few ⊢
        obtain ⟨m, rfl⟩ : ∃ m, n = m + 1 := ⟨n - 1, by omega⟩
        rw [if_pos rfl, if_neg (by omega), Int.natCast_add, Int.natCast_one,
          Int.add_sub_cancel, ih (by omega)]
        rw [List.length_cons, Nat.add_right_comm, Nat.add_assoc]
        congr 1
        omega
      · rw [List.count_cons_of_ne newline] at few ⊢
        rw [if_neg newline, ih few, List.length_cons, Nat.add_right_comm, Nat.add_assoc]

theorem scanBack_found (rev rest : List Byte) :
    ∀ {i n : Nat}, rev.count nl = n → scanBack (rev ++ nl :: rest) i n = (i + rev.length, -1) := by
  induction rev with
  | nil =>
      rintro i n rfl
      rw [List.nil_append, scanBack, if_pos rfl]
      rfl
  | cons c rev ih =>
      intro i n same
      rw [List.cons_append, scanBack]
      by_cases newline : c = nl
      · subst newline
        rw [List.count_cons_self] at same
        subst same
        rw [if_pos rfl, if_neg (by omega), Int.natCast_add, Int.natCast_one,
          Int.add_sub_cancel, ih rfl]
        rw [List.length_cons, Nat.add_right_comm, Nat.add_assoc]
      · rw [List.count_cons_of_ne newline] at same
        rw [if_neg newline, ih same, List.length_cons, Nat.add_right_comm, Nat.add_assoc]

theorem scanBack_count (rev : List Byte) : ∀ {i n : Nat}, ∃ j, j ≤ rev.length ∧
    (scanBack rev i n).1 = i + j ∧ (rev.take j).count nl ≤ n := by
  induction rev with
  | nil => exact fun {i n} => ⟨0, Nat.le_refl _, rfl, Nat.zero_le _⟩
  | cons c rest ih =>
      intro i n
      rw [scanBack]
      by_cases newline : c = nl
      · subst newline
        cases n with
        | zero => exact ⟨0, Nat.zero_le _, rfl, Nat.zero_le _⟩
        | succ m =>
            obtain ⟨j, inside, stop, few⟩ := @ih (i + 1) m
            rw [if_pos rfl, if_neg (by omega), Int.natCast_add, Int.natCast_one,
              Int.add_sub_cancel, stop]
            refine ⟨j + 1, Nat.succ_le_succ inside, by omega, ?_⟩
            rw [List.take_succ_cons, List.count_cons_self]
            exact Nat.succ_le_succ few
      · obtain ⟨j, inside, stop, few⟩ := @ih (i + 1) n
        rw [if_neg newline, stop]
        refine ⟨j + 1, Nat.succ_le_succ inside, by omega, ?_⟩
        rwa [List.take_succ_cons, List.count_cons_of_ne newline]

/-! ## One line -/

/-- Lines as they are written. -/
def written (bodies : List (List Byte)) : List Byte := (bodies.map (· ++ [nl])).flatten

theorem count_written {bodies : List (List Byte)} (clean : ∀ body ∈ bodies, nl ∉ body) :
    (written bodies).count nl = bodies.length := by
  induction bodies with
  | nil => rfl
  | cons body bodies ih =>
      have none_ := List.count_eq_zero.mpr (clean body List.mem_cons_self)
      have rest := ih fun other mem => clean other (List.mem_cons_of_mem _ mem)
      unfold written at rest ⊢
      rw [List.map_cons, List.flatten_cons, List.count_append, List.count_append, none_, rest,
        List.length_cons, List.count_singleton_self]
      omega

/-- The line `body` stands at `t` in `file`. -/
structure Stands (file body : List Byte) (t : Nat) : Prop where
  clean : nl ∉ body
  here : ∃ rest, file.drop t = body ++ nl :: rest
  behind : t = 0 ∨ ∃ front, file.take t = front ++ [nl]

/-- The newlines between two places. -/
def newlines (file : List Byte) (a b : Nat) : Nat := ((file.drop a).take (b - a)).count nl

theorem newlines_add (file : List Byte) {a b c : Nat} (ab : a ≤ b) (bc : b ≤ c) :
    newlines file a c = newlines file a b + newlines file b c := by
  unfold newlines
  rw [← List.count_append]
  congr 1
  rw [show c - a = b - a + (c - b) by omega, List.take_add, List.drop_drop,
    Nat.add_sub_cancel' ab]

section

variable {file body : List Byte} {t pos : Nat}

theorem Stands.bound (stands : Stands file body t) : t + body.length + 1 ≤ file.length := by
  obtain ⟨rest, here⟩ := stands.here
  have all := congrArg List.length here
  rw [List.length_drop, List.length_append, List.length_cons] at all
  omega

/-- A newline comes after the line begins as soon as all of it does. -/
theorem Stands.newlines_pos (stands : Stands file body t) :
    newlines file t pos = 0 ↔ pos ≤ t + body.length := by
  obtain ⟨rest, here⟩ := stands.here
  unfold newlines
  rw [here, List.count_eq_zero]
  by_cases short : pos - t ≤ body.length
  · rw [List.take_append_of_le_length short]
    exact iff_of_true (fun mem => stands.clean (List.mem_of_mem_take mem)) (by omega)
  · refine iff_of_false (fun none_ => none_ ?_) (by omega)
    rw [List.take_append, show pos - t - body.length = pos - t - body.length - 1 + 1 by omega,
      List.take_succ_cons]
    exact List.mem_append_right _ List.mem_cons_self

/-- In a buffer that begins at the line or in front of it the scan comes to the line. -/
theorem Stands.scan (stands : Stands file body t) {start size n : Nat} (here : start ≤ t)
    (after : t ≤ start + size) (fits : start + size ≤ file.length)
    (same : newlines file t (start + size) = n) :
    scanBack ((file.drop start).take size).reverse 1 n =
      (1 + (start + size - t), if t = start then 0 else -1) := by
  have cut : (file.drop start).take size =
      (file.take t).drop start ++ (file.drop t).take (start + size - t) := by
    rw [show size = t - start + (start + size - t) by omega, List.take_add, List.drop_drop,
      Nat.add_sub_cancel' here, ← List.drop_take]
    congr 3
    omega
  have tail : ((file.drop t).take (start + size - t)).length = start + size - t := by
    rw [List.length_take, List.length_drop]
    omega
  have counted : ((file.drop t).take (start + size - t)).reverse.count nl = n := by
    rw [List.count_reverse]
    exact same
  rw [cut, List.reverse_append]
  by_cases first : t = start
  · subst first
    have empty : (file.take t).drop t = [] := List.drop_eq_nil_of_le (List.length_take_le _ _)
    rw [empty, List.reverse_nil, List.append_nil, if_pos rfl, scanBack_short _ counted.le, counted,
      List.length_reverse, tail, Int.sub_self]
  · obtain zero | ⟨front, before⟩ := stands.behind
    · omega
    · have long := congrArg List.length before
      rw [List.length_take, List.length_append, List.length_singleton] at long
      rw [before, List.drop_append_of_le_length (by omega), List.reverse_append,
        List.reverse_singleton, List.singleton_append, scanBack_found _ _ counted, if_neg first,
        List.length_reverse, tail]

theorem scan_behind {start size n : Nat} (here : t < start) (fits : start + size ≤ file.length)
    (same : newlines file t (start + size) = n) :
    scanBack ((file.drop start).take size).reverse 1 n =
      (1 + size, (newlines file t start : Int)) := by
  have parts := newlines_add file here.le (Nat.le_add_right start size)
  have part : newlines file start (start + size) = ((file.drop start).take size).count nl := by
    rw [newlines, Nat.add_sub_cancel_left]
  rw [scanBack_short, List.count_reverse, List.length_reverse, List.length_take, List.length_drop,
    Nat.min_eq_left (by omega), ← part]
  · congr 1
    omega
  · rw [List.count_reverse, ← part]
    omega

/-! ## Block by block -/

/-- Some buffer begins within the line, behind its first byte. -/
def Straddled (body : List Byte) (t bufsiz pos : Nat) : Prop :=
  ∃ k, t < pos - k * bufsiz ∧ pos - k * bufsiz ≤ t + body.length

/-- The line is in the first buffer, and newlines stand there that are in the next one too. -/
def ReadTwice (file : List Byte) (t bufsiz pos : Nat) : Prop :=
  t < pos % bufsiz ∧ nl ∈ (file.take bufsiz).drop (pos % bufsiz)

theorem straddled_sub {bufsiz : Nat} (behind : t + body.length < pos) :
    Straddled body t bufsiz pos ↔ Straddled body t bufsiz (pos - bufsiz) := by
  constructor
  · rintro ⟨k, low, high⟩
    cases k with
    | zero => rw [Nat.zero_mul] at high; omega
    | succ k =>
        rw [Nat.succ_mul, Nat.add_comm, ← Nat.sub_sub] at low high
        exact ⟨k, low, high⟩
  · rintro ⟨k, low, high⟩
    rw [Nat.sub_sub, Nat.add_comm, ← Nat.succ_mul] at low high
    exact ⟨k + 1, low, high⟩

theorem readTwice_sub {bufsiz : Nat} (room : bufsiz ≤ pos) :
    ReadTwice file t bufsiz pos ↔ ReadTwice file t bufsiz (pos - bufsiz) := by
  rw [ReadTwice, ReadTwice, Nat.mod_eq_sub_mod room]

theorem Stands.windBack_first (sizes : Sizes) (stands : Stands file body t) {n : Nat}
    (short : pos < sizes.bufsiz) (inside : pos ≤ file.length) (behind : t + body.length < pos)
    (same : newlines file t pos = n) :
    ∃ ofs, windBack sizes file 0 pos n = some ofs ∧
      (ofs = t ↔ nl ∉ (file.take sizes.bufsiz).drop pos) := by
  obtain ⟨m, fits, room, first⟩ : ∃ m, m ≤ file.length ∧ pos ≤ m ∧
      file.take sizes.bufsiz = file.take m :=
    ⟨min sizes.bufsiz file.length, Nat.min_le_right _ _, by omega, List.take_eq_take_min⟩
  have long : (file.take m).length = m := List.length_take_of_le fits
  have parts := newlines_add file (by omega : t ≤ pos) room
  have rest : newlines file pos m = ((file.take m).drop pos).count nl := by
    rw [newlines, List.drop_take]
  rw [windBack, if_pos short]
  dsimp only
  rw [List.drop_zero, first, long, if_neg (by omega), if_pos rfl]
  refine ⟨_, rfl, ⟨fun right mem => ?_, fun clean => ?_⟩⟩
  · obtain ⟨j, at_, stop, few⟩ := @scanBack_count (file.take m).reverse 1 n
    rw [List.length_reverse, long] at at_
    have place : m - j = t := by omega
    have some_ := List.count_pos_iff.mpr mem
    rw [List.take_reverse, long, place, List.count_reverse, List.drop_take] at few
    change newlines file t m ≤ n at few
    omega
  · have none_ := List.count_eq_zero.mpr clean
    have scan := stands.scan (Nat.zero_le t) (by omega : t ≤ 0 + m) (by omega)
      (by rw [Nat.zero_add]; omega : newlines file t (0 + m) = n)
    rw [List.drop_zero] at scan
    rw [scan]
    omega

theorem Stands.windBack_iff (sizes : Sizes) (stands : Stands file body t) (blocks : Nat) :
    ∀ {pos n : Nat}, pos / sizes.bufsiz = blocks → pos ≤ file.length → t + body.length < pos →
      newlines file t pos = n → ∃ ofs, windBack sizes file blocks pos n = some ofs ∧
        (ofs = t ↔ ¬Straddled body t sizes.bufsiz pos ∧ ¬ReadTwice file t sizes.bufsiz pos) := by
  have size := sizes.buf_pos
  induction blocks with
  | zero =>
      intro pos n before inside behind same
      have short : pos < sizes.bufsiz := (Nat.div_eq_zero_iff_lt size).mp before
      obtain ⟨ofs, wound, right⟩ := stands.windBack_first sizes short inside behind same
      refine ⟨ofs, wound, right.trans ⟨fun clean => ⟨?_, fun twice => ?_⟩, fun good mem => ?_⟩⟩
      · rintro ⟨k, low, high⟩
        rcases Nat.eq_zero_or_pos k with rfl | some_
        · omega
        · have := Nat.le_mul_of_pos_left sizes.bufsiz some_
          omega
      · rw [ReadTwice, Nat.mod_eq_of_lt short] at twice
        exact clean twice.2
      · refine good.2 ?_
        rw [ReadTwice, Nat.mod_eq_of_lt short]
        exact ⟨by omega, mem⟩
  | succ blocks ih =>
      intro pos n before inside behind same
      have room : sizes.bufsiz ≤ pos := by
        by_contra short
        rw [Nat.div_eq_of_lt (by omega)] at before
        cases before
      have next : (pos - sizes.bufsiz) / sizes.bufsiz = blocks := by
        rw [Nat.div_eq_sub_div size room] at before
        omega
      have whole : pos - sizes.bufsiz + sizes.bufsiz = pos := Nat.sub_add_cancel room
      have long : ((file.drop (pos - sizes.bufsiz)).take sizes.bufsiz).length = sizes.bufsiz := by
        rw [List.length_take, List.length_drop]
        omega
      rw [straddled_sub behind, readTwice_sub room]
      rw [windBack, if_neg (by omega : ¬pos < sizes.bufsiz)]
      rw [long, if_neg (by omega)]
      rcases Nat.lt_or_ge t (pos - sizes.bufsiz) with far | near
      · have begins : pos - sizes.bufsiz ≠ 0 := by omega
        rw [scan_behind far (by omega) (by rwa [whole])]
        dsimp only
        rw [if_neg begins]
        by_cases across : pos - sizes.bufsiz ≤ t + body.length
        · have none_ := stands.newlines_pos.mpr across
          rw [none_, if_neg (by omega)]
          refine ⟨_, rfl, iff_of_false (by omega) fun good => good.1 ⟨0, ?_, ?_⟩⟩
          · rwa [Nat.zero_mul, Nat.sub_zero]
          · rwa [Nat.zero_mul, Nat.sub_zero]
        · have some_ : newlines file t (pos - sizes.bufsiz) ≠ 0 := fun none_ =>
            across (stands.newlines_pos.mp none_)
          rw [if_pos (by omega)]
          exact ih next (by omega) (by omega) rfl
      · rw [stands.scan near (by omega) (by omega) (by rwa [whole])]
        dsimp only
        have at_ : pos - sizes.bufsiz +
            (sizes.bufsiz + 1 - (1 + (pos - sizes.bufsiz + sizes.bufsiz - t))) = t := by omega
        have straight : ¬Straddled body t sizes.bufsiz (pos - sizes.bufsiz) := by
          rintro ⟨k, low, -⟩
          omega
        have once : ¬ReadTwice file t sizes.bufsiz (pos - sizes.bufsiz) := by
          rintro ⟨low, -⟩
          have := Nat.mod_le (pos - sizes.bufsiz) sizes.bufsiz
          omega
        refine ⟨t, ?_, iff_of_true rfl ⟨straight, once⟩⟩
        rw [at_]
        by_cases first : pos - sizes.bufsiz = 0
        · rw [if_pos first]
        · rw [if_neg first, if_neg]
          split <;> decide

end

theorem written_append (front rest : List (List Byte)) :
    written (front ++ rest) = written front ++ written rest := by
  unfold written
  rw [List.map_append, List.flatten_append]

theorem written_cons (body : List Byte) (rest : List (List Byte)) :
    written (body :: rest) = body ++ nl :: written rest := by
  unfold written
  rw [List.map_cons, List.flatten_cons, List.append_assoc, List.singleton_append]

section

variable {front back : List (List Byte)} {body : List Byte}

theorem stands_written (clean : nl ∉ body) :
    Stands (written (front ++ body :: back)) body (written front).length := by
  rw [written_append, written_cons]
  refine ⟨clean, ⟨written back, List.drop_left⟩, ?_⟩
  rcases front.eq_nil_or_concat with rfl | ⟨before, last, rfl⟩
  · exact .inl rfl
  · refine .inr ⟨written before ++ last, ?_⟩
    rw [List.take_left, List.concat_eq_append, written_append, written_cons, List.append_assoc]
    rfl

theorem windBack_written (sizes : Sizes) (clean : ∀ other ∈ front ++ body :: back, nl ∉ other)
    {file : List Byte} (same : file = written (front ++ body :: back)) :
    ∃ ofs, windBack sizes file (file.length / sizes.bufsiz) file.length
        ((back.length + 1 : Nat) : Int) = some ofs ∧
      (ofs = (written front).length ↔
        ¬Straddled body (written front).length sizes.bufsiz file.length ∧
          ¬ReadTwice file (written front).length sizes.bufsiz file.length) := by
  subst same
  have stands := @stands_written front back body (clean body (by simp))
  refine stands.windBack_iff sizes _ rfl (Nat.le_refl _) stands.bound ?_
  rw [newlines, ← List.drop_take, List.take_length, written_append, List.drop_left,
    count_written fun other mem => clean other (List.mem_append_right _ mem), List.length_cons]

/-- `toomuch` leaves the file at the `n`-th line from its end exactly when no buffer begins within
that line and the rest of a first buffer that is read twice has no newlines. -/
theorem State.toomuch_iff (sizes : Sizes) (st : State)
    (clean : ∀ other ∈ front ++ body :: back, nl ∉ other) {file : List Byte}
    (same : file = written (front ++ body :: back)) :
    (∃ next, st.toomuch sizes file (back.length + 1) = some next ∧
      next.files = st.tidy.files ++ [file] ∧
      next.overfile = some ⟨st.tidy.files.length, (written front).length⟩ ∧
      next.truncofs = (written front).length) ↔
        ¬Straddled body (written front).length sizes.bufsiz file.length ∧
          ¬ReadTwice file (written front).length sizes.bufsiz file.length := by
  obtain ⟨ofs, wound, right⟩ := windBack_written sizes clean same
  rw [State.toomuch, wound, ← right]
  constructor
  · rintro ⟨next, made, -, -, at_⟩
    cases made
    exact at_
  · rintro rfl
    exact ⟨_, rfl, rfl, rfl, rfl⟩

end

theorem State.toomuch_second :
    (∃ next, (State.start []).toomuch sizes (ascii ['a', '\n', 'b', '\n']) 1 = some next ∧
      next.files = [ascii ['a', '\n', 'b', '\n']] ∧ next.overfile = some ⟨0, 2⟩ ∧
      next.truncofs = 2) ↔
        ¬Straddled (ascii ['b']) 2 1024 4 ∧ ¬ReadTwice (ascii ['a', '\n', 'b', '\n']) 2 1024 4 :=
  @State.toomuch_iff [ascii ['a']] [] (ascii ['b']) sizes (.start []) (by decide) _ rfl

/-- A line longer than a buffer is thrown back from where the buffer begins. -/
theorem State.toomuch_long : ¬∀ (sizes : Sizes) (st : State) (front : List (List Byte))
    (body : List Byte) (back : List (List Byte)),
      (∀ other ∈ front ++ body :: back, nl ∉ other) →
        ∃ next, st.toomuch sizes (written (front ++ body :: back)) (back.length + 1) = some next ∧
          next.overfile = some ⟨st.tidy.files.length, (written front).length⟩ ∧
          next.truncofs = (written front).length := by
  intro claim
  have clean : ∀ other ∈ [] ++ List.replicate 1499 (byte 'a') :: [], nl ∉ other := by
    intro other mem
    rw [List.nil_append, List.mem_singleton] at mem
    subst mem
    exact fun newline => absurd (List.eq_of_mem_replicate newline) (by decide)
  obtain ⟨next, made, -, begins⟩ := claim sizes (.start []) [] _ [] clean
  obtain ⟨ofs, wound, right⟩ := windBack_written sizes clean rfl
  have long : (written ([] ++ [List.replicate 1499 (byte 'a')])).length = 1500 := by
    rw [List.nil_append, written_cons, List.length_append, List.length_replicate]
    rfl
  rw [State.toomuch, wound] at made
  cases made
  refine (right.mp begins).1 ⟨1, ?_, ?_⟩
  · rw [long]
    decide
  · rw [long, List.length_replicate]
    decide

end Netbase.Csplit
