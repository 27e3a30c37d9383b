import Mathlib.Data.List.Nodup
import Netbase.Split.Main

/-!
# What the pieces hold

However the reads fall, what has been written is the text read so far, and
every piece but the last is full.  A piece that is full at the end of a read is
followed by the next one when there is another read, so none is empty.
-/

namespace Netbase.Split

open Netbase.Text

/-! ## The names -/

theorem fill_quot (i quot : Nat) (fpnt : List Byte) : (fill i quot fpnt).2 = quot / 26 ^ i := by
  induction i generalizing quot fpnt with
  | zero => exact (Nat.div_one quot).symm
  | succ i ih => rw [fill, ih, Nat.div_div_eq_div_mul, Nat.pow_succ']

theorem letter_injective {a b : Nat} (la : a < 26) (lb : b < 26)
    (same : UInt8.ofNat a + byte 'a' = UInt8.ofNat b + byte 'a') : a = b := by
  have digits := congrArg UInt8.toNat (UInt8.add_left_inj _ |>.mp same)
  rw [UInt8.toNat_ofNat', UInt8.toNat_ofNat'] at digits
  omega

theorem fill_injective (i : Nat) : ∀ {a b : Nat} {s t : List Byte}, a < 26 ^ i → b < 26 ^ i →
    (fill i a s).1 = (fill i b t).1 → a = b ∧ s = t := by
  induction i with
  | zero =>
      intro a b s t la lb same
      rw [Nat.pow_zero] at la lb
      exact ⟨by omega, same⟩
  | succ i ih =>
      intro a b s t la lb same
      rw [Nat.pow_succ] at la lb
      obtain ⟨high, tail⟩ := ih (Nat.div_lt_of_lt_mul (by omega)) (Nat.div_lt_of_lt_mul (by omega))
        same
      rw [List.cons.injEq] at tail
      have low := letter_injective (Nat.mod_lt a (by decide)) (Nat.mod_lt b (by decide)) tail.1
      exact ⟨by omega, tail.2⟩

/-- How many files there can be, their number being an `int`. -/
def room (sfxlen : Nat) : Nat := min (26 ^ sfxlen) (2 ^ 31 - 1)

theorem room_pos (sfxlen : Nat) : 0 < room sfxlen :=
  Nat.lt_min.mpr ⟨Nat.pow_pos (by decide), by decide⟩

section

variable (fname : List Byte) (sfxlen : Nat)

/-- The file number `i`. -/
def named (i : Nat) (piece : List Byte) : List Byte × List Byte :=
  (fname ++ (fill sfxlen i []).1, piece)

def State.holding (pieces : List (List Byte)) (fileOpen : Bool) : State :=
  ⟨pieces.mapIdx (named fname sfxlen), pieces.length, fileOpen⟩

variable {pieces : List (List Byte)} {fileOpen : Bool}

theorem State.newfile_holding (free : pieces.length < room sfxlen) :
    (State.holding fname sfxlen pieces fileOpen).newfile fname sfxlen =
      some (State.holding fname sfxlen (pieces ++ [[]]) fileOpen) := by
  unfold State.newfile State.holding
  dsimp only
  rw [fill_quot, Nat.div_eq_of_lt (by unfold room at free; omega), if_neg (Nat.lt_irrefl 0),
    List.mapIdx_concat, List.length_append]
  rfl

theorem State.bigwrite_holding (piece buf : List Byte) :
    (State.holding fname sfxlen (pieces ++ [piece]) fileOpen).bigwrite buf =
      some (State.holding fname sfxlen (pieces ++ [piece ++ buf]) fileOpen) := by
  unfold State.bigwrite State.holding
  dsimp only
  rw [List.mapIdx_concat, List.mapIdx_concat, List.getLast?_concat, List.dropLast_concat,
    List.length_append, List.length_append]
  rfl

theorem State.contents_holding :
    (State.holding fname sfxlen pieces fileOpen).files.map Prod.snd = pieces := by
  refine List.ext_getElem ?_ fun i _ _ => ?_
  · rw [List.length_map, State.holding, List.length_mapIdx]
  · simp only [State.holding, List.getElem_map, List.getElem_mapIdx, named]

theorem State.names_holding (free : pieces.length ≤ room sfxlen) :
    ((State.holding fname sfxlen pieces fileOpen).files.map Prod.fst).Nodup := by
  rw [List.nodup_iff_injective_get]
  rintro ⟨a, la⟩ ⟨b, lb⟩ same
  rw [List.length_map, State.holding, List.length_mapIdx] at la lb
  unfold room at free
  simp only [State.holding, List.get_eq_getElem, List.getElem_map, List.getElem_mapIdx, named,
    List.append_cancel_left_eq] at same
  exact Fin.ext (fill_injective sfxlen (by omega) (by omega) same).1

end

structure Cut (full : List Byte → Prop) (text : List Byte) (files : List (List Byte × List Byte)) :
    Prop where
  whole : (files.map Prod.snd).flatten = text
  complete : ∀ piece ∈ (files.map Prod.snd).dropLast, full piece
  filled : [] ∉ files.map Prod.snd
  names : (files.map Prod.fst).Nodup

/-! ## By bytes -/

section

variable {fname : List Byte} {sfxlen k : Nat} {b : ℕ+} {done : List (List Byte)}
  {p w total : List Byte} {c : Nat} {fileOpen : Bool}

/-- The pieces are `done` and `p`, of which `p` has `c` bytes, or at least that many when it is the
last one allowed. -/
structure Holds (k b : Nat) (done : List (List Byte)) (p w : List Byte) (c : Nat) : Prop where
  whole : done.flatten ++ p = w
  complete : ∀ q ∈ done, q.length = b
  few : k ≠ 0 → done.length + 1 ≤ k
  last : p.length = c ∨ done.length + 1 = k ∧ c ≤ p.length

/-- There are names enough. -/
structure Fits (sfxlen k b : Nat) (total : List Byte) : Prop where
  bytes : k = 0 → total.length ≤ room sfxlen * b
  files : k ≤ room sfxlen

theorem Holds.extend (holds : Holds k b done p w c) (buf : List Byte) :
    Holds k b done (p ++ buf) (w ++ buf) (c + buf.length) := by
  refine ⟨?_, holds.complete, holds.few, ?_⟩
  · rw [← List.append_assoc, holds.whole]
  · rw [List.length_append]
    exact holds.last.imp (by omega) fun more => ⟨more.1, by omega⟩

theorem Holds.length (holds : Holds k b done p w c) : w.length = done.length * b + p.length := by
  have each : done.flatten.length = done.length * b := by
    rw [List.length_flatten, List.map_congr_left holds.complete, List.map_const',
      List.sum_replicate_nat]
  rw [← holds.whole, List.length_append, each]

/-- Behind a full piece there is one more name, or no more pieces are allowed. -/
theorem Holds.newpiece (holds : Holds k b done p w b) (fits : Fits sfxlen k b total)
    (more : w.length < total.length) :
    ∃ done' p', (State.holding fname sfxlen (done ++ [p]) fileOpen).newpiece fname sfxlen k
        ((done.length + 1 : Nat) : Int) =
          some (State.holding fname sfxlen (done' ++ [p']) fileOpen, ((done'.length + 1 : Nat) : Int))
        ∧ Holds k b done' p' w 0 ∧ done.length ≤ done'.length := by
  unfold State.newpiece
  by_cases at_ : k ≠ 0 ∧ done.length + 1 = k
  · rw [if_neg (by omega)]
    exact ⟨done, p, rfl, ⟨holds.whole, holds.complete, holds.few, .inr ⟨at_.2, Nat.zero_le _⟩⟩,
      Nat.le_refl _⟩
  · have full : p.length = b := holds.last.resolve_right fun last => at_ ⟨by omega, last.1⟩
    have few := holds.few
    have free : (done ++ [p]).length < room sfxlen := by
      have files := fits.files
      rw [List.length_append, List.length_singleton]
      by_cases zero : k = 0
      · have bytes := fits.bytes zero
        have long : w.length = (done.length + 1) * b := by
          rw [holds.length, full, Nat.add_mul, Nat.one_mul]
        exact Nat.lt_of_mul_lt_mul_right (by omega : (done.length + 1) * (b : Nat) < _ * b)
      · omega
    rw [if_pos (by omega), State.newfile_holding _ _ free]
    refine ⟨done ++ [p], [], ?_, ⟨?_, ?_, ?_, .inl rfl⟩, ?_⟩
    · rw [List.length_append]
      rfl
    · rw [List.append_nil, List.flatten_append, List.flatten_singleton, holds.whole]
    · intro q mem
      rcases List.mem_append.mp mem with old | new
      · exact holds.complete q old
      · rw [List.mem_singleton.mp new, full]
    · rw [List.length_append, List.length_singleton]
      omega
    · rw [List.length_append]
      omega

theorem Holds.wholes (fits : Fits sfxlen k b total) {done : List (List Byte)} {p w : List Byte}
    (holds : Holds k b done p w b) (C : List Byte)
    (inside : w.length + C.length ≤ total.length) :
    ∃ done' p' w' rest, (State.holding fname sfxlen (done ++ [p]) fileOpen).wholes fname sfxlen b k
        ((done.length + 1 : Nat) : Int) C =
          some (State.holding fname sfxlen (done' ++ [p']) fileOpen,
            ((done'.length + 1 : Nat) : Int), rest) ∧
      Holds k b done' p' w' b ∧ w' ++ rest = w ++ C ∧ rest.length < b ∧
        done.length ≤ done'.length := by
  have size := b.pos
  rw [State.wholes]
  by_cases short : C.length < b
  · rw [if_pos short]
    exact ⟨done, p, w, C, rfl, holds, rfl, short, Nat.le_refl _⟩
  · have long : (C.take b).length = b := List.length_take_of_le (by omega)
    obtain ⟨next, q, new, begun, grows⟩ :=
      @Holds.newpiece fname sfxlen k b done p w total fileOpen holds fits (by omega)
    have written := begun.extend (C.take b)
    rw [long, Nat.zero_add] at written
    have left : (w ++ C.take b).length + (C.drop b).length ≤ total.length := by
      rw [List.length_append, long, List.length_drop]
      omega
    obtain ⟨done', p', w', rest, made, holds', text, few, grows'⟩ :=
      Holds.wholes fits written (C.drop b) left
    refine ⟨done', p', w', rest, ?_, holds', ?_, few, by omega⟩
    · rw [if_neg short, new]
      dsimp only [Option.bind_eq_bind, Option.bind_some]
      rw [State.bigwrite_holding, Option.bind_some]
      exact made
    · rw [text, List.append_assoc, List.take_append_drop]
termination_by C.length
decreasing_by
  rw [List.length_drop]
  omega

/-- The state between two reads. -/
inductive Between (fname : List Byte) (sfxlen k b : Nat) (w : List Byte) :
    State → Int → Nat → Prop
  | start : w = [] → Between fname sfxlen k b w .start 0 0
  | inside {done : List (List Byte)} {p : List Byte} {bcnt : Nat} {fileOpen : Bool} :
      Holds k b done p w bcnt → 0 < bcnt → bcnt < b → fileOpen = true ∨ done.length + 1 = k →
      Between fname sfxlen k b w (.holding fname sfxlen (done ++ [p]) fileOpen)
        ((done.length + 1 : Nat) : Int) bcnt
  | full {done : List (List Byte)} {p : List Byte} : Holds k b done p w b →
      Between fname sfxlen k b w (.holding fname sfxlen (done ++ [p]) false)
        ((done.length + 1 : Nat) : Int) 0

theorem Between.opened {st : State} {nfiles : Int} {bcnt : Nat}
    (between : Between fname sfxlen k b w st nfiles bcnt) (fits : Fits sfxlen k b total)
    (more : w.length < total.length) :
    ∃ done p fileOpen, st.opened fname sfxlen k nfiles =
          some (State.holding fname sfxlen (done ++ [p]) fileOpen, ((done.length + 1 : Nat) : Int)) ∧
      Holds k b done p w bcnt ∧ bcnt < b ∧ (fileOpen = true ∨ done.length + 1 = k) := by
  cases between with
  | start none_ =>
      subst none_
      refine ⟨[], [], true, ?_, ⟨rfl, by simp, fun some_ => ?_, .inl rfl⟩, b.pos, .inl rfl⟩
      · have made := @State.newfile_holding fname sfxlen [] false (room_pos sfxlen)
        change (if (k : Int) = 0 ∨ (0 : Int) < k then _ else _) = _
        rw [if_pos (by omega), show State.start = State.holding fname sfxlen [] false from rfl, made]
        rfl
      · rw [List.length_nil]
        omega
  | @inside done p bcnt fileOpen holds some_ few open_ =>
      refine ⟨done, p, fileOpen, ?_, holds, few, open_⟩
      unfold State.opened
      change (if fileOpen = true then _ else _) = _
      by_cases opened : fileOpen = true
      · rw [if_pos opened]
      · have last := open_.resolve_left opened
        rw [if_neg opened, if_neg (by omega)]
  | @full done p holds =>
      obtain ⟨done', p', new, begun, grows⟩ :=
        @Holds.newpiece fname sfxlen k b done p w total false holds fits more
      unfold State.newpiece at new
      have closed : (State.holding fname sfxlen (done ++ [p]) false).fileOpen = false := rfl
      simp only [State.opened, closed, Bool.false_eq_true, if_false]
      by_cases free : (k : Int) = 0 ∨ ((done.length + 1 : Nat) : Int) < k
      · rw [if_pos free] at new ⊢
        obtain ⟨st, made, same⟩ := Option.map_eq_some_iff.mp new
        rw [Prod.mk.injEq] at same
        refine ⟨done', p', true, ?_, begun, b.pos, .inl rfl⟩
        rw [made, ← same.2, same.1]
        rfl
      · rw [if_neg free] at new ⊢
        refine ⟨done', p', false, new, begun, b.pos, .inr ?_⟩
        have few := begun.few
        omega

theorem Between.read1 {st : State} {nfiles : Int} {bcnt : Nat}
    (between : Between fname sfxlen k b w st nfiles bcnt) (fits : Fits sfxlen k b total)
    {bfr : List Byte} (nonempty : bfr ≠ []) (inside : (w ++ bfr).length ≤ total.length) :
    ∃ st' nfiles' bcnt', st.read1 fname sfxlen b k nfiles bcnt bfr = some (st', nfiles', bcnt') ∧
      Between fname sfxlen k b (w ++ bfr) st' nfiles' bcnt' := by
  have some_ := List.length_pos_iff.mpr nonempty
  rw [List.length_append] at inside
  obtain ⟨done, p, fileOpen, opened, holds, few, open_⟩ := between.opened fits (by omega)
  unfold State.read1
  rw [opened]
  dsimp only [Option.bind_eq_bind, Option.bind_some]
  by_cases fills : bcnt + bfr.length ≥ b
  · have long : (bfr.take (b - bcnt)).length = b - bcnt := List.length_take_of_le (by omega)
    have written := holds.extend (bfr.take (b - bcnt))
    rw [long, Nat.add_sub_cancel' few.le] at written
    obtain ⟨done', p', w', rest, made, full, text, short, grows⟩ :=
      @Holds.wholes fname sfxlen k b total fileOpen fits _ _ _ written (bfr.drop (b - bcnt))
        (by rw [List.length_append, long, List.length_drop]; omega)
    rw [List.append_assoc, List.take_append_drop] at text
    rw [if_pos fills, State.bigwrite_holding, Option.bind_some, made]
    dsimp only [Option.bind_some]
    by_cases empty : rest.length = 0
    · rw [if_neg (not_not.mpr empty)]
      rw [List.length_eq_zero_iff] at empty
      subst empty
      rw [List.append_nil] at text
      subst text
      exact ⟨_, _, _, rfl, .full full⟩
    · obtain ⟨done'', p'', new, begun, grows'⟩ :=
        @Holds.newpiece fname sfxlen k b done' p' w' total fileOpen full fits (by
          have := congrArg List.length text
          rw [List.length_append, List.length_append] at this
          omega)
      have final := begun.extend rest
      rw [Nat.zero_add, text] at final
      have last := final.few
      rw [if_pos empty, new]
      dsimp only [Option.bind_some]
      rw [State.bigwrite_holding, Option.bind_some]
      exact ⟨_, _, _, rfl, .inside final (by omega) short (open_.imp_right (by omega))⟩
  · rw [if_neg fills, State.bigwrite_holding, Option.bind_some]
    exact ⟨_, _, _, rfl, .inside (holds.extend bfr) (by omega) (by omega) open_⟩

theorem Between.split1 (fits : Fits sfxlen k b total) (reads : List (List Byte)) :
    ∀ {w : List Byte} {st : State} {nfiles : Int} {bcnt : Nat},
      Between fname sfxlen k b w st nfiles bcnt → (∀ bfr ∈ reads, bfr ≠ []) →
      w ++ reads.flatten = total →
      ∃ st' nfiles' bcnt', st.split1 fname sfxlen b k reads nfiles bcnt = some st' ∧
        Between fname sfxlen k b total st' nfiles' bcnt' := by
  induction reads with
  | nil =>
      intro w st nfiles bcnt between _ whole
      rw [List.flatten_nil, List.append_nil] at whole
      subst whole
      exact ⟨st, nfiles, bcnt, rfl, between⟩
  | cons bfr reads ih =>
      intro w st nfiles bcnt between nonempty whole
      rw [List.flatten_cons, ← List.append_assoc] at whole
      have inside : (w ++ bfr).length ≤ total.length := by
        have all := congrArg List.length whole
        rw [List.length_append] at all
        omega
      obtain ⟨st', nfiles', bcnt', read, next⟩ :=
        between.read1 fits (nonempty bfr List.mem_cons_self) inside
      obtain ⟨st'', nfiles'', bcnt'', rest, final⟩ :=
        ih next (fun other mem => nonempty other (List.mem_cons_of_mem _ mem)) whole
      refine ⟨st'', nfiles'', bcnt'', ?_, final⟩
      rw [State.split1, read]
      exact rest

theorem Holds.length_le (holds : Holds k b done p total c) (fits : Fits sfxlen k b total)
    (some_ : 0 < c) : (done ++ [p]).length ≤ room sfxlen := by
  have long := holds.length
  have last := holds.last
  rw [List.length_append, List.length_singleton]
  by_cases zero : k = 0
  · have bytes := fits.bytes zero
    exact Nat.lt_of_mul_lt_mul_right (by omega : done.length * (b : Nat) < room sfxlen * b)
  · exact (holds.few zero).trans fits.files

theorem Holds.cut (holds : Holds k b done p total c) (fits : Fits sfxlen k b total)
    (some_ : 0 < c) :
    Cut (·.length = b) total (State.holding fname sfxlen (done ++ [p]) fileOpen).files := by
  refine ⟨?_, ?_, ?_, State.names_holding fname sfxlen (holds.length_le fits some_)⟩
  · rw [State.contents_holding, List.flatten_append, List.flatten_singleton, holds.whole]
  · rw [State.contents_holding, List.dropLast_concat]
    exact holds.complete
  · rw [State.contents_holding]
    intro mem
    rcases List.mem_append.mp mem with old | new
    · exact b.pos.ne (holds.complete [] old)
    · have last := holds.last
      rw [← List.mem_singleton.mp new, List.length_nil] at last
      omega

/-- With text for them all there are as many pieces as are allowed. -/
theorem Holds.count (holds : Holds k b done p total c) (inside : c ≤ b)
    (enough : k * b ≤ total.length) (some_ : k ≠ 0) : done.length + 1 = k := by
  have long := holds.length
  have few := holds.few some_
  rcases holds.last with short | last
  · refine Nat.le_antisymm few (Nat.le_of_mul_le_mul_right ?_ b.pos)
    rw [Nat.add_mul, Nat.one_mul]
    omega
  · exact last.1

theorem Between.cut {st : State} {nfiles : Int} {bcnt : Nat}
    (between : Between fname sfxlen k b total st nfiles bcnt) (fits : Fits sfxlen k b total) :
    Cut (·.length = b) total st.files ∧
      (k ≠ 0 → k * b ≤ total.length → st.files.length = k) := by
  have size := b.pos
  cases between with
  | start none_ =>
      subst none_
      refine ⟨⟨rfl, by simp [State.start], by simp [State.start], List.nodup_nil⟩,
        fun some_ enough => ?_⟩
      have := Nat.le_mul_of_pos_right k size
      rw [List.length_nil] at enough
      omega
  | @inside done p bcnt fileOpen holds some_ few _ =>
      refine ⟨holds.cut fits some_, fun limit enough => ?_⟩
      rw [State.holding, List.length_mapIdx, List.length_append]
      exact holds.count few.le enough limit
  | @full done p holds =>
      refine ⟨holds.cut fits size, fun limit enough => ?_⟩
      rw [State.holding, List.length_mapIdx, List.length_append]
      exact holds.count (Nat.le_refl _) enough limit

end

/-- Split by bytes, into `k` files at most when that is not 0. -/
theorem split1_cut (fname : List Byte) {sfxlen k : Nat} {b : ℕ+} {reads : List (List Byte)}
    (nonempty : ∀ bfr ∈ reads, bfr ≠ []) (fits : Fits sfxlen k b reads.flatten) :
    ∃ st, split1 fname sfxlen b k reads = some st ∧ Cut (·.length = b) reads.flatten st.files ∧
      (k ≠ 0 → k * b ≤ reads.flatten.length → st.files.length = k) := by
  obtain ⟨st, nfiles, bcnt, made, between⟩ :=
    Between.split1 fits reads (.start rfl : Between fname sfxlen k b [] _ _ _) nonempty rfl
  exact ⟨st, made, between.cut fits⟩

/-! ## By lines -/

theorem length_lines (front : List Byte) : (lines (front ++ [nl])).length = front.count nl + 1 := by
  induction front with
  | nil => rfl
  | cons c front ih =>
      by_cases newline : c = nl
      · subst newline
        rw [List.cons_append, lines_nl, List.length_cons, ih, List.count_cons_self]
      · rw [List.cons_append, lines, if_neg newline, List.count_cons_of_ne newline]
        cases some_ : lines (front ++ [nl]) with
        | nil =>
            rw [some_] at ih
            cases ih
        | cons line more =>
            rw [some_] at ih
            exact ih

/-- A piece of `n` lines. -/
def Lines (n : Nat) (piece : List Byte) : Prop := piece.count nl = n ∧ piece.getLast? = some nl

section

variable {fname : List Byte} {sfxlen : Nat} {n : ℕ+} {done : List (List Byte)}
  {p w u total : List Byte} {lcnt : Nat}

/-- The pieces are `done` and `p`, of which `p` has `lcnt` newlines. -/
structure Lined (n : Nat) (done : List (List Byte)) (p w : List Byte) (lcnt : Nat) : Prop where
  whole : done.flatten ++ p = w
  complete : ∀ q ∈ done, Lines n q
  count : p.count nl = lcnt

theorem Lined.begin (lined : Lined n done p w n) (ends : p.getLast? = some nl) :
    Lined n (done ++ [p]) [] w 0 := by
  refine ⟨?_, fun q mem => ?_, List.count_nil⟩
  · rw [List.append_nil, List.flatten_append, List.flatten_singleton, lined.whole]
  · rcases List.mem_append.mp mem with old | new
    · exact lined.complete q old
    · rw [List.mem_singleton.mp new]
      exact ⟨lined.count, ends⟩

theorem Lined.newlines (lined : Lined n done p w lcnt) : w.count nl = done.length * n + lcnt := by
  have each : done.flatten.count nl = done.length * n := by
    rw [List.count_flatten, List.map_congr_left fun q mem => (lined.complete q mem).1,
      List.map_const', List.sum_replicate_nat]
  rw [← lined.whole, List.count_append, each, lined.count]

theorem Lined.free (lined : Lined n done p w n) (ends : p.getLast? = some nl)
    (whole : w ++ u = total) (more : u ≠ []) (fits : (lines total).length ≤ room sfxlen * n) :
    (done ++ [p]).length < room sfxlen := by
  obtain ⟨front, rfl⟩ := List.getLast?_eq_some_iff.mp ends
  have text : w = done.flatten ++ front ++ [nl] := by
    rw [List.append_assoc]
    exact lined.whole.symm
  have some_ : 0 < (lines u).length := by
    refine List.length_pos_iff.mpr fun none_ => more ?_
    rw [← flatten_lines u, none_]
    rfl
  have newlines := lined.newlines
  rw [text, List.count_append, List.count_singleton_self] at newlines
  rw [← whole, text, lines_behind, List.length_append, length_lines, newlines] at fits
  rw [List.length_append, List.length_singleton]
  refine Nat.lt_of_mul_lt_mul_right (?_ : (done.length + 1) * (n : Nat) < room sfxlen * n)
  rw [Nat.add_mul, Nat.one_mul]
  omega

/-- The state between two reads. -/
inductive Between2 (fname : List Byte) (sfxlen n : Nat) (w : List Byte) : State → Nat → Prop
  | start : w = [] → Between2 fname sfxlen n w .start 0
  | inside {done : List (List Byte)} {p : List Byte} {lcnt : Nat} : Lined n done p w lcnt →
      p ≠ [] → lcnt < n →
      Between2 fname sfxlen n w (.holding fname sfxlen (done ++ [p]) true) lcnt
  | full {done : List (List Byte)} {p : List Byte} : Lined n done p w n → p.getLast? = some nl →
      Between2 fname sfxlen n w (.holding fname sfxlen (done ++ [p]) false) 0

/-- The lines of a buffer, of which `Cs` has not been written yet. -/
theorem Lined.scan (fits : (lines total).length ≤ room sfxlen * n) (buf : List Byte) :
    ∀ {done : List (List Byte)} {p w u Cs : List Byte} {lcnt : Nat},
      Lined n done (p ++ Cs) w lcnt → lcnt < n → p ++ Cs ≠ [] ∨ buf ≠ [] →
      w ++ (buf ++ u) = total →
      ∃ st' lcnt', State.scan fname sfxlen n buf (.holding fname sfxlen (done ++ [p]) true) lcnt Cs =
          some (st', lcnt') ∧ Between2 fname sfxlen n (w ++ buf) st' lcnt' := by
  induction buf with
  | nil =>
      intro done p w u Cs lcnt lined few some_ whole
      have nonempty := some_.resolve_right (not_not.mpr rfl)
      rw [State.scan, List.append_nil]
      by_cases empty : Cs = []
      · subst empty
        rw [List.append_nil] at lined nonempty
        rw [if_pos rfl]
        exact ⟨_, _, rfl, .inside lined nonempty few⟩
      · rw [if_neg empty, State.bigwrite_holding]
        exact ⟨_, _, rfl, .inside lined nonempty few⟩
  | cons Ce rest ih =>
      intro done p w u Cs lcnt lined few some_ whole
      have pushed : Lined n done (p ++ (Cs ++ [Ce])) (w ++ [Ce])
          (if Ce = nl then lcnt + 1 else lcnt) := by
        refine ⟨?_, lined.complete, ?_⟩
        · rw [← lined.whole, List.append_assoc, List.append_assoc]
        · rw [← List.append_assoc, List.count_append, lined.count]
          by_cases newline : Ce = nl
          · rw [if_pos newline, newline, List.count_singleton_self]
          · rw [if_neg newline, List.count_singleton, if_neg (by simpa using newline), Nat.add_zero]
      have whole' : w ++ [Ce] ++ (rest ++ u) = total := by
        rw [List.append_assoc]
        exact whole
      have text : w ++ Ce :: rest = w ++ [Ce] ++ rest := by rw [List.append_assoc]; rfl
      rw [State.scan, text]
      dsimp only [Option.bind_eq_bind]
      by_cases cut : Ce = nl ∧ (if Ce = nl then lcnt + 1 else lcnt) = n
      · have ends : (p ++ (Cs ++ [Ce])).getLast? = some nl := by
          rw [← List.append_assoc, List.getLast?_concat, cut.1]
        rw [cut.2] at pushed
        rw [if_pos cut, State.bigwrite_holding, Option.bind_some]
        by_cases spent : rest = []
        · subst spent
          rw [if_pos rfl, Option.bind_some, List.append_nil]
          exact ⟨_, _, rfl, .full pushed ends⟩
        · have more : rest ++ u ≠ [] := fun none_ => spent (List.append_eq_nil_iff.mp none_).1
          rw [if_neg spent, State.newfile_holding _ _ (pushed.free ends whole' more fits),
            Option.bind_some]
          exact ih (pushed.begin ends) n.pos (.inr spent) whole'
      · rw [if_neg cut]
        refine ih pushed ?_ (.inl (by simp)) whole'
        by_cases newline : Ce = nl
        · rw [if_pos newline] at cut ⊢
          exact Nat.lt_of_le_of_ne few fun same => cut ⟨newline, same⟩
        · rwa [if_neg newline]

theorem Between2.read2 {st : State} (between : Between2 fname sfxlen n w st lcnt)
    (fits : (lines total).length ≤ room sfxlen * n) {bfr : List Byte} (nonempty : bfr ≠ [])
    (whole : w ++ (bfr ++ u) = total) :
    ∃ st' lcnt', st.read2 fname sfxlen n lcnt bfr = some (st', lcnt') ∧
      Between2 fname sfxlen n (w ++ bfr) st' lcnt' := by
  unfold State.read2 State.opened
  cases between with
  | start none_ =>
      subst none_
      have made := @State.newfile_holding fname sfxlen [] false (room_pos sfxlen)
      change State.start.newfile fname sfxlen = _ at made
      rw [if_neg (by decide), if_pos (.inl rfl), made]
      exact Lined.scan fits bfr ⟨rfl, by simp, rfl⟩ n.pos (.inr nonempty) whole
  | @inside done p lcnt lined some_ few =>
      exact Lined.scan fits bfr (by rwa [List.append_nil]) few (.inr nonempty) whole
  | @full done p lined ends =>
      have more : bfr ++ u ≠ [] := fun none_ => nonempty (List.append_eq_nil_iff.mp none_).1
      have closed : (State.holding fname sfxlen (done ++ [p]) false).fileOpen ≠ true :=
        Bool.false_ne_true
      rw [if_neg closed, if_pos (.inl rfl), State.newfile_holding _ _ (lined.free ends whole more fits)]
      exact Lined.scan fits bfr (lined.begin ends) n.pos (.inr nonempty) whole

theorem Between2.split2 (fits : (lines total).length ≤ room sfxlen * n)
    (reads : List (List Byte)) :
    ∀ {w : List Byte} {st : State} {lcnt : Nat}, Between2 fname sfxlen n w st lcnt →
      (∀ bfr ∈ reads, bfr ≠ []) → w ++ reads.flatten = total →
      ∃ st' lcnt', st.split2 fname sfxlen n reads lcnt = some st' ∧
        Between2 fname sfxlen n total st' lcnt' := by
  induction reads with
  | nil =>
      intro w st lcnt between _ whole
      rw [List.flatten_nil, List.append_nil] at whole
      subst whole
      exact ⟨st, lcnt, rfl, between⟩
  | cons bfr reads ih =>
      intro w st lcnt between nonempty whole
      rw [List.flatten_cons] at whole
      obtain ⟨st', lcnt', read, next⟩ :=
        between.read2 fits (nonempty bfr List.mem_cons_self) whole
      obtain ⟨st'', lcnt'', rest, final⟩ :=
        ih next (fun other mem => nonempty other (List.mem_cons_of_mem _ mem))
          (by rwa [List.append_assoc])
      refine ⟨st'', lcnt'', ?_, final⟩
      rw [State.split2, read]
      exact rest

theorem Lined.cut {fileOpen : Bool} (lined : Lined n done p total lcnt) (some_ : p ≠ [])
    (fits : (lines total).length ≤ room sfxlen * n) :
    Cut (Lines n) total (State.holding fname sfxlen (done ++ [p]) fileOpen).files := by
  have size : (done ++ [p]).length ≤ room sfxlen := by
    rcases done.eq_nil_or_concat with rfl | ⟨before, q, rfl⟩
    · exact room_pos sfxlen
    · rw [List.concat_eq_append] at lined ⊢
      have last := lined.complete q (List.mem_append_right _ List.mem_cons_self)
      have earlier : Lined n before q (before ++ [q]).flatten n :=
        ⟨by simp, fun other mem => lined.complete other (List.mem_append_left _ mem), last.1⟩
      rw [List.length_append]
      exact earlier.free last.2 lined.whole some_ fits
  refine ⟨?_, ?_, ?_, State.names_holding fname sfxlen size⟩
  · rw [State.contents_holding, List.flatten_append, List.flatten_singleton, lined.whole]
  · rw [State.contents_holding, List.dropLast_concat]
    exact lined.complete
  · rw [State.contents_holding]
    intro mem
    rcases List.mem_append.mp mem with old | new
    · exact absurd (lined.complete [] old).2 (by simp)
    · exact some_ (List.mem_singleton.mp new).symm

theorem Between2.cut {st : State} (between : Between2 fname sfxlen n total st lcnt)
    (fits : (lines total).length ≤ room sfxlen * n) : Cut (Lines n) total st.files := by
  cases between with
  | start none_ =>
      subst none_
      exact ⟨rfl, by simp [State.start], by simp [State.start], List.nodup_nil⟩
  | inside lined some_ _ => exact lined.cut some_ fits
  | full lined ends =>
      refine lined.cut (fun none_ => ?_) fits
      subst none_
      cases ends

end

theorem split2_cut (fname : List Byte) {sfxlen : Nat} {n : ℕ+} {reads : List (List Byte)}
    (nonempty : ∀ bfr ∈ reads, bfr ≠ [])
    (fits : (lines reads.flatten).length ≤ room sfxlen * n) :
    ∃ st, split2 fname sfxlen n reads = some st ∧ Cut (Lines n) reads.flatten st.files := by
  obtain ⟨st, lcnt, made, between⟩ :=
    Between2.split2 fits reads (.start rfl : Between2 fname sfxlen n [] _ _) nonempty rfl
  exact ⟨st, made, between.cut fits⟩

/-- As long as there are names enough the pieces are the input, and all but the last are full. -/
theorem split_cut (fname : List Byte) (sfxlen : Nat) (reads : List (List Byte))
    (nonempty : ∀ bfr ∈ reads, bfr ≠ []) :
    (∀ bytecnt : ℕ+, reads.flatten.length ≤ room sfxlen * bytecnt →
      ∃ st, split1 fname sfxlen bytecnt 0 reads = some st ∧
        Cut (·.length = bytecnt) reads.flatten st.files) ∧
    (∀ numlines : ℕ+, (lines reads.flatten).length ≤ room sfxlen * numlines →
      ∃ st, split2 fname sfxlen numlines reads = some st ∧
        Cut (Lines numlines) reads.flatten st.files) ∧
    ∀ chunks : ℕ+, (chunks : Nat) ≤ reads.flatten.length → chunks ≤ room sfxlen →
      ∃ st, split3 fname sfxlen chunks reads.flatten.length reads = some st ∧
        Cut (·.length = reads.flatten.length / chunks) reads.flatten st.files ∧
          st.files.length = chunks := by
  refine ⟨fun bytecnt fits => ?_, fun numlines fits => split2_cut fname nonempty fits,
    fun chunks inside fits => ?_⟩
  · obtain ⟨st, made, cut, -⟩ :=
      split1_cut fname nonempty (⟨fun _ => fits, Nat.zero_le _⟩ : Fits sfxlen 0 bytecnt _)
    exact ⟨st, made, cut⟩
  · have small : (chunks : Nat) ≤ 2 ^ 31 - 1 := fits.trans (Nat.min_le_right _ _)
    have same : ((chunks : Nat) : Int).bmod (2 ^ 32) = (chunks : Nat) := by
      rw [Int.bmod_def]
      omega
    obtain ⟨st, made, cut, count⟩ := @split1_cut fname sfxlen chunks
      ⟨reads.flatten.length / chunks, Nat.div_pos inside chunks.pos⟩ reads nonempty
      ⟨fun zero => absurd zero chunks.ne_zero, fits⟩
    refine ⟨st, ?_, cut, count chunks.ne_zero (Nat.mul_div_le _ _)⟩
    rw [split3, dif_pos inside, same]
    exact made

theorem split_cut_letters :
    (∃ st, split1 (ascii ['x']) 2 2 0 [ascii ['a', 'b', 'c'], ascii ['d', 'e']] = some st ∧
      Cut (·.length = 2) (ascii ['a', 'b', 'c', 'd', 'e']) st.files) ∧
    (∃ st, split2 (ascii ['x']) 2 1 [ascii ['a', 'b', 'c'], ascii ['d', 'e']] = some st ∧
      Cut (Lines 1) (ascii ['a', 'b', 'c', 'd', 'e']) st.files) ∧
    ∃ st, split3 (ascii ['x']) 2 3 5 [ascii ['a', 'b', 'c'], ascii ['d', 'e']] = some st ∧
      Cut (·.length = 1) (ascii ['a', 'b', 'c', 'd', 'e']) st.files ∧ st.files.length = 3 := by
  have all := split_cut (ascii ['x']) 2 [ascii ['a', 'b', 'c'], ascii ['d', 'e']] (by decide)
  exact ⟨all.1 2 (by decide), all.2.1 1 (by decide), all.2.2 3 (by decide) (by decide)⟩

/-- With suffixes of one letter there is no 27th file. -/
theorem split_many : ¬∀ (fname : List Byte) (sfxlen : Nat) (reads : List (List Byte))
    (numlines : ℕ+), 0 < sfxlen → (∀ bfr ∈ reads, bfr ≠ []) →
      ∃ st, split2 fname sfxlen numlines reads = some st ∧
        Cut (Lines numlines) reads.flatten st.files := by
  intro claim
  obtain ⟨st, made, -⟩ := claim [] 1 [List.replicate 27 nl] 1 (by decide) (by decide)
  have none_ : (split2 [] 1 1 [List.replicate 27 nl]).isNone = true := by decide
  rw [made] at none_
  cases none_

end Netbase.Split
