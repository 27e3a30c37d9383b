import Netbase.Locate.Code
import Mathlib.Data.List.Destutter

/-!
# Reading a compressed path list

The read loop of `fastfind` keeps one path buffer and one count: every entry moves
the count, lays its residue over the old path from there and ends the path behind
it.  The loop gives back the list that was compressed, in order.
-/

namespace Netbase.Locate

open Netbase.Text

inductive Fault where
  | invalid
  | overrun
  | unread
  deriving Repr, DecidableEq

/-- Read a word; at the end of the file the value is `EOF`. -/
def getw : List Byte → Int × List Byte
  | b0 :: b1 :: b2 :: b3 :: stream =>
      ((BitVec.ofNat 32 (b0.toNat + 256 * b1.toNat + 65536 * b2.toNat +
        16777216 * b3.toNat)).toInt, stream)
  | _ => (-1, [])

/-- Store a character at an offset of the path buffer. -/
def putPath (path : List Byte) (p : Int) (c : Byte) : Except Fault (List Byte) :=
  if 0 ≤ p ∧ p < path.length then .ok (path.set p.toNat c) else .error .overrun

/-- Overlay the old path with the residue of an entry.  The character read last and
the stream behind it come back with the buffer and the end of the path. -/
def overlay (bigram1 bigram2 : List Byte) :
    List Byte → List Byte → Int → Except Fault (Option Byte × List Byte × List Byte × Int)
  | [], path, p => .ok (none, [], path, p)
  | c :: stream, path, p =>
      if c ≤ SWITCH then .ok (some c, stream, path, p)
      else if p < 0 ∨ p ≥ MAXPATHLEN - 1 then .error .invalid
      else if c < PARITY then do
        let path ← putPath path p c
        overlay bigram1 bigram2 stream path (p + 1)
      else do
        let bg := (c &&& (PARITY - 1)).toNat
        let path ← putPath path p (bigram1.getD bg 0)
        let path ← putPath path (p + 1) (bigram2.getD bg 0)
        overlay bigram1 bigram2 stream path (p + 2)

/-- The loop over the entries: the paths that stand in the buffer one after another. -/
def readLoop (bigram1 bigram2 : List Byte) :
    Nat → Option Byte → List Byte → List Byte → Int → Except Fault (List (List Byte))
  | _, none, _, _, _ => .ok []
  | 0, some _, _, _, _ => .error .unread
  | fuel + 1, some c, stream, path, count => do
      let word := if c = SWITCH then getw stream else (c.toNat, stream)
      let count := count + word.1 - OFFSET
      let (c, stream, path, p) ← overlay bigram1 bigram2 word.2 path count
      let path ← putPath path p 0
      if p - 1 < 0 ∨ count < 0 then .error .invalid
      else do
        let paths ← readLoop bigram1 bigram2 fuel c stream path count
        .ok (path.takeWhile (· ≠ 0) :: paths)

/-- Column `column` of the bigram table at the head of the file. -/
def readBigrams (file : List Byte) (column : Nat) : List Byte :=
  (List.range NBG).map fun c => file.getD (2 * c + column) 255

/-- The paths `fastfind` goes through, from what stands in its buffer at the start. -/
def fastfind (buffer file : List Byte) : Except Fault (List (List Byte)) :=
  let stream := file.drop (NBG * 2)
  readLoop (readBigrams file 0) (readBigrams file 1) (file.length + 1)
    stream.head? stream.tail buffer 0

/-! ## Words and counts -/

theorem getw_putw {word : Int} (low : -2147483648 ≤ word) (high : word < 2147483648)
    (stream : List Byte) : getw (putw word ++ stream) = (word, stream) := by
  have bound := (BitVec.ofInt 32 word).isLt
  have digits : ∀ bits : Nat, bits < 4294967296 →
      (UInt8.ofNat bits).toNat + 256 * (UInt8.ofNat (bits / 256)).toNat +
        65536 * (UInt8.ofNat (bits / 65536)).toNat +
        16777216 * (UInt8.ofNat (bits / 16777216)).toNat = bits := by
    intro bits small
    simp only [UInt8.toNat_ofNat']
    omega
  simp only [putw, List.cons_append, List.nil_append, getw, digits _ bound,
    BitVec.ofNat_toNat, BitVec.setWidth_eq, BitVec.toInt_ofInt]
  rw [Int.bmod_eq_of_le (by omega) (by omega)]

theorem putCount_read (diffcount : Int) (low : -2147483648 ≤ diffcount)
    (high : diffcount < 2147483648) (rest : List Byte) :
    ∃ c stream, putCount diffcount ++ rest = c :: stream ∧ c ≤ SWITCH ∧
      (if c = SWITCH then getw stream else ((c.toNat : Int), stream)) = (diffcount, rest) := by
  unfold putCount
  by_cases far : diffcount < 0 ∨ diffcount > 2 * OFFSET
  · refine ⟨SWITCH, putw diffcount ++ rest, by rw [if_pos far]; rfl, by decide, ?_⟩
    rw [if_pos rfl, getw_putw low high]
  · unfold OFFSET at far
    obtain ⟨small, rfl⟩ : ∃ small : Nat, diffcount = small := ⟨diffcount.toNat, by omega⟩
    refine ⟨UInt8.ofNat small, rest, by rw [if_neg (by unfold OFFSET; omega)]; rfl, ?_, ?_⟩
    · have all : ∀ k : Fin 29, UInt8.ofNat k ≤ SWITCH := by decide
      exact all ⟨small, by omega⟩
    · have all : ∀ k : Fin 29, UInt8.ofNat k ≠ SWITCH := by decide
      rw [if_neg (all ⟨small, by omega⟩), UInt8.toNat_ofNat']
      have whole : small % 2 ^ 8 = small := by omega
      rw [whole]

/-! ## The bigram table -/

theorem bgindexFrom_found {bg0 bg1 : Byte} :
    ∀ {table : List Byte} {offset code : Nat}, bgindexFrom bg0 bg1 offset table = some code →
      ∃ k, code = offset + 2 * k ∧ table[2 * k]? = some bg0 ∧ table[2 * k + 1]? = some bg1 := by
  intro table offset code
  fun_induction bgindexFrom bg0 bg1 offset table with
  | case1 => intro found; cases found
  | case2 offset p0 p1 rest nonzero same =>
      intro found
      cases found
      exact ⟨0, by simp, by simp [same.1], by simp [same.2]⟩
  | case3 offset p0 p1 rest nonzero differ ih =>
      intro found
      obtain ⟨k, rfl, first, second⟩ := ih found
      refine ⟨k + 1, by omega, ?_, ?_⟩
      · rw [show 2 * (k + 1) = 2 * k + 2 by omega]
        simpa using first
      · rw [show 2 * (k + 1) + 1 = 2 * k + 1 + 2 by omega]
        simpa using second
  | case4 => intro found; cases found

theorem bigramArray_length (argument : List Byte) : (bigramArray argument).length = NBG * 2 := by
  unfold bigramArray
  have short : ((argument.takeWhile (· ≠ 0)).take (NBG * 2)).length ≤ NBG * 2 :=
    List.length_take_le _ _
  simp only [List.length_append, List.length_replicate]
  omega

theorem bigram_read {table : List Byte} (rest : List Byte)
    (length : table.length = NBG * 2) {bg0 bg1 : Byte}
    {code : Nat} (found : bgindex table bg0 bg1 = some code) :
    ∃ k, k < 128 ∧ code / 2 = k ∧
      (readBigrams (table ++ rest) 0).getD k 0 = bg0 ∧
      (readBigrams (table ++ rest) 1).getD k 0 = bg1 := by
  obtain ⟨k, rfl, first, second⟩ := bgindexFrom_found found
  have inside : 2 * k + 1 < table.length := (List.getElem?_eq_some_iff.mp second).1
  have bound : k < 128 := by
    unfold NBG at length
    omega
  have column : ∀ c, c < 2 → (readBigrams (table ++ rest) c).getD k 0 =
      table.getD (2 * k + c) 255 := by
    intro c small
    unfold readBigrams
    simp only [List.getD_eq_getElem?_getD, List.getElem?_map]
    rw [List.getElem?_range (show k < NBG from bound), Option.map_some, Option.getD_some,
      List.getElem?_append_left (by omega)]
  refine ⟨k, bound, by omega, ?_, ?_⟩
  · rw [column 0 (by decide)]
    simp [List.getD_eq_getElem?_getD, first]
  · rw [column 1 (by decide)]
    simp [List.getD_eq_getElem?_getD, second]

/-! ## Overlaying a path -/

/-- A stretch of the buffer replaced by other characters. -/
def splice (path : List Byte) (p : Nat) (tail : List Byte) : List Byte :=
  path.take p ++ tail ++ path.drop (p + tail.length)

theorem splice_nil (path : List Byte) (p : Nat) : splice path p [] = path := by
  simp [splice]

variable {path : List Byte}

variable {p : Nat} {paths : List (List Byte)} {name : List Byte}

theorem splice_cons (inside : p < path.length) (c : Byte) (tail : List Byte) :
    splice (path.set p c) (p + 1) tail = splice path p (c :: tail) := by
  unfold splice
  have front : (path.set p c).take (p + 1) = path.take p ++ [c] := by
    rw [List.take_add_one, List.take_set_of_le (Nat.le_refl p), List.getElem?_set_self inside]
    rfl
  have back : (path.set p c).drop (p + 1 + tail.length) = path.drop (p + (c :: tail).length) := by
    rw [List.drop_set_of_lt (by omega), List.length_cons]
    congr 1
    omega
  rw [front, back]
  simp

theorem splice_length {tail : List Byte} (inside : p + tail.length ≤ path.length) :
    (splice path p tail).length = path.length := by
  simp only [splice, List.length_append, List.length_take, List.length_drop]
  omega

theorem putPath_inside (inside : p < path.length) (c : Byte) :
    putPath path p c = .ok (path.set p c) := by
  unfold putPath
  rw [if_pos ⟨by omega, by omega⟩, Int.toNat_natCast]

/-- Characters that stand for themselves in an entry. -/
def Literal (c : Byte) : Prop := ¬ c ≤ SWITCH ∧ c < PARITY

/-- The head of what follows an entry: nothing, or the code of the next count. -/
def Ends (rest : List Byte) : Prop := ∀ c, rest.head? = some c → c ≤ SWITCH

theorem overlay_end {rest : List Byte} (ends : Ends rest) (bigram1 bigram2 path : List Byte)
    (p : Int) : overlay bigram1 bigram2 rest path p = .ok (rest.head?, rest.tail, path, p) := by
  cases rest with
  | nil => rfl
  | cons c rest =>
      rw [overlay, if_pos (ends c rfl)]
      rfl

theorem overlay_literal {c : Byte} (literal : Literal c) (length : path.length = MAXPATHLEN)
    (room : p + 1 < MAXPATHLEN) (bigram1 bigram2 stream : List Byte) :
    overlay bigram1 bigram2 (c :: stream) path p =
      overlay bigram1 bigram2 stream (path.set p c) (p + 1 : Nat) := by
  rw [overlay, if_neg literal.1, if_neg (by omega), if_pos literal.2,
    putPath_inside (by omega)]
  rfl

theorem marked_code :
    ∀ k : Fin 128, ¬ (UInt8.ofNat k ||| PARITY) ≤ SWITCH ∧ ¬ (UInt8.ofNat k ||| PARITY) < PARITY ∧
      ((UInt8.ofNat k ||| PARITY) &&& (PARITY - 1)).toNat = k := by
  decide +kernel

theorem overlay_putResidue {table : List Byte} (tableLength : table.length = NBG * 2)
    (file : List Byte) {rest : List Byte} (ends : Ends rest) :
    ∀ (tail : List Byte), (∀ c ∈ tail, Literal c) → ∀ (path : List Byte) (p : Nat),
      path.length = MAXPATHLEN → p + tail.length < MAXPATHLEN →
      overlay (readBigrams (table ++ file) 0) (readBigrams (table ++ file) 1)
          (putResidue table tail ++ rest) path p =
        .ok (rest.head?, rest.tail, splice path p tail, (p + tail.length : Nat)) := by
  intro tail
  fun_induction putResidue table tail with
  | case1 =>
      intro _ path p _ _
      rw [splice_nil]
      exact overlay_end ends _ _ path p
  | case2 c =>
      intro literal path p length room
      simp only [List.length_singleton] at room
      rw [List.singleton_append, overlay_literal (literal c List.mem_cons_self) length room,
        overlay_end ends, ← splice_cons (by omega) c [], splice_nil]
      rfl
  | case3 bg0 bg1 tail missing ih =>
      intro literal path p length room
      simp only [List.length_cons] at room
      have first := literal bg0 List.mem_cons_self
      have second := literal bg1 (List.mem_cons_of_mem _ List.mem_cons_self)
      have later : ∀ c ∈ tail, Literal c := fun c member =>
        literal c (List.mem_cons_of_mem _ (List.mem_cons_of_mem _ member))
      rw [List.cons_append, List.cons_append, overlay_literal first length (by omega),
        overlay_literal second (by simpa using length) (by omega),
        ih later _ _ (by simpa using length) (by omega),
        splice_cons (by rw [List.length_set]; omega), splice_cons (by omega)]
      simp only [List.length_cons]
      congr 5
      omega
  | case4 bg0 bg1 tail code found ih =>
      intro literal path p length room
      simp only [List.length_cons] at room
      have later : ∀ c ∈ tail, Literal c := fun c member =>
        literal c (List.mem_cons_of_mem _ (List.mem_cons_of_mem _ member))
      obtain ⟨k, bound, half, first, second⟩ := bigram_read file tableLength found
      obtain ⟨high, marked, value⟩ := marked_code ⟨k, bound⟩
      simp only at high marked value
      have step : overlay (readBigrams (table ++ file) 0) (readBigrams (table ++ file) 1)
            ((UInt8.ofNat (code / 2) ||| PARITY) :: (putResidue table tail ++ rest)) path p =
          overlay (readBigrams (table ++ file) 0) (readBigrams (table ++ file) 1)
            (putResidue table tail ++ rest) ((path.set p bg0).set (p + 1) bg1)
            (p + 1 + 1 : Nat) := by
        rw [overlay, half, if_neg high, if_neg (by omega), if_neg marked]
        simp only [value, first, second]
        rw [putPath_inside (by omega)]
        simp only [bind, Except.bind]
        rw [show (p : Int) + 1 = (p + 1 : Nat) by omega,
          putPath_inside (by rw [List.length_set]; omega)]
        rfl
      rw [List.cons_append, step, ih later _ _ (by simpa using length) (by omega),
        splice_cons (by rw [List.length_set]; omega), splice_cons (by omega)]
      simp only [List.length_cons]
      congr 5
      omega

/-! ## The whole list -/

theorem commonPrefix_le (path oldpath : List Byte) : commonPrefix path oldpath ≤ path.length := by
  fun_induction commonPrefix path oldpath with
  | case1 c path oldpath ih => simpa using ih
  | case2 => simp
  | case3 => simp

theorem commonPrefix_le_old (path oldpath : List Byte) :
    commonPrefix path oldpath ≤ oldpath.length := by
  fun_induction commonPrefix path oldpath with
  | case1 c path oldpath ih => simpa using ih
  | case2 => simp
  | case3 => simp

theorem commonPrefix_take (path oldpath : List Byte) :
    oldpath.take (commonPrefix path oldpath) = path.take (commonPrefix path oldpath) := by
  fun_induction commonPrefix path oldpath with
  | case1 c path oldpath ih => simp [ih]
  | case2 => rfl
  | case3 => rfl

/-- A path that the entries can carry. -/
structure Storable (path : List Byte) : Prop where
  nonempty : path ≠ []
  literal : ∀ c ∈ path, Literal c
  short : path.length < MAXPATHLEN

theorem Storable.ne_zero (storable : Storable path) :
    ∀ c ∈ path, decide (c ≠ 0) = true := by
  intro c member
  have literal := (storable.literal c member).1
  rw [decide_eq_true_eq]
  rintro rfl
  exact literal (by decide)

theorem count_small (oldpath : List Byte) (storable : Storable path) :
    commonPrefix path oldpath < MAXPATHLEN :=
  Nat.lt_of_le_of_lt (commonPrefix_le path oldpath) storable.short

theorem putPaths_ends (table oldpath : List Byte) (oldcount : Nat) (small : oldcount < MAXPATHLEN)
    (storable : ∀ path ∈ paths, Storable path) :
    Ends (putPaths table oldpath oldcount paths) := by
  cases paths with
  | nil => intro c head; cases head
  | cons path paths =>
      intro c head
      have bound := count_small oldpath (storable path List.mem_cons_self)
      unfold MAXPATHLEN at small bound
      obtain ⟨first, stream, split, low, _⟩ := putCount_read
        ((commonPrefix path oldpath : Int) - oldcount + OFFSET)
        (by unfold OFFSET; omega) (by unfold OFFSET; omega)
        (putResidue table (path.drop (commonPrefix path oldpath)) ++
          putPaths table path (commonPrefix path oldpath) paths)
      rw [putPaths, List.append_assoc, split, List.head?_cons, Option.some.injEq] at head
      rw [← head]
      exact low

theorem buffer_entry {path buffer : List Byte} {count : Nat} (storable : Storable path)
    (within : count ≤ path.length) (shared : buffer.take count = path.take count)
    (length : buffer.length = MAXPATHLEN) :
    ∃ junk, (splice buffer count (path.drop count)).set path.length 0 = path ++ 0 :: junk := by
  have short := storable.short
  have total : count + (path.drop count).length = path.length := by
    rw [List.length_drop]
    omega
  have laid : splice buffer count (path.drop count) = path ++ buffer.drop path.length := by
    unfold splice
    rw [shared, List.take_append_drop, total]
  obtain ⟨c, junk, behind⟩ : ∃ c junk, buffer.drop path.length = c :: junk := by
    cases behind : buffer.drop path.length with
    | nil =>
        rw [List.drop_eq_nil_iff] at behind
        omega
    | cons c junk => exact ⟨c, junk, rfl⟩
  refine ⟨junk, ?_⟩
  rw [laid, behind, List.set_append_right _ _ (Nat.le_refl _), Nat.sub_self, List.set_cons_zero]

theorem entry_read {table : List Byte} (tableLength : table.length = NBG * 2) (file : List Byte)
    {path oldpath buffer : List Byte} {oldcount : Nat} (storable : Storable path)
    (later : ∀ other ∈ paths, Storable other) (small : oldcount < MAXPATHLEN)
    (length : buffer.length = MAXPATHLEN) (shared : buffer.take (commonPrefix path oldpath) =
      path.take (commonPrefix path oldpath)) :
    ∃ c stream rest laid junk,
      putPaths table oldpath oldcount (path :: paths) = c :: stream ∧
      (if c = SWITCH then getw stream else ((c.toNat : Int), stream)) =
        ((commonPrefix path oldpath : Int) - oldcount + OFFSET, rest) ∧
      overlay (readBigrams (table ++ file) 0) (readBigrams (table ++ file) 1) rest buffer
          (commonPrefix path oldpath : Nat) =
        .ok ((putPaths table path (commonPrefix path oldpath) paths).head?,
          (putPaths table path (commonPrefix path oldpath) paths).tail, laid,
          (path.length : Nat)) ∧
      putPath laid (path.length : Nat) 0 = .ok (path ++ 0 :: junk) ∧
      (path ++ 0 :: junk).length = MAXPATHLEN := by
  generalize counted : commonPrefix path oldpath = count at *
  have within : count ≤ path.length := counted ▸ commonPrefix_le path oldpath
  have short := storable.short
  have total : count + (path.drop count).length = path.length := by
    rw [List.length_drop]
    omega
  have ends := putPaths_ends table path count (by omega) later
  obtain ⟨junk, laid⟩ := buffer_entry storable within shared length
  obtain ⟨c, stream, split, _, value⟩ := putCount_read
    ((count : Int) - oldcount + OFFSET)
    (by unfold OFFSET; unfold MAXPATHLEN at *; omega)
    (by unfold OFFSET; unfold MAXPATHLEN at *; omega)
    (putResidue table (path.drop count) ++ putPaths table path count paths)
  have laidLength : (splice buffer count (path.drop count)).length = MAXPATHLEN := by
    rw [splice_length (by omega), length]
  have overlaid := overlay_putResidue tableLength file ends (path.drop count)
    (fun c member => storable.literal c (List.mem_of_mem_drop member)) buffer count length
    (by omega)
  rw [total] at overlaid
  refine ⟨c, stream, _, _, junk, ?_, value, overlaid, ?_, ?_⟩
  · rw [putPaths, counted, List.append_assoc, split]
  · rw [putPath_inside (by omega), laid]
  · rw [← laid, List.length_set, laidLength]

theorem readLoop_putPaths {table : List Byte} (tableLength : table.length = NBG * 2)
    (file : List Byte) :
    ∀ (paths : List (List Byte)) (oldpath buffer : List Byte) (oldcount fuel : Nat),
      (∀ path ∈ paths, Storable path) → oldcount < MAXPATHLEN →
      buffer.length = MAXPATHLEN →
      (∀ path, paths.head? = some path →
        buffer.take (commonPrefix path oldpath) = path.take (commonPrefix path oldpath)) →
      paths.length ≤ fuel →
      readLoop (readBigrams (table ++ file) 0) (readBigrams (table ++ file) 1) fuel
        (putPaths table oldpath oldcount paths).head?
        (putPaths table oldpath oldcount paths).tail buffer oldcount = .ok paths := by
  intro paths
  induction paths with
  | nil =>
      intro oldpath buffer oldcount fuel _ _ _ _ _
      cases fuel <;> rfl
  | cons path paths ih =>
      intro oldpath buffer oldcount fuel storable small length shared enough
      obtain ⟨more, rfl⟩ : ∃ more, fuel = more + 1 :=
        ⟨fuel - 1, by simp only [List.length_cons] at enough; omega⟩
      have this := storable path List.mem_cons_self
      have later : ∀ other ∈ paths, Storable other := fun other member =>
        storable other (List.mem_cons_of_mem _ member)
      obtain ⟨c, stream, rest, laid, junk, split, value, overlaid, stored, stays⟩ :=
        entry_read tableLength file this later small length (shared path rfl)
      have next := ih path (path ++ 0 :: junk) (commonPrefix path oldpath) more later
        (count_small oldpath this) stays
        (by
          intro other _
          rw [← commonPrefix_take other path,
            List.take_append_of_le_length (commonPrefix_le_old other path)])
        (by simp only [List.length_cons] at enough; omega)
      have moved : (oldcount : Int) + ((commonPrefix path oldpath : Int) - oldcount + OFFSET) -
          OFFSET = (commonPrefix path oldpath : Nat) := by
        omega
      have positive := List.length_pos_of_ne_nil this.nonempty
      have shown : (path ++ 0 :: junk).takeWhile (· ≠ 0) = path := by
        rw [List.takeWhile_append_of_pos this.ne_zero]
        simp
      rw [split, List.head?_cons, List.tail_cons, readLoop]
      simp only [value, moved, overlaid, stored, bind, Except.bind]
      rw [if_neg (by omega), next]
      simp only [shown]

theorem putCount_ne_nil (diffcount : Int) : putCount diffcount ≠ [] := by
  unfold putCount
  split <;> simp

theorem length_le_putPaths (table : List Byte) :
    ∀ (paths : List (List Byte)) (oldpath : List Byte) (oldcount : Nat),
      paths.length ≤ (putPaths table oldpath oldcount paths).length := by
  intro paths
  induction paths with
  | nil => simp
  | cons path paths ih =>
      intro oldpath oldcount
      have rest := ih path (commonPrefix path oldpath)
      have first := List.length_pos_of_ne_nil
        (putCount_ne_nil ((commonPrefix path oldpath : Int) - oldcount + OFFSET))
      simp only [putPaths, List.length_append, List.length_cons]
      omega

theorem commonPrefix_blank (rooted : path.head? ≠ some (byte ' ')) :
    commonPrefix path [byte ' '] = 0 := by
  cases path with
  | nil => rfl
  | cons c path =>
      have differ : c ≠ byte ' ' := by
        rintro rfl
        exact rooted rfl
      simp [commonPrefix, differ]

theorem fastfind_paths (argument : List Byte) {buffer : List Byte}
    (length : buffer.length = MAXPATHLEN) (storable : ∀ path ∈ paths, Storable path)
    (rooted : ∀ path, paths.head? = some path → path.head? ≠ some (byte ' ')) :
    fastfind buffer (bigramArray argument ++
      putPaths (bigramArray argument) [byte ' '] 0 paths) = .ok paths := by
  have tableLength := bigramArray_length argument
  unfold fastfind
  simp only [← tableLength, List.drop_left]
  have counted := length_le_putPaths (bigramArray argument) paths [byte ' '] 0
  refine readLoop_putPaths tableLength _ paths [byte ' '] buffer 0 _ storable (by decide) length
    ?_ (by rw [List.length_append]; omega)
  intro path first
  simp [commonPrefix_blank (rooted path first)]

structure PathName (name : List Byte) : Prop where
  absolute : name.head? = some (byte '/')
  printable : ∀ c ∈ name, Printable c
  short : name.length < MAXPATHLEN

theorem Printable.literal {c : Byte} (printable : Printable c) : Literal c := by
  refine ⟨fun below => ?_, UInt8.lt_trans printable.2 (by decide)⟩
  exact absurd (UInt8.le_trans printable.1 below) (by decide)

theorem PathName.nonempty (named : PathName name) : name ≠ [] := by
  rintro rfl
  cases named.absolute

theorem PathName.storable (named : PathName name) : Storable name where
  nonempty := named.nonempty
  literal c member := (named.printable c member).literal
  short := named.short

theorem PathName.nl_notMem (named : PathName name) : nl ∉ name :=
  fun member => absurd (named.printable nl member).1 (by decide)

theorem PathName.rooted (named : PathName name) :
    name.head? ≠ some (byte ' ') := by
  rw [named.absolute]
  decide

/-- The paths the compressor sees for names that leave room for their newline. -/
theorem paths_of_names {names : List (List Byte)} (named : ∀ name ∈ names, PathName name)
    (fit : ∀ name ∈ names, name.length + 1 < MAXPATHLEN) {fuel : Nat}
    (enough : names.length < fuel) :
    (readTexts fuel (names.flatMap (· ++ [nl]))).map bufferedPath = names := by
  rw [readTexts_lines names
    (fun name member => ⟨(named name member).nl_notMem, fit name member⟩) fuel enough]
  clear enough fit
  induction names with
  | nil => rfl
  | cons name names ih =>
      have this := named name List.mem_cons_self
      rw [List.map_cons, List.map_cons, bufferedPath_line this.nonempty this.printable,
        ih fun other member => named other (List.mem_cons_of_mem _ member)]

theorem length_le_lines (names : List (List Byte)) :
    names.length ≤ (names.flatMap (· ++ [nl])).length := by
  induction names with
  | nil => simp
  | cons name names ih =>
      simp only [List.flatMap_cons, List.length_append, List.length_cons, List.length_nil]
      omega

theorem fastfind_of_paths (argument : List Byte) {buffer : List Byte}
    (length : buffer.length = MAXPATHLEN) {stdin : List Byte}
    (seen : (readTexts (stdin.length + 1) stdin).map bufferedPath = paths)
    (storable : ∀ path ∈ paths, Storable path)
    (rooted : ∀ path, paths.head? = some path → path.head? ≠ some (byte ' ')) :
    fastfind buffer (code argument stdin) = .ok paths := by
  unfold code
  rw [seen]
  exact fastfind_paths argument length storable rooted

/-- Reading what the compressor writes for a list of names gives the list, in order
and with its repetitions. -/
theorem fastfind_code (argument : List Byte) {buffer : List Byte}
    (length : buffer.length = MAXPATHLEN) {names : List (List Byte)}
    (named : ∀ name ∈ names, PathName name)
    (fit : ∀ name ∈ names, name.length + 1 < MAXPATHLEN) :
    fastfind buffer (code argument (names.flatMap (· ++ [nl]))) = .ok names := by
  refine fastfind_of_paths argument length
    (paths_of_names named fit (Nat.lt_succ_of_le (length_le_lines names)))
    (fun name member => (named name member).storable) ?_
  intro name first
  exact (named name (List.mem_of_head? first)).rooted

theorem pathName_a : PathName (ascii ['/', 'a']) where
  absolute := rfl
  printable := by
    simp only [Printable]
    decide +kernel
  short := by decide

/-- Two names read back. -/
theorem fastfind_code_two :
    fastfind (List.replicate MAXPATHLEN 0)
      (code (List.replicate 256 (byte 'b'))
        ([ascii ['/', 'a'], ascii ['/', 'a']].flatMap (· ++ [nl]))) =
      .ok [ascii ['/', 'a'], ascii ['/', 'a']] :=
  fastfind_code _ List.length_replicate
    (by
      intro name member
      simp only [List.mem_cons, List.not_mem_nil, or_false, or_self] at member
      rw [member]
      exact pathName_a)
    (by
      intro name member
      simp only [List.mem_cons, List.not_mem_nil, or_false, or_self] at member
      rw [member]
      decide)

/-- The longest name the buffers hold, which leaves no room for a newline. -/
def longestName : List Byte := byte '/' :: List.replicate (MAXPATHLEN - 2) (byte 'a')

theorem longestName_length : longestName.length = MAXPATHLEN - 1 := by
  unfold longestName
  rw [List.length_cons, List.length_replicate]
  rfl

theorem longestName_pathName : PathName longestName where
  absolute := rfl
  printable := by
    intro c member
    unfold longestName at member
    rcases List.mem_cons.mp member with rfl | inside
    · exact ⟨by decide, by decide⟩
    · rw [List.eq_of_mem_replicate inside]
      exact ⟨by decide, by decide⟩
  short := by
    rw [longestName_length]
    decide

theorem paths_of_longestName :
    (readTexts ((longestName ++ [nl]).length + 1) (longestName ++ [nl])).map bufferedPath =
      [longestName, [byte '?']] := by
  have read := fgets_full longestName_pathName.nl_notMem [nl]
  rw [longestName_length] at read
  obtain ⟨more, fuel⟩ : ∃ more, (longestName ++ [nl]).length + 1 = more + 2 :=
    ⟨longestName.length, by simp⟩
  have first : readTexts (more + 2) (longestName ++ [nl]) =
      longestName :: readTexts (more + 1) [nl] := by
    unfold longestName at read ⊢
    rw [List.cons_append] at read ⊢
    rw [readTexts, read]
  have second : readTexts (more + 1) [nl] = [[nl]] := by
    have newline : fgets (MAXPATHLEN - 1) [nl] = ([nl], []) := rfl
    rw [readTexts, newline]
    cases more <;> rfl
  rw [fuel, first, second, List.map_cons, List.map_cons, List.map_nil,
    bufferedPath_open longestName_pathName.printable]
  rfl

/-- Repeated names are not squelched, and the longest name brings a path that was not
in the list. -/
theorem fastfind_code_not_squelched :
    fastfind (List.replicate MAXPATHLEN 0)
      (code (List.replicate 256 (byte 'b'))
        ([ascii ['/', 'a'], ascii ['/', 'a']].flatMap (· ++ [nl]))) ≠
      .ok ([ascii ['/', 'a'], ascii ['/', 'a']].destutter (· ≠ ·)) ∧
    PathName longestName ∧
    fastfind (List.replicate MAXPATHLEN 0)
      (code (List.replicate 256 (byte 'b')) (longestName ++ [nl])) ≠ .ok [longestName] := by
  have table : (List.replicate MAXPATHLEN (0 : Byte)).length = MAXPATHLEN :=
    List.length_replicate
  have twice : ∀ name ∈ [ascii ['/', 'a'], ascii ['/', 'a']], name = ascii ['/', 'a'] := by
    decide
  have query : Storable [byte '?'] :=
    { nonempty := by decide, literal := by simp only [Literal]; decide +kernel, short := by decide }
  refine ⟨?_, longestName_pathName, ?_⟩
  · rw [fastfind_of_paths _ table (paths_of_names
      (fun name member => twice name member ▸ pathName_a) (by decide) (by decide))
      (fun name member => twice name member ▸ pathName_a.storable)
      (by rintro name ⟨⟩; exact pathName_a.rooted)]
    decide
  · rw [fastfind_of_paths _ table paths_of_longestName
      (by
        intro path member
        rcases List.mem_cons.mp member with rfl | last
        · exact longestName_pathName.storable
        · rw [List.mem_singleton.mp last]
          exact query)
      (by rintro name ⟨⟩; exact longestName_pathName.rooted)]
    simp

end Netbase.Locate
