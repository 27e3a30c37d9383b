import Netbase.Text.Lines
import Mathlib.Data.List.TakeWhile

/-!
# The path list compressor

`locate.code` reads a list of paths and writes the bigram table followed by one
entry a path: the change of the length shared with the path before, and what is
left of the path with frequent pairs of characters written as one byte.
-/

namespace Netbase.Locate

open Netbase.Text

def NBG : Nat := 128

def OFFSET : Int := 14

def PARITY : Byte := 128

def SWITCH : Byte := 30

def MAXPATHLEN : Nat := 4096

/-- Read at most `size` bytes, up to and with the first newline. -/
def fgets : Nat → List Byte → List Byte × List Byte
  | 0, stream => ([], stream)
  | _ + 1, [] => ([], [])
  | size + 1, b :: stream =>
      if b = nl then ([b], stream)
      else (b :: (fgets size stream).1, (fgets size stream).2)

/-- The texts the successive calls of `fgets` leave in the buffer. -/
def readTexts : Nat → List Byte → List (List Byte)
  | 0, _ => []
  | _ + 1, [] => []
  | fuel + 1, b :: stream =>
      (fgets (MAXPATHLEN - 1) (b :: stream)).1 ::
        readTexts fuel (fgets (MAXPATHLEN - 1) (b :: stream)).2

/-- Cut the newline off, unless it is the first character. -/
def truncateNewline (path : List Byte) : List Byte :=
  if 1 < path.length ∧ path.getLast? = some nl then path.dropLast else path

/-- Replace a character that would botch the decoding. -/
def squelch (c : Byte) : Byte :=
  if c &&& (PARITY - 1) ≤ SWITCH then byte '?' else c &&& (PARITY - 1)

/-- The path in the buffer after a text has been read into it. -/
def bufferedPath (text : List Byte) : List Byte :=
  (truncateNewline (text.takeWhile (· ≠ 0))).map squelch

/-- The length of the longest common prefix. -/
def commonPrefix : List Byte → List Byte → Nat
  | c :: path, d :: oldpath => if c = d then commonPrefix path oldpath + 1 else 0
  | _, _ => 0

/-- The four bytes of a word, the lowest one first. -/
def putw (word : Int) : List Byte :=
  let bits := (BitVec.ofInt 32 word).toNat
  [UInt8.ofNat bits, UInt8.ofNat (bits / 256), UInt8.ofNat (bits / 65536),
    UInt8.ofNat (bits / 16777216)]

def putCount (diffcount : Int) : List Byte :=
  if diffcount < 0 ∨ diffcount > 2 * OFFSET then SWITCH :: putw diffcount
  else [UInt8.ofNat diffcount.toNat]

/-- The loop of `bgindex`; the table ends at a zero or after its last pair. -/
def bgindexFrom (bg0 bg1 : Byte) : Nat → List Byte → Option Nat
  | offset, p0 :: p1 :: rest =>
      if p0 = 0 then none
      else if p0 = bg0 ∧ p1 = bg1 then some offset
      else bgindexFrom bg0 bg1 (offset + 2) rest
  | _, _ => none

def bgindex (bigrams : List Byte) (bg0 bg1 : Byte) : Option Nat :=
  bgindexFrom bg0 bg1 0 bigrams

/-- What is written of a path behind the common prefix. -/
def putResidue (bigrams : List Byte) : List Byte → List Byte
  | [] => []
  | [c] => [c]
  | bg0 :: bg1 :: rest =>
      match bgindex bigrams bg0 bg1 with
      | none => bg0 :: bg1 :: putResidue bigrams rest
      | some code => (UInt8.ofNat (code / 2) ||| PARITY) :: putResidue bigrams rest

/-- The entries of a list of paths after `oldpath`. -/
def putPaths (bigrams : List Byte) : List Byte → Nat → List (List Byte) → List Byte
  | _, _, [] => []
  | oldpath, oldcount, path :: paths =>
      let count := commonPrefix path oldpath
      putCount ((count : Int) - oldcount + OFFSET) ++ putResidue bigrams (path.drop count) ++
        putPaths bigrams path count paths

/-- The bigram array: the first argument, cut or filled with zeros to its size. -/
def bigramArray (argument : List Byte) : List Byte :=
  let copied := (argument.takeWhile (· ≠ 0)).take (NBG * 2)
  copied ++ List.replicate (NBG * 2 - copied.length) 0

/-- The standard output of `locate.code`; the path before the first one is a blank. -/
def code (argument stdin : List Byte) : List Byte :=
  bigramArray argument ++
    putPaths (bigramArray argument) [byte ' '] 0
      ((readTexts (stdin.length + 1) stdin).map bufferedPath)

/-! ## Reading the list -/

variable {line : List Byte}

theorem fgets_line (clean : nl ∉ line) (rest : List Byte) :
    ∀ size : Nat, line.length < size →
      fgets size (line ++ nl :: rest) = (line ++ [nl], rest) := by
  induction line with
  | nil =>
      intro size room
      obtain ⟨more, rfl⟩ := Nat.exists_eq_add_of_lt room
      simp [fgets]
  | cons b line ih =>
      intro size room
      simp only [List.length_cons] at room
      obtain ⟨more, rfl⟩ : ∃ more, size = more + 1 := ⟨size - 1, by omega⟩
      simp only [List.mem_cons, not_or] at clean
      have next := ih clean.2 more (by omega)
      simp only [List.cons_append, fgets, if_neg (Ne.symm clean.1), next]

/-- A text that fills the buffer is read without what follows it. -/
theorem fgets_full (clean : nl ∉ line) (rest : List Byte) :
    fgets line.length (line ++ rest) = (line, rest) := by
  induction line with
  | nil => cases rest <;> simp [fgets]
  | cons b line ih =>
      simp only [List.mem_cons, not_or] at clean
      simp only [List.length_cons, List.cons_append, fgets, if_neg (Ne.symm clean.1),
        ih clean.2]

theorem readTexts_line (clean : nl ∉ line) (room : line.length + 1 < MAXPATHLEN) (rest : List Byte)
    (fuel : Nat) :
    readTexts (fuel + 1) (line ++ nl :: rest) = (line ++ [nl]) :: readTexts fuel rest := by
  have read := fgets_line clean rest (MAXPATHLEN - 1) (by omega)
  cases line with
  | nil =>
      simp only [List.nil_append] at read ⊢
      simp only [readTexts, read]
  | cons b line =>
      simp only [List.cons_append] at read ⊢
      simp only [readTexts, read]

theorem readTexts_lines (names : List (List Byte))
    (fit : ∀ name ∈ names, nl ∉ name ∧ name.length + 1 < MAXPATHLEN) :
    ∀ fuel, names.length < fuel →
      readTexts fuel (names.flatMap (· ++ [nl])) = names.map (· ++ [nl]) := by
  induction names with
  | nil =>
      intro fuel enough
      cases fuel <;> simp [readTexts]
  | cons name names ih =>
      intro fuel enough
      obtain ⟨more, rfl⟩ : ∃ more, fuel = more + 1 := ⟨fuel - 1, by omega⟩
      obtain ⟨clean, room⟩ := fit name List.mem_cons_self
      simp only [List.length_cons] at enough
      rw [List.flatMap_cons, List.append_assoc, List.singleton_append,
        readTexts_line clean room, List.map_cons,
        ih (fun other member => fit other (List.mem_cons_of_mem _ member)) more (by omega)]

/-- Characters that reach the output as they are. -/
def Printable (c : Byte) : Prop := 32 ≤ c ∧ c < 127

theorem squelch_printable {c : Byte} (printable : Printable c) : squelch c = c := by
  have low : c.toNat < 2 ^ 7 := Nat.lt_trans (UInt8.lt_iff_toNat_lt.mp printable.2) (by decide)
  have same : c &&& (PARITY - 1) = c := by
    apply UInt8.toNat_inj.mp
    rw [UInt8.toNat_and]
    exact (Nat.and_two_pow_sub_one_eq_mod c.toNat 7).trans (Nat.mod_eq_of_lt low)
  have apart : ¬ c ≤ SWITCH := fun below =>
    absurd (UInt8.le_trans printable.1 below) (by decide)
  rw [squelch, same, if_neg apart]

theorem Printable.ne_zero {c : Byte} (printable : Printable c) : c ≠ 0 := by
  rintro rfl
  exact absurd printable.1 (by decide)

theorem map_squelch (printable : ∀ c ∈ line, Printable c) :
    line.map squelch = line := by
  induction line with
  | nil => rfl
  | cons c line ih =>
      rw [List.map_cons, squelch_printable (printable c List.mem_cons_self),
        ih fun d member => printable d (List.mem_cons_of_mem _ member)]

theorem bufferedPath_line (nonempty : line ≠ []) (printable : ∀ c ∈ line, Printable c) :
    bufferedPath (line ++ [nl]) = line := by
  have whole : (line ++ [nl]).takeWhile (· ≠ 0) = line ++ [nl] := by
    rw [List.takeWhile_eq_self_iff]
    intro c member
    rcases List.mem_append.mp member with inside | last
    · simpa using (printable c inside).ne_zero
    · rw [List.mem_singleton.mp last]
      decide
  have long : 1 < (line ++ [nl]).length := by
    have := List.length_pos_of_ne_nil nonempty
    simp only [List.length_append, List.length_singleton]
    omega
  unfold bufferedPath truncateNewline
  rw [whole, if_pos ⟨long, by simp⟩, List.dropLast_concat, map_squelch printable]

theorem bufferedPath_open (printable : ∀ c ∈ line, Printable c) :
    bufferedPath line = line := by
  have whole : line.takeWhile (· ≠ 0) = line := by
    rw [List.takeWhile_eq_self_iff]
    intro c member
    simpa using (printable c member).ne_zero
  have kept : ¬ (1 < line.length ∧ line.getLast? = some nl) := by
    rintro ⟨_, last⟩
    exact absurd (printable nl (List.mem_of_getLast? last)).1 (by decide)
  unfold bufferedPath truncateNewline
  rw [whole, if_neg kept, map_squelch printable]

end Netbase.Locate
