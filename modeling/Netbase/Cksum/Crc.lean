import Netbase.Lib.Remainder
import Netbase.Text.Lines

/-!
# The checksum of POSIX

A byte moves the remainder up by eight bits and comes in behind it: the table has what the bits
that are lost leave.  Sixteen bytes at a time are looked up in tables of what a byte leaves when
more bytes follow it.  The value is the remainder of the message as a polynomial, whatever the
buffers it comes in.
-/

namespace Netbase.Cksum

open Netbase.Text Netbase.Lib.Remainder
open Polynomial

abbrev Word := BitVec 32

def crctab : List Word :=
  [
    0, 0x04c11db7, 0x09823b6e, 0x0d4326d9, 0x130476dc, 0x17c56b6b, 0x1a864db2, 0x1e475005,
    0x2608edb8, 0x22c9f00f, 0x2f8ad6d6, 0x2b4bcb61, 0x350c9b64, 0x31cd86d3, 0x3c8ea00a, 0x384fbdbd,
    0x4c11db70, 0x48d0c6c7, 0x4593e01e, 0x4152fda9, 0x5f15adac, 0x5bd4b01b, 0x569796c2, 0x52568b75,
    0x6a1936c8, 0x6ed82b7f, 0x639b0da6, 0x675a1011, 0x791d4014, 0x7ddc5da3, 0x709f7b7a, 0x745e66cd,
    0x9823b6e0, 0x9ce2ab57, 0x91a18d8e, 0x95609039, 0x8b27c03c, 0x8fe6dd8b, 0x82a5fb52, 0x8664e6e5,
    0xbe2b5b58, 0xbaea46ef, 0xb7a96036, 0xb3687d81, 0xad2f2d84, 0xa9ee3033, 0xa4ad16ea, 0xa06c0b5d,
    0xd4326d90, 0xd0f37027, 0xddb056fe, 0xd9714b49, 0xc7361b4c, 0xc3f706fb, 0xceb42022, 0xca753d95,
    0xf23a8028, 0xf6fb9d9f, 0xfbb8bb46, 0xff79a6f1, 0xe13ef6f4, 0xe5ffeb43, 0xe8bccd9a, 0xec7dd02d,
    0x34867077, 0x30476dc0, 0x3d044b19, 0x39c556ae, 0x278206ab, 0x23431b1c, 0x2e003dc5, 0x2ac12072,
    0x128e9dcf, 0x164f8078, 0x1b0ca6a1, 0x1fcdbb16, 0x018aeb13, 0x054bf6a4, 0x0808d07d, 0x0cc9cdca,
    0x7897ab07, 0x7c56b6b0, 0x71159069, 0x75d48dde, 0x6b93dddb, 0x6f52c06c, 0x6211e6b5, 0x66d0fb02,
    0x5e9f46bf, 0x5a5e5b08, 0x571d7dd1, 0x53dc6066, 0x4d9b3063, 0x495a2dd4, 0x44190b0d, 0x40d816ba,
    0xaca5c697, 0xa864db20, 0xa527fdf9, 0xa1e6e04e, 0xbfa1b04b, 0xbb60adfc, 0xb6238b25, 0xb2e29692,
    0x8aad2b2f, 0x8e6c3698, 0x832f1041, 0x87ee0df6, 0x99a95df3, 0x9d684044, 0x902b669d, 0x94ea7b2a,
    0xe0b41de7, 0xe4750050, 0xe9362689, 0xedf73b3e, 0xf3b06b3b, 0xf771768c, 0xfa325055, 0xfef34de2,
    0xc6bcf05f, 0xc27dede8, 0xcf3ecb31, 0xcbffd686, 0xd5b88683, 0xd1799b34, 0xdc3abded, 0xd8fba05a,
    0x690ce0ee, 0x6dcdfd59, 0x608edb80, 0x644fc637, 0x7a089632, 0x7ec98b85, 0x738aad5c, 0x774bb0eb,
    0x4f040d56, 0x4bc510e1, 0x46863638, 0x42472b8f, 0x5c007b8a, 0x58c1663d, 0x558240e4, 0x51435d53,
    0x251d3b9e, 0x21dc2629, 0x2c9f00f0, 0x285e1d47, 0x36194d42, 0x32d850f5, 0x3f9b762c, 0x3b5a6b9b,
    0x0315d626, 0x07d4cb91, 0x0a97ed48, 0x0e56f0ff, 0x1011a0fa, 0x14d0bd4d, 0x19939b94, 0x1d528623,
    0xf12f560e, 0xf5ee4bb9, 0xf8ad6d60, 0xfc6c70d7, 0xe22b20d2, 0xe6ea3d65, 0xeba91bbc, 0xef68060b,
    0xd727bbb6, 0xd3e6a601, 0xdea580d8, 0xda649d6f, 0xc423cd6a, 0xc0e2d0dd, 0xcda1f604, 0xc960ebb3,
    0xbd3e8d7e, 0xb9ff90c9, 0xb4bcb610, 0xb07daba7, 0xae3afba2, 0xaafbe615, 0xa7b8c0cc, 0xa379dd7b,
    0x9b3660c6, 0x9ff77d71, 0x92b45ba8, 0x9675461f, 0x8832161a, 0x8cf30bad, 0x81b02d74, 0x857130c3,
    0x5d8a9099, 0x594b8d2e, 0x5408abf7, 0x50c9b640, 0x4e8ee645, 0x4a4ffbf2, 0x470cdd2b, 0x43cdc09c,
    0x7b827d21, 0x7f436096, 0x7200464f, 0x76c15bf8, 0x68860bfd, 0x6c47164a, 0x61043093, 0x65c52d24,
    0x119b4be9, 0x155a565e, 0x18197087, 0x1cd86d30, 0x029f3d35, 0x065e2082, 0x0b1d065b, 0x0fdc1bec,
    0x3793a651, 0x3352bbe6, 0x3e119d3f, 0x3ad08088, 0x2497d08d, 0x2056cd3a, 0x2d15ebe3, 0x29d4f654,
    0xc5a92679, 0xc1683bce, 0xcc2b1d17, 0xc8ea00a0, 0xd6ad50a5, 0xd26c4d12, 0xdf2f6bcb, 0xdbee767c,
    0xe3a1cbc1, 0xe760d676, 0xea23f0af, 0xeee2ed18, 0xf0a5bd1d, 0xf464a0aa, 0xf9278673, 0xfde69bc4,
    0x89b8fd09, 0x8d79e0be, 0x803ac667, 0x84fbdbd0, 0x9abc8bd5, 0x9e7d9662, 0x933eb0bb, 0x97ffad0c,
    0xafb010b1, 0xab710d06, 0xa6322bdf, 0xa2f33668, 0xbcb4666d, 0xb8757bda, 0xb5365d03, 0xb1f740b4]

/-- The macro `COMPUTE`. -/
def compute (var ch : Word) : Word := var <<< 8 ^^^ crctab.getD (var >>> 24 ^^^ ch).toNat 0

def crcByte (thecrc byteVal : Word) : Word := compute thecrc (byteVal &&& 0xff)

/-- The table `crcslice`, its rows first. -/
abbrev Slices := Nat → Nat → Word

def tables : Slices := fun b a => (compute · 0)^[b + 1] (crctab.getD a 0)

def be32dec : List Byte → Word
  | b0 :: b1 :: b2 :: b3 :: _ => b0.toBitVec ++ b1.toBitVec ++ b2.toBitVec ++ b3.toBitVec
  | _ => 0

/-- The loops of `crc_buf`. -/
def bufLoops (crcslice : Slices) (thecrc : Word) (p : List Byte) : Word :=
  let at_ (word : Word) (shift : Nat) : Nat := (word >>> shift &&& 0xff).toNat
  if 16 ≤ p.length then
    let a := be32dec p ^^^ thecrc
    let b := be32dec (p.drop 4)
    let c := be32dec (p.drop 8)
    let d := be32dec (p.drop 12)
    let thecrc := crcslice 14 (at_ a 24) ^^^ crcslice 13 (at_ a 16) ^^^ crcslice 12 (at_ a 8) ^^^
      crcslice 11 (at_ a 0) ^^^ crcslice 10 (at_ b 24) ^^^ crcslice 9 (at_ b 16) ^^^
      crcslice 8 (at_ b 8) ^^^ crcslice 7 (at_ b 0) ^^^ crcslice 6 (at_ c 24) ^^^
      crcslice 5 (at_ c 16) ^^^ crcslice 4 (at_ c 8) ^^^ crcslice 3 (at_ c 0) ^^^
      crcslice 2 (at_ d 24) ^^^ crcslice 1 (at_ d 16) ^^^ crcslice 0 (at_ d 8) ^^^
      crctab.getD (at_ d 0) 0
    bufLoops crcslice thecrc (p.drop 16)
  else p.foldl (fun thecrc ch => compute thecrc (ch.toBitVec.setWidth 32)) thecrc
termination_by p.length
decreasing_by simp only [List.length_drop]; omega

/-- The value of a buffer, and the table behind the call. -/
def crcBuf (crcslice : Slices) (thecrc : Word) (buf : List Byte) : Word × Slices :=
  let crcslice := if crcslice 14 255 = 0 then tables else crcslice
  (bufLoops crcslice thecrc buf, crcslice)

/-- The calls for the pieces of a message, from a table that is not computed yet. -/
def crcPieces (thecrc : Word) (pieces : List (List Byte)) : Word :=
  (pieces.foldl (fun s piece => crcBuf s.2 s.1 piece) (thecrc, fun _ _ => 0)).1

def crcBytes (thecrc : Word) (bytes : List Byte) : Word :=
  bytes.foldl (fun thecrc ch => crcByte thecrc (ch.toBitVec.setWidth 32)) thecrc

/-- The message as a polynomial, its first byte the highest. -/
noncomputable def message : List Byte → Polynomial (ZMod 2)
  | [] => 0
  | c :: rest => X ^ (8 * rest.length) * poly c.toBitVec + message rest

def POSIX : Word := 0x04c11db7

/-! ## What a byte leaves -/

/-- The shift on numbers. -/
def shiftNat (n : Nat) : Nat := 2 * n % 2 ^ 32 ^^^ if n < 2 ^ 31 then 0 else 0x04c11db7

theorem toNat_shift (c : Word) : (shift POSIX c).toNat = shiftNat c.toNat := by
  rw [shift, BitVec.toNat_xor, BitVec.toNat_shiftLeft, Nat.shiftLeft_eq, pow_one, mul_comm,
    BitVec.msb_eq_decide, shiftNat]
  by_cases low : c.toNat < 2 ^ 31
  · rw [if_pos low, if_neg (by simpa using low)]
    rfl
  · rw [if_neg low, if_pos (by simpa using low)]
    rfl

theorem crctab_shiftNat : crctab.map BitVec.toNat =
    (List.range 256).map fun n => shiftNat^[8] (n * 2 ^ 24) := by
  decide +kernel

theorem crctab_shift (x : BitVec 8) :
    crctab.getD x.toNat 0 = (shift POSIX)^[8] (x ++ (0 : BitVec 24)) := by
  have shifts (n : Nat) (c : Word) : ((shift POSIX)^[n] c).toNat = shiftNat^[n] c.toNat :=
    (Function.Semiconj.iterate_right toNat_shift n) c
  have inside : x.toNat < ((List.range 256).map fun n => shiftNat^[8] (n * 2 ^ 24)).length := by
    rw [List.length_map, List.length_range]
    exact x.isLt
  have entry : (crctab.getD x.toNat 0).toNat = (crctab.map BitVec.toNat).getD x.toNat 0 := by
    rw [← List.getD_map _ _ BitVec.toNat]
    rfl
  have bits : (x ++ (0 : BitVec 24)).toNat = x.toNat * 2 ^ 24 := by
    rw [BitVec.toNat_append, Nat.shiftLeft_eq]
    exact Nat.or_zero _
  apply BitVec.eq_of_toNat_eq
  rw [entry, crctab_shiftNat, List.getD_eq_getElem _ _ inside, List.getElem_map,
    List.getElem_range, shifts, bits]

noncomputable abbrev root := AdjoinRoot.root (generator POSIX)

theorem residue_crctab (x : BitVec 8) : residue POSIX (crctab.getD x.toNat 0) = root ^ 32 * residue POSIX x := by
  rw [crctab_shift, residue_shifts, residue_append, residue_zero]
  ring

theorem split_word (c : Word) : c = c.extractLsb' 24 8 ++ c.extractLsb' 16 8 ++
    c.extractLsb' 8 8 ++ c.extractLsb' 0 8 := by
  apply BitVec.eq_of_getLsbD_eq
  intro i inside
  simp only [BitVec.getLsbD_append, BitVec.getLsbD_extractLsb']
  grind

theorem byte_at (c : Word) (k : Nat) :
    (c >>> k &&& 0xff).toNat = (c.extractLsb' k 8).toNat := by
  rw [BitVec.toNat_and, BitVec.toNat_ushiftRight, BitVec.extractLsb'_toNat]
  exact Nat.and_two_pow_sub_one_eq_mod _ 8

theorem residue_word (c : Word) : residue POSIX c = root ^ 24 * residue POSIX (c.extractLsb' 24 8) +
    root ^ 16 * residue POSIX (c.extractLsb' 16 8) + root ^ 8 * residue POSIX (c.extractLsb' 8 8) +
    residue POSIX (c.extractLsb' 0 8) := by
  conv_lhs => rw [split_word c]
  rw [residue_append, residue_append, residue_append]
  ring

theorem residue_compute (var : Word) (ch : Byte) : residue POSIX (compute var (ch.toBitVec.setWidth 32)) =
    root ^ 8 * residue POSIX var + root ^ 32 * residue POSIX ch.toBitVec := by
  have index : (var >>> 24 ^^^ ch.toBitVec.setWidth 32).toNat =
      (var.extractLsb' 24 8 ^^^ ch.toBitVec).toNat := by
    rw [BitVec.toNat_xor, BitVec.toNat_xor, BitVec.toNat_ushiftRight, BitVec.extractLsb'_toNat,
      BitVec.toNat_setWidth_of_le (by decide), Nat.mod_eq_of_lt]
    omega
  have moved : var <<< 8 = var.extractLsb' 0 24 ++ (0 : BitVec 8) := by
    apply BitVec.eq_of_getLsbD_eq
    intro i inside
    simp only [BitVec.getLsbD_append, BitVec.getLsbD_extractLsb', BitVec.getLsbD_shiftLeft]
    grind
  have parts : var = var.extractLsb' 24 8 ++ var.extractLsb' 0 24 := by
    apply BitVec.eq_of_getLsbD_eq
    intro i inside
    simp only [BitVec.getLsbD_append, BitVec.getLsbD_extractLsb']
    grind
  rw [compute, index, residue_xor, residue_crctab, moved, residue_append, residue_zero, residue_xor]
  conv_rhs => rw [parts, residue_append]
  ring

/-- What a byte leaves when `n` bytes follow it. -/
def row (n a : Nat) : Word := (compute · 0)^[n] (crctab.getD a 0)

theorem residue_row (n : Nat) (x : BitVec 8) :
    residue POSIX (row n x.toNat) = root ^ (8 * n + 32) * residue POSIX x := by
  unfold row
  induction n with
  | zero => exact residue_crctab x
  | succ n ih =>
      have step := residue_compute ((compute · 0)^[n] (crctab.getD x.toNat 0)) 0
      rw [Function.iterate_succ_apply']
      refine step.trans ?_
      rw [ih, show (0 : Byte).toBitVec = 0 from rfl, residue_zero]
      ring

/-- What the bytes of a word leave when `n` bytes follow it. -/
def rows (n : Nat) (c : Word) : Word :=
  row (n + 3) (c >>> 24 &&& 0xff).toNat ^^^ row (n + 2) (c >>> 16 &&& 0xff).toNat ^^^
    row (n + 1) (c >>> 8 &&& 0xff).toNat ^^^ row n (c >>> 0 &&& 0xff).toNat

theorem residue_rows (n : Nat) (c : Word) :
    residue POSIX (rows n c) = root ^ (8 * n + 32) * residue POSIX c := by
  simp only [rows, residue_xor, byte_at, residue_row]
  rw [residue_word c]
  ring

/-! ## The message -/

theorem message_append (p q : List Byte) :
    message (p ++ q) = X ^ (8 * q.length) * message p + message q := by
  induction p with
  | nil => simp [message]
  | cons c p ih =>
      rw [List.cons_append, message, message, ih, List.length_append]
      ring

theorem residue_be32dec {p : List Byte} (room : 4 ≤ p.length) :
    residue POSIX (be32dec p) = AdjoinRoot.mk _ (message (p.take 4)) := by
  obtain ⟨b0, b1, b2, b3, rest, rfl⟩ : ∃ b0 b1 b2 b3 rest, p = b0 :: b1 :: b2 :: b3 :: rest := by
    match p, room with
    | b0 :: b1 :: b2 :: b3 :: rest, _ => exact ⟨b0, b1, b2, b3, rest, rfl⟩
  simp only [be32dec, residue_append, List.take_succ_cons, List.take_zero, message, map_add,
    map_mul, map_pow, map_zero, AdjoinRoot.mk_X, List.length_cons, List.length_nil]
  simp only [residue]
  ring

theorem crcByte_byte (thecrc : Word) (ch : Byte) :
    crcByte thecrc (ch.toBitVec.setWidth 32) = compute thecrc (ch.toBitVec.setWidth 32) := by
  have low : ch.toBitVec.setWidth 32 &&& (0xff : Word) = ch.toBitVec.setWidth 32 := by
    apply BitVec.eq_of_toNat_eq
    rw [BitVec.toNat_and, BitVec.toNat_setWidth_of_le (by decide)]
    exact (Nat.and_two_pow_sub_one_eq_mod _ 8).trans (Nat.mod_eq_of_lt ch.toBitVec.isLt)
  rw [crcByte, low]

theorem residue_crcBytes (thecrc : Word) (bytes : List Byte) :
    residue POSIX (crcBytes thecrc bytes) = root ^ (8 * bytes.length) * residue POSIX thecrc +
      root ^ 32 * AdjoinRoot.mk _ (message bytes) := by
  induction bytes generalizing thecrc with
  | nil =>
      rw [message, map_zero, List.length_nil, mul_zero, mul_zero, pow_zero, one_mul, add_zero]
      rfl
  | cons c rest ih =>
      have step : crcBytes thecrc (c :: rest) =
          crcBytes (compute thecrc (c.toBitVec.setWidth 32)) rest := by
        rw [← crcByte_byte]
        rfl
      rw [step, ih, residue_compute]
      simp only [message, map_add, map_mul, map_pow, AdjoinRoot.mk_X, List.length_cons]
      simp only [residue]
      ring

theorem message_sixteen {p : List Byte} (room : 16 ≤ p.length) :
    AdjoinRoot.mk (generator POSIX) (message (p.take 16)) =
      root ^ 96 * residue POSIX (be32dec p) + root ^ 64 * residue POSIX (be32dec (p.drop 4)) +
      root ^ 32 * residue POSIX (be32dec (p.drop 8)) + residue POSIX (be32dec (p.drop 12)) := by
  have parts : p.take 16 = p.take 4 ++ ((p.drop 4).take 4 ++ ((p.drop 8).take 4 ++
      (p.drop 12).take 4)) := by
    rw [show 16 = 4 + (4 + (4 + 4)) from rfl, List.take_add, List.take_add, List.take_add,
      List.drop_drop, List.drop_drop]
  rw [residue_be32dec (by omega), residue_be32dec (by rw [List.length_drop]; omega),
    residue_be32dec (by rw [List.length_drop]; omega),
    residue_be32dec (by rw [List.length_drop]; omega), parts]
  simp only [message_append, map_add, map_mul, map_pow, AdjoinRoot.mk_X, List.length_append,
    List.length_take, List.length_drop]
  rw [Nat.min_eq_left (by omega), Nat.min_eq_left (by omega), Nat.min_eq_left (by omega)]
  ring

theorem bufLoops_tables (thecrc : Word) (p : List Byte) :
    bufLoops tables thecrc p = crcBytes thecrc p := by
  fun_induction bufLoops tables thecrc p with
  | case1 thecrc p at_ room a b c d next ih =>
      have block : next = crcBytes thecrc (p.take 16) := by
        have grouped : next = rows 12 a ^^^ rows 8 b ^^^ rows 4 c ^^^ rows 0 d := by
          simp only [next, rows, BitVec.xor_assoc]
          rfl
        refine residue_inj (show residue POSIX next = residue POSIX _ from ?_)
        rw [residue_crcBytes, message_sixteen room, List.length_take, Nat.min_eq_left room, grouped]
        simp only [residue_xor, residue_rows, a]
        ring
      rw [ih, block]
      simp only [crcBytes]
      rw [← List.foldl_append, List.take_append_drop]
  | case2 thecrc p short => simp only [crcBytes, crcByte_byte]

/-! ## The pieces -/

/-- The tables are in place, or the call that finds them missing computes them. -/
def Ready (crcslice : Slices) : Prop := crcslice = tables ∨ crcslice 14 255 = 0

theorem crcBuf_ready {crcslice : Slices} (ready : Ready crcslice) (thecrc : Word)
    (buf : List Byte) : crcBuf crcslice thecrc buf = (crcBytes thecrc buf, tables) := by
  have slices : (if crcslice 14 255 = 0 then tables else crcslice) = tables := by
    rcases ready with rfl | missing
    · exact ite_self tables
    · exact if_pos missing
  rw [crcBuf, slices, bufLoops_tables]

theorem crcPieces_eq (thecrc : Word) (pieces : List (List Byte)) :
    crcPieces thecrc pieces = crcBytes thecrc pieces.flatten := by
  have run (crcslice : Slices) (ready : Ready crcslice) :
      (pieces.foldl (fun s piece => crcBuf s.2 s.1 piece) (thecrc, crcslice)).1 =
        crcBytes thecrc pieces.flatten := by
    induction pieces generalizing thecrc crcslice with
    | nil => rfl
    | cons piece pieces ih =>
        rw [List.foldl_cons, crcBuf_ready ready, ih _ tables (Or.inl rfl), List.flatten_cons,
          crcBytes, crcBytes, crcBytes, List.foldl_append]
  exact run _ (Or.inr rfl)

/-- However the message is cut, the value is the one of its bytes taken singly, and it is the
remainder of the message behind the starting value. -/
theorem crcPieces_remainder (thecrc : Word) (pieces : List (List Byte)) :
    crcPieces thecrc pieces = crcBytes thecrc pieces.flatten ∧
      poly (crcPieces thecrc pieces) =
        (X ^ (8 * pieces.flatten.length) * poly thecrc + X ^ 32 * message pieces.flatten) %ₘ
          generator POSIX := by
  refine ⟨crcPieces_eq thecrc pieces, ?_⟩
  apply poly_eq_modByMonic
  rw [crcPieces_eq, residue_crcBytes]
  simp only [map_add, map_mul, map_pow, AdjoinRoot.mk_X]
  rfl

/-- A starting value is a part of what is divided. -/
theorem crcPieces_start : ¬ ∀ (thecrc : Word) (pieces : List (List Byte)),
    crcPieces thecrc pieces = crcBytes thecrc pieces.flatten ∧
      poly (crcPieces thecrc pieces) =
        (X ^ 32 * message pieces.flatten) %ₘ generator POSIX := by
  intro all
  have value : poly (1 : Word) = (X ^ 32 * message []) %ₘ generator POSIX := (all 1 []).2
  rw [message, mul_zero, Polynomial.zero_modByMonic, ← poly_zero] at value
  exact absurd (poly_inj value) (by decide)

end Netbase.Cksum
