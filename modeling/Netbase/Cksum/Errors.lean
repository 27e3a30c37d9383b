import Netbase.Cksum.Crc

/-!
# What the checksum notices

`crc` takes the bytes as `read` delivers them and the bytes of their number behind them.  Two
files of one length that differ within 32 bits next to each other have different values: the
generator divides no polynomial that is so short, wherever it stands.
-/

namespace Netbase.Cksum

open Netbase.Text Netbase.Lib.Remainder
open Polynomial

/-! ## The value of a file -/

/-- The length of the file, its lowest byte first. -/
def crcLength (thecrc : Word) (len : Nat) : Word :=
  if len = 0 then thecrc else crcLength (crcByte thecrc (BitVec.ofNat 32 (len &&& 0xff))) (len >>> 8)
termination_by len
decreasing_by rw [Nat.shiftRight_eq_div_pow]; omega

/-- The loop around `read`: the value, the length and the table. -/
def crcRead (s : Word × Nat × Slices) (buf : List Byte) : Word × Nat × Slices :=
  let next := crcBuf s.2.2 s.1 buf
  (next.1, s.2.1 + buf.length, next.2)

/-- The value and the length that `crc` stores, and the table behind the call. -/
def crc (crcslice : Slices) (reads : List (List Byte)) : Word × Nat × Slices :=
  let s := reads.foldl crcRead (0, 0, crcslice)
  (~~~ crcLength s.1 s.2.1, s.2)

def lengthBytes (len : Nat) : List Byte := (Nat.digits 256 len).map UInt8.ofNat

theorem crcLength_eq (thecrc : Word) (len : Nat) :
    crcLength thecrc len = crcBytes thecrc (lengthBytes len) := by
  fun_induction crcLength thecrc len with
  | case1 thecrc => rfl
  | case2 thecrc len some_ ih =>
      have low : len &&& 0xff = len % 256 := Nat.and_two_pow_sub_one_eq_mod len 8
      rw [ih, lengthBytes, lengthBytes, Nat.digits_def' (by decide) (Nat.pos_of_ne_zero some_), low,
        Nat.shiftRight_eq_div_pow, List.map_cons, crcBytes, crcBytes, List.foldl_cons]
      congr 2
      apply BitVec.eq_of_toNat_eq
      simp

theorem crcBytes_append (thecrc : Word) (p q : List Byte) :
    crcBytes thecrc (p ++ q) = crcBytes (crcBytes thecrc p) q := List.foldl_append

/-- However the bytes come, the value is that of the bytes with those of their number behind them. -/
theorem crc_bytes {crcslice : Slices} (ready : Ready crcslice) (reads : List (List Byte)) :
    (crc crcslice reads).1 =
      ~~~ crcBytes 0 (reads.flatten ++ lengthBytes reads.flatten.length) := by
  have run (thecrc : Word) (len : Nat) :
      (reads.foldl crcRead (thecrc, len, crcslice)).1 = crcBytes thecrc reads.flatten ∧
        (reads.foldl crcRead (thecrc, len, crcslice)).2.1 = len + reads.flatten.length := by
    induction reads generalizing thecrc len crcslice with
    | nil => exact ⟨rfl, rfl⟩
    | cons buf reads ih =>
        rw [List.foldl_cons, crcRead, crcBuf_ready ready, List.flatten_cons, crcBytes_append,
          List.length_append, ← Nat.add_assoc]
        exact ih (Or.inl rfl) _ _
  rw [crc, (run 0 0).1, (run 0 0).2, crcLength_eq, Nat.zero_add, crcBytes_append]

/-! ## Short differences -/

theorem coeff_message_beyond (p : List Byte) {n : Nat} (beyond : 8 * p.length ≤ n) :
    (message p).coeff n = 0 := by
  induction p with
  | nil => exact coeff_zero n
  | cons c p ih =>
      rw [List.length_cons] at beyond
      rw [message, coeff_add, coeff_X_pow_mul', ih (by omega), add_zero, if_pos (by omega),
        coeff_poly, BitVec.getLsbD_of_ge _ _ (by omega)]
      rfl

theorem message_inj {p q : List Byte} (length : p.length = q.length)
    (same : message p = message q) : p = q := by
  induction p generalizing q with
  | nil => exact (List.length_eq_zero_iff.mp length.symm).symm
  | cons c p ih =>
      obtain ⟨d, q, rfl⟩ := List.exists_cons_of_length_eq_add_one length.symm
      have length : p.length = q.length := Nat.succ.inj length
      rw [message, message, length] at same
      have top : poly c.toBitVec = poly d.toBitVec := by
        ext i
        have coeffs := congrArg (coeff · (i + 8 * q.length)) same
        simpa only [coeff_add, coeff_X_pow_mul,
          coeff_message_beyond p (show 8 * p.length ≤ i + 8 * q.length by omega),
          coeff_message_beyond q (Nat.le_add_left _ i), add_zero] using coeffs
      rw [top] at same
      rw [UInt8.toBitVec_inj.mp (poly_inj top), ih length (add_left_cancel same)]

/-- Where the bits in which two files of one length differ are within 32 bits next to each other,
the values are the same only if the files are. -/
theorem crc_detects {crcslice other : Slices} (ready : Ready crcslice) (ready' : Ready other)
    {reads others : List (List Byte)} (length : reads.flatten.length = others.flatten.length)
    {k : Nat} (burst : ∀ n, (message reads.flatten).coeff n ≠ (message others.flatten).coeff n →
      k ≤ n ∧ n < k + 32) :
    (crc crcslice reads).1 = (crc other others).1 ↔ reads.flatten = others.flatten := by
  rw [crc_bytes ready, crc_bytes ready', length]
  refine ⟨fun same => message_inj length ?_, fun same => by rw [same]⟩
  generalize lengthBytes others.flatten.length = tail at same
  have classes := congrArg (residue POSIX) (BitVec.not_inj.mp same)
  simp only [residue_crcBytes, residue_zero, mul_zero, zero_add, message_append, map_add, mul_add,
    add_left_inj, map_mul, map_pow, AdjoinRoot.mk_X] at classes
  have behind : AdjoinRoot.mk (generator POSIX) (X ^ (32 + 8 * tail.length) * message reads.flatten) =
      AdjoinRoot.mk (generator POSIX) (X ^ (32 + 8 * tail.length) * message others.flatten) := by
    rw [map_mul, map_mul, map_pow, AdjoinRoot.mk_X, pow_add, mul_assoc, mul_assoc]
    exact classes
  exact eq_of_burst (by decide) burst behind

theorem crc_detects_byte :
    ¬ (crc (fun _ _ => 0) [[7, 1]]).1 = (crc tables [[7], [2]]).1 := by
  have burst (n : Nat) (differ : (message [7, 1]).coeff n ≠ (message [7, 2]).coeff n) :
      0 ≤ n ∧ n < 0 + 32 := by
    refine ⟨Nat.zero_le n, Nat.lt_of_not_le fun beyond => differ ?_⟩
    rw [coeff_message_beyond _ (show 8 * 2 ≤ n by omega),
      coeff_message_beyond _ (show 8 * 2 ≤ n by omega)]
  have detects := @crc_detects (fun _ _ => 0) tables (Or.inr rfl) (Or.inl rfl) [[7, 1]] [[7], [2]]
    rfl 0 burst
  exact detects.not.mpr (by decide)

end Netbase.Cksum
