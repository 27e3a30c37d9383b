import Netbase.Vis.RoundTrip

/-!
# Encoding into a bounded buffer

The encoded characters are stored one after the other, each after a look at the
space that is left, and the terminator is stored last.  With a length given the
loop stops as soon as a character would leave no room for the terminator; without
one the limit is large enough for any result.
-/

namespace Netbase.Vis

open Netbase.Text

inductive Errno where
  | ENOMEM
  | ENOSPC
  deriving DecidableEq, Repr

structure Dest where
  mbdst : Nat → Byte
  stores : List Nat

def Dest.put (dest : Dest) (i : Nat) (b : Byte) : Dest :=
  { mbdst := Function.update dest.mbdst i b, stores := dest.stores ++ [i] }

/-- The longest multibyte character of the C locale. -/
def MB_CUR_MAX : Nat := 1

/-- The output loop; `cerr` tells that bytes are stored without conversion. -/
def outputLoop (cerr : Bool) (maxolen : Nat) :
    Nat → List Byte → Dest → Except Errno Nat × Dest
  | olen, [], dest => (.ok olen, dest.put olen 0)
  | olen, c :: out, dest =>
      if cerr then
        if olen + 1 ≥ maxolen then (.error .ENOSPC, dest)
        else outputLoop cerr maxolen (olen + 1) out (dest.put olen c)
      else if maxolen - olen > MB_CUR_MAX then
        -- converted in place
        outputLoop cerr maxolen (olen + 1) out (dest.put olen c)
      else if olen + 1 ≥ maxolen then (.error .ENOSPC, dest)
      else outputLoop cerr maxolen (olen + 1) out (dest.put olen c)

section Encoder

-- the bytes that the C library converts in the C locale, each to itself; the others
-- are conversion errors
variable (converts : Byte → Bool)

/-- `dlen` is missing where the destination has no limit; `after` is the byte behind the
source. -/
def istrsenvisx (dlen : Option Nat) (mbsrc : List Byte) (after : Byte) (flags : Flags)
    (mbextra : List Byte) (dest : Dest) : Except Errno Nat × Dest :=
  let psrc := if mbsrc.length = 1 then mbsrc ++ [after] else mbsrc
  if psrc.length > (SIZE_MAX - 1) / 16 then (.error .ENOMEM, dest)
  else
    let cerr := test flags VIS_NOLOCALE || !psrc.all converts
    let extra := makeextralist flags mbextra
    let dst := visLoop (fun c nextc => getvisfun flags flags c nextc extra) mbsrc.length psrc
    let out := cstring dst
    match dlen with
    | some maxolen =>
        if maxolen = 0 then (.error .ENOSPC, dest) else outputLoop cerr maxolen 0 out dest
    | none =>
        if out.length > (SIZE_MAX - 1) / MB_LEN_MAX then (.error .ENOSPC, dest)
        else outputLoop cerr (out.length * MB_LEN_MAX + 1) 0 out dest

/-- The call without a limit. -/
def strsvisxInto (mbsrc : List Byte) (after : Byte) (flags : Flags) (mbextra : List Byte)
    (dest : Dest) : Except Errno Nat × Dest :=
  istrsenvisx converts none mbsrc after flags mbextra dest

def strsnvisx (dlen : Nat) (mbsrc : List Byte) (after : Byte) (flags : Flags)
    (mbextra : List Byte) (dest : Dest) : Except Errno Nat × Dest :=
  istrsenvisx converts (some dlen) mbsrc after flags mbextra dest

end Encoder

/-! ## The output loop -/

/-- In either mode a character is stored when the terminator still fits behind it. -/
theorem outputLoop_cons (cerr : Bool) (maxolen olen : Nat) (c : Byte) (out : List Byte)
    (dest : Dest) :
    outputLoop cerr maxolen olen (c :: out) dest =
      if olen + 1 < maxolen then outputLoop cerr maxolen (olen + 1) out (dest.put olen c)
      else (.error .ENOSPC, dest) := by
  rw [outputLoop]
  by_cases fits : olen + 1 < maxolen
  · have roomy : maxolen - olen > MB_CUR_MAX := Nat.lt_sub_of_add_lt (by rwa [Nat.add_comm] at fits)
    rw [if_pos fits, if_neg (Nat.not_le_of_lt fits), if_pos roomy, ite_self]
  · have tight : ¬ maxolen - olen > MB_CUR_MAX := by
      unfold MB_CUR_MAX
      omega
    rw [if_neg fits, if_pos (Nat.le_of_not_lt fits), if_neg tight, ite_self]

/-- What the loop leaves of a result that fits. -/
structure Filled (olen : Nat) (out : List Byte) (dest after : Dest) : Prop where
  before : ∀ i < olen, after.mbdst i = dest.mbdst i
  text : ∀ i ≤ out.length, after.mbdst (olen + i) = out.getD i 0

theorem Filled.nil (olen : Nat) (dest : Dest) : Filled olen [] dest (dest.put olen 0) where
  before i earlier := Function.update_of_ne (Nat.ne_of_lt earlier) _ _
  text i inside := by
    rw [Nat.le_zero.mp inside]
    exact Function.update_self _ _ _

theorem Filled.cons {olen : Nat} {c : Byte} {out : List Byte} {dest after : Dest}
    (filled : Filled (olen + 1) out (dest.put olen c) after) :
    Filled olen (c :: out) dest after where
  before i earlier := by
    rw [filled.before i (Nat.lt_succ_of_lt earlier)]
    exact Function.update_of_ne (Nat.ne_of_lt earlier) _ _
  text i inside := by
    cases i with
    | zero =>
        rw [Nat.add_zero, filled.before olen (Nat.lt_succ_self _)]
        exact Function.update_self _ _ _
    | succ i =>
        have later := filled.text i (Nat.le_of_succ_le_succ inside)
        rw [Nat.succ_add_eq_add_succ] at later
        rw [later, List.getD_cons_succ]

theorem outputLoop_fits (cerr : Bool) {maxolen olen : Nat} {out : List Byte} (dest : Dest)
    (fits : olen + out.length < maxolen) :
    (outputLoop cerr maxolen olen out dest).1 = .ok (olen + out.length) ∧
      Filled olen out dest (outputLoop cerr maxolen olen out dest).2 := by
  induction out generalizing olen dest with
  | nil => exact ⟨rfl, Filled.nil olen dest⟩
  | cons c out ih =>
      rw [List.length_cons] at fits
      have next := ih (dest.put olen c) (by omega : olen + 1 + out.length < maxolen)
      rw [outputLoop_cons, if_pos (by omega), List.length_cons]
      refine ⟨?_, next.2.cons⟩
      rw [next.1]
      congr 1
      omega

theorem outputLoop_overflows (cerr : Bool) {maxolen olen : Nat} {out : List Byte} (dest : Dest)
    (room : olen < maxolen) (long : maxolen ≤ olen + out.length) :
    (outputLoop cerr maxolen olen out dest).1 = .error .ENOSPC := by
  induction out generalizing olen dest with
  | nil => exact absurd (Nat.lt_of_lt_of_le room long) (Nat.lt_irrefl _)
  | cons c out ih =>
      rw [outputLoop_cons]
      split
      · next fits =>
          rw [List.length_cons] at long
          exact ih (dest.put olen c) fits (by omega)
      · rfl

theorem outputLoop_stores (cerr : Bool) {maxolen olen : Nat} (out : List Byte) (dest : Dest)
    (room : olen < maxolen) :
    ∀ i ∈ (outputLoop cerr maxolen olen out dest).2.stores, i ∈ dest.stores ∨ i < maxolen := by
  induction out generalizing olen dest with
  | nil =>
      intro i stored
      rcases List.mem_append.mp stored with old | new
      · exact Or.inl old
      · exact Or.inr (List.mem_singleton.mp new ▸ room)
  | cons c out ih =>
      intro i stored
      rw [outputLoop_cons] at stored
      split at stored
      · next fits =>
          rcases ih (dest.put olen c) fits i stored with known | inside
          · rcases List.mem_append.mp known with old | new
            · exact Or.inl old
            · exact Or.inr (List.mem_singleton.mp new ▸ room)
          · exact Or.inr inside
      · exact Or.inl stored

/-! ## Lengths -/

theorem metaForm_length (slash : Bool) (c : Byte) : (metaForm slash c).length ≤ 4 := by
  unfold metaForm
  dsimp only
  split <;> split <;> split <;> simp

/-- An escape, if there is one, takes no more than four bytes. -/
def Short (form : Option (List Byte)) : Prop := ∀ escape, form = some escape → escape.length ≤ 4

theorem Short.some {escape : List Byte} (short : escape.length ≤ 4) : Short (some escape) := by
  rintro _ ⟨⟩
  exact short

theorem Short.none : Short none := fun _ impossible => by cases impossible

theorem Short.ite {p : Prop} [Decidable p] {yes no : Option (List Byte)} (first : Short yes)
    (second : Short no) : Short (if p then yes else no) := by
  split
  · exact first
  · exact second

theorem cstyle_length {c nextc : Byte} {escape : List Byte} (found : cstyle c nextc = some escape) :
    escape.length ≤ 4 := by
  have zeros : ∀ p : Bool, (ascii ['\\', '0'] ++ if p then ascii ['0', '0'] else []).length ≤ 4 := by
    decide
  have short : Short (cstyle c nextc) := by
    unfold cstyle
    repeat' apply Short.ite
    all_goals first
      | exact Short.none
      | exact Short.some (zeros _)
      | exact Short.some (Nat.le_add_left 2 2)
  exact short escape found

theorem doMbyte_length (flags : Flags) (c nextc : Byte) (iswextra : Bool) :
    (doMbyte flags c nextc iswextra).length ≤ 4 := by
  unfold doMbyte
  split
  · next escape found =>
      split at found
      · exact cstyle_length found
      · cases found
  · split
    · exact Nat.le_refl 4
    · exact metaForm_length _ _

theorem doSvis_length (flags : Flags) (c nextc : Byte) (extra : List Byte) :
    (doSvis flags c nextc extra).length ≤ 4 := by
  unfold doSvis
  dsimp only
  split
  · exact Nat.le_add_left 1 3
  · exact doMbyte_length _ _ _ _

theorem getvisfun_length (flags : Flags) (c nextc : Byte) (extra : List Byte) :
    (getvisfun flags flags c nextc extra).length ≤ 4 := by
  unfold getvisfun
  split
  · unfold doHvis
    split
    · exact doSvis_length _ _ _ _
    · exact Nat.le_succ 3
  · split
    · unfold doMvis
      split
      · exact Nat.le_succ 3
      · exact doSvis_length _ _ _ _
    · exact doSvis_length _ _ _ _

theorem visLoop_length {f : Byte → Byte → List Byte} (short : ∀ c nextc, (f c nextc).length ≤ 4)
    (len : Nat) (src : List Byte) : (visLoop f len src).length ≤ 4 * len := by
  induction len generalizing src with
  | zero => exact Nat.le_refl _
  | succ len ih =>
      cases src with
      | nil => exact Nat.zero_le _
      | cons c src =>
          have first := short c (src.headD 0)
          have rest := ih src
          rw [visLoop, List.length_append]
          omega

theorem cstring_length_le (s : List Byte) : (cstring s).length ≤ s.length :=
  (List.takeWhile_prefix _).length_le

/-! ## Both calls -/

theorem istrsenvisx_none (converts : Byte → Bool) {s : List Byte} {after : Byte} {flags : Flags}
    {extra out : List Byte} (encoded : strsvisx s after flags extra = some out) (dest : Dest) :
    ∃ cerr, strsvisxInto converts s after flags extra dest =
        outputLoop cerr (out.length * MB_LEN_MAX + 1) 0 out dest ∧
      ∀ dlen other, strsnvisx converts dlen s after flags extra other =
        if dlen = 0 then (.error .ENOSPC, other) else outputLoop cerr dlen 0 out other := by
  obtain ⟨ahead, source⟩ := source_ahead s after
  unfold strsvisx at encoded
  simp only [source] at encoded
  split at encoded
  · cases encoded
  · next small =>
      split at encoded
      · cases encoded
      · next bounded =>
          cases encoded
          refine ⟨test flags VIS_NOLOCALE || !(s ++ ahead).all converts, ?_, fun dlen other => ?_⟩
          · unfold strsvisxInto istrsenvisx
            simp only [source]
            rw [if_neg small, if_neg bounded]
          · unfold strsnvisx istrsenvisx
            simp only [source]
            rw [if_neg small]

/-- The call without a limit returns what `strsvisx` encodes, or fails where it does. -/
theorem strsvisxInto_ok (converts : Byte → Bool) (s : List Byte) (after : Byte) (flags : Flags)
    (extra : List Byte) (dest : Dest) :
    match strsvisx s after flags extra with
    | some out =>
        (strsvisxInto converts s after flags extra dest).1 = .ok out.length ∧
          Filled 0 out dest (strsvisxInto converts s after flags extra dest).2
    | none => ∃ errno, (strsvisxInto converts s after flags extra dest).1 = .error errno := by
  cases encoded : strsvisx s after flags extra with
  | some out =>
      obtain ⟨cerr, into, -⟩ := istrsenvisx_none converts encoded dest
      have fits : 0 + out.length < out.length * MB_LEN_MAX + 1 := by
        unfold MB_LEN_MAX
        omega
      have filled := outputLoop_fits cerr dest fits
      rw [Nat.zero_add] at filled
      dsimp only
      rw [into]
      exact filled
  | none =>
      obtain ⟨ahead, source⟩ := source_ahead s after
      unfold strsvisx at encoded
      unfold strsvisxInto istrsenvisx
      simp only [source] at encoded ⊢
      split at encoded
      · next large =>
          rw [if_pos large]
          exact ⟨_, rfl⟩
      · next small =>
          split at encoded
          · next long =>
              rw [if_neg small, if_pos long]
              exact ⟨_, rfl⟩
          · cases encoded

theorem strsvisx_length {s : List Byte} {after : Byte} {flags : Flags} {extra out : List Byte}
    (encoded : strsvisx s after flags extra = some out) : out.length ≤ 4 * s.length := by
  obtain ⟨ahead, source⟩ := source_ahead s after
  unfold strsvisx at encoded
  simp only [source] at encoded
  split at encoded
  · cases encoded
  · split at encoded
    · cases encoded
    · cases encoded
      exact (cstring_length_le _).trans
        (visLoop_length (fun c nextc => getvisfun_length flags c nextc _) _ _)

theorem strsnvisx_stores (converts : Byte → Bool) (dlen : Nat) (s : List Byte) (after : Byte)
    (flags : Flags) (extra : List Byte) (dest : Dest) :
    ∀ i ∈ (strsnvisx converts dlen s after flags extra dest).2.stores,
      i ∈ dest.stores ∨ i < dlen := by
  obtain ⟨ahead, source⟩ := source_ahead s after
  unfold strsnvisx istrsenvisx
  simp only [source]
  split
  · exact fun i stored => Or.inl stored
  · split
    · exact fun i stored => Or.inl stored
    · next room => exact outputLoop_stores _ _ _ (Nat.pos_of_ne_zero room)

/-- A destination in which nothing has been stored. -/
def blank : Dest := { mbdst := fun _ => 0, stores := [] }

end Netbase.Vis
