import Mathlib.Data.List.TakeWhile
import Mathlib.Tactic.Ring
import Netbase.Text.Lines

/-!
# The input file of patch: plan A and plan B

`scan_input` indexes the lines of the file to be patched.  Plan A keeps the
whole file in memory and a pointer to each line.  Plan B copies the lines into
fixed-size records of a temporary file and reads 1024-byte blocks of it through
two buffers.  Both leave `input_lines` and `last_line_missing_eol`, and both
answer `ifetch`, whose result is read up to and including its newline.
-/

namespace Netbase.Patch.Input

open Netbase.Text

/-! ## Plan A -/

/-- The lines finished by a newline and the open tail, up to the first NUL. -/
def scanWomp : List Byte → List (List Byte) × List Byte
  | [] => ([], [])
  | b :: rest =>
      if b = 0 then ([], [])
      else
        let inner := scanWomp rest
        if b = nl then ([b] :: inner.1, inner.2)
        else
          match inner.1 with
          | [] => ([], b :: inner.2)
          | line :: more => ((b :: line) :: more, inner.2)

/-- The in-memory index: `ptr` holds the text at `i_ptr[1]`, `i_ptr[2]`, ... -/
structure PlanA where
  ptr : List (List Byte)
  inputLines : Nat
  lastLineMissingEol : Bool

def planA (womp : List Byte) : PlanA :=
  let scanned := scanWomp womp
  -- an unterminated last line is copied and given a newline
  if womp ≠ [] ∧ womp.getLast? ≠ some nl then
    { ptr := scanned.1 ++ [scanned.2 ++ [nl]]
      inputLines := scanned.1.length + 1
      lastLineMissingEol := true }
  else
    { ptr := scanned.1
      inputLines := scanned.1.length
      lastLineMissingEol := false }

def PlanA.ifetch (index : PlanA) (line : Int) : Option (List Byte) :=
  if line < 1 ∨ line > index.inputLines then none
  else index.ptr[line.toNat - 1]?

/-! ## Plan B -/

def bufferSize : Nat := 1024

abbrev Buffer := Nat → Byte

/-- Length of the C string at the front of a byte sequence. -/
def strlen (s : List Byte) : Nat := (s.takeWhile (· ≠ 0)).length

/-- Overwrite the bytes of a buffer from position `p` on. -/
def store (buf : Buffer) (p : Nat) (s : List Byte) : Buffer := fun k =>
  if p ≤ k ∧ k < p + s.length then s.getD (k - p) 0 else buf k

/-- At most `n` bytes of the stream, ending after a newline. -/
def fgetsCore : Nat → List Byte → List Byte × List Byte
  | 0, stream => ([], stream)
  | _ + 1, [] => ([], [])
  | n + 1, b :: rest =>
      if b = nl then ([b], rest)
      else
        let inner := fgetsCore n rest
        (b :: inner.1, inner.2)

/-- `fgets(p, n + 1, ifp)`; `none` stands for the null pointer at end of file. -/
def fgets (n : Nat) (stream : List Byte) : Option (List Byte × List Byte) :=
  if stream = [] then none else some (fgetsCore n stream)

/-- The bytes from `p` up to and including the next newline. -/
def lineText : Nat → Buffer → Nat → List Byte
  | 0, _, _ => []
  | fuel + 1, buf, p => if buf p = nl then [nl] else buf p :: lineText fuel buf (p + 1)

/-- The longest line and the length `i` of the last line read. -/
def measureLines (file : List Byte) : Nat × Nat :=
  (lines file).foldl (fun (maxlen, _) line => (max maxlen (strlen line), strlen line)) (1, 0)

/-- `last_line_missing_eol` as plan B computes it from the last line in `buf`. -/
def missingEol (file : List Byte) : Bool :=
  let i := (measureLines file).2
  decide (i > 0 ∧ ((lines file).getLastD []).getD (i - 1) 0 ≠ nl)

/-- `maxlen`, and so `tireclen`: the longest record, a supplied newline included. -/
def recordLength (file : List Byte) : Nat :=
  let measured := measureLines file
  if missingEol file ∧ measured.1 = measured.2 then measured.1 + 1 else measured.1

/-- The string `s` read into the record at `p`, with a newline at its end. -/
def endRecord (buf : Buffer) (p : Nat) (s : List Byte) : Buffer :=
  let read := store buf p (s ++ [0])
  if strlen s = 0 ∨ s.getD (strlen s - 1) 0 ≠ nl then store read (p + strlen s) [nl] else read

structure PlanB where
  tibuf : Bool → Buffer
  tiline : Bool → Int
  linesPerBuf : Nat
  tireclen : Nat
  /-- The blocks of the temporary file. -/
  temp : List Buffer
  inputLines : Nat
  lastLineMissingEol : Bool

/-- The record loop of `plan_b`, from line `i` on. -/
def fillRecords (maxlen linesPerBuf : Nat) :
    Nat → Nat → Buffer → List Buffer → List Byte → Nat × Buffer × List Buffer
  | 0, i, buf, temp, _ => (i - 1, buf, temp)
  | fuel + 1, i, buf, temp, stream =>
      let p := maxlen * (i % linesPerBuf)
      let flushed := if i % linesPerBuf = 0 then temp ++ [buf] else temp
      match fgets maxlen stream with
      | none =>
          (i - 1, buf, if i % linesPerBuf ≠ 0 then flushed ++ [buf] else flushed)
      | some (s, rest) =>
          fillRecords maxlen linesPerBuf fuel (i + 1) (endRecord buf p s) flushed rest

/--
Plan B over the two freshly allocated buffers.  `none` is the trap taken by the
first `i % lines_per_buf` when a record does not fit into a block and
`lines_per_buf` is zero.
-/
def planB (fresh : Bool → Buffer) (file : List Byte) : Option PlanB :=
  let maxlen := recordLength file
  let linesPerBuf := bufferSize / maxlen
  if linesPerBuf = 0 then none
  else
    let filled := fillRecords maxlen linesPerBuf (file.length + 1) 1 (fresh false) [] file
    some
      { tibuf := fun which => if which then fresh true else filled.2.1
        tiline := fun _ => -1
        linesPerBuf := linesPerBuf
        tireclen := maxlen
        temp := filled.2.2
        inputLines := filled.1
        lastLineMissingEol := missingEol file }

/-- Fill buffer `which` from the block that starts at line `baseline`. -/
def PlanB.load (index : PlanB) (which : Bool) (baseline : Nat) : PlanB :=
  { index with
    tiline := Function.update index.tiline which baseline
    tibuf := Function.update index.tibuf which
      (match index.temp[baseline / index.linesPerBuf]? with
        | none => index.tibuf which
        | some block => fun k => if k < bufferSize then block k else index.tibuf which k) }

def PlanB.ifetch (index : PlanB) (line : Int) (whichbuf : Bool) :
    Option (List Byte) × PlanB :=
  if line < 1 ∨ line > index.inputLines then (none, index)
  else
    let offline := line.toNat % index.linesPerBuf
    let baseline := line.toNat - offline
    let text (index : PlanB) (which : Bool) :=
      some (lineText (bufferSize + 1) (index.tibuf which) (index.tireclen * offline))
    if index.tiline false = baseline then (text index false, index)
    else if index.tiline true = baseline then (text index true, index)
    else
      let loaded := index.load whichbuf baseline
      (text loaded whichbuf, loaded)

/-! ## Whole sequences of fetches -/

abbrev FetchCall := Int × Bool

def PlanA.fetches (index : PlanA) (calls : List FetchCall) : List (Option (List Byte)) :=
  calls.map fun call => index.ifetch call.1

def PlanB.fetches : PlanB → List FetchCall → List (Option (List Byte))
  | _, [] => []
  | index, call :: calls =>
      let result := index.ifetch call.1 call.2
      result.1 :: PlanB.fetches result.2 calls

/-! ## Plan A holds the lines of the file -/

/-- The text plan A and plan B keep for a line: its newline is supplied. -/
def record (line : List Byte) : List Byte :=
  if Terminated line then line else line ++ [nl]

variable {line file : List Byte} {buf : Buffer} {index : PlanB}

theorem record_of_terminated (terminated : Terminated line) :
    record line = line := if_pos terminated

theorem record_eq (isLine : IsLine line) :
    ∃ body, nl ∉ body ∧ record line = body ++ [nl] := by
  unfold record
  split
  · next terminated =>
      rcases isLine.cases with ⟨body, clean, rfl⟩ | ⟨_, clean⟩
      · exact ⟨body, clean, rfl⟩
      · exact absurd (List.mem_of_getLast? terminated) clean
  · next unterminated => exact ⟨line, isLine.clean_of_not_terminated unterminated, rfl⟩

theorem scanWomp_eq (noNul : (0 : Byte) ∉ file) :
    scanWomp file =
      ((lines file).filter (fun line => decide (Terminated line)),
        ((lines file).filter (fun line => !decide (Terminated line))).flatten) := by
  induction file with
  | nil => rfl
  | cons b rest ih =>
      have live : b ≠ 0 := fun same => noNul (by simp [same])
      have restLive : (0 : Byte) ∉ rest := fun inside => noNul (List.mem_cons_of_mem _ inside)
      have scanned := ih restLive
      have ordered := lines_lineList rest
      rw [scanWomp, if_neg live, scanned]
      by_cases newline : b = nl
      · subst newline
        rw [if_pos rfl, lines_nl]
        simp [Terminated]
      · rw [if_neg newline]
        rw [lines, if_neg newline]
        cases split : lines rest with
        | nil => simp [Terminated, newline]
        | cons line more =>
            rw [split] at ordered
            have extended := terminated_cons (b := b) ordered.head.1
            by_cases terminated : Terminated line
            · simp [terminated, extended.mpr terminated]
            · have stop : more = [] := by
                by_contra nonempty
                exact terminated (ordered.head_terminated nonempty)
              have open_ : ¬ Terminated (b :: line) := fun h => terminated (extended.mp h)
              simp [terminated, open_, stop]

theorem planA_eq (noNul : (0 : Byte) ∉ file) :
    planA file =
      { ptr := (lines file).map record
        inputLines := (lines file).length
        lastLineMissingEol := decide (∃ line ∈ lines file, ¬ Terminated line) } := by
  have whole := flatten_lines file
  unfold planA
  rw [scanWomp_eq noNul]
  rcases (lines_lineList file).split with all | ⟨init, last, split, all, isLine, unterminated⟩
  · have kept : (lines file).filter (fun line => decide (Terminated line)) = lines file :=
      List.filter_eq_self.mpr (by simpa using all)
    have ends : ¬ (file ≠ [] ∧ file.getLast? ≠ some nl) := by
      rintro ⟨nonempty, unended⟩
      have linesNonempty : lines file ≠ [] := by
        intro empty
        rw [empty] at whole
        exact nonempty whole.symm
      have front := List.dropLast_append_getLast linesNonempty
      have membership := List.getLast_mem linesNonempty
      rw [← front, List.flatten_append] at whole
      have ending := getLast?_append_line
        (lines file).dropLast.flatten (lines_isLine membership)
      simp only [List.flatten_cons, List.flatten_nil, List.append_nil] at whole
      rw [whole, all _ membership] at ending
      exact unended ending
    have records : (lines file).map record = lines file := by
      conv_rhs => rw [← List.map_id (lines file)]
      exact List.map_congr_left fun line membership => record_of_terminated (all line membership)
    have none : ¬ ∃ line ∈ lines file, ¬ Terminated line := by
      rintro ⟨line, membership, unterminated⟩
      exact unterminated (all line membership)
    rw [if_neg ends, decide_eq_false none, kept, records]
  · have kept : (init ++ [last]).filter (fun line => decide (Terminated line)) = init := by
      rw [List.filter_append, List.filter_eq_self.mpr (by simpa using all)]
      simp [unterminated]
    have tail : (init ++ [last]).filter (fun line => !decide (Terminated line)) = [last] := by
      rw [List.filter_append, List.filter_eq_nil_iff.mpr (by simpa using all)]
      simp [unterminated]
    have records : (init ++ [last]).map record = init ++ [last ++ [nl]] := by
      rw [List.map_append]
      congr 1
      · conv_rhs => rw [← List.map_id init]
        exact List.map_congr_left fun line membership => record_of_terminated (all line membership)
      · simp [record, unterminated]
    have ends : file ≠ [] ∧ file.getLast? ≠ some nl := by
      rw [split, List.flatten_append] at whole
      simp only [List.flatten_cons, List.flatten_nil, List.append_nil] at whole
      constructor
      · rintro rfl
        exact isLine.1 (List.append_eq_nil_iff.mp whole).2
      · rw [← whole, getLast?_append_line _ isLine]
        exact unterminated
    have some_ : ∃ line ∈ init ++ [last], ¬ Terminated line := ⟨last, by simp, unterminated⟩
    rw [split, if_pos ends, decide_eq_true some_, kept, tail, records]
    simp

theorem planA_ifetch (noNul : (0 : Byte) ∉ file) (line : Int) :
    (planA file).ifetch line =
      if line < 1 ∨ line > (lines file).length then none
      else ((lines file)[line.toNat - 1]?).map record := by
  rw [planA_eq noNul]
  simp [PlanA.ifetch]

/-! ## Records in buffers and blocks -/

/-- The buffer carries the bytes `r` from position `p` on. -/
def Holds (buf : Buffer) (p : Nat) (r : List Byte) : Prop :=
  ∀ k, k < r.length → r[k]? = some (buf (p + k))

theorem Holds.congr {other : Buffer} {p : Nat} {r : List Byte} (held : Holds buf p r)
    (same : ∀ k, p ≤ k → k < p + r.length → other k = buf k) : Holds other p r := by
  intro k bound
  rw [same (p + k) (by omega) (by omega)]
  exact held k bound

theorem holds_store (buf : Buffer) (p : Nat) (s : List Byte) : Holds (store buf p s) p s := by
  intro k bound
  simp [store, bound]

theorem store_outside {p k : Nat} {s : List Byte} (outside : k < p) :
    store buf p s k = buf k := by
  simp [store, Nat.not_le.mpr outside]

theorem lineText_eq {p fuel : Nat} {body : List Byte} (clean : nl ∉ body)
    (held : Holds buf p (body ++ [nl])) (enough : body.length < fuel) :
    lineText fuel buf p = body ++ [nl] := by
  induction body generalizing p fuel with
  | nil =>
      have first := held 0 (by simp)
      obtain ⟨fuel, rfl⟩ : ∃ more, fuel = more + 1 := ⟨fuel - 1, by simp at enough; omega⟩
      have newline : buf p = nl := by simpa using first.symm
      simp [lineText, newline]
  | cons b rest ih =>
      have first := held 0 (by simp)
      obtain ⟨fuel, rfl⟩ : ∃ more, fuel = more + 1 := ⟨fuel - 1, by simp at enough; omega⟩
      have head : buf p = b := by simpa using first.symm
      have body : b ≠ nl := fun same => clean (by simp [same])
      have heldRest : Holds buf (p + 1) (rest ++ [nl]) := by
        intro k bound
        have next := held (k + 1) (by simpa using bound)
        rw [show p + 1 + k = p + (k + 1) by omega]
        simpa using next
      have result := ih (fun inside => clean (List.mem_cons_of_mem _ inside)) heldRest
        (by simp at enough; omega)
      rw [lineText, head, if_neg body, result]
      rfl

theorem strlen_eq {s : List Byte} (noNul : (0 : Byte) ∉ s) : strlen s = s.length := by
  unfold strlen
  rw [List.takeWhile_eq_self_iff.mpr]
  intro b membership
  simpa using fun same : b = 0 => noNul (same ▸ membership)

theorem fgetsCore_terminated {n : Nat} (isLine : IsLine line) (terminated : Terminated line)
    (fits : line.length ≤ n) (rest : List Byte) :
    fgetsCore n (line ++ rest) = (line, rest) := by
  induction line generalizing n with
  | nil => exact absurd rfl isLine.1
  | cons b tail ih =>
      obtain ⟨n, rfl⟩ : ∃ more, n = more + 1 := ⟨n - 1, by simp at fits; omega⟩
      cases tail with
      | nil =>
          have newline : b = nl := by simpa [Terminated] using terminated
          simp [fgetsCore, newline]
      | cons c more =>
          obtain ⟨body, inner⟩ := isLine.uncons
          have result := ih inner ((terminated_cons (by simp)).mp terminated)
            (Nat.le_of_succ_le_succ fits)
          rw [List.cons_append, fgetsCore, if_neg body, result]

theorem fgetsCore_open {n : Nat} (clean : nl ∉ line) (fits : line.length ≤ n) :
    fgetsCore n line = (line, []) := by
  induction line generalizing n with
  | nil => cases n <;> rfl
  | cons b tail ih =>
      obtain ⟨n, rfl⟩ : ∃ more, n = more + 1 := ⟨n - 1, by simp at fits; omega⟩
      have body : b ≠ nl := fun same => clean (by simp [same])
      rw [fgetsCore, if_neg body,
        ih (fun inside => clean (List.mem_cons_of_mem _ inside)) (Nat.le_of_succ_le_succ fits)]

/-- One `fgets` reads one line when the record length covers it. -/
theorem fgets_line {n : Nat} {rest : List (List Byte)} (ordered : LineList (line :: rest))
    (fits : (record line).length ≤ n) :
    fgets n (line :: rest).flatten = some (line, rest.flatten) := by
  have nonempty : (line :: rest).flatten ≠ [] := by
    simpa using fun empty => absurd empty ordered.head.1
  rw [fgets, if_neg nonempty]
  by_cases terminated : Terminated line
  · rw [record_of_terminated terminated] at fits
    rw [List.flatten_cons, fgetsCore_terminated ordered.head terminated fits]
  · have stop : rest = [] := by
      by_contra more
      exact terminated (ordered.head_terminated more)
    subst stop
    have bound : line.length ≤ n := by
      rw [record, if_neg terminated] at fits
      simp at fits
      omega
    simpa using fgetsCore_open (ordered.head.clean_of_not_terminated terminated) bound

/--
Where the record loop has put the lines read so far: `upto` is the line whose
block is open, earlier blocks are in the temporary file.
-/
structure Filled (maxlen linesPerBuf : Nat) (records : List (List Byte)) (buf : Buffer)
    (temp : List Buffer) (upto : Nat) : Prop where
  blocks : temp.length = upto / linesPerBuf
  stored : ∀ t r, records[t]? = some r → (t + 1) / linesPerBuf < upto / linesPerBuf →
    ∃ block, temp[(t + 1) / linesPerBuf]? = some block ∧
      Holds block (maxlen * ((t + 1) % linesPerBuf)) r
  current : ∀ t r, records[t]? = some r → (t + 1) / linesPerBuf = upto / linesPerBuf →
    Holds buf (maxlen * ((t + 1) % linesPerBuf)) r

/-- Writing out a full block opens the block of the next line. -/
theorem Filled.flush {maxlen linesPerBuf : Nat} {records : List (List Byte)} {temp : List Buffer}
    (filled : Filled maxlen linesPerBuf records buf temp records.length) :
    Filled maxlen linesPerBuf records buf
      (if (records.length + 1) % linesPerBuf = 0 then temp ++ [buf] else temp)
      (records.length + 1) := by
  have within {t : Nat} {r : List Byte} (at_ : records[t]? = some r) :
      (t + 1) / linesPerBuf ≤ records.length / linesPerBuf :=
    Nat.div_le_div_right (List.getElem?_eq_some_iff.mp at_).1
  split
  · next boundary =>
      have next : (records.length + 1) / linesPerBuf = records.length / linesPerBuf + 1 := by
        rw [Nat.succ_div, if_pos (Nat.dvd_of_mod_eq_zero boundary)]
      refine ⟨by simp [filled.blocks, next], ?_, ?_⟩
      · intro t r at_ _
        rcases Nat.lt_or_eq_of_le (within at_) with earlier | last
        · obtain ⟨block, found, held⟩ := filled.stored t r at_ earlier
          refine ⟨block, ?_, held⟩
          rw [List.getElem?_append_left (by rw [filled.blocks]; exact earlier), found]
        · refine ⟨buf, ?_, filled.current t r at_ last⟩
          rw [List.getElem?_append_right (by rw [filled.blocks, last]), filled.blocks, last]
          simp
      · intro t r at_ same
        have bound := within at_
        omega
  · next inside =>
      have next : (records.length + 1) / linesPerBuf = records.length / linesPerBuf := by
        rw [Nat.succ_div, if_neg (fun divides => inside (Nat.mod_eq_zero_of_dvd divides))]
        rfl
      exact ⟨by rw [filled.blocks, next], by rw [next]; exact filled.stored,
        by rw [next]; exact filled.current⟩

theorem slot_before (maxlen : Nat) {linesPerBuf t u : Nat} (earlier : t < u)
    (same : t / linesPerBuf = u / linesPerBuf) :
    maxlen * (t % linesPerBuf) + maxlen ≤ maxlen * (u % linesPerBuf) := by
  have first := Nat.div_add_mod t linesPerBuf
  have second := Nat.div_add_mod u linesPerBuf
  rw [same] at first
  have order : t % linesPerBuf + 1 ≤ u % linesPerBuf := by omega
  calc maxlen * (t % linesPerBuf) + maxlen = maxlen * (t % linesPerBuf + 1) := by ring
    _ ≤ maxlen * (u % linesPerBuf) := Nat.mul_le_mul_left maxlen order

/-- Storing the next record keeps the earlier records of its block. -/
theorem Filled.write {maxlen linesPerBuf : Nat} {records : List (List Byte)} {other : Buffer}
    {temp : List Buffer} {r : List Byte}
    (filled : Filled maxlen linesPerBuf records buf temp (records.length + 1))
    (sizes : ∀ s ∈ records, s.length ≤ maxlen)
    (written : Holds other (maxlen * ((records.length + 1) % linesPerBuf)) r)
    (kept : ∀ k, k < maxlen * ((records.length + 1) % linesPerBuf) → other k = buf k) :
    Filled maxlen linesPerBuf (records ++ [r]) other temp (records ++ [r]).length := by
  have old {t : Nat} {s : List Byte} (at_ : (records ++ [r])[t]? = some s)
      (inside : t < records.length) : records[t]? = some s := by
    rwa [List.getElem?_append_left inside] at at_
  have bound {t : Nat} {s : List Byte} (at_ : (records ++ [r])[t]? = some s) :
      t < records.length ∨ (t = records.length ∧ s = r) := by
    by_cases inside : t < records.length
    · exact Or.inl inside
    · right
      rw [List.getElem?_append_right (by omega)] at at_
      have zero : t - records.length = 0 := by
        have := (List.getElem?_eq_some_iff.mp at_).1
        simpa using this
      rw [zero] at at_
      exact ⟨by omega, by simpa using at_.symm⟩
  refine ⟨by simpa using filled.blocks, ?_, ?_⟩
  · intro t s at_ earlier
    rw [List.length_append, List.length_singleton] at earlier
    rcases bound at_ with inside | ⟨rfl, _⟩
    · exact filled.stored t s (old at_ inside) earlier
    · exact absurd earlier (Nat.lt_irrefl _)
  · intro t s at_ same
    rw [List.length_append, List.length_singleton] at same
    rcases bound at_ with inside | ⟨rfl, rfl⟩
    · have held := filled.current t s (old at_ inside) same
      have before := slot_before maxlen (t := t + 1) (by omega) same
      have short := sizes s (List.mem_of_getElem? (old at_ inside))
      exact held.congr fun k _ upper => kept k (by omega)
    · exact written

theorem holds_endRecord (buf : Buffer) (p : Nat) (isLine : IsLine line) (noNul : (0 : Byte) ∉ line) :
    Holds (endRecord buf p line) p (record line) := by
  have positive : 0 < line.length := List.length_pos_iff.mpr isLine.1
  have read := holds_store buf p (line ++ [0])
  have last : line.getD (line.length - 1) 0 = line.getLast isLine.1 := by
    rw [List.getLast_eq_getElem, List.getD_eq_getElem?_getD, List.getElem?_eq_getElem (by omega)]
    rfl
  have ending : Terminated line ↔ line.getLast isLine.1 = nl := by
    rw [Terminated, List.getLast?_eq_getLast_of_ne_nil isLine.1, Option.some.injEq]
  unfold endRecord record
  rw [strlen_eq noNul, last]
  by_cases terminated : Terminated line
  · have ended : ¬ (line.length = 0 ∨ line.getLast isLine.1 ≠ nl) := by
      rintro (empty | open_)
      · omega
      · exact open_ (ending.mp terminated)
    rw [if_pos terminated, if_neg ended]
    intro k bound
    have at_ := read k (by simp; omega)
    rwa [List.getElem?_append_left bound] at at_
  · rw [if_neg terminated, if_pos (Or.inr (fun same => terminated (ending.mpr same)))]
    intro k bound
    rw [List.length_append, List.length_singleton] at bound
    by_cases inside : k < line.length
    · have at_ := read k (by simp; omega)
      rw [List.getElem?_append_left inside] at at_ ⊢
      rw [store_outside (by omega)]
      exact at_
    · have edge : k = line.length := by omega
      subst edge
      have at_ := holds_store (store buf p (line ++ [0])) (p + line.length) [nl] 0 (by simp)
      simpa using at_

theorem endRecord_outside {p k : Nat} {s : List Byte} (outside : k < p) :
    endRecord buf p s k = buf k := by
  unfold endRecord
  split
  · rw [store_outside (by omega), store_outside outside]
  · exact store_outside outside

def Complete (maxlen linesPerBuf : Nat) (records : List (List Byte)) (temp : List Buffer) : Prop :=
  ∀ t r, records[t]? = some r →
    ∃ block, temp[(t + 1) / linesPerBuf]? = some block ∧
      Holds block (maxlen * ((t + 1) % linesPerBuf)) r

/-- At end of file the last, partly filled block is written as well. -/
theorem Filled.complete {maxlen linesPerBuf : Nat} {records : List (List Byte)} {temp : List Buffer}
    (filled : Filled maxlen linesPerBuf records buf temp (records.length + 1)) :
    Complete maxlen linesPerBuf records
      (if (records.length + 1) % linesPerBuf ≠ 0 then temp ++ [buf] else temp) := by
  intro t r at_
  have inside : t < records.length := (List.getElem?_eq_some_iff.mp at_).1
  have within : (t + 1) / linesPerBuf ≤ (records.length + 1) / linesPerBuf :=
    Nat.div_le_div_right (by omega)
  rcases Nat.lt_or_eq_of_le within with earlier | same
  · obtain ⟨block, found, held⟩ := filled.stored t r at_ earlier
    refine ⟨block, ?_, held⟩
    split
    · rw [List.getElem?_append_left (by rw [filled.blocks]; exact earlier), found]
    · exact found
  · refine ⟨buf, ?_, filled.current t r at_ same⟩
    -- a line of the open block precedes the next line inside it
    have open_ : (records.length + 1) % linesPerBuf ≠ 0 := by
      have before := slot_before 1 (t := t + 1) (u := records.length + 1)
        (by omega) same
      omega
    rw [if_pos open_, List.getElem?_append_right (by rw [filled.blocks, same]),
      filled.blocks, same]
    simp

theorem fillRecords_spec {maxlen linesPerBuf : Nat} {rest records : List (List Byte)}
    {buf : Buffer} {temp : List Buffer} {fuel : Nat} (ordered : LineList rest)
    (noNul : ∀ line ∈ rest, (0 : Byte) ∉ line)
    (fits : ∀ line ∈ rest, (record line).length ≤ maxlen)
    (sizes : ∀ s ∈ records, s.length ≤ maxlen)
    (filled : Filled maxlen linesPerBuf records buf temp records.length)
    (enough : rest.length < fuel) :
    (fillRecords maxlen linesPerBuf fuel (records.length + 1) buf temp rest.flatten).1 =
        records.length + rest.length ∧
      Complete maxlen linesPerBuf (records ++ rest.map record)
        (fillRecords maxlen linesPerBuf fuel (records.length + 1) buf temp rest.flatten).2.2 := by
  induction rest generalizing records buf temp fuel with
  | nil =>
      obtain ⟨fuel, rfl⟩ : ∃ more, fuel = more + 1 := ⟨fuel - 1, by simp at enough; omega⟩
      refine ⟨by simp [fillRecords, fgets], ?_⟩
      simpa [fillRecords, fgets] using filled.flush.complete
  | cons line rest ih =>
      obtain ⟨fuel, rfl⟩ : ∃ more, fuel = more + 1 := ⟨fuel - 1, by simp at enough; omega⟩
      have lineNoNul := noNul line (by simp)
      have read := fgets_line ordered (fits line (by simp))
      have written := filled.flush.write sizes
        (holds_endRecord buf _ ordered.head lineNoNul)
        (fun k below => endRecord_outside below)
      have step := @ih (records ++ [record line]) _ _ fuel ordered.tail
        (fun l membership => noNul l (List.mem_cons_of_mem _ membership))
        (fun l membership => fits l (List.mem_cons_of_mem _ membership))
        (by
          intro s membership
          rcases List.mem_append.mp membership with earlier | last
          · exact sizes s earlier
          · rw [List.mem_singleton.mp last]
            exact fits line (by simp))
        written (by simpa using enough)
      rw [fillRecords, read]
      dsimp only
      rw [List.length_append, List.length_singleton] at step
      refine ⟨?_, ?_⟩
      · rw [step.1, List.length_cons]
        omega
      · simpa using step.2

/-! ## Fetching through the two buffers -/

/-- A buffer that names a block holds a copy of it. -/
def Coherent (index : PlanB) (which : Bool) : Prop :=
  index.tiline which = -1 ∨
    ∃ base : Nat, ∃ block, index.tiline which = (base : Int) ∧
      index.temp[base / index.linesPerBuf]? = some block ∧
      ∀ k, k < bufferSize → index.tibuf which k = block k

/-- The plan B state can answer every fetch of `records`. -/
structure Serves (index : PlanB) (records : List (List Byte)) : Prop where
  positive : 0 < index.linesPerBuf
  room : index.tireclen * index.linesPerBuf ≤ bufferSize
  count : index.inputLines = records.length
  shape : ∀ r ∈ records, ∃ body, nl ∉ body ∧ r = body ++ [nl]
  sizes : ∀ r ∈ records, r.length ≤ index.tireclen
  complete : Complete index.tireclen index.linesPerBuf records index.temp
  coherent : ∀ which, Coherent index which

theorem Serves.load {records : List (List Byte)} (serves : Serves index records) (which : Bool)
    (base : Nat) {block : Buffer} (found : index.temp[base / index.linesPerBuf]? = some block) :
    Serves (index.load which base) records := by
  refine ⟨serves.positive, serves.room, serves.count, serves.shape, serves.sizes,
    serves.complete, fun other => ?_⟩
  by_cases same : other = which
  · subst same
    right
    refine ⟨base, block, by simp [PlanB.load], found, fun k bound => ?_⟩
    simp [PlanB.load, found, bound]
  · have kept := serves.coherent other
    simpa [Coherent, PlanB.load, Function.update_of_ne same] using kept

theorem Serves.slot_le {records : List (List Byte)} (serves : Serves index records) (line : Nat) :
    index.tireclen * (line % index.linesPerBuf) + index.tireclen ≤ bufferSize := by
  have below := Nat.mod_lt line serves.positive
  calc index.tireclen * (line % index.linesPerBuf) + index.tireclen
      = index.tireclen * (line % index.linesPerBuf + 1) := by ring
    _ ≤ index.tireclen * index.linesPerBuf := Nat.mul_le_mul_left _ below
    _ ≤ bufferSize := serves.room

theorem Serves.text {records : List (List Byte)} (serves : Serves index records) {t : Nat}
    (inside : t < records.length) {buf block : Buffer}
    (held : Holds block (index.tireclen * ((t + 1) % index.linesPerBuf)) records[t])
    (copy : ∀ k, k < bufferSize → buf k = block k) :
    lineText (bufferSize + 1) buf (index.tireclen * ((t + 1) % index.linesPerBuf)) =
      records[t] := by
  obtain ⟨body, clean, recordEq⟩ := serves.shape records[t] (List.getElem_mem inside)
  have short := serves.sizes records[t] (List.getElem_mem inside)
  have slot := serves.slot_le (t + 1)
  rw [recordEq] at held short ⊢
  rw [List.length_append, List.length_singleton] at short
  refine lineText_eq clean (held.congr fun k lower upper => copy k ?_) (by omega)
  rw [List.length_append, List.length_singleton] at upper
  omega

theorem baseline_div {linesPerBuf : Nat} (positive : 0 < linesPerBuf) (line : Nat) :
    (line - line % linesPerBuf) / linesPerBuf = line / linesPerBuf := by
  have whole := Nat.div_add_mod line linesPerBuf
  rw [show line - line % linesPerBuf = linesPerBuf * (line / linesPerBuf) by omega]
  exact Nat.mul_div_cancel_left _ positive

theorem Serves.ifetch {records : List (List Byte)} (serves : Serves index records) (line : Int)
    (whichbuf : Bool) :
    (index.ifetch line whichbuf).1 =
        (if line < 1 ∨ line > records.length then none else records[line.toNat - 1]?) ∧
      Serves (index.ifetch line whichbuf).2 records := by
  unfold PlanB.ifetch
  rw [serves.count]
  by_cases outside : line < 1 ∨ line > records.length
  · rw [if_pos outside, if_pos outside]
    exact ⟨rfl, serves⟩
  · rw [if_neg outside, if_neg outside]
    obtain ⟨t, lineEq, inside⟩ : ∃ t : Nat, line = (t : Int) + 1 ∧ t < records.length :=
      ⟨line.toNat - 1, by omega, by omega⟩
    subst lineEq
    rw [show ((t : Int) + 1).toNat = t + 1 by omega, Nat.add_sub_cancel,
      List.getElem?_eq_getElem inside]
    obtain ⟨block, found, held⟩ := serves.complete t _ (List.getElem?_eq_getElem inside)
    have base := baseline_div serves.positive (t + 1)
    -- a buffer whose base line matches already holds the block
    have hit {which : Bool}
        (same : index.tiline which = ((t + 1 - (t + 1) % index.linesPerBuf : Nat) : Int)) :
        ∀ k, k < bufferSize → index.tibuf which k = block k := by
      rcases serves.coherent which with empty | ⟨number, other, named, stored, copy⟩
      · omega
      · have numberEq : number = t + 1 - (t + 1) % index.linesPerBuf := by omega
        rw [numberEq, base, found] at stored
        rw [Option.some.inj stored]
        exact copy
    dsimp only
    split
    · next same => exact ⟨by rw [serves.text inside held (hit same)], serves⟩
    · split
      · next same => exact ⟨by rw [serves.text inside held (hit same)], serves⟩
      · have loaded := serves.load whichbuf (t + 1 - (t + 1) % index.linesPerBuf)
          (by rw [base]; exact found)
        refine ⟨congrArg some (serves.text inside held fun k bound => ?_), loaded⟩
        simp [PlanB.load, base, found, bound]

/-- A whole sequence of fetches returns the records of the lines asked for. -/
theorem Serves.fetches {records : List (List Byte)} (serves : Serves index records)
    (calls : List FetchCall) :
    index.fetches calls =
      calls.map fun call : FetchCall =>
        if call.1 < 1 ∨ call.1 > records.length then none else records[call.1.toNat - 1]? := by
  induction calls generalizing index with
  | nil => rfl
  | cons call calls ih =>
      obtain ⟨result, next⟩ := serves.ifetch call.1 call.2
      rw [PlanB.fetches, List.map_cons, result, ih next]

/-! ## The record length -/

theorem foldl_measure (list : List (List Byte)) (start : Nat × Nat) :
    list.foldl (fun (maxlen, _) line => (max maxlen (strlen line), strlen line)) start =
      (list.foldl (fun longest line => max longest (strlen line)) start.1,
        (list.getLast?.map strlen).getD start.2) := by
  induction list generalizing start with
  | nil => rfl
  | cons line rest ih =>
      rw [List.foldl_cons, ih, List.foldl_cons]
      cases rest with
      | nil => rfl
      | cons next more =>
          rw [List.getLast?_cons_cons]
          cases last : (next :: more).getLast? with
          | none => simp at last
          | some value => rfl

theorem foldl_max_le_iff (list : List (List Byte)) (start bound : Nat) :
    list.foldl (fun longest line => max longest (strlen line)) start ≤ bound ↔
      start ≤ bound ∧ ∀ line ∈ list, strlen line ≤ bound := by
  induction list generalizing start with
  | nil => simp
  | cons line rest ih =>
      rw [List.foldl_cons, ih]
      simp [and_assoc]

theorem measureLines_eq (noNul : (0 : Byte) ∉ file) :
    (∀ bound, (measureLines file).1 ≤ bound ↔
        1 ≤ bound ∧ ∀ line ∈ lines file, line.length ≤ bound) ∧
      (measureLines file).2 = ((lines file).getLastD []).length := by
  have live {line : List Byte} (membership : line ∈ lines file) : strlen line = line.length := by
    refine strlen_eq fun inside => noNul ?_
    rw [← flatten_lines file]
    exact List.mem_flatten.mpr ⟨line, membership, inside⟩
  unfold measureLines
  rw [foldl_measure]
  constructor
  · intro bound
    rw [foldl_max_le_iff]
    exact and_congr_right fun _ => forall₂_congr fun line membership => by rw [live membership]
  · cases last : (lines file).getLast? with
    | none => simp [List.getLastD_eq_getLast?, last]
    | some line => simp [List.getLastD_eq_getLast?, last, live (List.mem_of_getLast? last)]

theorem missingEol_eq (noNul : (0 : Byte) ∉ file) :
    missingEol file = decide (∃ line ∈ lines file, ¬ Terminated line) := by
  unfold missingEol
  dsimp only
  rw [(measureLines_eq noNul).2]
  refine decide_eq_decide.mpr ?_
  have nonemptyEnd {init : List (List Byte)} {last : List Byte} (isLine : IsLine last) :
      ((init ++ [last]).getLastD []).length > 0 ∧
        ((init ++ [last]).getLastD []).getD (((init ++ [last]).getLastD []).length - 1) 0 ≠ nl ↔
      ¬ Terminated last := by
    have positive : 0 < last.length := List.length_pos_iff.mpr isLine.1
    have ending : last[last.length - 1]? = last.getLast? := (List.getLast?_eq_getElem? ..).symm
    have value := List.getLast?_eq_getLast_of_ne_nil isLine.1
    rw [List.getLastD_concat, List.getD_eq_getElem?_getD, ending, Terminated, value]
    simp [positive]
  rcases (lines_lineList file).split with all | ⟨init, last, split, all, isLine, unterminated⟩
  · rcases List.eq_nil_or_concat (lines file) with empty | ⟨init, last, split⟩
    · simp [empty]
    · rw [List.concat_eq_append] at split
      have membership : last ∈ lines file := by simp [split]
      rw [split, nonemptyEnd (lines_isLine membership)]
      constructor
      · exact fun unterminated => absurd (all last membership) unterminated
      · rintro ⟨line, inside, unterminated⟩
        exact absurd (all line (split ▸ inside)) unterminated
  · rw [split, nonemptyEnd isLine]
    exact ⟨fun _ => ⟨last, by simp, unterminated⟩, fun _ => unterminated⟩

theorem recordLength_le_iff (noNul : (0 : Byte) ∉ file) {bound : Nat} (positive : 1 ≤ bound) :
    recordLength file ≤ bound ↔ ∀ line ∈ lines file, (record line).length ≤ bound := by
  obtain ⟨longest, final⟩ := measureLines_eq noNul
  unfold recordLength
  dsimp only
  rw [missingEol_eq noNul, final]
  rcases (lines_lineList file).split with all | ⟨init, last, split, all, isLine, unterminated⟩
  · have terminated : ¬ ∃ line ∈ lines file, ¬ Terminated line := by
      rintro ⟨line, membership, unterminated⟩
      exact unterminated (all line membership)
    rw [if_neg (by simp [terminated]), longest]
    simp only [positive, true_and]
    exact forall₂_congr fun line membership => by rw [record_of_terminated (all line membership)]
  · have missing : ∃ line ∈ lines file, ¬ Terminated line := ⟨last, by simp [split], unterminated⟩
    have lastD : (lines file).getLastD [] = last := by simp [split]
    have lastLe : last.length ≤ (measureLines file).1 :=
      ((longest _).mp (Nat.le_refl _)).2 last (by simp [split])
    have extended : (record last).length = last.length + 1 := by simp [record, unterminated]
    have records : (∀ line ∈ lines file, (record line).length ≤ bound) ↔
        (∀ line ∈ init, line.length ≤ bound) ∧ last.length + 1 ≤ bound := by
      rw [split, List.forall_mem_append]
      refine and_congr (forall₂_congr fun line membership => ?_) (by simp [extended])
      rw [record_of_terminated (all line membership)]
    rw [records, lastD]
    have whole := longest bound
    rw [split, List.forall_mem_append, List.forall_mem_singleton] at whole
    split
    · next longestLast =>
        constructor
        · intro fits
          exact ⟨(whole.mp (by omega)).2.1, by omega⟩
        · rintro ⟨_, fits⟩
          omega
    · next shorter =>
        have strict : last.length < (measureLines file).1 := by
          refine Nat.lt_of_le_of_ne lastLe fun same => shorter ⟨?_, same.symm⟩
          exact decide_eq_true missing
        constructor
        · intro fits
          exact ⟨(whole.mp fits).2.1, by omega⟩
        · rintro ⟨inits, fits⟩
          exact whole.mpr ⟨positive, inits, by omega⟩

theorem recordLength_pos (file : List Byte) : 1 ≤ recordLength file := by
  have least : 1 ≤ (measureLines file).1 := by
    unfold measureLines
    rw [foldl_measure]
    exact ((foldl_max_le_iff _ _ _).mp (Nat.le_refl _)).1
  unfold recordLength
  dsimp only
  split <;> omega

theorem planB_serves (noNul : (0 : Byte) ∉ file) (fits : recordLength file ≤ bufferSize)
    (fresh : Bool → Buffer) :
    ∃ index, planB fresh file = some index ∧ Serves index ((lines file).map record) ∧
      index.lastLineMissingEol = missingEol file := by
  have least := recordLength_pos file
  have positive : 0 < bufferSize / recordLength file := Nat.div_pos fits least
  have sizes := (recordLength_le_iff noNul least).mp (Nat.le_refl _)
  have start : Filled (recordLength file) (bufferSize / recordLength file) [] (fresh false) []
      ([] : List (List Byte)).length :=
    ⟨by simp, by simp, by simp⟩
  have enough : (lines file).length < file.length + 1 := by
    have count : ∀ list : List (List Byte), LineList list → list.length ≤ list.flatten.length := by
      intro list ordered
      induction list with
      | nil => simp
      | cons line rest ih =>
          have length := List.length_pos_iff.mpr ordered.head.1
          have inner := ih ordered.tail
          rw [List.flatten_cons, List.length_append, List.length_cons]
          omega
    have bound := count (lines file) (lines_lineList file)
    rw [flatten_lines] at bound
    omega
  have filled := fillRecords_spec (lines_lineList file)
    (fun line membership inside => noNul (by
      rw [← flatten_lines file]
      exact List.mem_flatten.mpr ⟨line, membership, inside⟩))
    sizes (by simp) start enough
  simp only [flatten_lines, List.length_nil, Nat.zero_add, List.nil_append] at filled
  refine ⟨_, by rw [planB, if_neg (Nat.pos_iff_ne_zero.mp positive)], ?_, rfl⟩
  refine ⟨positive, Nat.mul_div_le _ _, by simpa using filled.1, ?_, ?_, filled.2,
    fun which => Or.inl rfl⟩
  · intro r membership
    obtain ⟨line, inside, rfl⟩ := List.mem_map.mp membership
    exact record_eq (lines_isLine inside)
  · intro r membership
    obtain ⟨line, inside, rfl⟩ := List.mem_map.mp membership
    exact sizes line inside

def AgreesWithPlanA (fresh : Bool → Buffer) (file : List Byte) : Prop :=
  ∃ index, planB fresh file = some index ∧
    index.inputLines = (planA file).inputLines ∧
    index.lastLineMissingEol = (planA file).lastLineMissingEol ∧
    ∀ calls, index.fetches calls = (planA file).fetches calls

/-- A record longer than a block makes `lines_per_buf` zero. -/
theorem planB_eq_none (long : bufferSize < recordLength file) (fresh : Bool → Buffer) :
    planB fresh file = none := by
  rw [planB, if_pos (Nat.div_eq_of_lt long)]

/--
Plan B agrees with plan A on every sequence of fetches exactly when each line,
its newline counted, fits into one 1024-byte block.
-/
theorem planB_agrees_iff (file : List Byte) (noNul : (0 : Byte) ∉ file)
    (fresh : Bool → Buffer) :
    AgreesWithPlanA fresh file ↔ ∀ line ∈ lines file, (record line).length ≤ bufferSize := by
  rw [← recordLength_le_iff noNul (by decide)]
  constructor
  · rintro ⟨index, planned, -⟩
    by_contra long
    rw [planB_eq_none (Nat.lt_of_not_le long)] at planned
    cases planned
  · intro fits
    obtain ⟨index, planned, serves, missing⟩ := planB_serves noNul fits fresh
    refine ⟨index, planned, ?_, ?_, fun calls => ?_⟩
    · rw [serves.count, planA_eq noNul, List.length_map]
    · rw [missing, missingEol_eq noNul, planA_eq noNul]
    · rw [serves.fetches, PlanA.fetches]
      refine List.map_congr_left fun call _ => ?_
      rw [planA_ifetch noNul, List.length_map, List.getElem?_map]

/-- Two short lines, the second without its newline. -/
theorem planB_agrees_short_lines :
    AgreesWithPlanA (fun _ _ => 0) [97, 10, 98, 99] :=
  (planB_agrees_iff [97, 10, 98, 99] (by decide) (fun _ _ => 0)).mpr (by decide)

/-- A line of 1024 bytes before its newline: plan B divides by zero. -/
theorem planB_traps_on_long_line :
    ¬ AgreesWithPlanA (fun _ _ => 0) (List.replicate 1024 97 ++ [nl]) := by
  have clean : nl ∉ List.replicate 1024 (97 : Byte) := by
    intro inside
    exact absurd (List.eq_of_mem_replicate inside) (by decide)
  have noNul : (0 : Byte) ∉ List.replicate 1024 (97 : Byte) ++ [nl] := by
    intro inside
    rcases List.mem_append.mp inside with inBody | inEnd
    · exact absurd (List.eq_of_mem_replicate inBody) (by decide)
    · exact absurd (List.mem_singleton.mp inEnd) (by decide)
  have terminated := terminated_body (List.replicate 1024 97)
  have single := lines_append (isLine_body clean) terminated []
  rw [List.append_nil, lines_nil] at single
  rintro ⟨index, planned, -⟩
  have long : bufferSize < recordLength (List.replicate 1024 97 ++ [nl]) := by
    by_contra short
    have sizes := (recordLength_le_iff noNul (by decide)).mp (Nat.le_of_not_lt short) _
      (by rw [single]; exact List.mem_singleton.mpr rfl)
    rw [record_of_terminated terminated, List.length_append, List.length_replicate] at sizes
    exact Nat.not_succ_le_self _ sizes
  rw [planB_eq_none long] at planned
  cases planned

end Netbase.Patch.Input
