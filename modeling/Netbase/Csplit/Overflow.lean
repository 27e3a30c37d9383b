import Mathlib.Data.List.Basic
import Mathlib.Data.List.TakeWhile
import Netbase.Csplit.Main
import Netbase.Sed.Layout

/-!
# What the overflow mechanism keeps

The text of a state is what its files will hold once the overflow file is cut
off, with what is unread behind it.  Every step keeps it but one: cutting the
overflow file off loses what is unread of it.
-/

namespace Netbase.Csplit

open Netbase.Text

/-! ## The text of a state -/

/-- The files as they are once the overflow file is cut off. -/
def State.shown (st : State) : List (List Byte) :=
  match st.overfile with
  | none => st.files
  | some spill => st.files.modify spill.file (·.take st.truncofs)

/-- The text in the files, in a file being written, and unread. -/
def State.text (st : State) (ofp : List Byte) : List Byte :=
  st.shown.flatten ++ ofp ++ st.unread ++ st.infile

/-- The overflow file is one of the files, and the end of the input is met only at its end. -/
structure State.Good (st : State) : Prop where
  spill : ∀ spill, st.overfile = some spill → spill.file < st.files.length
  eof : st.eof = true → st.infile = []

theorem State.good_start (input : List Byte) : (State.start input).Good :=
  ⟨fun _ none => (nomatch none), fun eof => (nomatch eof)⟩

theorem fgets_eof (size : Nat) (src : List Byte) :
    (fgets size src).2.2 = true → (fgets size src).2.1 = [] := by
  induction src generalizing size with
  | nil => cases size <;> simp [fgets]
  | cons c src ih =>
      cases size with
      | zero => simp [fgets]
      | succ size =>
          simp only [fgets]
          split
          · simp
          · exact ih size

theorem fgets_nil {size : Nat} {src : List Byte} (positive : 0 < size) (none : (fgets size src).1 = []) :
    src = [] := by
  cases size with
  | zero => cases positive
  | succ size =>
      cases src with
      | nil => rfl
      | cons c src =>
          simp only [fgets] at none
          split at none <;> cases none

/-- What a read does: it takes its line off the unread text, and leaves the files alone. -/
structure Reads (line : List Byte) (st next : State) : Prop where
  good : next.Good
  files : next.files = st.files
  shown : next.shown = st.shown
  unread : line ++ (next.unread ++ next.infile) = st.unread ++ st.infile

section Reading

variable {sizes : Sizes} {st next : State} {line : List Byte}

theorem Sizes.line_room (sizes : Sizes) : 0 < sizes.lineMax - 1 := Nat.sub_pos_of_lt sizes.line_pos

theorem fgets_empty (size : Nat) : (fgets size []).2.1 = [] := by
  cases size <;> rfl

theorem State.Good.met (good : st.Good) (size : Nat)
    (eof : (st.eof || (fgets size st.infile).2.2) = true) : (fgets size st.infile).2.1 = [] := by
  rcases (Bool.or_eq_true _ _).mp eof with before | now
  · rw [good.eof before]
    exact fgets_empty size
  · exact fgets_eof size st.infile now

theorem State.getInput_line (good : st.Good) (none : st.unread = [])
    (read : st.getInput sizes = (some line, next)) : Reads line st next := by
  unfold State.getInput at read
  dsimp only at read
  split at read
  · cases read
  cases read
  refine ⟨⟨good.spill, good.met _⟩, rfl, rfl, ?_⟩
  change _ ++ (st.unread ++ _) = _
  simp only [none, List.nil_append]
  exact fgets_append (sizes.lineMax - 1) st.infile

theorem State.getInput_none (good : st.Good) (none : st.unread = [])
    (read : st.getInput sizes = (Option.none, next)) :
    Reads [] st next ∧ next.unread = [] ∧ next.infile = [] := by
  unfold State.getInput at read
  dsimp only at read
  split at read
  case isFalse => cases read
  case isTrue nil =>
      cases read
      have empty := fgets_nil sizes.line_room nil
      have spill : (fgets (sizes.lineMax - 1) st.infile).2.1 = [] := by
        rw [empty]
        exact fgets_empty _
      refine ⟨⟨⟨good.spill, good.met _⟩, rfl, rfl, ?_⟩, none, spill⟩
      change [] ++ (st.unread ++ (fgets (sizes.lineMax - 1) st.infile).2.1) = _
      rw [spill, none, empty, List.nil_append]

theorem State.getLine_line (good : st.Good) (read : st.getLine sizes = (some line, next)) :
    Reads line st next := by
  unfold State.getLine at read
  split at read
  · rename_i none
    exact State.getInput_line good (by simp [State.unread, none]) read
  · rename_i spill file
    dsimp only at read
    split at read
    · rename_i nil
      exact State.getInput_line good (fgets_nil sizes.line_room nil) read
    · rename_i nonempty
      cases read
      have whole := fgets_append (sizes.lineMax - 1) st.unread
      refine ⟨⟨?_, good.eof⟩, rfl, by simp [State.shown, file], ?_⟩
      · rintro _ ⟨⟩
        exact good.spill spill file
      · have rest : (fgets (sizes.lineMax - 1) st.unread).2.1 =
            st.unread.drop (fgets (sizes.lineMax - 1) st.unread).1.length := by
          have dropped := congrArg (List.drop (fgets (sizes.lineMax - 1) st.unread).1.length) whole
          rwa [List.drop_left] at dropped
        simp only [State.unread, file, ← List.drop_drop] at whole rest ⊢
        rw [← rest, ← List.append_assoc, whole]

theorem State.getLine_none (good : st.Good) (read : st.getLine sizes = (none, next)) :
    Reads [] st next ∧ next.unread = [] ∧ next.infile = [] := by
  unfold State.getLine at read
  split at read
  · rename_i none
    exact State.getInput_none good (by simp [State.unread, none]) read
  · rename_i spill file
    dsimp only at read
    split at read
    · rename_i nil
      exact State.getInput_none good (fgets_nil sizes.line_room nil) read
    · cases read

end Reading

/-! ## Writing and cutting off -/

theorem fputs_clean {p : List Byte} (clean : 0 ∉ p) (ofp : List Byte) : fputs p ofp = ofp ++ p := by
  have all : p.takeWhile (· ≠ 0) = p :=
    List.takeWhile_eq_self_iff.mpr fun c mem => by
      simpa using fun zero : c = 0 => clean (zero ▸ mem)
  rw [fputs, all]

/-- Lines went from the unread text to the end of the file being written. -/
structure Copies (ofp : List Byte) (st : State) (ofp' : List Byte) (next : State) : Prop where
  good : next.Good
  files : next.files = st.files
  shown : next.shown = st.shown
  text : next.text ofp' = st.text ofp

section Copying

variable {sizes : Sizes} {st next later : State} {ofp ofp' ofp'' line : List Byte}

theorem Copies.refl (good : st.Good) : Copies ofp st ofp st := ⟨good, rfl, rfl, rfl⟩

theorem Copies.trans (first : Copies ofp st ofp' next) (second : Copies ofp' next ofp'' later) :
    Copies ofp st ofp'' later :=
  ⟨second.good, second.files.trans first.files, second.shown.trans first.shown,
    second.text.trans first.text⟩

theorem Reads.copies (reads : Reads line st next) (clean : 0 ∉ st.text ofp) :
    Copies ofp st (fputs line ofp) next := by
  have text : next.text (ofp ++ line) = st.text ofp := by
    simp only [State.text, reads.shown, List.append_assoc, reads.unread]
  have whole : 0 ∉ line := fun mem => clean (text ▸ by simp [State.text, mem])
  exact ⟨reads.good, reads.files, reads.shown, by rw [fputs_clean whole, text]⟩

theorem Reads.copies_nil (reads : Reads [] st next) : Copies ofp st ofp next := by
  have text : next.text ofp = st.text ofp := by
    have unread := reads.unread
    rw [List.nil_append] at unread
    simp only [State.text, reads.shown, List.append_assoc, unread]
  exact ⟨reads.good, reads.files, reads.shown, text⟩

theorem State.search_copies (regexec : List Byte → Bool) (first : Bool) (good : st.Good)
    (clean : 0 ∉ st.text ofp)
    (found : st.search sizes regexec first ofp = some (ofp', next)) : Copies ofp st ofp' next := by
  fun_induction State.search sizes regexec first ofp st with
  | case1 => cases found
  | case2 first ofp st p after read _ =>
      cases found
      exact (State.getLine_line good read).copies clean
  | case3 first ofp st p after read _ ih =>
      have step := (State.getLine_line good read).copies clean
      exact step.trans (ih step.good (step.text ▸ clean) found)

theorem State.copy_copies (sizes : Sizes) (n : Nat) (good : st.Good) (clean : 0 ∉ st.text ofp) :
    Copies ofp st (st.copy sizes n ofp).1 (st.copy sizes n ofp).2 := by
  induction n generalizing st ofp with
  | zero => exact .refl good
  | succ n ih =>
      simp only [State.copy]
      split
      · rename_i after read
        exact (State.getLine_none good read).1.copies_nil
      · rename_i p after read
        have step := (State.getLine_line good read).copies clean
        exact step.trans (ih step.good (step.text ▸ clean))

theorem State.copyTo_copies (n : Nat) (good : st.Good) (clean : 0 ∉ st.text ofp)
    (copied : st.copyTo sizes n ofp = some (ofp', next)) : Copies ofp st ofp' next := by
  induction n generalizing st ofp with
  | zero =>
      cases copied
      exact .refl good
  | succ n ih =>
      simp only [State.copyTo] at copied
      split at copied
      · cases copied
      · rename_i p after read
        have step := (State.getLine_line good read).copies clean
        exact step.trans (ih step.good (step.text ▸ clean) copied)

theorem State.copyRest_copies (sizes : Sizes) (good : st.Good) (clean : 0 ∉ st.text ofp) :
    Copies ofp st (st.copyRest sizes ofp).1 (st.copyRest sizes ofp).2 ∧
      (st.copyRest sizes ofp).2.unread = [] ∧ (st.copyRest sizes ofp).2.infile = [] := by
  fun_induction State.copyRest sizes ofp st with
  | case1 ofp st after read =>
      obtain ⟨reads, drained⟩ := State.getLine_none good read
      exact ⟨reads.copies_nil, drained⟩
  | case2 ofp st p after read ih =>
      have step := (State.getLine_line good read).copies clean
      obtain ⟨copies, drained⟩ := ih step.good (step.text ▸ clean)
      exact ⟨step.trans copies, drained⟩

theorem State.scan_copies (regexec : List Byte → Bool) (ofs : Int) (good : st.Good)
    (clean : 0 ∉ st.text []) (scanned : st.scan sizes regexec ofs = some (ofp, next)) :
    Copies [] st ofp next := by
  unfold State.scan at scanned
  split at scanned
  · cases scanned
  rename_i found
  have step := State.search_copies regexec true good clean found
  split at scanned
  · cases scanned
    exact step
  · have copied := State.copy_copies sizes (ofs - 1).toNat step.good (step.text ▸ clean)
    rw [Option.some.inj scanned] at copied
    exact step.trans copied

/-- What is left of a text: part of it, and all of it exactly under a condition. -/
structure Keeps (kept : Prop) (before after : List Byte) : Prop where
  part : after.Sublist before
  all : after = before ↔ kept

theorem Keeps.trans {first second : Prop} {before between after : List Byte}
    (one : Keeps first before between) (two : Keeps second between after) :
    Keeps (first ∧ second) before after := by
  refine ⟨two.part.trans one.part, ?_⟩
  constructor
  · intro same
    have kept : between = before := one.part.antisymm (same ▸ two.part)
    exact ⟨one.all.mp kept, two.all.mp (same.trans kept.symm)⟩
  · rintro ⟨early, late⟩
    exact (two.all.mpr late).trans (one.all.mpr early)

theorem Keeps.of_eq {before after : List Byte} (same : after = before) : Keeps True before after :=
  ⟨same ▸ List.Sublist.refl _, by simp [same]⟩

theorem Keeps.drop (front piece back : List Byte) :
    Keeps (piece = []) (front ++ piece ++ back) (front ++ back) := by
  refine ⟨?_, ?_⟩
  · rw [List.append_assoc]
    exact (List.Sublist.refl front).append (List.sublist_append_right piece back)
  · constructor
    · intro same
      have length := congrArg List.length same
      simp only [List.length_append] at length
      exact List.eq_nil_of_length_eq_zero (by omega)
    · rintro rfl
      simp

theorem modify_append {α : Type} {l : List α} {i : Nat} (within : i < l.length) (f : α → α) (a : α) :
    (l ++ [a]).modify i f = l.modify i f ++ [a] := by
  induction l generalizing i with
  | nil => cases within
  | cons b l ih =>
      cases i with
      | zero => rfl
      | succ i =>
          have within : i < l.length := Nat.lt_of_succ_lt_succ within
          simp only [List.cons_append, List.modify_succ_cons, ih within]

theorem shown_append (good : st.Good) (ofp : List Byte) :
    State.shown { st with files := st.files ++ [ofp] } = st.shown ++ [ofp] := by
  unfold State.shown
  cases file : st.overfile with
  | none => rfl
  | some spill =>
      have within := good.spill spill file
      exact modify_append within _ ofp

theorem State.Good.append (good : st.Good) (ofp : List Byte) :
    State.Good { st with files := st.files ++ [ofp] } ∧
      State.text { st with files := st.files ++ [ofp] } [] = st.text ofp := by
  have unread : State.unread { st with files := st.files ++ [ofp] } = st.unread := by
    unfold State.unread
    cases file : st.overfile with
    | none => rfl
    | some spill =>
        have within := good.spill spill file
        simp [List.getD_eq_getElem?_getD, List.getElem?_append_left within]
  refine ⟨⟨fun spill file => ?_, good.eof⟩, ?_⟩
  · have within := good.spill spill file
    simp only [List.length_append]
    omega
  · simp only [State.text, unread, shown_append good]
    simp

theorem State.tidy_shown (st : State) :
    st.tidy = { st with files := st.shown, overfile := none } := by
  obtain ⟨infile, eof, files, overfile, truncofs, lineno⟩ := st
  cases overfile <;> rfl

/-! ## The overflow -/

theorem text_thrown (infile : List Byte) (eof : Bool) (files : List (List Byte)) (ofp : List Byte)
    (ofs : Nat) (lineno : Int) :
    State.text ⟨infile, eof, files ++ [ofp], some ⟨files.length, ofs⟩, ofs, lineno⟩ [] =
      files.flatten ++ ofp ++ infile := by
  have cut : (files ++ [ofp]).modify files.length (·.take ofs) = files ++ [ofp.take ofs] :=
    Sed.modify_at rfl ofp [] _
  have place : (files ++ [ofp]).getD files.length [] = ofp := by simp
  simp only [State.text, State.shown, State.unread, cut, place, List.flatten_append,
    List.flatten_singleton, List.append_nil, List.append_assoc]
  rw [← List.append_assoc (ofp.take ofs), List.take_append_drop]

theorem State.toomuch_keeps {n : Nat} (good : st.Good)
    (thrown : st.toomuch sizes ofp n = some next) :
    next.Good ∧ Keeps (st.unread = []) (st.text ofp) (next.text []) := by
  unfold State.toomuch at thrown
  rw [State.tidy_shown] at thrown
  split at thrown
  · cases thrown
  rename_i ofs wound
  cases thrown
  refine ⟨⟨?_, good.eof⟩, ?_⟩
  · rintro _ ⟨⟩
    simp
  rw [text_thrown]
  exact Keeps.drop (st.shown.flatten ++ ofp) st.unread st.infile

theorem State.tidy_keeps (good : st.Good) :
    (State.Good { st.tidy with files := st.tidy.files ++ [ofp] }) ∧
      Keeps (st.unread = []) (st.text ofp)
        (State.text { st.tidy with files := st.tidy.files ++ [ofp] } []) := by
  rw [State.tidy_shown]
  refine ⟨⟨fun _ none => (nomatch none), good.eof⟩, ?_⟩
  have later : State.text { st with files := st.shown ++ [ofp], overfile := none } [] =
      st.shown.flatten ++ ofp ++ st.infile := by
    simp [State.text, State.shown, State.unread]
  rw [later]
  exact Keeps.drop (st.shown.flatten ++ ofp) st.unread st.infile

theorem State.doRexp_keeps (regexec : List Byte → Bool) (ofs : Int) (good : st.Good)
    (clean : 0 ∉ st.text []) (scanned : st.scan sizes regexec ofs = some (ofp, next))
    (made : st.doRexp sizes regexec ofs = some later) :
    later.Good ∧ Keeps (next.unread = []) (st.text []) (later.text []) := by
  have step := State.scan_copies regexec ofs good clean scanned
  simp only [State.doRexp, scanned] at made
  rw [← step.text]
  split at made
  · exact State.toomuch_keeps step.good made
  · cases made
    exact State.tidy_keeps step.good

theorem State.doRexp_scan {regexec : List Byte → Bool} {ofs : Int}
    (made : st.doRexp sizes regexec ofs = some next) :
    ∃ ofp before, st.scan sizes regexec ofs = some (ofp, before) := by
  unfold State.doRexp at made
  split at made
  · cases made
  · rename_i ofp before scanned
    exact ⟨ofp, before, scanned⟩

end Copying

/-! ## Runs -/

/-- Every time a pattern is through, the lines thrown back before have been read again. -/
def State.RereadLoop (sizes : Sizes) (maxfiles : Nat) (regexec : List Byte → Bool) (ofs : Int) :
    Nat → State → Prop
  | reps, st =>
      (∀ ofp before, st.scan sizes regexec ofs = some (ofp, before) → before.unread = []) ∧
        match reps, st.doRexp sizes regexec ofs with
        | reps + 1, some st =>
            st.files.length < maxfiles - 1 → State.RereadLoop sizes maxfiles regexec ofs reps st
        | _, _ => True

/-- The lines a run throws back are read again before the next ones are, and before the end when
the end of the input has been met. -/
def State.Reread (sizes : Sizes) (maxfiles : Nat) : List (Pattern × Nat) → State → Prop
  | [], st => st.eof = true → st.unread = []
  | (pattern, reps) :: argv, st =>
      if st.files.length < maxfiles - 1 then
        match pattern with
        | .rexp regexec ofs =>
            State.RereadLoop sizes maxfiles regexec ofs reps st ∧
              ∀ next, st.rexpLoop sizes maxfiles regexec ofs reps = some next →
                State.Reread sizes maxfiles argv next
        | .lineno tgtline =>
            ∀ next, st.doLineno sizes maxfiles tgtline reps = some next →
              State.Reread sizes maxfiles argv next
      else st.eof = true → st.unread = []

section Runs

variable {sizes : Sizes} {st next : State}

theorem State.finish_keeps (good : st.Good) (clean : 0 ∉ st.text []) :
    Keeps (st.eof = true → st.unread = []) (st.text []) (st.finish sizes).files.flatten := by
  unfold State.finish
  split
  · rename_i met
    rw [State.tidy_shown]
    have text : st.text [] = st.shown.flatten ++ st.unread ++ [] := by
      simp [State.text, good.eof met]
    have drop := Keeps.drop st.shown.flatten st.unread []
    rw [List.append_nil] at drop
    simpa [met, text] using drop
  · rename_i more
    obtain ⟨copies, unread, infile⟩ := State.copyRest_copies sizes good clean
    have kept : (State.tidy { (st.copyRest sizes []).2 with
        files := (st.copyRest sizes []).2.files ++ [(st.copyRest sizes []).1] }).files.flatten =
          st.text [] := by
      rw [State.tidy_shown, shown_append copies.good, ← copies.text]
      simp [State.text, unread, infile]
    simpa [more] using Keeps.of_eq kept

theorem State.linenoLoop_keeps (maxfiles : Nat) (tgtline : Int) (reps : Nat) (lastline : Int)
    (good : st.Good) (clean : 0 ∉ st.text [])
    (made : st.linenoLoop sizes maxfiles tgtline reps lastline = some next) :
    next.Good ∧ next.text [] = st.text [] := by
  fun_induction State.linenoLoop sizes maxfiles tgtline reps lastline st with
  | case1 => cases made
  | case2 lastline st room ofp mid copied file =>
      have copies := State.copyTo_copies _ good clean copied
      rw [← Option.some.inj made]
      obtain ⟨good, text⟩ := copies.good.append ofp
      exact ⟨good, text.trans copies.text⟩
  | case3 lastline st room ofp mid copied file reps ih =>
      have copies := State.copyTo_copies _ good clean copied
      obtain ⟨good, text⟩ := copies.good.append ofp
      obtain ⟨good, rest⟩ := ih good (by rwa [text, copies.text]) made
      exact ⟨good, (rest.trans text).trans copies.text⟩
  | case4 =>
      cases made
      exact ⟨good, rfl⟩

theorem State.doLineno_keeps {maxfiles : Nat} {tgtline : Int} {reps : Nat} (good : st.Good)
    (clean : 0 ∉ st.text []) (made : st.doLineno sizes maxfiles tgtline reps = some next) :
    next.Good ∧ next.text [] = st.text [] := by
  unfold State.doLineno at made
  split at made
  · cases made
  split at made
  · cases made
  exact State.linenoLoop_keeps maxfiles tgtline reps tgtline good clean made

theorem State.rexpLoop_keeps (maxfiles : Nat) (regexec : List Byte → Bool) (ofs : Int) (reps : Nat)
    (good : st.Good) (clean : 0 ∉ st.text [])
    (made : st.rexpLoop sizes maxfiles regexec ofs reps = some next) :
    next.Good ∧ Keeps (st.RereadLoop sizes maxfiles regexec ofs reps) (st.text []) (next.text []) := by
  have step : ∀ {st mid : State}, st.Good → 0 ∉ st.text [] → st.doRexp sizes regexec ofs = some mid →
      mid.Good ∧ 0 ∉ mid.text [] ∧
        Keeps (∀ ofp before, st.scan sizes regexec ofs = some (ofp, before) → before.unread = [])
          (st.text []) (mid.text []) := by
    intro st mid good clean one
    obtain ⟨ofp, before, scanned⟩ := State.doRexp_scan one
    obtain ⟨good, keeps⟩ := State.doRexp_keeps regexec ofs good clean scanned one
    refine ⟨good, fun mem => clean (keeps.part.subset mem), ?_⟩
    have unique : (∀ ofp before', st.scan sizes regexec ofs = some (ofp, before') →
        before'.unread = []) ↔ before.unread = [] := by
      refine ⟨fun all => all ofp before scanned, ?_⟩
      rintro nil ofp' before' scanned'
      cases scanned.symm.trans scanned'
      exact nil
    exact ⟨keeps.part, keeps.all.trans unique.symm⟩
  fun_induction State.rexpLoop sizes maxfiles regexec ofs reps st with
  | case1 => cases made
  | case2 st mid one =>
      cases made
      obtain ⟨good, -, keeps⟩ := step good clean one
      exact ⟨good, by simpa [State.RereadLoop] using keeps⟩
  | case3 st mid one reps room ih =>
      obtain ⟨good, clean, keeps⟩ := step good clean one
      obtain ⟨good, rest⟩ := ih good clean made
      exact ⟨good, by simpa [State.RereadLoop, one, room] using keeps.trans rest⟩
  | case4 st mid one reps room =>
      cases made
      obtain ⟨good, -, keeps⟩ := step good clean one
      exact ⟨good, by simpa [State.RereadLoop, one, room] using keeps⟩

theorem State.run_keeps (maxfiles : Nat) (argv : List (Pattern × Nat)) (good : st.Good)
    (clean : 0 ∉ st.text []) (made : State.run sizes maxfiles argv st = some next) :
    Keeps (State.Reread sizes maxfiles argv st) (st.text []) (next.finish sizes).files.flatten := by
  induction argv generalizing st with
  | nil =>
      cases made
      exact State.finish_keeps good clean
  | cons pair argv ih =>
      obtain ⟨pattern, reps⟩ := pair
      by_cases room : st.files.length < maxfiles - 1
      · simp only [State.run, room, if_true] at made
        split at made
        · cases made
        rename_i mid one
        cases pattern with
        | rexp regexec ofs =>
            obtain ⟨good, keeps⟩ := State.rexpLoop_keeps maxfiles regexec ofs reps good clean one
            have rest := ih good (fun mem => clean (keeps.part.subset mem)) made
            simpa [State.Reread, room, one] using keeps.trans rest
        | lineno tgtline =>
            obtain ⟨good, same⟩ := State.doLineno_keeps good clean one
            have rest := ih good (by rwa [same]) made
            simpa [State.Reread, room, one, same] using rest
      · simp only [State.run, room, if_false] at made
        cases made
        simpa [State.Reread, room] using State.finish_keeps good clean

/-- The files csplit leaves are the input, cut in pieces, exactly when the lines thrown back are
all read again: before the next lines are thrown back or the overflow file is closed, and, when
the end of the input has been met, before the rest would be copied. -/
theorem csplit_concat (sizes : Sizes) (sufflen : Nat) (argv : List (Pattern × Nat))
    (input : List Byte) (files : List (List Byte)) (clean : 0 ∉ input)
    (left : csplit sizes sufflen argv input = some files) :
    files.flatten = input ↔ State.Reread sizes (10 ^ sufflen) argv (.start input) := by
  unfold csplit at left
  split at left
  · cases left
  rename_i st made
  cases left
  have text : (State.start input).text [] = input := by
    simp [State.text, State.shown, State.unread, State.start]
  have keeps := State.run_keeps (10 ^ sufflen) argv (State.good_start input) (by rwa [text]) made
  rw [text] at keeps
  exact keeps.all

end Runs

/-- The buffers of the system. -/
def sizes : Sizes := ⟨2048, 1024, by decide, by decide⟩

theorem csplit_concat_line :
    [ascii ['a', '\n'], ascii ['b', '\n']].flatten = ascii ['a', '\n', 'b', '\n'] ↔
      State.Reread sizes (10 ^ 2) [(.rexp (byte 'b' ∈ ·) 0, 0)]
        (.start (ascii ['a', '\n', 'b', '\n'])) :=
  csplit_concat sizes 2 _ _ _ (by decide) (by decide +kernel)

/-- A match in a last line without a newline is thrown back and lost. -/
theorem csplit_unterminated : ¬∀ (sizes : Sizes) (sufflen : Nat) (argv : List (Pattern × Nat))
    (input : List Byte) (files : List (List Byte)), 0 ∉ input →
      csplit sizes sufflen argv input = some files → files.flatten = input := by
  intro claim
  have lost := claim sizes 2 [(.rexp (byte 'b' ∈ ·) 0, 0)] (ascii ['a', '\n', 'b']) [[]] (by decide)
    (by decide +kernel)
  exact absurd lost (by decide)

end Netbase.Csplit
