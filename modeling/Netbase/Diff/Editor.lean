import Mathlib.Data.List.TakeWhile
import Netbase.Diff.Checked

/-!
# Editor scripts

With `-e` the loop of `output` goes from the last line to the first: no command of the editor
moves a line that a later one is about.  A line that is a single dot would end the text of a
command, so `fetch` writes two dots and stops there; `change` has the first of them taken away
and goes on behind the line.
-/

namespace Netbase.Diff.Editor

open Netbase.Lib
open Netbase.Lib.Spans
open Netbase.Text
open Netbase.Diff.Check
open Netbase.Diff.Checked
open Netbase.Diff.Collision
open Netbase.Diff.Fetch
open Netbase.Diff.Output

/-- A command and the text behind it, up to the dot that ends the text; `strip` is `s/.//`. -/
inductive Command where
  | append (line : Nat) (text : List Byte)
  | change (first last : Nat) (text : List Byte)
  | delete (first last : Nat)
  | strip (line : Nat)
  deriving DecidableEq

/-- `change` in the format `D_EDIT`, with the number of restarts it may need. -/
def change (ixnew : Table Nat) (file1 : List Byte) : Nat → Change → List Command
  | 0, _ => []
  | restarts + 1, ⟨a, b, c, d⟩ =>
      if a > b ∧ c > d then []
      else
        let (text, i) := fetch .edit ixnew c d file1 none
        (if a > b then .append b text else if c > d then .delete a b else .change a b text) ::
          if i ≠ 0 then .strip (a + i - 1) :: change ixnew file1 restarts ⟨a + i, a + i - 1, c + i, d⟩
          else []

/-- The script that is written for two files. -/
def script (bound : Nat) (file0 file1 : List Byte) : List Command :=
  (backwardChanges (prepare file0).length (prepare file1).length (checked bound file0 file1).J).flatMap
    (change (checked bound file0 file1).ixnew file1 ((prepare file1).length + 1))

def dot : List Byte := [byte '.', nl]

/-- What the editor reads of a text: a dot ends it. -/
def typed (text : List Byte) : List (List Byte) := (lines text).takeWhile (· ≠ dot)

/-- What the editor does to its buffer. -/
def Command.run (buffer : List (List Byte)) : Command → List (List Byte)
  | .append line text => buffer.take line ++ typed text ++ buffer.drop line
  | .change first last text => buffer.take (first - 1) ++ typed text ++ buffer.drop last
  | .delete first last => buffer.take (first - 1) ++ buffer.drop last
  | .strip line => buffer.modify (line - 1) List.tail

/-! ## From the last line to the first -/

section

variable {α : Type} {olds news : List α} {J table : Table Nat} {i j : Nat}

/-- The loop has still to pass `i` old and `j` new lines. -/
structure Left (olds news : List α) (J : Table Nat) (i j : Nat) (table : Table Nat) : Prop where
  inside : i ≤ olds.length
  insideNew : j ≤ news.length
  front : table 0 = 0
  here : table (i + 1) = j + 1
  coming : ∀ k, 0 < k → k ≤ i → table k = J k
  below : ∀ k, 0 < k → k ≤ i → J k ≤ j

/-- The lines that are passed are the same in both files. -/
theorem Left.matches (pairs : Pairs olds news J) (left : Left olds news J i j table) :
    ∃ j', Left olds news J (passMatchesBack table i) j' table ∧ passMatchesBack table i ≤ i ∧
      olds.take i ++ news.drop j = olds.take (passMatchesBack table i) ++ news.drop j' ∧
      ¬ (J (passMatchesBack table i) = j' ∧ j' ≠ 0 ∧ 0 < passMatchesBack table i) := by
  induction i generalizing j with
  | zero => exact ⟨j, left, le_refl 0, rfl, fun none_ => absurd none_.2.2 (Nat.not_lt_zero 0)⟩
  | succ i ih =>
      have here := left.coming (i + 1) (Nat.succ_pos i) (le_refl _)
      have insideOld := left.inside
      have insideNew := left.insideNew
      rw [passMatchesBack, left.here, Nat.add_sub_cancel, here]
      split
      · next matched =>
          obtain ⟨j, rfl⟩ : ∃ less, j = less + 1 := ⟨j - 1, by omega⟩
          have same := pairs.equal (i + 1) (Nat.succ_pos i) left.inside matched.2
          rw [matched.1, Nat.add_sub_cancel, Nat.add_sub_cancel,
            List.getElem?_eq_getElem insideOld, List.getElem?_eq_getElem insideNew] at same
          have next : Left olds news J i j table := by
            refine ⟨by omega, by omega, left.front, by rw [here, matched.1],
              fun k positive inside => left.coming k positive (by omega),
              fun k positive inside => ?_⟩
            by_cases zero : J k = 0
            · omega
            · have rising := pairs.rises.rising k (i + 1) positive (by omega) left.inside zero matched.2
              omega
          obtain ⟨j', further, least, text, stop⟩ := ih next
          refine ⟨j', further, by omega, ?_, stop⟩
          rw [← text, List.take_succ_eq_append_getElem insideOld, Option.some.inj same,
            List.append_assoc, List.singleton_append, ← List.drop_eq_getElem_cons]
      · next other =>
          exact ⟨j, left, le_refl _, rfl, fun ⟨same, nonzero, _⟩ => other ⟨same, same ▸ nonzero⟩⟩

theorem passDeletedBack_spec (table : Table Nat) (i : Nat) :
    ∃ k, passDeletedBack table (i + 1) = k + 1 ∧ k ≤ i ∧ (0 < k → table k ≠ 0) := by
  induction i with
  | zero => exact ⟨0, rfl, le_refl 0, fun none_ => absurd none_ (Nat.not_lt_zero 0)⟩
  | succ i ih =>
      rw [passDeletedBack]
      split
      · obtain ⟨k, place, inside, stop⟩ := ih
        exact ⟨k, place, by omega, stop⟩
      · next other => exact ⟨i + 1, rfl, le_refl _, fun _ zero => other ⟨by omega, zero⟩⟩

theorem take_drop_take (list : List α) {low high : Nat} (less : low ≤ high) :
    list.take low ++ (list.take high).drop low = list.take high := by
  have first : list.take low = (list.take high).take low := by
    rw [List.take_take, Nat.min_eq_left less]
  rw [first, List.take_append_drop]

/-- The lines `c..d` of the new file are put in the place of the lines `a..b`. -/
def Applies (news : List α) (f : List α → Change → List α) : Prop :=
  ∀ ahead old behind front part back, news = front ++ part ++ back →
    f (ahead ++ old ++ behind) ⟨ahead.length + 1, ahead.length + old.length, front.length + 1,
      front.length + part.length⟩ = ahead ++ part ++ behind

theorem Left.run (pairs : Pairs olds news J) {f : List α → Change → List α}
    (applies : Applies news f) (left : Left olds news J i j table) (done : i = 0 → j = 0) {fuel : Nat}
    (enough : 2 * i + (if J i = j ∧ j ≠ 0 then 0 else 1) ≤ fuel ∨ i = 0) :
    (backwardFrom fuel i table).foldl f (olds.take i ++ news.drop j) = news := by
  induction fuel generalizing i j table with
  | zero =>
      have none_ : i = 0 := by omega
      rw [backwardFrom, List.foldl_nil, none_, done none_]
      rfl
  | succ fuel ih =>
      rcases Nat.eq_zero_or_pos i with rfl | some_
      · rw [backwardFrom, if_neg (Nat.not_succ_le_zero 0), List.foldl_nil, done rfl]
        rfl
      · obtain ⟨d, passed, least, text, stop⟩ := left.matches pairs
        obtain ⟨k, place, inside, halt⟩ := passDeletedBack_spec table (passMatchesBack table i)
        rw [backwardFrom, if_pos (Nat.succ_le_of_lt some_), text]
        dsimp only
        rw [passed.here, place, Nat.add_sub_cancel, Nat.add_sub_cancel, List.foldl_cons]
        generalize passMatchesBack table i = b at *
        have insideOld := passed.inside
        have insideNew := passed.insideNew
        have paired : 0 < k → table k = J k ∧ J k ≠ 0 := fun positive =>
          have coming := passed.coming k positive inside
          ⟨coming, coming ▸ halt positive⟩
        have before : table k ≤ d := by
          rcases Nat.eq_zero_or_pos k with rfl | positive
          · rw [passed.front]
            exact Nat.zero_le d
          · exact (paired positive).1 ▸ passed.below k positive inside
        have next : Left olds news J k (table k) (table.set (k + 1) (table k + 1)) := by
          refine ⟨by omega, by omega, ?_, Table.set_same _ _ _, fun m positive low => ?_,
            fun m positive low => ?_⟩
          · rw [Table.set_other _ _ (Nat.zero_ne_add_one k), passed.front]
          · rw [Table.set_other _ _ (by omega)]
            exact passed.coming m positive (by omega)
          · obtain ⟨same, nonzero⟩ := paired (by omega)
            rcases Nat.eq_or_lt_of_le low with rfl | less
            · exact same.ge
            · by_cases zero : J m = 0
              · omega
              · exact same ▸ (pairs.rises.rising m k positive less (by omega) zero nonzero).le
        have applied := applies (olds.take k) ((olds.take b).drop k) (news.drop d)
          (news.take (table k)) ((news.take d).drop (table k)) (news.drop d)
          (by rw [take_drop_take _ before, List.take_append_drop])
        have behind : (news.take d).drop (table k) ++ news.drop d = news.drop (table k) := by
          rw [← List.drop_append_of_le_length (by rw [List.length_take]; omega),
            List.take_append_drop]
        rw [take_drop_take _ inside, List.append_assoc, behind, List.length_drop, List.length_drop,
          List.length_take, List.length_take, List.length_take, List.length_take,
          Nat.min_eq_left (by omega), Nat.min_eq_left insideOld, Nat.min_eq_left (by omega),
          Nat.min_eq_left insideNew, Nat.add_sub_cancel' inside, Nat.add_sub_cancel' before] at applied
        rw [applied]
        refine ih next (fun zero => zero ▸ passed.front) ?_
        rcases Nat.eq_zero_or_pos k with zero | positive
        · exact Or.inr zero
        · have same := (paired positive).1
          rw [if_pos ⟨same.symm, halt positive⟩]
          by_cases still : k = i
          · have whole : b = i := by omega
            have there := passed.here
            subst whole
            rw [left.here] at there
            rw [if_neg fun all => stop ⟨by omega, by omega, some_⟩] at enough
            omega
          · omega

theorem backwardChanges_run (pairs : Pairs olds news J) {f : List α → Change → List α}
    (applies : Applies news f) :
    (backwardChanges olds.length news.length J).foldl f olds = news := by
  unfold backwardChanges wholeFile
  by_cases empty : olds.length = 0
  · have run := applies [] [] [] [] news [] (by simp)
    rw [List.eq_nil_of_length_eq_zero empty, List.length_nil, if_pos rfl]
    simpa [backwardFrom] using run
  · have start : Left olds news J olds.length news.length
        (guarded olds.length news.length J) := by
      refine ⟨le_refl _, le_refl _, ?_, guarded_last _ _ _, fun k => guarded_inside,
        pairs.rises.inside⟩
      rw [guarded, Table.set_other _ _ (by omega), Table.set_same]
    have run := start.run pairs applies (fun none_ => absurd none_ empty)
      (Or.inl (show _ ≤ 2 * olds.length + 1 by split <;> omega))
    rw [List.take_length, List.drop_length, List.append_nil] at run
    rw [if_neg empty, List.append_nil, run]

end

/-! ## The text of a command -/

section

variable {news front plain part back more : List (List Byte)} {line text : List Byte}
  {ix : Table Nat} {a b c d : Nat}

theorem lines_flatten {list : List (List Byte)}
    (all : ∀ line ∈ list, IsLine line ∧ Terminated line) : lines list.flatten = list := by
  induction list with
  | nil => rfl
  | cons line list ih =>
      obtain ⟨isLine, terminated⟩ := all line List.mem_cons_self
      rw [List.flatten_cons, lines_append isLine terminated,
        ih fun other listed => all other (List.mem_cons_of_mem line listed)]

theorem typed_flatten {list : List (List Byte)}
    (all : ∀ line ∈ list, IsLine line ∧ Terminated line) (none_ : dot ∉ list) :
    typed list.flatten = list := by
  rw [typed, lines_flatten all, List.takeWhile_eq_self_iff]
  intro line listed
  exact decide_eq_true fun same => none_ (same ▸ listed)

theorem run_first (ahead old behind : List (List Byte)) (without : c > d → text = []) :
    (if ahead.length + 1 > ahead.length + old.length then
        Command.append (ahead.length + old.length) text
      else if c > d then .delete (ahead.length + 1) (ahead.length + old.length)
      else .change (ahead.length + 1) (ahead.length + old.length) text).run
        (ahead ++ old ++ behind) = ahead ++ typed text ++ behind := by
  have dropped : (ahead ++ old ++ behind).drop (ahead.length + old.length) = behind := by
    rw [← List.length_append, List.drop_left]
  have taken : (ahead ++ old ++ behind).take ahead.length = ahead := by
    rw [List.append_assoc, List.take_left]
  split
  · next above =>
      have place : ahead.length + old.length = ahead.length := by omega
      rw [Command.run, dropped, place, taken]
  · split
    · next none_ =>
        rw [without none_, Command.run, typed, lines_nil, List.takeWhile_nil, List.append_nil,
          dropped, Nat.add_sub_cancel, taken]
    · rw [Command.run, dropped, Nat.add_sub_cancel, taken]

theorem fetchBytes_behind (line rest : List Byte) {j : Nat} (behind : 2 ≤ j) (lastc : Byte) :
    fetchBytes .edit line.length j lastc (line ++ rest) = (line, .done) := by
  induction line generalizing j lastc with
  | nil => rfl
  | cons c line ih =>
      rw [List.length_cons, List.cons_append, fetchBytes, if_neg fun all => by omega, ih (by omega)]

theorem fetchBytes_edit (isLine : IsLine line) (other : line ≠ dot) (rest : List Byte) :
    fetchBytes .edit line.length 0 0 (line ++ rest) = (line, .done) := by
  rcases line with _ | ⟨c, _ | ⟨next, line⟩⟩
  · exact absurd rfl isLine.nonempty
  · rfl
  · have single : ¬ (Format.edit = .edit ∧ 0 + 1 = 1 ∧ next = nl ∧ c = byte '.') := by
      rintro ⟨-, -, rfl, rfl⟩
      have alone : IsLine ([byte '.'] ++ nl :: line) := isLine
      exact other (by rw [alone.nl_last]; rfl)
    rw [List.length_cons, List.cons_append, fetchBytes, if_neg (by simp), List.length_cons,
      List.cons_append, fetchBytes, if_neg single, fetchBytes_behind line rest (by omega)]

variable (all : ∀ line ∈ news, IsLine line ∧ Terminated line)
  (exact_ : ∀ k, k ≤ news.length → ix k = offset news k)

include exact_

theorem reads (split : news = front ++ line :: more) :
    ix (front.length + 1) - ix front.length = line.length ∧
      news.flatten.drop (ix front.length) = line ++ more.flatten := by
  have found : news[front.length]? = some line := by rw [split]; simp
  have inside := (List.getElem?_eq_some_iff.mp found).1
  have rest : news.drop (front.length + 1) = more := by rw [split]; simp
  rw [exact_ _ inside.le, exact_ _ inside, offset_succ found, drop_offset, drop_found found,
    List.flatten_cons, rest]
  exact ⟨Nat.add_sub_cancel_left .., rfl⟩

include all

theorem fetchLines_plain (split : news = front ++ (plain ++ more)) (none_ : dot ∉ plain)
    (count : Nat) :
    fetchLines .edit ix a news.flatten none (plain.length + count) (front.length + 1) =
      (plain.flatten ++
          (fetchLines .edit ix a news.flatten none count ((front ++ plain).length + 1)).1,
        (fetchLines .edit ix a news.flatten none count ((front ++ plain).length + 1)).2) := by
  induction plain generalizing front with
  | nil => rw [List.length_nil, Nat.zero_add, List.append_nil]; rfl
  | cons line plain ih =>
      have here : news = front ++ line :: (plain ++ more) := split
      obtain ⟨length, stream⟩ := reads exact_ here
      have rest := @ih (front ++ [line]) (by rw [split]; simp) fun listed =>
        none_ (List.mem_cons_of_mem line listed)
      have fetched := fetchBytes_edit (all line (by rw [split]; simp)).1
        (fun same => none_ (same ▸ List.mem_cons_self)) (plain ++ more).flatten
      rw [List.length_append, List.length_singleton, List.append_assoc,
        List.singleton_append] at rest
      rw [List.length_cons, Nat.add_right_comm, fetchLines, Nat.add_sub_cancel, length, stream,
        fetched]
      dsimp only
      rw [rest, List.flatten_cons, List.append_assoc line]
      rfl

theorem fetch_plain (split : news = front ++ (part ++ back)) (none_ : dot ∉ part) :
    fetch .edit ix (front.length + 1) (front.length + part.length) news.flatten none =
      (part.flatten, 0) := by
  rw [fetch]
  split
  · rw [List.eq_nil_of_length_eq_zero (show part.length = 0 by omega), List.flatten_nil]
  · rw [show front.length + part.length + 1 - (front.length + 1) = part.length + 0 by omega,
      fetchLines_plain all exact_ split none_, fetchLines, List.append_nil]

theorem fetch_dotted (split : news = front ++ (plain ++ dot :: more)) (none_ : dot ∉ plain)
    (inside : front.length + plain.length < d) :
    fetch .edit ix (front.length + 1) d news.flatten none =
      (plain.flatten ++ byte '.' :: dot, plain.length + 1) := by
  obtain ⟨length, stream⟩ := reads exact_ (split.trans (List.append_assoc ..).symm)
  rw [fetch, if_neg (by omega), show d + 1 - (front.length + 1) =
      plain.length + (d - front.length - plain.length - 1 + 1) by omega,
    fetchLines_plain all exact_ split none_, fetchLines, Nat.add_sub_cancel, length, stream]
  simp only [show fetchBytes .edit dot.length 0 0 (dot ++ more.flatten) = (byte '.' :: dot, .dot) from
    rfl, markText, List.nil_append, List.length_append, Prod.mk.injEq, true_and]
  omega

theorem change_run {restarts : Nat} {ahead old behind : List (List Byte)}
    (split : news = front ++ (part ++ back)) (enough : part.length < restarts) :
    (change ix news.flatten restarts ⟨ahead.length + 1, ahead.length + old.length,
      front.length + 1, front.length + part.length⟩).foldl Command.run (ahead ++ old ++ behind) =
      ahead ++ part ++ behind := by
  induction restarts generalizing ahead old front part with
  | zero => omega
  | succ restarts ih =>
      have listed (line : List Byte) (here : line ∈ part) : IsLine line ∧ Terminated line :=
        all line (by rw [split]; simp [here])
      rw [change]
      by_cases idle : ahead.length + 1 > ahead.length + old.length ∧
          front.length + 1 > front.length + part.length
      · rw [if_pos idle, List.eq_nil_of_length_eq_zero (show old.length = 0 by omega),
          List.eq_nil_of_length_eq_zero (show part.length = 0 by omega), List.foldl_nil]
      · rw [if_neg idle]
        by_cases dotted : dot ∈ part
        · obtain ⟨plain, rest, rfl, none_⟩ := List.eq_append_cons_of_mem dotted
          have two : typed (plain.flatten ++ byte '.' :: dot) = plain ++ [byte '.' :: dot] := by
            have whole : (plain ++ [byte '.' :: dot]).flatten = plain.flatten ++ byte '.' :: dot := by
              simp
            rw [← whole]
            refine typed_flatten (fun line here => ?_) ?_
            · rcases List.mem_append.mp here with inPlain | last
              · exact listed line (List.mem_append_left _ inPlain)
              · rw [List.mem_singleton.mp last]
                decide
            · rw [List.mem_append, not_or]
              exact ⟨none_, by decide⟩
          have more := @ih (front ++ (plain ++ [dot])) rest (ahead ++ (plain ++ [dot])) []
            (by rw [split]; simp) (by rw [List.length_append, List.length_cons] at enough; omega)
          have stripped : (ahead ++ (plain ++ [byte '.' :: dot]) ++ behind).modify
              (ahead.length + plain.length) List.tail = ahead ++ (plain ++ [dot]) ++ behind := by
            have whole : ahead ++ (plain ++ [byte '.' :: dot]) ++ behind =
                (ahead ++ plain) ++ (byte '.' :: dot) :: behind := by simp
            rw [whole, ← List.length_append, List.modify_eq_take_drop, List.take_left, List.drop_left]
            simp
          simp only [List.length_append, List.length_cons, List.length_nil, List.append_nil] at more
          rw [fetch_dotted all exact_ (split.trans (by rw [List.append_assoc, List.cons_append])) none_
            (by simp)]
          dsimp only
          rw [if_pos (Nat.succ_ne_zero _), List.foldl_cons, run_first _ _ _ (by simp), two,
            List.foldl_cons, Command.run, show ahead.length + 1 + (plain.length + 1) - 1 - 1 =
              ahead.length + plain.length by omega, stripped]
          refine Eq.trans (congrArg (List.foldl _ _) (congrArg _ ?_)) (more.trans (by simp))
          rw [List.length_append, List.length_cons, Output.Change.mk.injEq]
          omega
        · rw [fetch_plain all exact_ split dotted]
          dsimp only
          rw [if_neg (not_not.mpr rfl), List.foldl_cons, run_first _ _ _ fun none_ => by
            rw [List.eq_nil_of_length_eq_zero (show part.length = 0 by omega), List.flatten_nil],
            typed_flatten listed dotted, List.foldl_nil]

end

end Netbase.Diff.Editor
