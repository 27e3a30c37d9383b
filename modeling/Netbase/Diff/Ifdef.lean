import Netbase.Diff.Checked
import Netbase.Lib.Conditional

/-!
# Merged output

With `-D` the two files are merged: the text of the old file is copied from where
its stream stands, and the lines of a change are set between directives of the
preprocessor.
-/

namespace Netbase.Diff.Ifdef

open Netbase.Lib
open Netbase.Lib.Conditional
open Netbase.Lib.EditScript
open Netbase.Text
open Netbase.Diff.Check
open Netbase.Diff.Checked
open Netbase.Diff.Collision
open Netbase.Diff.Fetch
open Netbase.Diff.Output

/-- `ifdefname` -/
structure Name where
  bytes : List Byte
  clean : nl ∉ bytes

namespace Name

variable (ifdefname : Name)

def ifndefText : List Byte := ascii ['#', 'i', 'f', 'n', 'd', 'e', 'f', ' '] ++ ifdefname.bytes ++ [nl]

def ifdefText : List Byte := ascii ['#', 'i', 'f', 'd', 'e', 'f', ' '] ++ ifdefname.bytes ++ [nl]

/-- `#else`, with the condition of the part that follows in a comment. -/
def elseText (oldfile : Bool) : List Byte :=
  ascii ['#', 'e', 'l', 's', 'e', ' ', '/', '*', ' '] ++ (if oldfile then [byte '!'] else []) ++
    ifdefname.bytes ++ ascii [' ', '*', '/', '\n']

def endifText : List Byte :=
  ascii ['#', 'e', 'n', 'd', 'i', 'f', ' ', '/', '*', ' '] ++ ifdefname.bytes ++
    ascii [' ', '*', '/', '\n']

end Name

/-! ## Printing -/

/-- Where the stream of the old file stands, what part of a change is open, and the text. -/
structure Merge where
  f1 : Nat
  inifdef : Nat
  text : List Byte
  deriving DecidableEq, Repr

/-- `for (i = 0; i < nc; i++) diff_output("%c", getc(lb));` -/
def Merge.through (lb : List Byte) (nc : Nat) (merge : Merge) : Merge :=
  { merge with
    f1 := merge.f1 + min nc (lb.length - merge.f1)
    text := merge.text ++ (lb.drop merge.f1).take nc ++
      List.replicate (nc - (lb.length - merge.f1)) 255 }

/-- Where the stream stands when `fetch` has printed the given number of lines from line `i` on. -/
def fetchEnd (f : Table Nat) (lb : List Byte) : Nat → Nat → Nat → Nat
  | 0, _, pos => pos
  | count + 1, i, _ =>
      match (fetchBytes .ifdef (f i - f (i - 1)) 0 0 (lb.drop (f (i - 1)))).2 with
      | .eof => max (f (i - 1)) lb.length
      | _ => fetchEnd f lb count (i + 1) (f (i - 1) + (f i - f (i - 1)))

/-- `fetch` with `D_IFDEF`. -/
def fetch (ifdefname : Name) (f : Table Nat) (a b : Nat) (lb : List Byte) (oldfile : Bool)
    (merge : Merge) : Merge :=
  let merge :=
    if oldfile then merge.through lb (f (if a > b then b else a - 1) - merge.f1) else merge
  if a > b then merge
  else
    let directive :=
      if merge.inifdef ≠ 0 then ifdefname.elseText oldfile
      else if oldfile then ifdefname.ifndefText
      else ifdefname.ifdefText
    let count := b + 1 - a
    { f1 := if oldfile then fetchEnd f lb count a merge.f1 else merge.f1
      inifdef := if oldfile then 2 else 1
      text := merge.text ++ directive ++ (fetchLines .ifdef f a lb none count a).1 }

/-- The two files as `output` finds them. -/
structure Source where
  len0 : Nat
  len1 : Nat
  file0 : List Byte
  file1 : List Byte
  ixold : Table Nat
  ixnew : Table Nat

/-- `change` with `D_IFDEF`. -/
def change (ifdefname : Name) (source : Source) (merge : Merge) (next : Change) : Merge :=
  let merge := fetch ifdefname source.ixold next.a next.b source.file0 true merge
  let merge := fetch ifdefname source.ixnew next.c next.d source.file1 false merge
  if merge.inifdef ≠ 0 then
    { merge with inifdef := 0, text := merge.text ++ ifdefname.endifText }
  else merge

/-- `output` with `D_IFDEF`; in the end the old file is copied to its end. -/
def output (ifdefname : Name) (source : Source) (J : Table Nat) : List Byte :=
  let merge := (forwardChanges source.len0 source.len1 J).foldl (change ifdefname source)
    { f1 := 0, inifdef := 0, text := [] }
  merge.text ++ source.file0.drop merge.f1

/-- What `output` prints, given what `check` leaves of two files. -/
def printed (ifdefname : Name) (bound : Nat) (file0 file1 : List Byte) : List Byte :=
  let state := checked bound file0 file1
  output ifdefname
    { len0 := (prepare file0).length
      len1 := (prepare file1).length
      file0 := file0
      file1 := file1
      ixold := state.ixold
      ixnew := state.ixnew }
    state.J

/-! ## Reading it back -/

/-- What a line of the merged text stands for. -/
def Name.mark (ifdefname : Name) (defined : Bool) (line : List Byte) : Mark :=
  if line = ifdefname.ifdefText then .opens defined
  else if line = ifdefname.ifndefText then .opens !defined
  else if line = ifdefname.elseText false ∨ line = ifdefname.elseText true then .turns
  else if line = ifdefname.endifText then .closes
  else .text

def resolved (ifdefname : Name) (defined : Bool) (text : List Byte) : List Byte :=
  (resolve (ifdefname.mark defined) [] (lines text)).flatten

/-- All lines have their newline, and none begins with `#`. -/
structure Plain (file : List Byte) : Prop where
  terminated : ∀ line ∈ lines file, Terminated line
  text : ∀ line ∈ lines file, line.head? ≠ some (byte '#')

/-! ## The text of a change -/

/-- The lines between directives. -/
def changedLines (ifdefname : Name) (block : Block (List Byte)) : List (List Byte) :=
  if block.deleted = [] then
    if block.inserted = [] then []
    else ifdefname.ifdefText :: (block.inserted ++ [ifdefname.endifText])
  else if block.inserted = [] then ifdefname.ifndefText :: (block.deleted ++ [ifdefname.endifText])
  else
    ifdefname.ifndefText ::
      (block.deleted ++ ifdefname.elseText false :: (block.inserted ++ [ifdefname.endifText]))

/-- The unchanged lines in front of a change, and its own. -/
def mergedLines (ifdefname : Name) (block : Block (List Byte)) : List (List Byte) :=
  block.kept ++ changedLines ifdefname block

/-- The table holds the end of every line. -/
def Tells (ix : Table Nat) (list : List (List Byte)) : Prop :=
  ∀ k, k ≤ list.length → ix k = offset list k

section

variable {ix : Table Nat} {list : List (List Byte)}

theorem Tells.behind (tells : Tells ix list) (front back : List (List Byte))
    (split : list = front ++ back) : ix front.length = front.flatten.length := by
  rw [tells front.length (by rw [split]; simp), offset, split, List.take_left]

theorem through_eq (x y z : List Byte) {merge : Merge} (here : merge.f1 = x.length) :
    merge.through (x ++ y ++ z) y.length =
      { merge with f1 := (x ++ y).length, text := merge.text ++ y } := by
  unfold Merge.through
  rw [here, List.append_assoc, List.drop_left, List.take_left, List.length_append,
    Nat.add_sub_cancel_left, List.length_append, Nat.min_eq_left (Nat.le_add_right _ _),
    Nat.sub_eq_zero_of_le (Nat.le_add_right _ _), List.replicate_zero, List.append_nil,
    List.length_append]

theorem fetchEnd_eq (tells : Tells ix list) (front middle back : List (List Byte))
    (split : list = front ++ middle ++ back) {pos : Nat} (here : pos = front.flatten.length) :
    fetchEnd ix list.flatten middle.length (front.length + 1) pos =
      (front ++ middle).flatten.length := by
  induction middle generalizing front pos with
  | nil => simpa [fetchEnd] using here
  | cons line middle ih =>
      have start := tells.behind front (line :: (middle ++ back)) (by rw [split]; simp)
      have next := tells.behind (front ++ [line]) (middle ++ back) (by rw [split]; simp)
      have length : (front ++ [line]).flatten.length = front.flatten.length + line.length := by simp
      have place : (front ++ [line]).length = front.length + 1 := by simp
      rw [place, length] at next
      have rest : list.flatten.drop front.flatten.length = line ++ (middle ++ back).flatten := by
        rw [split, List.append_assoc, List.flatten_append, List.drop_left]
        simp
      rw [List.length_cons, fetchEnd, Nat.add_sub_cancel, start, next, Nat.add_sub_cancel_left, rest,
        fetchBytes_exact (by decide)]
      have deeper := ih (front ++ [line]) (by rw [split]; simp) length.symm
      rw [place] at deeper
      exact deeper.trans (by simp)

theorem fetchLines_eq (tells : Tells ix list) (front middle back : List (List Byte))
    (split : list = front ++ middle ++ back) :
    (fetchLines .ifdef ix (front.length + 1) list.flatten none middle.length (front.length + 1)).1 =
      middle.flatten := by
  have exact : Shows .ifdef ix list.flatten (list.take list.length) :=
    shows_of_exact (by decide) tells
  rw [List.take_length] at exact
  generalize list.flatten = text at exact ⊢
  rw [split] at exact
  rw [fetchLines_shows front exact]
  simp [markText, List.flatMap_def]

theorem fetch_old (ifdefname : Name) (tells : Tells ix list)
    (front kept deleted back : List (List Byte))
    (split : list = front ++ kept ++ deleted ++ back) {merge : Merge}
    (here : merge.f1 = front.flatten.length) (outside : merge.inifdef = 0) {a b : Nat}
    (first : a = front.length + kept.length + 1)
    (last : b = front.length + (kept.length + deleted.length)) :
    fetch ifdefname ix a b list.flatten true merge =
      { f1 := (front ++ kept ++ deleted).flatten.length
        inifdef := if deleted = [] then 0 else 2
        text := merge.text ++ kept.flatten ++
          if deleted = [] then [] else ifdefname.ifndefText ++ deleted.flatten } := by
  have positive : deleted ≠ [] → 0 < deleted.length := List.length_pos_iff.mpr
  have place : (if a > b then b else a - 1) = (front ++ kept).length := by
    rw [List.length_append]
    split <;> omega
  have target := tells.behind (front ++ kept) (deleted ++ back) (by rw [split]; simp)
  have count : (front ++ kept).flatten.length - merge.f1 = kept.flatten.length := by
    rw [here, List.flatten_append, List.length_append, Nat.add_sub_cancel_left]
  have text : list.flatten = front.flatten ++ kept.flatten ++ (deleted ++ back).flatten := by
    rw [split]
    simp
  have copied := through_eq front.flatten kept.flatten (deleted ++ back).flatten here
  rw [← text, ← List.flatten_append] at copied
  unfold fetch
  rw [if_pos rfl, place, target, count, copied]
  dsimp only
  by_cases none_ : deleted = []
  · subst none_
    rw [if_pos (by rw [first, last, List.length_nil]; omega), outside, if_pos rfl, if_pos rfl]
    simp
  · have range : b + 1 - a = deleted.length := by omega
    have start : a = (front ++ kept).length + 1 := by rw [first, List.length_append]
    have some_ := positive none_
    rw [if_neg (by omega), if_neg none_, if_neg none_, range, outside, start,
      fetchLines_eq tells _ _ back split, fetchEnd_eq tells _ _ back split rfl]
    simp

theorem fetch_new (ifdefname : Name) (tells : Tells ix list) (front middle back : List (List Byte))
    (split : list = front ++ middle ++ back) (merge : Merge) {a b : Nat}
    (first : a = front.length + 1) (last : b = front.length + middle.length) :
    fetch ifdefname ix a b list.flatten false merge =
      if middle = [] then merge
      else
        { merge with
          inifdef := 1
          text := merge.text ++ (if merge.inifdef ≠ 0 then ifdefname.elseText false
            else ifdefname.ifdefText) ++ middle.flatten } := by
  unfold fetch
  dsimp only
  by_cases none_ : middle = []
  · subst none_
    rw [if_pos (by rw [first, last, List.length_nil]; omega), if_pos rfl]
    rfl
  · have positive := List.length_pos_iff.mpr none_
    have range : b + 1 - a = middle.length := by omega
    rw [if_neg (by omega), if_neg none_, range, first, fetchLines_eq tells _ _ back split]
    simp

end

/-- The lines of both files, and tables that hold where they end. -/
structure Told (source : Source) (olds news : List (List Byte)) : Prop where
  len0 : source.len0 = olds.length
  len1 : source.len1 = news.length
  file0 : source.file0 = olds.flatten
  file1 : source.file1 = news.flatten
  ixold : Tells source.ixold olds
  ixnew : Tells source.ixnew news

section

variable (ifdefname : Name) {source : Source} {olds news : List (List Byte)}

/-- One call of `change`. -/
theorem Told.change (told : Told source olds news) (block : Block (List Byte))
    (front frontNew back backNew : List (List Byte)) (split : olds = front ++ block.old ++ back)
    (splitNew : news = frontNew ++ block.new ++ backNew) {merge : Merge}
    (here : merge.f1 = front.flatten.length) (outside : merge.inifdef = 0) :
    change ifdefname source merge (changeOf front.length frontNew.length block) =
      { f1 := (front ++ block.old).flatten.length
        inifdef := 0
        text := merge.text ++ (mergedLines ifdefname block).flatten } := by
  have old := fetch_old ifdefname told.ixold front block.kept block.deleted back
    (by rw [split, Block.old]; simp) here outside
    (changeOf_a front.length frontNew.length block)
    ((changeOf_b front.length frontNew.length block).trans (by simp [Block.old]))
  have new (merge : Merge) := fetch_new ifdefname told.ixnew (frontNew ++ block.kept) block.inserted
    backNew (by rw [splitNew, Block.new]; simp) merge
    ((changeOf_c front.length frontNew.length block).trans (by simp))
    ((changeOf_d front.length frontNew.length block).trans (by simp [Block.new, Nat.add_assoc]))
  rw [Ifdef.change, told.file0, told.file1, old, new]
  by_cases deletes : block.deleted = [] <;> by_cases inserts : block.inserted = [] <;>
    simp [deletes, inserts, mergedLines, changedLines, Block.old]

theorem Told.foldl (told : Told source olds news) {rest : List (Block (List Byte))}
    (front frontNew : List (List Byte)) (split : olds = front ++ rest.flatMap Block.old)
    (splitNew : news = frontNew ++ rest.flatMap Block.new) {merge : Merge}
    (here : merge.f1 = front.flatten.length) (outside : merge.inifdef = 0) :
    (changesOf front.length frontNew.length rest).foldl (Ifdef.change ifdefname source) merge =
      { f1 := olds.flatten.length
        inifdef := 0
        text := merge.text ++ (rest.flatMap (mergedLines ifdefname)).flatten } := by
  induction rest generalizing front frontNew merge with
  | nil =>
      rw [List.flatMap_nil, List.append_nil] at split
      rw [changesOf, List.foldl_nil, split, ← here, ← outside]
      simp
  | cons block rest ih =>
      have turn := told.change ifdefname block front frontNew (rest.flatMap Block.old)
        (rest.flatMap Block.new) (by rw [split]; simp) (by rw [splitNew]; simp) here outside
      rw [changesOf, List.foldl_cons, turn, ← List.length_append, ← List.length_append,
        ih (front ++ block.old) (frontNew ++ block.new) (by rw [split]; simp)
          (by rw [splitNew]; simp) rfl rfl]
      simp

theorem Told.output (told : Told source olds news) {J : Table Nat} (pairs : Pairs olds news J) :
    ∃ blocks, Tiles olds news blocks ∧
      output ifdefname source J = (blocks.flatMap (mergedLines ifdefname)).flatten := by
  obtain ⟨blocks, changes, tiles⟩ := forwardChanges_tiles pairs
  have run : (changesOf 0 0 blocks).foldl (Ifdef.change ifdefname source)
      { f1 := 0, inifdef := 0, text := [] } = _ :=
    told.foldl ifdefname [] [] tiles.old tiles.new rfl rfl
  refine ⟨blocks, tiles, ?_⟩
  rw [Ifdef.output, told.len0, told.len1, changes, run, told.file0]
  simp

end

/-! ## Resolving the directives -/

section

variable (ifdefname : Name) (defined : Bool)

theorem clean_ascii {text : List Char} {more : List Byte} (clean : nl ∉ ascii text)
    (clean' : nl ∉ more) : nl ∉ ascii text ++ more := by
  simp [clean, clean']

theorem Name.isLine {line : List Byte}
    (listed : line ∈ [ifdefname.ifdefText, ifdefname.ifndefText, ifdefname.elseText false,
      ifdefname.endifText]) : IsLine line ∧ Terminated line := by
  have body : ∃ front, nl ∉ front ∧ line = front ++ [nl] := by
    have clean := ifdefname.clean
    have comment : ascii [' ', '*', '/', '\n'] = ascii [' ', '*', '/'] ++ [nl] := rfl
    simp only [List.mem_cons, List.not_mem_nil, or_false] at listed
    rcases listed with rfl | rfl | rfl | rfl
    · exact ⟨_, clean_ascii (by decide) clean, rfl⟩
    · exact ⟨_, clean_ascii (by decide) clean, rfl⟩
    · refine ⟨ascii ['#', 'e', 'l', 's', 'e', ' ', '/', '*', ' '] ++
        (ifdefname.bytes ++ ascii [' ', '*', '/']), clean_ascii (by decide) ?_, ?_⟩
      · have behind : nl ∉ ascii [' ', '*', '/'] := by decide
        simp [clean, behind]
      · simp [Name.elseText, comment]
    · refine ⟨ascii ['#', 'e', 'n', 'd', 'i', 'f', ' ', '/', '*', ' '] ++
        (ifdefname.bytes ++ ascii [' ', '*', '/']), clean_ascii (by decide) ?_, ?_⟩
      · have behind : nl ∉ ascii [' ', '*', '/'] := by decide
        simp [clean, behind]
      · simp [Name.endifText, comment]
  obtain ⟨front, clean, rfl⟩ := body
  exact ⟨isLine_body clean, terminated_body front⟩

theorem Name.mark_ifdef : ifdefname.mark defined ifdefname.ifdefText = .opens defined :=
  if_pos rfl

theorem Name.mark_ifndef : ifdefname.mark defined ifdefname.ifndefText = .opens !defined := by
  have other : ifdefname.ifndefText ≠ ifdefname.ifdefText := by
    simp [Name.ifndefText, Name.ifdefText, ascii, byte]
  rw [Name.mark, if_neg other, if_pos rfl]

theorem Name.mark_else : ifdefname.mark defined (ifdefname.elseText false) = .turns := by
  have other : ifdefname.elseText false ≠ ifdefname.ifdefText := by
    simp [Name.elseText, Name.ifdefText, ascii, byte]
  have other' : ifdefname.elseText false ≠ ifdefname.ifndefText := by
    simp [Name.elseText, Name.ifndefText, ascii, byte]
  rw [Name.mark, if_neg other, if_neg other', if_pos (Or.inl rfl)]

theorem Name.mark_endif : ifdefname.mark defined ifdefname.endifText = .closes := by
  have other : ifdefname.endifText ≠ ifdefname.ifdefText := by
    simp [Name.endifText, Name.ifdefText, ascii, byte]
  have other' : ifdefname.endifText ≠ ifdefname.ifndefText := by
    simp [Name.endifText, Name.ifndefText, ascii, byte]
  have other'' : ¬ (ifdefname.endifText = ifdefname.elseText false ∨
      ifdefname.endifText = ifdefname.elseText true) := by
    simp [Name.endifText, Name.elseText, ascii, byte]
  rw [Name.mark, if_neg other, if_neg other', if_neg other'', if_pos rfl]

/-- A line that does not begin with `#` is no directive. -/
theorem Name.mark_text {line : List Byte} (plain : line.head? ≠ some (byte '#')) :
    ifdefname.mark defined line = .text := by
  have other {directive : List Byte} (hash : directive.head? = some (byte '#')) :
      line ≠ directive := fun same => plain (same ▸ hash)
  rw [Name.mark, if_neg (other rfl), if_neg (other rfl),
    if_neg (not_or.mpr ⟨other rfl, other rfl⟩), if_neg (other rfl)]

theorem resolve_block (block : Block (List Byte))
    (plain : ∀ line ∈ block.old ++ block.new, line.head? ≠ some (byte '#'))
    (rest : List (List Byte)) :
    resolve (ifdefname.mark defined) [] (mergedLines ifdefname block ++ rest) =
      (if defined then block.new else block.old) ++ resolve (ifdefname.mark defined) [] rest := by
  have kept : Texts (ifdefname.mark defined) block.kept := fun line listed =>
    ifdefname.mark_text defined (plain line (by simp [Block.old, listed]))
  have deleted : Texts (ifdefname.mark defined) block.deleted := fun line listed =>
    ifdefname.mark_text defined (plain line (by simp [Block.old, listed]))
  have inserted : Texts (ifdefname.mark defined) block.inserted := fun line listed =>
    ifdefname.mark_text defined (plain line (by simp [Block.new, listed]))
  have changed : resolve (ifdefname.mark defined) [] (changedLines ifdefname block ++ rest) =
      (if defined then block.inserted else block.deleted) ++
        resolve (ifdefname.mark defined) [] rest := by
    unfold changedLines
    split
    · next deletes =>
        split
        · next inserts => simp [deletes, inserts]
        · have group := resolve_group (ifdefname.mark_ifdef defined) inserted
            (ifdefname.mark_endif defined) rest
          simpa [deletes] using group
    · split
      · next inserts =>
          have group := resolve_group (ifdefname.mark_ifndef defined) deleted
            (ifdefname.mark_endif defined) rest
          cases defined <;> simpa [inserts] using group
      · have choice := resolve_choice (ifdefname.mark_ifndef defined) deleted
          (ifdefname.mark_else defined) inserted (ifdefname.mark_endif defined) rest
        cases defined <;> simpa using choice
  rw [mergedLines, List.append_assoc, resolve_texts kept, changed]
  cases defined <;> simp [Block.old, Block.new]

theorem resolve_blocks (blocks : List (Block (List Byte)))
    (plain : ∀ line ∈ blocks.flatMap Block.old ++ blocks.flatMap Block.new,
      line.head? ≠ some (byte '#')) :
    resolve (ifdefname.mark defined) [] (blocks.flatMap (mergedLines ifdefname)) =
      if defined then blocks.flatMap Block.new else blocks.flatMap Block.old := by
  induction blocks with
  | nil => simp [resolve]
  | cons block blocks ih =>
      rw [List.flatMap_cons, resolve_block ifdefname defined block, ih]
      · cases defined <;> simp
      · intro line listed
        refine plain line ?_
        simp only [List.flatMap_cons, List.mem_append] at listed ⊢
        tauto
      · intro line listed
        refine plain line ?_
        simp only [List.flatMap_cons, List.mem_append] at listed ⊢
        tauto

end

theorem lines_flatten {list : List (List Byte)}
    (all : ∀ line ∈ list, IsLine line ∧ Terminated line) : lines list.flatten = list := by
  induction list with
  | nil => rfl
  | cons line list ih =>
      obtain ⟨isLine, terminated⟩ := all line List.mem_cons_self
      rw [List.flatten_cons, lines_append isLine terminated,
        ih fun other later => all other (List.mem_cons_of_mem line later)]

theorem mergedLines_isLine (ifdefname : Name) {block : Block (List Byte)}
    (all : ∀ line ∈ block.old ++ block.new, IsLine line ∧ Terminated line) :
    ∀ line ∈ mergedLines ifdefname block, IsLine line ∧ Terminated line := by
  intro line listed
  have cases_ : line ∈ block.old ++ block.new ∨
      line ∈ [ifdefname.ifdefText, ifdefname.ifndefText, ifdefname.elseText false,
        ifdefname.endifText] := by
    unfold mergedLines changedLines at listed
    unfold Block.old Block.new
    split at listed <;> split at listed <;> simp at listed ⊢ <;> tauto
  exact cases_.elim (all line) ifdefname.isLine

/-- With the name undefined the merged text is the old file, with the name defined the new one. -/
theorem resolved_printed (ifdefname : Name) (bound : Nat) {file0 file1 : List Byte}
    (plain0 : Plain file0) (plain1 : Plain file1) :
    resolved ifdefname false (printed ifdefname bound file0 file1) = file0 ∧
      resolved ifdefname true (printed ifdefname bound file0 file1) = file1 := by
  have closed0 : ¬ Open (lines file0) := fun ⟨line, listed, open_⟩ =>
    open_ (plain0.terminated line listed)
  have closed1 : ¬ Open (lines file1) := fun ⟨line, listed, open_⟩ =>
    open_ (plain1.terminated line listed)
  obtain ⟨old, new⟩ : Indexed (lines file0) (checked bound file0 file1).ixold ∧
      Indexed (lines file1) (checked bound file0 file1).ixnew := checked_indexed (not_stops closed0)
  have told : Told
      { len0 := (prepare file0).length
        len1 := (prepare file1).length
        file0 := file0
        file1 := file1
        ixold := (checked bound file0 file1).ixold
        ixnew := (checked bound file0 file1).ixnew } (lines file0) (lines file1) :=
    ⟨by simp [prepare_eq], by simp [prepare_eq],
      (flatten_lines file0).symm, (flatten_lines file1).symm, Checked.Indexed.exact old closed0,
      Checked.Indexed.exact new closed1⟩
  obtain ⟨blocks, tiles, text⟩ := told.output ifdefname (checked_pairs bound file0 file1)
  have either {line : List Byte}
      (listed : line ∈ blocks.flatMap Block.old ++ blocks.flatMap Block.new) :
      line ∈ lines file0 ∨ line ∈ lines file1 := by
    rwa [← tiles.old, ← tiles.new, List.mem_append] at listed
  have isLines : ∀ line ∈ blocks.flatMap (mergedLines ifdefname), IsLine line ∧ Terminated line := by
    intro line listed
    obtain ⟨block, inside, here⟩ := List.mem_flatMap.mp listed
    refine mergedLines_isLine ifdefname (fun other member => ?_) line here
    have whole : other ∈ blocks.flatMap Block.old ++ blocks.flatMap Block.new := by
      rcases List.mem_append.mp member with left | right
      · exact List.mem_append_left _ (List.mem_flatMap.mpr ⟨block, inside, left⟩)
      · exact List.mem_append_right _ (List.mem_flatMap.mpr ⟨block, inside, right⟩)
    rcases either whole with first | second
    · exact ⟨lines_isLine first, plain0.terminated other first⟩
    · exact ⟨lines_isLine second, plain1.terminated other second⟩
  have left (defined : Bool) : resolved ifdefname defined (printed ifdefname bound file0 file1) =
      (if defined then blocks.flatMap Block.new else blocks.flatMap Block.old).flatten := by
    rw [resolved, printed, text, lines_flatten isLines, resolve_blocks]
    exact fun line listed => (either listed).elim (plain0.text line) (plain1.text line)
  refine ⟨(left false).trans ?_, (left true).trans ?_⟩
  · rw [if_neg (by decide), ← tiles.old, flatten_lines]
  · rw [if_pos rfl, ← tiles.new, flatten_lines]

/-- A deleted line, a kept one, a changed one and an inserted one. -/
theorem resolved_printed_small :
    let old := ascii ['a', '\n', 'b', '\n', 'c', '\n']
    let new := ascii ['b', '\n', 'd', '\n', 'e', '\n']
    let name : Name := { bytes := ascii ['X'], clean := by decide }
    name.ifndefText <+: printed name 256 old new ∧
      resolved name false (printed name 256 old new) = old ∧
      resolved name true (printed name 256 old new) = new :=
  ⟨by decide +kernel, resolved_printed _ 256 ⟨by decide, by decide⟩ ⟨by decide, by decide⟩⟩

end Netbase.Diff.Ifdef
