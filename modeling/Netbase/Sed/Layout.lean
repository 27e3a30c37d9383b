import Netbase.Sed.Stream

/-!
# The layout of a script

A script is a tree of groups.  Its commands lie in the order of the text: a group in front of
its commands, and its end behind them.  The compiled list is this layout, where the last
command of a group is followed by the end of the group, and a branch points to its label.
-/

namespace Netbase.Sed

open Netbase.Text

variable {α β : Type}

inductive Script (α β : Type) where
  | nil
  | atomic (select : Select β) (c : α) (rest : Script α β)
  | label (nonsel : Bool) (name : List Byte) (rest : Script α β)
  | branch (test : Bool) (select : Select β) (t : Option (List Byte)) (rest : Script α β)
  | group (select : Select β) (body rest : Script α β)

namespace Script

def branchCode (test : Bool) : Code α := if test then .test else .branch

/-- The commands of a script in the order of the text. -/
def items : Script α β → List (Item α β)
  | nil => []
  | atomic select c rest => ⟨.atomic c, select, none⟩ :: rest.items
  | label nonsel name rest => ⟨.label, ⟨none, nonsel⟩, some name⟩ :: rest.items
  | branch test select t rest => ⟨branchCode test, select, t⟩ :: rest.items
  | group select body rest =>
      ⟨.group, select, none⟩ :: (body.items ++ ⟨.endgroup, ⟨none, false⟩, none⟩ :: rest.items)

/-- The number of commands. -/
def size : Script α β → Nat
  | nil => 0
  | atomic _ _ rest => rest.size + 1
  | label _ _ rest => rest.size + 1
  | branch _ _ _ rest => rest.size + 1
  | group _ body rest => body.size + rest.size + 2

/-- The first command of a script that starts at a place and is followed by another. -/
def entry (base : Nat) (behind : Option Nat) : Script α β → Option Nat
  | nil => behind
  | _ => some base

/-- The end of a group whose commands start at a place. -/
def close (base : Nat) (body : Script α β) : Nat := base + 1 + body.size

/-- The compiled commands of a script that starts at a place and is followed by another
command. -/
def layout (resolve : List Byte → Option Nat) :
    Script α β → Nat → Option Nat → List (Command α β)
  | nil, _, _ => []
  | atomic select c rest, base, behind =>
      ⟨⟨.atomic c, select, none⟩, rest.entry (base + 1) behind, none⟩ ::
        rest.layout resolve (base + 1) behind
  | label nonsel name rest, base, behind =>
      ⟨⟨.label, ⟨none, nonsel⟩, some name⟩, rest.entry (base + 1) behind, none⟩ ::
        rest.layout resolve (base + 1) behind
  | branch test select t rest, base, behind =>
      ⟨⟨branchCode test, select, t⟩, rest.entry (base + 1) behind, t.bind resolve⟩ ::
        rest.layout resolve (base + 1) behind
  | group select body rest, base, behind =>
      ⟨⟨.group, select, none⟩, some (close base body),
          body.entry (base + 1) (some (close base body))⟩ ::
        (body.layout resolve (base + 1) (some (close base body)) ++
          ⟨⟨.endgroup, ⟨none, true⟩, none⟩, rest.entry (close base body + 1) behind, none⟩ ::
            rest.layout resolve (close base body + 1) behind)

/-- The labels of a script with their places, the last one first. -/
def labels : Script α β → Nat → List (List Byte × Nat)
  | nil, _ => []
  | atomic _ _ rest, base => rest.labels (base + 1)
  | label _ name rest, base => rest.labels (base + 1) ++ [(name, base)]
  | branch _ _ _ rest, base => rest.labels (base + 1)
  | group _ body rest, base => rest.labels (close base body + 1) ++ body.labels (base + 1)

def targets : Script α β → List (List Byte)
  | nil => []
  | atomic _ _ rest => rest.targets
  | label _ _ rest => rest.targets
  | branch _ _ t rest => t.toList ++ rest.targets
  | group _ body rest => body.targets ++ rest.targets

def names (script : Script α β) : List (List Byte) := (script.labels 0).map (·.1)

theorem layout_length (resolve : List Byte → Option Nat) (script : Script α β) :
    ∀ base behind, (script.layout resolve base behind).length = script.size := by
  induction script with
  | nil => exact fun _ _ => rfl
  | atomic select c rest ih => simp [layout, size, ih]
  | label nonsel name rest ih => simp [layout, size, ih]
  | branch test select t rest ih => simp [layout, size, ih]
  | group select body rest ihBody ihRest =>
      intro base behind
      simp only [layout, size, List.length_cons, List.length_append, ihBody, ihRest]
      omega

/-- One script behind another. -/
def append : Script α β → Script α β → Script α β
  | nil, script => script
  | atomic select c rest, script => atomic select c (rest.append script)
  | label nonsel name rest, script => label nonsel name (rest.append script)
  | branch test select t rest, script => branch test select t (rest.append script)
  | group select body rest, script => group select body (rest.append script)

theorem entry_append (script other : Script α β) (base : Nat) (behind : Option Nat) :
    (script.append other).entry base behind =
      script.entry base (other.entry (base + script.size) behind) := by
  cases script <;> rfl

theorem layout_append (resolve : List Byte → Option Nat) (script other : Script α β) :
    ∀ base behind, (script.append other).layout resolve base behind =
      script.layout resolve base (other.entry (base + script.size) behind) ++
        other.layout resolve (base + script.size) behind := by
  induction script with
  | nil => exact fun _ _ => rfl
  | atomic select c rest ih =>
      intro base behind
      have place : base + 1 + rest.size = base + (rest.size + 1) := by omega
      simp only [append, layout, size, ih, entry_append, place, List.cons_append]
  | label nonsel name rest ih =>
      intro base behind
      have place : base + 1 + rest.size = base + (rest.size + 1) := by omega
      simp only [append, layout, size, ih, entry_append, place, List.cons_append]
  | branch test select t rest ih =>
      intro base behind
      have place : base + 1 + rest.size = base + (rest.size + 1) := by omega
      simp only [append, layout, size, ih, entry_append, place, List.cons_append]
  | group select body rest _ ih =>
      intro base behind
      have place : close base body + 1 + rest.size = base + (body.size + rest.size + 2) := by
        unfold close
        omega
      simp only [append, layout, size, ih, entry_append, place, List.cons_append,
        List.append_assoc]

theorem labels_append (script other : Script α β) :
    ∀ base, (script.append other).labels base =
      other.labels (base + script.size) ++ script.labels base := by
  induction script with
  | nil => exact fun base => (List.append_nil _).symm
  | atomic select c rest ih =>
      intro base
      simp only [append, labels, size, ih, Nat.add_assoc, Nat.add_comm 1]
  | label nonsel name rest ih =>
      intro base
      simp only [append, labels, size, ih, Nat.add_assoc, Nat.add_comm 1, List.append_assoc]
  | branch test select t rest ih =>
      intro base
      simp only [append, labels, size, ih, Nat.add_assoc, Nat.add_comm 1]
  | group select body rest _ ih =>
      intro base
      have place : close base body + 1 + rest.size = base + (body.size + rest.size + 2) := by
        unfold close
        omega
      simp only [append, labels, size, ih, place, List.append_assoc]

theorem size_append (script other : Script α β) :
    (script.append other).size = script.size + other.size := by
  induction script with
  | nil => exact (Nat.zero_add _).symm
  | atomic select c rest ih => simp only [append, size, ih]; omega
  | label nonsel name rest ih => simp only [append, size, ih]; omega
  | branch test select t rest ih => simp only [append, size, ih]; omega
  | group select body rest _ ih => simp only [append, size, ih]; omega

end Script

/-! ## Compiling a script -/

theorem modify_at {front : List α} {n : Nat} (place : front.length = n) (x : α)
    (back : List α) (f : α → α) :
    (front ++ x :: back).modify n f = front ++ f x :: back := by
  subst place
  induction front with
  | nil => rfl
  | cons y front ih =>
      rw [List.cons_append, List.length_cons, List.modify_succ_cons, ih, List.cons_append]

/-- What a stream has become behind a script: whatever is linked next stands behind the
layout of the script. -/
structure Compiled (st : Stream α β) (script : Script α β) (after : Stream α β) : Prop where
  stack : after.stack = st.stack
  labels : after.labels = script.labels st.heap.length ++ st.labels
  length : after.heap.length = st.heap.length + script.size
  heap : ∀ behind, (after.store behind).heap =
    (st.store (script.entry st.heap.length behind)).heap ++
      script.layout (fun _ => none) st.heap.length behind
  prog : ∀ behind, (after.store behind).prog =
    (st.store (script.entry st.heap.length behind)).prog

theorem store_length (st : Stream α β) (cmd : Option Nat) :
    (st.store cmd).heap.length = st.heap.length := by
  unfold Stream.store
  split <;> simp

theorem store_rest (st : Stream α β) (cmd : Option Nat) :
    (st.store cmd).stack = st.stack ∧ (st.store cmd).labels = st.labels := by
  unfold Stream.store
  split <;> exact ⟨rfl, rfl⟩

theorem allocate_store (st : Stream α β) (item : Item α β) (behind : Option Nat) :
    ((st.allocate item).store behind).heap =
        (st.store (some st.heap.length)).heap ++ [{ item with next := behind, u := none }] ∧
      ((st.allocate item).store behind).prog = (st.store (some st.heap.length)).prog := by
  have place := store_length st (some st.heap.length)
  refine ⟨?_, rfl⟩
  show ((st.store (some st.heap.length)).heap ++ [_]).modify st.heap.length _ = _
  rw [modify_at place]

theorem allocate_length (st : Stream α β) (item : Item α β) :
    (st.allocate item).heap.length = st.heap.length + 1 := by
  show ((st.store _).heap ++ [_]).length = _
  rw [List.length_append, store_length]
  rfl

theorem allocate_labels (st : Stream α β) (item : Item α β) :
    (st.allocate item).labels = st.labels := (store_rest st _).2

variable {script : Script α β} {st st1 : Stream α β} {base : Nat}

theorem compiled_allocate (st : Stream α β) (item : Item α β) (labels : List (List Byte × Nat))
    (single : ∀ behind, script.layout (fun _ => none) st.heap.length behind =
      [{ item with next := behind, u := none }])
    (entry : ∀ behind, script.entry st.heap.length behind = some st.heap.length)
    (own : labels = script.labels st.heap.length ++ st.labels) (size : script.size = 1) :
    Compiled st script { st.allocate item with labels := labels } where
  stack := (store_rest st _).1
  labels := own
  length := by rw [size]; exact allocate_length st item
  heap behind := by
    rw [single, entry]
    exact (allocate_store st item behind).1
  prog behind := by
    rw [entry]
    exact (allocate_store st item behind).2

/-- The stream behind the brace of a group. -/
def Stream.opened (st : Stream α β) (item : Item α β) : Stream α β :=
  { st.allocate item with
    heap := (st.allocate item).heap.modify st.heap.length
      fun c => { c with next := (st.allocate item).stack }
    stack := some st.heap.length
    link := .u st.heap.length }

theorem opened_store (st : Stream α β) (item : Item α β) :
    (st.opened item).heap.length = st.heap.length + 1 ∧ (st.opened item).labels = st.labels ∧
      ∀ first, ((st.opened item).store first).heap =
          (st.store (some st.heap.length)).heap ++
            [{ item with next := st.stack, u := first }] ∧
        ((st.opened item).store first).prog = (st.store (some st.heap.length)).prog := by
  have place := store_length st (some st.heap.length)
  obtain ⟨stack, labels⟩ := store_rest st (some st.heap.length)
  refine ⟨?_, labels, fun first => ⟨?_, rfl⟩⟩
  · show (List.modify _ _ _).length = _
    rw [List.length_modify, allocate_length]
  · show (List.modify ((st.store (some st.heap.length)).heap ++ [_]) _ _).modify _ _ = _
    rw [modify_at place, modify_at place]
    have same : (st.allocate item).stack = st.stack := stack
    rw [same]

/-- The end of a group is linked behind its commands, and the group to its end. -/
theorem compileCommand_close {st2 : Stream α β} {front : List (Command α β)} {item : Item α β}
    {stack : Option Nat} {first : Option Nat → Option Nat}
    {inside : Option Nat → List (Command α β)} (open_ : st2.stack = some front.length)
    (heap : ∀ behind, (st2.store behind).heap =
      front ++ { item with next := stack, u := first behind } :: inside behind) :
    ∃ st3, compileCommand st2 ⟨.endgroup, ⟨none, false⟩, none⟩ = .ok st3 ∧
      st3.stack = stack ∧ st3.labels = st2.labels ∧
      st3.heap.length = st2.heap.length + 1 ∧
      ∀ behind, (st3.store behind).prog = (st2.store (some st2.heap.length)).prog ∧
        (st3.store behind).heap = front ++
          { item with next := some st2.heap.length, u := first (some st2.heap.length) } ::
            (inside (some st2.heap.length) ++
              [⟨⟨.endgroup, ⟨none, true⟩, none⟩, behind, none⟩]) := by
  have length := store_length st2 (some st2.heap.length)
  rw [heap] at length
  generalize close_ : st2.heap.length = close at *
  have allocated : (st2.allocate ⟨.endgroup, ⟨none, false⟩, none⟩).heap =
      front ++ { item with next := stack, u := first (some close) } ::
        (inside (some close) ++ [⟨⟨.endgroup, ⟨none, false⟩, none⟩, none, none⟩]) := by
    show (st2.store (some st2.heap.length)).heap ++ [_] = _
    rw [close_, heap, List.append_assoc, List.cons_append]
  have stacked : (st2.allocate ⟨.endgroup, ⟨none, false⟩, none⟩).stack = some front.length :=
    (store_rest st2 _).1.trans open_
  have linked : (st2.allocate ⟨.endgroup, ⟨none, false⟩, none⟩).link = .next close := by
    rw [← close_]
    rfl
  have ended (g e : Command α β) (f : Command α β → Command α β) :
      (front ++ g :: (inside (some close) ++ [e])).modify close f =
        front ++ g :: (inside (some close) ++ [f e]) := by
    have split (e : Command α β) : front ++ g :: (inside (some close) ++ [e]) =
        (front ++ g :: inside (some close)) ++ e :: [] := by simp
    rw [split, modify_at (by simpa using length), split]
  unfold compileCommand
  simp only [stacked, allocated, close_, ended, modify_at rfl]
  refine ⟨_, rfl, ?_, (store_rest st2 _).2, ?_, fun behind => ⟨?_, ?_⟩⟩
  · rw [List.getElem?_append_right (Nat.le_refl _), Nat.sub_self]
    rfl
  · simp only [List.length_append, List.length_cons, List.length_nil] at length ⊢
    omega
  · simp only [Stream.store, linked]
    rw [← close_]
    rfl
  · simp only [Stream.store, linked, ended]

theorem Compiled.append {st2 : Stream α β} {other : Script α β} (first : Compiled st script st1)
    (second : Compiled st1 other st2) :
    Compiled st (script.append other) st2 where
  stack := second.stack.trans first.stack
  labels := by
    rw [second.labels, first.labels, first.length, Script.labels_append, List.append_assoc]
  length := by
    rw [second.length, first.length, Script.size_append, Nat.add_assoc]
  heap behind := by
    rw [second.heap, first.heap, first.length, Script.entry_append, Script.layout_append,
      List.append_assoc]
  prog behind := by
    rw [second.prog, first.prog, first.length, Script.entry_append]

/-- The names of a script and those that are there already are all different. -/
def Fresh (st : Stream α β) (script : Script α β) : Prop :=
  ((script.labels st.heap.length ++ st.labels).map (·.1)).Nodup

theorem Fresh.rest {other : Script α β} (fresh : Fresh st (script.append other))
    (first : Compiled st script st1) :
    Fresh st1 other := by
  rw [Fresh, first.labels, first.length, ← List.append_assoc, ← Script.labels_append]
  exact fresh

theorem compiled_cons {item : Item α β} {script rest : Script α β} {more : List (Item α β)}
    (fresh : Fresh st (script.append rest)) (first : Compiled st script st1)
    (run : compileCommand st item = .ok st1)
    (later : Fresh st1 rest → ∃ after, Compiled st1 rest after ∧
      (rest.items ++ more).foldlM compileCommand st1 = more.foldlM compileCommand after) :
    ∃ after, Compiled st (script.append rest) after ∧
      (item :: (rest.items ++ more)).foldlM compileCommand st =
        more.foldlM compileCommand after := by
  obtain ⟨after, second, runs⟩ := later (fresh.rest first)
  refine ⟨after, first.append second, ?_⟩
  rw [List.foldlM_cons, run, ← runs]
  rfl

theorem fresh_opened (st : Stream α β) (select : Select β) (body : Script α β) :
    Fresh (st.opened ⟨.group, select, none⟩) body ↔ Fresh st (.group select body .nil) := by
  obtain ⟨length, labels, _⟩ := opened_store st (⟨.group, select, none⟩ : Item α β)
  rw [Fresh, Fresh, labels, length]
  rfl

theorem compiled_group {select : Select β} {body : Script α β} (more : List (Item α β))
    (fresh : Fresh st (.group select body .nil))
    (inside : ∀ (st : Stream α β) (more : List (Item α β)), Fresh st body →
      ∃ after, Compiled st body after ∧
        (body.items ++ more).foldlM compileCommand st = more.foldlM compileCommand after) :
    ∃ after, Compiled st (.group select body .nil) after ∧
      ((⟨.group, select, none⟩ : Item α β) ::
          (body.items ++ ⟨.endgroup, ⟨none, false⟩, none⟩ :: more)).foldlM compileCommand st =
        more.foldlM compileCommand after := by
  obtain ⟨length, labels, stores⟩ := opened_store st ⟨.group, select, none⟩
  obtain ⟨st2, compiled, runs⟩ := inside (st.opened ⟨.group, select, none⟩)
    (⟨.endgroup, ⟨none, false⟩, none⟩ :: more) ((fresh_opened st select body).mpr fresh)
  have place := store_length st (some st.heap.length)
  have heap : ∀ behind, (st2.store behind).heap =
      (st.store (some st.heap.length)).heap ++
        { (⟨.group, select, none⟩ : Item α β) with
            next := st.stack, u := body.entry (st.heap.length + 1) behind } ::
          body.layout (fun _ => none) (st.heap.length + 1) behind := by
    intro behind
    rw [compiled.heap, (stores _).1, length, List.append_assoc]
    rfl
  obtain ⟨st3, close_, stack, labels3, length3, stores3⟩ := compileCommand_close
    (by rw [compiled.stack, place]; rfl) heap
  have end_ : st2.heap.length = Script.close st.heap.length body := by
    rw [compiled.length, length]
    rfl
  rw [end_] at length3 stores3
  refine ⟨st3, ⟨stack, ?_, ?_, fun behind => ?_, fun behind => ?_⟩, ?_⟩
  · rw [labels3, compiled.labels, labels, length]
    rfl
  · rw [length3]
    simp only [Script.close, Script.size]
    omega
  · exact (stores3 behind).2
  · rw [(stores3 behind).1, ← end_, compiled.prog, (stores _).2]
    rfl
  · show List.foldlM _ (st.opened ⟨.group, select, none⟩) _ = _
    rw [runs, List.foldlM_cons, close_]
    rfl

theorem foldlM_items (script : Script α β) :
    ∀ (st : Stream α β) (more : List (Item α β)), Fresh st script →
      ∃ after, Compiled st script after ∧
        (script.items ++ more).foldlM compileCommand st = more.foldlM compileCommand after := by
  induction script with
  | nil =>
      intro st more _
      exact ⟨st, ⟨rfl, rfl, rfl, fun _ => (List.append_nil _).symm, fun _ => rfl⟩, rfl⟩
  | atomic select c rest ih =>
      intro st more fresh
      have first : Compiled st (.atomic select c .nil) (st.allocate ⟨.atomic c, select, none⟩) :=
        compiled_allocate st _ (st.allocate ⟨.atomic c, select, none⟩).labels (fun _ => rfl)
          (fun _ => rfl) (allocate_labels st _) rfl
      exact compiled_cons fresh first rfl (ih _ more)
  | label nonsel name rest ih =>
      intro st more fresh
      have first : Compiled st (.label nonsel name .nil)
          { st.allocate ⟨.label, ⟨none, nonsel⟩, some name⟩ with
            labels := (name, st.heap.length) :: st.labels } :=
        compiled_allocate st _ ((name, st.heap.length) :: st.labels) (fun _ => rfl)
          (fun _ => rfl) rfl rfl
      refine compiled_cons fresh first ?_ (ih _ more)
      have new : (st.allocate (⟨.label, ⟨none, nonsel⟩, some name⟩ : Item α β)).labels.any
          (·.1 == name) = false := by
        rw [allocate_labels]
        have apart : name ∉ st.labels.map (·.1) := by
          rw [Fresh, Script.labels, List.append_assoc, List.map_append,
            List.nodup_append] at fresh
          exact (List.nodup_cons.mp fresh.2.1).1
        rw [List.any_eq_false]
        intro entry member
        simp only [beq_iff_eq]
        rintro rfl
        exact apart (List.mem_map_of_mem member)
      simp only [compileCommand, Option.getD_some, new]
      rw [if_neg (by simp), allocate_labels]
  | branch test select t rest ih =>
      intro st more fresh
      have first : Compiled st (.branch test select t .nil)
          (st.allocate ⟨Script.branchCode test, select, t⟩) :=
        compiled_allocate st _ (st.allocate ⟨Script.branchCode test, select, t⟩).labels
          (fun _ => by cases t <;> rfl) (fun _ => rfl) (allocate_labels st _) rfl
      exact compiled_cons fresh first (by cases test <;> rfl) (ih _ more)
  | group select body rest ihBody ihRest =>
      intro st more fresh
      have head : Fresh st (.group select body .nil) := by
        rw [Fresh, List.map_append] at fresh ⊢
        refine fresh.sublist (List.Sublist.append_right ?_ _)
        simp only [Script.labels, List.map_append, List.nil_append]
        exact List.sublist_append_right _ _
      obtain ⟨st1, first, runs⟩ := compiled_group (rest.items ++ more) head ihBody
      have later : Fresh st ((Script.group select body .nil).append rest) := fresh
      obtain ⟨after, second, runs'⟩ := ihRest st1 more (later.rest first)
      refine ⟨after, first.append second, ?_⟩
      rw [← runs', ← runs, Script.items, List.cons_append, List.append_assoc, List.cons_append]

/-! ## Resolving the branches -/

theorem getElem?_at {front : List α} {n : Nat} (place : front.length = n) (x : α)
    (back : List α) : (front ++ x :: back)[n]? = some x := by
  rw [← place, List.getElem?_append_right (Nat.le_refl _), Nat.sub_self]
  rfl

theorem fixuplabel_pass (labels : List (List Byte × Nat)) (fuel : Nat) {front : List (Command α β)}
    (place : front.length = base) (c : Command α β) (back : List (Command α β)) {end_ : Option Nat}
    (other : some base ≠ end_) (pass : c.code ≠ .branch ∧ c.code ≠ .test ∧ c.code ≠ .group) :
    fixuplabel labels (fuel + 1) (front ++ c :: back) (some base) end_ =
      fixuplabel labels fuel (front ++ c :: back) c.next end_ := by
  obtain ⟨branch, test, group⟩ := pass
  rw [fixuplabel, if_neg other]
  simp only [getElem?_at place]

theorem fixuplabel_branch (labels : List (List Byte × Nat)) (fuel : Nat)
    {front : List (Command α β)} (place : front.length = base) (test : Bool) (select : Select β)
    {t : Option (List Byte)} {next : Option Nat} (back : List (Command α β)) {end_ : Option Nat}
    (other : some base ≠ end_)
    (found : ∀ name, t = some name → (findlabel labels name).isSome = true) :
    fixuplabel labels (fuel + 1)
        (front ++ ⟨⟨Script.branchCode test, select, t⟩, next, none⟩ :: back) (some base) end_ =
      fixuplabel labels fuel
        (front ++ ⟨⟨Script.branchCode test, select, t⟩, next, t.bind (findlabel labels)⟩ :: back)
        next end_ := by
  rw [fixuplabel, if_neg other]
  simp only [getElem?_at place, modify_at place]
  cases t with
  | none => cases test <;> rfl
  | some name =>
      obtain ⟨target, same⟩ := Option.isSome_iff_exists.mp (found name rfl)
      simp only [same, Option.bind_some]
      cases test <;> rfl

theorem fixuplabel_undefined (labels : List (List Byte × Nat)) (fuel : Nat)
    {front : List (Command α β)} (place : front.length = base) (test : Bool) (select : Select β)
    {name : List Byte} {next : Option Nat} (back : List (Command α β)) {end_ : Option Nat}
    (other : some base ≠ end_) (missing : findlabel labels name = none) :
    fixuplabel labels (fuel + 1)
        (front ++ ⟨⟨Script.branchCode test, select, some name⟩, next, none⟩ :: back)
        (some base) end_ = .error .undefinedLabel := by
  rw [fixuplabel, if_neg other]
  simp only [getElem?_at place, missing]
  cases test <;> rfl

/-- All labels that branches name are there. -/
def Script.defined (labels : List (List Byte × Nat)) (script : Script α β) : Bool :=
  script.targets.all fun t => (findlabel labels t).isSome

theorem fixuplabel_layout (labels : List (List Byte × Nat)) (script : Script α β) :
    ∀ (front back : List (Command α β)) (base fuel : Nat) (behind : Option Nat),
      front.length = base → script.size < fuel →
      (∀ p, behind = some p → base + script.size ≤ p) →
      fixuplabel labels fuel (front ++ (script.layout (fun _ => none) base behind ++ back))
          (script.entry base behind) behind =
        if script.defined labels then
          .ok (front ++ (script.layout (findlabel labels) base behind ++ back))
        else .error .undefinedLabel := by
  induction script with
  | nil =>
      intro front back base fuel behind place enough _
      obtain ⟨fuel, rfl⟩ : ∃ n, fuel = n + 1 := ⟨fuel - 1, by omega⟩
      unfold fixuplabel
      exact if_pos rfl
  | atomic select c rest ih =>
      intro front back base fuel behind place enough further
      rw [Script.size] at enough further
      obtain ⟨fuel, rfl⟩ : ∃ n, fuel = n + 1 := ⟨fuel - 1, by omega⟩
      have other : some base ≠ behind := fun same => by have := further base same.symm; omega
      have later := ih (front ++ [⟨⟨.atomic c, select, none⟩, rest.entry (base + 1) behind, none⟩])
        back (base + 1) fuel behind (by simp [place]) (by omega)
        (fun p same => by have := further p same; omega)
      simp only [List.append_assoc, List.singleton_append] at later
      simp only [Script.layout, List.cons_append]
      refine Eq.trans ?_ later
      exact fixuplabel_pass labels fuel place _ _ other ⟨nofun, nofun, nofun⟩
  | label nonsel name rest ih =>
      intro front back base fuel behind place enough further
      rw [Script.size] at enough further
      obtain ⟨fuel, rfl⟩ : ∃ n, fuel = n + 1 := ⟨fuel - 1, by omega⟩
      have other : some base ≠ behind := fun same => by have := further base same.symm; omega
      have later := ih (front ++ [⟨⟨.label, ⟨none, nonsel⟩, some name⟩,
          rest.entry (base + 1) behind, none⟩])
        back (base + 1) fuel behind (by simp [place]) (by omega)
        (fun p same => by have := further p same; omega)
      simp only [List.append_assoc, List.singleton_append] at later
      simp only [Script.layout, List.cons_append]
      refine Eq.trans ?_ later
      exact fixuplabel_pass labels fuel place _ _ other ⟨nofun, nofun, nofun⟩
  | branch test select t rest ih =>
      intro front back base fuel behind place enough further
      rw [Script.size] at enough further
      obtain ⟨fuel, rfl⟩ : ∃ n, fuel = n + 1 := ⟨fuel - 1, by omega⟩
      have other : some base ≠ behind := fun same => by have := further base same.symm; omega
      have later := ih (front ++ [⟨⟨Script.branchCode test, select, t⟩,
          rest.entry (base + 1) behind, t.bind (findlabel labels)⟩])
        back (base + 1) fuel behind (by simp [place]) (by omega)
        (fun p same => by have := further p same; omega)
      simp only [List.append_assoc, List.singleton_append] at later
      have unresolved : (t.bind fun _ => (none : Option Nat)) = none := by cases t <;> rfl
      simp only [Script.layout, List.cons_append, unresolved]
      by_cases found : ∀ name, t = some name → (findlabel labels name).isSome = true
      · have same : (Script.branch test select t rest).defined labels = rest.defined labels := by
          unfold Script.defined
          cases t with
          | none => rfl
          | some name => simp [Script.targets, found name rfl]
        rw [same]
        refine Eq.trans ?_ later
        exact fixuplabel_branch labels fuel place test select _ other found
      · obtain ⟨name, rfl, missing⟩ : ∃ name, t = some name ∧ findlabel labels name = none := by
          simpa using found
        have undefined : (Script.branch test select (some name) rest).defined labels = false := by
          simp [Script.defined, Script.targets, missing]
        rw [undefined, if_neg (by simp)]
        exact fixuplabel_undefined labels fuel place test select _ other missing
  | group select body rest ihBody ihRest =>
      intro front back base fuel behind place enough further
      rw [Script.size] at enough further
      obtain ⟨fuel, rfl⟩ : ∃ n, fuel = n + 2 := ⟨fuel - 2, by omega⟩
      have other : some base ≠ behind := fun same => by have := further base same.symm; omega
      have close_ : base + 1 + body.size = Script.close base body := rfl
      generalize Script.close base body = close at close_
      have past : some close ≠ behind := fun same => by have := further close same.symm; omega
      have inner := ihBody
        (front ++ [⟨⟨.group, select, none⟩, some close, body.entry (base + 1) (some close)⟩])
        (⟨⟨.endgroup, ⟨none, true⟩, none⟩, rest.entry (close + 1) behind, none⟩ ::
          (rest.layout (fun _ => none) (close + 1) behind ++ back))
        (base + 1) (fuel + 1) (some close) (by simp [place]) (by omega)
        (fun p same => by cases same; omega)
      have outer := ihRest
        (front ++ (⟨⟨.group, select, none⟩, some close, body.entry (base + 1) (some close)⟩ ::
          (body.layout (findlabel labels) (base + 1) (some close) ++
            [⟨⟨.endgroup, ⟨none, true⟩, none⟩, rest.entry (close + 1) behind, none⟩])))
        back (close + 1) fuel behind
        (by simp [place, Script.layout_length]; omega) (by omega)
        (fun p same => by have := further p same; omega)
      have placed : (front ++ (⟨⟨.group, select, none⟩, some close,
            body.entry (base + 1) (some close)⟩ ::
          body.layout (findlabel labels) (base + 1) (some close))).length = close := by
        simp [place, Script.layout_length]
        omega
      have pass := fixuplabel_pass labels fuel placed
        ⟨⟨.endgroup, ⟨none, true⟩, none⟩, rest.entry (close + 1) behind, none⟩
        (rest.layout (fun _ => none) (close + 1) behind ++ back) past ⟨nofun, nofun, nofun⟩
      simp only [List.append_assoc, List.cons_append, List.nil_append] at inner outer pass
      simp only [Script.layout, List.cons_append, List.append_assoc]
      show fixuplabel labels (fuel + 2) _ (some base) behind = _
      have both : (Script.group select body rest).defined labels =
          (body.defined labels && rest.defined labels) := by
        simp [Script.defined, Script.targets]
      rw [fixuplabel, if_neg other, both]
      simp only [getElem?_at place, Script.close, close_, inner]
      cases body.defined labels with
      | false => rfl
      | true => simp only [if_true, pass, outer, Bool.true_and]

/-! ## Scripts that are compiled -/

theorem fresh_of_foldlM (script : Script α β) :
    ∀ {st after : Stream α β} {more : List (Item α β)},
      (script.items ++ more).foldlM compileCommand st = .ok after →
      (st.labels.map (·.1)).Nodup → Fresh st script := by
  induction script with
  | nil => exact fun _ different => different
  | atomic select c rest ih =>
      intro st after more run different
      have later : Fresh (st.allocate ⟨.atomic c, select, none⟩) rest :=
        ih run (by rwa [allocate_labels])
      rwa [Fresh, allocate_length, allocate_labels] at later
  | label nonsel name rest ih =>
      intro st after more run different
      rw [Script.items, List.cons_append, List.foldlM_cons] at run
      by_cases new : st.labels.any (·.1 == name) = true
      · simp only [compileCommand, Option.getD_some, allocate_labels, if_pos new, bind, Except.bind] at run
        cases run
      · simp only [compileCommand, Option.getD_some, allocate_labels, if_neg new] at run
        have apart : name ∉ st.labels.map (·.1) := by
          intro member
          obtain ⟨entry, inside, rfl⟩ := List.mem_map.mp member
          exact new (List.any_eq_true.mpr ⟨entry, inside, by simp⟩)
        have later := ih run (List.nodup_cons.mpr ⟨apart, different⟩)
        rw [Fresh, Script.labels, List.append_assoc]
        rw [Fresh] at later
        simpa [allocate_length] using later
  | branch test select t rest ih =>
      intro st after more run different
      have later : Fresh (st.allocate ⟨Script.branchCode test, select, t⟩) rest :=
        ih (by cases test <;> exact run) (by rwa [allocate_labels])
      rwa [Fresh, allocate_length, allocate_labels] at later
  | group select body rest ihBody ihRest =>
      intro st after more run different
      rw [Script.items, List.cons_append, List.append_assoc, List.cons_append] at run
      have inner : Fresh (st.opened ⟨.group, select, none⟩) body :=
        ihBody run
          (by rwa [(opened_store st ⟨.group, select, none⟩).2.1])
      have head := (fresh_opened st select body).mp inner
      obtain ⟨st1, first, runs⟩ := compiled_group (rest.items ++ more) head (foldlM_items body)
      rw [runs] at run
      have later := ihRest run (by rw [first.labels]; exact head)
      rw [Fresh, first.labels, first.length, ← List.append_assoc, ← Script.labels_append] at later
      exact later

structure Labelled (script : Script α β) : Prop where
  different : script.names.Nodup
  defined : ∀ t ∈ script.targets, t ∈ script.names

theorem findlabel_isSome {labels : List (List Byte × Nat)} {name : List Byte} :
    (findlabel labels name).isSome = true ↔ name ∈ labels.map (·.1) := by
  unfold findlabel
  rw [Option.isSome_map, List.find?_isSome]
  simp

theorem defined_iff (script : Script α β) :
    script.defined (script.labels 0) = true ↔ ∀ t ∈ script.targets, t ∈ script.names := by
  unfold Script.defined
  rw [List.all_eq_true]
  exact forall₂_congr fun t _ => findlabel_isSome

theorem compile_items (different : script.names.Nodup) :
    compile script.items =
      if script.defined (script.labels 0) then
        .ok ⟨script.layout (findlabel (script.labels 0)) 0 none, script.entry 0 none⟩
      else .error .undefinedLabel := by
  have fresh : Fresh (⟨[], none, .prog, none, []⟩ : Stream α β) script := by
    rw [Fresh, List.append_nil]
    exact different
  obtain ⟨after, compiled, runs⟩ := foldlM_items script ⟨[], none, .prog, none, []⟩ [] fresh
  rw [List.append_nil] at runs
  have stack : after.stack = none := compiled.stack
  have labels : (after.store none).labels = script.labels 0 := by
    rw [(store_rest after none).2, compiled.labels]
    exact List.append_nil _
  have heap : (after.store none).heap = script.layout (fun _ => none) 0 none := compiled.heap none
  have prog : (after.store none).prog = script.entry 0 none := compiled.prog none
  have resolved := fixuplabel_layout (script.labels 0) script [] [] 0
    ((script.layout (fun _ => none) 0 none).length + 1) none rfl
    (by rw [Script.layout_length]; omega) (fun p same => by cases same)
  simp only [List.nil_append, List.append_nil] at resolved
  have stream : compileStream script.items ⟨[], none, .prog, none, []⟩ = .ok after := by
    unfold compileStream
    rw [runs]
    show (if after.stack.isSome = true then _ else _) = _
    rw [stack]
    rfl
  unfold compile
  simp only [stream, bind, Except.bind, labels, heap, prog, resolved]
  cases script.defined (script.labels 0) <;> rfl

theorem compile_ok_iff (script : Script α β) :
    (∃ program, compile script.items = .ok program) ↔ Labelled script := by
  constructor
  · rintro ⟨program, compiled⟩
    have different : script.names.Nodup := by
      cases run : script.items.foldlM compileCommand ⟨[], none, .prog, none, []⟩ with
      | error e =>
          simp only [compile, compileStream, run, bind, Except.bind] at compiled
          cases compiled
      | ok after =>
          have fresh : Fresh (⟨[], none, .prog, none, []⟩ : Stream α β) script :=
            fresh_of_foldlM script (by rwa [List.append_nil]) List.nodup_nil
          rwa [Fresh, List.append_nil] at fresh
    rw [compile_items different] at compiled
    split at compiled
    · next defined => exact ⟨different, (defined_iff script).mp defined⟩
    · cases compiled
  · intro labelled
    rw [compile_items labelled.different, if_pos ((defined_iff script).mpr labelled.defined)]
    exact ⟨_, rfl⟩

end Netbase.Sed
