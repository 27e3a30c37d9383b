import Netbase.Sed.Layout

/-!
# Running a script

`process` follows the `next` pointers of the commands, and the `u` pointers of groups and
branches.  The script itself runs by its structure: a group that does not apply is passed
over, behind the last command of a group the script behind the group goes on, and a branch
goes on at its label, wherever that is.  Both take the same steps.
-/

namespace Netbase.Sed

open Netbase.Text

variable {α β σ : Type}

/-- Where a command leads: to the next one, to the first one, to the end of the cycle, or to
the end of the run. -/
inductive Flow (σ : Type) where
  | next (s : σ)
  | top (s : σ)
  | new (s : σ)
  | exit (s : σ)

/-- What commands do: whether the addresses select the line, and whether it is the last one
of a range; the commands without groups and branches; the flag of a substitution; and what
comes between two cycles, which needs a next line. -/
structure Machine (α β σ : Type) where
  addressed : β → σ → Bool × Bool × σ
  perform : α → Bool → σ → Flow σ
  sdone : σ → Bool
  reset : σ → σ
  new : σ → Option σ

namespace Machine

/-- The test of a command, with the flag for the last line of a range. -/
def applies (m : Machine α β σ) (select : Select β) (s : σ) : Bool × Bool × σ :=
  let r := match select.address with
    | none => (true, false, s)
    | some a => m.addressed a s
  (xor r.1 select.nonsel, r.2)

end Machine

/-- A place in a run; a run that is over has none. -/
inductive Config (P σ : Type) where
  | at_ (point : P) (s : σ)
  | done (s : σ)

def Machine.endCycle (m : Machine α β σ) {P : Type} (first : P) (s : σ) : Config P σ :=
  match m.new s with
  | some s => .at_ first s
  | none => .done s

def Machine.follow (m : Machine α β σ) {P : Type} (first next : P) : Flow σ → Config P σ
  | .next s => .at_ next s
  | .top s => .at_ first s
  | .new s => m.endCycle first s
  | .exit s => .done s

/-- One round of the loop over the commands: what is performed, and where it goes on. -/
def processStep (m : Machine α β σ) (program : Program α β) :
    Config (Option Nat) σ → List α × Config (Option Nat) σ
  | .done s => ([], .done s)
  | .at_ none s => ([], m.endCycle program.prog s)
  | .at_ (some p) s =>
      match program.heap[p]? with
      | none => ([], .done s)
      | some cp =>
          let (r, lastaddr, s) := m.applies cp.select s
          if r then
            match cp.code with
            | .group => ([], .at_ cp.u s)
            | .branch => ([], .at_ cp.u s)
            | .test =>
                if m.sdone s then ([], .at_ cp.u (m.reset s)) else ([], .at_ cp.next s)
            | .endgroup => ([], .at_ cp.next s)
            | .label => ([], .at_ cp.next s)
            | .atomic c => ([c], m.follow program.prog cp.next (m.perform c lastaddr s))
          else ([], .at_ cp.next s)

/-- What is left of a script: of the group that runs, and of the groups around it. -/
abbrev Point (α β : Type) := List (Script α β)

/-- The place of a label. -/
def Script.find (name : List Byte) : Script α β → Point α β → Option (Point α β)
  | nil, _ => none
  | atomic _ _ rest, outer => rest.find name outer
  | label nonsel name' rest, outer =>
      if name' = name then some (label nonsel name' rest :: outer) else rest.find name outer
  | branch _ _ _ rest, outer => rest.find name outer
  | group _ body rest, outer =>
      match body.find name (rest :: outer) with
      | some point => some point
      | none => rest.find name outer

/-- Where a branch goes on: without a label at the end of the script. -/
def Script.target (script : Script α β) : Option (List Byte) → Point α β
  | none => []
  | some name => (script.find name []).getD []

def scriptStep (m : Machine α β σ) (script : Script α β) :
    Config (Point α β) σ → List α × Config (Point α β) σ
  | .done s => ([], .done s)
  | .at_ [] s => ([], m.endCycle [script] s)
  | .at_ [.nil] s => ([], m.endCycle [script] s)
  | .at_ (.nil :: outer) s => ([], .at_ outer s)
  | .at_ (.atomic select c rest :: outer) s =>
      let (r, lastaddr, s) := m.applies select s
      if r then ([c], m.follow [script] (rest :: outer) (m.perform c lastaddr s))
      else ([], .at_ (rest :: outer) s)
  | .at_ (.label _ _ rest :: outer) s => ([], .at_ (rest :: outer) s)
  | .at_ (.branch test select t rest :: outer) s =>
      let (r, _, s) := m.applies select s
      if r then
        if test then
          if m.sdone s then ([], .at_ (script.target t) (m.reset s))
          else ([], .at_ (rest :: outer) s)
        else ([], .at_ (script.target t) s)
      else ([], .at_ (rest :: outer) s)
  | .at_ (.group select body rest :: outer) s =>
      let (r, _, s) := m.applies select s
      -- nothing of a group that does not apply is left to run
      if r then ([], .at_ (body :: rest :: outer) s) else ([], .at_ (.nil :: rest :: outer) s)

/-- A number of steps, with all that is performed. -/
def run {C : Type} (step : C → List α × C) : Nat → C → List α × C
  | 0, c => ([], c)
  | n + 1, c => ((step c).1 ++ (run step n (step c).2).1, (run step n (step c).2).2)

/-- The state of a run, and whether it is over. -/
def Config.status {P : Type} : Config P σ → Bool × σ
  | at_ _ s => (false, s)
  | done s => (true, s)

/-! ## Where the commands of a script stand -/

def Placed (labels : List (List Byte × Nat)) (heap : List (Command α β)) (script : Script α β)
    (base : Nat) (behind : Option Nat) : Prop :=
  ∃ front back, front.length = base ∧
    heap = front ++ (script.layout (findlabel labels) base behind ++ back)

section

variable {labels : List (List Byte × Nat)} {heap : List (Command α β)} {base : Nat}
  {behind : Option Nat}

theorem Placed.split {script : Script α β} (placed : Placed labels heap script base behind)
    (front : List (Command α β)) {back : List (Command α β)} {c : Command α β}
    (layout : script.layout (findlabel labels) base behind = front ++ c :: back) :
    heap[base + front.length]? = some c := by
  obtain ⟨before, after, place, rfl⟩ := placed
  have shape : before ++ (script.layout (findlabel labels) base behind ++ after) =
      (before ++ front) ++ c :: (back ++ after) := by
    rw [layout]
    simp
  rw [shape]
  exact getElem?_at (by simp [place]) c _

theorem Placed.part {script other : Script α β} (placed : Placed labels heap script base behind)
    (front back : List (Command α β)) {further : Option Nat}
    (layout : script.layout (findlabel labels) base behind =
      front ++ (other.layout (findlabel labels) (base + front.length) further ++ back)) :
    Placed labels heap other (base + front.length) further := by
  obtain ⟨before, after, place, rfl⟩ := placed
  refine ⟨before ++ front, back ++ after, by simp [place], ?_⟩
  rw [layout]
  simp

theorem Placed.group {select : Select β} {body rest : Script α β}
    (placed : Placed labels heap (.group select body rest) base behind) :
    let close := Script.close base body
    heap[base]? = some ⟨⟨.group, select, none⟩, some close,
        body.entry (base + 1) (some close)⟩ ∧
      Placed labels heap body (base + 1) (some close) ∧
      heap[close]? = some ⟨⟨.endgroup, ⟨none, true⟩, none⟩,
        rest.entry (close + 1) behind, none⟩ ∧
      Placed labels heap rest (close + 1) behind := by
  intro close
  have layout : (Script.group select body rest).layout (findlabel labels) base behind =
      ⟨⟨.group, select, none⟩, some close, body.entry (base + 1) (some close)⟩ ::
        (body.layout (findlabel labels) (base + 1) (some close) ++
          ⟨⟨.endgroup, ⟨none, true⟩, none⟩, rest.entry (close + 1) behind, none⟩ ::
            rest.layout (findlabel labels) (close + 1) behind) := rfl
  have inner := Script.layout_length (findlabel labels) body (base + 1) (some close)
  generalize (⟨⟨.group, select, none⟩, some close, body.entry (base + 1) (some close)⟩ :
    Command α β) = first at *
  generalize (⟨⟨.endgroup, ⟨none, true⟩, none⟩, rest.entry (close + 1) behind, none⟩ :
    Command α β) = last at *
  have end_ : close = base + (first :: body.layout (findlabel labels) (base + 1)
      (some close)).length := by
    rw [List.length_cons, inner]
    show base + 1 + body.size = _
    omega
  have behind_ : close + 1 = base + (first :: (body.layout (findlabel labels) (base + 1)
      (some close) ++ [last])).length := by
    simp only [List.length_cons, List.length_append, List.length_nil] at end_ ⊢
    omega
  refine ⟨placed.split [] layout, placed.part [first] _ layout, ?_, ?_⟩
  · have here := placed.split (first :: body.layout (findlabel labels) (base + 1) (some close))
      layout
    rwa [← end_] at here
  · have whole : (Script.group select body rest).layout (findlabel labels) base behind =
        (first :: (body.layout (findlabel labels) (base + 1) (some close) ++ [last])) ++
          (rest.layout (findlabel labels) (base + (first :: (body.layout (findlabel labels)
            (base + 1) (some close) ++ [last])).length) behind ++ []) := by
      rw [layout, ← behind_]
      simp
    have further := placed.part _ [] whole
    rwa [← behind_] at further

theorem Placed.cons {script rest : Script α β} {c : Command α β}
    (placed : Placed labels heap script base behind)
    (layout : script.layout (findlabel labels) base behind =
      c :: rest.layout (findlabel labels) (base + 1) behind) :
    heap[base]? = some c ∧ Placed labels heap rest (base + 1) behind := by
  refine ⟨placed.split [] layout, placed.part [c] [] ?_⟩
  rw [layout, List.append_nil]
  rfl

theorem Placed.nil {script : Script α β} (placed : Placed labels heap script base behind)
    (further : Option Nat) : Placed labels heap .nil base further := by
  obtain ⟨front, back, place, same⟩ := placed
  exact ⟨front, _, place, same⟩

/-- What is around a script: the end of its group leads to the script behind the group. -/
def Behind (labels : List (List Byte × Nat)) (heap : List (Command α β)) :
    Point α β → Option Nat → Prop
  | [], behind => behind = none
  | script :: outer, behind =>
      ∃ close base further, behind = some close ∧
        heap[close]? = some ⟨⟨.endgroup, ⟨none, true⟩, none⟩, script.entry base further, none⟩ ∧
        Placed labels heap script base further ∧ Behind labels heap outer further

def Stands (labels : List (List Byte × Nat)) (heap : List (Command α β)) :
    Point α β → Option Nat → Prop
  | [], cp => cp = none
  | script :: outer, cp =>
      ∃ base behind, Placed labels heap script base behind ∧ cp = script.entry base behind ∧
        Behind labels heap outer behind

theorem find_stands {name : List Byte} (script : Script α β) :
    ∀ {outer : Point α β} {base : Nat} {behind : Option Nat} {point : Point α β},
      Placed labels heap script base behind → Behind labels heap outer behind →
      script.find name outer = some point →
      ∃ p, (name, p) ∈ script.labels base ∧ Stands labels heap point (some p) := by
  induction script with
  | nil =>
      intro outer base behind point _ _ found
      cases found
  | atomic select c rest ih =>
      intro outer base behind point placed around found
      exact ih (placed.cons rfl).2 around found
  | label nonsel name' rest ih =>
      intro outer base behind point placed around found
      rw [Script.find] at found
      split at found
      · next same =>
          cases found
          refine ⟨base, ?_, base, behind, placed, rfl, around⟩
          rw [Script.labels, same]
          simp
      · obtain ⟨p, member, stands⟩ := ih (placed.cons rfl).2 around found
        exact ⟨p, List.mem_append_left _ member, stands⟩
  | branch test select t rest ih =>
      intro outer base behind point placed around found
      exact ih (placed.cons rfl).2 around found
  | group select body rest ihBody ihRest =>
      intro outer base behind point placed around found
      obtain ⟨_, inner, close_, further⟩ := placed.group
      rw [Script.find] at found
      split at found
      · next point' here =>
          cases found
          have around' : Behind labels heap (rest :: outer) (some (Script.close base body)) :=
            ⟨_, _, behind, rfl, close_, further, around⟩
          obtain ⟨p, member, stands⟩ := ihBody inner around' here
          exact ⟨p, List.mem_append_right _ member, stands⟩
      · obtain ⟨p, member, stands⟩ := ihRest further around found
        exact ⟨p, List.mem_append_left _ member, stands⟩

end

theorem find_isSome {name : List Byte} (script : Script α β) :
    ∀ {outer : Point α β} {base : Nat}, name ∈ (script.labels base).map (·.1) →
      ∃ point, script.find name outer = some point := by
  induction script with
  | nil =>
      intro outer base member
      cases member
  | atomic select c rest ih =>
      intro outer base member
      exact ih member
  | label nonsel name' rest ih =>
      intro outer base member
      rw [Script.find]
      split
      · exact ⟨_, rfl⟩
      · next other =>
          rw [Script.labels, List.map_append, List.mem_append] at member
          exact ih (member.resolve_right fun last => other (List.mem_singleton.mp last).symm)
  | branch test select t rest ih =>
      intro outer base member
      exact ih member
  | group select body rest ihBody ihRest =>
      intro outer base member
      rw [Script.labels, List.map_append, List.mem_append] at member
      rw [Script.find]
      split
      · exact ⟨_, rfl⟩
      · next none =>
          refine ihRest (member.resolve_right fun inside => ?_)
          obtain ⟨point, found⟩ : ∃ point, body.find name (rest :: outer) = some point :=
            ihBody inside
          rw [none] at found
          cases found

theorem findlabel_mem {labels : List (List Byte × Nat)} (different : (labels.map (·.1)).Nodup)
    {name : List Byte} {p : Nat} (member : (name, p) ∈ labels) :
    findlabel labels name = some p := by
  induction labels with
  | nil => cases member
  | cons entry labels ih =>
      rw [List.map_cons, List.nodup_cons] at different
      unfold findlabel at ih ⊢
      rw [List.find?_cons]
      rcases List.mem_cons.mp member with rfl | later
      · simp
      · have other : (entry.1 == name) = false := by
          rw [beq_eq_false_iff_ne]
          rintro rfl
          exact different.1 (List.mem_map_of_mem (f := (·.1)) later)
        rw [other]
        exact ih different.2 later

theorem target_stands {script : Script α β} {heap : List (Command α β)}
    (different : script.names.Nodup) (placed : Placed (script.labels 0) heap script 0 none)
    (t : Option (List Byte)) :
    Stands (script.labels 0) heap (script.target t) (t.bind (findlabel (script.labels 0))) := by
  cases t with
  | none => rfl
  | some name =>
      have nowhere : Behind (script.labels 0) heap [] none := rfl
      rw [Option.bind_some, Script.target]
      by_cases member : name ∈ script.names
      · obtain ⟨point, found⟩ : ∃ point, script.find name [] = some point :=
          find_isSome script member
        obtain ⟨p, inside, stands⟩ := find_stands script placed nowhere found
        rw [found, findlabel_mem different inside]
        exact stands
      · have missing : findlabel (script.labels 0) name = none := by
          rw [← Option.not_isSome_iff_eq_none, findlabel_isSome]
          exact member
        have unnamed : script.find name [] = none := by
          cases found : script.find name [] with
          | none => rfl
          | some point =>
              obtain ⟨p, inside, _⟩ := find_stands script placed nowhere found
              exact absurd (List.mem_map_of_mem (f := (·.1)) inside) member
        rw [missing, unnamed]
        rfl

/-! ## The same steps -/

/-- Both runs are at the same place, in the same state. -/
inductive Simulates (labels : List (List Byte × Nat)) (heap : List (Command α β)) :
    Config (Point α β) σ → Config (Option Nat) σ → Prop where
  | at_ {point : Point α β} {cp : Option Nat} {s : σ} (stands : Stands labels heap point cp) :
      Simulates labels heap (.at_ point s) (.at_ cp s)
  | done {s : σ} : Simulates labels heap (.done s) (.done s)

section

variable {labels : List (List Byte × Nat)} {heap : List (Command α β)}

theorem endCycle_simulates (m : Machine α β σ) {point : Point α β} {cp : Option Nat}
    (stands : Stands labels heap point cp) (s : σ) :
    Simulates labels heap (m.endCycle point s) (m.endCycle cp s) := by
  unfold Machine.endCycle
  cases m.new s with
  | none => exact .done
  | some s => exact .at_ stands

theorem follow_simulates (m : Machine α β σ) {first next : Point α β} {prog cp : Option Nat}
    (start : Stands labels heap first prog) (stands : Stands labels heap next cp)
    (flow : Flow σ) :
    Simulates labels heap (m.follow first next flow) (m.follow prog cp flow) := by
  cases flow with
  | next s => exact .at_ stands
  | top s => exact .at_ start
  | new s => exact endCycle_simulates m start s
  | exit s => exact .done

end

theorem processStep_simulates (m : Machine α β σ) {script : Script α β}
    {heap : List (Command α β)} (different : script.names.Nodup)
    (placed : Placed (script.labels 0) heap script 0 none) {point : Point α β}
    {cp : Option Nat} (stands : Stands (script.labels 0) heap point cp) (s : σ) :
    (scriptStep m script (.at_ point s)).1 =
        (processStep m ⟨heap, script.entry 0 none⟩ (.at_ cp s)).1 ∧
      Simulates (script.labels 0) heap (scriptStep m script (.at_ point s)).2
        (processStep m ⟨heap, script.entry 0 none⟩ (.at_ cp s)).2 := by
  have start : Stands (script.labels 0) heap [script] (script.entry 0 none) :=
    ⟨0, none, placed, rfl, rfl⟩
  cases point with
  | nil =>
      cases stands
      exact ⟨rfl, endCycle_simulates m start s⟩
  | cons here outer =>
      obtain ⟨base, behind, lies, rfl, around⟩ := stands
      cases here with
      | nil =>
          cases outer with
          | nil =>
              cases around
              exact ⟨rfl, endCycle_simulates m start s⟩
          | cons next outer =>
              obtain ⟨close, base', further, rfl, end_, lies', around'⟩ := around
              simp only [Script.entry, processStep, end_]
              exact ⟨rfl, .at_ ⟨base', further, lies', rfl, around'⟩⟩
      | atomic select c rest =>
          obtain ⟨command, lies'⟩ := lies.cons rfl
          have next : Stands (script.labels 0) heap (rest :: outer) (rest.entry (base + 1) behind) :=
            ⟨base + 1, behind, lies', rfl, around⟩
          simp only [Script.entry, processStep, scriptStep, command]
          rcases m.applies select s with ⟨r, lastaddr, s⟩
          cases r with
          | false => exact ⟨rfl, .at_ next⟩
          | true => exact ⟨rfl, follow_simulates m start next _⟩
      | label nonsel name rest =>
          obtain ⟨command, lies'⟩ := lies.cons rfl
          have next : Stands (script.labels 0) heap (rest :: outer) (rest.entry (base + 1) behind) :=
            ⟨base + 1, behind, lies', rfl, around⟩
          simp only [Script.entry, processStep, scriptStep, command]
          cases nonsel with
          | false => exact ⟨rfl, .at_ next⟩
          | true => exact ⟨rfl, .at_ next⟩
      | branch test select t rest =>
          obtain ⟨command, lies'⟩ := lies.cons rfl
          have next : Stands (script.labels 0) heap (rest :: outer) (rest.entry (base + 1) behind) :=
            ⟨base + 1, behind, lies', rfl, around⟩
          have target := target_stands different placed t
          simp only [Script.entry, processStep, scriptStep, command]
          rcases m.applies select s with ⟨r, lastaddr, s⟩
          cases r with
          | false => exact ⟨rfl, .at_ next⟩
          | true =>
              cases test with
              | false => exact ⟨rfl, .at_ target⟩
              | true =>
                  simp only [Script.branchCode, if_true]
                  cases m.sdone s with
                  | false => exact ⟨rfl, .at_ next⟩
                  | true => exact ⟨rfl, .at_ target⟩
      | group select body rest =>
          obtain ⟨command, inner, close, lies'⟩ := lies.group
          have around' : Behind (script.labels 0) heap (rest :: outer)
              (some (Script.close base body)) := ⟨_, _, behind, rfl, close, lies', around⟩
          simp only [Script.entry, processStep, scriptStep, command]
          rcases m.applies select s with ⟨r, lastaddr, s⟩
          cases r with
          | false => exact ⟨rfl, .at_ ⟨base + 1, _, inner.nil _, rfl, around'⟩⟩
          | true => exact ⟨rfl, .at_ ⟨base + 1, _, inner, rfl, around'⟩⟩

theorem run_simulates (m : Machine α β σ) {script : Script α β} {heap : List (Command α β)}
    (different : script.names.Nodup) (placed : Placed (script.labels 0) heap script 0 none)
    (n : Nat) : ∀ {x : Config (Point α β) σ} {y : Config (Option Nat) σ},
      Simulates (script.labels 0) heap x y →
      (run (scriptStep m script) n x).1 =
          (run (processStep m ⟨heap, script.entry 0 none⟩) n y).1 ∧
        (run (scriptStep m script) n x).2.status =
          (run (processStep m ⟨heap, script.entry 0 none⟩) n y).2.status := by
  induction n with
  | zero =>
      intro x y same
      cases same with
      | at_ stands => exact ⟨rfl, rfl⟩
      | done => exact ⟨rfl, rfl⟩
  | succ n ih =>
      intro x y same
      cases same with
      | at_ stands =>
          obtain ⟨performed, next⟩ := processStep_simulates m different placed stands _
          obtain ⟨later, status⟩ := ih next
          simp only [run]
          exact ⟨by rw [performed, later], status⟩
      | done =>
          obtain ⟨later, status⟩ := ih (.done : Simulates _ heap (.done _) (.done _))
          simp only [run, scriptStep, processStep, List.nil_append]
          exact ⟨later, status⟩

/-- On every machine the list that a script is compiled to performs the same commands as the
script, in the same states, however long both run. -/
theorem compile_process (script : Script α β) (program : Program α β)
    (compiled : compile script.items = .ok program) (m : Machine α β σ) (s : σ) (n : Nat) :
    (run (processStep m program) n (.at_ program.prog s)).1 =
        (run (scriptStep m script) n (.at_ [script] s)).1 ∧
      (run (processStep m program) n (.at_ program.prog s)).2.status =
        (run (scriptStep m script) n (.at_ [script] s)).2.status := by
  have labelled := (compile_ok_iff script).mp ⟨program, compiled⟩
  rw [compile_items labelled.different, if_pos ((defined_iff script).mpr labelled.defined)]
    at compiled
  cases compiled
  have placed : Placed (script.labels 0)
      (script.layout (findlabel (script.labels 0)) 0 none) script 0 none :=
    ⟨[], [], rfl, (List.append_nil _).symm⟩
  have start : Simulates (script.labels 0) (script.layout (findlabel (script.labels 0)) 0 none)
      (.at_ [script] s) (.at_ (script.entry 0 none) s) := .at_ ⟨0, none, placed, rfl, rfl⟩
  obtain ⟨performed, status⟩ := run_simulates m labelled.different placed n start
  exact ⟨performed.symm, status.symm⟩

def counter (lines : Nat) : Machine Nat Bool (Nat × Nat) where
  addressed a s := (a, false, s)
  perform _ _ s := .next (s.1 + 1, s.2)
  sdone s := s.1 % 2 = 1
  reset s := s
  new s := if s.2 < lines then some (s.1, s.2 + 1) else none

def enterGroup : Script Nat Bool :=
  .branch false ⟨some true, false⟩ (some [byte 'x'])
    (.atomic ⟨none, false⟩ 0
      (.group ⟨some false, false⟩
        (.atomic ⟨none, false⟩ 1 (.label false [byte 'x'] (.atomic ⟨none, false⟩ 2 .nil)))
        (.atomic ⟨none, false⟩ 3 .nil)))

theorem enterGroup_process :
    ∃ program, compile enterGroup.items = .ok program ∧
      (run (processStep (counter 1) program) 20 (.at_ program.prog (0, 0))).1 =
        (run (scriptStep (counter 1) enterGroup) 20 (.at_ [enterGroup] (0, 0))).1 ∧
      (run (scriptStep (counter 1) enterGroup) 20 (.at_ [enterGroup] (0, 0))).1 =
        [2, 3, 2, 3] := by
  have compiled : compile enterGroup.items = .ok
      ⟨enterGroup.layout (findlabel (enterGroup.labels 0)) 0 none, enterGroup.entry 0 none⟩ := by
    rw [compile_items (by decide), if_pos (by decide)]
  exact ⟨_, compiled, (compile_process _ _ compiled (counter 1) (0, 0) 20).1, by decide⟩

end Netbase.Sed
