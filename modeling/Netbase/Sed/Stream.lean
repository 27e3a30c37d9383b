import Mathlib.Tactic
import Netbase.Text.Lines

/-!
# The list of commands

`compile_stream` allocates one command after another and links each to the one before.  The
`next` field of an open group serves as the link of a stack until the end of the group is
found; then it is set to that end, and the commands inside run on to it.  `fixuplabel` turns
the labels of branches into pointers.
-/

namespace Netbase.Sed

open Netbase.Text

variable {α β : Type}

inductive Code (α : Type) where
  | group
  | endgroup
  | branch
  | test
  | label
  | atomic (c : α)

/-- The addresses of a command, if there are any, and its exclamation mark. -/
structure Select (β : Type) where
  address : Option β
  nonsel : Bool

/-- A command as it is parsed. -/
structure Item (α β : Type) where
  code : Code α
  select : Select β
  t : Option (List Byte)

/-- A compiled command; a pointer is the number of the command in the order of allocation. -/
structure Command (α β : Type) extends Item α β where
  next : Option Nat
  u : Option Nat

/-- The place that the next command is linked to. -/
inductive Link where
  | prog
  | next (cmd : Nat)
  | u (cmd : Nat)

inductive Rejected where
  | unexpectedEnd
  | pendingEnd
  | duplicateLabel
  | undefinedLabel
  | dangling
  deriving DecidableEq

structure Stream (α β : Type) where
  heap : List (Command α β)
  prog : Option Nat
  link : Link
  stack : Option Nat
  labels : List (List Byte × Nat)

/-- `*link = cmd` -/
def Stream.store (st : Stream α β) (cmd : Option Nat) : Stream α β :=
  match st.link with
  | .prog => { st with prog := cmd }
  | .next p => { st with heap := st.heap.modify p fun c => { c with next := cmd } }
  | .u p => { st with heap := st.heap.modify p fun c => { c with u := cmd } }

/-- A new command, linked to what is in front of it. -/
def Stream.allocate (st : Stream α β) (item : Item α β) : Stream α β :=
  let linked := st.store (some st.heap.length)
  { linked with
    heap := linked.heap ++ [{ item with next := none, u := none }]
    link := .next st.heap.length }

def compileCommand (st : Stream α β) (item : Item α β) : Except Rejected (Stream α β) :=
  let cmd := st.heap.length
  let st := st.allocate item
  match item.code with
  | .group =>
      .ok { st with
        heap := st.heap.modify cmd fun c => { c with next := st.stack }
        stack := some cmd
        link := .u cmd }
  | .endgroup =>
      match st.stack with
      | none => .error .unexpectedEnd
      | some cmd2 =>
          let heap := st.heap.modify cmd fun c => { c with select.nonsel := true }
          .ok { st with
            stack := heap[cmd2]?.bind Command.next
            heap := heap.modify cmd2 fun c => { c with next := some cmd } }
  | .label =>
      let name := item.t.getD []
      if st.labels.any (·.1 == name) then .error .duplicateLabel
      else .ok { st with labels := (name, cmd) :: st.labels }
  | _ => .ok st

def compileStream (items : List (Item α β)) (st : Stream α β) : Except Rejected (Stream α β) := do
  let st ← items.foldlM compileCommand st
  if st.stack.isSome then .error .pendingEnd else .ok st

/-- The command with a label. -/
def findlabel (labels : List (List Byte × Nat)) (name : List Byte) : Option Nat :=
  (labels.find? (·.1 == name)).map (·.2)

/-- Replace the labels of the commands from one up to another by pointers. -/
def fixuplabel (labels : List (List Byte × Nat)) :
    Nat → List (Command α β) → Option Nat → Option Nat →
      Except Rejected (List (Command α β))
  | 0, _, _, _ => .error .dangling
  | fuel + 1, heap, cp, end_ =>
      if cp = end_ then .ok heap
      else
        match cp with
        | none => .error .dangling
        | some p =>
            match heap[p]? with
            | none => .error .dangling
            | some c =>
                match c.code with
                | .branch | .test =>
                    match c.t with
                    | none =>
                        fixuplabel labels fuel (heap.modify p fun c => { c with u := none })
                          c.next end_
                    | some t =>
                        match findlabel labels t with
                        | none => .error .undefinedLabel
                        | some target =>
                            fixuplabel labels fuel
                              (heap.modify p fun c => { c with u := some target }) c.next end_
                | .group =>
                    match fixuplabel labels fuel heap c.u c.next with
                    | .error e => .error e
                    | .ok heap => fixuplabel labels fuel heap c.next end_
                | _ => fixuplabel labels fuel heap c.next end_

/-- A compiled program: its commands and the first one. -/
structure Program (α β : Type) where
  heap : List (Command α β)
  prog : Option Nat

def compile (items : List (Item α β)) : Except Rejected (Program α β) := do
  let st ← compileStream items ⟨[], none, .prog, none, []⟩
  let st := st.store none
  let heap ← fixuplabel st.labels (st.heap.length + 1) st.heap st.prog none
  .ok ⟨heap, st.prog⟩

end Netbase.Sed
