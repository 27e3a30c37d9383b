import Netbase.Find.Plan
import Netbase.Lib.Outcome
import Netbase.Strsuftoll.Product

/-!
# The sizes of files

A primary `-size n[c]` keeps its number and its comparison in its node.  Whether the number counts
bytes or blocks is kept in one variable for all of them, which is set while the arguments are
parsed and read when files are tested.
-/

namespace Netbase.Find

open Netbase.Text

variable {β : Type}

/-- The comparison of a node: `F_EQUAL`, `F_LESSTHAN` or `F_GREATER`. -/
inductive Comparison where
  | equal
  | lessThan
  | greater
  deriving DecidableEq, Repr

inductive SizeError where
  | illegalNumericValue (option vp : List Byte)
  | illegalTrailingCharacter (option vp : List Byte)
  deriving DecidableEq

/-- `find_parsenum`: the comparison, the number and the character behind it. -/
def findParsenum (option vp : List Byte) (endch : Option Byte) :
    Except SizeError (Comparison × Int × Option Byte) :=
  let (flags, str) : Comparison × List Byte :=
    if vp.head? = some (byte '+') then (.greater, vp.tail)
    else if vp.head? = some (byte '-') then (.lessThan, vp.tail)
    else (.equal, vp)
  let (value, _, endchar) := Strsuftoll.strtoll str
  if value = 0 ∧ endchar.length = str.length then .error (.illegalNumericValue option vp)
  else if endchar ≠ [] ∧ (endch = none ∨ endchar.head? ≠ endch) then
    .error (.illegalTrailingCharacter option vp)
  else .ok (flags, value, endchar.head?)

/-- `COMPARE` -/
def Comparison.holds (flags : Comparison) (a b : Int) : Bool :=
  match flags with
  | .equal => a == b
  | .lessThan => a < b
  | .greater => b < a

/-- `FIND_SIZE` -/
def FIND_SIZE : Nat := 512

/-- A node of a plan that matters for sizes: its comparison and `o_data`, or another primary. -/
inductive Primary (β : Type) where
  | size (flags : Comparison) (oData : Int)
  | other (b : β)
  deriving DecidableEq

/-- `c_size`, with `divsize` before and behind it. -/
def cSize (arg : List Byte) (divsize : Bool) : Except SizeError (Primary β × Bool) := do
  let (flags, n, endch) ← findParsenum (ascii ['-', 's', 'i', 'z', 'e']) arg (some (byte 'c'))
  .ok (.size flags n, if endch = some (byte 'c') then false else divsize)

/-- `f_size` for a file of so many bytes; none where the sum overflows. -/
def fSize (divsize : Bool) (flags : Comparison) (oData : Int) (stSize : Nat) : Option Bool :=
  if divsize then
    if (stSize : Int) + FIND_SIZE ≤ longMax then
      some (flags.holds (((stSize + FIND_SIZE - 1) / FIND_SIZE : Nat) : Int) oData)
    else none
  else some (flags.holds stSize oData)

/-- An argument: `-size` with its operand, or another one. -/
inductive Arg (β : Type) where
  | size (operand : List Byte)
  | word (w : Word β)

/-- Another argument makes the node it makes without sizes. -/
def Word.primary : Word β → Word (Primary β)
  | .prim b => .prim (.other b)
  | .openparen => .openparen
  | .closeparen => .closeparen
  | .not => .not
  | .or => .or
  | .and => .and

/-- `find_create` for one argument after another. -/
def createAll : List (Arg β) → Bool → Except SizeError (List (Word (Primary β)) × Bool)
  | [], divsize => .ok ([], divsize)
  | .size operand :: argv, divsize => do
      let (prim, divsize) ← cSize operand divsize
      let (ws, divsize) ← createAll argv divsize
      .ok (.prim prim :: ws, divsize)
  | .word w :: argv, divsize => do
      let (ws, divsize) ← createAll argv divsize
      .ok (w.primary :: ws, divsize)

def sizeNodes (ws : List (Word (Primary β))) : List (Comparison × Int) :=
  ws.filterMap fun w => match w with | .prim (.size flags n) => some (flags, n) | _ => none

/-! ## What it is for -/

/-- An operand as it is read: its comparison, its number and whether the suffix `c` follows. -/
structure SizeOperand where
  flags : Comparison
  n : Int
  bytes : Bool

def readOperand (operand : List Byte) : Option SizeOperand :=
  match findParsenum (ascii ['-', 's', 'i', 'z', 'e']) operand (some (byte 'c')) with
  | .ok (flags, n, endch) => some ⟨flags, n, endch = some (byte 'c')⟩
  | .error _ => none

/-- The operands of `-size`. -/
def operands (argv : List (Arg β)) : List SizeOperand :=
  argv.filterMap fun arg => match arg with | .size operand => readOperand operand | .word _ => none

/-- The blocks of a file, rounded up. -/
def blocks (stSize : Nat) : Nat := (stSize + 511) / 512

/-- What an operand says of a file. -/
def SizeOperand.tells (o : SizeOperand) (stSize : Nat) : Bool :=
  o.flags.holds (if o.bytes then stSize else blocks stSize) o.n

/-- Bytes and blocks of the file compare alike with the number. -/
def SizeOperand.Alike (o : SizeOperand) (stSize : Nat) : Prop :=
  o.flags.holds stSize o.n = o.flags.holds (blocks stSize) o.n

instance (o : SizeOperand) (stSize : Nat) : Decidable (o.Alike stSize) :=
  inferInstanceAs (Decidable (_ = _))

/-! ## The nodes and the variable -/

/-- What `c_size` makes of an operand. -/
theorem cSize_read {arg : List Byte} {divsize divsize' : Bool} {prim : Primary β}
    (made : cSize arg divsize = .ok (prim, divsize')) :
    ∃ o, readOperand arg = some o ∧ prim = .size o.flags o.n ∧ divsize' = (divsize && !o.bytes) := by
  unfold cSize at made
  unfold readOperand
  cases read : findParsenum (ascii ['-', 's', 'i', 'z', 'e']) arg (some (byte 'c')) with
  | error e =>
      rw [read] at made
      cases made
  | ok found =>
      obtain ⟨flags, n, endch⟩ := found
      rw [read] at made
      cases made
      refine ⟨_, rfl, rfl, ?_⟩
      by_cases suffix : endch = some (byte 'c')
      · simp [suffix]
      · simp [suffix]

theorem sizeNodes_primary (w : Word β) (ws : List (Word (Primary β))) :
    sizeNodes (w.primary :: ws) = sizeNodes ws := by
  cases w <;> rfl

theorem createAll_nodes (argv : List (Arg β)) :
    ∀ {divsize divsize' : Bool} {ws : List (Word (Primary β))},
      createAll argv divsize = .ok (ws, divsize') →
        sizeNodes ws = (operands argv).map (fun o => (o.flags, o.n)) ∧
          divsize' = (divsize && (operands argv).all fun o => !o.bytes) := by
  induction argv with
  | nil =>
      intro divsize divsize' ws made
      cases made
      exact ⟨rfl, (Bool.and_true _).symm⟩
  | cons arg argv ih =>
      intro divsize divsize' ws made
      cases arg with
      | size operand =>
          obtain ⟨⟨prim, between⟩, first, made⟩ := Lib.except_bind_ok.mp made
          obtain ⟨⟨rest, behind⟩, later, made⟩ := Lib.except_bind_ok.mp made
          cases made
          obtain ⟨o, read, rfl, rfl⟩ := cSize_read first
          obtain ⟨nodes, left⟩ := ih later
          have more : operands (.size operand :: argv) = o :: operands argv := by
            simp [operands, read]
          constructor
          · rw [more, List.map_cons, ← nodes]
            rfl
          · rw [more, List.all_cons, left, Bool.and_assoc]
      | word w =>
          obtain ⟨⟨rest, behind⟩, later, made⟩ := Lib.except_bind_ok.mp made
          cases made
          rw [sizeNodes_primary]
          exact ih later

/-! ## What the nodes say -/

variable {o : SizeOperand} {stSize : Nat}

theorem fSize_bytes (o : SizeOperand) (stSize : Nat) :
    fSize false o.flags o.n stSize = some (o.tells stSize) ↔ (o.bytes = false → o.Alike stSize) := by
  rw [fSize, if_neg Bool.false_ne_true, SizeOperand.tells, Option.some.injEq, SizeOperand.Alike]
  cases o.bytes with
  | false => simp
  | true => simp

/-- Where blocks are counted, the sum that rounds up has to fit. -/
theorem fSize_blocks (whole : o.bytes = false) (stSize : Nat) :
    fSize true o.flags o.n stSize = some (o.tells stSize) ↔ (stSize : Int) + 512 ≤ longMax := by
  have value : fSize true o.flags o.n stSize =
      if (stSize : Int) + 512 ≤ longMax then some (o.flags.holds (blocks stSize) o.n) else none := by
    simp [fSize, FIND_SIZE, blocks]
  have told : o.tells stSize = o.flags.holds (blocks stSize) o.n := by
    rw [SizeOperand.tells, whole]
    rfl
  rw [value, told, Option.ite_none_right_eq_some]
  exact and_iff_left rfl

/-- Every `-size` primary says of a file what its own operand says, if and only if none without
the suffix stands beside one with it (or bytes and blocks of the file compare alike with its
number), and the file is not so large that rounding up overflows. -/
theorem sizes_say_iff {argv : List (Arg β)} {ws : List (Word (Primary β))} {divsize : Bool}
    (made : createAll argv true = .ok (ws, divsize)) (stSize : Nat) :
    (sizeNodes ws).map (fun node => fSize divsize node.1 node.2 stSize) =
        (operands argv).map (fun o => some (o.tells stSize)) ↔
      ∀ o ∈ operands argv, o.bytes = false →
        if ∃ other ∈ operands argv, other.bytes = true then o.Alike stSize
        else (stSize : Int) + 512 ≤ longMax := by
  obtain ⟨nodes, left⟩ := createAll_nodes argv made
  rw [nodes, List.map_map, List.map_inj_left]
  by_cases suffix : ∃ other ∈ operands argv, other.bytes = true
  · have off : divsize = false := by
      obtain ⟨other, member, bytes⟩ := suffix
      rw [left, Bool.true_and, List.all_eq_false]
      exact ⟨other, member, by simp [bytes]⟩
    simp only [if_pos suffix, off]
    exact forall₂_congr fun o _ => fSize_bytes o stSize
  · have on : divsize = true := by
      rw [left, Bool.true_and, List.all_eq_true]
      intro other member
      simpa using fun bytes => suffix ⟨other, member, bytes⟩
    simp only [if_neg suffix, on]
    refine forall₂_congr fun o member => ?_
    have whole : o.bytes = false := by simpa using fun bytes => suffix ⟨o, member, bytes⟩
    rw [Function.comp_apply, fSize_blocks whole stSize]
    exact ⟨fun fits _ => fits, fun fits => fits whole⟩

/-- `-size 1 -size 3c`, with both operands read. -/
def mixedSizes : List (Arg Unit) := [.size [byte '1'], .size [byte '3', byte 'c']]

/-- The theorem for `-size 1 -o -size 2` and a file of three bytes. -/
theorem sizes_say_plain :
    (sizeNodes (β := Unit) [.prim (.size .equal 1), .or, .prim (.size .equal 2)]).map
        (fun node => fSize true node.1 node.2 3) =
      (operands (β := Unit) [.size [byte '1'], .word .or, .size [byte '2']]).map
        fun o => some (o.tells 3) :=
  (@sizes_say_iff Unit [.size [byte '1'], .word .or, .size [byte '2']] _ _ rfl 3).mpr (by decide)

/-- Beside `-size 3c`, `-size 1` counts bytes: of a file of three bytes it is false. -/
theorem sizes_mixed :
    ∃ ws divsize, createAll mixedSizes true = .ok (ws, divsize) ∧
      (sizeNodes ws).map (fun node => fSize divsize node.1 node.2 3) = [some false, some true] ∧
      (operands mixedSizes).map (fun o => some (o.tells 3)) = [some true, some true] :=
  ⟨_, _, rfl, by decide, by decide⟩

end Netbase.Find
