import Mathlib
import Netbase.Text.Lines

/-!
# The input of xargs

The arguments read from the input lie one behind the other in a buffer, each
with its NUL, and `xp` points to where each of them starts.  One call of
`parse_input` takes one character; a command is run when the arguments or the
buffer are used up.  The options -I, -J and -L are not given.
-/

namespace Netbase.Xargs

open Netbase.Text

def blank : Byte := 32
def tab : Byte := 9
def squote : Byte := 39
def dquote : Byte := 34
def backslash : Byte := 92

/-- The utility when none is named. -/
def echo : List Byte := ascii ['/', 'b', 'i', 'n', '/', 'e', 'c', 'h', 'o']

/-- The limit of input lines, which only -L sets. -/
def Lflag : Nat := 0

/-- The messages of an error exit; `utility` is what becomes of a command. -/
inductive Failure
  | illegalArgumentCount
  | insufficientSpaceForCommand
  | insufficientSpaceForArgument
  | insufficientSpaceForArguments
  | unterminatedQuote
  | backslashAtEOF
  | utility
  deriving DecidableEq

/-- The settings; `survives n` tells whether xargs goes on after its n-th wait for commands. -/
structure Config where
  zflag : Bool
  xflag : Bool
  nargs : Nat
  size : Nat
  eofstr : List Byte
  utility : List (List Byte)
  survives : Nat → Bool

def space (words : List (List Byte)) : Nat := (words.map fun word => word.length + 1).sum

def Config.words (cfg : Config) : List (List Byte) :=
  if cfg.utility = [] then [echo] else cfg.utility

/-- The space the fixed words are charged with. -/
def Config.cnt (cfg : Config) : Nat :=
  if cfg.utility = [] then echo.length else space cfg.utility

/-- The buffer space. -/
def Config.nline (cfg : Config) : Nat := cfg.size - cfg.cnt

/-- The end of the buffer, where no byte of an argument may stand. -/
def Config.ebp (cfg : Config) : Nat := cfg.nline - 1

/-- The state between two characters: `bbp` is the buffer up to `p`, and `argp` the place in it where
the current argument starts. -/
structure State where
  bbp : List Byte
  argp : Nat
  xp : List Nat
  wasquoted : Bool
  insingle : Bool
  indouble : Bool
  count : Nat
  waits : Nat
  ran : List (List (List Byte))

def State.p (st : State) : Nat := st.bbp.length

/-- The string at the start of a piece of memory. -/
def cstring (memory : List Byte) : List Byte := memory.takeWhile (· ≠ 0)

/-- The arguments the pointers stand for. -/
def State.args (st : State) : List (List Byte) := st.xp.map fun a => cstring (st.bbp.drop a)

/-- The difference of the first bytes that differ among the first `n`. -/
def strncmp : List Byte → List Byte → Nat → Int
  | _, _, 0 => 0
  | s1, s2, n + 1 =>
      let c1 := s1.headD 0
      let c2 := s2.headD 0
      if c1 ≠ c2 then c1.toNat - c2.toNat
      else if c1 = 0 then 0
      else strncmp s1.tail s2.tail n

/-- Whether an argument is taken for the end-of-file string. -/
def Config.foundeof (cfg : Config) (argument : List Byte) : Bool :=
  cfg.eofstr ≠ [] && strncmp argument cfg.eofstr argument.length = 0

/-- The exit at the end of the input, after the last commands. -/
def Config.leave (cfg : Config) (st : State) : Except Failure (List (List (List Byte))) :=
  if cfg.survives st.waits then .ok st.ran else .error .utility

/-- A command is run with the arguments collected so far. -/
def Config.prerun (cfg : Config) (st : State) : Except Failure State :=
  if cfg.survives st.waits then .ok { st with ran := st.ran ++ [st.args], waits := st.waits + 1 }
  else .error .utility

/-- One character of an argument; without room the collected arguments are run and the current one
moves to the front of the buffer. -/
def Config.addch (cfg : Config) (st : State) (ch : Byte) : Except Failure State :=
  if st.p < cfg.ebp then .ok { st with bbp := st.bbp ++ [ch] }
  else if st.xp = [] then .error .insufficientSpaceForArgument
  else if cfg.xflag then .error .insufficientSpaceForArguments
  else
    match cfg.prerun st with
    | .error failure => .error failure
    | .ok st =>
        .ok { st with
          xp := [], argp := 0, bbp := (st.bbp.drop st.argp).take (cfg.ebp - st.argp) ++ [ch] }

/-- Empty arguments are not made unless they are quoted. -/
def State.collect (st : State) (foundeof : Bool) : State :=
  if (st.argp ≠ st.p ∨ st.wasquoted) ∧ foundeof = false then
    { st with bbp := st.bbp ++ [0], xp := st.xp ++ [st.argp] }
  else st

/-- Whether the command is run behind an argument. -/
def Config.maxed (cfg : Config) (st : State) (eof foundeof : Bool) : Bool :=
  st.xp.length = cfg.nargs || cfg.ebp < st.p || eof || (Lflag ≤ st.count && cfg.xflag) || foundeof

/-- What follows a character: the next one, or the exit with the commands that were run. -/
inductive Next
  | goes (st : State)
  | exits (ran : List (List (List Byte)))

/-- The next call of `parse_input`, if there is one. -/
def Next.andThen (next : Next) (loop : State → Except Failure (List (List (List Byte)))) :
    Except Failure (List (List (List Byte))) :=
  match next with
  | .goes st => loop st
  | .exits ran => .ok ran

def Config.arg2 (cfg : Config) (st : State) (eof : Bool) : Except Failure Next :=
  let foundeof := cfg.foundeof (st.bbp.drop st.argp)
  let st := st.collect foundeof
  if cfg.maxed st eof foundeof then
    if cfg.xflag ∧ st.xp.length ≠ cfg.nargs ∧ cfg.ebp < st.p then
      .error .insufficientSpaceForArguments
    else
      match cfg.prerun st with
      | .error failure => .error failure
      | .ok st =>
          if eof ∨ foundeof then
            match cfg.leave st with
            | .error failure => .error failure
            | .ok ran => .ok (.exits ran)
          else .ok (.goes { st with bbp := [], xp := [], count := 0, argp := 0, wasquoted := false })
  else .ok (.goes { st with argp := st.p, wasquoted := false })

/-- What the switch over the character jumps to. -/
inductive Jump
  | addch
  | arg1
  | arg2
  | zero
  | single
  | double
  | escape

def Config.jump (cfg : Config) (st : State) (ch : Byte) : Jump :=
  if ch = blank ∨ ch = tab then
    if st.insingle ∨ st.indouble ∨ cfg.zflag then .addch else .arg2
  else if ch = 0 then
    if cfg.zflag then .zero else .addch
  else if ch = nl then
    if cfg.zflag then .addch else .arg1
  else if ch = squote then
    if st.indouble ∨ cfg.zflag then .addch else .single
  else if ch = dquote then
    if st.insingle ∨ cfg.zflag then .addch else .double
  else if ch = backslash then
    if cfg.zflag ∨ st.insingle ∨ st.indouble then .addch else .escape
  else .addch

/-- The loop over `parse_input`, with the argument lists of the commands that were run.  After a
backslash one call reads a second character. -/
def Config.parseInput (cfg : Config) :
    Bool → State → List Byte → Except Failure (List (List (List Byte)))
  | true, _, [] => .error .backslashAtEOF
  | true, st, ch :: input => do cfg.parseInput false (← cfg.addch st ch) input
  | false, st, [] =>
      if st.p = 0 then cfg.leave st
      else if st.insingle ∨ st.indouble then .error .unterminatedQuote
      else do (← cfg.arg2 st true).andThen cfg.leave
  | false, st, ch :: input =>
      match cfg.jump st ch with
      | .addch => do cfg.parseInput false (← cfg.addch st ch) input
      | .arg2 => do (← cfg.arg2 st false).andThen (cfg.parseInput false · input)
      | .zero => do
          (← cfg.arg2 { st with count := st.count + 1 } false).andThen (cfg.parseInput false · input)
      | .arg1 =>
          if st.insingle ∨ st.indouble then .error .unterminatedQuote
          else do
            (← cfg.arg2 { st with count := st.count + 1 } false).andThen (cfg.parseInput false · input)
      | .single => cfg.parseInput false { st with insingle := !st.insingle, wasquoted := true } input
      | .double => cfg.parseInput false { st with indouble := !st.indouble, wasquoted := true } input
      | .escape => cfg.parseInput true st input

def State.start : State := ⟨[], 0, [], false, false, false, 0, 0, []⟩

/-- The argument lists of all commands that were run, unless xargs exits with an error.  The exit
with status 123, behind commands that returned a status of their own, is no error exit. -/
def Config.xargs (cfg : Config) (input : List Byte) : Except Failure (List (List (List Byte))) :=
  if cfg.nargs = 0 then .error .illegalArgumentCount
  else if cfg.nline = 0 then .error .insufficientSpaceForCommand
  else cfg.parseInput false .start input

end Netbase.Xargs
