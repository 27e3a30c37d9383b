import Netbase.Xargs.Input

/-!
# The arguments an input stands for

Tokens are what lies between separators, cut without regard to buffers or
commands; a token is an argument when it has bytes or was quoted.
-/

namespace Netbase.Xargs

open Netbase.Text

structure Token where
  bytes : List Byte
  quoted : Bool
  deriving DecidableEq

def Token.empty : Token := ⟨[], false⟩

def Token.add (t : Token) (c : Byte) : Token := { t with bytes := t.bytes ++ [c] }

def Token.mark (t : Token) : Token := { t with quoted := true }

def Token.IsArg (t : Token) : Prop := t.bytes ≠ [] ∨ t.quoted = true

instance (t : Token) : Decidable t.IsArg := inferInstanceAs (Decidable (_ ∨ _))

inductive Quote
  | single
  | double
  deriving DecidableEq

def Quote.byte : Quote → Byte
  | .single => squote
  | .double => dquote

/-- What the next character is read under. -/
inductive Quoting
  | plain
  | quoted (quote : Quote)
  | escaped
  deriving DecidableEq

/-- How an input ends: with a last token, inside quotes, or in an error. -/
inductive Ending
  | clean (last : Token)
  | openQuote
  | broken
  deriving DecidableEq

def Token.before (t : Token) (rest : List Token × Ending) : List Token × Ending :=
  (t :: rest.1, rest.2)

def Token.ending (t : Token) : Quoting → Ending
  | .plain => .clean t
  | .quoted _ => .openQuote
  | .escaped => .broken

def lex (zflag : Bool) : Quoting → Token → List Byte → List Token × Ending
  | quoting, t, [] => ([], t.ending quoting)
  | quoting, t, c :: rest =>
      if zflag then
        if c = 0 then t.before (lex zflag quoting .empty rest)
        else lex zflag quoting (t.add c) rest
      else
        match quoting with
        | .escaped => lex zflag .plain (t.add c) rest
        | .quoted quote =>
            if c = nl then ([], .broken)
            else if c = quote.byte then lex zflag .plain t.mark rest
            else lex zflag (.quoted quote) (t.add c) rest
        | .plain =>
            if c = blank ∨ c = tab ∨ c = nl then t.before (lex zflag .plain .empty rest)
            else if c = squote then lex zflag (.quoted .single) t.mark rest
            else if c = dquote then lex zflag (.quoted .double) t.mark rest
            else if c = backslash then lex zflag .escaped t rest
            else lex zflag .plain (t.add c) rest

/-- Whether an argument is the end-of-file string; the empty one stands for none. -/
def Config.IsEof (cfg : Config) (t : Token) : Prop := cfg.eofstr ≠ [] ∧ t.bytes = cfg.eofstr

instance (cfg : Config) (t : Token) : Decidable (cfg.IsEof t) := inferInstanceAs (Decidable (_ ∧ _))

/-- The arguments before the end-of-file string, if the input has a token list up to there. -/
def Config.wanted (cfg : Config) : List Token → Ending → Option (List (List Byte))
  | t :: ts, ending =>
      if t.IsArg then
        if cfg.IsEof t then some []
        else (cfg.wanted ts ending).map (t.bytes :: ·)
      else cfg.wanted ts ending
  | [], .clean t => if t.IsArg ∧ ¬cfg.IsEof t then some [t.bytes] else some []
  | [], _ => none

def Config.arguments (cfg : Config) (input : List Byte) : Option (List (List Byte)) :=
  let (ts, ending) := lex cfg.zflag .plain .empty input
  cfg.wanted ts ending

/-- A list within the limits: of -n, and with the fixed words of -s. -/
def Config.Within (cfg : Config) (args : List (List Byte)) : Prop :=
  args.length ≤ cfg.nargs ∧ space cfg.words + space args ≤ cfg.size

/-- The lists hold what the input asks for, in order, each within the limits. -/
def Config.Delivers (cfg : Config) (input : List Byte) (lists : List (List (List Byte))) : Prop :=
  (∀ args ∈ lists, cfg.Within args) ∧ cfg.arguments input = some lists.flatten

/-- The batch an argument comes to: it is added, or starts a new one when there is no room. -/
def Config.join (cfg : Config) (batch : List (List Byte)) (t : Token) : List (List Byte) :=
  if space batch + t.bytes.length < cfg.nline then batch ++ [t.bytes] else [t.bytes]

/-- What is left of a batch behind a separator. -/
def Config.settle (cfg : Config) (batch : List (List Byte)) : List (List Byte) :=
  if batch.length = cfg.nargs ∨ cfg.nline ≤ space batch ∨ cfg.xflag = true then [] else batch

def Config.after (cfg : Config) (batch : List (List Byte)) (t : Token) : List (List Byte) :=
  cfg.settle (if t.IsArg then cfg.join batch t else batch)

/-- What an argument must be to arrive: without NUL, and in a batch that fits its words. -/
def Config.Arrives (cfg : Config) (batch : List (List Byte)) (t : Token) : Prop :=
  t.IsArg → 0 ∉ t.bytes ∧ space cfg.words + space (cfg.join batch t) ≤ cfg.size

/-- The condition under which the arguments arrive.  Where a token is taken for the end-of-file
string, no argument may be asked for any more; where the input ends with nothing collected, there
may be no quotes. -/
def Config.Meets (cfg : Config) : List (List Byte) → List Token → Ending → Prop
  | batch, t :: ts, ending =>
      if cfg.foundeof t.bytes then cfg.wanted (t :: ts) ending = some []
      else cfg.Arrives batch t ∧ cfg.Meets (cfg.after batch t) ts ending
  | batch, [], .clean t =>
      if batch = [] ∧ t.bytes = [] then t.quoted = false
      else if cfg.foundeof t.bytes then cfg.wanted [] (.clean t) = some []
      else cfg.Arrives batch t
  | _, [], _ => False

/-- Comparing as many bytes as a string has finds it equal to itself. -/
theorem strncmp_self (s : List Byte) (n : Nat) : strncmp s s n = 0 := by
  induction n generalizing s with
  | zero => rfl
  | succ n ih =>
      simp only [strncmp, ne_eq, not_true_eq_false, if_false]
      split
      · rfl
      · exact ih s.tail

variable {t : Token}

theorem Config.foundeof_of_isEof (cfg : Config) (eof : cfg.IsEof t) :
    cfg.foundeof t.bytes = true := by
  obtain ⟨nonempty, same⟩ := eof
  simp [Config.foundeof, same, nonempty, strncmp_self]

/-- An argument the code goes on behind comes first in what is wanted. -/
theorem Config.wanted_cons (cfg : Config) (ts : List Token) (ending : Ending) (arg : t.IsArg)
    (on : cfg.foundeof t.bytes = false) :
    cfg.wanted (t :: ts) ending = (cfg.wanted ts ending).map (t.bytes :: ·) := by
  have other : ¬cfg.IsEof t := fun eof => by simp [cfg.foundeof_of_isEof eof] at on
  simp [Config.wanted, arg, other]

theorem Config.wanted_skip (cfg : Config) (ts : List Token) (ending : Ending) (none : ¬t.IsArg) :
    cfg.wanted (t :: ts) ending = cfg.wanted ts ending := by
  simp [Config.wanted, none]

theorem Config.wanted_last (cfg : Config) (arg : t.IsArg) (on : cfg.foundeof t.bytes = false) :
    cfg.wanted [] (.clean t) = some [t.bytes] := by
  have other : ¬cfg.IsEof t := fun eof => by simp [cfg.foundeof_of_isEof eof] at on
  simp [Config.wanted, arg, other]

theorem Config.wanted_last_skip (cfg : Config) (none : ¬t.IsArg) :
    cfg.wanted [] (.clean t) = some [] := by
  simp [Config.wanted, none]

end Netbase.Xargs
