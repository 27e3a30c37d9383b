import Netbase.Lib.EditScript
import Netbase.Text.Decimal

/-!
# The note behind an unterminated line

A line without a newline is followed by a note that tells so, which `diff` prints
and `patch` looks for.
-/

namespace Netbase.Unified

open Netbase.Text

/-- `\ No newline at end of file` -/
def noNewline : List Byte :=
  ascii ['\\', ' ', 'N', 'o', ' ', 'n', 'e', 'w', 'l', 'i', 'n', 'e', ' ', 'a', 't', ' ', 'e', 'n',
    'd', ' ', 'o', 'f', ' ', 'f', 'i', 'l', 'e', '\n']

end Netbase.Unified
