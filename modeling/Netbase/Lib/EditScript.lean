import Mathlib.Data.List.Basic

/-!
# Edit scripts

A script is a list of blocks: items that are kept, and a change behind them.  Its
old side is what it reads, its new side what it writes.
-/

namespace Netbase.Lib.EditScript

variable {α : Type}

/-- Items that are kept, and a change behind them. -/
@[ext]
structure Block (α : Type) where
  kept : List α
  deleted : List α
  inserted : List α

namespace Block

def old (block : Block α) : List α := block.kept ++ block.deleted

def new (block : Block α) : List α := block.kept ++ block.inserted

/-- A block without a change. -/
def Idle (block : Block α) : Prop := block.deleted = [] ∧ block.inserted = []

instance (block : Block α) : Decidable block.Idle :=
  decidable_of_iff (block.deleted.isEmpty ∧ block.inserted.isEmpty) (by simp [Idle])

end Block

end Netbase.Lib.EditScript
