import Mathlib.Data.List.Basic

/-!
# Conditional items

Items stand for themselves, or open, turn round or close a condition.  Resolving
leaves the items that no condition around them hides.
-/

namespace Netbase.Lib.Conditional

/-- What an item stands for. -/
inductive Mark where
  | text
  | opens (shown : Bool)
  | turns
  | closes
  deriving DecidableEq, Repr

variable {α : Type}

/-- The last condition turned round. -/
def turn : List Bool → List Bool
  | [] => []
  | top :: below => (!top) :: below

/-- The items left; the conditions that are open are given, the last one first. -/
def resolve (mark : α → Mark) : List Bool → List α → List α
  | _, [] => []
  | conditions, item :: items =>
      match mark item with
      | .text =>
          if conditions.all id then item :: resolve mark conditions items
          else resolve mark conditions items
      | .opens shown => resolve mark (shown :: conditions) items
      | .turns => resolve mark (turn conditions) items
      | .closes => resolve mark conditions.tail items

def Texts (mark : α → Mark) (items : List α) : Prop := ∀ item ∈ items, mark item = .text

section

variable {mark : α → Mark} {items others : List α} {opening turning closing : α} {shown : Bool}

theorem resolve_texts (texts : Texts mark items) (conditions : List Bool) (rest : List α) :
    resolve mark conditions (items ++ rest) =
      (if conditions.all id then items else []) ++ resolve mark conditions rest := by
  induction items with
  | nil => simp
  | cons item items ih =>
      rw [List.cons_append, resolve, texts item List.mem_cons_self]
      dsimp only
      rw [ih fun other later => texts other (List.mem_cons_of_mem item later)]
      split <;> rfl

theorem resolve_group (opens : mark opening = .opens shown) (texts : Texts mark items)
    (closes : mark closing = .closes) (rest : List α) :
    resolve mark [] (opening :: (items ++ closing :: rest)) =
      (if shown then items else []) ++ resolve mark [] rest := by
  rw [resolve, opens]
  dsimp only
  rw [resolve_texts texts, resolve, closes]
  simp

theorem resolve_choice (opens : mark opening = .opens shown) (texts : Texts mark items)
    (turns : mark turning = .turns) (texts' : Texts mark others) (closes : mark closing = .closes)
    (rest : List α) :
    resolve mark [] (opening :: (items ++ turning :: (others ++ closing :: rest))) =
      (if shown then items else others) ++ resolve mark [] rest := by
  rw [resolve, opens]
  dsimp only
  rw [resolve_texts texts, resolve, turns]
  dsimp only
  rw [resolve_texts texts', resolve, closes]
  cases shown <;> simp [turn]

end

end Netbase.Lib.Conditional
