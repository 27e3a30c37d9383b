import Mathlib.Data.Ordering.Basic

/-!
# Codes with an end mark

Texts are coded symbol by symbol, and each code ends in a mark that sorts below the
codes of all symbols, or above them where the codes reverse the order.  Then the
codes compare as their texts do, or the other way, and what follows counts only
where the texts agree.
-/

namespace Netbase.Lib

def turned (reverse : Bool) (order : Ordering) : Ordering :=
  if reverse then order.swap else order

theorem turned_eq_eq {reverse : Bool} {order : Ordering} :
    turned reverse order = .eq ↔ order = .eq := by
  cases reverse <;> cases order <;> decide

theorem turned_injective {reverse : Bool} {order other : Ordering} :
    turned reverse order = turned reverse other ↔ order = other := by
  cases reverse <;> cases order <;> cases other <;> decide

theorem turned_then (reverse : Bool) (order other : Ordering) :
    turned reverse (order.then other) = (turned reverse order).then (turned reverse other) := by
  cases reverse <;> cases order <;> rfl

variable {α β : Type*} {cmp : α → α → Ordering} {order : β → β → Ordering} {code : α → β}
  {mark : β} {reverse : Bool} {symbol : α → Prop}

/-- The code of a text. -/
def marked (code : α → β) (mark : β) (as : List α) : List β := as.map code ++ [mark]

structure Codes (cmp : α → α → Ordering) (order : β → β → Ordering) (code : α → β) (mark : β)
    (reverse : Bool) (symbol : α → Prop) : Prop where
  symbols : ∀ a b, symbol a → symbol b → order (code a) (code b) = turned reverse (cmp a b)
  first : ∀ a, symbol a → order mark (code a) = turned reverse .lt
  second : ∀ a, symbol a → order (code a) mark = turned reverse .gt
  same : order mark mark = .eq

theorem Codes.compare (codes : Codes cmp order code mark reverse symbol) {as bs : List α}
    (left : ∀ a ∈ as, symbol a) (right : ∀ b ∈ bs, symbol b) (xs ys : List β) :
    (marked code mark as ++ xs).compareLex order (marked code mark bs ++ ys) =
      (turned reverse (as.compareLex cmp bs)).then (xs.compareLex order ys) := by
  have decided : ∀ o : Ordering, o ≠ .eq → ∀ p, (turned reverse o).then p = turned reverse o := by
    cases reverse <;> decide
  unfold marked
  induction as generalizing bs with
  | nil =>
      cases bs with
      | nil =>
          rw [List.map_nil, List.nil_append, List.singleton_append, List.singleton_append,
            List.compareLex_cons_cons, codes.same]
          rw [List.compareLex_nil_nil, turned_eq_eq.mpr rfl]
      | cons b bs =>
          rw [List.map_nil, List.map_cons, List.nil_append, List.singleton_append, List.cons_append,
            List.cons_append, List.compareLex_cons_cons, codes.first b (right b List.mem_cons_self),
            List.compareLex_nil_cons, decided _ (by decide), decided _ (by decide)]
  | cons a as ih =>
      cases bs with
      | nil =>
          rw [List.map_nil, List.map_cons, List.nil_append, List.singleton_append, List.cons_append,
            List.cons_append, List.compareLex_cons_cons, codes.second a (left a List.mem_cons_self),
            List.compareLex_cons_nil, decided _ (by decide), decided _ (by decide)]
      | cons b bs =>
          have rest := ih (fun c member => left c (List.mem_cons_of_mem _ member))
            fun c member => right c (List.mem_cons_of_mem _ member)
          simp only [List.map_cons, List.cons_append, List.compareLex_cons_cons]
          rw [rest, codes.symbols a b (left a List.mem_cons_self) (right b List.mem_cons_self),
            turned_then, Ordering.then_assoc]

end Netbase.Lib
