import Mathlib.Data.Finset.Sort
import Mathlib.Data.List.Basic

/-!
# Joins on a key

Two lists of rows are joined on keys from a linear order, in increasing order
of the keys: the pairs of rows of one key in the order of the lists, and the
rows whose key is missing on the other side.  A join can be read off from the
front when the rows of the least key stand there.
-/

namespace Netbase.Lib

variable {α β γ κ : Type*} [LinearOrder κ]

def ofKey (key : α → κ) (k : κ) (rows : List α) : List α := rows.filter (key · = k)

/-- What a join does with two rows of one key, and with a row that has no partner. -/
structure JoinRule (α β γ κ : Type*) where
  left : α → κ
  right : β → κ
  paired : α → β → List γ
  leftOnly : α → List γ
  rightOnly : β → List γ

namespace JoinRule

variable (rule : JoinRule α β γ κ)

/-- The keys of both sides in increasing order. -/
def keys (as : List α) (bs : List β) : List κ :=
  (as.map rule.left ++ bs.map rule.right).toFinset.sort (· ≤ ·)

/-- The pairs of rows of one key, in the order of their positions. -/
def pairs (k : κ) (as : List α) (bs : List β) : List γ :=
  (ofKey rule.left k as).flatMap fun a => (ofKey rule.right k bs).flatMap (rule.paired a)

/-- What is written for one key. -/
def group (as : List α) (bs : List β) (k : κ) : List γ :=
  rule.pairs k as bs ++
    (if k ∈ bs.map rule.right then [] else (ofKey rule.left k as).flatMap rule.leftOnly) ++
    (if k ∈ as.map rule.left then [] else (ofKey rule.right k bs).flatMap rule.rightOnly)

/-- The whole join. -/
def join (as : List α) (bs : List β) : List γ := (rule.keys as bs).flatMap (rule.group as bs)

end JoinRule

theorem ofKey_all {key : α → κ} {k : κ} {rows : List α} (all : ∀ r ∈ rows, key r = k) :
    ofKey key k rows = rows :=
  List.filter_eq_self.mpr fun r inside => by simpa using all r inside

theorem ofKey_none {key : α → κ} {k : κ} {rows : List α} (other : ∀ r ∈ rows, key r ≠ k) :
    ofKey key k rows = [] :=
  List.filter_eq_nil_iff.mpr fun r inside => by simpa using other r inside

theorem ofKey_append (key : α → κ) (k : κ) (front rows : List α) :
    ofKey key k (front ++ rows) = ofKey key k front ++ ofKey key k rows :=
  List.filter_append ..

namespace JoinRule

variable {rule : JoinRule α β γ κ}

/-- Rows of one key in front of rows of greater keys. -/
structure Leads (key : α → κ) (k : κ) (front later : List α) : Prop where
  same : ∀ r ∈ front, key r = k
  greater : ∀ r ∈ later, k < key r

theorem Leads.ofKey_eq {key : α → κ} {k : κ} {front later : List α}
    (leads : Leads key k front later) : ofKey key k (front ++ later) = front := by
  rw [ofKey_append, ofKey_all leads.same,
    ofKey_none fun r inside => (leads.greater r inside).ne', List.append_nil]

theorem Leads.ofKey_later {key : α → κ} {k l : κ} {front later : List α}
    (leads : Leads key k front later) (above : k < l) :
    ofKey key l (front ++ later) = ofKey key l later := by
  rw [ofKey_append, ofKey_none fun r inside => leads.same r inside ▸ above.ne, List.nil_append]

theorem Leads.mem_map {key : α → κ} {k : κ} {front later : List α}
    (leads : Leads key k front later) : k ∈ (front ++ later).map key ↔ front ≠ [] := by
  constructor
  · rintro member rfl
    obtain ⟨r, inside, equal⟩ := List.mem_map.mp member
    exact (leads.greater r inside).ne' equal
  · intro some
    obtain ⟨r, rest, rfl⟩ := List.exists_cons_of_ne_nil some
    exact List.mem_map.mpr ⟨r, by simp, leads.same r (by simp)⟩

theorem Leads.mem_map_later {key : α → κ} {k l : κ} {front later : List α}
    (leads : Leads key k front later) (above : k < l) :
    l ∈ (front ++ later).map key ↔ l ∈ later.map key := by
  rw [List.map_append, List.mem_append, or_iff_right]
  rintro member
  obtain ⟨r, inside, rfl⟩ := List.mem_map.mp member
  exact above.ne' (leads.same r inside)

theorem Leads.above {key : α → κ} {k l : κ} {front later : List α}
    (leads : Leads key k front later) (below : l < k) : ∀ r ∈ front ++ later, l < key r := by
  intro r member
  rcases List.mem_append.mp member with inside | behind
  · rwa [leads.same r inside]
  · exact below.trans (leads.greater r behind)

variable {as later : List α} {bs later' : List β} {k : κ}

theorem keys_leads (left : Leads rule.left k as later) (right : Leads rule.right k bs later')
    (some : as ≠ [] ∨ bs ≠ []) :
    rule.keys (as ++ later) (bs ++ later') = k :: rule.keys later later' := by
  have above : ∀ l ∈ (later.map rule.left ++ later'.map rule.right).toFinset, k < l := by
    intro l member
    rw [List.mem_toFinset, List.mem_append, List.mem_map, List.mem_map] at member
    rcases member with ⟨r, inside, rfl⟩ | ⟨r, inside, rfl⟩
    · exact left.greater r inside
    · exact right.greater r inside
  have split : ((as ++ later).map rule.left ++ (bs ++ later').map rule.right).toFinset =
      insert k (later.map rule.left ++ later'.map rule.right).toFinset := by
    ext l
    rw [Finset.mem_insert, List.mem_toFinset, List.mem_toFinset, List.mem_append, List.mem_append]
    constructor
    · intro member
      by_cases equal : l = k
      · exact Or.inl equal
      · right
        rcases member with member | member <;>
          obtain ⟨r, inside, rfl⟩ := List.mem_map.mp member <;>
          rcases List.mem_append.mp inside with front | behind
        · exact absurd (left.same r front) equal
        · exact Or.inl (List.mem_map_of_mem behind)
        · exact absurd (right.same r front) equal
        · exact Or.inr (List.mem_map_of_mem behind)
    · rintro (rfl | member)
      · exact some.imp left.mem_map.mpr right.mem_map.mpr
      · have greater := above l (by simpa using member)
        exact member.imp (left.mem_map_later greater).mpr (right.mem_map_later greater).mpr
  rw [keys, split, Finset.sort_insert]
  · rfl
  · exact fun l member => (above l member).le
  · exact fun member => lt_irrefl k (above k member)

theorem mem_keys {l : κ} : l ∈ rule.keys later later' ↔
    l ∈ later.map rule.left ∨ l ∈ later'.map rule.right := by
  rw [keys, Finset.mem_sort, List.mem_toFinset, List.mem_append]

theorem join_leads (left : Leads rule.left k as later) (right : Leads rule.right k bs later')
    (some : as ≠ [] ∨ bs ≠ []) :
    rule.join (as ++ later) (bs ++ later') =
      rule.group (as ++ later) (bs ++ later') k ++ rule.join later later' := by
  rw [join, keys_leads left right some, List.flatMap_cons, join]
  congr 1
  refine List.flatMap_congr fun l member => ?_
  have above : k < l := by
    rcases mem_keys.mp member with member | member <;>
      obtain ⟨r, inside, rfl⟩ := List.mem_map.mp member
    · exact left.greater r inside
    · exact right.greater r inside
  simp only [group, pairs, left.ofKey_later above, right.ofKey_later above,
    left.mem_map_later above, right.mem_map_later above]

theorem join_both (rule : JoinRule α β γ κ) (left : Leads rule.left k as later)
    (right : Leads rule.right k bs later')
    (some : as ≠ []) (some' : bs ≠ []) :
    rule.join (as ++ later) (bs ++ later') =
      (as.flatMap fun a => bs.flatMap (rule.paired a)) ++ rule.join later later' := by
  rw [join_leads left right (Or.inl some), group, pairs, left.ofKey_eq, right.ofKey_eq,
    if_pos (left.mem_map.mpr some), if_pos (right.mem_map.mpr some'), List.append_nil,
    List.append_nil]

theorem join_left (rule : JoinRule α β γ κ) (left : Leads rule.left k as later)
    (right : ∀ r ∈ later', k < rule.right r)
    (some : as ≠ []) :
    rule.join (as ++ later) later' = as.flatMap rule.leftOnly ++ rule.join later later' := by
  have none : Leads rule.right k [] later' := ⟨by simp, right⟩
  have whole := join_leads left none (Or.inl some)
  rw [group, pairs, left.ofKey_eq, none.ofKey_eq, if_pos (left.mem_map.mpr some),
    if_neg (fun member => none.mem_map.mp member rfl)] at whole
  have unpaired : (as.flatMap fun _ => ([] : List γ)) = [] := by
    simp [List.flatMap_eq_nil_iff]
  simpa [unpaired] using whole

theorem join_right (rule : JoinRule α β γ κ) (left : ∀ r ∈ later, k < rule.left r)
    (right : Leads rule.right k bs later')
    (some : bs ≠ []) :
    rule.join later (bs ++ later') = bs.flatMap rule.rightOnly ++ rule.join later later' := by
  have none : Leads rule.left k [] later := ⟨by simp, left⟩
  have whole := join_leads none right (Or.inr some)
  rw [group, pairs, none.ofKey_eq, right.ofKey_eq, if_pos (right.mem_map.mpr some),
    if_neg (fun member => none.mem_map.mp member rfl)] at whole
  simpa using whole

/-- Without partners and without anything to write for a single row nothing is written. -/
theorem join_nil_right (silent : ∀ a, rule.leftOnly a = []) (as : List α) :
    rule.join as [] = [] := by
  have each : ∀ k, rule.group as [] k = [] := by
    intro k
    simp [group, pairs, ofKey, silent]
  simp [join, each]

theorem join_nil_left (silent : ∀ b, rule.rightOnly b = []) (bs : List β) :
    rule.join [] bs = [] := by
  have each : ∀ k, rule.group [] bs k = [] := by
    intro k
    simp [group, pairs, ofKey, silent]
  simp [join, each]

end JoinRule

end Netbase.Lib
