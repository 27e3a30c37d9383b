import Mathlib.Data.List.Forall2
import Mathlib.Data.List.Perm.Basic
import Netbase.Lib.KeyJoin

/-!
# Stable arrangements

Records are put in the order of their keys; records of one key keep their
order, or all but the first of them are struck out.  Arrangements of the parts
of a list are put together when the parts are ordered, and one record is
inserted from behind.
-/

namespace Netbase.Lib

/-- How records are compared, and how a record is struck out. -/
structure Marking (α κ : Type*) where
  key : α → κ
  live : α → Bool
  strike : α → α
  strike_live : ∀ a, live (strike a) = false

/-- The first record, when each key is to appear once. -/
def pick {α : Type*} (unique : Bool) (rows : List α) : List α := if unique then rows.take 1 else rows

namespace Marking

variable {α κ : Type*} [LinearOrder κ] (m : Marking α κ) (unique : Bool)

/-- A record is kept as it is, or struck out when each key is to appear once. -/
def Struck (a b : α) : Prop := b = a ∨ unique = true ∧ b = m.strike a

/-- The output holds the records of the input in the order of their keys. -/
structure Arranged (input out : List α) : Prop where
  marked : ∃ marked, List.Forall₂ (m.Struck unique) input marked ∧ marked.Perm out
  ordered : (out.filter m.live).Pairwise (m.key · ≤ m.key ·)
  kept : ∀ k, ofKey m.key k (out.filter m.live) = pick unique (ofKey m.key k input)

variable {m unique}

variable {a : α}

theorem pick_subset {rows : List α} (member : a ∈ pick unique rows) : a ∈ rows := by
  rw [pick] at member
  split at member
  · exact List.mem_of_mem_take member
  · exact member

theorem Arranged.mem_input {input out : List α} (arranged : m.Arranged unique input out)
    (member : a ∈ out) (alive : m.live a = true) : a ∈ input := by
  have found : a ∈ ofKey m.key (m.key a) (out.filter m.live) :=
    List.mem_filter.mpr ⟨List.mem_filter.mpr ⟨member, alive⟩, by simp⟩
  rw [arranged.kept] at found
  exact (List.mem_filter.mp (pick_subset found)).1

theorem Arranged.strict {input out : List α} (arranged : m.Arranged true input out) :
    (out.filter m.live).Pairwise (m.key · < m.key ·) := by
  have once : ∀ k, (ofKey m.key k (out.filter m.live)).length ≤ 1 := fun k => by
    rw [arranged.kept, pick, if_pos rfl]
    exact List.length_take_le 1 _
  have ordered := arranged.ordered
  generalize out.filter m.live = rows at once ordered
  induction rows with
  | nil => exact .nil
  | cons a rows ih =>
      obtain ⟨first, others⟩ := List.pairwise_cons.mp ordered
      refine List.pairwise_cons.mpr ⟨fun b member => ?_, ih (fun k => ?_) others⟩
      · refine (first b member).lt_of_ne fun same => ?_
        have twice := once (m.key a)
        have behind : b ∈ ofKey m.key (m.key a) rows := List.mem_filter.mpr ⟨member, by simp [same]⟩
        have some := List.length_pos_of_mem behind
        rw [ofKey] at twice some
        rw [List.filter_cons_of_pos (by simp), List.length_cons] at twice
        omega
      · have shorter : (ofKey m.key k rows).length ≤ (ofKey m.key k (a :: rows)).length :=
          ((List.sublist_cons_self a rows).filter _).length_le
        exact shorter.trans (once k)

theorem Arranged.length_eq {input out : List α} (arranged : m.Arranged unique input out) :
    out.length = input.length := by
  obtain ⟨marked, struck, perm⟩ := arranged.marked
  rw [← perm.length_eq, struck.length_eq]

omit [LinearOrder κ] in
theorem Struck.refl (a : α) : m.Struck unique a a := Or.inl rfl

theorem arranged_nil : m.Arranged unique [] [] :=
  ⟨⟨[], .nil, .nil⟩, by simp, fun k => by simp [ofKey, pick]⟩

theorem arranged_singleton (alive : m.live a = true) : m.Arranged unique [a] [a] := by
  refine ⟨⟨[a], .cons (Struck.refl a) .nil, .refl _⟩, by simp [alive], fun k => ?_⟩
  by_cases same : m.key a = k <;> simp [ofKey, pick, alive, same]

theorem arranged_equal {first : α} {others : List α} (alive : m.live first = true)
    (alike : ∀ a ∈ others, m.key a = m.key first ∧ m.live a = true) :
    m.Arranged unique (first :: others)
      (first :: others.map fun a => if unique then m.strike a else a) := by
  cases unique with
  | false =>
      have whole : (first :: others).filter m.live = first :: others :=
        List.filter_eq_self.mpr fun a member => by
          rcases List.mem_cons.mp member with rfl | behind
          · exact alive
          · exact (alike a behind).2
      have key : ∀ a ∈ first :: others, m.key a = m.key first := fun a member => by
        rcases List.mem_cons.mp member with rfl | behind
        · rfl
        · exact (alike a behind).1
      have same : (first :: others.map fun a => if false = true then m.strike a else a) =
          first :: others := by simp
      rw [same]
      refine ⟨⟨first :: others, List.forall₂_same.mpr fun a _ => Struck.refl a, .refl _⟩, ?_, ?_⟩
      · rw [whole]
        exact List.pairwise_of_forall_mem_list fun a ha b hb => by rw [key a ha, key b hb]
      · intro k
        rw [whole]
        rfl
  | true =>
      have dead : (others.map fun a => if true = true then m.strike a else a).filter m.live = [] := by
        simp [List.filter_eq_nil_iff, m.strike_live]
      refine ⟨⟨_, .cons (Struck.refl first) ?_, .refl _⟩, ?_, ?_⟩
      · exact List.forall₂_map_right_iff.mpr (List.forall₂_same.mpr fun a _ => Or.inr ⟨rfl, rfl⟩)
      · rw [List.filter_cons_of_pos alive, dead]
        simp
      · intro k
        rw [List.filter_cons_of_pos alive, dead]
        by_cases same : m.key first = k
        · simp [ofKey, pick, same]
        · have none : ofKey m.key k others = [] :=
            ofKey_none fun a member => by rw [(alike a member).1]; exact same
          rw [ofKey] at none
          simp [ofKey, pick, same, none]

/-! ## Parts -/

theorem Arranged.append {input low high : List α} (lower : α → Bool)
    (arrangedLow : m.Arranged unique (input.filter lower) low)
    (arrangedHigh : m.Arranged unique (input.filter (!lower ·)) high)
    (separate : ∀ a ∈ input, ∀ b ∈ input, lower a = true → lower b = false → m.key a < m.key b) :
    m.Arranged unique input (low ++ high) := by
  refine ⟨?_, ?_, ?_⟩
  · obtain ⟨markedLow, struckLow, permLow⟩ := arrangedLow.marked
    obtain ⟨markedHigh, struckHigh, permHigh⟩ := arrangedHigh.marked
    have parts : List.Forall₂ (m.Struck unique) (input.filter lower ++ input.filter (!lower ·))
        (markedLow ++ markedHigh) := List.rel_append struckLow struckHigh
    have split : (input.filter lower ++ input.filter (!lower ·)).Perm input :=
      List.filter_append_perm lower input
    obtain ⟨marked, struck, perm⟩ := List.perm_comp_forall₂ split.symm parts
    exact ⟨marked, struck, perm.trans (permLow.append permHigh)⟩
  · rw [List.filter_append, List.pairwise_append]
    refine ⟨arrangedLow.ordered, arrangedHigh.ordered, fun a ha b hb => ?_⟩
    obtain ⟨inLow, aliveLow⟩ := List.mem_filter.mp ha
    obtain ⟨inHigh, aliveHigh⟩ := List.mem_filter.mp hb
    obtain ⟨memberLow, below⟩ := List.mem_filter.mp (arrangedLow.mem_input inLow aliveLow)
    obtain ⟨memberHigh, above⟩ := List.mem_filter.mp (arrangedHigh.mem_input inHigh aliveHigh)
    exact (separate a memberLow b memberHigh below (by simpa using above)).le
  · intro k
    rw [List.filter_append, ofKey_append, arrangedLow.kept, arrangedHigh.kept]
    by_cases found : ∃ a ∈ input, lower a = true ∧ m.key a = k
    · obtain ⟨a, member, below, rfl⟩ := found
      have none : ofKey m.key (m.key a) (input.filter (!lower ·)) = [] :=
        ofKey_none fun b inHigh same => by
          obtain ⟨memberHigh, above⟩ := List.mem_filter.mp inHigh
          exact (separate a member b memberHigh below (by simpa using above)).ne' same
      have all : ofKey m.key (m.key a) (input.filter lower) = ofKey m.key (m.key a) input := by
        rw [ofKey, ofKey, List.filter_filter]
        refine List.filter_congr fun b memberB => ?_
        cases below' : lower b with
        | true => simp
        | false =>
            have less := separate a member b memberB below below'
            simp [less.ne']
      rw [none, all]
      cases unique <;> simp [pick]
    · have none : ofKey m.key k (input.filter lower) = [] :=
        ofKey_none fun b inLow same => by
          obtain ⟨memberLow, below⟩ := List.mem_filter.mp inLow
          exact found ⟨b, memberLow, below, same⟩
      have all : ofKey m.key k (input.filter (!lower ·)) = ofKey m.key k input := by
        rw [ofKey, ofKey, List.filter_filter]
        refine List.filter_congr fun b memberB => ?_
        cases below : lower b with
        | false => simp
        | true =>
            have other : m.key b ≠ k := fun same => found ⟨b, memberB, below, same⟩
            simp [other]
      rw [none, all]
      cases unique <;> simp [pick]

theorem Arranged.flatten {input : List α} (cls : α → Nat) {outs : Nat → List α}
    (monotone : ∀ a ∈ input, ∀ b ∈ input, cls a < cls b → m.key a < m.key b) (n : Nat)
    (parts : ∀ c < n, m.Arranged unique (input.filter (cls · = c)) (outs c)) :
    m.Arranged unique (input.filter (cls · < n)) ((List.range n).map outs).flatten := by
  induction n with
  | zero => simpa using arranged_nil
  | succ n ih =>
      rw [List.range_succ, List.map_append, List.flatten_append]
      refine Arranged.append (fun a => decide (cls a < n)) ?_ ?_ ?_
      · have same : (input.filter (cls · < n + 1)).filter (fun a => decide (cls a < n)) =
            input.filter (cls · < n) := by
          rw [List.filter_filter]
          refine List.filter_congr fun a _ => ?_
          by_cases below : cls a < n
          · simp [below, Nat.lt_succ_of_lt below]
          · simp [below]
        rw [same]
        exact ih fun c below => parts c (Nat.lt_succ_of_lt below)
      · have same : (input.filter (cls · < n + 1)).filter (fun a => !decide (cls a < n)) =
            input.filter (cls · = n) := by
          rw [List.filter_filter]
          refine List.filter_congr fun a _ => ?_
          by_cases equal : cls a = n
          · simp [equal]
          · have other : ¬(¬cls a < n ∧ cls a < n + 1) := by omega
            simpa [equal] using other
        rw [same]
        simpa using parts n (Nat.lt_succ_self n)
      · intro a ha b hb below above
        refine monotone a (List.mem_filter.mp ha).1 b (List.mem_filter.mp hb).1 ?_
        simp only [decide_eq_true_eq, decide_eq_false_iff_not] at below above
        omega

/-! ## Insertion -/

variable (m unique) in
/-- A record is inserted into a reversed arrangement, behind the live records that are not
above it; a duplicate is struck out and goes below the record it repeats. -/
def insertBack (a : α) : List α → List α
  | [] => [a]
  | t :: rev =>
      if m.live t = true ∧ ¬ m.key a < m.key t then
        if unique = true ∧ m.key a = m.key t then t :: m.strike a :: rev else a :: t :: rev
      else t :: insertBack a rev

variable (m unique) in
/-- The insertion as the live records see it. -/
def insertLive (a : α) : List α → List α
  | [] => [a]
  | t :: rev =>
      if m.key a < m.key t then t :: insertLive a rev
      else if unique = true ∧ m.key a = m.key t then t :: rev else a :: t :: rev

theorem filter_insertBack (alive : m.live a = true) (rev : List α) :
    (m.insertBack unique a rev).filter m.live = m.insertLive unique a (rev.filter m.live) := by
  induction rev with
  | nil => simp [insertBack, insertLive, alive]
  | cons t rev ih =>
      rw [insertBack]
      cases live : m.live t with
      | false => simpa [live] using ih
      | true =>
          rw [List.filter_cons_of_pos live, insertLive]
          by_cases below : m.key a < m.key t
          · simp [below, live, ih]
          · by_cases same : unique = true ∧ m.key a = m.key t
            · rw [if_pos ⟨rfl, below⟩, if_pos same, if_neg below, if_pos same]
              simp [live, m.strike_live]
            · rw [if_pos ⟨rfl, below⟩, if_neg same, if_neg below, if_neg same]
              simp [live, alive]

variable (m unique) in
theorem insertBack_perm (a : α) (rev : List α) :
    ∃ b, m.Struck unique a b ∧ (b :: rev).Perm (m.insertBack unique a rev) := by
  induction rev with
  | nil => exact ⟨a, Or.inl rfl, .refl _⟩
  | cons t rev ih =>
      rw [insertBack]
      split
      · split
        · next same => exact ⟨m.strike a, Or.inr ⟨same.1, rfl⟩, .swap _ _ _⟩
        · exact ⟨a, Or.inl rfl, .refl _⟩
      · obtain ⟨b, struck, perm⟩ := ih
        exact ⟨b, struck, (List.Perm.swap t b rev).trans (perm.cons t)⟩

theorem mem_insertLive {b : α} {rev : List α} (member : b ∈ m.insertLive unique a rev) :
    b = a ∨ b ∈ rev := by
  induction rev with
  | nil => simpa [insertLive] using member
  | cons t rev ih =>
      rw [insertLive] at member
      split at member
      · rcases List.mem_cons.mp member with rfl | behind
        · simp
        · exact (ih behind).imp_right (List.mem_cons_of_mem t)
      · split at member
        · exact Or.inr member
        · simpa using member

theorem insertLive_ordered {rev : List α} (ordered : rev.Pairwise (m.key · ≥ m.key ·)) :
    (m.insertLive unique a rev).Pairwise (m.key · ≥ m.key ·) := by
  induction rev with
  | nil => simp [insertLive]
  | cons t rev ih =>
      obtain ⟨first, others⟩ := List.pairwise_cons.mp ordered
      rw [insertLive]
      split
      · next below =>
          refine List.pairwise_cons.mpr ⟨fun b member => ?_, ih others⟩
          rcases mem_insertLive member with rfl | inside
          · exact below.le
          · exact first b inside
      · next above =>
          split
          · exact ordered
          · refine List.pairwise_cons.mpr ⟨fun b member => ?_, ordered⟩
            rcases List.mem_cons.mp member with rfl | inside
            · exact not_lt.mp above
            · exact (first b inside).trans (not_lt.mp above)

theorem ofKey_insertLive_other {k : κ} (other : m.key a ≠ k) (rev : List α) :
    ofKey m.key k (m.insertLive unique a rev) = ofKey m.key k rev := by
  induction rev with
  | nil => simp [insertLive, ofKey, other]
  | cons t rev ih =>
      simp only [ofKey] at ih ⊢
      rw [insertLive]
      split
      · rw [List.filter_cons, List.filter_cons, ih]
      · split
        · rfl
        · rw [List.filter_cons_of_neg (by simpa using other)]

theorem ofKey_insertLive_same {rev : List α} (ordered : rev.Pairwise (m.key · ≥ m.key ·)) :
    ofKey m.key (m.key a) (m.insertLive unique a rev) =
      if unique = true ∧ ofKey m.key (m.key a) rev ≠ [] then ofKey m.key (m.key a) rev
      else a :: ofKey m.key (m.key a) rev := by
  induction rev with
  | nil => simp [insertLive, ofKey]
  | cons t rev ih =>
      obtain ⟨first, others⟩ := List.pairwise_cons.mp ordered
      rw [insertLive]
      split
      · next below =>
          have skip : ∀ rest, ofKey m.key (m.key a) (t :: rest) = ofKey m.key (m.key a) rest :=
            fun rest => List.filter_cons_of_neg (by simpa using below.ne')
          rw [skip, skip, ih others]
      · next above =>
          by_cases equal : m.key t = m.key a
          · have found : ofKey m.key (m.key a) (t :: rev) = t :: ofKey m.key (m.key a) rev :=
              List.filter_cons_of_pos (by simpa using equal)
            cases unique with
            | true => simp [found, equal]
            | false =>
                rw [if_neg (by simp), if_neg (by simp)]
                exact List.filter_cons_of_pos (by simp)
          · have none : ofKey m.key (m.key a) (t :: rev) = [] := by
              refine ofKey_none fun b member => ?_
              rcases List.mem_cons.mp member with rfl | inside
              · exact equal
              · have below : m.key t < m.key a := (not_lt.mp above).lt_of_ne equal
                exact ((first b inside).trans_lt below).ne
            rw [if_neg (fun both => equal both.2.symm), none, if_neg (by simp)]
            rw [ofKey] at none ⊢
            rw [List.filter_cons_of_pos (by simp), none]

theorem Arranged.insert {input out : List α} (arranged : m.Arranged unique input out)
    (alive : m.live a = true) :
    m.Arranged unique (input ++ [a]) (m.insertBack unique a out.reverse).reverse := by
  have lived : ((m.insertBack unique a out.reverse).reverse).filter m.live =
      (m.insertLive unique a (out.filter m.live).reverse).reverse := by
    rw [List.filter_reverse, filter_insertBack alive, List.filter_reverse]
  have falling : (out.filter m.live).reverse.Pairwise (m.key · ≥ m.key ·) :=
    List.pairwise_reverse.mpr arranged.ordered
  refine ⟨?_, ?_, ?_⟩
  · obtain ⟨marked, struck, perm⟩ := arranged.marked
    obtain ⟨b, struck', perm'⟩ := insertBack_perm m unique a out.reverse
    refine ⟨marked ++ [b], List.rel_append struck (.cons struck' .nil), ?_⟩
    have front : (marked ++ [b]).Perm (b :: out.reverse) :=
      List.perm_append_comm.trans ((perm.trans (List.reverse_perm out).symm).cons b)
    exact (front.trans perm').trans (List.reverse_perm _).symm
  · rw [lived]
    exact List.pairwise_reverse.mpr (insertLive_ordered falling)
  · intro k
    have kept := arranged.kept k
    have reversed (rows : List α) : ofKey m.key k rows.reverse = (ofKey m.key k rows).reverse :=
      List.filter_reverse ..
    rw [lived, reversed, ofKey_append]
    by_cases same : m.key a = k
    · subst same
      have one : ofKey m.key (m.key a) [a] = [a] := ofKey_all (by simp)
      rw [ofKey_insertLive_same falling, reversed, kept, one]
      cases unique with
      | false => simp [pick]
      | true =>
          cases found : ofKey m.key (m.key a) input with
          | nil => simp [pick]
          | cons first others => simp [pick]
    · have none : ofKey m.key k [a] = [] := ofKey_none (by simpa using same)
      rw [ofKey_insertLive_other same, reversed, kept, none, List.append_nil, List.reverse_reverse]

end Marking

end Netbase.Lib
