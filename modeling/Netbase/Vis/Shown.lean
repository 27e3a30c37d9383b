import Netbase.Vis.Encode

/-!
# What vis lets through

Whatever the source holds, the output is made of graphic characters: white space stands in it
only as far as no flag has it encoded, and of the other control characters only the harmless
ones, if they are asked for.
-/

namespace Netbase.Vis

open Netbase.Text

/-- A byte that may stand in the output. -/
def Shown (flags : Flags) (b : Byte) : Prop :=
  isgraph b = true ∨ b = 32 ∧ test flags VIS_SP = false ∨ b = 9 ∧ test flags VIS_TAB = false ∨
    b = 10 ∧ test flags VIS_NL = false ∨ test flags VIS_SAFE = true ∧ iswsafe b = true

section

variable {flags : Flags} {c nextc b : Byte} {extra : List Byte}

/-- Each way of writing a byte down is made of graphic characters. -/
theorem forms_graph (c : Byte) :
    (octal c).all isgraph = true ∧
      (c &&& 0x7f ≠ 32 →
        (metaForm false c).all isgraph = true ∧ (metaForm true c).all isgraph = true) ∧
      ((cstyle c 0).all (·.all isgraph)) = true ∧
      ((cstyle c (byte '0')).all (·.all isgraph)) = true ∧
      isgraph (xtoa (c &&& 0xf)) = true ∧ isgraph (XTOA (c &&& 0xf)) = true := by
  revert c
  refine forall_byte ?_
  decide +kernel

theorem metaForm_graph (slash : Bool) (other : c &&& 0x7f ≠ 32) :
    (metaForm slash c).all isgraph = true := by
  cases slash with
  | false => exact ((forms_graph c).2.1 other).1
  | true => exact ((forms_graph c).2.1 other).2

theorem cstyle_graph (c nextc : Byte) : ((cstyle c nextc).all (·.all isgraph)) = true := by
  have digit : isoctal (if isoctal nextc then byte '0' else 0) = isoctal nextc := by
    cases isoctal nextc <;> rfl
  have same : cstyle c nextc = cstyle c (if isoctal nextc then byte '0' else 0) := by
    rw [cstyle, cstyle, digit]
  rw [same]
  cases isoctal nextc with
  | false => exact (forms_graph c).2.2.1
  | true => exact (forms_graph c).2.2.2.1

theorem doMbyte_graph (iswextra : Bool) : (doMbyte flags c nextc iswextra).all isgraph = true := by
  unfold doMbyte
  split
  · next escape some_ =>
      split at some_
      · have graph := cstyle_graph c nextc
        rwa [some_, Option.all_some] at graph
      · cases some_
  · split
    · exact (forms_graph c).1
    · next other =>
        refine metaForm_graph _ fun same => other ?_
        simp [same]

theorem doSvis_shown (listed : b ∈ doSvis flags c nextc (makeextralist flags extra)) :
    Shown flags b := by
  unfold doSvis at listed
  dsimp only at listed
  split at listed
  · next raw =>
      obtain rfl := List.mem_singleton.mp listed
      simp only [Bool.and_eq_true, Bool.not_eq_true', Bool.or_eq_true, iswwhite, beq_iff_eq,
        wcschr, Bool.or_eq_false_iff, List.contains_eq_mem, decide_eq_false_iff_not] at raw
      obtain ⟨⟨apart, -⟩, (graph | (rfl | rfl) | rfl) | safe⟩ := raw
      · exact Or.inl graph
      · exact Or.inr (Or.inl ⟨rfl, by_contra fun on => apart (by simp [makeextralist, on])⟩)
      · exact Or.inr (Or.inr (Or.inl ⟨rfl, by_contra fun on => apart (by simp [makeextralist, on])⟩))
      · exact Or.inr (Or.inr (Or.inr (Or.inl
          ⟨rfl, by_contra fun on => apart (by simp [makeextralist, on])⟩)))
      · exact Or.inr (Or.inr (Or.inr (Or.inr safe)))
  · exact Or.inl (List.all_eq_true.mp (doMbyte_graph _) b listed)

theorem getvisfun_shown
    (listed : b ∈ getvisfun flags flags c nextc (makeextralist flags extra)) : Shown flags b := by
  unfold getvisfun at listed
  split at listed
  · unfold doHvis at listed
    split at listed
    · exact doSvis_shown listed
    · refine Or.inl (List.all_eq_true.mp ?_ b listed)
      simp only [List.all_cons, (forms_graph _).2.2.2.2.1]
      rfl
  · split at listed
    · unfold doMvis at listed
      split at listed
      · refine Or.inl (List.all_eq_true.mp ?_ b listed)
        simp only [List.all_cons, (forms_graph _).2.2.2.2.2]
        rfl
      · exact doSvis_shown listed
    · exact doSvis_shown listed

theorem visLoop_mem {f : Byte → Byte → List Byte} {len : Nat} {src : List Byte}
    (listed : b ∈ visLoop f len src) : ∃ c nextc, b ∈ f c nextc := by
  induction len generalizing src with
  | zero => cases listed
  | succ len ih =>
      cases src with
      | nil => cases listed
      | cons c src =>
          rcases List.mem_append.mp listed with here | later
          · exact ⟨c, _, here⟩
          · exact ih later

end

end Netbase.Vis
