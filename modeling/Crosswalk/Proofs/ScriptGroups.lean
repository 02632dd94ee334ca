import Crosswalk.Proofs.ScriptShapes
import Mathlib.Data.List.Forall2

/-!
Where types are put into parentheses. A choice within an intersection is grouped, and so is an array
element with an operator; all that is joined by operators keeps the parts that it was joined from.
-/

namespace Crosswalk.TypeScript

open List
open Target.TypeScript (needsGrouping)
open String (ofList)

variable {ok : Char → Bool} {as bs cs e : List Char} {us vs : List (List Char)}

/-! ### Parentheses -/

theorem fragment_parens (h : Balanced ok cs) : Fragment isAtomChar ('(' :: (cs ++ [')'])) :=
  .group .paren (h.mono fun _ _ => rfl)

/-- A member of an intersection as it is written. -/
def grouped (cs : List Char) : List Char :=
  if 1 < (splitTypes '|' cs).length then '(' :: (cs ++ [')']) else cs

theorem grouped_eq_self (h : Fragment isMeetChar cs) : grouped cs = cs := by
  have hsplit : splitTypes '|' cs = [cs] := h.splitTopNonempty_eq rfl
  rw [grouped, hsplit, if_neg (by simp)]

theorem grouped_choice (hus : ∀ u ∈ us, Fragment isMeetChar u) (hlength : 2 ≤ us.length) :
    grouped ([' ', '|', ' '].intercalate us) =
      '(' :: ([' ', '|', ' '].intercalate us ++ [')']) := by
  rw [grouped, splitTypes_choice hus, if_pos (by omega)]

/-! ### Intersections -/

/-- The members that an expression adds to an intersection. -/
structure Meets (e : List Char) (vs : List (List Char)) : Prop where
  nonempty : vs ≠ []
  grouped_eq : grouped e = [' ', '&', ' '].intercalate (vs.map grouped)
  atoms : ∀ v ∈ vs, Fragment isAtomChar (grouped v)

theorem intersect_eq (a b : List Char) :
    Target.TypeScript.intersect (ofList a) (ofList b) =
      ofList ([' ', '&', ' '].intercalate [grouped a, grouped b]) := by
  have hgrouped (cs : List Char) :
      (if needsGrouping ['|'] (ofList cs) then "(" ++ ofList cs ++ ")"
        else ofList cs) = ofList (grouped cs) := by
    rw [needsGrouping, String.toList_ofList, grouped, splitTypes]
    by_cases hlength : 1 < (splitTopNonempty everyOpener ['|'] cs).length
    · rw [if_pos (by simpa using hlength), if_pos hlength, ← String.toList_inj]
      simp
    · rw [if_neg (by simpa using hlength), if_neg hlength]
  rw [Target.TypeScript.intersect]
  simp only [hgrouped]
  rw [← String.toList_inj]
  simp

theorem Meets.intercalate_ne (h : Meets e vs) : vs.map grouped ≠ [] := by simpa using h.nonempty

/-- Joining two expressions joins their members. -/
theorem Meets.intersect {a b : List Char} (ha : Meets a us) (hb : Meets b vs) :
    Meets ([' ', '&', ' '].intercalate ((us ++ vs).map grouped)) (us ++ vs) where
  nonempty := by simp [ha.nonempty]
  grouped_eq := by
    refine grouped_eq_self (fragment_meet ?_ (by simp [ha.nonempty]))
    exact forall_mem_map.mpr (forall_mem_append.mpr ⟨ha.atoms, hb.atoms⟩)
  atoms := forall_mem_append.mpr ⟨ha.atoms, hb.atoms⟩

theorem Meets.intersect_eq {a b : List Char} (ha : Meets a us) (hb : Meets b vs) :
    Target.TypeScript.intersect (ofList a) (ofList b) =
      ofList ([' ', '&', ' '].intercalate ((us ++ vs).map grouped)) := by
  rw [TypeScript.intersect_eq, intercalate_cons_cons, intercalate_singleton, ha.grouped_eq,
    hb.grouped_eq, map_append, intercalate_append ha.intercalate_ne hb.intercalate_ne,
    append_assoc]

/-- Joining expressions from the left joins the members of all of them. -/
theorem foldl_intersect {a b : List Char} {es : List (List Char)} {vss : List (List (List Char))}
    (ha : Meets a us) (hb : Meets b vs) (hes : Forall₂ Meets es vss) :
    ((b :: es).map ofList).foldl Target.TypeScript.intersect (ofList a) =
      ofList ([' ', '&', ' '].intercalate ((us ++ vs ++ vss.flatten).map grouped)) := by
  induction hes generalizing a b us vs with
  | nil => simp [ha.intersect_eq hb]
  | @cons e ws es vss hws _ ih =>
    rw [map_cons, foldl_cons, ha.intersect_eq hb, ih (ha.intersect hb) hws]
    simp

/-! ### Array elements -/

theorem joined_meet (hvs : ∀ v ∈ vs, Fragment isAtomChar v) (hne : vs ≠ []) :
    Joined isAtomChar ['|', '&'] vs ([' ', '&', ' '].intercalate vs) := by
  have hspace : ∀ c ∈ [' '], c = ' ' := by simp
  exact .intercalate hspace hspace (by decide) (fun v hv => (hvs v hv).toSegment) hne

theorem exists_joined_choice (hus : ∀ u ∈ us, ∃ vs, Joined isAtomChar ['|', '&'] vs u)
    (hne : us ≠ []) :
    ∃ vs, Joined isAtomChar ['|', '&'] vs ([' ', '|', ' '].intercalate us) := by
  refine forall_intercalate (P := fun e => ∃ vs, Joined isAtomChar ['|', '&'] vs e) ?_ hus hne
  rintro u v ⟨vs, hvs⟩ ⟨ws, hws⟩
  have hspace : ∀ c ∈ [' '], c = ' ' := by simp
  exact ⟨vs ++ ws, hvs.append hws hspace hspace (by decide)⟩

/-- The element of an array is put into parentheses unless it is an atom. -/
theorem exists_element (hj : Joined isAtomChar ['|', '&'] vs e) (hf : Fragment isChoiceChar e) :
    ∃ x, Target.TypeScript.array (ofList e) = ofList (x ++ ['[', ']']) ∧
      Fragment isAtomChar x ∧ (x = e ∨ x = '(' :: (e ++ [')'])) := by
  have hsplit := hj.splitTopNonempty_eq rfl
  rw [Target.TypeScript.array, needsGrouping, String.toList_ofList, hsplit]
  split
  · refine ⟨'(' :: (e ++ [')']), ?_, fragment_parens hf.balanced, .inr rfl⟩
    rw [← String.toList_inj]
    simp
  · rename_i hgrouped
    have hlength : vs.length ≤ 1 := by
      simp only [Bool.or_eq_true, decide_eq_true_eq, not_or] at hgrouped
      omega
    refine ⟨e, ?_, ?_, .inl rfl⟩
    · rw [← String.toList_inj]
      simp
    · cases hj with
      | single hu => exact ⟨hu, hf.word⟩
      | cons _ _ _ _ hrest =>
        cases hrest with
        | single _ | cons _ _ _ _ _ => simp at hlength

end Crosswalk.TypeScript
