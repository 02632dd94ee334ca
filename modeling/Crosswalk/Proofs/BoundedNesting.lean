import Crosswalk.Proofs.DeepGroups
import Crosswalk.Proofs.MatchingClosers

/-!
Nesting of a text whose deep groups are cut off. The text may be misnested and may end within a
literal or a group. Main statement: what is left is at most one level deeper than the limit, is not
changed by cutting again, and is the text itself if nothing is cut off.
-/

namespace Crosswalk

open List

variable {limit n : Nat} {s : Scan} {c : Char} {cs us : List Char} {p q : Option Char}

/-! ### Steps over a document -/

/-- A character that opens no group leaves each depth or lowers it. -/
theorem get_step_le (hopens : ¬(s.mode = .code ∧ c ∈ documentOpeners)) (x : Delimiter) :
    (s.step documentOpeners p c).depths.get x ≤ s.depths.get x := by
  by_cases ho : s.mode = .code ∧ c = x.opener
  · have hx : x.opener ∉ documentOpeners := fun h => hopens ⟨ho.1, ho.2 ▸ h⟩
    obtain ⟨hmode, rfl⟩ := ho
    have hquote : isQuote x.opener = false := by cases x <;> rfl
    simp [Scan.step, hmode, hquote, x.ofOpener?_opener, hx]
  · by_cases hcount : s.Counts x p c
    · by_cases hx : x.opener ∈ documentOpeners
      · rw [Scan.get_step_closer hcount hx]
        exact Nat.sub_le _ _
      · obtain ⟨hmode, rfl, -⟩ := hcount
        have hquote : isQuote x.closer = false := by cases x <;> rfl
        have hopener : Delimiter.ofOpener? x.closer = none := by cases x <;> rfl
        have hnone : Scan.closes? documentOpeners p x.closer = none := by
          rw [Option.eq_none_iff_forall_ne_some]
          intro d hd
          obtain ⟨heq, hd, -⟩ := Scan.closes?_eq_some_iff.mp hd
          have hxd : x = d := by cases x <;> cases d <;> first | rfl | cases heq
          exact hx (hxd ▸ hd)
        simp [Scan.step, hmode, hquote, hopener, hnone]
    · rw [Scan.get_step_other ho hcount]

/-- A step that opens no deep group stays within the limit. -/
theorem total_step_le (hs : s.depths.total ≤ limit) (hc : ¬OpensDeep limit s c) :
    (s.step documentOpeners p c).depths.total ≤ limit := by
  by_cases hopens : s.mode = .code ∧ c ∈ documentOpeners
  · have hlt : s.depths.total < limit := Nat.lt_of_not_le fun h => hc ⟨hopens.1, hopens.2, h⟩
    obtain ⟨d, hd, rfl⟩ : ∃ d : Delimiter, d.opener ∈ documentOpeners ∧ c = d.opener := by
      have hmem := hopens.2
      simp only [documentOpeners, mem_cons, not_mem_nil, or_false] at hmem
      rcases hmem with rfl | rfl
      · exact ⟨.brace, by decide, rfl⟩
      · exact ⟨.bracket, by decide, rfl⟩
    rw [Scan.step_opener hopens.1 hd, Depths.total_modify]
    exact hlt
  · have hget := get_step_le (p := p) hopens
    have hbrace := hget .brace
    have hparen := hget .paren
    have hbracket := hget .bracket
    have hangle := hget .angle
    simp only [Depths.get] at hbrace hparen hbracket hangle
    simp only [Depths.total] at hs ⊢
    omega

/-! ### Texts and what is left of them -/

/-- Every text is cut in one way or another; a group that is cut off makes the rest shorter. -/
theorem exists_cutTo (limit : Nat) (s : Scan) (cs : List Char) : ∃ us n, CutTo limit s cs us n := by
  induction hlength : cs.length using Nat.strong_induction_on generalizing s cs with
  | _ length ih =>
    cases cs with
    | nil => exact ⟨[], 0, .nil⟩
    | cons c cs =>
      have hlt : cs.length < length := by simp [← hlength]
      by_cases hc : OpensDeep limit s c
      · have hrest : (cs.drop ((closer? (c :: cs)).getD cs.length)).length < length := by
          rw [length_drop]
          omega
        obtain ⟨us, n, h⟩ := ih _ hrest s _ rfl
        exact ⟨_, _, .cut hc h⟩
      · obtain ⟨us, n, h⟩ := ih _ hlt (s.step documentOpeners none c) cs rfl
        exact ⟨_, _, .keep hc h⟩

namespace CutTo

theorem step_brace (hs : s.mode = .code) :
    s.step documentOpeners p '{' = { s with depths := s.depths.modify (· + 1) .brace } :=
  Scan.step_opener hs (d := .brace) (by decide)

/-- The braces that stand for a group leave the walk as it was. -/
theorem step_braces (hs : s.mode = .code) :
    (s.step documentOpeners p '{').step documentOpeners q '}' = s := by
  have hclose (t : Scan) (ht : t.mode = .code) :
      t.step documentOpeners none '}' = { t with depths := t.depths.modify (· - 1) .brace } :=
    Scan.step_closer ht (by simp) (d := .brace) (by decide)
  rw [step_brace hs, Scan.step_document q none,
    hclose { s with depths := s.depths.modify (· + 1) .brace } hs]
  simp only [Depths.modify_pred_succ]

/-- What is kept stays within the limit, and only the braces that stand for a group go beyond it. -/
theorem total_run_le (h : CutTo limit s cs us n) (hs : s.depths.total ≤ limit) (i : Nat) :
    (s.run documentOpeners p (us.take i)).depths.total ≤ limit + 1 := by
  induction h generalizing i p with
  | nil => simpa [Scan.run] using Nat.le_succ_of_le hs
  | keep hc _ ih =>
    cases i with
    | zero => exact Nat.le_succ_of_le hs
    | succ i =>
      rw [take_succ_cons, Scan.run, Scan.step_document p none]
      exact ih (total_step_le hs hc) i
  | @cut s c cs us n hc _ ih =>
    cases i with
    | zero => exact Nat.le_succ_of_le hs
    | succ i =>
      cases i with
      | zero =>
        change (s.step documentOpeners p '{').depths.total ≤ _
        rw [step_brace hc.1, Depths.total_modify]
        exact Nat.succ_le_succ hs
      | succ i =>
        rw [take_succ_cons, take_succ_cons, Scan.run, Scan.run, step_braces hc.1]
        exact ih hs i

/-- What is left is cut in the same places, to the same text. -/
theorem again (h : CutTo limit s cs us n) : CutTo limit s us us n := by
  induction h with
  | nil => exact .nil
  | keep hc _ ih => exact .keep hc ih
  | @cut s c cs us n hc _ ih => exact .cut ⟨hc.1, by decide, hc.2.2⟩ ih

/-- Where nothing is cut off the text is kept, and it never goes beyond the limit. -/
theorem of_zero (h : CutTo limit s cs us 0) (hs : s.depths.total ≤ limit) :
    us = cs ∧ ∀ p i, (s.run documentOpeners p (cs.take i)).depths.total ≤ limit := by
  generalize hn : 0 = n at h
  induction h with
  | nil => exact ⟨rfl, fun p i => by simpa [Scan.run] using hs⟩
  | keep hc _ ih =>
    obtain ⟨rfl, hrun⟩ := ih (total_step_le hs hc) hn
    refine ⟨rfl, fun p i => ?_⟩
    cases i with
    | zero => exact hs
    | succ i =>
      rw [take_succ_cons, Scan.run, Scan.step_document p none]
      exact hrun _ i
  | cut => cases hn

end CutTo

/-! ### The scanner over what is left -/

theorem total_after_le {bound : Nat} (h : ∀ i, (scanTo documentOpeners cs i).depths.total ≤ bound)
    (k : Nat) :
    ((Scanner.onText documentOpeners cs).after k).scan.depths.total ≤ bound := by
  rw [(Scanner.stands_after documentOpeners cs k).scan]
  exact h _

/-- Cutting off deep groups bounds every text. A scanner over what is left is never deeper than one
level beyond the limit, cutting again changes neither the text nor the number of groups, and if that
number is zero the text is as it was, and never deeper than the limit. -/
theorem collapseDeep_bounds (limit : Nat) (cs : List Char) :
    (∀ k, ((Scanner.onText ['{', '[']
      (collapseDeep ['{', '['] ['{', '}'] limit cs).1).after k).scan.depths.total ≤
      limit + 1) ∧
    collapseDeep ['{', '['] ['{', '}'] limit (collapseDeep ['{', '['] ['{', '}'] limit cs).1 =
      collapseDeep ['{', '['] ['{', '}'] limit cs ∧
    ((collapseDeep ['{', '['] ['{', '}'] limit cs).2 = 0 →
      (collapseDeep ['{', '['] ['{', '}'] limit cs).1 = cs ∧
        ∀ k, ((Scanner.onText ['{', '['] cs).after k).scan.depths.total ≤ limit) := by
  obtain ⟨us, n, h⟩ := exists_cutTo limit {} cs
  have hstart : ({} : Scan).depths.total ≤ limit := Nat.zero_le _
  have heq : collapseDeep ['{', '['] ['{', '}'] limit cs = (us, n) := by
    simpa [collapseDeep, documentOpeners] using h.collapseFrom_eq [] 0 none
  have hagain : collapseDeep ['{', '['] ['{', '}'] limit us = (us, n) := by
    simpa [collapseDeep, documentOpeners] using h.again.collapseFrom_eq [] 0 none
  rw [heq]
  refine ⟨total_after_le fun i => h.total_run_le hstart i, hagain, ?_⟩
  rintro rfl
  obtain ⟨rfl, hrun⟩ := h.of_zero hstart
  exact ⟨rfl, total_after_le fun i => hrun none i⟩

/-- A stray closer, misnested groups, and a literal that never ends with an opener in it. -/
theorem collapseDeep_misnested :
    (collapseDeep ['{', '['] ['{', '}'] 2 "] [\x7b]\x7d \"\x7b".toList).2 = 0 ∧
      (collapseDeep ['{', '['] ['{', '}'] 2 "] [\x7b]\x7d \"\x7b".toList).1 =
        "] [\x7b]\x7d \"\x7b".toList ∧
      ∀ k, ((Scanner.onText ['{', '['] "] [\x7b]\x7d \"\x7b".toList).after k).scan.depths.total ≤
        2 :=
  have hcount : (collapseDeep ['{', '['] ['{', '}'] 2 "] [\x7b]\x7d \"\x7b".toList).2 = 0 := by
    decide
  ⟨hcount, (collapseDeep_bounds 2 "] [\x7b]\x7d \"\x7b".toList).2.2 hcount⟩

end Crosswalk
