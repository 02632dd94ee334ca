import Crosswalk.Proofs.ReadBack
import Crosswalk.Proofs.ScriptShapes

/-!
String literals that are read back. A quote and a backslash are written behind a backslash, and the
two are resolved one after the other. Main statement: reading undoes writing, for one text and for
the members of an enumeration, also where these are joined by bars and split again.
-/

namespace Crosswalk.Literal

open List
open Json (stringText)

variable {s : String} {ss : List String}

/-- Texts that are written without the escape of a control character. -/
def IsPrintable (s : String) : Prop := ∀ c ∈ s.toList, 0x20 ≤ c.toNat

instance (s : String) : Decidable (IsPrintable s) := inferInstanceAs (Decidable (∀ c ∈ s.toList, _))

theorem IsPrintable.isWritable (h : IsPrintable s) : ∀ c ∈ s.toList, isWritable c :=
  fun c hc => decide_eq_true (h c hc)

theorem read?_stringText (h : IsPrintable s) :
    read? (stringText s).toList = .ok (some (.text s)) := by
  rw [stringText, String.toList_ofList, read?_stringChars h.isWritable, String.ofList_toList]

/-- Texts that are written one by one are read as an enumeration of them. -/
theorem enumeration?_stringText (hss : ∀ s ∈ ss, IsPrintable s) (hne : ss ≠ []) :
    enumeration? (ss.map fun s => (stringText s).toList) = .ok (some (ss.map .text)) := by
  refine enumeration?_texts hne ?_
  rw [mapM_map]
  refine mapM_eq_map fun s hs => ?_
  rw [Function.comp_apply, read?_stringText (hss s hs)]

/-- A bar within a literal does not split. -/
theorem splitTop_stringText (hss : ∀ s ∈ ss, IsPrintable s) (hne : ss ≠ []) :
    splitTop everyOpener ['|']
        ([' ', '|', ' '].intercalate (ss.map fun s => (stringText s).toList)) =
      ss.map fun s => (stringText s).toList := by
  have hpieces : ∀ u ∈ ss.map fun s => (stringText s).toList, Piece everyOpener isAtomChar u := by
    refine forall_mem_map.mpr fun s hs => ?_
    rw [stringText, String.toList_ofList]
    exact (TypeScript.fragment_stringChars (hss s hs).isWritable).toSegment
  have hspace : ∀ c ∈ [' '], c = ' ' := by simp
  have hnone : ∀ c ∈ ([] : List Char), c = ' ' := by simp
  have hrow := Row.intercalate hspace hspace (mem_singleton_self '|') hpieces (by simpa using hne)
  have hsplit := hrow.splitFrom_eq (p := none) (separates_singleton rfl rfl) hnone hnone (by simp)
  rw [append_nil] at hsplit
  -- No part is empty, so none is dropped at the end.
  have hlast : ∀ u ∈ (ss.map fun s => (stringText s).toList).reverse, u.isEmpty = false :=
    fun u hu => by simpa using (hpieces u (mem_reverse.mp hu)).ne_nil
  rw [splitTop]
  refine (congrArg dropTrailingEmpty hsplit).trans ?_
  rw [dropTrailingEmpty]
  generalize (ss.map fun s => (stringText s).toList) = us at hlast ⊢
  cases hus : us.reverse with
  | nil => rw [← reverse_reverse us, hus]; rfl
  | cons u rest =>
    rw [dropWhile_cons_of_neg (by simp [hlast u (hus ▸ mem_cons_self ..)]), ← hus, reverse_reverse]

/-- Reading undoes writing. The literal of a text without control characters is recognised and has
that text as its value, and the literals of several texts are the enumeration of these, one by one
and as the parts between bars. -/
theorem read_undoes_write :
    (∀ s, IsPrintable s → isStringLiteral quotes (stringText s).toList = true ∧
      read? (stringText s).toList = .ok (some (.text s))) ∧
    ∀ ss, (∀ s ∈ ss, IsPrintable s) → ss ≠ [] →
      enumeration? (ss.map fun s => (stringText s).toList) = .ok (some (ss.map .text)) ∧
      enumeration? (splitTop everyOpener ['|']
        ([' ', '|', ' '].intercalate (ss.map fun s => (stringText s).toList))) =
          .ok (some (ss.map .text)) := by
  refine ⟨fun s hs => ⟨?_, read?_stringText hs⟩, fun ss hss hne => ?_⟩
  · rw [stringText, String.toList_ofList]
    exact (quoted_escaped hs.isWritable).isStringLiteral
  · rw [splitTop_stringText hss hne]
    exact ⟨enumeration?_stringText hss hne, enumeration?_stringText hss hne⟩

/-- Backslashes in front of a quote, a bar between brackets, and nothing. -/
theorem read_undoes_write_backslashes :
    (∀ s ∈ ["\\\\\"", "(| \x27", ""], IsPrintable s) ∧
      enumeration? (splitTop everyOpener ['|'] ([' ', '|', ' '].intercalate
        (["\\\\\"", "(| \x27", ""].map fun s => (stringText s).toList))) =
          .ok (some [.text "\\\\\"", .text "(| \x27", .text ""]) :=
  have hss : ∀ s ∈ ["\\\\\"", "(| \x27", ""], IsPrintable s := by decide
  ⟨hss, (read_undoes_write.2 _ hss (by simp)).2⟩

end Crosswalk.Literal
