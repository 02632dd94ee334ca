import Crosswalk.Proofs.ClassifiedShapes
import Crosswalk.Proofs.DepthLimit

/-!
The length of the types that stand in a TypeScript type. Whatever rule applies, what it hands on is
shorter than the expression and has no words of its own. Main statement: the parts of a type are
shorter than it is, so mapping a type without selections is not cut off if the limit is at least its
length.
-/

namespace Crosswalk

open List Text

variable {raw : List Char}

/-! ### Types within types -/

namespace TypeScript

/-- The types that classification leads to, level by level. -/
inductive Within : List Char → List Char → Prop
  | self (raw : List Char) : Within raw raw
  | part {raw inner : List Char} {s : Shape} {p : Raw} (hs : classify raw = .ok s)
      (hp : p ∈ s.parts)
      (h : Within p.asText inner) : Within raw inner

/-- No fields of another type are selected on any level. -/
def SelectionFree (raw : List Char) : Prop :=
  ∀ inner s, Within raw inner → classify inner = .ok s → s.isSelection = false

theorem Within.taken {inner : List Char} (h : Within raw inner) : TakenFrom raw inner := by
  induction h with
  | self raw => exact .refl raw
  | part hs hp _ ih => exact (inside_of_classify hs hp).1.trans ih

theorem SelectionFree.of_mem_parts {s : Shape} {p : Raw} (h : SelectionFree raw)
    (hs : classify raw = .ok s) (hp : p ∈ s.parts) : SelectionFree p.asText :=
  fun inner t hin => h inner t (.part hs hp hin)

theorem selectionFree_of_words (h : ∀ w ∈ selectionWords, ¬w <:+: raw) : SelectionFree raw := by
  intro inner s hin hs
  by_contra hsel
  have hstands := (ensures_classify inner).holds hs
  obtain ⟨w, hw, hinner⟩ := hstands.selection (by simpa using hsel)
  have hspace : ∀ w ∈ selectionWords, ' ' ∉ w := by decide
  exact h w hw ((hin.taken.trans (normalize_taken inner)).words w (hspace w hw) hinner)

end TypeScript

/-! ### Levels -/

namespace Mapping

variable {ε : Type} {m : Mapping ε} {site : Site} {known a : List Scalar}

/-- References that are not expanded need no level. -/
theorem not_cut_mapReference (hi : m.inline = false) (budget : Nat) (n : String) :
    ¬Cut (m.mapReference site known (budget + 1) a n) := by
  rw [mapReference_succ]
  by_cases hk : .text n ∈ known
  · by_cases ho : .text n ∈ a
    · rw [resolve_open hk ho]
      exact not_cut_bind (not_cut_record rfl) fun _ => not_cut_of_log rfl
    · rw [resolve_named hk ho hi]
      exact not_cut_bind (not_cut_record rfl) fun _ => not_cut_of_log rfl
  · rw [resolve_undeclared hk]
    exact not_cut_bind (not_cut_record rfl) fun _ => not_cut_of_log rfl

/-- Each level takes at least one character off the type. -/
theorem not_cut_of_length_lt (hg : m.grammar = .typeScript) (hi : m.inline = false) {budget : Nat}
    {raw : Raw} (hfree : TypeScript.SelectionFree raw.asText) (hlt : raw.asText.length < budget) :
    ¬Cut (m.mapType site known budget a raw) := by
  induction budget generalizing a raw with
  | zero => omega
  | succ budget ih =>
    rw [mapType_succ]
    cases hc : m.grammar.classify m.scope raw with
    | error e => exact not_cut_of_log rfl
    | ok s =>
      have hs : TypeScript.classify raw.asText = .ok s := by
        rw [← hc, hg]
        rfl
      rw [Logged.lift_ok, pure_bind]
      by_cases hr : ∃ n, s = .reference n
      · obtain ⟨n, rfl⟩ := hr
        exact not_cut_mapReference hi budget n
      have hbelow (a : List Scalar) (p : Raw) : Limited (Cut (m.mapType site known budget a p))
          (m.mapType site known budget a p) (m.mapType site known budget a p) :=
        ⟨id, fun _ _ h => h, fun _ => rfl⟩
      have hparts : Limited (∃ p ∈ s.deeper, Cut (m.mapType site known budget a p))
          (m.shape site known (m.mapType site known budget)
            (m.mapReference site known (budget + 1) a) a s)
          ((m.withLimit m.limitText).shape site known (m.mapType site known budget)
            (m.mapReference site known (budget + 1) a) a s) :=
        limited_parts hbelow (fun n hn => hr ⟨n, hn⟩) (hfree _ _ (.self _) hs)
      intro hcut
      obtain ⟨p, hp, hcut⟩ := hparts.deep_of_cut hcut
      have hp := s.deeper_subset hp
      have hshorter := (TypeScript.inside_of_classify hs hp).length_lt
      exact ih (hfree.of_mem_parts hs hp) (by omega) hcut

end Mapping

namespace TypeScript

/-- The types in a type are shorter than it is, so a type without selections is mapped without a cut
if its length is within the limit; selections have their word in the text. -/
theorem parts_shorter :
    (∀ (raw : List Char) (s : Shape), classify raw = .ok s →
      ∀ p ∈ s.parts, p.asText.length < raw.length) ∧
    (∀ raw : List Char, (∀ w ∈ selectionWords, ¬w <:+: raw) → SelectionFree raw) ∧
    ∀ {ε : Type} (m : Mapping ε) (settings : Settings) (limit : Int) (site : Site)
      (known ancestors : List Scalar) (raw : List Char), m.grammar = .typeScript →
        m.inline = false →
      settings.maxDepth.floor? = .ok (some limit) → raw.length ≤ limit → SelectionFree raw →
      ¬Mapping.Cut (m.mapType site known (settings.budgetAt 0) ancestors (.text raw)) := by
  refine ⟨fun raw s hs p hp => (inside_of_classify hs hp).length_lt,
    fun _ => selectionFree_of_words, ?_⟩
  intro ε m settings limit site known ancestors raw hg hi hlimit hlength hfree
  have htext : (Raw.text raw).asText = raw := rfl
  exact Mapping.not_cut_of_length_lt hg hi (htext ▸ hfree)
    (htext ▸ Settings.lt_budgetAt hlimit hlength)

/-- A member on two lines, and a labelled tuple behind an index signature. -/
def twoLines : List Char := "\x7b a: B[]\n | null; [k: string]: [x?: C] \x7d".toList

/-- The mapping of a document without declarations to schemas. -/
def twoLinesMapping : Mapping String :=
  Conversion.mapping { grammar := .typeScript, target := .zod, settings := { maxDepth := .int 40 } }
    {} (.ofList []) (.text "")

theorem twoLines_shorter :
    classify twoLines = .ok (.object [{ key := .text "a", type := .text "B[] | null".toList }]
      (some (.typed (.text "[x?: C]".toList)))) ∧
    "B[] | null".toList.length < twoLines.length ∧ "[x?: C]".toList.length < twoLines.length ∧
    (∀ w ∈ selectionWords, ¬w <:+: twoLines) ∧ twoLines.length = 40 ∧
    ¬Mapping.Cut (twoLinesMapping.mapType {} [.text "B"]
      (Settings.budgetAt { maxDepth := .int 40 } 0) [] (.text twoLines)) := by
  have hclassify : classify twoLines =
      .ok (.object [{ key := .text "a", type := .text "B[] | null".toList }]
        (some (.typed (.text "[x?: C]".toList)))) := by rfl
  have hwords : ∀ w ∈ selectionWords, ¬w <:+: twoLines := by decide +kernel
  obtain ⟨hshorter, hfree, huncut⟩ := parts_shorter
  refine ⟨hclassify, ?_, ?_, hwords, rfl, ?_⟩
  · exact hshorter _ _ hclassify (.text "B[] | null".toList)
      (by simp [Shape.parts, Field.typesAll, Field.types])
  · exact hshorter _ _ hclassify (.text "[x?: C]".toList) (by simp [Shape.parts, Additional.types])
  · exact huncut _ _ 40 {} _ _ _ rfl rfl rfl (by decide) (hfree _ hwords)

end TypeScript

end Crosswalk
