import Crosswalk.Proofs.SchemaRules

/-!
The notations whose types never select fields of another type. Each rule of a classification gives a
shape of its own, and none of these is a selection.
-/

namespace Crosswalk

variable {s : Shape}

theorem GraphQL.isSelection_classify (custom : List String) (raw : List Char) :
    (GraphQL.classify custom raw).isSelection = false := by
  simp only [GraphQL.classify]
  repeat' split
  all_goals rfl

theorem Prisma.isSelection_classify {raw : List Char} (h : Prisma.classify raw = .ok s) :
    s.isSelection = false := by
  simp only [Prisma.classify] at h
  split at h
  · cases h; rfl
  split at h
  · cases h; rfl
  split at h
  · cases h; rfl
  split at h
  · obtain ⟨cs, _, h⟩ := bind_eq_ok.mp h
    cases h; rfl
  · split at h <;> · cases h; rfl

theorem Sql.isSelection_primitive? {cs : List Char} (h : Sql.primitive? cs = .ok (some s)) :
    s.isSelection = false := by
  simp only [Sql.primitive?] at h
  split at h
  · cases h
  split at h
  · cases h
  split at h
  · split at h
    · split at h <;> cases h
      rfl
    · cases h; rfl
  all_goals cases h; rfl

theorem Sql.isSelection_classify {raw : List Char} (h : Sql.classify raw = .ok s) :
    s.isSelection = false := by
  simp only [Sql.classify] at h
  split at h
  · obtain ⟨vs, _, h⟩ := bind_eq_ok.mp h
    cases h; rfl
  split at h
  · cases h; rfl
  split at h
  · cases h; rfl
  obtain ⟨found, hfound, h⟩ := bind_eq_ok.mp h
  split at h
  · cases h
    exact Sql.isSelection_primitive? hfound
  · split at h <;> · cases h; rfl

/-- Notations without types that select fields. -/
def Grammar.isSelective : Grammar → Bool
  | .typeScript | .zod => true
  | _ => false

theorem Mapping.not_selects {ε : Type} {m : Mapping ε} (h : m.grammar.isSelective = false) :
    ¬m.Selects := by
  rintro ⟨raw, s, hs, hsel⟩
  have hnone : s.isSelection = false := by
    cases hg : m.grammar with
    | typeScript | zod => rw [hg] at h; cases h
    | jsonSchema | openApi =>
      rw [hg] at hs
      exact (JsonSchema.schemaShape_classify hs).isSelection_eq_false
    | graphQL =>
      rw [hg] at hs
      cases hs
      exact GraphQL.isSelection_classify _ _
    | sql =>
      rw [hg] at hs
      exact Sql.isSelection_classify hs
    | prisma =>
      rw [hg] at hs
      exact Prisma.isSelection_classify hs
  rw [hnone] at hsel
  cases hsel

end Crosswalk
