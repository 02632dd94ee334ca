import Crosswalk.Proofs.ClassifiedShapes
import Crosswalk.Proofs.TargetDemands

/-!
Types that cannot be mapped. In the notations of text only a number that cannot be read is in the
way of a classification; a schema is refused for a mapping under its type, or for a default that
JSON cannot hold. Main statement: a type cannot be mapped exactly if mapping comes to a type that is
not classified, or to a shape that does not meet the demands of the target.
-/

namespace Crosswalk

open List

/-! ### Descriptions -/

theorem described_nil : Described [] := nofun

theorem described_singleton {l : Limit} (hl : l ≠ .description) (v : Value) :
    Described [⟨l, v⟩] := forall_mem_singleton.mpr fun h => absurd h hl

/-! ### Prisma -/

namespace Prisma

theorem ensures_nativeConstraints (native : List Char) :
    Ensures Fault.IsUnreadable Described (nativeConstraints native) := by
  unfold nativeConstraints
  split
  · exact .ok described_nil
  dsimp only
  split
  · split
    · exact .ok (described_singleton (by simp) _)
    · exact .error rfl
  split
  · exact .ok (described_singleton (by simp) _)
  · exact .ok described_nil

theorem ensures_classify (raw : List Char) :
    Ensures Fault.IsUnreadable Shape.Described (classify raw) := by
  unfold classify
  dsimp only
  split
  · exact .ok trivial
  split
  · exact .ok trivial
  split
  · exact .ok described_nil
  split
  · exact (ensures_nativeConstraints _).bind fun _ hcs => .ok hcs
  · split <;> exact .ok trivial

end Prisma

/-! ### GraphQL -/

theorem GraphQL.described_classify (custom : List String) (raw : List Char) :
    (GraphQL.classify custom raw).Described := by
  have hknown {s : String} {p : Primitive} {cs : List Constraint}
      (h : ((GraphQL.scalar? s).map (fun p => (p, []))).orElse
        (fun _ => GraphQL.wellKnownScalar? s) = some (p, cs)) : Described cs := by
    rcases some_of_orElse h with h | h
    · obtain ⟨_, _, h⟩ := Option.map_eq_some_iff.mp h
      cases h
      exact described_nil
    · unfold GraphQL.wellKnownScalar? at h
      dsimp only at h
      split at h <;> cases h <;> simp [Described]
  unfold GraphQL.classify
  dsimp only
  split
  · exact trivial
  split
  · exact trivial
  split
  · exact described_nil
  split
  · rename_i h
    exact hknown h
  split
  · exact described_nil
  split <;> exact trivial

/-! ### JSON Schema -/

namespace JsonSchema

variable {es : List (Scalar × Value)} {s : Shape}

/-- A property with a default that JSON cannot hold, and why that is so. -/
def HasForeignDefault (es : List (Scalar × Value)) (f : Fault) : Prop :=
  ∃ ps, Value.lookup "properties" es = .map ps ∧ ∃ p ∈ ps, ∃ inner v,
    p.2 = .map inner ∧ Value.lookup? "default" inner = some v ∧ v.isJson = false ∧
      f = Json.refusal v

/-- Schemas that are refused: what is looked up cannot be a mapping, and a default is written. -/
def IsRefused (node : Value) (f : Fault) : Prop :=
  ∃ es, node = .map es ∧
    (HasForeignDefault es f ∨ f = .wrongKind ∧ ∃ t, Value.lookup "type" es = .map t)

theorem ensures_property (required : List Value) (key : Scalar) (node : Value) :
    Ensures
      (fun f => ∃ inner v, node = .map inner ∧ Value.lookup? "default" inner = some v ∧
        v.isJson = false ∧ f = Json.refusal v)
      (fun _ => True) (property required key node) := by
  unfold property
  dsimp only
  split
  · rename_i inner
    split
    · exact .ok trivial
    · rename_i v hv
      have hline : (Json.line? v true).isSome = v.isJson := Json.isSome_write? _ 0 v
      split
      · exact .ok trivial
      · rename_i hnone
        refine .error ⟨inner, v, rfl, hv, ?_, rfl⟩
        rw [← hline, hnone]
        rfl
  · exact .ok trivial

theorem ensures_properties (es : List (Scalar × Value)) :
    Ensures (HasForeignDefault es) (fun _ => True) (properties es) := by
  unfold properties
  split
  · rename_i ps hps
    refine (Ensures.mapM fun p hp => ((ensures_property _ p.1 p.2).mono ?_ fun _ h => h)).mono
      (fun _ h => h) fun _ _ => trivial
    rintro f ⟨inner, v, hp', hv, hjson⟩
    exact ⟨ps, hps, p, hp, inner, v, hp', hv, hjson⟩
  · exact .ok trivial

theorem described_of_ne {cs : List Constraint} (h : ∀ c ∈ cs, c.limit ≠ .description) :
    Described cs :=
  fun c hc hlimit => absurd hlimit (h c hc)

theorem SchemaShape.described {part : Raw → Prop} (h : SchemaShape part s) : s.Described := by
  cases h with
  | primitive _ hcs | array _ hcs => exact described_of_ne hcs
  | _ => trivial

theorem ensures_object? (es : List (Scalar × Value)) :
    Ensures (HasForeignDefault es) (fun _ => True) (object? es) := by
  unfold object?
  split
  · exact .ok trivial
  refine (ensures_properties es).bind fun fields _ => ?_
  dsimp only
  split
  · split <;> exact .ok trivial
  · exact .ok trivial

theorem ensures_primitiveShape (hlist : typeList? es = none) :
    Ensures (fun f => f = .wrongKind ∧ ∃ t, Value.lookup "type" es = .map t) (fun _ => True)
      (primitiveShape es) := by
  unfold primitiveShape
  split
  · exact .ok trivial
  · split <;> exact .ok trivial
  · exact .ok trivial
  · rename_i v _ hscalar hv
    have hlookup : Value.lookup "type" es = v := by rw [Value.lookup, hv, Option.getD_some]
    cases v with
    | scalar s => exact absurd rfl (hscalar s)
    | list types =>
      simp only [typeList?, hlookup] at hlist
      split at hlist
      · cases hlist
      · split at hlist <;> cases hlist
    | map t => exact .error ⟨rfl, t, hlookup⟩

theorem ensures_classify (root : String) (node : Value) :
    Ensures (IsRefused node) Shape.Described (classify root node) := by
  refine Ensures.of_ok ?_ fun s hs => (schemaShape_classify hs).described
  unfold classify
  split
  case h_2 es =>
    split
    case h_1 => exact .ok trivial
    case h_2 hrule =>
      -- A list of types has a rule of its own, so what is left under the keyword is no list.
      have hlist : typeList? es = none := by
        simp only [Option.orElse_eq_or, Option.or_eq_none_iff] at hrule
        exact hrule.2.2.2.2.2.1
      refine ((ensures_object? es).mono (F := IsRefused (.map es))
        (fun f hf => ⟨es, rfl, .inl hf⟩) fun _ h => h).bind fun found _ => ?_
      cases found with
      | some s => exact .ok trivial
      | none =>
        exact (ensures_primitiveShape hlist).mono (fun f hf => ⟨es, rfl, .inr hf⟩) fun _ h => h
  all_goals exact .ok trivial

/-- Nodes that list no values: what stands under the keyword has no members. -/
def ListsNothing (node : Value) : Prop :=
  ∀ es, node = .map es →
    ∃ s, Value.lookup "enum" es = .scalar s ∧ s.isText = false ∧ s.isTruthy = true

theorem ensures_enumValues (node : Value) :
    Ensures (fun _ => ListsNothing node) (fun _ => True) (enumValues node) := by
  unfold enumValues
  split
  · rename_i es
    split
    · exact .ok trivial
    · exact .ok trivial
    · exact .ok trivial
    · exact .ok trivial
    · rename_i hlist hmap htext hbytes
      split
      · rename_i htruthy
        refine .error fun es' hes => ?_
        cases hes
        generalize Value.lookup "enum" es = v at *
        rcases v with s | vs | ms
        · refine ⟨s, rfl, ?_, htruthy⟩
          cases s <;> first | rfl | exact absurd rfl (htext _)
        · exact absurd rfl (hlist vs)
        · exact absurd rfl (hmap ms)
      · exact .ok trivial
  · rename_i hmap
    exact .error fun es hes => absurd hes (hmap es)

end JsonSchema

/-! ### All notations -/

namespace Grammar

/-- Why a raw type can be refused. -/
def Refuses (g : Grammar) (raw : Raw) (f : Fault) : Prop :=
  match g with
  | .graphQL => False
  | .typeScript | .sql | .prisma | .zod => f = .unreadableNumber
  | .jsonSchema | .openApi => JsonSchema.IsRefused (nodeOf raw) f

/-- Why the values of an enumeration can be refused. -/
def RefusesValues (g : Grammar) (body : Raw) (f : Fault) : Prop :=
  match g with
  | .graphQL | .prisma => False
  | .typeScript | .sql | .zod => f = .unreadableNumber
  | .jsonSchema | .openApi => JsonSchema.ListsNothing (nodeOf body)

theorem ensures_classify (g : Grammar) (scope : Scope) (raw : Raw) :
    Ensures (g.Refuses raw) Shape.Described (g.classify scope raw) := by
  cases g with
  | typeScript =>
    exact (TypeScript.ensures_classify raw.asText).mono (fun _ h => h) fun _ h => h.described
  | jsonSchema | openApi => exact JsonSchema.ensures_classify scope.rootName (nodeOf raw)
  | graphQL => exact .ok (GraphQL.described_classify scope.customScalars raw.asText)
  | sql => exact (Sql.ensures_classify raw.asText).mono (fun _ h => h) fun _ h => h.described
  | prisma => exact Prisma.ensures_classify raw.asText
  | zod => exact (Zod.ensures_classify raw.asText).mono (fun _ h => h) fun _ h => h.described

theorem ensures_enumValues (g : Grammar) (body : Raw) :
    Ensures (g.RefusesValues body) (fun _ => True) (g.enumValues body) := by
  cases g with
  | typeScript =>
    exact (TypeScript.ensures_enumValues body.asText).mono (fun _ h => h) fun _ _ => trivial
  | jsonSchema | openApi => exact JsonSchema.ensures_enumValues (nodeOf body)
  | graphQL | prisma => exact .ok trivial
  | sql => exact (Sql.ensures_literals body.asText).mono (fun _ h => h) fun _ _ => trivial
  | zod => exact (Zod.ensures_enumValues body.asText).mono (fun _ h => h) fun _ _ => trivial

end Grammar

/-! ### Types that cannot be mapped -/

namespace Conversion

theorem describesByText_mappingOf (c : Conversion) (doc : Document) :
    (c.mappingOf doc).DescribesByText :=
  fun raw _ hs => (c.grammar.ensures_classify doc.scope raw).holds hs

/-- A type cannot be mapped exactly if the mapping comes to a faulty task within its budget: to a
type that is not classified, to a shape that does not meet the demands of the target, or to a
declaration with such an enumeration or such fields. What is refused before it has a shape is
refused for the reasons that its notation gives. -/
theorem mapType_fails_iff (c : Conversion) (doc : Document) {known : List Scalar}
    (hknown : ∀ n ∈ known, n ∈ doc.catalogue.names) (site : Site)
    (budget : Nat) (ancestors : List Scalar) (raw : Raw) :
    ((∃ f, ((c.mappingOf doc).mapType site known budget ancestors raw).result = .error f) ↔
      (c.mappingOf doc).Fails (c.target.demands c.settings.indent) site known (.type ancestors raw)
        budget) ∧
      (∀ r f, c.grammar.classify doc.scope r = .error f → c.grammar.Refuses r f) ∧
      ∀ body f, c.grammar.enumValues body = .error f → c.grammar.RefusesValues body f := by
  refine ⟨?_, fun r f h => (c.grammar.ensures_classify doc.scope r).fails h,
    fun body f h => (c.grammar.ensures_enumValues body).fails h⟩
  have hrenderer := c.target.decided_renderer c.settings.indent
    (c.rootName doc.catalogue)
  refine Iff.trans (Decides.error_iff (P := c.target.IsWritten) ?_) not_not
  exact (Mapping.decides_level hrenderer (c.describesByText_mappingOf doc) hknown budget).1
    ancestors raw

/-- An intersection without members, beside a declared name in a tuple, fails for every target. -/
theorem emptyIntersection_fails :
    ∃ doc : Document, ∃ known : List Scalar,
      (∀ n ∈ known, n ∈ doc.catalogue.names) ∧ .text "A" ∈ known ∧
      ∀ t : Target, let c : Conversion := { grammar := .zod, target := t }
        ∃ f, ((c.mappingOf doc).mapType {} known 4 []
          (.text "z.tuple([A, z.intersection()])".toList)).result = .error f := by
  let doc : Document := { declarations := [{ name := .text "A", body := .object [] }] }
  have hknown : ∀ n ∈ [.text "A"], n ∈ doc.catalogue.names :=
    forall_mem_singleton.mpr (mem_singleton_self _)
  refine ⟨doc, [.text "A"], hknown, mem_singleton_self _, fun t => ?_⟩
  intro c
  have htuple : (c.mappingOf doc).grammar.classify (c.mappingOf doc).scope
      (.text "z.tuple([A, z.intersection()])".toList) =
        .ok (.tuple [.text ['A'], .text "z.intersection()".toList]) := by with_unfolding_all rfl
  have hempty : (c.mappingOf doc).grammar.classify (c.mappingOf doc).scope
      (.text "z.intersection()".toList) = .ok (.intersection []) := by with_unfolding_all rfl
  have hstep : (c.mappingOf doc).Step [.text "A"]
      (.type [] (.text "z.tuple([A, z.intersection()])".toList)) [] 1
      (.type [] (.text "z.intersection()".toList)) :=
    .part htuple (mem_cons_of_mem _ (mem_singleton_self _))
  refine (mapType_fails_iff c doc hknown {} 4 [] _).1.mpr
    ⟨_, _, _, .cons hstep (.refl _), by decide, ?_⟩
  exact (Mapping.faulty_type hempty).mpr (.inl rfl)

end Conversion

end Crosswalk
