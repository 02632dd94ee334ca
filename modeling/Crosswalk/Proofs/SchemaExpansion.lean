import Crosswalk.Proofs.DepthLimit

/-!
Schemas that are expanded in place. Every rule that classifies a schema node hands on smaller nodes,
so a document with cyclic references is expanded to a finite depth. Main statement: each schema is
expanded at most once on a path, every name that is written stands in its deferred form, and beyond
a depth that the document determines the limit makes no difference.
-/

namespace Crosswalk

open List

/-! ### Declared schemas -/

namespace JsonSchema

variable {es : List (Scalar × Value)} {p : Raw}

/-- The types of a declaration are not larger than its schema. -/
theorem declaration_count_le {name : Scalar} {node : Value} {d : Declaration}
    (h : declaration name node = .ok d) (hp : p ∈ d.types) : p.count ≤ node.count := by
  unfold declaration at h
  split at h
  case h_1 es =>
    dsimp only at h
    split at h
    case isTrue =>
      cases h
      cases hp
    case isFalse =>
      split at h
      case isTrue =>
        obtain ⟨fields, hfields, h⟩ := bind_eq_ok.mp h
        cases h
        rcases mem_append.mp hp with hp | hp
        · exact Nat.le_of_lt (properties_shrink hfields hp)
        · refine Nat.le_of_lt (additionalOf_shrinks ?_)
          convert hp using 2
          simp only [Declaration.additional?]
          split <;> cases additionalOf es <;> rfl
      case isFalse =>
        cases h
        exact Nat.le_of_eq (congrArg Raw.count (mem_singleton.mp hp))
  case h_2 => cases h
  case h_3 =>
    cases h
    exact Nat.le_of_eq (congrArg Raw.count (mem_singleton.mp hp))

theorem forall₂_of_definitions {ds : List Declaration} (h : definitions es = .ok ds) :
    Forall₂ (fun e d => declaration e.1 e.2 = .ok d) es ds := by
  unfold definitions at h
  split at h
  · cases h
    exact .nil
  · exact forall₂_of_mapM h

end JsonSchema

theorem Catalogue.length_ofList_le (ds : List Declaration) :
    (Catalogue.ofList ds).names.length ≤ ds.length := by
  have hadd (c : Catalogue) (d : Declaration) :
      (c.add d).declarations.length ≤ c.declarations.length + 1 := by
    unfold add
    split <;> simp
  have hfold (ds : List Declaration) (c : Catalogue) :
      (ds.foldl add c).declarations.length ≤ c.declarations.length + ds.length := by
    induction ds generalizing c with
    | nil => simp
    | cons d ds ih =>
      have := ih (c.add d)
      have := hadd c d
      simp only [foldl_cons, length_cons]
      omega
  simpa [names, ofList, empty] using hfold ds empty

/-! ### Expanding the schemas of a document -/

namespace Conversion

/-- Schemas of a document written with their references expanded in place. -/
abbrev expandedSchemas (s : Settings) : Conversion :=
  { grammar := .openApi, target := .zod, settings := s, inline := true }

section ExpandedSchemas

variable (s : Settings) {source : List Char} {es : List (Scalar × Value)} {doc : Document} {S : Nat}

theorem shrinks_expandedSchemas (doc : Document) :
    ((expandedSchemas s).mappingOf doc).Shrinks Raw.count :=
  fun _ _ hc => (JsonSchema.schemaShape_classify hc).parts

theorem forall₂_of_extract (hes : (OpenApi.load source).result = .ok es)
    (hdoc : (OpenApi.extract source).result = .ok doc) :
    Forall₂ (fun e d => JsonSchema.declaration e.1 e.2 = .ok d) ((OpenApi.schemas? es).getD [])
      doc.declarations := by
  obtain ⟨es', hes', hdoc⟩ := result_bind_eq_ok.mp hdoc
  cases hes.symm.trans hes'
  obtain ⟨_, _, hdoc⟩ := result_bind_eq_ok.mp hdoc
  obtain ⟨ds, hds, hdoc⟩ := result_bind_eq_ok.mp hdoc
  cases hdoc
  exact JsonSchema.forall₂_of_definitions hds

/-- The schemas are as many as the names, and as large as their types. -/
theorem catalogue_bounds (hes : (OpenApi.load source).result = .ok es)
    (hdoc : (OpenApi.extract source).result = .ok doc)
    (hS : ∀ e ∈ (OpenApi.schemas? es).getD [], e.2.count ≤ S) :
    doc.catalogue.names.length ≤ ((OpenApi.schemas? es).getD []).length ∧
      ∀ d ∈ doc.catalogue.declarations, ∀ p ∈ d.types, p.count ≤ S := by
  have hall := forall₂_of_extract hes hdoc
  constructor
  · rw [hall.length_eq]
    exact Catalogue.length_ofList_le _
  · intro d hd p hp
    obtain ⟨e, he, hdeclaration⟩ := exists_mem_of_forall₂ hall (Catalogue.mem_of_mem_ofList hd)
    exact Nat.le_trans (JsonSchema.declaration_count_le hdeclaration hp) (hS e he)

end ExpandedSchemas

end Conversion

namespace Converter

open Conversion Mapping

/-- The reference of a schema that is open is deferred, at every depth but the last. -/
theorem mapType_open {s : Settings} {doc : Document} {site : Site} {known a : List Scalar} {b : Nat}
    {raw : Raw} {n : String}
    (hc : JsonSchema.classify doc.scope.rootName (Grammar.nodeOf raw) = .ok (.reference n))
    (hk : .text n ∈ known) (ha : .text n ∈ a) :
    (((expandedSchemas s).mappingOf doc).mapType site known (b + 1) a raw).result =
      .ok ("z.lazy(() => " ++ Target.Zod.schemaName n ++ ")") := by
  have hclassify : ((expandedSchemas s).mappingOf doc).grammar.classify
      ((expandedSchemas s).mappingOf doc).scope raw = .ok (.reference n) := hc
  rw [mapType_succ, hclassify, Logged.lift_ok, pure_bind]
  simp only [shape]
  rw [mapReference_succ, resolve_open hk ha]
  rfl

/-- Expanding the schemas of a document in place is safe, whatever cycles their references form. On
every path each schema is expanded at most once, the reference of a schema that is open is deferred,
and no other form of a reference is written. A depth that the schemas determine is enough to map a
declaration completely, and a greater one makes no difference. -/
theorem cyclic_schemas_expand_once {c : Converter} (hc : find? "openapi-to-zod" = some c)
    (s : Settings) {source : List Char} {es : List (Scalar × Value)} {doc : Document} {S : Nat}
    (hes : (OpenApi.load source).result = .ok es)
    (hdoc : (OpenApi.extract source).result = .ok doc)
    (hS : ∀ e ∈ (OpenApi.schemas? es).getD [], e.2.count ≤ S) {d : Declaration}
    (hd : d ∈ doc.catalogue.declarations) (pending : List Scalar) :
    (c.withSettings s).conversion = expandedSchemas s ∧
    (∀ os n u, ((expandedSchemas s).mappingOf doc).Path doc.catalogue.names
      (.expansion (d.name :: pending) d) os n u → Fresh (d.name :: pending) os) ∧
    (∀ site b a raw n,
      JsonSchema.classify doc.scope.rootName (Grammar.nodeOf raw) = .ok (.reference n) →
      .text n ∈ doc.catalogue.names → .text n ∈ a →
      (((expandedSchemas s).mappingOf doc).mapType site doc.catalogue.names
        (b + 1) a raw).result = .ok ("z.lazy(() => " ++ Target.Zod.schemaName n ++ ")")) ∧
    (∀ b md, (((expandedSchemas s).mappingOf doc).noting.declaration b pending d).result = .ok md →
      ∀ u ∈ md.expression.notes, u.form = .deferred) ∧
    ∀ (s' : Settings) (limit : Int), s'.indent = s.indent → s'.maxDepth.floor? = .ok (some limit) →
      ↑((((OpenApi.schemas? es).getD []).length + 1) * (S + 2)) ≤ limit →
      ¬Cut (((expandedSchemas s').mappingOf doc).declaration (s'.budgetAt 0) pending d) ∧
        ((expandedSchemas s').mappingOf doc).declaration (s'.budgetAt 0) pending d =
          ((expandedSchemas s).mappingOf doc).declaration
            ((((OpenApi.schemas? es).getD []).length + 1) * (S + 2)) pending d := by
  refine ⟨?_, ?_, ?_, ?_, ?_⟩
  · simp only [find?, all, find?_cons, String.reduceBEq] at hc
    cases hc
    rfl
  · intro os n u hpath
    exact hpath.fresh_of_not_selects (not_selects rfl)
  · intro site b a raw n hclassify hk ha
    exact mapType_open hclassify hk ha
  · intro b md hmd u hu
    exact uses_declaration_of_inline (m := (expandedSchemas s).mappingOf doc) rfl hmd hu
  · intro s' limit hindent hlimit hdeep
    obtain ⟨hlength, hsize⟩ := catalogue_bounds hes hdoc hS
    exact (expandedSchemas s).declaration_of_fresh (shrinks_expandedSchemas s doc) hsize hd
      (fun _ _ _ hpath => hpath.fresh_of_not_selects (not_selects rfl))
      (Nat.mul_le_mul (Nat.succ_le_succ hlength) (Nat.le_succ _)) hindent hlimit hdeep

/-- Two schemas that refer to each other. -/
def mutualSchemas : List Char :=
  "\x7b\"components\": \x7b\"schemas\": \x7b\"A\": \x7b\"properties\": \x7b\"b\": ".toList ++
  "\x7b\"$ref\": \"#/components/schemas/B\"\x7d\x7d\x7d, \"B\": \x7b\"properties\": ".toList ++
  "\x7b\"a\": \x7b\"$ref\": \"#/components/schemas/A\"\x7d\x7d\x7d\x7d\x7d\x7d".toList

/-- The first schema is written with its own name deferred, and from a depth of 18 on the limit
makes no difference. -/
theorem mutualSchemas_expand_once :
    ∃ c doc d, find? "openapi-to-zod" = some c ∧ (OpenApi.extract mutualSchemas).result = .ok doc ∧
      doc.catalogue.find? (.text "A") = some d ∧
      (∀ os n u, ((expandedSchemas {}).mappingOf doc).Path doc.catalogue.names
        (.expansion [d.name] d) os n u → Fresh [d.name] os) ∧
      (∃ md, (((expandedSchemas {}).mappingOf doc).noting.declaration 19 [] d).result = .ok md ∧
        md.expression.notes = [⟨"A", .deferred⟩]) ∧
      ∀ depth : Int, 18 ≤ depth →
        ((expandedSchemas { maxDepth := .int depth }).mappingOf doc).declaration
            (Settings.budgetAt { maxDepth := .int depth } 0) [] d =
          ((expandedSchemas {}).mappingOf doc).declaration 18 [] d := by
  have hc : find? "openapi-to-zod" = some all[4] := rfl
  obtain ⟨es, hes⟩ := exists_eq_ok (x := (OpenApi.load mutualSchemas).result) (by decide +kernel)
  obtain ⟨doc, hdoc⟩ :=
    exists_eq_ok (x := (OpenApi.extract mutualSchemas).result) (by decide +kernel)
  have hcounts : ((OpenApi.load mutualSchemas).result.toOption.map fun es =>
      ((OpenApi.schemas? es).getD []).map fun e => e.2.count) = some [4, 4] := by decide +kernel
  have hmapped : ((OpenApi.extract mutualSchemas).result.toOption.bind fun doc =>
      (doc.catalogue.find? (.text "A")).bind fun d =>
        (((expandedSchemas {}).mappingOf doc).noting.declaration 19 [] d).result.toOption.map
          fun md => md.expression.notes) = some [⟨"A", .deferred⟩] := by decide +kernel
  rw [hes] at hcounts
  rw [hdoc, Except.toOption, Option.bind_some] at hmapped
  obtain ⟨d, hd, hmapped⟩ := Option.bind_eq_some_iff.mp hmapped
  obtain ⟨md, hmd, huses⟩ := Option.map_eq_some_iff.mp hmapped
  replace hcounts : ((OpenApi.schemas? es).getD []).map (fun e => e.2.count) = [4, 4] :=
    Option.some.inj hcounts
  have hS : ∀ e ∈ (OpenApi.schemas? es).getD [], e.2.count ≤ 4 := by
    intro e he
    have hmem := mem_map_of_mem (f := fun e : Scalar × Value => e.2.count) he
    rw [hcounts] at hmem
    exact Nat.le_of_eq (by simpa using hmem)
  have hlength : ((OpenApi.schemas? es).getD []).length = 2 := by
    simpa using congrArg List.length hcounts
  obtain ⟨-, honce, -, -, hdepth⟩ :=
    cyclic_schemas_expand_once hc {} hes hdoc hS (mem_of_find?_eq_some hd) []
  rw [hlength] at hdepth
  refine ⟨all[4], doc, d, hc, hdoc, hd, honce, ⟨md, ?_, huses⟩, fun depth hdeep => ?_⟩
  · cases hresult : (((expandedSchemas {}).mappingOf doc).noting.declaration 19 [] d).result with
    | error e => rw [hresult] at hmd; cases hmd
    | ok md' => rw [hresult] at hmd; cases hmd; rfl
  · exact (hdepth { maxDepth := .int depth } depth rfl rfl hdeep).2

end Converter

end Crosswalk
