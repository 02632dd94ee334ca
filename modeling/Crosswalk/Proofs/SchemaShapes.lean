import Crosswalk.Proofs.SchemaNodes

/-!
The shapes of the nodes that are written. The rules of the classification compete for the same keys;
each node here is taken by the rule that it was written for.
-/

namespace Crosswalk.JsonSchema

open Value (isText lookup lookup?_texts lookup_texts texts)

variable {t : String}

/-- The keys that decide before the type does. -/
def decidingKeys : List String := ["$ref", "enum", "const", "nullable", "allOf", "oneOf", "anyOf"]

theorem Details.lookup_deciding {es : List (String × Value)} (h : Details es) {k : String}
    (hk : k ∈ decidingKeys) : es.lookup k = none :=
  h.lookup_eq_none (by revert k; decide)

/-- No rule before the one for arrays applies. -/
structure Undecided (es : List (String × Value)) : Prop where
  keys : ∀ k ∈ decidingKeys, es.lookup k = none
  type : ∀ ts, es.lookup "type" ≠ some (.list ts)

variable {root : String} {es : List (String × Value)} {s : Shape} {v : Value}

theorem Undecided.early (h : Undecided es) :
    ((reference? root (texts es)).orElse fun _ => (enumeration? (texts es)).orElse fun _ =>
      (constant? (texts es)).orElse fun _ => (nullable? (texts es)).orElse fun _ =>
      (composition? (texts es)).orElse fun _ => (typeList? (texts es)).orElse fun _ =>
      array? (texts es)) = array? (texts es) := by
  have hnone (k : String) (hk : k ∈ decidingKeys) : lookup k (texts es) = .null := by
    rw [lookup_texts, h.keys k hk]
    rfl
  have htype : typeList? (texts es) = none := by
    rw [typeList?, lookup_texts]
    split
    · rename_i ts heq
      refine absurd ?_ (h.type ts)
      cases hfound : es.lookup "type" with
      | none => rw [hfound] at heq; cases heq
      | some v => rw [hfound] at heq; exact congrArg some heq
    · rfl
  rw [htype, reference?, enumeration?, constant?, nullable?, composition?, nonemptyList?,
    nonemptyList?, nonemptyList?, hnone _ (by decide), hnone _ (by decide), hnone _ (by decide),
    hnone _ (by decide), hnone _ (by decide), hnone _ (by decide), lookup?_texts,
    h.keys "const" (by decide)]
  rfl

theorem classify_array (h : Undecided es) (ha : array? (texts es) = some s) :
    classify root (.object es) = .ok s := by
  rw [Value.object_eq, classify, h.early, ha]
  rfl

theorem classify_object (h : Undecided es) (ha : array? (texts es) = none)
    (ho : object? (texts es) = .ok (some s)) : classify root (.object es) = .ok s := by
  rw [Value.object_eq, classify, h.early, ha, ho]
  rfl

theorem classify_primitive (h : Undecided es) (ha : array? (texts es) = none)
    (ho : object? (texts es) = .ok none) :
    classify root (.object es) = primitiveShape (texts es) := by
  rw [Value.object_eq, classify, h.early, ha, ho]
  rfl

theorem classify_reference (ref : String) :
    classify root (.object [("$ref", .text ref)]) = .ok (.reference (referenceName root ref)) := by
  simp [Value.object_eq, classify, reference?, lookup, Value.lookup?, Pure.pure, Except.pure]

theorem classify_enumerated (vs : List Value) :
    classify root (.object [("enum", .list vs)]) =
      .ok (.enumeration (vs.filter Value.isPlain)) := by
  rw [Value.object_eq, classify, reference?, enumeration?, lookup_texts, lookup_texts]
  rfl

theorem classify_typedEnumerated (t : String) (vs : List Value) :
    classify root (.object [("type", .text t), ("enum", .list vs)]) =
      .ok (.enumeration (vs.filter Value.isPlain)) := by
  rw [Value.object_eq, classify, reference?, enumeration?, lookup_texts, lookup_texts]
  rfl

theorem classify_constant (t : String) (hv : v.isPlain) :
    classify root (.object [("type", .text t), ("const", v)]) = .ok (.literal v) := by
  have hconst : constant? (texts [("type", .text t), ("const", v)]) = some (.literal v) := by
    rw [constant?, lookup?_texts, lookup_cons_ite, lookup_cons_ite]
    simp [hv]
  rw [Value.object_eq, classify, hconst, reference?, enumeration?, lookup_texts,
    lookup_texts]
  rfl

theorem classify_choice (v : Value) (vs : List Value) :
    classify root (.object [("anyOf", .list (v :: vs))]) = .ok (choice (v :: vs)) := by
  rw [Value.object_eq, classify, reference?, enumeration?, constant?, nullable?, composition?,
    nonemptyList?, nonemptyList?, nonemptyList?]
  simp only [lookup_texts, lookup?_texts]
  rfl

theorem classify_every (v : Value) (vs : List Value) :
    classify root (.object [("allOf", .list (v :: vs))]) =
      .ok (.intersection ((v :: vs).map .node)) := by
  rw [Value.object_eq, classify, reference?, enumeration?, constant?, nullable?, composition?,
    nonemptyList?]
  simp only [lookup_texts, lookup?_texts]
  rfl

/-- A list of a type and null. -/
theorem classify_listed (ht : t ≠ "null") (h : Details es) :
    classify root (.object (("type", .list [.text t, .text "null"]) :: es)) =
      .ok (.nullable (.node (.object (("type", .text t) :: es)))) := by
  have hnone (k : String) (hk : k ∈ decidingKeys) :
      (("type", .list [.text t, .text "null"]) :: es).lookup k = none := by
    rw [lookup_cons_ite, h.lookup_deciding hk, if_neg (by rintro rfl; revert hk; decide)]
  have htext : ("null" == t) = false := by simpa using fun heq => ht heq.symm
  have hinsert := Value.insert_first "type" (.text t) (.list [.text t, .text "null"]) es
  have hlist : typeList? (texts (("type", .list [.text t, .text "null"]) :: es)) =
      some (.nullable (.node (.object (("type", .text t) :: es)))) := by
    rw [typeList?, lookup_texts, lookup_cons_ite, if_pos rfl]
    simp only [Value.texts_cons] at hinsert
    simp [isText, htext, withType, hinsert, Value.object_eq]
  rw [Value.object_eq, classify, hlist, reference?, enumeration?, constant?, nullable?,
    composition?, nonemptyList?, nonemptyList?, nonemptyList?]
  simp only [lookup_texts, lookup?_texts, hnone "$ref" (by decide),
    hnone "enum" (by decide), hnone "const" (by decide), hnone "nullable" (by decide),
    hnone "allOf" (by decide), hnone "oneOf" (by decide), hnone "anyOf" (by decide)]
  rfl

theorem Details.undecided (h : Details es) : Undecided (("type", .text t) :: es) where
  keys k hk := by
    rw [lookup_cons_ite, h.lookup_deciding hk, if_neg (by rintro rfl; revert hk; decide)]
  type ts := by simp

theorem array?_eq_none (ht : t ≠ "array") (hitems : es.lookup "items" = none)
    (hfirst : es.lookup "prefixItems" = none) :
    array? (texts (("type", .text t) :: es)) = none := by
  have htype : ("array" == t) = false := by simpa using fun heq => ht heq.symm
  rw [array?, lookup_texts, lookup?_texts, lookup?_texts]
  simp [lookup_cons_ite, hitems, hfirst, isText, htype]

theorem array?_element (fs cs : List (String × Value)) (hcs : cs.lookup "prefixItems" = none) :
    array? (texts (("type", .text "array") :: ("items", .object fs) :: cs)) =
      some (.array (.node (.object fs)) (constraints [.minItems, .maxItems]
        (texts (("type", .text "array") :: ("items", .object fs) :: cs)))) := by
  rw [array?, lookup_texts, lookup?_texts, lookup?_texts]
  simp [lookup_cons_ite, hcs, isText, Value.object_eq]

theorem array?_elements (vs : List Value) (cs : List (String × Value))
    (hcs : cs.lookup "prefixItems" = none) :
    array? (texts (("type", .text "array") :: ("items", .list vs) :: cs)) =
      some (.tuple (vs.map .node)) := by
  rw [array?, lookup_texts, lookup?_texts, lookup?_texts]
  simp [lookup_cons_ite, hcs, isText]

theorem object?_eq_none (ht : t ≠ "object") (hfields : es.lookup "properties" = none) :
    object? (texts (("type", .text t) :: es)) = .ok none := by
  have htype : ("object" == t) = false := by simpa using fun heq => ht heq.symm
  rw [object?, lookup_texts, Value.hasKey_texts]
  simp [lookup_cons_ite, hfields, isText, htype, Pure.pure, Except.pure]

theorem object?_record (e : String × Value) (fs : List (String × Value)) :
    object? (texts
        [("type", .text "object"), ("additionalProperties", .object (e :: fs))]) =
      .ok (some (.container .record
        [.node (.object [("type", .text "string")]), .node (.object (e :: fs))] [])) := rfl

theorem object?_fields {fs : List Field} (hfs : fs ≠ [])
    (htype : es.lookup "type" = some (.text "object"))
    (hproperties : properties (texts es) = .ok fs) :
    object? (texts es) = .ok (some (.object fs (additionalOf (texts es)))) := by
  have hne : fs.isEmpty = false := by simpa using hfs
  rw [object?, lookup_texts, htype, hproperties]
  simp [isText, hne, Bind.bind, Except.bind, Pure.pure, Except.pure]

/-- More than two schemas, or two without null among them. -/
theorem choice_eq_union {vs : List Value}
    (h : vs.length = 2 → ∀ v ∈ vs, isNullSchema v = false) : choice vs = .union (vs.map .node) := by
  rw [choice]
  split
  · rename_i v hv
    split
    · rename_i hlength
      have hlength : vs.length = 2 := by simpa using hlength
      have hall : (vs.filter fun v => !isNullSchema v) = vs :=
        List.filter_eq_self.mpr fun v hv => by simp [h hlength v hv]
      rw [hall] at hv
      simp [hv] at hlength
    · rfl
  · rfl

theorem choice_null (h : isNullSchema v = false) :
    choice [v, .object [("type", .text "null")]] = .nullable (.node v) := by
  have hnull : isNullSchema (.object [("type", .text "null")]) := rfl
  simp [choice, h, hnull]

end Crosswalk.JsonSchema
