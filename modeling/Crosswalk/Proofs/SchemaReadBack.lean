import Crosswalk.Conversion
import Crosswalk.Proofs.ReadBack
import Crosswalk.Proofs.SchemaShapes

/-!
Schema nodes are read back as they were written. Main statement: the node of a term is mapped to
itself, as long as the levels of the term fit into the depth that is allowed.
-/

namespace Crosswalk.JsonSchema

open List
open Crosswalk.Language
open Mapping (Yields)
open Target.JsonSchema (conjuncts intersect container definitionsStart node typeOf)
open Term (Member depthBelow)

variable {cs : List Constraint} {vs : List Value}

/-- The terms that a schema can say. -/
inductive Readable (known : List Scalar) (root : Scalar) : Term → Prop
  | any : Readable known root (.primitive .any [])
  | object : Readable known root (.primitive .object [])
  | primitive {p : Primitive} {cs : List Constraint}
      (hp : p ∈ [.string, .number, .integer, .boolean, .null])
      (hcs : (cs.map Constraint.limit).Sublist limits) : Readable known root (.primitive p cs)
  | literal {v : Value} (hv : v.isPlain = true) (hnull : v ≠ .null) (htext : v.hasText = true) :
      Readable known root (.literal v)
  | enumeration {vs : List Value} (hvs : ∀ v ∈ vs, v.isPlain = true ∧ v.hasText = true) :
      Readable known root (.enumeration vs)
  | reference {name : String} (hknown : .text name ∈ known) (hroot : root ≠ .text name) :
      Readable known root (.reference name)
  | array {t : Term} {cs : List Constraint} (ht : Readable known root t)
      (hcs : (cs.map Constraint.limit).Sublist [.minItems, .maxItems]) :
      Readable known root (.array t cs)
  | tuple {ts : List Term} (hts : ∀ t ∈ ts, Readable known root t) :
      Readable known root (.tuple ts)
  /-- A choice between two schemas, one of them null, is written as the nullable other. -/
  | union {ts : List Term} (hts : ∀ t ∈ ts, Readable known root t) (hlength : 2 ≤ ts.length)
      (hnull : ts.length = 2 → .primitive .null [] ∉ ts) : Readable known root (.union ts)
  | intersection {ts : List Term} (hts : ∀ t ∈ ts, Readable known root t)
      (hlength : 2 ≤ ts.length) : Readable known root (.intersection ts)
  | nullable {t : Term} (ht : Readable known root t) (hnull : ∀ cs, t ≠ .primitive .null cs) :
      Readable known root (.nullable t)
  | record {ts : List Term} {value : Term} (hts : ∀ t ∈ ts, Readable known root t)
      (hvalue : ts.getLast? = some value) (hany : value ≠ .primitive .any []) :
      Readable known root (.container .record ts)
  | fields {fs : List (Member × Term)} {a : Option (Additional Term)} (hne : fs ≠ [])
      (hkeys : (fs.map fun f => f.1.key).Nodup) (hfs : ∀ f ∈ fs, Readable known root f.2)
      (ha : ∀ t, a = some (.typed t) → Readable known root t)
      (hany : a ≠ some (.typed (.primitive .any []))) : Readable known root (.object fs a)

/-- Nodes that a mapping reads. -/
abbrev language (m : Mapping Value) (known : List Scalar) : Language Value Value where
  mapping := m
  known := known
  scale := .plain
  expression := id
  raws := fun v raw => raw = .node v
  under := fun _ => True

/-- A node that is mapped to itself within any budget from `k` on. -/
abbrev Reads (m : Mapping Value) (known : List Scalar) (k : Nat) (v : Value) : Prop :=
  (language m known).Reads k v v

/-- Nodes are read and written by the same mapping, and references are kept. -/
structure Mirrors (m : Mapping Value) (root : Scalar) : Prop where
  grammar : m.grammar = .jsonSchema
  renderer : m.renderer = Target.JsonSchema.renderer definitionsStart root
  inline : m.inline = false

variable {m : Mapping Value} {root : Scalar} {known : List Scalar} {k k' : Nat} {v : Value}

theorem Mirrors.reads (hm : Mirrors m root) {s : Shape}
    (hc : classify m.scope.rootName v = .ok s)
    (hs : ∀ site budget ancestors, k ≤ budget →
      Yields (m.shape site known (m.mapType site known budget)
        (m.mapReference site known (budget + 1) ancestors) ancestors s) v) :
    Reads m known (k + 1) v := by
  refine reads_of_shape fun raw hraw => ⟨s, ?_, fun site budget ancestors _ hb =>
    hs site budget ancestors hb⟩
  cases hraw
  rw [hm.grammar]
  exact hc

/-! ### Intersections -/

/-- A node that an intersection takes in as it is. -/
structure Part (m : Mapping Value) (known : List Scalar) (h : Nat) (v : Value) : Prop where
  reads : Reads m known h v
  conjuncts : conjuncts v = .ok [v]

theorem Form.conjuncts_eq {es : List (String × Value)} (hf : Form es)
    (he : ∀ vs, es ≠ [("allOf", .list vs)]) :
    conjuncts (.object es) = .ok [.object es] := by
  cases hf with
  | empty | constant _ _ | enumerated _ | typedEnumerated _ _ | reference _ | choice _ => rfl
  | @typed _ es _ | @listed _ es _ => cases es <;> rfl
  | every vs => exact absurd rfl (he vs)

theorem conjuncts_every (vs : List Value) :
    conjuncts (.object [("allOf", .list vs)]) = .ok vs := rfl

theorem foldlM_intersect {e e' : Value} {es : List Value} {vs' : List Value}
    {vss : List (List Value)} (he : conjuncts e = .ok vs) (he' : conjuncts e' = .ok vs')
    (hes : Forall₂ (fun e vs => conjuncts e = .ok vs) es vss) :
    (e' :: es).foldlM intersect e =
      .ok (.object [("allOf", .list (vs ++ vs' ++ vss.flatten))]) := by
  have hstep : intersect e e' = .ok (.object [("allOf", .list (vs ++ vs'))]) := by
    rw [intersect, he, he']
    rfl
  rw [foldlM_cons, hstep]
  change es.foldlM intersect _ = _
  clear hstep
  induction hes generalizing e e' vs vs' with
  | nil => simp [foldlM_nil, Pure.pure, Except.pure]
  | @cons e'' ws es vss hws _ ih =>
    rw [foldlM_cons, intersect, conjuncts_every, hws]
    have hrest := ih (conjuncts_every (vs ++ vs')) hws
    rw [flatten_cons, ← append_assoc]
    exact hrest

/-- The node that is written for a term. -/
structure Written (m : Mapping Value) (known : List Scalar) (t : Term)
    (es : List (String × Value)) : Prop extends (language m known).Writes t (.object es) where
  form : Form es
  parts : ∃ vs, vs ≠ [] ∧ conjuncts (.object es) = .ok vs ∧
    ∀ v ∈ vs, Part m known (t.height + 1) v
  empty : es = [] → t = .primitive .any []
  null : ∀ rest, Details rest → es = ("type", .text "null") :: rest →
    ∃ cs, t = .primitive .null cs ∧ rest = cs.map constraintEntry

namespace Written

variable {t : Term} {es : List (String × Value)}

/-- Nodes that are no intersection are their own only part. -/
theorem of_form (hrender : t.render m.renderer = .ok (.object es)) (hform : Form es)
    (hreads : Reads m known (t.height + 1) (.object es))
    (hevery : ∀ vs, es ≠ [("allOf", .list vs)]) (hempty : es = [] → t = .primitive .any [])
    (hnull : ∀ rest, Details rest → es = ("type", .text "null") :: rest →
      ∃ cs, t = .primitive .null cs ∧ rest = cs.map constraintEntry) : Written m known t es where
  render := hrender
  form := hform
  reads := hreads
  parts := by
    have hconjuncts := hform.conjuncts_eq hevery
    refine ⟨_, by simp, hconjuncts, fun v hv => ?_⟩
    cases mem_singleton.mp hv
    exact ⟨hreads, hconjuncts⟩
  empty := hempty
  null := hnull

theorem of_head {k : String}
    (hrender : t.render m.renderer = .ok (.object ((k, v) :: es))) (hform : Form ((k, v) :: es))
    (hreads : Reads m known (t.height + 1) (.object ((k, v) :: es)))
    (hevery : k ≠ "allOf") (hnull : (k, v) ≠ ("type", .text "null")) :
    Written m known t ((k, v) :: es) :=
  of_form hrender hform hreads (fun _ heq => hevery (by cases heq; rfl)) (by simp)
    fun _ _ heq => absurd (cons.inj heq).1 hnull

theorem isNullSchema_eq (h : Written m known t es) (ht : t ≠ .primitive .null []) :
    isNullSchema (.object es) = false := by
  by_contra hnull
  rw [Bool.not_eq_false, Value.object_eq] at hnull
  have hes : Value.texts es = Value.texts [("type", .text "null")] := by
    unfold isNullSchema at hnull
    split at hnull
    · rename_i heq
      simpa using heq
    · cases hnull
  obtain ⟨cs, rfl, hcs⟩ := h.null [] .nil (Value.texts_inj hes)
  exact ht (by rw [map_eq_nil_iff.mp hcs.symm])

end Written

/-! ### Terms -/

theorem details_constraints {ls : List Limit} (hls : ∀ k ∈ ls.map keyword, k ∈ detailKeys)
    (hrequired : "required" ∉ ls.map keyword) (hcs : (cs.map Constraint.limit).Sublist ls) :
    Details (cs.map constraintEntry) := by
  have hkeys : ∀ e ∈ cs.map constraintEntry, e.1 ∈ ls.map keyword := by
    intro e he
    obtain ⟨c, hc, rfl⟩ := mem_map.mp he
    exact mem_map_of_mem (hcs.subset (mem_map_of_mem hc))
  refine ⟨fun e he => hls _ (hkeys e he), ?_⟩
  rw [lookup_of_notMem]
  · simp
  · intro hmem
    obtain ⟨e, he, heq⟩ := mem_map.mp hmem
    exact hrequired (heq ▸ hkeys e he)

/-- The primitives with a name in schemas, and the name. -/
theorem primitive_name {p : Primitive} (hp : p ∈ [.string, .number, .integer, .boolean, .null]) :
    Target.JsonSchema.primitive p = [("type", .text p.name)] ∧ primitive? p.name = some p ∧
      p.name ∉ ["array", "object"] ∧ (p.name = "null" → p = .null) := by
  revert p
  simp only [forall_mem_cons]
  exact ⟨⟨rfl, rfl, by decide, by decide⟩, ⟨rfl, rfl, by decide, by decide⟩,
    ⟨rfl, rfl, by decide, by decide⟩, ⟨rfl, rfl, by decide, by decide⟩,
    ⟨rfl, rfl, by decide, by decide⟩, by simp⟩

theorem enumeration_eq (vs : List Value) :
    Target.JsonSchema.enumeration vs = .object [("enum", .list vs)] ∨
      ∃ t, Target.JsonSchema.enumeration vs =
        .object [("type", .text t), ("enum", .list vs)] := by
  unfold Target.JsonSchema.enumeration
  dsimp only
  split
  · exact .inr ⟨_, rfl⟩
  · exact .inl rfl

theorem referenceName_definition (rootName name : String) :
    referenceName rootName (definitionsStart ++ name) = name := by
  have hne : (definitionsStart ++ name == "#") = false := by
    rw [beq_eq_false_iff_ne]
    intro heq
    have hchars := congrArg String.toList heq
    rw [String.toList_append] at hchars
    simp [definitionsStart] at hchars
  rw [referenceName, hne, String.toList_append, findSome?_cons,
    show "#/$defs/" = definitionsStart from rfl, Text.after?_append]
  exact String.ofList_toList

variable {t : Term} {ts : List Term} {es : List (String × Value)}
  {ess : List (List (String × Value))}

/-- The node of a term or null. -/
theorem nullable_eq (h : Form es) :
    Target.JsonSchema.nullable (.object es) = .ok (.object
        [("anyOf", .list [.object es, .object [("type", .text "null")]])]) ∨
      ∃ s rest, es = ("type", .text s) :: rest ∧ Details rest ∧
        Target.JsonSchema.nullable (.object es) =
          .ok (.object (("type", .list [.text s, .text "null"]) :: rest)) := by
  cases h with
  | empty | listed _ _ | constant _ _ | enumerated _ | typedEnumerated _ _ | reference _ | choice _
  | every _ => exact .inl rfl
  | @typed s rest hd =>
    refine .inr ⟨s, rest, rfl, hd, ?_⟩
    have hnone (k : String) (hk : k ∈ decidingKeys) :
        (("type", .text s) :: rest).lookup k = none := hd.undecided.keys k hk
    rw [Value.object_eq, Target.JsonSchema.nullable]
    simp only [Value.lookup_texts, Value.hasKey_texts, hnone "enum" (by decide),
      hnone "const" (by decide), lookup_cons_ite]
    exact congrArg (fun es => Except.ok (Value.map es))
      (Value.insert_first "type" (.list [.text s, .text "null"]) (.text s) rest)

section Parts

variable (h : Forall₂ (Written m known) ts ess)
include h

theorem writes_nodes : Forall₂ (language m known).Writes ts (ess.map .object) :=
  forall₂_map_right_iff.mpr (h.imp fun _ _ ht => ht.toWrites)

theorem renderAll_nodes : Term.renderAll m.renderer ts = .ok (ess.map .object) :=
  (renderAll_written id (writes_nodes h)).trans (congrArg Except.ok (map_id _))

/-- The parts of all members; none of them is empty, so that two members have two parts. -/
theorem exists_parts : ∃ vss, Forall₂ (fun e vs => conjuncts e = .ok vs) (ess.map .object) vss ∧
    (∀ vs ∈ vss, vs ≠ []) ∧ ∀ v ∈ vss.flatten, Part m known (depthBelow .plain ts) v := by
  have hmembers : ∀ es ∈ ess, ∃ vs, vs ≠ [] ∧ conjuncts (.object es) = .ok vs ∧
      ∀ v ∈ vs, Part m known (depthBelow .plain ts) v := by
    intro es hes
    obtain ⟨t, ht, hwritten⟩ := exists_mem_of_forall₂ h hes
    obtain ⟨vs, hne, hvs, hparts⟩ := hwritten.parts
    exact ⟨vs, hne, hvs, fun v hv =>
      ⟨(hparts v hv).reads.mono (Term.depth_lt_depthBelow ht), (hparts v hv).conjuncts⟩⟩
  obtain ⟨vss, hvss⟩ := exists_forall₂ hmembers
  refine ⟨vss, forall₂_map_left_iff.mpr (hvss.imp fun _ _ hvs => hvs.2.1), fun vs hvs => ?_,
    fun v hv => ?_⟩
  · obtain ⟨es, -, hne, -⟩ := exists_mem_of_forall₂ hvss hvs
    exact hne
  · obtain ⟨vs, hvs, hv⟩ := mem_flatten.mp hv
    obtain ⟨es, -, -, -, hparts⟩ := exists_mem_of_forall₂ hvss hvs
    exact hparts v hv

end Parts

theorem yields_nodes (hvs : ∀ v ∈ vs, Reads m known k v) {budget : Nat} (hb : k ≤ budget)
    (site : Site) (ancestors : List Scalar) :
    Yields ((vs.map .node).mapM (m.mapType site known budget ancestors)) vs := by
  have hyields := yields_members (L := language m known) .node (fun _ => rfl) site ancestors trivial
    hb hvs
  rwa [show vs.map (language m known).expression = vs from map_id vs] at hyields

section Terms

variable (hm : Mirrors m root)
include hm

theorem written_any : Written m known (.primitive .any []) [] := by
  refine Written.of_form ?_ .empty ?_ (by simp) (fun _ => rfl) (by simp)
  · rw [Term.render, hm.renderer]
    rfl
  · refine hm.reads (k := 0) rfl fun site budget ancestors _ => ?_
    rw [Mapping.shape, hm.renderer]
    exact Yields.lift rfl

theorem written_object : Written m known (.primitive .object []) [("type", .text "object")] := by
  refine Written.of_head ?_ (.typed _ .nil) ?_ (by decide) (by simp)
  · rw [Term.render, hm.renderer]
    rfl
  · refine hm.reads (k := 0) rfl fun site budget ancestors _ => ?_
    rw [Mapping.shape, hm.renderer]
    exact Yields.lift rfl

theorem written_primitive {p : Primitive} (hp : p ∈ [.string, .number, .integer, .boolean, .null])
    (hcs : (cs.map Constraint.limit).Sublist limits) :
    Written m known (.primitive p cs) (("type", .text p.name) :: cs.map constraintEntry) := by
  obtain ⟨hentries, hname, hother, hnull⟩ := primitive_name hp
  have hdetails : Details (cs.map constraintEntry) :=
    details_constraints (by decide) (by decide) hcs
  have hordered : Ordered limits [("type", .text p.name)] cs :=
    ⟨by decide, by decide, by simp [limits, keyword, Limit.keyword?], by simp, hcs⟩
  have hrender : m.renderer.primitive p cs =
      .ok (.object (("type", .text p.name) :: cs.map constraintEntry)) := by
    rw [hm.renderer]
    exact congrArg Except.ok (hentries ▸ hordered.constrain)
  have hlookup (k : String) (hk : k ∉ limits.map keyword) :
      (cs.map constraintEntry).lookup k = none := by
    refine lookup_of_notMem fun hmem => hk ?_
    obtain ⟨e, he, rfl⟩ := mem_map.mp hmem
    obtain ⟨c, hc, rfl⟩ := mem_map.mp he
    exact mem_map_of_mem (hordered.limit_mem hc)
  have hclassify : classify m.scope.rootName
      (.object (("type", .text p.name) :: cs.map constraintEntry)) =
        .ok (.primitive p cs) := by
    rw [classify_primitive hdetails.undecided
      (array?_eq_none (fun heq => hother (by simp [heq])) (hlookup _ (by decide))
        (hlookup _ (by decide)))
      (object?_eq_none (fun heq => hother (by simp [heq])) (hlookup _ (by decide))), primitiveShape,
      Value.lookup?_texts, lookup_cons_ite, if_pos rfl]
    have hconstraints := hordered.constraints
    rw [singleton_append] at hconstraints
    simp only [hname, hconstraints]
  have hreads : Reads m known 1
      (.object (("type", .text p.name) :: cs.map constraintEntry)) :=
    hm.reads (k := 0) hclassify fun site budget ancestors _ => Yields.lift hrender
  refine Written.of_form hrender (.typed _ hdetails) hreads (by simp) (by simp) ?_
  intro rest _ heq
  obtain ⟨htype, rfl⟩ := cons.inj heq
  exact ⟨cs, by rw [hnull (by simpa using htype)], rfl⟩

theorem written_literal {v : Value} (hv : v.isPlain) (hn : v ≠ .null) (htext : v.hasText) :
    Written m known (.literal v) [("type", .text (typeOf v)), ("const", v)] := by
  have hrender : m.renderer.literal v =
      .ok (.object [("type", .text (typeOf v)), ("const", v)]) := by
    rw [hm.renderer]
    rcases v with s | _ | _
    · cases s with
      | null => exact absurd rfl hn
      | _ => rfl
    · rfl
    · rfl
  refine Written.of_head hrender (.constant _ _) ?_ (by decide) ?_
  · refine hm.reads (k := 0) (classify_constant _ hv) fun site budget ancestors _ => ?_
    exact (Mapping.yields_checkRange (Mapping.rangeShown_of_hasText (by simpa)) site).bind
      (Yields.lift hrender)
  · rcases v with s | _ | _
    · cases s with
      | null => exact absurd rfl hn
      | _ => simp [typeOf]
    · simp [typeOf]
    · simp [typeOf]

theorem yields_enumeration (site : Site) (vs : List Value) :
    Yields (m.enumeration site vs) (Target.JsonSchema.enumeration vs) := by
  rw [Mapping.enumeration, hm.renderer]
  exact (Yields.lift (a := (Target.JsonSchema.enumeration vs, [])) rfl).bind
    ((Yields.pure _).bind (Yields.pure _))

theorem written_enumeration (hvs : ∀ v ∈ vs, v.isPlain ∧ v.hasText) :
    ∃ es, Written m known (.enumeration vs) es := by
  have hfilter : vs.filter Value.isPlain = vs := filter_eq_self.mpr fun v hv => (hvs v hv).1
  have hshown : Mapping.rangeShown vs := Mapping.rangeShown_of_hasText fun v hv => (hvs v hv).2
  have hrender : (Term.enumeration vs).render m.renderer =
      .ok (Target.JsonSchema.enumeration vs) := by
    rw [Term.render, hm.renderer]
    rfl
  have hreads (hc : classify m.scope.rootName (Target.JsonSchema.enumeration vs) =
      .ok (.enumeration (vs.filter Value.isPlain))) :
      Reads m known 1 (Target.JsonSchema.enumeration vs) := by
    refine hm.reads (k := 0) (hfilter ▸ hc) fun site budget ancestors _ => ?_
    exact (Mapping.yields_checkRange hshown site).bind (yields_enumeration hm site vs)
  rcases enumeration_eq vs with heq | ⟨t, heq⟩
  · rw [heq] at hrender hreads
    exact ⟨_, Written.of_head hrender (.enumerated vs) (hreads (classify_enumerated vs))
      (by decide) (by simp)⟩
  · rw [heq] at hrender hreads
    refine ⟨_, Written.of_form hrender (.typedEnumerated t vs)
      (hreads (classify_typedEnumerated t vs)) (by simp) (by simp) ?_⟩
    -- An enumeration is no detail of a type, so that this is not a null with constraints.
    intro rest hrest hnull
    obtain ⟨-, rfl⟩ := cons.inj hnull
    have hkey : "enum" ∈ detailKeys := hrest.keys _ (mem_singleton_self _)
    exact absurd hkey (by decide)

theorem written_reference {name : String} (hknown : .text name ∈ known)
    (hroot : root ≠ .text name) :
    Written m known (.reference name) [("$ref", .text (definitionsStart ++ name))] := by
  have href : Target.JsonSchema.reference definitionsStart root name =
      .object [("$ref", .text (definitionsStart ++ name))] := by
    have hne : (root == .text name) = false := by simpa using hroot
    simp [Target.JsonSchema.reference, node, hne]
  have hrender : m.renderer.reference name =
      .object [("$ref", .text (definitionsStart ++ name))] := by
    rw [hm.renderer]
    exact href
  have hdeferred : m.renderer.deferred name = m.renderer.reference name := by
    rw [hm.renderer]
    rfl
  refine Written.of_head (congrArg Except.ok hrender) (.reference _) ?_ (by decide) (by simp)
  refine hm.reads (k := 0) (classify_reference _) fun site budget ancestors _ => ?_
  rw [referenceName_definition, Mapping.shape, ← hrender]
  exact Mapping.yields_reference hknown hm.inline hdeferred

theorem written_array (h : Written m known t es)
    (hcs : (cs.map Constraint.limit).Sublist [.minItems, .maxItems]) :
    Written m known (.array t cs)
      (("type", .text "array") :: ("items", .object es) :: cs.map constraintEntry) := by
  have hconstraints : Details (cs.map constraintEntry) :=
    details_constraints (by decide) (by decide) hcs
  have hdetails : Details (("items", .object es) :: cs.map constraintEntry) :=
    hconstraints.cons (by decide) (by decide) _
  have hordered : Ordered [.minItems, .maxItems]
      [("type", .text "array"), ("items", .object es)] cs :=
    ⟨by decide, by decide, by simp [keyword, Limit.keyword?], by simp, hcs⟩
  have hrender : m.renderer.array (.object es) cs = .ok (.object
      (("type", .text "array") :: ("items", .object es) :: cs.map constraintEntry)) := by
    rw [hm.renderer]
    exact congrArg Except.ok hordered.constrain
  refine Written.of_head ?_ (.typed _ hdetails) ?_ (by decide) (by simp)
  · rw [Term.render, h.render]
    exact hrender
  · have hshape := array?_element es (cs.map constraintEntry)
      (hconstraints.lookup_eq_none (by decide))
    have hread := hordered.constraints
    simp only [cons_append, nil_append] at hread
    rw [hread] at hshape
    refine hm.reads (k := t.height + 1) (classify_array hdetails.undecided hshape)
      fun site budget ancestors hb => ?_
    exact (h.reads _ rfl site budget ancestors trivial hb).bind (Yields.lift hrender)

theorem yields_intersectAll {v v' : Value} (hvs : ∀ w ∈ v :: v' :: vs, conjuncts w = .ok [w]) :
    m.intersectAll (v :: v' :: vs) = .ok (.object [("allOf", .list (v :: v' :: vs))]) := by
  obtain ⟨hv, hv', hvs⟩ := by simpa only [forall_mem_cons] using hvs
  have hall : Forall₂ (fun e ws => conjuncts e = .ok ws) vs (vs.map fun w => [w]) :=
    forall₂_map_right_iff.mpr (forall₂_same.mpr hvs)
  have hfold := foldlM_intersect hv hv' hall
  have hflatten : (vs.map fun w => [w]).flatten = vs := by
    rw [← flatMap_def]
    exact flatMap_singleton' vs
  rw [hflatten] at hfold
  rw [Mapping.intersectAll, hm.renderer]
  exact hfold

theorem written_nullable (h : Written m known t es) (hnull : ∀ cs, t ≠ .primitive .null cs) :
    ∃ es, Written m known (.nullable t) es := by
  have hrender {v : Value} (hv : Target.JsonSchema.nullable (.object es) = .ok v) :
      m.renderer.nullable (.object es) = .ok v := by
    rw [hm.renderer]
    exact hv
  have hshape {v : Value} (hv : Target.JsonSchema.nullable (.object es) = .ok v)
      (hc : classify m.scope.rootName v = .ok (.nullable (.node (.object es)))) :
      Reads m known (t.height + 1 + 1) v := by
    refine hm.reads hc fun site budget ancestors hb => ?_
    exact (h.reads _ rfl site budget ancestors trivial hb).bind (Yields.lift (hrender hv))
  have hterm {v : Value} (hv : Target.JsonSchema.nullable (.object es) = .ok v) :
      (Term.nullable t).render m.renderer = .ok v := by
    rw [Term.render, h.render]
    exact hrender hv
  rcases nullable_eq h.form with heq | ⟨s, rest, rfl, hd, heq⟩
  · have hc : classify m.scope.rootName (.object [("anyOf", .list [.object es,
        .object [("type", .text "null")]])]) = .ok (choice _) := classify_choice _ _
    rw [choice_null (h.isNullSchema_eq (hnull []))] at hc
    exact ⟨_, Written.of_head (hterm heq) (.choice _) (hshape heq hc) (by decide) (by simp)⟩
  · have hs : s ≠ "null" := by
      rintro rfl
      obtain ⟨cs, hcs, -⟩ := h.null rest hd rfl
      exact hnull cs hcs
    exact ⟨_, Written.of_head (hterm heq) (.listed s hd) (hshape heq (classify_listed hs hd))
      (by decide) (by simp)⟩

variable (h : Forall₂ (Written m known) ts ess)
include h

theorem written_tuple :
    Written m known (.tuple ts)
      [("type", .text "array"), ("items", .list (ess.map .object)),
        ("minItems", .int (Int.ofNat ess.length)), ("maxItems", .int (Int.ofNat ess.length))] := by
  have hrender : m.renderer.tuple (ess.map .object) = .ok (.object
      [("type", .text "array"), ("items", .list (ess.map .object)),
        ("minItems", .int (Int.ofNat ess.length)), ("maxItems", .int (Int.ofNat ess.length))]) := by
    have hlength : (ess.map Value.object).length = ess.length := length_map _
    rw [hm.renderer, ← hlength]
    rfl
  have hdetails : Details [("items", .list (ess.map .object)),
      ("minItems", .int (Int.ofNat ess.length)), ("maxItems", .int (Int.ofNat ess.length))] :=
    ((Details.nil.cons (by decide) (by decide) _).cons (by decide) (by decide) _).cons
      (by decide) (by decide) _
  refine Written.of_head ?_ (.typed _ hdetails) ?_ (by decide) (by simp)
  · rw [Term.render, renderAll_nodes h]
    exact hrender
  · refine hm.reads (k := depthBelow .plain ts)
      (classify_array hdetails.undecided (array?_elements _ _ (by simp [lookup_cons_ite])))
      fun site budget ancestors hb => ?_
    exact (yields_nodes (reads_written id (writes_nodes h)) hb site ancestors).bind
      (Yields.lift hrender)

/-- Of two schemas none is null, so that the choice is no nullable schema. -/
theorem written_union (hlength : 2 ≤ ts.length) (hnull : ts.length = 2 → .primitive .null [] ∉ ts) :
    Written m known (.union ts) [("anyOf", .list (ess.map .object))] := by
  have hrender : m.renderer.union (ess.map .object) =
      .ok (.object [("anyOf", .list (ess.map .object))]) := by
    rw [hm.renderer]
    rfl
  have hchoice : choice (ess.map .object) =
      .union ((ess.map .object).map .node) := by
    refine choice_eq_union fun hlen => ?_
    have hts : .primitive .null [] ∉ ts := hnull (by simpa [h.length_eq] using hlen)
    clear hlength hnull hrender hlen
    induction h with
    | nil => simp
    | @cons t es ts ess ht _ ih =>
      rw [mem_cons, not_or] at hts
      rw [map_cons, forall_mem_cons]
      exact ⟨ht.isNullSchema_eq fun heq => hts.1 heq.symm, ih hts.2⟩
  have hreads := reads_written id (writes_nodes h)
  obtain ⟨t₁, t₂, ts, rfl⟩ : ∃ t₁ t₂ ts', ts = t₁ :: t₂ :: ts' := by
    match ts, hlength with
    | t₁ :: t₂ :: ts, _ => exact ⟨t₁, t₂, ts, rfl⟩
  obtain ⟨es₁, ess, -, hrest, rfl⟩ := forall₂_cons_left_iff.mp h
  obtain ⟨es₂, ess, -, -, rfl⟩ := forall₂_cons_left_iff.mp hrest
  refine Written.of_head ?_ (.choice _) ?_ (by decide) (by simp)
  · rw [Term.render, renderAll_nodes h]
    exact hrender
  · refine hm.reads (k := depthBelow .plain (t₁ :: t₂ :: ts))
      ((classify_choice _ _).trans (congrArg Except.ok hchoice)) fun site budget ancestors hb => ?_
    exact (yields_nodes hreads hb site ancestors).bind (Yields.lift hrender)

theorem written_intersection (hlength : 2 ≤ ts.length) :
    ∃ es, Written m known (.intersection ts) es := by
  obtain ⟨vss, hvss, hne, hparts⟩ := exists_parts h
  have hrendered := renderAll_nodes h
  obtain ⟨es₁, es₂, ess, rfl⟩ : ∃ es₁ es₂ ess', ess = es₁ :: es₂ :: ess' := by
    match ess, h.length_eq ▸ hlength with
    | es₁ :: es₂ :: ess, _ => exact ⟨es₁, es₂, ess, rfl⟩
  obtain ⟨vs₁, rest, hvs₁, hrest, rfl⟩ := forall₂_cons_left_iff.mp hvss
  obtain ⟨vs₂, vss, hvs₂, hothers, rfl⟩ := forall₂_cons_left_iff.mp hrest
  have hflatten : (vs₁ :: vs₂ :: vss).flatten = vs₁ ++ vs₂ ++ vss.flatten := by simp
  rw [hflatten] at hparts
  obtain ⟨v₁, v₂, vs, hvs⟩ : ∃ v₁ v₂ vs, vs₁ ++ vs₂ ++ vss.flatten = v₁ :: v₂ :: vs := by
    match vs₁, vs₂, hne vs₁ (by simp), hne vs₂ (by simp) with
    | v :: [], w :: ws, _, _ => exact ⟨v, w, ws ++ vss.flatten, rfl⟩
    | v :: v' :: vs, w :: ws, _, _ => exact ⟨v, v', vs ++ w :: ws ++ vss.flatten, by simp⟩
  rw [hvs] at hparts
  have hreads : Reads m known (depthBelow .plain ts + 1)
      (.object [("allOf", .list (v₁ :: v₂ :: vs))]) := by
    refine hm.reads (k := depthBelow .plain ts) (classify_every _ _)
      fun site budget ancestors hb => ?_
    refine (yields_nodes (fun v hv => (hparts v hv).reads) hb site ancestors).bind
      (Yields.lift (yields_intersectAll hm fun v hv => (hparts v hv).conjuncts))
  refine ⟨[("allOf", .list (v₁ :: v₂ :: vs))], ⟨?_, hreads⟩, .every _,
    ⟨_, by simp, conjuncts_every _, fun v hv => ?_⟩, by simp, by simp⟩
  · have hfold := foldlM_intersect hvs₁ hvs₂ hothers
    rw [Term.render, hrendered, hm.renderer, ← hvs]
    exact hfold
  · exact ⟨(hparts v hv).reads.mono (Nat.le_succ _), (hparts v hv).conjuncts⟩

theorem written_record (hlast : ess.getLast? = some es) (hne : es ≠ []) :
    Written m known (.container .record ts)
      [("type", .text "object"), ("additionalProperties", .object es)] := by
  have hrender (vs : List Value) (hvs : vs.getLast? = some (.object es)) :
      m.renderer.container .record vs = .ok (.object
        [("type", .text "object"), ("additionalProperties", .object es)]) := by
    rw [hm.renderer]
    change container .record vs = _
    rw [container, hvs]
    rfl
  have hdetails : Details [("additionalProperties", .object es)] :=
    Details.nil.cons (by decide) (by decide) _
  obtain ⟨e, es, rfl⟩ := exists_cons_of_ne_nil hne
  have hvalue : Reads m known (depthBelow .plain ts) (.object (e :: es)) :=
    reads_written id (writes_nodes h) _ (mem_map_of_mem (mem_of_getLast? hlast))
  have hkey : Reads m known (depthBelow .plain ts) (.object [("type", .text "string")]) := by
    have hstring : Written m known (.primitive .string []) [("type", .text "string")] :=
      written_primitive hm (by simp) (nil_sublist limits)
    cases h with
    | nil => cases hlast
    | cons _ _ => exact hstring.reads.mono (by rw [Term.depth, depthBelow]; omega)
  refine Written.of_head ?_ (.typed _ hdetails) ?_ (by decide) (by simp)
  · rw [Term.render, renderAll_nodes h]
    exact hrender _ (by rw [getLast?_map, hlast]; rfl)
  · refine hm.reads (k := depthBelow .plain ts) (classify_object hdetails.undecided
      (array?_eq_none (by decide) (by simp [lookup_cons_ite]) (by simp [lookup_cons_ite]))
      (object?_record e es)) fun site budget ancestors hb => ?_
    have hargs : ∀ v ∈ [.object [("type", .text "string")], .object (e :: es)],
        Reads m known (depthBelow .plain ts) v := by simp [hkey, hvalue]
    exact (yields_nodes hargs hb site ancestors).bind (Yields.lift (hrender _ rfl))

end Terms

/-- The node of a term as a value. -/
def WrittenNode (m : Mapping Value) (known : List Scalar) (t : Term) (v : Value) : Prop :=
  ∃ es, v = .object es ∧ Written m known t es

theorem WrittenNode.writes (h : WrittenNode m known t v) : (language m known).Writes t v := by
  obtain ⟨es, rfl, ht⟩ := h
  exact ht.toWrites

section Fields

variable {fs : List (Member × Term)} {ps : List (Member × Value)}
  {a : Option (Additional Term)} {o : Option (Additional Value)}
  (h : Forall₂ (Term.Paired (WrittenNode m known)) fs ps)

include h

theorem forms_written : ∀ p ∈ ps, ∃ es, p.2 = .object es ∧ Form es := by
  intro p hp
  obtain ⟨f, -, -, es, hes, ht⟩ := exists_mem_of_forall₂ h hp
  exact ⟨es, hes, ht.form⟩

theorem keys_written : (ps.map fun p => p.1.key) = fs.map fun f => f.1.key := by
  induction h with
  | nil => rfl
  | cons hf _ ih => rw [map_cons, map_cons, ih, hf.1]

theorem written_fields (hm : Mirrors m root) (hne : fs ≠ [])
    (hkeys : (fs.map fun f => f.1.key).Nodup) (ha : (language m known).WritesAdditional a o)
    (hentries : ∀ v, o = some (.typed v) → ∃ e es, v = .object (e :: es)) :
    Written m known (.object fs a) (objectEntries ps o) := by
  rw [← keys_written h] at hkeys
  have hrender {ms : List (MappedField Value)} (hms : Forall₂ Plain ps ms) :
      m.renderer.object ms o false = .ok (.object (objectEntries ps o)) := by
    rw [hm.renderer]
    exact object_eq hms hkeys o
  have hsame : o.map (Additional.map (language m known).expression) = o := by
    rcases o with _ | _ | _ | v <;> rfl
  have hdetails := details_memberEntries ps o
  have hne' : (ps.map fun p => p.1.field (.node p.2)) ≠ [] := by
    rintro hnil
    rw [map_eq_nil_iff.mp hnil] at h
    cases h
    exact hne rfl
  have hobject := object?_fields hne' (by rw [objectEntries, lookup_cons_ite, if_pos rfl])
    (properties_objectEntries hkeys (forms_written h) o)
  rw [additionalOf_objectEntries ps hentries] at hobject
  have hplain (raw : Value → Raw) : Forall₂ Plain ps
      (ps.map fun p => ⟨p.1.field (raw p.2), p.2, []⟩) :=
    forall₂_map_right_iff.mpr (forall₂_same.mpr fun p hp =>
      ⟨⟨_, rfl⟩, rfl, forms_written h p hp⟩)
  refine Written.of_head ?_ (.typed _ hdetails) ?_ (by decide) (by simp)
  · rw [Term.render, renderFields_written WrittenNode.writes h, ha.render, hsame]
    exact hrender (hplain fun _ => .text [])
  · have hclassify : classify m.scope.rootName (.object (objectEntries ps o)) = .ok _ :=
      classify_object hdetails.undecided (array?_eq_none (by decide)
        (lookup_memberEntries_eq_none ps o (by decide))
        (lookup_memberEntries_eq_none ps o (by decide))) hobject
    refine hm.reads hclassify fun site budget ancestors hb => ?_
    have hle : max (Term.depthOfFields .plain fs) (Term.depthOfAdditional .plain a) ≤ budget := hb
    have hfields :=
      yields_fields (L := language m known) .node (fun _ => rfl) site ancestors trivial
      (show Term.depthOfFields .plain fs ≤ budget by omega) Prod.snd
      (reads_writtenFields WrittenNode.writes h)
    have hextra := yields_additional (L := language m known) .node (fun _ => rfl) site ancestors
      trivial (show Term.depthOfAdditional .plain a ≤ budget by omega) ha.reads
    rw [hsame] at hextra
    exact hfields.bind (hextra.bind (Yields.lift (hrender (hplain .node))))

end Fields

theorem exists_written (hm : Mirrors m root) {t : Term} (h : Readable known root t) :
    ∃ es, Written m known t es := by
  induction h with
  | any => exact ⟨_, written_any hm⟩
  | object => exact ⟨_, written_object hm⟩
  | primitive hp hcs => exact ⟨_, written_primitive hm hp hcs⟩
  | literal hv hnull htext => exact ⟨_, written_literal hm hv hnull htext⟩
  | enumeration hvs => exact written_enumeration hm hvs
  | reference hknown hroot => exact ⟨_, written_reference hm hknown hroot⟩
  | array _ hcs ih =>
    obtain ⟨es, hes⟩ := ih
    exact ⟨_, written_array hm hes hcs⟩
  | tuple _ ih =>
    obtain ⟨ess, hess⟩ := exists_forall₂ ih
    exact ⟨_, written_tuple hm hess⟩
  | union _ hlength hnull ih =>
    obtain ⟨ess, hess⟩ := exists_forall₂ ih
    exact ⟨_, written_union hm hess hlength hnull⟩
  | intersection _ hlength ih =>
    obtain ⟨ess, hess⟩ := exists_forall₂ ih
    exact written_intersection hm hess hlength
  | nullable _ hnull ih =>
    obtain ⟨es, hes⟩ := ih
    exact written_nullable hm hes hnull
  | @record ts value _ hvalue hany ih =>
    obtain ⟨ess, hess⟩ := exists_forall₂ ih
    obtain ⟨es, hlast, hes⟩ := exists_getLast?_of_forall₂ hess hvalue
    exact ⟨_, written_record hm hess hlast fun hnil => hany (hes.empty hnil)⟩
  | @fields fs a hne hkeys _ _ hany ihfs iha =>
    obtain ⟨ps, hps⟩ := Term.exists_paired (R := WrittenNode m known) fun f hf =>
      (ihfs f hf).elim fun es hes => ⟨_, es, rfl, hes⟩
    obtain ⟨o, ho, hread⟩ := exists_writesAdditional (R := WrittenNode m known)
      WrittenNode.writes fun t ht => (iha t ht).elim fun es hes => ⟨_, es, rfl, hes⟩
    refine ⟨_, written_fields hps hm hne hkeys ho fun v hv => ?_⟩
    obtain ⟨t, rfl, es, rfl, ht⟩ := hread v hv
    obtain ⟨e, es, rfl⟩ := exists_cons_of_ne_nil fun hnil : es = [] => hany (by rw [ht.empty hnil])
    exact ⟨e, es, rfl⟩

/-- The warning about a constant with too many digits has no text. -/
theorem mapType_wide (hm : Mirrors m root) {i : Int} (hi : (Value.int i).hasText = false)
    (site : Site) (budget : Nat) (ancestors : List Scalar) :
    (m.mapType site known (budget + 1) ancestors (.node
      (.object [("type", .text "integer"), ("const", .int i)]))).result =
        .error .unreadableNumber := by
  have hunsafe : isUnsafeInteger (.int i) := by
    rw [Value.hasText_scalar, Bool.eq_false_iff, ne_eq, Scalar.hasText_int_iff, Nat.not_lt] at hi
    have hmax : safeIntegerMax < 10 ^ 16 := by decide
    have hpow {k : Nat} (hk : 16 ≤ k) : safeIntegerMax < Nat.pow 10 k :=
      Nat.lt_of_lt_of_le hmax (Nat.pow_le_pow_right (by decide) hk)
    exact decide_eq_true (Nat.lt_of_lt_of_le (hpow (by decide)) hi)
  have hshown : Mapping.rangeShown [.int i] = false := by
    rw [Mapping.rangeShown, filter_cons_of_pos hunsafe, all_cons, hi]
    rfl
  have hplain : (Value.int i).isPlain := rfl
  have hclassify : classify m.scope.rootName
      (.object [("type", .text "integer"), ("const", .int i)]) = .ok (.literal (.int i)) :=
    classify_constant "integer" hplain
  have hgrammar : m.grammar.classify m.scope (.node (.object
      [("type", .text "integer"), ("const", .int i)])) = .ok (.literal (.int i)) := by
    rw [hm.grammar]
    exact hclassify
  rw [Mapping.mapType_succ, hgrammar, Logged.lift_ok, pure_bind, Mapping.shape,
    Mapping.checkRange_eq, hshown]
  rfl

end Crosswalk.JsonSchema

namespace Crosswalk.Conversion

open List
open JsonSchema (Readable)

/-- From schemas to schemas, with references by name. -/
def ofSchemas (settings : Settings) : Conversion :=
  { grammar := .jsonSchema, target := .jsonSchema, settings }

/-- The node of a term is mapped to itself. -/
theorem schema_readBack (settings : Settings) (scope : Scope) (catalogue : Catalogue)
    (root : Scalar) (site : Site) (known ancestors : List Scalar) {t : Term}
    (ht : Readable known root t) {limit : Int}
    (hlimit : settings.maxDepth.floor? = .ok (some limit)) (hheight : t.height ≤ limit) :
    let m : Mapping Value := (ofSchemas settings).mapping scope catalogue root
    ∃ node, t.render m.renderer = .ok node ∧
      let mapped := m.mapType site known (settings.budgetAt 0) ancestors (.node node)
      mapped.result = .ok node ∧
        ∀ p : Progress, ∀ d ∈ (p.afterAll mapped.log).2, d.problem = .numericRange := by
  intro m
  have hm : JsonSchema.Mirrors m root := ⟨rfl, rfl, rfl⟩
  obtain ⟨es, hes⟩ := JsonSchema.exists_written hm ht
  have hyields := hes.reads _ rfl site (settings.budgetAt 0) ancestors trivial
    (Settings.lt_budgetAt hlimit hheight)
  exact ⟨_, hes.render, hyields.result, Progress.numericRange_of_quiet hyields.quiet⟩

/-- An object whose fields hold a choice, an intersection within a nullable schema, and a record. -/
def nestedTerm : Term :=
  .object
    [(⟨"id", false⟩, .primitive .integer [⟨.minimum, .int 1⟩, ⟨.multipleOf, .int 2⟩]),
      (⟨"kind", true⟩,
        .union [.literal (.text "a"), .enumeration [.int 1, .null], .primitive .null []]),
      (⟨"both", true⟩, .nullable (.intersection [.reference "A",
        .intersection [.primitive .object [], .array (.nullable (.primitive .string [])) []]])),
      (⟨"rest", false⟩, .container .record [.primitive .string [], .tuple [.reference "B"]])]
    (some (.typed (.primitive .boolean [])))

theorem readable_nestedTerm :
    Readable [.text "R", .text "A", .text "B"] (.text "R") nestedTerm := by
  refine .fields (by simp) (by decide) ?_ ?_ (by simp)
  · simp only [forall_mem_cons]
    refine ⟨.primitive (by simp) (by decide), .union ?_ (by decide) (by simp),
      .nullable (.intersection ?_ (by decide)) (by simp),
      .record ?_ (getLast?_cons_cons ..) (by simp), by simp⟩
    · simp only [forall_mem_cons]
      exact ⟨.literal rfl (by simp) rfl, .enumeration (by decide),
        .primitive (by simp) (nil_sublist _), by simp⟩
    · simp only [forall_mem_cons]
      refine ⟨.reference (by simp) (by simp), .intersection ?_ (by decide), by simp⟩
      simp only [forall_mem_cons]
      exact ⟨.object, .array (.nullable (.primitive (by simp) (nil_sublist _)) (by simp))
        (nil_sublist _), by simp⟩
    · simp only [forall_mem_cons]
      refine ⟨.primitive (by simp) (nil_sublist _), .tuple ?_, by simp⟩
      simp only [forall_mem_cons]
      exact ⟨.reference (by simp) (by simp), by simp⟩
  · rintro t ⟨⟩
    exact .primitive (by simp) (nil_sublist _)

theorem nestedTerm_readBack :
    Readable [.text "R", .text "A", .text "B"] (.text "R") nestedTerm ∧
      nestedTerm.height ≤ (6 : Int) ∧
      let m : Mapping Value :=
        (ofSchemas { maxDepth := .int 6 }).mapping {} (.ofList []) (.text "R")
      ∃ node, nestedTerm.render m.renderer = .ok node ∧
        let mapped := m.mapType {} [.text "R", .text "A", .text "B"] 7 [] (.node node)
        mapped.result = .ok node ∧
          ∀ p : Progress, ∀ d ∈ (p.afterAll mapped.log).2, d.problem = .numericRange :=
  ⟨readable_nestedTerm, by decide,
    schema_readBack { maxDepth := .int 6 } {} (.ofList []) (.text "R") {} _ []
    readable_nestedTerm rfl (by decide)⟩

/-- The constant with the least integer that has too many digits. -/
def wideLiteral : Term := .literal (.int (Int.ofNat (Nat.pow 10 digitLimit)))

/-- A constant with too many digits is written, but not read. -/
theorem wideLiteral_fails :
    wideLiteral.height ≤ (32 : Int) ∧
      let m : Mapping Value := (ofSchemas {}).mapping {} (.ofList []) (.text "R")
      ∃ node, wideLiteral.render m.renderer = .ok node ∧
        (m.mapType {} [] (Settings.budgetAt {} 0) [] (.node node)).result =
          .error .unreadableNumber := by
  have hwide : (Value.int (Int.ofNat (Nat.pow 10 digitLimit))).hasText = false := by
    have hself (n : Nat) : ¬(Int.ofNat n).natAbs < n := Nat.lt_irrefl n
    rw [Value.hasText_scalar, Bool.eq_false_iff, ne_eq, Scalar.hasText_int_iff]
    exact hself _
  exact ⟨by decide, _, rfl, JsonSchema.mapType_wide ⟨rfl, rfl, rfl⟩ hwide {} 32 []⟩

end Crosswalk.Conversion
