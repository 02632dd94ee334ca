import Crosswalk.Proofs.Entries
import Crosswalk.Proofs.Term

/-!
Schema nodes as they are written: the keywords of constraints, the properties of an object, and the
forms that the node of a term can take.
-/

namespace Crosswalk

open List
open Target.JsonSchema (constrain)
open Value (lookup_texts same_text texts)
open Term (Member)

variable {es : List (String × Value)}

namespace JsonSchema

variable {k : String} {ps : List (Member × Value)}

/-! ### Constraints -/

/-- The keyword of a limit that has one. -/
def keyword (l : Limit) : String := l.keyword?.getD ""

/-- The entry of a constraint. -/
def constraintEntry (c : Constraint) : String × Value := (keyword c.limit, c.value)

/-- New keywords are added at the end. -/
theorem constrain_eq {cs : List Constraint} (hk : ∀ c ∈ cs, c.limit.keyword?.isSome)
    (hn : ((es ++ cs.map constraintEntry).map Prod.fst).Nodup) :
    constrain es cs = .object (es ++ cs.map constraintEntry) := by
  rw [constrain, Value.object_eq]
  congr 1
  change cs.foldl _ (texts es) = _
  induction cs generalizing es with
  | nil => simp
  | cons c cs ih =>
    obtain ⟨k, hkey⟩ := Option.isSome_iff_exists.mp (hk c (mem_cons_self ..))
    have hentry : constraintEntry c = (k, c.value) := by simp [constraintEntry, keyword, hkey]
    have happend : es ++ (c :: cs).map constraintEntry =
        es ++ [(k, c.value)] ++ cs.map constraintEntry := by simp [hentry]
    rw [happend] at hn ⊢
    have hnew : k ∉ es.map Prod.fst := by
      intro hmem
      rw [append_assoc, map_append] at hn
      exact (nodup_append.mp hn).2.2 k hmem k (by simp) rfl
    rw [foldl_cons, hkey]
    simp only [Target.JsonSchema.set]
    rw [Value.insert_new hnew]
    exact ih (fun c' hc' => hk c' (mem_cons_of_mem _ hc')) hn

theorem constraints_cons_found {l : Limit} {v : Value} (hkey : l.keyword? = some k)
    (hv : es.lookup k = some v) (ls : List Limit) :
    constraints (l :: ls) (texts es) = ⟨l, v⟩ :: constraints ls (texts es) := by
  rw [constraints, filterMap_cons_some (b := ⟨l, v⟩) (by simp [hkey, hv]), constraints]

theorem constraints_cons_missing {l : Limit} (hkey : l.keyword? = some k) (hv : es.lookup k = none)
    (ls : List Limit) :
    constraints (l :: ls) (texts es) = constraints ls (texts es) := by
  rw [constraints, filterMap_cons_none (by simp [hkey, hv]), constraints]

/-- Reading constraints in the order of the limits; `es` are the entries of the node. -/
theorem constraints_eq {ls : List Limit} (hn : ls.Nodup) {cs : List Constraint}
    (hsub : (cs.map Constraint.limit).Sublist ls)
    (hfound : ∀ c ∈ cs, ∃ k, c.limit.keyword? = some k ∧ es.lookup k = some c.value)
    (hmissing : ∀ l ∈ ls, l ∉ cs.map Constraint.limit → ∃ k,
      l.keyword? = some k ∧ es.lookup k = none) :
    constraints ls (texts es) = cs := by
  induction ls generalizing cs with
  | nil =>
    cases cs with
    | nil => rfl
    | cons c cs => cases hsub
  | cons l ls ih =>
    obtain ⟨hl, hnodup⟩ := nodup_cons.mp hn
    rcases sublist_cons_iff.mp hsub with hsub | ⟨limits, hlimits, hsub⟩
    · have hnot : l ∉ cs.map Constraint.limit := fun hmem => hl (hsub.subset hmem)
      obtain ⟨k, hkey, hv⟩ := hmissing l (mem_cons_self ..) hnot
      rw [constraints_cons_missing hkey hv]
      exact ih hnodup hsub hfound fun l' hl' => hmissing l' (mem_cons_of_mem _ hl')
    · obtain ⟨c, cs, rfl, rfl, rfl⟩ := map_eq_cons_iff.mp hlimits
      obtain ⟨k, hkey, hv⟩ := hfound c (mem_cons_self ..)
      rw [constraints_cons_found hkey hv]
      congr 1
      refine ih hnodup hsub (fun c' hc' => hfound c' (mem_cons_of_mem _ hc')) ?_
      intro l' hl' hnot
      refine hmissing l' (mem_cons_of_mem _ hl') ?_
      rw [map_cons, mem_cons, not_or]
      exact ⟨fun heq => hl (heq ▸ hl'), hnot⟩

/-- Constraints in the order of limits that have keywords of their own, on a node with other
keys. -/
structure Ordered (ls : List Limit) (es : List (String × Value)) (cs : List Constraint) : Prop where
  named : ∀ l ∈ ls, l.keyword? = some (keyword l)
  distinct : (ls.map keyword).Nodup
  fresh : ∀ k ∈ es.map Prod.fst, k ∉ ls.map keyword
  keys : (es.map Prod.fst).Nodup
  sublist : (cs.map Constraint.limit).Sublist ls

namespace Ordered

variable {ls : List Limit} {cs : List Constraint}

theorem nodup (h : Ordered ls es cs) :
    ((es ++ cs.map constraintEntry).map Prod.fst).Nodup := by
  have hentries :
      (cs.map constraintEntry).map Prod.fst = (cs.map Constraint.limit).map keyword := by
    simp [constraintEntry, Function.comp_def]
  have hsub := h.sublist.map keyword
  rw [map_append, hentries]
  refine nodup_append.mpr ⟨h.keys, h.distinct.sublist hsub, ?_⟩
  rintro k hk _ hk' rfl
  exact h.fresh k hk (hsub.subset hk')

theorem limit_mem (h : Ordered ls es cs) {c : Constraint} (hc : c ∈ cs) : c.limit ∈ ls :=
  h.sublist.subset (mem_map_of_mem hc)

theorem constrain (h : Ordered ls es cs) :
    Target.JsonSchema.constrain es cs = .object (es ++ cs.map constraintEntry) :=
  constrain_eq (fun c hc => by rw [h.named _ (h.limit_mem hc)]; rfl) h.nodup

theorem constraints (h : Ordered ls es cs) :
    JsonSchema.constraints ls (texts (es ++ cs.map constraintEntry)) = cs := by
  refine constraints_eq (Nodup.of_map keyword h.distinct) h.sublist (fun c hc => ?_)
    fun l hl hnot => ?_
  · refine ⟨_, h.named _ (h.limit_mem hc), lookup_of_mem h.nodup ?_⟩
    exact mem_append_right _ (mem_map_of_mem hc)
  · refine ⟨_, h.named l hl, lookup_of_notMem ?_⟩
    intro hmem
    rw [map_append, mem_append] at hmem
    rcases hmem with hmem | hmem
    · exact h.fresh _ hmem (mem_map_of_mem hl)
    · obtain ⟨e, he, hkey⟩ := mem_map.mp hmem
      obtain ⟨c, hc, rfl⟩ := mem_map.mp he
      have heq := inj_on_of_nodup_map h.distinct (h.limit_mem hc) hl hkey
      exact hnot (heq ▸ mem_map_of_mem hc)

end Ordered

/-! ### Forms of nodes -/

/-- Keywords that say more about a type. -/
def detailKeys : List String :=
  limits.map keyword ++
    ["items", "minItems", "maxItems", "additionalProperties", "properties", "required"]

/-- Entries that say more about a type. A list of properties may be required, but no entry says so
of the node itself. -/
structure Details (es : List (String × Value)) : Prop where
  keys : ∀ e ∈ es, e.1 ∈ detailKeys
  required : es.lookup "required" ≠ some (.bool true)

theorem Details.lookup_eq_none (h : Details es) {key : String} (hkey : key ∉ detailKeys) :
    es.lookup key = none := by
  refine lookup_of_notMem fun hmem => ?_
  obtain ⟨e, he, rfl⟩ := mem_map.mp hmem
  exact hkey (h.keys e he)

theorem Details.nil : Details [] := ⟨by simp, by simp⟩

theorem Details.cons (hk : k ∈ detailKeys) (hne : k ≠ "required") (h : Details es) (v : Value) :
    Details ((k, v) :: es) := by
  refine ⟨forall_mem_cons.mpr ⟨hk, h.keys⟩, ?_⟩
  rw [lookup_cons_ite, if_neg fun heq => hne heq.symm]
  exact h.required

/-- The forms of the nodes that are written. -/
inductive Form : List (String × Value) → Prop
  | empty : Form []
  | typed (s : String) {es : List (String × Value)} (h : Details es) :
      Form (("type", .text s) :: es)
  | listed (s : String) {es : List (String × Value)} (h : Details es) :
      Form (("type", .list [.text s, .text "null"]) :: es)
  | constant (s : String) (v : Value) : Form [("type", .text s), ("const", v)]
  | enumerated (vs : List Value) : Form [("enum", .list vs)]
  | typedEnumerated (s : String) (vs : List Value) : Form [("type", .text s), ("enum", .list vs)]
  | reference (s : String) : Form [("$ref", .text s)]
  | choice (vs : List Value) : Form [("anyOf", .list vs)]
  | every (vs : List Value) : Form [("allOf", .list vs)]

namespace Form

theorem key_mem (h : Form es) :
    ∀ e ∈ es, e.1 ∈ ["type", "const", "enum", "$ref", "anyOf", "allOf"] ++ detailKeys := by
  cases h with
  | typed s h | listed s h =>
    intro e he
    rcases mem_cons.mp he with rfl | he
    · simp
    · exact mem_append_right _ (h.keys e he)
  | empty | constant _ _ | enumerated _ | typedEnumerated _ _ | reference _ | choice _ | every _ =>
    simp

/-- No node has a description or a default of its own. -/
theorem lookup_eq_none (h : Form es) {key : String}
    (hkey : key ∉ ["type", "const", "enum", "$ref", "anyOf", "allOf"] ++ detailKeys) :
    es.lookup key = none := by
  refine lookup_of_notMem fun hmem => ?_
  obtain ⟨e, he, rfl⟩ := mem_map.mp hmem
  exact hkey (h.key_mem e he)

theorem lookup_required (h : Form es) : es.lookup "required" ≠ some (.bool true) := by
  cases h with
  | typed s h | listed s h => simpa [lookup_cons_ite] using h.required
  | empty | constant _ _ | enumerated _ | typedEnumerated _ _ | reference _ | choice _ | every _ =>
    simp [lookup_cons_ite]

theorem requiresItself (h : Form es) : requiresItself (.object es) = false := by
  rw [Value.object_eq, JsonSchema.requiresItself, lookup_texts]
  split
  · rename_i heq
    refine absurd ?_ h.lookup_required
    cases hfound : es.lookup "required" with
    | none => rw [hfound] at heq; cases heq
    | some v => rw [hfound] at heq; exact congrArg some heq
  · rfl

/-- Reading a property keeps its node as the type. -/
theorem property (h : Form es) (required : List Value) (key : String) :
    JsonSchema.property required (.text key) (.object es) =
      .ok ((Member.mk key (!Value.isMember (.text key) required)).field
        (.node (.object es))) := by
  have hdescription : es.lookup "description" = none := h.lookup_eq_none (by decide)
  have hdefault : es.lookup "default" = none := h.lookup_eq_none (by decide)
  have hself := h.requiresItself
  rw [Value.object_eq] at hself ⊢
  simp only [JsonSchema.property, hself, Value.lookup?_texts, hdescription, hdefault]
  simp [Member.field, Pure.pure, Except.pure]

end Form

/-! ### Objects -/

def additionalEntries : Option (Additional Value) → List (String × Value)
  | none => []
  | some .anything => [("additionalProperties", .bool true)]
  | some .nothing => [("additionalProperties", .bool false)]
  | some (.typed v) => [("additionalProperties", v)]

section Entries

variable (ps) (a : Option (Additional Value))

/-- The keys of the properties that have to be there. -/
def requiredKeys : List Value :=
  (ps.filter fun p => !p.1.optional).map fun p => .text p.1.key

def requiredEntries : List (String × Value) :=
  if (requiredKeys ps).isEmpty then [] else [("required", .list (requiredKeys ps))]

def propertyEntries : List (String × Value) :=
  ps.map fun p => (p.1.key, p.2)

def memberEntries : List (String × Value) :=
  ("properties", .object (propertyEntries ps)) :: (requiredEntries ps ++ additionalEntries a)

/-- The entries of an object with these properties. -/
def objectEntries : List (String × Value) :=
  ("type", .text "object") :: memberEntries ps a

theorem memberEntries_key :
    ∀ e ∈ memberEntries ps a, e.1 ∈ ["properties", "required", "additionalProperties"] := by
  have hrequired : ∀ e ∈ requiredEntries ps, e.1 = "required" := by
    rw [requiredEntries]
    split <;> simp
  have hextra : ∀ e ∈ additionalEntries a, e.1 = "additionalProperties" := by
    rcases a with _ | _ | _ | v <;> simp [additionalEntries]
  intro e he
  simp only [memberEntries, mem_cons, mem_append] at he
  rcases he with rfl | he | he
  · simp
  · simp [hrequired e he]
  · simp [hextra e he]

theorem lookup_memberEntries_eq_none (hk : k ∉ ["properties", "required", "additionalProperties"]) :
    (memberEntries ps a).lookup k = none := by
  refine lookup_of_notMem fun hmem => hk ?_
  obtain ⟨e, he, rfl⟩ := mem_map.mp hmem
  exact memberEntries_key ps a e he

theorem lookup_required_memberEntries :
    (memberEntries ps a).lookup "required" = if (requiredKeys ps).isEmpty then none else some
      (.list (requiredKeys ps)) := by
  have hextra : (additionalEntries a).lookup "required" = none := by
    rcases a with _ | _ | _ | v <;> simp [additionalEntries, lookup_cons_ite]
  rw [memberEntries, lookup_cons_ite, if_neg (by decide), lookup_append, hextra,
    requiredEntries]
  split <;> simp

theorem details_memberEntries : Details (memberEntries ps a) := by
  refine ⟨fun e he => ?_, ?_⟩
  · have hsub : ["properties", "required", "additionalProperties"] ⊆ detailKeys := by decide
    exact hsub (memberEntries_key ps a e he)
  · rw [lookup_required_memberEntries]
    split <;> simp

end Entries

/-- A field that is written with nothing but its type. -/
structure Plain (p : Member × Value) (m : MappedField Value) : Prop where
  field : ∃ raw, m.field = p.1.field raw
  expression : m.expression = p.2
  form : ∃ es, p.2 = .object es ∧ Form es

theorem Plain.property {p : Member × Value} {m : MappedField Value} (h : Plain p m) :
    Target.JsonSchema.property m = .ok p.2 := by
  obtain ⟨raw, hfield⟩ := h.field
  obtain ⟨es, hes, hform⟩ := h.form
  have hdescription : es.lookup "description" = none := hform.lookup_eq_none (by decide)
  rw [Target.JsonSchema.property, h.expression, hfield, hes, Value.object_eq]
  simp [Target.JsonSchema.asNode, Target.JsonSchema.describe, Target.JsonSchema.columnFlags,
    Member.field, Field.default?, Field.has, Value.isTruthy, Scalar.isTruthy, hdescription,
    Bind.bind, Except.bind, Pure.pure, Except.pure]

theorem object_eq {ms : List (MappedField Value)} (h : Forall₂ Plain ps ms)
    (hn : (ps.map fun p => p.1.key).Nodup) (a : Option (Additional Value)) :
    Target.JsonSchema.object ms a = .ok (.object (objectEntries ps a)) := by
  have hproperties : (ms.mapM fun m => do
      return (m.field.key, ← Target.JsonSchema.property m)) =
        (.ok (texts (propertyEntries ps)) : Except Fault _) := by
    clear hn
    induction h with
    | nil => rfl
    | @cons p m ps ms hm _ ih =>
      obtain ⟨raw, hfield⟩ := hm.field
      rw [mapM_cons, ih, hm.property, hfield]
      rfl
  have hrequired : ((ms.filter fun m => !m.field.optional).map fun m =>
      .scalar m.field.key) = requiredKeys ps := by
    clear hn hproperties
    induction h with
    | nil => rfl
    | @cons p m ps ms hm _ ih =>
      obtain ⟨raw, hfield⟩ := hm.field
      rw [requiredKeys] at ih ⊢
      rw [filter_cons, filter_cons, hfield]
      cases ho : p.1.optional with
      | true => simpa [Member.field, ho] using ih
      | false => simp [Member.field, ho, ih, hfield]
  have hkeys : ((propertyEntries ps).map Prod.fst).Nodup := by
    simpa [propertyEntries, Function.comp_def] using hn
  unfold Target.JsonSchema.object
  rw [hproperties]
  simp only [hrequired, Bind.bind, Except.bind, Pure.pure, Except.pure,
    Value.ofEntries_texts hkeys]
  rw [objectEntries, memberEntries, requiredEntries]
  rcases a with _ | _ | _ | v <;> split <;> rfl

theorem isMember_requiredKeys (hn : (ps.map fun p => p.1.key).Nodup) {p : Member × Value}
    (hp : p ∈ ps) : Value.isMember (.text p.1.key) (requiredKeys ps) = !p.1.optional := by
  rw [Bool.eq_iff_iff, Value.isMember, requiredKeys, any_map, any_eq_true]
  constructor
  · rintro ⟨q, hq, hsame⟩
    obtain ⟨hq, hrequired⟩ := mem_filter.mp hq
    simp only [Function.comp, same_text, beq_iff_eq] at hsame
    rwa [inj_on_of_nodup_map hn hq hp hsame] at hrequired
  · intro hrequired
    exact ⟨p, mem_filter.mpr ⟨hp, hrequired⟩, by simp [same_text]⟩

/-- Reading the properties of an object. -/
theorem properties_objectEntries (hn : (ps.map fun p => p.1.key).Nodup)
    (hform : ∀ p ∈ ps, ∃ es, p.2 = .object es ∧ Form es) (a : Option (Additional Value)) :
    properties (texts (objectEntries ps a)) =
      .ok (ps.map fun p => p.1.field (.node p.2)) := by
  have hrequired : required (texts (objectEntries ps a)) = requiredKeys ps := by
    rw [required, lookup_texts, objectEntries, lookup_cons_ite, if_neg (by decide),
      lookup_required_memberEntries]
    cases hkeys : requiredKeys ps with
    | nil => rfl
    | cons k ks => rfl
  have hproperties : Value.lookup "properties" (texts (objectEntries ps a)) =
      .map (texts (propertyEntries ps)) := by
    rw [lookup_texts, objectEntries, memberEntries, lookup_cons_ite, lookup_cons_ite]
    rfl
  rw [properties, hproperties, hrequired]
  have hall (qs : List (Member × Value)) (hqs : qs ⊆ ps) :
      ((texts (propertyEntries qs)).mapM fun e => property (requiredKeys ps) e.1 e.2) =
        .ok (qs.map fun p => p.1.field (.node p.2)) := by
    induction qs with
    | nil => rfl
    | cons q qs ih =>
      obtain ⟨hq, hqs⟩ := cons_subset.mp hqs
      obtain ⟨es, hes, hform⟩ := hform q hq
      have hproperty : property (requiredKeys ps) (.text q.1.key) q.2 =
          .ok (q.1.field (.node q.2)) := by
        rw [hes, hform.property, isMember_requiredKeys hn hq, Bool.not_not]
      have hrest := ih hqs
      simp only [propertyEntries, map_cons, Value.texts_cons, mapM_cons, hproperty]
        at hrest ⊢
      rw [hrest]
      rfl
  exact hall ps (Subset.refl _)

theorem additionalOf_objectEntries (ps : List (Member × Value)) {a : Option (Additional Value)}
    (ha : ∀ v, a = some (.typed v) → ∃ e es, v = .object (e :: es)) :
    additionalOf (texts (objectEntries ps a)) = a.map (Additional.map .node) := by
  have hrequired : (requiredEntries ps).lookup "additionalProperties" = none := by
    rw [requiredEntries]
    split <;> simp
  rw [additionalOf, lookup_texts, objectEntries, memberEntries, lookup_cons_ite,
    lookup_cons_ite, if_neg (by decide), if_neg (by decide), lookup_append, hrequired]
  rcases a with _ | _ | _ | v
  · rfl
  · rfl
  · rfl
  · obtain ⟨e, es, rfl⟩ := ha v rfl
    rfl

end JsonSchema

end Crosswalk
