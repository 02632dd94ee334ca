import Crosswalk.Proofs.NodeReferences
import Crosswalk.Proofs.Recursion

/-!
The rules that classify a schema node. Each gives a shape of its own: none is a selection, none
describes a type, and the nodes that it hands on are smaller.
-/

namespace Crosswalk

open List hiding count

variable {vs : List Value} {w : Value}

theorem some_of_orElse {α : Type} {x y : Option α} {a : α} (h : (x.orElse fun _ => y) = some a) :
    x = some a ∨ y = some a := by
  cases x with
  | none => exact .inr h
  | some b => exact .inl h

/-! ### The size of a schema node -/

namespace Value

variable {es : List (Scalar × Value)} {key : String} {v : Value}

mutual

/-- The number of values in a value, itself included. -/
def count : Value → Nat
  | .scalar _ => 1
  | .list vs => 1 + countAll vs
  | .map es => 1 + countEntries es

def countAll : List Value → Nat
  | [] => 0
  | v :: vs => v.count + countAll vs

def countEntries : List (Scalar × Value) → Nat
  | [] => 0
  | e :: es => e.2.count + countEntries es

end

theorem count_pos (v : Value) : 0 < v.count := by
  cases v <;> simp only [count] <;> omega

theorem count_le_countAll (h : v ∈ vs) : v.count ≤ countAll vs := by
  induction vs with
  | nil => cases h
  | cons w vs ih =>
    rw [countAll]
    rcases mem_cons.mp h with rfl | h
    · omega
    · have := ih h
      omega

theorem count_le_countEntries {e : Scalar × Value} (h : e ∈ es) : e.2.count ≤ countEntries es := by
  induction es with
  | nil => cases h
  | cons f es ih =>
    rw [countEntries]
    rcases mem_cons.mp h with rfl | h
    · omega
    · have := ih h
      omega

theorem mem_of_lookup? (h : lookup? key es = some v) : ∃ k, (k, v) ∈ es := by
  obtain ⟨e, he, rfl⟩ := Option.map_eq_some_iff.mp h
  exact ⟨e.1, mem_of_find?_eq_some he⟩

/-- What is looked up is smaller than the mapping. -/
theorem count_lookup?_lt (h : lookup? key es = some v) : v.count < (Value.map es).count := by
  obtain ⟨k, hmem⟩ := mem_of_lookup? h
  have hle : v.count ≤ countEntries es := count_le_countEntries hmem
  rw [count]
  omega

theorem lookup?_of_lookup (h : lookup key es = v) (hv : v ≠ .null) : lookup? key es = some v := by
  unfold lookup at h
  cases hl : lookup? key es with
  | none =>
    rw [hl] at h
    exact absurd h.symm hv
  | some w =>
    rw [hl] at h
    rw [show w = v from h]

theorem lookup?_of_isText {t : String} (h : (lookup key es).isText t) :
    lookup? key es = some (.text t) := by
  refine lookup?_of_lookup ?_ (by simp)
  unfold isText at h
  split at h
  case h_1 hl => rw [hl, eq_of_beq h]
  case h_2 => cases h

theorem countAll_filter_le (p : Value → Bool) (vs : List Value) :
    countAll (vs.filter p) ≤ countAll vs := by
  induction vs with
  | nil => exact Nat.le_refl _
  | cons v vs ih =>
    rw [filter_cons]
    split
    · simp only [countAll]
      omega
    · rw [countAll]
      omega

theorem countAll_filter_lt {p : Value → Bool} (h : (vs.filter p).length < vs.length) :
    countAll (vs.filter p) < countAll vs := by
  induction vs with
  | nil => cases h
  | cons v vs ih =>
    have hle := countAll_filter_le p vs
    have hpos := v.count_pos
    rw [filter_cons] at h ⊢
    split at h
    case isTrue hp =>
      rw [if_pos hp, countAll, countAll]
      have := ih (by simpa using h)
      omega
    case isFalse hp =>
      rw [if_neg hp, countAll]
      omega

theorem same_text_iff {k : Scalar} : k.same (.text key) ↔ k = .text key :=
  ⟨fun h => (eq_text_iff_of_same h).mpr rfl, fun h => by simp [h, same_text]⟩

theorem lookup?_cons (key : String) (e : Scalar × Value) (es : List (Scalar × Value)) :
    lookup? key (e :: es) = if e.1 = .text key then some e.2 else lookup? key es := by
  unfold lookup?
  by_cases h : e.1 = .text key
  · simp [h]
  · rw [find?_cons_of_neg (by simpa using h), if_neg h]

/-- Replacing an entry by a smaller one makes a mapping smaller. -/
theorem countEntries_insert_lt (h : lookup? key es = some w) (hlt : v.count < w.count) :
    countEntries (insert (.text key) v es) < countEntries es := by
  induction es with
  | nil => cases h
  | cons e es ih =>
    rw [lookup?_cons] at h
    rw [insert]
    split at h
    case isTrue hkey =>
      cases h
      simp only [if_pos (same_text_iff.mpr hkey), countEntries]
      omega
    case isFalse hkey =>
      rw [if_neg (mt same_text_iff.mp hkey), countEntries, countEntries]
      have := ih h
      omega

theorem countEntries_without_le (key : String) (es : List (Scalar × Value)) :
    countEntries (JsonSchema.without key es) ≤ countEntries es := by
  induction es with
  | nil => exact Nat.le_refl _
  | cons e es ih =>
    rw [JsonSchema.without] at ih ⊢
    rw [filter_cons]
    split
    · rw [countEntries, countEntries]
      omega
    · rw [countEntries]
      omega

theorem countEntries_without_lt (h : lookup? key es = some w) :
    countEntries (JsonSchema.without key es) < countEntries es := by
  induction es with
  | nil => cases h
  | cons e es ih =>
    have hle := countEntries_without_le key es
    have hpos := e.2.count_pos
    rw [lookup?_cons] at h
    rw [JsonSchema.without] at ih hle ⊢
    split at h
    case isTrue hkey =>
      rw [filter_cons_of_neg (by simp [hkey]), countEntries]
      omega
    case isFalse hkey =>
      rw [filter_cons_of_pos (by simpa using hkey), countEntries, countEntries]
      have := ih h
      omega

end Value

/-- The size of a raw type of a structured document. -/
def Raw.count (raw : Raw) : Nat := (Grammar.nodeOf raw).count

namespace JsonSchema

open Value

variable {es : List (Scalar × Value)} {s : Shape} {p : Raw}

/-! ### Shapes of schemas -/

/-- The shapes of schemas, the parts of which satisfy `part`. -/
inductive SchemaShape (part : Raw → Prop) : Shape → Prop
  | primitive (p : Primitive) {cs : List Constraint} (hcs : ∀ c ∈ cs, c.limit ≠ .description) :
      SchemaShape part (.primitive p cs)
  | literal {v : Value} (hv : v.isPlain = true) : SchemaShape part (.literal v)
  | enumeration {vs : List Value} (hvs : ∀ v ∈ vs, v.isPlain = true) :
    SchemaShape part (.enumeration vs)
  | array {element : Raw} {cs : List Constraint} (h : part element)
      (hcs : ∀ c ∈ cs, c.limit ≠ .description) :
      SchemaShape part (.array element cs)
  | tuple {elements : List Raw} (h : ∀ p ∈ elements, part p) : SchemaShape part (.tuple elements)
  | union {members : List Raw} (hne : members ≠ []) (h : ∀ p ∈ members, part p) :
      SchemaShape part (.union members)
  | intersection {members : List Raw} (hne : members ≠ []) (h : ∀ p ∈ members, part p) :
      SchemaShape part (.intersection members)
  | nullable {inner : Raw} (h : part inner) : SchemaShape part (.nullable inner)
  | record {args : List Raw} (h : ∀ p ∈ args, part p) :
    SchemaShape part (.container .record args [])
  | object {fields : List Field} {additional : Option (Additional Raw)}
      (h : ∀ p ∈ Field.typesAll fields ++ Additional.types additional, part p) :
      SchemaShape part (.object fields additional)
  | reference (name : String) : SchemaShape part (.reference name)
  | unknown (text : String) : SchemaShape part (.unknown text)

namespace SchemaShape

variable {part : Raw → Prop}

theorem isSelection_eq_false (h : SchemaShape part s) : s.isSelection = false := by
  cases h <;> rfl

theorem parts (h : SchemaShape part s) : ∀ p ∈ s.parts, part p := by
  cases h with
  | tuple h | union _ h | intersection _ h | record h | object h => exact h
  | array h | nullable h => exact forall_mem_singleton.mpr h
  | _ => exact forall_mem_nil _

end SchemaShape

/-- A node that is smaller than a mapping. -/
def Smaller (es : List (Scalar × Value)) (p : Raw) : Prop := p.count < (Value.map es).count

theorem count_nodes_lt {key : String} (h : lookup? key es = some (.list vs))
    (hp : p ∈ vs.map .node) :
    Smaller es p := by
  obtain ⟨v, hv, rfl⟩ := mem_map.mp hp
  have hmember := count_le_countAll hv
  have hlist := count_lookup?_lt h
  rw [count] at hlist
  change v.count < _
  omega

/-! ### Rules -/

theorem schemaShape_nullable? (h : nullable? es = some s) : SchemaShape (Smaller es) s := by
  unfold nullable? at h
  split at h <;> cases h
  rename_i hl
  have hwithout := countEntries_without_lt (lookup?_of_lookup hl (by simp))
  refine .nullable ?_
  simp only [Smaller, Raw.count, Grammar.nodeOf, count]
  omega

theorem schemaShape_choice {part : Raw → Prop} {members : List Value} (hne : members ≠ [])
    (h : ∀ p ∈ members.map .node, part p) : SchemaShape part (choice members) := by
  have hunion : SchemaShape part (.union (members.map .node)) := .union (by simpa using hne) h
  unfold choice
  split
  case h_1 m hm =>
    split
    · have hmem : m ∈ members.filter fun m => !isNullSchema m := hm ▸ mem_singleton_self m
      exact .nullable (h _ (mem_map_of_mem (mem_filter.mp hmem).1))
    · exact hunion
  case h_2 => exact hunion

theorem lookup?_of_nonemptyList? {key : String} (h : nonemptyList? key es = some vs) :
    lookup? key es = some (.list vs) ∧ vs ≠ [] := by
  unfold nonemptyList? at h
  split at h
  case h_1 hl =>
    cases h
    exact ⟨lookup?_of_lookup hl (by simp), by simp⟩
  case h_2 => cases h

theorem schemaShape_composition? (h : composition? es = some s) : SchemaShape (Smaller es) s := by
  unfold composition? at h
  split at h
  case h_1 members hm =>
    cases h
    obtain ⟨hlookup, hne⟩ := lookup?_of_nonemptyList? hm
    exact .intersection (by simpa using hne) fun p => count_nodes_lt hlookup
  case h_2 =>
    obtain ⟨members, hm, rfl⟩ := Option.map_eq_some_iff.mp h
    rcases some_of_orElse hm with hm | hm <;>
      exact schemaShape_choice (lookup?_of_nonemptyList? hm).2 fun p =>
        count_nodes_lt (lookup?_of_nonemptyList? hm).1

theorem count_withType_lt {v : Value} (h : lookup? "type" es = some w) (hlt : v.count < w.count) :
    Smaller es (withType es v) := by
  have hinsert := countEntries_insert_lt h hlt
  simp only [Smaller, withType, Raw.count, Grammar.nodeOf, count]
  omega

theorem schemaShape_typeList? (h : typeList? es = some s) : SchemaShape (Smaller es) s := by
  unfold typeList? at h
  split at h
  case h_1 types hl =>
    have htypes := lookup?_of_lookup hl (by simp)
    have hmember {t : Value} (ht : t ∈ types.filter fun t => !t.isText "null") :
        t.count < (Value.list types).count := by
      have := count_le_countAll (mem_filter.mp ht).1
      rw [count]
      omega
    dsimp only at h
    split at h
    case h_1 =>
      cases h
      exact .primitive _ (forall_mem_nil _)
    case h_2 t more hothers =>
      split at h
      case isTrue hshorter =>
        cases h
        refine .nullable (count_withType_lt htypes ?_)
        split
        · exact hmember (hothers ▸ mem_cons_self)
        · have := countAll_filter_lt hshorter
          simp only [count]
          omega
      case isFalse =>
        cases h
        refine .union (by simp [hothers]) (forall_mem_map.mpr fun t' ht' => ?_)
        exact count_withType_lt htypes (hmember ht')
  case h_2 => cases h

theorem limit_ne_description {ls : List Limit} (hls : .description ∉ ls)
    (es : List (Scalar × Value)) :
    ∀ c ∈ constraints ls es, c.limit ≠ .description := by
  rintro c hc hlimit
  obtain ⟨l, hl, hlc⟩ := mem_filterMap.mp hc
  obtain ⟨keyword, _, hlc⟩ := Option.bind_eq_some_iff.mp hlc
  obtain ⟨v, _, hlc⟩ := Option.bind_eq_some_iff.mp hlc
  cases hlc
  exact absurd (hlimit ▸ hl) hls

theorem schemaShape_array? (h : array? es = some s) : SchemaShape (Smaller es) s := by
  unfold array? at h
  dsimp only at h
  split at h
  case isTrue => cases h
  case isFalse hrule =>
    split at h
    case h_1 vs hlist =>
      cases h
      refine .tuple fun p hp => ?_
      rcases some_of_orElse hlist with hlist | hlist <;> exact count_nodes_lt hlist hp
    case h_2 =>
      cases h
      refine .array ?_ (limit_ne_description (by decide) es)
      cases hitems : lookup? "items" es with
      | some v => exact count_lookup?_lt hitems
      | none =>
        -- the mapping has another entry, so it is larger than the schema of everything
        obtain ⟨key, w, hw⟩ : ∃ key w, lookup? key es = some w := by
          cases hfirst : lookup? "prefixItems" es with
          | some w => exact ⟨_, w, hfirst⟩
          | none =>
            have htype : (lookup "type" es).isText "array" := by
              simpa [hitems, hfirst] using hrule
            exact ⟨_, _, lookup?_of_isText htype⟩
        have hpos := w.count_pos
        have hlt := count_lookup?_lt hw
        simp only [Smaller, Raw.count, Grammar.nodeOf, Option.getD_none, count] at hlt ⊢
        omega

theorem types_of_property {required : List Value} {key : Scalar} {node : Value} {f : Field}
    (h : property required key node = .ok f) : f.types = [.node node] := by
  unfold property at h
  dsimp only at h
  split at h
  case h_1 =>
    split at h
    case h_1 =>
      cases h
      rw [Field.types_eq]
      rfl
    case h_2 =>
      split at h
      case h_1 =>
        cases h
        rw [Field.types_eq]
        rfl
      case h_2 => cases h
  case h_2 =>
    cases h
    rw [Field.types_eq]
    rfl

theorem properties_shrink {fields : List Field} (h : properties es = .ok fields)
    (hp : p ∈ Field.typesAll fields) : Smaller es p := by
  obtain ⟨f, hf, hp⟩ := Field.mem_typesAll.mp hp
  unfold properties at h
  split at h
  case h_1 ps hl =>
    obtain ⟨e, he, hproperty⟩ := exists_mem_of_forall₂ (forall₂_of_mapM h) hf
    rw [types_of_property hproperty] at hp
    cases mem_singleton.mp hp
    have hentry := count_le_countEntries he
    have hlookup := count_lookup?_lt (lookup?_of_lookup hl (by simp))
    rw [count] at hlookup
    change e.2.count < _
    omega
  case h_2 =>
    cases h
    cases hf

theorem additional?_typed {v : Value} {raw : Raw} (h : additional? v = some (.typed raw)) :
    raw = .node v ∧ v ≠ .null ∧ v ≠ .map [] := by
  unfold additional? at h
  split at h
  case h_1 | h_2 | h_3 | h_4 => cases h
  case h_5 hnull _ hempty _ =>
    cases h
    exact ⟨rfl, hnull, hempty⟩

theorem additionalOf_shrinks (hp : p ∈ Additional.types (additionalOf es)) :
    Smaller es p := by
  unfold Additional.types at hp
  split at hp
  case h_1 raw hadditional =>
    obtain ⟨rfl, hnull, _⟩ := additional?_typed hadditional
    cases mem_singleton.mp hp
    exact count_lookup?_lt (lookup?_of_lookup rfl hnull)
  case h_2 => cases hp

theorem schemaShape_object? (h : object? es = .ok (some s)) : SchemaShape (Smaller es) s := by
  unfold object? at h
  split at h
  case isTrue => cases h
  case isFalse hrule =>
    obtain ⟨fields, hfields, h⟩ := bind_eq_ok.mp h
    dsimp only at h
    split at h
    case isTrue hempty =>
      split at h <;> cases h
      case h_1 v hadditional =>
        obtain ⟨hnode, hnull, hempty⟩ := additional?_typed hadditional
        have hmap := (Raw.node.inj hnode).symm
        rw [hmap] at hempty
        have hlt := count_lookup?_lt (lookup?_of_lookup hmap (by simp))
        refine .record (forall_mem_cons.mpr ⟨?_, forall_mem_singleton.mpr hlt⟩)
        -- the schema of the keys is small, since that of the values is not empty
        obtain ⟨e, rest, rfl⟩ := exists_cons_of_ne_nil fun h => hempty (h ▸ rfl)
        have hpos := e.2.count_pos
        simp only [count, countEntries] at hlt
        simp only [Smaller, Raw.count, Grammar.nodeOf, Value.object, map_cons, map_nil, count,
          countEntries]
        omega
      case h_2 => exact .primitive _ (forall_mem_nil _)
      case h_3 => exact .object fun p hp => additionalOf_shrinks hp
    case isFalse =>
      cases h
      refine .object fun p hp => ?_
      rcases mem_append.mp hp with hp | hp
      · exact properties_shrink hfields hp
      · exact additionalOf_shrinks hp

theorem schemaShape_primitiveShape {part : Raw → Prop} (h : primitiveShape es = .ok s) :
    SchemaShape part s := by
  unfold primitiveShape at h
  split at h
  · cases h
    exact .primitive _ (forall_mem_nil _)
  · split at h <;> cases h
    · exact .primitive _ (limit_ne_description (by decide) es)
    · exact .unknown _
  · cases h
    exact .unknown _
  · cases h

/-- Whatever rule applies, the shape is one of schemas, and the nodes in it are smaller. -/
theorem schemaShape_classify {root : String} {node : Value} (h : classify root node = .ok s) :
    SchemaShape (·.count < node.count) s := by
  unfold classify at h
  split at h
  case h_1 =>
    cases h
    exact .primitive _ (forall_mem_nil _)
  case h_2 es =>
    split at h
    case h_1 s' hrule =>
      cases h
      rcases some_of_orElse hrule with hrule | hrule
      · unfold reference? at hrule
        split at hrule <;> cases hrule
        exact .reference _
      rcases some_of_orElse hrule with hrule | hrule
      · unfold enumeration? at hrule
        split at hrule <;> cases hrule
        exact .enumeration fun v hv => (mem_filter.mp hv).2
      rcases some_of_orElse hrule with hrule | hrule
      · obtain ⟨v, hv, rfl⟩ := Option.map_eq_some_iff.mp hrule
        exact .literal (Option.filter_eq_some_iff.mp hv).2
      rcases some_of_orElse hrule with hrule | hrule
      · exact schemaShape_nullable? hrule
      rcases some_of_orElse hrule with hrule | hrule
      · exact schemaShape_composition? hrule
      rcases some_of_orElse hrule with hrule | hrule
      · exact schemaShape_typeList? hrule
      · exact schemaShape_array? hrule
    case h_2 =>
      obtain ⟨object, hobject, h⟩ := bind_eq_ok.mp h
      split at h
      · cases h
        exact schemaShape_object? hobject
      · exact schemaShape_primitiveShape h
  case h_3 | h_4 =>
    cases h
    exact .unknown _

end JsonSchema

end Crosswalk
