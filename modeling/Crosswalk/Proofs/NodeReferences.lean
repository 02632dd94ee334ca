import Crosswalk.Proofs.Entries
import Crosswalk.Proofs.Invariants
import Crosswalk.Proofs.ReadBack

/-!
The references in a schema node, however deep they stand, and how deep its collections nest. A node
is put together from nodes and plain values, so its references are those of its parts, and every one
of them was written by the renderer for a name. Two collections at most stand between a node and the
nodes it is made of.
-/

namespace Crosswalk

open List

variable {vs : List Value}

namespace Value

variable {es : List (Scalar × Value)} {v : Value}

/-- The text that an entry refers to: the key says that it is a reference. -/
def target? : Scalar × Value → Option String
  | (.text "$ref", .text s) => some s
  | _ => none

mutual

/-- The texts that a value refers to, in it and in its parts. -/
def refs : Value → List String
  | .scalar _ => []
  | .list vs => refsOfItems vs
  | .map es => refsOfEntries es

def refsOfItems : List Value → List String
  | [] => []
  | v :: vs => v.refs ++ refsOfItems vs

def refsOfEntries : List (Scalar × Value) → List String
  | [] => []
  | (k, v) :: es => (target? (k, v)).toList ++ v.refs ++ refsOfEntries es

end

mutual

/-- How deep the collections of a value nest. -/
def nesting : Value → Nat
  | .scalar _ => 0
  | .list vs => nestingOfItems vs + 1
  | .map es => nestingOfEntries es + 1

def nestingOfItems : List Value → Nat
  | [] => 0
  | v :: vs => max v.nesting (nestingOfItems vs)

def nestingOfEntries : List (Scalar × Value) → Nat
  | [] => 0
  | (_, v) :: es => max v.nesting (nestingOfEntries es)

end

theorem nesting_list_le {n : Nat} : (Value.list vs).nesting ≤ n + 1 ↔ ∀ v ∈ vs, v.nesting ≤ n := by
  rw [nesting, Nat.add_le_add_iff_right]
  induction vs with
  | nil => simp [nestingOfItems]
  | cons v vs ih => rw [nestingOfItems, Nat.max_le, ih, forall_mem_cons]

theorem nesting_map_le {n : Nat} : (Value.map es).nesting ≤ n + 1 ↔ ∀ e ∈ es, e.2.nesting ≤ n := by
  rw [nesting, Nat.add_le_add_iff_right]
  induction es with
  | nil => simp [nestingOfEntries]
  | cons e es ih => rw [nestingOfEntries, Nat.max_le, ih, forall_mem_cons]

/-- Every text that a value refers to is `ok`. -/
def RefersOnly (ok : String → Prop) (v : Value) : Prop := ∀ s ∈ v.refs, ok s

/-- Every text that an entry refers to is `ok`, be it by its key or in its value. -/
def EntryRefersOnly (ok : String → Prop) (e : Scalar × Value) : Prop :=
  (∀ s ∈ target? e, ok s) ∧ e.2.RefersOnly ok

variable {ok : String → Prop}

@[simp] theorem refersOnly_scalar (s : Scalar) : RefersOnly ok (.scalar s) := by
  simp [RefersOnly, refs]

@[simp] theorem refersOnly_list : RefersOnly ok (.list vs) ↔ ∀ v ∈ vs, v.RefersOnly ok := by
  induction vs with
  | nil => simp [RefersOnly, refs, refsOfItems]
  | cons v vs ih =>
    rw [forall_mem_cons, ← ih]
    simp only [RefersOnly, refs, refsOfItems, forall_mem_append]

@[simp] theorem refersOnly_map {es : List (Scalar × Value)} :
    RefersOnly ok (.map es) ↔ ∀ e ∈ es, EntryRefersOnly ok e := by
  induction es with
  | nil => simp [RefersOnly, refs, refsOfEntries]
  | cons e es ih =>
    obtain ⟨k, v⟩ := e
    rw [forall_mem_cons, ← ih]
    simp only [RefersOnly, EntryRefersOnly, refs, refsOfEntries, forall_mem_append,
      Option.mem_toList, Option.mem_def]

/-- Under another key only the value counts. -/
theorem entryRefersOnly_of_ne {key : String} (hk : key ≠ "$ref") :
    EntryRefersOnly ok (.text key, v) ↔ v.RefersOnly ok := by
  have hnone : target? (.text key, v) = none := by
    unfold target?
    split
    case h_1 heq =>
      cases heq
      exact absurd rfl hk
    case h_2 => rfl
  simp [EntryRefersOnly, hnone]

/-- A reference is a text: an entry that holds a mapping is none, whatever its key. -/
theorem entryRefersOnly_map {key : Scalar} :
    EntryRefersOnly ok (key, .map es) ↔ RefersOnly ok (.map es) := by
  have hnone : target? (key, .map es) = none := by
    unfold target?
    split
    case h_1 heq => cases heq
    case h_2 => rfl
  simp only [EntryRefersOnly, hnone, Option.mem_def, reduceCtorEq, false_imp_iff, implies_true,
    true_and]

theorem refersOnly_object {es : List (String × Value)}
    (h : ∀ e ∈ es, e.1 ≠ "$ref" ∧ e.2.RefersOnly ok) : RefersOnly ok (.object es) := by
  rw [Value.object, refersOnly_map]
  intro e he
  obtain ⟨e', hmem, rfl⟩ := mem_map.mp he
  exact (entryRefersOnly_of_ne (h e' hmem).1).mpr (h e' hmem).2

/-- Keys that count as the same are the same text, if one of them is a text. -/
theorem eq_text_iff_of_same {a b : Scalar} {k : String} (h : a.same b) :
    a = .text k ↔ b = .text k := by
  unfold Scalar.same at h
  split at h
  case h_1 => simp
  case h_2 =>
    split at h
    case h_1 i j ha hb =>
      constructor <;> rintro rfl
      · cases ha
      · cases hb
    case h_2 => rw [eq_of_beq h]
    case h_3 => cases h

theorem mem_insert {key : Scalar} {e : Scalar × Value} (h : e ∈ insert key v es) :
    e ∈ es ∨ e = (key, v) ∨ e.2 = v ∧ e.1.same key := by
  induction es with
  | nil => exact .inr (.inl (mem_singleton.mp h))
  | cons e' es ih =>
    rw [insert] at h
    split at h
    case isTrue hsame =>
      rcases mem_cons.mp h with rfl | h
      · exact .inr (.inr ⟨rfl, hsame⟩)
      · exact .inl (mem_cons_of_mem _ h)
    case isFalse =>
      rcases mem_cons.mp h with rfl | h
      · exact .inl (mem_cons_self ..)
      · exact (ih h).imp_left (mem_cons_of_mem _)

/-- What holds of the entries that are put in, and does not depend on how a key is spelled, holds of
all entries. -/
theorem forall_mem_insert {Q : Scalar × Value → Prop}
    (hQ : ∀ k k' v, k'.same k → Q (k, v) → Q (k', v)) {key : Scalar} (hes : ∀ e ∈ es, Q e)
    (hv : Q (key, v)) : ∀ e ∈ insert key v es, Q e := by
  intro e he
  rcases mem_insert he with he | rfl | ⟨rfl, hsame⟩
  · exact hes e he
  · exact hv
  · exact hQ key e.1 e.2 hsame hv

theorem forall_mem_foldl_insert {Q : Scalar × Value → Prop}
    (hQ : ∀ k k' v, k'.same k → Q (k, v) → Q (k', v)) {done : List (Scalar × Value)}
    (hes : ∀ e ∈ es, Q e) (hdone : ∀ e ∈ done, Q e) :
    ∀ e ∈ es.foldl (fun acc e => insert e.1 e.2 acc) done, Q e := by
  induction es generalizing done with
  | nil => exact hdone
  | cons e es ih =>
    rw [forall_mem_cons] at hes
    exact ih hes.2 (forall_mem_insert hQ hdone hes.1)

theorem entryRefersOnly_of_same (k k' : Scalar) (v : Value) (hsame : k'.same k)
    (h : EntryRefersOnly ok (k, v)) : EntryRefersOnly ok (k', v) := by
  refine ⟨?_, h.2⟩
  intro s hs
  apply h.1
  have hkey : k' = .text "$ref" := by
    unfold target? at hs
    split at hs
    case h_1 heq =>
      cases heq
      rfl
    case h_2 => cases hs
  rw [(eq_text_iff_of_same hsame).mp hkey]
  rw [hkey] at hs
  exact hs

/-- Mappings under any keys, the last for each key. -/
theorem refersOnly_ofEntries (h : ∀ e ∈ es, (∃ inner, e.2 = .map inner) ∧ e.2.RefersOnly ok) :
    RefersOnly ok (.map (ofEntries es)) := by
  rw [refersOnly_map]
  refine forall_mem_foldl_insert entryRefersOnly_of_same ?_ (by simp)
  intro e he
  obtain ⟨⟨inner, hinner⟩, hrefs⟩ := h e he
  obtain ⟨k, v⟩ := e
  cases hinner
  exact entryRefersOnly_map.mpr hrefs

/-! ### References and nesting together -/

/-- Every text that a value refers to is `ok`, and its collections nest at most `n` deep. -/
def Within (ok : String → Prop) (n : Nat) (v : Value) : Prop := v.RefersOnly ok ∧ v.nesting ≤ n

def EntryWithin (ok : String → Prop) (n : Nat) (e : Scalar × Value) : Prop :=
  EntryRefersOnly ok e ∧ e.2.nesting ≤ n

variable {n : Nat}

theorem Within.mono {n' : Nat} (h : v.Within ok n) (hn : n ≤ n') : v.Within ok n' :=
  ⟨h.1, Nat.le_trans h.2 hn⟩

@[simp] theorem within_scalar (s : Scalar) : Within ok n (.scalar s) := by
  simp [Within, nesting]

@[simp] theorem within_list : Within ok (n + 1) (.list vs) ↔ ∀ v ∈ vs, v.Within ok n := by
  rw [Within, refersOnly_list, nesting_list_le]
  exact forall₂_and.symm

@[simp] theorem within_map {es : List (Scalar × Value)} :
    Within ok (n + 1) (.map es) ↔ ∀ e ∈ es, EntryWithin ok n e := by
  rw [Within, refersOnly_map, nesting_map_le]
  exact forall₂_and.symm

theorem within_of_isPlain (h : v.isPlain) : v.Within ok n := by
  cases v with
  | scalar s => exact within_scalar s
  | list vs | map es => cases h

theorem entryWithin_of_ne {key : String} (hk : key ≠ "$ref") :
    EntryWithin ok n (.text key, v) ↔ v.Within ok n :=
  and_congr_left fun _ => entryRefersOnly_of_ne hk

theorem entryWithin_of_same (k k' : Scalar) (v : Value) (hsame : k'.same k)
    (h : EntryWithin ok n (k, v)) : EntryWithin ok n (k', v) :=
  ⟨entryRefersOnly_of_same k k' v hsame h.1, h.2⟩

end Value

namespace Target.JsonSchema

open Value

variable {v e : Value}

/-- What a reference to a name is written as. -/
def target (start : String) (root : Scalar) (name : String) : String :=
  if root == .text name then "#" else start ++ name

/-- A keyword of a node that is neither a reference nor holds the definitions of a document. -/
def isInner (key : String) : Bool := key != "$ref" && key != "$defs"

/-- A node without definitions in which every reference is `ok`, and in which collections nest at
most `n` deep. -/
structure Linked (ok : String → Prop) (n : Nat) (v : Value) : Prop where
  isNode : ∃ es, v = .map es ∧ ∀ e ∈ es, e.1 ≠ .text "$defs"
  within : v.Within ok n

variable {ok : String → Prop} {n : Nat}

theorem Linked.refersOnly (h : Linked ok n v) : v.RefersOnly ok := h.within.1

theorem Linked.mono {n' : Nat} (h : Linked ok n v) (hn : n ≤ n') : Linked ok n' v :=
  ⟨h.isNode, h.within.mono hn⟩

theorem within_linked (h : ∀ v ∈ vs, Linked ok n v) : Within ok (n + 1) (.list vs) :=
  within_list.mpr fun v hv => (h v hv).within

theorem ne_of_isInner {key : String} (h : isInner key) : key ≠ "$ref" ∧ key ≠ "$defs" := by
  simpa [isInner] using h

theorem linked_node {es : List (String × Value)}
    (h : ∀ e ∈ es, isInner e.1 ∧ e.2.Within ok n) : Linked ok (n + 1) (node es) := by
  refine ⟨⟨_, rfl, ?_⟩, within_map.mpr ?_⟩
  · intro e he
    obtain ⟨e', hmem, rfl⟩ := mem_map.mp he
    simpa using (ne_of_isInner (h e' hmem).1).2
  · intro e he
    obtain ⟨e', hmem, rfl⟩ := mem_map.mp he
    exact (entryWithin_of_ne (ne_of_isInner (h e' hmem).1).1).mpr (h e' hmem).2

theorem defs_ne_of_same (k k' : Scalar) (_ : Value) (hsame : k'.same k)
    (h : k ≠ .text "$defs") : k' ≠ .text "$defs" :=
  mt (eq_text_iff_of_same hsame).mp h

theorem linked_set {key : String} {es : Node} (hk : isInner key)
    (hes : Linked ok (n + 1) (.map es)) (hv : v.Within ok n) :
    Linked ok (n + 1) (.map (set key v es)) := by
  obtain ⟨⟨_, hnode, hkeys⟩, hwithin⟩ := hes
  cases hnode
  obtain ⟨href, hdefs⟩ := ne_of_isInner hk
  refine ⟨⟨_, rfl, ?_⟩, ?_⟩
  · exact forall_mem_insert (Q := fun e => e.1 ≠ .text "$defs") defs_ne_of_same hkeys
      (by simpa using hdefs)
  · rw [within_map] at hwithin ⊢
    exact forall_mem_insert entryWithin_of_same hwithin ((entryWithin_of_ne href).mpr hv)

theorem linked_reference {start : String} {root : Scalar} {name : String}
    (h : ok (target start root name)) : Linked ok (n + 1) (reference start root name) := by
  refine ⟨⟨_, rfl, by simp⟩, within_map.mpr (forall_mem_singleton.mpr ⟨?_, Nat.zero_le n⟩)⟩
  simpa [EntryRefersOnly, target?, target] using h

theorem linked_constrain {es : List (String × Value)} {cs : List Constraint}
    (hes : ∀ e ∈ es, isInner e.1 ∧ e.2.Within ok n)
    (hcs : ∀ c ∈ cs, c.value.isPlain) : Linked ok (n + 1) (constrain es cs) := by
  have hkeyword {l : Limit} {keyword : String} (h : l.keyword? = some keyword) :
      isInner keyword := by
    cases l <;> simp only [Limit.keyword?, reduceCtorEq, Option.some.injEq] at h <;> subst h <;> rfl
  refine foldlRecOn (motive := fun done => Linked ok (n + 1) (.map done)) cs _ (linked_node hes) ?_
  intro done hdone c hc
  split
  case h_1 keyword hk => exact linked_set (hkeyword hk) hdone (within_of_isPlain (hcs c hc))
  case h_2 => exact hdone

theorem linked_primitive (p : Primitive) {e : String × Value} (h : e ∈ primitive p) :
    isInner e.1 ∧ e.2.Within ok (n + 1) := by
  have hempty : Within ok (n + 1) (node []) := by simp [node, Value.object]
  cases p <;> simp only [primitive, typed, mem_append, mem_singleton, not_mem_nil] at h <;>
    first
      | (subst h; exact ⟨rfl, within_scalar _⟩)
      | (subst h; exact ⟨rfl, hempty⟩)
      | (rcases h with rfl | rfl <;> exact ⟨rfl, within_scalar _⟩)

theorem linked_literal (h : v.isPlain) : Linked ok (n + 1) (literal v) := by
  have hv : v.Within ok n := within_of_isPlain h
  unfold literal
  split <;> exact linked_node (by simp [typed, isInner, hv])

theorem linked_enumeration (h : ∀ v ∈ vs, v.isPlain) :
    Linked ok (n + 2) (enumeration vs) := by
  have hvs : Within ok (n + 1) (.list vs) := within_list.mpr fun v hv => within_of_isPlain (h v hv)
  unfold enumeration
  dsimp only
  split <;> exact linked_node (by simpa [typed, isInner] using hvs)

/-- An intersection is flattened: what it joins was part of what it is made of. -/
theorem within_conjuncts (h : v.Within ok n) (hvs : conjuncts v = .ok vs) :
    ∀ w ∈ vs, w.Within ok n := by
  have hkeys {es : List (Scalar × Value)} :
      ∀ w ∈ es.map fun e => Value.scalar e.1, w.Within ok n := by
    rw [forall_mem_map]
    exact fun e _ => within_scalar e.1
  unfold conjuncts at hvs
  split at hvs <;> cases hvs
  case h_1 =>
    obtain _ | _ | n := n
    · exact absurd h.2 (by simp [nesting])
    · exact absurd (nesting_map_le.mp h.2 _ (mem_singleton_self _)) (by simp [nesting])
    · rw [within_map, forall_mem_singleton, entryWithin_of_ne (by decide)] at h
      exact fun w hw => (within_list.mp h w hw).mono (by omega)
  case h_2 => exact hkeys
  case h_3 => simp
  all_goals exact forall_mem_singleton.mpr h

/-- Nodes that are joined stand side by side in one list. -/
theorem linked_intersectAll {m : Mapping Value} (hr : m.renderer.intersect = intersect)
    {es : List Value} (h : ∀ v ∈ es, Linked ok n v) (he : m.intersectAll es = .ok e) :
    Linked ok (n + 2) e := by
  refine (Mapping.intersectAll_induction
    (Q := fun e => Linked ok (n + 2) e ∧ ∀ vs, conjuncts e = .ok vs → ∀ w ∈ vs, w.Within ok n)
    (fun a ha => ⟨ha.mono (by omega), fun vs => within_conjuncts ha.within⟩) ?_ h he).1
  intro a b e ha hb he
  rw [hr] at he
  obtain ⟨vs, hvs, he⟩ := bind_eq_ok.mp he
  obtain ⟨ws, hws, he⟩ := bind_eq_ok.mp he
  cases he
  have hall : ∀ w ∈ vs ++ ws, w.Within ok n :=
    forall_mem_append.mpr ⟨ha.2 vs hvs, within_conjuncts hb.within hws⟩
  refine ⟨linked_node (by simpa [isInner] using hall), ?_⟩
  rintro vs ⟨⟩
  exact hall

theorem linked_nullable (h : Linked ok (n + 1) v) (he : nullable v = .ok e) :
    Linked ok (n + 3) e := by
  have hnull : Linked ok (n + 3) (nullable.orNull v) := by
    have htype : Within ok (n + 1) (node (typed "null")) :=
      (linked_node (by simp [typed, isInner])).within
    exact linked_node (by simp [isInner, h.within, htype])
  unfold nullable at he
  split at he
  case h_2 => cases he
  case h_1 es =>
    split at he
    case h_2 =>
      cases he
      exact hnull
    case h_1 t _ =>
      split at he <;> cases he
      · exact hnull
      · exact linked_set rfl (h.mono (by omega)) (by simp)

theorem linked_container {kind : Container} (h : ∀ v ∈ vs, Linked ok (n + 1) v)
    (he : container kind vs = .ok e) : Linked ok (n + 2) e := by
  have hlast {v : Value} (hv : vs.getLast? = some v) : v.Within ok (n + 1) :=
    (h v (mem_of_getLast? hv)).within
  unfold container at he
  split at he
  case h_1 => cases he
  case h_2 v _ =>
    cases he
    exact linked_node (by simp [typed, isInner, (h v (mem_cons_self ..)).within])
  case h_3 | h_4 =>
    split at he
    case h_1 v hv =>
      cases he
      exact linked_node (by simp [typed, isInner, hlast hv])
    case h_2 => cases he
  case h_5 =>
    cases he
    exact linked_node (by simp)
  case h_6 v _ _ _ _ =>
    cases he
    exact (h _ (mem_cons_self ..)).mono (by omega)

/-- A property is the node of its type, with its default and its description. -/
theorem linked_property {m : MappedField Value} (hlinked : Linked ok (n + 1) m.expression)
    (hplain : m.field.Plain) (he : property m = .ok e) : Linked ok (n + 1) e := by
  obtain ⟨es, hes, _⟩ := hlinked.isNode
  rw [hes] at hlinked
  simp only [property, hes, asNode] at he
  obtain ⟨_, hok, he⟩ := bind_eq_ok.mp he
  cases hok
  obtain ⟨description, _, he⟩ := bind_eq_ok.mp he
  cases he
  have hdescribed {node : Node} (h : Linked ok (n + 1) (.map node)) : Linked ok (n + 1)
      (.map (if description == "" then node else set "description" (.text description) node)) := by
    split
    · exact h
    · exact linked_set rfl h (within_scalar _)
  apply hdescribed
  split
  case h_1 v hv => exact linked_set rfl hlinked (within_of_isPlain (hplain v hv))
  case h_2 => exact linked_set rfl hlinked (within_scalar _)
  case h_3 => exact hlinked

theorem linked_object {ms : List (MappedField Value)} {extra : Option (Additional Value)}
    (hms : ∀ m ∈ ms, Linked ok (n + 1) m.expression ∧ m.field.Plain)
    (hextra : ∀ v, extra = some (.typed v) → Linked ok (n + 1) v) (he : object ms extra = .ok e) :
    Linked ok (n + 3) e := by
  obtain ⟨properties, hproperties, he⟩ := bind_eq_ok.mp he
  cases he
  have hmaps : Within ok (n + 2) (.map (Value.ofEntries properties)) := by
    refine within_map.mpr (forall_mem_foldl_insert entryWithin_of_same (fun p hp => ?_) (by simp))
    obtain ⟨m, hm, hpm⟩ := exists_mem_of_forall₂ (forall₂_of_mapM hproperties) hp
    obtain ⟨v, hv, hpm⟩ := bind_eq_ok.mp hpm
    cases hpm
    have hlinked := linked_property (hms m hm).1 (hms m hm).2 hv
    obtain ⟨es, rfl, _⟩ := hlinked.isNode
    exact ⟨entryRefersOnly_map.mpr hlinked.refersOnly, hlinked.within.2⟩
  have hrequired : Within ok (n + 2) (.list ((ms.filter fun m => !m.field.optional).map
      fun m => .scalar m.field.key)) := by
    rw [within_list]
    intro v hv
    obtain ⟨_, _, rfl⟩ := mem_map.mp hv
    exact within_scalar _
  apply linked_node
  intro e he
  simp only [mem_append] at he
  rcases he with ((he | he) | he) | he
  · cases mem_singleton.mp he
    exact ⟨rfl, within_scalar _⟩
  · cases mem_singleton.mp he
    exact ⟨rfl, hmaps⟩
  · split at he
    · cases he
    · cases mem_singleton.mp he
      exact ⟨rfl, hrequired⟩
  · split at he
    case h_1 => cases he
    case h_2 | h_3 =>
      cases mem_singleton.mp he
      exact ⟨rfl, within_scalar _⟩
    case h_4 =>
      cases mem_singleton.mp he
      exact ⟨rfl, (hextra _ rfl).within.mono (by omega)⟩

/-- Nodes are put together from nodes: their references are those that were rendered for names, and
a level adds at most two collections. -/
theorem keeps_linked {m : Mapping Value} {start : String} {root : Scalar}
    (hr : m.renderer = renderer start root) (hi : m.inline = false) {written : String → Prop}
    (hm : m.Plain written) {known : List Scalar}
    (hok : ∀ name, .text name ∈ known → written name → ok (target start root name)) (site : Site) :
    m.Keeps Field.Plain written known site (fun b _ _ => Linked ok (2 * b + 1))
      fun b _ _ => Linked ok (2 * b + 3) where
  deeper h := h.mono (by omega)
  moved h := h
  unknown b _ _ t _ := by
    rw [hr]
    exact linked_node (by simp)
  primitive hc he := by
    rw [hr] at he
    cases he
    exact linked_constrain (fun _ => linked_primitive _) (hm.classify _ _ hc)
  literal hc _ he := by
    rw [hr] at he
    cases he
    exact linked_literal (hm.classify _ _ hc)
  enumeration hvs _ he := by
    rw [hr] at he
    cases he
    refine linked_enumeration (hvs.elim ?_ ?_)
    · exact fun ⟨raw, hc⟩ => hm.classify raw _ hc
    · exact fun ⟨body, hc⟩ => hm.enumValues body _ hc
  array {b _ _ _ _ _ e _} hc h he := by
    rw [hr] at he
    cases he
    have hitems : e.Within ok (2 * (b + 1)) := h.within.mono (by omega)
    exact linked_constrain (by simp [typed, isInner, hitems]) (hm.classify _ _ hc)
  tuple {b _ _ es _} h he := by
    rw [hr] at he
    cases he
    have hitems : Within ok (2 * b + 2) (.list es) := within_linked h.forall_mem
    exact linked_node (n := 2 * b + 2) (by simpa [typed, isInner] using hitems)
  union {b _ _ es _} h he := by
    rw [hr] at he
    cases he
    have hitems : Within ok (2 * b + 2) (.list es) := within_linked h.forall_mem
    exact linked_node (n := 2 * b + 2) (by simpa [isInner] using hitems)
  intersection h he := linked_intersectAll (by rw [hr]; rfl) h.forall_mem he
  nullable h he := by
    rw [hr] at he
    exact linked_nullable h he
  optional h he := by
    rw [hr] at he
    cases he
    exact h.mono (by omega)
  container h he := by
    rw [hr] at he
    exact (linked_container h.forall_mem he).mono (by omega)
  object hown h hx he := by
    rw [hr] at he
    refine linked_object (fun mf hmf => ⟨h.forall_mem mf hmf, hown mf hmf⟩) ?_ he
    rintro v rfl
    exact hx
  select _ _ _ _ _ _ hs := by
    rw [hr] at hs
    cases hs
  close _ h := h
  reference hw hn _ _ := by
    rw [hr]
    exact linked_reference (hok _ hn hw)
  deferred hw hn _ := by
    rw [hr]
    exact linked_reference (hok _ hn hw)
  joined h hes he := by
    refine linked_intersectAll (by rw [hr]; rfl) (forall_mem_append.mpr ⟨?_, ?_⟩) he
    · exact fun v hv => (hes.forall_mem v hv).mono (by omega)
    · exact forall_mem_singleton.mpr h
  whole h := h.mono (by omega)
  inlined h := absurd (hi.symm.trans h) (by simp)
  refers h := absurd (hi.symm.trans h) (by simp)
  members h := absurd (hi.symm.trans h) (by simp)

section Declarations

variable {m : Mapping Value} {start : String} {root : Scalar}
    (hr : m.renderer = renderer start root)
  (hi : m.inline = false) {written : String → Prop} (hm : m.Plain written)
  (hok : ∀ name, .text name ∈ m.catalogue.names → written name → ok (target start root name))
  {budget : Nat}

include hr hi hm hok

theorem linked_declaration {pending : List Scalar} {d : Declaration}
    (hd : d ∈ m.catalogue.declarations) :
    Logged.Gives (fun _ md => Linked ok (2 * budget + 5) md.expression)
      (m.declaration budget pending d) := by
  refine (Mapping.gives_declaration hm.within
    (fun field => keeps_linked hr hi hm hok ⟨d.name, field⟩)
    (hm.declarations d hd).fields (hm.declarations d hd).bases budget pending).mono ?_
  rintro _ _ ⟨_, _, hmd⟩
  exact hmd

/-- All declarations of a document are mapped to such nodes. -/
theorem linked_inSourceOrder {mds : List (MappedDeclaration Value)}
    (h : (m.inSourceOrder budget).result = .ok mds) :
    ∀ md ∈ mds, Linked ok (2 * budget + 5) md.expression := by
  have hall : Logged.Gives (Logged.Each fun _ md => Linked ok (2 * budget + 5) md.expression)
      (m.inSourceOrder budget) := Logged.Gives.mapM fun d hd => linked_declaration hr hi hm hok hd
  exact (hall.holds mds h).forall_mem

end Declarations

end Target.JsonSchema

end Crosswalk
