import Crosswalk.Proofs.DependencyOrder
import Crosswalk.Proofs.Uses

/-!
The recursion of mapping as a relation between tasks. A task is a type, a reference or the expansion
of a declaration, together with the names that are open; a step leads to a task that mapping turns
to on the way, and says whether it uses up a level and which declaration it opens. Main statements:
only a selection can open what is open, and a path that opens no declaration twice is short.
-/

namespace Crosswalk

open List

variable {ε α β : Type} {a : List Scalar} {n : String}

/-! ### Parts of types -/

mutual

/-- The types in a field: its own, and those of its arguments. -/
def Field.types : Field → List Raw
  | ⟨_, type, _, _, _, _, arguments⟩ => type :: Field.typesAll arguments

def Field.typesAll : List Field → List Raw
  | [] => []
  | f :: fs => f.types ++ Field.typesAll fs

end

def Additional.types : Option (Additional Raw) → List Raw
  | some (.typed raw) => [raw]
  | _ => []

/-- The types that stand in a shape. -/
def Shape.parts : Shape → List Raw
  | .array inner _ | .nullable inner | .optional inner => [inner]
  | .tuple inners | .union inners | .intersection inners => inners
  | .container _ args _ => args
  | .object fields additional => Field.typesAll fields ++ Additional.types additional
  | _ => []

/-- The parts that are mapped one level deeper. A selection looks at its base first. -/
def Shape.deeper : Shape → List Raw
  | .container .readonly args _ => args.take 1
  | .container kind args _ => if kind.isSelection then [] else args
  | s => s.parts

/-- The types in a declaration. -/
def Declaration.types (d : Declaration) : List Raw :=
  match d.body with
  | .enumeration _ => []
  | .synonym raw => [raw]
  | .object fields => Field.typesAll fields ++ Additional.types d.additional?

theorem Shape.deeper_subset (s : Shape) : s.deeper ⊆ s.parts := by
  unfold deeper
  split
  · exact take_subset ..
  · split
    · exact nil_subset _
    · exact Subset.refl _
  · exact Subset.refl _

namespace Field

theorem mem_typesAll {p : Raw} {fs : List Field} : p ∈ typesAll fs ↔ ∃ f ∈ fs, p ∈ f.types := by
  induction fs with
  | nil => simp [typesAll]
  | cons f fs ih => simp [typesAll, ih]

theorem types_eq (f : Field) : f.types = f.type :: typesAll f.arguments := by
  obtain ⟨_, _, _, _, _, _, _⟩ := f
  rw [types]

theorem typesAll_cons (f : Field) (fs : List Field) :
    typesAll (f :: fs) = f.type :: (typesAll f.arguments ++ typesAll fs) := by
  rw [typesAll, types_eq, cons_append]

/-- A selection drops fields or changes whether they are optional. -/
theorem typesAll_selectFields_subset (kind : Container) (keys : List String) (fs : List Field) :
    typesAll (selectFields kind keys fs) ⊆ typesAll fs := by
  intro p hmem
  obtain ⟨f, hf, hp⟩ := mem_typesAll.mp hmem
  have hchanged (b : Bool) (hf : f ∈ fs.map fun g => { g with optional := b }) :
      p ∈ typesAll fs := by
    obtain ⟨g, hg, rfl⟩ := mem_map.mp hf
    rw [types_eq] at hp
    exact mem_typesAll.mpr ⟨g, hg, types_eq g ▸ hp⟩
  cases kind with
  | pick | without => exact mem_typesAll.mpr ⟨f, (mem_filter.mp hf).1, hp⟩
  | _ => exact hchanged _ hf

end Field

theorem Declaration.typesAll_fields_subset (d : Declaration) :
    Field.typesAll d.fields ⊆ d.types := by
  cases hb : d.body with
  | object fields =>
    simp only [types, Declaration.fields, hb]
    exact subset_append_left ..
  | _ => simp [Declaration.fields, hb, Field.typesAll]

/-! ### Tasks and steps -/

/-- What mapping is at, with the names that are open there. -/
inductive Task where
  | type (ancestors : List Scalar) (raw : Raw)
  | reference (ancestors : List Scalar) (name : String)
  /-- The name of the declaration is among those that are open. -/
  | expansion (ancestors : List Scalar) (d : Declaration)

namespace Task

def ancestors : Task → List Scalar
  | .type a _ | .reference a _ | .expansion a _ => a

def isReference : Task → Bool
  | .reference _ _ => true
  | _ => false

end Task

/-- A declaration is opened by a reference to it, or by a selection of its fields. -/
inductive Opening where
  | reference (name : Scalar)
  | selection (name : Scalar)
deriving Repr, DecidableEq

namespace Opening

def name : Opening → Scalar
  | .reference n | .selection n => n

def isSelection : Opening → Bool
  | .selection _ => true
  | .reference _ => false

end Opening

namespace Mapping

/-- A selection over a name is not written by the name. -/
def Unfolds (m : Mapping ε) (ancestors : List Scalar) (name : String) : Prop :=
  m.inline = true ∨ .text name ∈ ancestors ∨ m.renderer.select? = none

/-- The fields that a selection takes from a declared object. -/
def selected (m : Mapping ε) (kind : Container) (keys : List String) (name : String) : List Field :=
  selectFields kind keys (((m.catalogue.find? (.text name)).map Declaration.fields).getD [])

/-- Mapping turns from one task to another: the declarations that this opens, and the number of
levels that it takes. -/
inductive Step (m : Mapping ε) (known : List Scalar) : Task → List Opening → Nat → Task → Prop
  | part {a raw shape p} (hc : m.grammar.classify m.scope raw = .ok shape) (hp : p ∈ shape.deeper) :
      Step m known (.type a raw) [] 1 (.type a p)
  | name {a raw n} (hc : m.grammar.classify m.scope raw = .ok (.reference n)) :
      Step m known (.type a raw) [] 0 (.reference a n)
  /-- A selection over anything but a declared name is its base. -/
  | base {a raw kind base rest keys shape}
      (hc : m.grammar.classify m.scope raw = .ok (.container kind (base :: rest) keys))
      (hk : kind.isSelection = true) (hb : m.grammar.classify m.scope base = .ok shape)
      (hn : ∀ n, shape = .reference n → .text n ∉ known) :
      Step m known (.type a raw) [] 1 (.type a base)
  /-- A selection over a declaration without fields is a reference to it. -/
  | kept {a raw kind base rest keys n}
      (hc : m.grammar.classify m.scope raw = .ok (.container kind (base :: rest) keys))
      (hk : kind.isSelection = true) (hb : m.grammar.classify m.scope base = .ok (.reference n))
      (hn : .text n ∈ known) (hu : m.Unfolds a n) (ho : m.catalogue.isObject (.text n) = false) :
      Step m known (.type a raw) [] 0 (.reference a n)
  | field {a raw kind base rest keys n p}
      (hc : m.grammar.classify m.scope raw = .ok (.container kind (base :: rest) keys))
      (hk : kind.isSelection = true) (hb : m.grammar.classify m.scope base = .ok (.reference n))
      (hn : .text n ∈ known) (hu : m.Unfolds a n) (ho : m.catalogue.isObject (.text n) = true)
      (hp : p ∈ Field.typesAll (m.selected kind keys n)) :
      Step m known (.type a raw) [.selection (.text n)] 1 (.type (.text n :: a) p)
  | expand {a n d} (hi : m.inline = true) (hn : .text n ∈ known) (ha : .text n ∉ a)
      (hd : m.catalogue.find? (.text n) = some d) :
      Step m known (.reference a n) [.reference (.text n)] 1 (.expansion (.text n :: a) d)
  | member {a d p} (hp : p ∈ d.types) : Step m known (.expansion a d) [] 0 (.type a p)
  | above {a d b} (ho : d.isObject = true) (hb : b ∈ d.bases) :
      Step m known (.expansion a d) [] 0 (.reference a b)

/-- Steps in a row, with the openings in order and the number of levels. -/
inductive Path (m : Mapping ε) (known : List Scalar) : Task → List Opening → Nat → Task → Prop
  | refl (t : Task) : Path m known t [] 0 t
  | cons {t u v os ps k n} (h : m.Step known t os k u) (hrest : Path m known u ps n v) :
      Path m known t (os ++ ps) (k + n) v

/-- From a task with a budget, mapping comes to a task that satisfies `Q` with what is left. -/
def Meets (m : Mapping ε) (known : List Scalar) (Q : Task → Nat → Prop) (t : Task) (budget : Nat) :
    Prop :=
  ∃ os n u, m.Path known t os n u ∧ Q u (budget - n)

section Meets

variable {m : Mapping ε} {known : List Scalar} {Q : Task → Nat → Prop} {b : Nat}

variable {raw : Raw}

theorem meets_iff {t : Task} :
    m.Meets known Q t b ↔ Q t b ∨ ∃ os k u, m.Step known t os k u ∧ m.Meets known Q u (b - k) := by
  constructor
  · rintro ⟨os, n, u, hpath, hq⟩
    cases hpath with
    | refl => exact .inl hq
    | @cons _ v _ os ps k n hstep hrest =>
      refine .inr ⟨os, k, v, hstep, ps, n, u, hrest, ?_⟩
      rwa [Nat.sub_sub]
  · rintro (hq | ⟨os, k, u, hstep, ps, n, v, hpath, hq⟩)
    · exact ⟨[], 0, t, .refl t, hq⟩
    · refine ⟨os ++ ps, k + n, v, .cons hstep hpath, ?_⟩
      rwa [← Nat.sub_sub]

theorem meets_failed {e : Fault} (hc : m.grammar.classify m.scope raw = .error e) :
    m.Meets known Q (.type a raw) b ↔ Q (.type a raw) b := by
  rw [meets_iff]
  constructor
  · rintro (hq | ⟨os, k, u, hstep, _⟩)
    · exact hq
    · cases hstep with
      | part hc' | name hc' | base hc' | kept hc' | field hc' => cases hc.symm.trans hc'
  · exact .inl

/-- From a type that is neither a name nor a selection, mapping turns to its parts. -/
theorem meets_parts {s : Shape} (hc : m.grammar.classify m.scope raw = .ok s)
    (hr : ∀ n, s ≠ .reference n) (hs : s.isSelection = false) :
    m.Meets known Q (.type a raw) b ↔
      Q (.type a raw) b ∨ ∃ p ∈ s.deeper, m.Meets known Q (.type a p) (b - 1) := by
  rw [meets_iff]
  apply or_congr_right
  constructor
  · rintro ⟨os, k, u, hstep, hmeets⟩
    cases hstep with
    | part hc' hp =>
      cases hc.symm.trans hc'
      exact ⟨_, hp, hmeets⟩
    | name hc' =>
      cases hc.symm.trans hc'
      exact absurd rfl (hr _)
    | base hc' hk | kept hc' hk | field hc' hk =>
      cases hc.symm.trans hc'
      rw [Shape.isSelection, hk] at hs
      cases hs
  · rintro ⟨p, hp, hmeets⟩
    exact ⟨[], 1, _, .part hc hp, hmeets⟩

theorem meets_name (hc : m.grammar.classify m.scope raw = .ok (.reference n)) :
    m.Meets known Q (.type a raw) b ↔ Q (.type a raw) b ∨ m.Meets known Q (.reference a n) b := by
  rw [meets_iff]
  apply or_congr_right
  constructor
  · rintro ⟨os, k, u, hstep, hmeets⟩
    cases hstep with
    | part hc' hp =>
      cases hc.symm.trans hc'
      cases hp
    | name hc' =>
      cases hc.symm.trans hc'
      exact hmeets
    | base hc' | kept hc' | field hc' => cases hc.symm.trans hc'
  · intro hmeets
    exact ⟨[], 0, _, .name hc, hmeets⟩

/-- What a selection turns to, where `type` and `reference` say something about types and names. -/
def Selecting (m : Mapping ε) (known a : List Scalar) (kind : Container) (args : List Raw)
    (keys : List String) (type : List Scalar → Raw → Prop) (reference : String → Prop) : Prop :=
  ∃ base s, args.head? = some base ∧ m.grammar.classify m.scope base = .ok s ∧
    ((∀ n, s = .reference n → .text n ∉ known) ∧ type a base ∨
      ∃ n, s = .reference n ∧ .text n ∈ known ∧ m.Unfolds a n ∧
        if m.catalogue.isObject (.text n) then
          ∃ p ∈ Field.typesAll (m.selected kind keys n), type (.text n :: a) p
        else reference n)

section Selecting

variable {kind : Container} {base : Raw} {rest : List Raw} {keys : List String}
    {type : List Scalar → Raw → Prop}
  {reference : String → Prop}

theorem selecting_other {s : Shape} (hb : m.grammar.classify m.scope base = .ok s)
    (hn : ∀ n, s = .reference n → .text n ∉ known) :
    m.Selecting known a kind (base :: rest) keys type reference ↔ type a base := by
  constructor
  · rintro ⟨_, s', hbase, hs', hnext⟩
    cases hbase
    cases hb.symm.trans hs'
    rcases hnext with ⟨_, h⟩ | ⟨n, hs, hk, _⟩
    · exact h
    · exact absurd hk (hn n hs)
  · intro h
    exact ⟨base, s, rfl, hb, .inl ⟨hn, h⟩⟩

theorem selecting_declared (hb : m.grammar.classify m.scope base = .ok (.reference n))
    (hn : .text n ∈ known) :
    m.Selecting known a kind (base :: rest) keys type reference ↔ m.Unfolds a n ∧
      if m.catalogue.isObject (.text n) then
        ∃ p ∈ Field.typesAll (m.selected kind keys n), type (.text n :: a) p
      else reference n := by
  constructor
  · rintro ⟨_, s', hbase, hs', hnext⟩
    cases hbase
    cases hb.symm.trans hs'
    rcases hnext with ⟨hk, _⟩ | ⟨n', hs, _, h⟩
    · exact absurd hn (hk n rfl)
    · cases hs
      exact h
  · intro h
    exact ⟨base, _, rfl, hb, .inr ⟨n, rfl, hn, h⟩⟩

end Selecting

theorem meets_selection {kind : Container} {args : List Raw} {keys : List String}
    (hk : kind.isSelection)
    (hc : m.grammar.classify m.scope raw = .ok (.container kind args keys)) :
    m.Meets known Q (.type a raw) b ↔ Q (.type a raw) b ∨
      m.Selecting known a kind args keys (fun a p => m.Meets known Q (.type a p) (b - 1))
        fun n => m.Meets known Q (.reference a n) b := by
  rw [meets_iff]
  apply or_congr_right
  constructor
  · rintro ⟨os, k, u, hstep, hmeets⟩
    cases hstep with
    | part hc' hp =>
      cases hc.symm.trans hc'
      cases kind <;> cases hk <;> cases hp
    | name hc' => cases hc.symm.trans hc'
    | base hc' _ hb hn =>
      cases hc.symm.trans hc'
      exact ⟨_, _, rfl, hb, .inl ⟨hn, hmeets⟩⟩
    | kept hc' _ hb hn hu ho =>
      cases hc.symm.trans hc'
      refine ⟨_, _, rfl, hb, .inr ⟨_, rfl, hn, hu, ?_⟩⟩
      rw [ho]
      exact hmeets
    | field hc' _ hb hn hu ho hp =>
      cases hc.symm.trans hc'
      refine ⟨_, _, rfl, hb, .inr ⟨_, rfl, hn, hu, ?_⟩⟩
      rw [ho]
      exact ⟨_, hp, hmeets⟩
  · rintro ⟨base, s, hargs, hb, hnext⟩
    obtain ⟨rest, rfl⟩ := head?_eq_some_iff.mp hargs
    rcases hnext with ⟨hn, hmeets⟩ | ⟨n, rfl, hn, hu, hmeets⟩
    · exact ⟨[], 1, _, .base hc hk hb hn, hmeets⟩
    · cases ho : m.catalogue.isObject (.text n) with
      | true =>
        rw [ho] at hmeets
        obtain ⟨p, hp, hmeets⟩ := hmeets
        exact ⟨_, 1, _, .field hc hk hb hn hu ho hp, hmeets⟩
      | false =>
        rw [ho] at hmeets
        exact ⟨[], 0, _, .kept hc hk hb hn hu ho, hmeets⟩

theorem meets_reference :
    m.Meets known Q (.reference a n) b ↔ Q (.reference a n) b ∨
      (m.inline ∧ .text n ∈ known ∧ .text n ∉ a) ∧
        ∃ d, m.catalogue.find? (.text n) = some d ∧
          m.Meets known Q (.expansion (.text n :: a) d) (b - 1) := by
  rw [meets_iff]
  apply or_congr_right
  constructor
  · rintro ⟨os, k, u, hstep, hmeets⟩
    cases hstep with
    | expand hi hn ha hd => exact ⟨⟨hi, hn, ha⟩, _, hd, hmeets⟩
  · rintro ⟨⟨hi, hn, ha⟩, d, hd, hmeets⟩
    exact ⟨_, 1, _, .expand hi hn ha hd, hmeets⟩

theorem meets_expansion {d : Declaration} :
    m.Meets known Q (.expansion a d) b ↔ Q (.expansion a d) b ∨
      (∃ p ∈ d.types, m.Meets known Q (.type a p) b) ∨
        d.isObject ∧ ∃ base ∈ d.bases, m.Meets known Q (.reference a base) b := by
  rw [meets_iff]
  apply or_congr_right
  constructor
  · rintro ⟨os, k, u, hstep, hmeets⟩
    cases hstep with
    | member hp => exact .inl ⟨_, hp, hmeets⟩
    | above ho hb => exact .inr ⟨ho, _, hb, hmeets⟩
  · rintro (⟨p, hp, hmeets⟩ | ⟨ho, base, hb, hmeets⟩)
    · exact ⟨[], 0, _, .member hp, hmeets⟩
    · exact ⟨[], 0, _, .above ho hb, hmeets⟩

end Meets

/-! ### The length of paths -/

/-- No declaration is opened twice, or opened while it is open. -/
def Fresh (ancestors : List Scalar) (os : List Opening) : Prop :=
  (os.map Opening.name).Nodup ∧ ∀ o ∈ os, o.name ∉ ancestors

theorem fresh_cons {o : Opening} {os : List Opening} :
    Fresh a (o :: os) ↔ o.name ∉ a ∧ Fresh (o.name :: a) os := by
  unfold Fresh
  rw [map_cons, nodup_cons, forall_mem_cons]
  constructor
  · rintro ⟨⟨hne, hnodup⟩, ha, hos⟩
    refine ⟨ha, hnodup, fun o' ho' => ?_⟩
    rw [mem_cons, not_or]
    exact ⟨fun h => hne (h ▸ mem_map_of_mem ho'), hos o' ho'⟩
  · rintro ⟨ha, hnodup, hos⟩
    refine ⟨⟨fun hmem => ?_, hnodup⟩, ha, fun o' ho' => fun h => hos o' ho' (mem_cons_of_mem _ h)⟩
    obtain ⟨o', ho', hname⟩ := mem_map.mp hmem
    exact hos o' ho' (hname ▸ mem_cons_self)

section Paths

variable {m : Mapping ε} {known : List Scalar}

variable {os : List Opening}

/-- A step opens at most one declaration, and then that is open. -/
theorem Step.opens {t u : Task} {k : Nat} (h : m.Step known t os k u) :
    os = [] ∧ u.ancestors = t.ancestors ∨
      ∃ o, os = [o] ∧ u.ancestors = o.name :: t.ancestors ∧
        (o.isSelection = false → o.name ∉ t.ancestors) := by
  cases h with
  | part | name | base | kept | member | above => exact .inl ⟨rfl, rfl⟩
  | field => exact .inr ⟨_, rfl, rfl, by simp [Opening.isSelection]⟩
  | expand _ _ ha => exact .inr ⟨_, rfl, rfl, fun _ => ha⟩

/-- Only a selection can open what is open. -/
theorem Path.fresh_iff {t u : Task} {n : Nat} (h : m.Path known t os n u) :
    Fresh t.ancestors os ↔ ∀ before o after, os = before ++ o :: after → o.isSelection →
      o.name ∉ before.map Opening.name ∧ o.name ∉ t.ancestors := by
  constructor
  · rintro ⟨hnodup, ha⟩ before o after rfl _
    rw [map_append, map_cons, nodup_append] at hnodup
    refine ⟨fun hmem => ?_, ha o (by simp)⟩
    exact hnodup.2.2 _ hmem _ mem_cons_self rfl
  · intro hsel
    induction h with
    | refl t => exact ⟨nodup_nil, by simp⟩
    | cons hstep _ ih =>
      rcases hstep.opens with ⟨rfl, ha⟩ | ⟨o, rfl, ha, ho⟩
      · rw [← ha]
        exact ih (ha ▸ hsel)
      · rw [singleton_append, fresh_cons, ← ha]
        refine ⟨?_, ih fun before o' after hps hsel' => ?_⟩
        · cases hkind : o.isSelection with
          | true => exact (hsel [] o _ rfl hkind).2
          | false => exact ho hkind
        · obtain ⟨hbefore, hopen⟩ := hsel (o :: before) o' after (by simp [hps]) hsel'
          rw [map_cons, mem_cons, not_or] at hbefore
          rw [ha, mem_cons, not_or]
          exact ⟨hbefore.2, hbefore.1, hopen⟩

/-- Where types cannot select fields, nothing is opened twice. -/
theorem Path.fresh_of_not_selects (hsel : ¬m.Selects) {t u : Task} {n : Nat}
    (h : m.Path known t os n u) : Fresh t.ancestors os := by
  have hreference : ∀ o ∈ os, o.isSelection = false := by
    induction h with
    | refl => simp
    | cons hstep _ ih =>
      rw [forall_mem_append]
      refine ⟨?_, ih⟩
      cases hstep with
      | field hc hk => exact absurd ⟨_, _, hc, hk⟩ hsel
      | expand => simp [Opening.isSelection]
      | _ => simp
  refine h.fresh_iff.mpr fun before o after hos ho => ?_
  rw [hreference o (by simp [hos])] at ho
  cases ho

/-- Classifying makes types smaller. -/
def Shrinks (m : Mapping ε) (size : Raw → Nat) : Prop :=
  ∀ raw s, m.grammar.classify m.scope raw = .ok s → ∀ p ∈ s.parts, size p < size raw

/-- The number of declarations that are not open. -/
def unopened (m : Mapping ε) (a : List Scalar) : Nat := (m.catalogue.names.filter (· ∉ a)).length

/-- A bound for the levels below a task, if the types in declarations have at most the size `S`. -/
def potential (m : Mapping ε) (size : Raw → Nat) (S : Nat) : Task → Nat
  | .type a raw => size raw + m.unopened a * (S + 1)
  | .reference a _ => m.unopened a * (S + 1)
  | .expansion a _ => S + m.unopened a * (S + 1)

theorem unopened_cons_lt {n : Scalar} (hn : n ∈ m.catalogue.names) (ha : n ∉ a) :
    m.unopened (n :: a) < m.unopened a := by
  have hfilter : m.catalogue.names.filter (· ∉ n :: a) =
      (m.catalogue.names.filter (· ∉ a)).filter (· ≠ n) := by
    simp [filter_filter]
  unfold unopened
  rw [hfilter, length_filter_lt_length_iff_exists]
  exact ⟨n, mem_filter.mpr ⟨hn, by simpa using ha⟩, by simp⟩

/-- Opening a declaration pays for its types and the level that it takes. -/
theorem unopened_cons_mul {n : Scalar} (hn : n ∈ m.catalogue.names) (ha : n ∉ a) (S : Nat) :
    1 + (S + m.unopened (n :: a) * (S + 1)) ≤ m.unopened a * (S + 1) := by
  have hle := Nat.mul_le_mul_right (S + 1) (Nat.succ_le_of_lt (unopened_cons_lt hn ha))
  rw [Nat.succ_mul] at hle
  omega

/-- A task that expands nothing but what is declared. -/
def Declared (m : Mapping ε) : Task → Prop
  | .expansion _ d => d ∈ m.catalogue.declarations
  | _ => True

/-- The types that a selection takes are types of a declaration. -/
theorem mem_types_of_selected {kind : Container} {keys : List String} {p : Raw}
    (h : p ∈ Field.typesAll (m.selected kind keys n)) :
    ∃ d ∈ m.catalogue.declarations, p ∈ d.types := by
  have hmem := Field.typesAll_selectFields_subset _ _ _ h
  cases hd : m.catalogue.find? (.text n) with
  | none => simp [hd, Field.typesAll] at hmem
  | some d =>
    rw [hd, Option.map_some, Option.getD_some] at hmem
    exact ⟨d, mem_of_find?_eq_some hd, d.typesAll_fields_subset hmem⟩

/-- A step that opens only what is not open stays within the bound. -/
theorem Step.potential_le {size : Raw → Nat} {S : Nat} (hshrinks : m.Shrinks size)
    (hS : ∀ d ∈ m.catalogue.declarations, ∀ p ∈ d.types, size p ≤ S)
    (hregistered : ∀ n ∈ known, n ∈ m.catalogue.names) {t u : Task} {k : Nat}
    (h : m.Step known t os k u) (ht : m.Declared t) (hfresh : ∀ o ∈ os, o.name ∉ t.ancestors) :
    m.Declared u ∧ k + m.potential size S u ≤ m.potential size S t := by
  cases h with
  | part hc hp =>
    have hsize := hshrinks _ _ hc _ (Shape.deeper_subset _ hp)
    exact ⟨trivial, by simp only [potential]; omega⟩
  | name | kept => exact ⟨trivial, by simp only [potential]; omega⟩
  | base hc =>
    have hsize := hshrinks _ _ hc _ mem_cons_self
    exact ⟨trivial, by simp only [potential]; omega⟩
  | @field a _ _ _ _ _ n p _ _ _ hn _ _ hp =>
    obtain ⟨d, hd, hp⟩ := mem_types_of_selected hp
    have hpay := unopened_cons_mul (hregistered _ hn) (hfresh _ mem_cons_self) S
    have hsize := hS d hd p hp
    refine ⟨trivial, ?_⟩
    simp only [potential, Task.ancestors] at hpay ⊢
    omega
  | @expand a n d _ hn ha hd =>
    have hpay := unopened_cons_mul (hregistered _ hn) ha S
    exact ⟨mem_of_find?_eq_some hd, hpay⟩
  | @member a d p hp =>
    have hsize := hS d ht p hp
    exact ⟨trivial, by simp only [potential]; omega⟩
  | above => exact ⟨trivial, by simp only [potential]; omega⟩

/-- A path that opens nothing twice stays within the bound. -/
theorem Path.levels_le {size : Raw → Nat} {S : Nat} (hshrinks : m.Shrinks size)
    (hS : ∀ d ∈ m.catalogue.declarations, ∀ p ∈ d.types, size p ≤ S)
    (hregistered : ∀ n ∈ known, n ∈ m.catalogue.names) {t u : Task} {n : Nat}
    (h : m.Path known t os n u) (ht : m.Declared t) (hfresh : Fresh t.ancestors os) :
    n + m.potential size S u ≤ m.potential size S t := by
  induction h with
  | refl t => omega
  | @cons t u v os ps k n hstep _ ih =>
    rcases hstep.opens with ⟨rfl, ha⟩ | ⟨o, rfl, ha, _⟩
    · obtain ⟨hu, hle⟩ := hstep.potential_le hshrinks hS hregistered ht (by simp)
      have hrest := ih hu (ha ▸ hfresh)
      omega
    · rw [singleton_append, fresh_cons] at hfresh
      obtain ⟨hu, hle⟩ := hstep.potential_le hshrinks hS hregistered ht (by simpa using hfresh.1)
      have hrest := ih hu (ha ▸ hfresh.2)
      omega

end Paths

end Mapping

end Crosswalk
