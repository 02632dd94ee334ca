import Crosswalk.Proofs.ReadBack
import Crosswalk.Proofs.RendererMap

/-!
Types that are put together by hand, and the expression that a target writes for each. A reader is
tried on them: what is written for a term has to be read as the term.
-/

namespace Crosswalk

variable {ε : Type}

/-- The key of a field, and whether the field may be missing. -/
structure Term.Member where
  key : String
  optional : Bool
deriving Repr, DecidableEq

inductive Term where
  | primitive (type : Primitive) (constraints : List Constraint)
  | literal (value : Value)
  | enumeration (values : List Value)
  | reference (name : String)
  | array (element : Term) (constraints : List Constraint)
  | tuple (elements : List Term)
  | union (members : List Term)
  | intersection (members : List Term)
  | nullable (inner : Term)
  | container (kind : Container) (args : List Term)
  | object (fields : List (Term.Member × Term)) (additional : Option (Additional Term))

namespace Term

/-- A field of a source with this key; its type is not looked at by any target. -/
def Member.field (m : Member) (type : Raw) : Field :=
  { key := .text m.key, type, optional := m.optional }

mutual

/-- The expression of a term in a target. -/
def render (r : Renderer ε) : Term → Except Fault ε
  | .primitive p cs => r.primitive p cs
  | .literal v => r.literal v
  | .enumeration vs => (r.enumeration {} vs).map Prod.fst
  | .reference name => .ok (r.reference name)
  | .array t cs => do r.array (← render r t) cs
  | .tuple ts => do r.tuple (← renderAll r ts)
  | .union ts => do r.union (← renderAll r ts)
  | .intersection ts => do
    match ← renderAll r ts with
    | [] => .error .wrongKind
    | e :: es => es.foldlM r.intersect e
  | .nullable t => do r.nullable (← render r t)
  | .container kind ts => do r.container kind (← renderAll r ts)
  | .object fs a => do
    let fields ← renderFields r fs
    r.object fields (← renderAdditional r a) false

def renderAll (r : Renderer ε) : List Term → Except Fault (List ε)
  | [] => .ok []
  | t :: ts => do
    let e ← render r t
    return e :: (← renderAll r ts)

def renderFields (r : Renderer ε) : List (Member × Term) → Except Fault (List (MappedField ε))
  | [] => .ok []
  | (m, t) :: fs => do
    let expression ← render r t
    return { field := m.field (.text []), expression, arguments := [] } :: (← renderFields r fs)

def renderAdditional (r : Renderer ε) :
    Option (Additional Term) → Except Fault (Option (Additional ε))
  | none => .ok none
  | some .anything => .ok (some .anything)
  | some .nothing => .ok (some .nothing)
  | some (.typed t) => do return some (.typed (← render r t))

end

/-- How levels are counted: what the mark of a field adds, and what stands for the keys that an open
object has no field for. -/
structure Scale where
  mark : Member → Nat
  anything : Nat

mutual

/-- How many levels stand below the top of a term. -/
def depth (s : Scale) : Term → Nat
  | .primitive _ _ | .literal _ | .enumeration _ | .reference _ => 0
  | .array t _ | .nullable t => depth s t + 1
  | .tuple ts | .union ts | .intersection ts | .container _ ts => depthBelow s ts
  | .object fs a => max (depthOfFields s fs) (depthOfAdditional s a)

def depthBelow (s : Scale) : List Term → Nat
  | [] => 0
  | t :: ts => max (depth s t + 1) (depthBelow s ts)

def depthOfFields (s : Scale) : List (Member × Term) → Nat
  | [] => 0
  | (m, t) :: fs => max (depth s t + 1 + s.mark m) (depthOfFields s fs)

def depthOfAdditional (s : Scale) : Option (Additional Term) → Nat
  | none | some .nothing => 0
  | some .anything => s.anything
  | some (.typed t) => depth s t + 1

end

/-- Fields are not marked, and what an open object allows is a level. -/
def Scale.plain : Scale := ⟨fun _ => 0, 1⟩

/-- The type of a field that may be missing stands below the call that says so. -/
def Scale.marked : Scale := ⟨fun m => m.optional.toNat, 0⟩

def height (t : Term) : Nat := t.depth .plain

/-- How many levels stand below the top of a term when its schema is read. -/
def levels (t : Term) : Nat := t.depth .marked

section Render

variable {β : Type} {r : Renderer ε} {g : β → ε}

theorem renderAll_of_forall₂ {ts : List Term} {bs : List β}
    (h : List.Forall₂ (fun t b => render r t = .ok (g b)) ts bs) :
    renderAll r ts = .ok (bs.map g) := by
  induction h with
  | nil => rfl
  | cons ht _ ih =>
    rw [renderAll, ht, ih]
    rfl

/-- A field and what stands for it: the member is the same, and the type is related by `R`. -/
def Paired (R : Term → β → Prop) (f : Member × Term) (p : Member × β) : Prop :=
  p.1 = f.1 ∧ R f.2 p.2

theorem exists_paired {R : Term → β → Prop} {fs : List (Member × Term)}
    (h : ∀ f ∈ fs, ∃ b, R f.2 b) :
    ∃ ps, List.Forall₂ (Paired R) fs ps := by
  refine exists_forall₂ fun f hf => ?_
  obtain ⟨b, hb⟩ := h f hf
  exact ⟨(f.1, b), rfl, hb⟩

theorem renderFields_of_forall₂ {fs : List (Member × Term)} {ps : List (Member × β)}
    (h : List.Forall₂ (Paired fun t b => render r t = .ok (g b)) fs ps) :
    renderFields r fs = .ok (ps.map fun p => ⟨p.1.field (.text []), g p.2, []⟩) := by
  induction h with
  | nil => rfl
  | @cons f p fs ps hf _ ih =>
    obtain ⟨member, t⟩ := f
    obtain ⟨hmember, ht⟩ := hf
    rw [renderFields, ht, ih, List.map_cons, hmember]
    rfl

end Render

variable {s : Scale}

theorem depth_lt_depthBelow {t : Term} {ts : List Term} (h : t ∈ ts) :
    depth s t < depthBelow s ts := by
  induction ts with
  | nil => cases h
  | cons t' ts ih =>
    rw [depthBelow]
    rcases List.mem_cons.mp h with rfl | h
    · omega
    · have := ih h
      omega

theorem depth_lt_depthOfFields {f : Member × Term} {fs : List (Member × Term)} (h : f ∈ fs) :
    depth s f.2 + s.mark f.1 < depthOfFields s fs := by
  induction fs with
  | nil => cases h
  | cons f' fs ih =>
    rw [depthOfFields]
    rcases List.mem_cons.mp h with rfl | h
    · omega
    · have := ih h
      omega

end Term

/-! ### Reading what was written -/

/-- A notation in which a mapping writes and reads: the raw types that a text is read from, the
expression that it is, and the ancestors under which it is read. -/
structure Language (ε β : Type) where
  mapping : Mapping ε
  known : List Scalar
  scale : Term.Scale
  expression : β → ε
  raws : β → Raw → Prop
  under : List Scalar → Prop

namespace Language

open List
open Mapping (Yields)

variable {β : Type} {L : Language ε β} {k k' budget : Nat} {b b' : β}

/-- A text that is mapped to another within any budget from `k` on. -/
def Reads (L : Language ε β) (k : Nat) (b b' : β) : Prop :=
  ∀ raw, L.raws b raw → ∀ site budget ancestors, L.under ancestors → k ≤ budget →
    Yields (L.mapping.mapType site L.known budget ancestors raw) (L.expression b')

theorem Reads.mono (h : L.Reads k b b') (hle : k ≤ k') : L.Reads k' b b' :=
  fun raw hraw site budget ancestors hu hb =>
    h raw hraw site budget ancestors hu (Nat.le_trans hle hb)

/-- A text is read if its shape is; what stands below has one level less. -/
theorem reads_of_shape (h : ∀ raw, L.raws b raw → ∃ s,
      L.mapping.grammar.classify L.mapping.scope raw = .ok s ∧
        ∀ site budget ancestors, L.under ancestors → k ≤ budget →
          Yields (L.mapping.shape site L.known (L.mapping.mapType site L.known budget)
            (L.mapping.mapReference site L.known (budget + 1) ancestors) ancestors s)
            (L.expression b')) : L.Reads (k + 1) b b' := by
  intro raw hraw site budget ancestors hu hb
  obtain ⟨budget, rfl⟩ := Nat.exists_eq_add_of_le' (show 1 ≤ budget by omega)
  obtain ⟨s, hclassify, hyields⟩ := h raw hraw
  rw [Mapping.mapType_succ]
  exact (Yields.lift hclassify).bind (hyields site budget ancestors hu (by omega))

/-- What is known of the text that is written for a term. -/
structure Writes (L : Language ε β) (t : Term) (b : β) : Prop where
  render : t.render L.mapping.renderer = .ok (L.expression b)
  reads : L.Reads (t.depth L.scale + 1) b b

/-- What an object allows besides its fields, as it is written. -/
structure WritesAdditional (L : Language ε β) (a : Option (Additional Term))
    (o : Option (Additional β)) : Prop where
  render : Term.renderAdditional L.mapping.renderer a = .ok (o.map (Additional.map L.expression))
  reads : ∀ b, o = some (.typed b) → L.Reads (Term.depthOfAdditional L.scale a) b b

section Parts

variable {R : Term → β → Prop} (hR : ∀ {t b}, R t b → L.Writes t b)
include hR

section Members

variable {ts : List Term} {bs : List β} (h : Forall₂ R ts bs)
include h

theorem renderAll_written :
    Term.renderAll L.mapping.renderer ts = .ok (bs.map L.expression) :=
  Term.renderAll_of_forall₂ (h.imp fun _ _ ht => (hR ht).render)

theorem reads_written : ∀ b ∈ bs, L.Reads (Term.depthBelow L.scale ts) b b := by
  intro b hb
  obtain ⟨t, ht, hwritten⟩ := exists_mem_of_forall₂ h hb
  exact (hR hwritten).reads.mono (Term.depth_lt_depthBelow ht)

end Members

section Fields

variable {fs : List (Term.Member × Term)} {ps : List (Term.Member × β)}
  (h : Forall₂ (Term.Paired R) fs ps)
include h

theorem renderFields_written : Term.renderFields L.mapping.renderer fs =
    .ok (ps.map fun p => ⟨p.1.field (.text []), L.expression p.2, []⟩) :=
  Term.renderFields_of_forall₂ (h.imp fun _ _ hf => ⟨hf.1, (hR hf.2).render⟩)

theorem reads_writtenFields : ∀ p ∈ ps, L.Reads (Term.depthOfFields L.scale fs) p.2 p.2 := by
  intro p hp
  obtain ⟨f, hf, -, ht⟩ := exists_mem_of_forall₂ h hp
  have hdepth := Term.depth_lt_depthOfFields (s := L.scale) hf
  exact (hR ht).reads.mono (by omega)

end Fields

theorem exists_writesAdditional {a : Option (Additional Term)}
    (ha : ∀ t, a = some (.typed t) → ∃ b, R t b) : ∃ o, L.WritesAdditional a o ∧
      ∀ b, o = some (.typed b) → ∃ t, a = some (.typed t) ∧ R t b := by
  match a with
  | none => exact ⟨none, ⟨rfl, by simp⟩, by simp⟩
  | some .nothing => exact ⟨some .nothing, ⟨rfl, by simp⟩, by simp⟩
  | some .anything => exact ⟨some .anything, ⟨rfl, by simp⟩, by simp⟩
  | some (.typed t) =>
    obtain ⟨b, hb⟩ := ha t rfl
    refine ⟨some (.typed b), ⟨?_, ?_⟩, ?_⟩
    · rw [Term.renderAdditional, (hR hb).render]
      rfl
    · rintro _ ⟨⟩
      exact (hR hb).reads
    · rintro _ ⟨⟩
      exact ⟨t, rfl, hb⟩

end Parts

section Yields

variable (raw : β → Raw) (hraw : ∀ b, L.raws b (raw b)) (site : Site) (ancestors : List Scalar)
  (hu : L.under ancestors) (hle : k ≤ budget)
include hraw hu hle

theorem yields_members {bs : List β} (h : ∀ b ∈ bs, L.Reads k b b) :
    Yields ((bs.map raw).mapM (L.mapping.mapType site L.known budget ancestors))
      (bs.map L.expression) := by
  refine Yields.mapM (forall₂_map_left_iff.mpr (forall₂_map_right_iff.mpr
    (forall₂_same.mpr fun b hb => ?_)))
  exact h b hb (raw b) (hraw b) site budget ancestors hu hle

theorem yields_fields (text : Term.Member × β → β) {ps : List (Term.Member × β)}
    (h : ∀ p ∈ ps, L.Reads k (text p) (text p)) :
    Yields (Mapping.mapFields (fun f => L.mapping.mapType site L.known budget ancestors f.type)
      (ps.map fun p => p.1.field (raw (text p))))
      (ps.map fun p => ⟨p.1.field (raw (text p)), L.expression (text p), []⟩) := by
  refine Yields.mapFields (forall₂_map_left_iff.mpr (forall₂_map_right_iff.mpr
    (forall₂_same.mpr fun p hp => ⟨rfl, rfl, rfl, ?_⟩)))
  exact h p hp _ (hraw _) site budget ancestors hu hle

theorem yields_additional {o : Option (Additional β)}
    (h : ∀ b, o = some (.typed b) → L.Reads k b b) :
    Yields (Mapping.mapAdditional (L.mapping.mapType site L.known budget ancestors)
      (o.map (Additional.map raw))) (o.map (Additional.map L.expression)) := by
  match o with
  | none | some .nothing | some .anything => exact Yields.pure _
  | some (.typed b) =>
    exact (h b rfl _ (hraw b) site budget ancestors hu hle).bind (Yields.pure _)

end Yields

end Language

end Crosswalk
