import Crosswalk.Proofs.Invariants

/-!
Expressions with notes. A renderer can note, beside every expression, what was rendered on the way
to it; the expressions stay what they are. What a notebook does not name is not noted.
-/

namespace Crosswalk

open List

variable {ε α : Type} {ns : List α}

/-- An expression with the notes on what was rendered on the way to it. -/
structure Noted (α ε : Type) where
  expression : ε
  notes : List α

/-- What is noted where something without parts is rendered, and of a field beside its type. -/
structure Notebook (α : Type) where
  literal : Value → List α := fun _ => []
  enumeration : List Value → List α := fun _ => []
  field : Field → List α := fun _ => []
  selected : String → List α := fun _ => []
  reference : String → List α := fun _ => []
  deferred : String → List α := fun _ => []

variable (b : Notebook α)

namespace MappedField

mutual

def notes : MappedField (Noted α ε) → List α
  | ⟨field, expression, arguments⟩ => expression.notes ++ b.field field ++ notesAll arguments

def notesAll : List (MappedField (Noted α ε)) → List α
  | [] => []
  | m :: ms => m.notes ++ notesAll ms

end

end MappedField

def Additional.notes : Option (Additional (Noted α ε)) → List α
  | some (.typed e) => e.notes
  | _ => []

/-- Note what the notebook names; the expressions are those of `r`. -/
def Renderer.noting (r : Renderer ε) : Renderer (Noted α ε) where
  unknown := fun t => ⟨r.unknown t, []⟩
  primitive := fun p cs => (r.primitive p cs).map (⟨·, []⟩)
  literal := fun v => (r.literal v).map (⟨·, b.literal v⟩)
  enumeration := fun site vs => (r.enumeration site vs).map (Prod.map (⟨·, b.enumeration vs⟩) id)
  array := fun e cs => (r.array e.expression cs).map (⟨·, e.notes⟩)
  tuple := fun es => (r.tuple (es.map Noted.expression)).map (⟨·, es.flatMap Noted.notes⟩)
  union := fun es => (r.union (es.map Noted.expression)).map (⟨·, es.flatMap Noted.notes⟩)
  intersect := fun x y => (r.intersect x.expression y.expression).map (⟨·, x.notes ++ y.notes⟩)
  nullable := fun e => (r.nullable e.expression).map (⟨·, e.notes⟩)
  optional := fun e => (r.optional e.expression).map (⟨·, e.notes⟩)
  container := fun k es =>
    (r.container k (es.map Noted.expression)).map (⟨·, es.flatMap Noted.notes⟩)
  select? := r.select?.map fun select k name keys =>
    (select k name keys).map (⟨·, b.selected name⟩)
  object := fun ms a top =>
    (r.object (MappedField.mapAll Noted.expression ms) (a.map (Additional.map Noted.expression))
      top).map (⟨·, MappedField.notesAll b ms ++ Additional.notes a⟩)
  reference := fun name => ⟨r.reference name, b.reference name⟩
  deferred := fun name => ⟨r.deferred name, b.deferred name⟩

theorem map_expression_map (x : Except Fault ε) (ns : List α) :
    (x.map fun e => (⟨e, ns⟩ : Noted α ε)).map Noted.expression = x := by
  cases x <;> rfl

theorem notes_of_map {x : Except Fault ε} {n : Noted α ε}
    (h : (x.map fun e => (⟨e, ns⟩ : Noted α ε)) = .ok n) : n.notes = ns := by
  obtain ⟨_, _, rfl⟩ := map_eq_ok.mp h
  rfl

theorem Renderer.noting_hom (r : Renderer ε) : (r.noting b).Hom Noted.expression r where
  unknown _ := rfl
  primitive _ _ := (map_expression_map _ _).symm
  literal _ := (map_expression_map _ _).symm
  enumeration site vs := by
    simp only [noting]
    cases r.enumeration site vs <;> rfl
  array _ _ := (map_expression_map _ _).symm
  tuple _ := (map_expression_map _ _).symm
  union _ := (map_expression_map _ _).symm
  intersect _ _ := (map_expression_map _ _).symm
  nullable _ := (map_expression_map _ _).symm
  optional _ := (map_expression_map _ _).symm
  container _ _ := (map_expression_map _ _).symm
  select := by
    simp only [noting]
    cases r.select? with
    | none => rfl
    | some select => simp only [Option.map_some, map_expression_map]
  object _ _ _ := (map_expression_map _ _).symm
  reference _ := rfl
  deferred _ := rfl

namespace Mapping

/-- The mapping to expressions with notes. -/
def noted (m : Mapping ε) : Mapping (Noted α ε) := m.withRenderer (m.renderer.noting b)

variable {b} {m : Mapping ε}

theorem notes_intersectAll {es : List (Noted α ε)} {n : Noted α ε}
    (h : (m.noted b).intersectAll es = .ok n) : n.notes = es.flatMap Noted.notes := by
  have hfold (es : List (Noted α ε)) (e : Noted α ε)
      (h : es.foldlM (m.renderer.noting b).intersect e = .ok n) :
      n.notes = e.notes ++ es.flatMap Noted.notes := by
    induction es generalizing e with
    | nil => cases h; simp
    | cons e' es ih =>
      obtain ⟨joined, hjoined, h⟩ := bind_eq_ok.mp h
      rw [ih joined h, notes_of_map hjoined, append_assoc, flatMap_cons]
  cases es with
  | nil => cases h
  | cons e es => exact hfold es e h

section Collected

variable {S : List Event → List α → Prop} (hnil : S [] [])
  (happend : ∀ {l l' ns ns'}, S l ns → S l' ns' → S (l ++ l') (ns ++ ns')) {l : List Event}
include hnil

include happend in
/-- What is noted about mapped fields adds up. -/
theorem collected_notesAll (hfield : ∀ f, S [] (b.field f)) {ms : List (MappedField (Noted α ε))}
    (h : MappedField.Each (fun l e => S l e.notes) l ms) : S l (MappedField.notesAll b ms) := by
  induction h with
  | nil => exact hnil
  | @cons f _ _ _ _ _ _ expression _ _ ihargs ihrest =>
    rw [MappedField.notesAll, MappedField.notes, append_assoc, append_assoc]
    have hrest := happend (hfield f) (happend ihargs ihrest)
    exact happend expression hrest

theorem collected_additional {x : Option (Additional (Noted α ε))}
    (h : Additional.Holds (fun l e => S l e.notes) l x) : S l (Additional.notes x) := by
  rcases x with _ | _ | _ | e
  case some.typed => exact h
  all_goals
    cases h
    exact hnil

end Collected

end Mapping

end Crosswalk
