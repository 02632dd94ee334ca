import Crosswalk.Mapping.Type

/-!
Mapping whole declarations, one after the other or in an order in which each stands after those it
refers to.
-/

namespace Crosswalk.Mapping

variable {ε : Type}

mutual

/-- The key of the last field or argument that is visited. -/
def lastKey : Scalar → List Field → Scalar
  | key, [] => key
  | _, f :: fs => lastKey (lastKeyOf f) fs

def lastKeyOf : Field → Scalar
  | ⟨key, _, _, _, _, _, arguments⟩ => lastKey key arguments

end

/-- The fields of a declaration itself: mapping each starts by turning to it. -/
def ownFields (m : Mapping ε) (declaration : Scalar) (budget : Nat) (ancestors : List Scalar)
    (fields : List Field) : Traced (List (MappedField ε)) :=
  mapFields
    (fun f => do
      Logged.record (.enterField f.key)
      m.mapType { declaration, field := f.key } m.catalogue.names budget ancestors f.type)
    fields

/-- Map a declaration within a budget of levels. References to the names that are `pending` are
deferred. -/
def declaration (m : Mapping ε) (budget : Nat) (pending : List Scalar) (d : Declaration) :
    Traced (MappedDeclaration ε) := do
  Logged.record (.enterDeclaration d.name)
  let site : Site := { declaration := d.name }
  let known := m.catalogue.names
  let ancestors := d.name :: pending
  match d.body with
  | .enumeration body =>
    let values ← Logged.lift (m.grammar.enumValues body)
    checkRange site values
    return { declaration := d, expression := ← m.enumeration site values, enumValues := values }
  | .synonym body =>
    return { declaration := d, expression := ← m.mapType site known budget ancestors body }
  | .object fields =>
    let mapped ← m.ownFields d.name budget ancestors fields
    let site := { site with field := lastKey site.field fields }
    let additional ← mapAdditional (m.mapType site known budget ancestors) d.additional?
    let body ← Logged.lift (m.renderer.object mapped additional true)
    let bases ← d.bases.mapM (m.mapReference site known budget ancestors)
    let expression ← Logged.lift (m.intersectAll (bases ++ [body]))
    return { declaration := d, expression, fields := mapped, bases, body := some body }

/-- The names that a declaration refers to, in order of first use. -/
def referencesOf (m : Mapping ε) (budget : Nat) (d : Declaration) : Except Fault (List String) :=
  let traced := m.declaration budget [] d
  traced.result.map fun _ => (({} : Progress).afterAll traced.log).1.references

/-- All declarations in source order. -/
def inSourceOrder (m : Mapping ε) (budget : Nat) : Traced (List (MappedDeclaration ε)) :=
  m.catalogue.declarations.mapM (m.declaration budget [])

/-- The references of every declaration. -/
def references (m : Mapping ε) (budget : Nat) : Except Fault (List (Scalar × List Scalar)) :=
  m.catalogue.declarations.mapM fun d => do
    return (d.name, (← m.referencesOf budget d).map .text)

/-- What a name refers to, given the references of every declaration. -/
def targets (refs : List (Scalar × List Scalar)) (name : Scalar) : List Scalar :=
  ((refs.find? fun r => r.1 == name).map Prod.snd).getD []

/-- The order in which declarations are printed. -/
def plan (m : Mapping ε) (budget : Nat) : Except Fault (List Catalogue.Step) := do
  return m.catalogue.order (targets (← m.references budget))

/-- Map the declaration that is printed at a step. What is printed later is pending. -/
def atStep (m : Mapping ε) (budget : Nat) (step : Catalogue.Step) :
    Traced (List (MappedDeclaration ε)) :=
  match m.catalogue.find? step.name with
  | some d => do return [← m.declaration budget step.pending d]
  | none => pure []

/-- All declarations, each after those it refers to. -/
def inDependencyOrder (m : Mapping ε) (budget : Nat) : Traced (List (MappedDeclaration ε)) := do
  let steps ← Logged.lift (m.plan budget)
  let mapped ← steps.mapM (m.atStep budget)
  return mapped.flatten

end Crosswalk.Mapping
