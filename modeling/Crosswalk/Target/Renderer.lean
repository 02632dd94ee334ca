import Crosswalk.Schema.Declaration
import Crosswalk.Target.Literal

/-!
How a target writes types. A renderer gives, for every shape, the expression of the target whose
parts have been rendered before; an emitter puts the mapped declarations of a document together.
-/

namespace Crosswalk

/-- A field with its type in the target. -/
structure MappedField (ε : Type) where
  field : Field
  expression : ε
  arguments : List (MappedField ε)

/-- A declaration with everything that is needed to print it. -/
structure MappedDeclaration (ε : Type) where
  declaration : Declaration
  /-- The whole declaration as one expression. -/
  expression : ε
  fields : List (MappedField ε) := []
  bases : List ε := []
  enumValues : List Value := []
  /-- The object without its bases. -/
  body : Option ε := none

namespace MappedDeclaration

def name {ε : Type} (d : MappedDeclaration ε) : Scalar := d.declaration.name

end MappedDeclaration

/-- Where in the document a type stands. -/
structure Site where
  declaration : Scalar := .text ""
  field : Scalar := .text ""
deriving Repr, DecidableEq

/-- A named block that a type asks to be printed apart. -/
structure Block where
  name : String
  text : String
deriving Repr, DecidableEq

/-- The expressions of a target, one operation for each shape. -/
structure Renderer (ε : Type) where
  unknown : String → ε
  primitive : Primitive → List Constraint → Except Fault ε
  literal : Value → Except Fault ε
  enumeration : Site → List Value → Except Fault (ε × List Block)
  array : ε → List Constraint → Except Fault ε
  tuple : List ε → Except Fault ε
  union : List ε → Except Fault ε
  intersect : ε → ε → Except Fault ε
  nullable : ε → Except Fault ε
  optional : ε → Except Fault ε
  container : Container → List ε → Except Fault ε
  /-- Selections from a named object, where the target can write them. -/
  select? : Option (Container → String → List String → Except Fault ε) := none
  /-- The flag says that the object is a whole declaration. -/
  object : List (MappedField ε) → Option (Additional ε) → Bool → Except Fault ε
  reference : String → ε
  /-- A reference to what is not defined yet. -/
  deferred : String → ε

/-- What an emitter knows about the document besides its declarations. -/
structure Setting where
  indent : Indent
  info : List (String × Value)
  blocks : List Block

/-- A fact about the document, or null. -/
def Setting.fact (s : Setting) (key : String) : Value :=
  ((s.info.find? fun e => e.1 == key).map Prod.snd).getD .null

end Crosswalk
