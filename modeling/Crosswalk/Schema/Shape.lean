import Crosswalk.Schema.Primitive

/-!
Type expressions, one level at a time. A raw expression is source text or a node of a structured
document; its shape says what stands at its top, with the parts still raw.
-/

namespace Crosswalk

inductive Raw where
  | text (cs : List Char)
  | node (v : Value)
deriving Repr

/-- What an object allows besides its fields. -/
inductive Additional (α : Type) where
  | anything
  | nothing
  | typed (type : α)
deriving Repr

/-- What is known about a field besides its type. -/
inductive FieldAttribute where
  | default (v : Value)
  | primaryKey
  | unique
  | autoIncrement
  | generated
  | relation
deriving Repr

namespace FieldAttribute

def name : FieldAttribute → String
  | .default _ => "default"
  | .primaryKey => "primary_key"
  | .unique => "unique"
  | .autoIncrement => "auto_increment"
  | .generated => "generated"
  | .relation => "relation"

def value : FieldAttribute → Value
  | .default v => v
  | _ => .bool true

end FieldAttribute

/-- A named member of an object. -/
structure Field where
  key : Scalar
  type : Raw
  optional : Bool := false
  description : Value := .text ""
  /-- The default as it is written in the source. -/
  defaultText : Option String := none
  attributes : List FieldAttribute := []
  /-- What the field takes to compute its value. -/
  arguments : List Field := []
deriving Repr

namespace Field

/-- Induction on fields and their arguments. -/
theorem induction {motive : List Field → Prop} (nil : motive [])
    (cons : ∀ f fs, motive f.arguments → motive fs → motive (f :: fs)) : ∀ fs, motive fs
  | [] => nil
  | ⟨_, _, _, _, _, _, arguments⟩ :: fs =>
    cons _ fs (induction nil cons arguments) (induction nil cons fs)

def has (f : Field) (name : String) : Bool := f.attributes.any fun a => a.name == name

/-- The value of the default, where it could be read. -/
def default? (f : Field) : Option Value :=
  f.attributes.findSome? fun a =>
    match a with
    | .default v => some v
    | _ => none

/-- Set an attribute: one that is present keeps its place. -/
def putAttribute (a : FieldAttribute) : List FieldAttribute → List FieldAttribute
  | [] => [a]
  | b :: bs => if b.name == a.name then a :: bs else b :: putAttribute a bs

end Field

/-- Named generic types. -/
inductive Container where
  | set | map | record | promise | readonly
  | pick | without | partially | required
  | other (name : String)
deriving Repr, DecidableEq

namespace Container

def name : Container → String
  | set => "set"
  | map => "map"
  | record => "record"
  | promise => "promise"
  | readonly => "readonly"
  | pick => "pick"
  | without => "omit"
  | partially => "partial"
  | required => "required"
  | other s => s

def vocabulary : List Container :=
  [set, map, record, promise, readonly, pick, without, partially, required]

def ofName (s : String) : Container := (vocabulary.find? fun c => c.name == s).getD (other s)

/-- Containers that derive an object from the fields of another. -/
def isSelection : Container → Bool
  | pick | without | partially | required => true
  | _ => false

end Container

inductive Shape where
  | primitive (type : Primitive) (constraints : List Constraint)
  | literal (value : Value)
  | enumeration (values : List Value)
  | array (element : Raw) (constraints : List Constraint)
  | tuple (elements : List Raw)
  | union (members : List Raw)
  | intersection (members : List Raw)
  | nullable (inner : Raw)
  | optional (inner : Raw)
  /-- `keys` are the fields that a selection names. -/
  | container (kind : Container) (args : List Raw) (keys : List String)
  | object (fields : List Field) (additional : Option (Additional Raw))
  | reference (name : String)
  | unknown (text : String)
deriving Repr

/-- Keep, drop, or change the fields of an object. -/
def selectFields (kind : Container) (keys : List String) (fields : List Field) : List Field :=
  let named (f : Field) : Bool := f.key.text?.any keys.contains
  match kind with
  | .pick => fields.filter named
  | .without => fields.filter fun f => !named f
  | .partially => fields.map fun f => { f with optional := true }
  | _ => fields.map fun f => { f with optional := false }

end Crosswalk
