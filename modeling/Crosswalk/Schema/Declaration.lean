import Crosswalk.Fault
import Crosswalk.Schema.Shape

/-!
Named definitions of a document. An object has fields; an alias and an enumeration have a body that
is classified when it is mapped.
-/

namespace Crosswalk

inductive DeclarationAttribute where
  | description (v : Value)
  | additional (a : Additional Raw)
  | table (name : String)
  | primaryKey (columns : List String)
  | uniqueTogether (groups : List (List String))
  | model
  | procedure (kind : String)
  | hasInput (b : Bool)
deriving Repr

inductive Body where
  | object (fields : List Field)
  | synonym (body : Raw)
  | enumeration (body : Raw)
deriving Repr

structure Declaration where
  name : Scalar
  body : Body
  bases : List String := []
  attributes : List DeclarationAttribute := []
deriving Repr

namespace Declaration

def fields (d : Declaration) : List Field :=
  match d.body with
  | .object fs => fs
  | _ => []

def isObject (d : Declaration) : Bool :=
  match d.body with
  | .object _ => true
  | _ => false

def isEnumeration (d : Declaration) : Bool :=
  match d.body with
  | .enumeration _ => true
  | _ => false

def description? (d : Declaration) : Option Value :=
  d.attributes.findSome? fun a =>
    match a with
    | .description v => some v
    | _ => none

def additional? (d : Declaration) : Option (Additional Raw) :=
  d.attributes.findSome? fun a =>
    match a with
    | .additional x => some x
    | _ => none

def table? (d : Declaration) : Option String :=
  d.attributes.findSome? fun a =>
    match a with
    | .table t => some t
    | _ => none

def primaryKey (d : Declaration) : List String :=
  (d.attributes.findSome? fun a =>
    match a with
    | .primaryKey cs => some cs
    | _ => none).getD []

def uniqueTogether (d : Declaration) : List (List String) :=
  (d.attributes.findSome? fun a =>
    match a with
    | .uniqueTogether gs => some gs
    | _ => none).getD []

def isModel (d : Declaration) : Bool :=
  d.attributes.any fun a =>
    match a with
    | .model => true
    | _ => false

def procedure? (d : Declaration) : Option String :=
  d.attributes.findSome? fun a =>
    match a with
    | .procedure k => some k
    | _ => none

def hasInput (d : Declaration) : Bool :=
  d.attributes.any fun a =>
    match a with
    | .hasInput b => b
    | _ => false

/-- The kinds of declarations. -/
inductive Kind where
  | object | synonym | enumeration
deriving Repr, DecidableEq

def Kind.name : Kind → String
  | .object => "OBJECT_LIKE"
  | .synonym => "ALIAS_EXPRESSION"
  | .enumeration => "ENUM_LIKE"

def Kind.all : List Kind := [.object, .synonym, .enumeration]

def kind (d : Declaration) : Kind :=
  match d.body with
  | .object _ => .object
  | .synonym _ => .synonym
  | .enumeration _ => .enumeration

def aliasBody? (d : Declaration) : Option Raw :=
  match d.body with
  | .object _ => none
  | .synonym r | .enumeration r => some r

/-- Put a declaration together from parts that may not fit: an object has no alias body, and every
other declaration has one and no fields. -/
def make (name : Scalar) (kind : Kind) (fields : List Field) (aliasBody : Option Raw)
    (bases : List String) (attributes : List DeclarationAttribute) : Except Fault Declaration :=
  let title := name.display
  let kindName := kind.name
  match kind, aliasBody with
  | .object, none => .ok { name, body := .object fields, bases, attributes }
  | .object, some _ =>
    .error (.invalid s!"Object-like declaration {title} cannot carry an alias body")
  | _, body =>
    if !fields.isEmpty then
      .error (.invalid s!"Declaration {title} of kind {kindName} cannot have fields")
    else match body with
      | none => .error (.invalid s!"Declaration {title} of kind {kindName} needs an alias body")
      | some r =>
        .ok { name, bases, attributes,
              body := if kind == .synonym then .synonym r else .enumeration r }

end Declaration

end Crosswalk
