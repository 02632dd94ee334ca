import Crosswalk.Target.Renderer

/-!
JSON Schema: types as schema nodes, and a document whose root is the first declaration and whose
definitions are the others.
-/

namespace Crosswalk.Target.JsonSchema

abbrev Node := List (Scalar × Value)

def node (es : List (String × Value)) : Value := Value.object es

def typed (name : String) : List (String × Value) := [("type", .text name)]

def primitive : Primitive → List (String × Value)
  | .string | .bytes => typed "string"
  | .number | .decimal => typed "number"
  | .integer | .bigint => typed "integer"
  | .boolean => typed "boolean"
  | .null | .undefined | .void => typed "null"
  | .any | .unknown | .symbol | .other _ => []
  | .never => [("not", node [])]
  | .object | .json => typed "object"
  | .date | .datetime => typed "string" ++ [("format", .text "date-time")]
  | .time => typed "string" ++ [("format", .text "time")]

def set (key : String) (v : Value) (es : Node) : Node := Value.insert (.text key) v es

/-- Add the keywords of constraints. -/
def constrain (es : List (String × Value)) (cs : List Constraint) : Value :=
  .map (cs.foldl
    (fun es c =>
      match c.limit.keyword? with
      | some keyword => set keyword c.value es
      | none => es)
    (es.map fun e => (.text e.1, e.2)))

/-- The type of a value. -/
def typeOf : Value → String
  | .bool _ => "boolean"
  | .int _ => "integer"
  | .float _ => "number"
  | .null => "null"
  | _ => "string"

def literal (v : Value) : Value :=
  match v with
  | .null => node (typed "null")
  | v => node (typed (typeOf v) ++ [("const", v)])

/-- The types of values, each once, in order of first use. -/
def typesOf (vs : List Value) : List String :=
  vs.foldl (fun ts v => if ts.contains (typeOf v) then ts else ts ++ [typeOf v]) []

def enumeration (vs : List Value) : Value :=
  let types := match typesOf vs with
    | ["integer", "number"] | ["number", "integer"] => ["number"]
    | ts => ts
  match types with
  | [t] => node (typed t ++ [("enum", .list vs)])
  | _ => node [("enum", .list vs)]

def tuple (es : List Value) : Value :=
  let size : Value := .int (Int.ofNat es.length)
  node (typed "array" ++ [("items", .list es), ("minItems", size), ("maxItems", size)])

/-- The schemas that one side of an intersection contributes: an intersection is flattened. -/
def conjuncts (v : Value) : Except Fault (List Value) :=
  match v with
  | .map [(.text "allOf", .list vs)] => .ok vs
  | .map [(.text "allOf", .map es)] => .ok (es.map fun e => .scalar e.1)
  | .map [(.text "allOf", .text s)] => .ok (s.toList.map fun c => .text (String.singleton c))
  | .map [(.text "allOf", _)] => .error .wrongKind
  | .list [.text "allOf"] => .error .wrongKind
  | .map _ | .list _ | .text _ => .ok [v]
  | _ => .error .wrongKind

def intersect (a b : Value) : Except Fault Value := do
  return node [("allOf", .list ((← conjuncts a) ++ (← conjuncts b)))]

def nullable (v : Value) : Except Fault Value :=
  match v with
  | .map es =>
    match Value.lookup "type" es with
    | .text t =>
      if Value.hasKey "enum" es || Value.hasKey "const" es then .ok (orNull v)
      else .ok (.map (set "type" (.list [.text t, .text "null"]) es))
    | _ => .ok (orNull v)
  | _ => .error .noSuchPart
where
  orNull (v : Value) : Value := node [("anyOf", .list [v, node (typed "null")])]

def container (kind : Container) (args : List Value) : Except Fault Value :=
  match kind, args with
  | .set, [] => .error .tooShort
  | .set, v :: _ => .ok (node (typed "array" ++ [("items", v), ("uniqueItems", .bool true)]))
  | .map, args | .record, args =>
    match args.getLast? with
    | some v => .ok (node (typed "object" ++ [("additionalProperties", v)]))
    | none => .error .tooShort
  | _, [] => .ok (node [])
  | _, v :: _ => .ok v

/-- What the description of a property says about a column. -/
def columnFlags (f : Field) : List String :=
  [("primary_key", "PRIMARY KEY"), ("unique", "UNIQUE"),
    ("auto_increment", "AUTO_INCREMENT")].filterMap fun (name, label) =>
      if f.has name then some label else none

def asNode (v : Value) : Except Fault Node :=
  match v with
  | .map es => .ok es
  | _ => .error .wrongKind

/-- The description of a property: its own or else that of its type, and the flags of a column. -/
def describe (f : Field) (es : Node) : Except Fault String := do
  let own := if f.description.isTruthy then f.description
    else (Value.lookup? "description" es).getD (.text "")
  let own ← match own with
    | .text s => pure s
    | v => if v.isTruthy then throw Fault.wrongKind else pure ""
  let flags := ", ".intercalate (columnFlags f)
  return " | ".intercalate ([own, flags].filter (· != ""))

def property (m : MappedField Value) : Except Fault Value := do
  let es ← asNode m.expression
  let es := match m.field.default?, m.field.defaultText with
    | some v, _ => set "default" v es
    | none, some s => set "default" (.text s) es
    | none, none => es
  let description ← describe m.field es
  return .map (if description == "" then es else set "description" (.text description) es)

def object (fields : List (MappedField Value)) (additional : Option (Additional Value)) :
    Except Fault Value := do
  let properties ← fields.mapM fun m => do return (m.field.key, ← property m)
  let required := (fields.filter fun m => !m.field.optional).map fun m => Value.scalar m.field.key
  let extra : List (String × Value) := match additional with
    | none => []
    | some .anything => [("additionalProperties", .bool true)]
    | some .nothing => [("additionalProperties", .bool false)]
    | some (.typed v) => [("additionalProperties", v)]
  return node (typed "object" ++ [("properties", .map (Value.ofEntries properties))] ++
    (if required.isEmpty then [] else [("required", .list required)]) ++ extra)

/-- A reference to the root of the document, or to a definition. -/
def reference (start : String) (root : Scalar) (name : String) : Value :=
  node [("$ref", .text (if root == .text name then "#" else start ++ name))]

/-- References start with `start`. -/
def renderer (start : String) (root : Scalar) : Renderer Value where
  unknown := fun _ => node []
  primitive := fun p cs => .ok (constrain (primitive p) cs)
  literal := fun v => .ok (literal v)
  enumeration := fun _ vs => .ok (enumeration vs, [])
  array := fun element cs => .ok (constrain (typed "array" ++ [("items", element)]) cs)
  tuple := fun es => .ok (tuple es)
  union := fun ms => .ok (node [("anyOf", .list ms)])
  intersect := intersect
  nullable := nullable
  optional := fun v => .ok v
  container := container
  object := fun fields additional _ => object fields additional
  reference := reference start root
  deferred := reference start root

/-! ### Documents -/

def definitionsStart : String := "#/$defs/"

/-- A document as indented text. -/
def dump (v : Value) : Except Fault String :=
  match Json.document? v with
  | some s => .ok s
  | none => .error (Json.refusal v)

/-- The node of a declaration with its description. -/
def declarationNode (d : MappedDeclaration Value) : Except Fault Node := do
  let es ← asNode d.expression
  match d.declaration.description? with
  | some v =>
    return if v.isTruthy && !Value.hasKey "description" es then set "description" v es else es
  | none => return es

def emit (ds : List (MappedDeclaration Value)) : Except Fault String := do
  match ds with
  | [] => return "\x7b\x7d"
  | root :: others =>
    let title := match root.declaration.table? with
      | some t => Scalar.text t
      | none => root.name
    let head : Node := [(.text "$schema", .text "http://json-schema.org/draft-07/schema#"),
      (.text "title", .scalar title)]
    let document := (← declarationNode root).foldl (fun es e => Value.insert e.1 e.2 es) head
    let definitions ← others.mapM fun d => do return (d.name, Value.map (← declarationNode d))
    dump (.map (if others.isEmpty then document
      else set "$defs" (.map (Value.ofEntries definitions)) document))

end Crosswalk.Target.JsonSchema
