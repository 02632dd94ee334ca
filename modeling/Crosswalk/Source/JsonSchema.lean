import Crosswalk.Json.Reader
import Crosswalk.Json.Writer
import Crosswalk.Scan.Collapse
import Crosswalk.Source.Document
import Crosswalk.Text.Segment

/-!
JSON Schema documents: the schema at the root, and the definitions under `$defs` and `definitions`.
The raw types are the schema nodes themselves.
-/

namespace Crosswalk.JsonSchema

open Value (hasKey isPlain lookup lookup?)

/-- Collections nested in this many others are read as empty schemas. -/
def nestingLimit : Nat := 128

/-- What a reader tells about collections that were not read. -/
def collapseWarning (collapsed : Nat) : List Diagnostic :=
  if collapsed = 0 then [] else [.depthExceeded (Nat.repr nestingLimit) (.text "")]

/-- Refuse a document; `kind` names what was expected. -/
def refuse {α : Type} (kind detail : String) : Logged Diagnostic α :=
  Logged.fail (.refused (.invalidDocument kind detail))

/-- The entries of a JSON document. -/
def load (kind : String) (source : List Char) : Logged Diagnostic (List (Scalar × Value)) := do
  let (source, collapsed) := collapseDeep ['{', '['] ['{', '}'] nestingLimit source
  let _ ← (⟨.ok (), collapseWarning collapsed⟩ : Logged Diagnostic Unit)
  match Json.read source with
  | .error (.malformed cause index) => refuse kind (Json.describe cause index source)
  | .error (.numberTooLong _) => Logged.fail .unreadableNumber
  | .ok (.map entries) => return entries
  | .ok _ => refuse kind "top level is not an object"

/-! ### Objects -/

/-- A schema that allows everything, nothing, or values of a type. An empty schema allows
everything, and null says nothing. -/
def additional? (v : Value) : Option (Additional Raw) :=
  match v with
  | .null => none
  | .bool true | .map [] => some .anything
  | .bool false => some .nothing
  | v => some (.typed (.node v))

/-- A property may say itself that it is required. -/
def requiresItself : Value → Bool
  | .map es =>
    match lookup "required" es with
    | .bool true => true
    | _ => false
  | _ => false

def property (required : List Value) (key : Scalar) (node : Value) : Except Fault Field := do
  let optional := !Value.isMember key required && !requiresItself node
  match node with
  | .map es =>
    let field : Field := { key, type := .node node, optional,
                           description := (lookup? "description" es).getD (.text "") }
    match lookup? "default" es with
    | none => return field
    | some v =>
      match Json.line? v true with
      | some s => return { field with defaultText := some s, attributes := [.default v] }
      | none => throw (Json.refusal v)
  | _ => return { key, type := .node node, optional }

variable (es : List (Scalar × Value))

/-- The keys that a schema requires. -/
def required : List Value :=
  match lookup "required" es with
  | .list vs => vs
  | _ => []

/-- The properties of a schema. -/
def properties : Except Fault (List Field) :=
  match lookup "properties" es with
  | .map ps => ps.mapM fun p => property (required es) p.1 p.2
  | _ => .ok []

def additionalOf : Option (Additional Raw) :=
  additional? (lookup "additionalProperties" es)

/-! ### Declarations -/

/-- Schemas that are put together from others, or may be null. -/
def isComposite : Bool :=
  ["$ref", "allOf", "anyOf", "oneOf"].any (hasKey · es) ||
    match lookup "nullable" es with
    | .bool true => true
    | _ => false

/-- The declaration of a named schema. -/
def declaration (name : Scalar) (node : Value) : Except Fault Declaration :=
  match node with
  | .map es => do
    let description := lookup "description" es
    let attributes := if description.isTruthy then [.description description] else []
    if hasKey "enum" es then
      return { name, body := .enumeration (.node node), attributes }
    else if hasKey "properties" es && !isComposite es then
      let fields ← properties es
      return { name, body := .object fields,
               attributes := attributes ++ ((additionalOf es).map .additional).toList }
    else return { name, body := .synonym (.node node), attributes }
  | .null => Declaration.make name .synonym [] none [] []
  | node => .ok { name, body := .synonym (.node node) }

/-- Keywords that concern the document and not the schema at its root. -/
def isDocumentKeyword (k : Scalar) : Bool :=
  match k with
  | .text s => ["$schema", "$id", "$defs", "definitions", "title"].contains s
  | _ => false

def definitions : Except Fault (List Declaration) :=
  match es with
  | [] => .ok []
  | es => es.mapM fun e => declaration e.1 e.2

def entriesUnder (key : String) (es : List (Scalar × Value)) : List (Scalar × Value) :=
  match lookup key es with
  | .map ds => ds
  | _ => []

/-- The root schema, named by the title of the document, and the definitions after it. -/
def extract (source : List Char) : Logged Diagnostic Document := do
  let es ← load "JSON document" source
  let root := es.filter fun e => !isDocumentKeyword e.1
  let title := lookup "title" es
  let name := if root.isEmpty then "" else if title.isTruthy then title.display else "Root"
  let first ← Logged.lift (if root.isEmpty then .ok []
    else (declaration (.text name) (.map root)).map fun d => [d])
  let defs ← Logged.lift (definitions (entriesUnder "$defs" es))
  let older ← Logged.lift (definitions (entriesUnder "definitions" es))
  return { declarations := first ++ defs ++ older, scope := { rootName := name } }

/-- The plain values that an `enum` lists. -/
def enumValues (body : Value) : Except Fault (List Value) :=
  match body with
  | .map es =>
    match lookup "enum" es with
    | .list vs => .ok (vs.filter isPlain)
    | .map ms => .ok ((ms.map fun m => Value.scalar m.1).filter isPlain)
    | .text s => .ok (s.toList.map fun c => .text (String.singleton c))
    | .scalar (.bytes data) => .ok (data.map fun b => .int (Int.ofNat b))
    | v => if v.isTruthy then .error .wrongKind else .ok []
  | _ => .error .noSuchPart

/-! ### Schemas -/

def limits : List Limit :=
  [.format, .minLength, .maxLength, .pattern, .minimum, .maximum, .exclusiveMinimum,
    .exclusiveMaximum, .multipleOf]

/-- The constraints that a schema sets, in the order of the limits. -/
def constraints (ls : List Limit) (es : List (Scalar × Value)) : List Constraint :=
  ls.filterMap fun l => do
    let v ← lookup? (← l.keyword?) es
    return ⟨l, v⟩

/-- What follows the last slash. -/
def lastSegment (cs : List Char) : List Char := (cs.reverse.takeWhile (· != '/')).reverse

/-- The name that a reference means. -/
def referenceName (root ref : String) : String :=
  if ref == "#" then root
  else
    let known := ["#/$defs/", "#/definitions/", "#/components/schemas/"].findSome? fun start =>
      Text.after? start.toList ref.toList
    String.ofList (known.getD (lastSegment ref.toList))

def isNullSchema : Value → Bool
  | .map [(.text "type", .text "null")] => true
  | _ => false

def without (key : String) (es : List (Scalar × Value)) : List (Scalar × Value) :=
  es.filter fun e => e.1 != .text key

def withType (v : Value) : Raw :=
  .node (.map (Value.insert (.text "type") v es))

def reference? (root : String) (es : List (Scalar × Value)) : Option Shape :=
  match lookup "$ref" es with
  | .text ref => some (.reference (referenceName root ref))
  | _ => none

def enumeration? : Option Shape :=
  match lookup "enum" es with
  | .list vs => some (.enumeration (vs.filter isPlain))
  | _ => none

def constant? : Option Shape :=
  ((lookup? "const" es).filter isPlain).map .literal

def nullable? : Option Shape :=
  match lookup "nullable" es with
  | .bool true => some (.nullable (.node (.map (without "nullable" es))))
  | _ => none

/-- A choice between schemas; a choice between one schema and null is nullable. -/
def choice (members : List Value) : Shape :=
  match members.filter fun m => !isNullSchema m with
  | [m] => if members.length == 2 then .nullable (.node m) else .union (members.map .node)
  | _ => .union (members.map .node)

def nonemptyList? (key : String) (es : List (Scalar × Value)) : Option (List Value) :=
  match lookup key es with
  | .list (v :: vs) => some (v :: vs)
  | _ => none

def composition? : Option Shape :=
  match nonemptyList? "allOf" es with
  | some members => some (.intersection (members.map .node))
  | none =>
    ((nonemptyList? "oneOf" es).orElse fun _ => nonemptyList? "anyOf" es).map choice

/-- A list of types: null among them makes the others nullable. -/
def typeList? : Option Shape :=
  match lookup "type" es with
  | .list types =>
    let others := types.filter fun t => !t.isText "null"
    match others with
    | [] => some (.primitive .null [])
    | t :: more =>
      if others.length < types.length then
        some (.nullable (withType es (if more.isEmpty then t else .list others)))
      else some (.union (others.map (withType es)))
  | _ => none

def array? : Option Shape :=
  let items := lookup? "items" es
  let first := lookup? "prefixItems" es
  if !(lookup "type" es).isText "array" && items.isNone && first.isNone then none
  else match first.orElse fun _ => items with
    | some (.list vs) => some (.tuple (vs.map .node))
    | _ => some (.array (.node (items.getD (.bool true))) (constraints [.minItems, .maxItems] es))

def object? : Except Fault (Option Shape) := do
  if !(lookup "type" es).isText "object" && !hasKey "properties" es then return none
  else
    let fields ← properties es
    let additional := additionalOf es
    if fields.isEmpty then
      match additional with
      | some (.typed (.node (.map v))) =>
        return some (.container .record
          [.node (.object [("type", .text "string")]), .node (.map v)] [])
      | none => return some (.primitive .object [])
      | _ => return some (.object [] additional)
    else return some (.object fields additional)

/-- The primitive that a type names. -/
def primitive? (s : String) : Option Primitive :=
  match s with
  | "string" => some .string
  | "number" => some .number
  | "integer" => some .integer
  | "boolean" => some .boolean
  | "null" => some .null
  | _ => none

def primitiveShape : Except Fault Shape :=
  match lookup? "type" es with
  | none => .ok (.primitive .any [])
  | some (.text s) =>
    match primitive? s with
    | some p => .ok (.primitive p (constraints limits es))
    | none => .ok (.unknown "")
  | some (.scalar _) => .ok (.unknown "")
  | some _ => .error .wrongKind

/-- The shape of a schema node; `root` is the name of the document's root. -/
def classify (root : String) (node : Value) : Except Fault Shape :=
  match node with
  | .bool b => .ok (.primitive (if b then .any else .never) [])
  | .map es => do
    match (reference? root es).orElse fun _ => (enumeration? es).orElse fun _ =>
        (constant? es).orElse fun _ => (nullable? es).orElse fun _ =>
        (composition? es).orElse fun _ => (typeList? es).orElse fun _ => array? es with
    | some s => return s
    | none =>
      match ← object? es with
      | some s => return s
      | none => primitiveShape es
  | .text s => .ok (.unknown s)
  | _ => .ok (.unknown "")

end Crosswalk.JsonSchema
