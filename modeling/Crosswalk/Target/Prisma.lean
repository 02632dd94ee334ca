import Crosswalk.Target.Renderer

/-!
Prisma schemas: one model for each table, with enums before the models.
-/

namespace Crosswalk.Target.Prisma

open Identifier (camelCase pascalCase singular)

def primitive? : Primitive → Option String
  | .string => some "String"
  | .number => some "Float"
  | .integer => some "Int"
  | .bigint => some "BigInt"
  | .decimal => some "Decimal"
  | .boolean => some "Boolean"
  | .date | .datetime | .time => some "DateTime"
  | .json | .object => some "Json"
  | .bytes => some "Bytes"
  | _ => none

/-- The types that are built in. -/
def builtIn : List String :=
  ["String", "Float", "Int", "BigInt", "Decimal", "Boolean", "DateTime", "Json", "Bytes"]

def unsupported (type : String) : String := "Unsupported(" ++ Json.stringText type ++ ")"

/-- The name of the model for a table. -/
def modelName (table : String) : String := pascalCase (singular table)

/-- A table name that has to be text. -/
def modelNameOf (name : Scalar) : Except Fault String :=
  match name with
  | .text s => .ok (modelName s)
  | _ => .error .noSuchPart

/-- The name of an enum value that has a text. -/
def enumMember (v : Value) : String :=
  match v.display.toList.map fun c => if Text.isWord c then c else '_' with
  | [] => "_"
  | c :: cs => String.ofList (if Text.isDigit c then '_' :: c :: cs else c :: cs)

def memberLines (indent : Indent) (vs : List Value) : Except Fault String := do
  let lines ← vs.mapM fun v => do
    let pad ← indent.shown 1
    let _ ← v.printed
    return pad ++ enumMember v ++ "\n"
  return String.join lines

def pascalName (name : Scalar) : Except Fault String := name.asText.map pascalCase

def literalType : Value → String
  | .bool _ => "Boolean"
  | .int _ => "Int"
  | .float _ => "Float"
  | _ => "String"

/-- An enumeration in a column becomes an enum named after the model and the column; a named one is
printed with the declarations. -/
def enumeration (indent : Indent) (site : Site) (vs : List Value) :
    Except Fault (String × List Block) := do
  if site.field.isTruthy then
    let name := (← modelNameOf site.declaration) ++ (← pascalName site.field)
    let members ← memberLines indent vs
    return (name, [⟨name, "enum " ++ name ++ " \x7b\n" ++ members ++ "\x7d"⟩])
  else return (← pascalName site.declaration, [])

def renderer (indent : Indent) : Renderer String where
  unknown := fun hint => unsupported (if hint == "" then "unknown" else hint)
  primitive := fun p _ => .ok ((primitive? p).getD (unsupported p.name))
  literal := fun v => .ok (literalType v)
  enumeration := enumeration indent
  array := fun element _ => .ok (element ++ "[]")
  tuple := fun _ => .ok "Json"
  union := fun _ => .ok "Json"
  intersect := fun _ _ => .ok "Json"
  nullable := fun e => .ok e
  optional := fun e => .ok e
  container := fun _ _ => .ok "Json"
  object := fun _ _ _ => .ok "Json"
  reference := pascalCase
  deferred := pascalCase

/-! ### Documents -/

def isNumeric (type : String) : Bool := ["Int", "BigInt", "Float", "Decimal"].contains type

/-- The default of a column: a function that Prisma knows, a value that fits the type, or the
expression as the database has it. -/
def defaultAttribute? (m : MappedField String) : Option String :=
  if m.field.has "auto_increment" then some "@default(autoincrement())"
  else m.field.defaultText.map fun text =>
    let lowered := String.ofList (Text.lower text.toList)
    let value := m.field.default?.getD .null
    let fallback := "@default(dbgenerated(" ++ Json.stringText text ++ "))"
    if ["current_timestamp", "current_timestamp()", "now()", "localtimestamp"].contains lowered then
      "@default(now())"
    else if ["gen_random_uuid()", "uuid_generate_v4()", "uuid()"].contains lowered then
      "@default(uuid())"
    else if lowered == "cuid()" then "@default(cuid())"
    else if m.expression == "Boolean" && ["true", "false", "1", "0"].contains lowered then
      if lowered == "true" || lowered == "1" then "@default(true)" else "@default(false)"
    else if isNumeric m.expression && Literal.isNumberValue value then
      "@default(" ++ value.display ++ ")"
    else if m.expression == "String" && !value.isNull then
      "@default(" ++ Json.stringText value.display ++ ")"
    else if Literal.isTextValue value && !builtIn.contains m.expression then
      "@default(" ++ enumMember value ++ ")"
    else fallback

def fieldAttributes (singleKey : Bool) (key name : String) (m : MappedField String) : List String :=
  (if m.field.has "primary_key" && singleKey then ["@id"] else []) ++
  (defaultAttribute? m).toList ++
  (if m.field.has "unique" then ["@unique"] else []) ++
  (if name == key then [] else ["@map(" ++ Json.stringText key ++ ")"])

structure Row where
  name : String
  type : String
  attributes : List String

def row (singleKey : Bool) (m : MappedField String) : Except Fault Row := do
  let key ← m.field.key.asText
  let camel := camelCase key
  let name := if camel == "" then key else camel
  let type := if m.field.optional && !m.expression.endsWith "[]" then m.expression ++ "?"
    else m.expression
  return { name, type, attributes := fieldAttributes singleKey key name m }

def padTo (width : Nat) (s : String) : String :=
  s ++ String.ofList (List.replicate (width - s.length) ' ')

def greatest (ns : List Nat) : Nat := ns.foldl max 0

/-- The rows of a model in columns. -/
def rowLines (pad : String) (rows : List Row) : List String :=
  let names := greatest (rows.map fun r => r.name.length)
  let types := greatest (rows.map fun r => r.type.length)
  rows.map fun r =>
    let line := pad ++ padTo names r.name ++ " " ++ padTo types r.type ++ " " ++
      " ".intercalate r.attributes
    String.ofList (Text.trimEnd line.toList)

def columnList (columns : List String) : String :=
  "([" ++ ", ".intercalate (columns.map camelCase) ++ "])"

def lowered (s : String) : List Char := Text.lower s.toList

/-- The block of attributes of the model for a table. -/
def blockAttributes (d : Declaration) (name : String) : List String :=
  let keys := d.primaryKey
  let table := d.table?.getD d.name.display
  (if 1 < keys.length then ["@@id" ++ columnList keys] else []) ++
  d.uniqueTogether.map (fun columns => "@@unique" ++ columnList columns) ++
  (if lowered name == lowered table then [] else ["@@map(" ++ Json.stringText table ++ ")"])

/-- A model before it is laid out. -/
structure Model where
  name : String
  rows : List Row
  attributes : List String

def model (d : MappedDeclaration String) : Except Fault Model := do
  let rows ← d.fields.mapM (row (d.declaration.primaryKey.length == 1))
  let name ← modelNameOf d.name
  return { name, rows, attributes := blockAttributes d.declaration name }

def emitModel (indent : Indent) (d : MappedDeclaration String) : Except Fault String := do
  let pad ← indent.shown 1
  let m ← model d
  let block ← if m.attributes.isEmpty then pure []
    else do
      let pad ← indent.text
      pure ("" :: m.attributes.map (pad ++ ·))
  return "\n".intercalate (
    ["model " ++ m.name ++ " \x7b"] ++ rowLines pad m.rows ++ block ++ ["\x7d"])

def emitEnum (indent : Indent) (d : MappedDeclaration String) : Except Fault String := do
  let members ← memberLines indent d.enumValues
  let given ← d.name.asText
  let name := pascalCase given
  let mapping ← if name == given then pure ""
    else do pure ("\n" ++ (← indent.shown 1) ++ "@@map(" ++ Json.stringText given ++ ")\n")
  return "enum " ++ name ++ " \x7b\n" ++ members ++ mapping ++ "\x7d"

/-- Enums, the enums of columns, and models. -/
def emit (s : Setting) (ds : List (MappedDeclaration String)) : Except Fault String := do
  let enums ← (ds.filter fun d => d.declaration.isEnumeration).mapM (emitEnum s.indent)
  let models ← (ds.filter fun d => !d.declaration.isEnumeration).mapM (emitModel s.indent)
  return "\n\n".intercalate (enums ++ s.blocks.map Block.text ++ models) ++ "\n"

end Crosswalk.Target.Prisma
