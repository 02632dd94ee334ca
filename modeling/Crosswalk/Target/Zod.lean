import Crosswalk.Target.Renderer

/-!
Zod schemas: types as chains of calls, and one exported constant with its inferred type for each
declaration.
-/

namespace Crosswalk.Target.Zod

def unknown : String := "z.unknown()"

/-- The factory call for a primitive. Databases hand back dates for points in time, which
`coerced` asks for. -/
def primitive (coerced : Bool) : Primitive → String
  | .string | .time | .bytes => "z.string()"
  | .number | .decimal => "z.number()"
  | .integer => "z.number().int()"
  | .bigint => "z.bigint()"
  | .boolean => "z.boolean()"
  | .null => "z.null()"
  | .undefined => "z.undefined()"
  | .void => "z.void()"
  | .any => "z.any()"
  | .unknown => unknown
  | .never => "z.never()"
  | .object => "z.object(\x7b\x7d).passthrough()"
  | .symbol => "z.symbol()"
  | .date => "z.date()"
  | .datetime => if coerced then "z.coerce.date()" else "z.string().datetime()"
  | .json => "z.record(z.unknown())"
  | .other _ => unknown

/-- The call that checks a format of text. -/
def formatCall? (v : Value) : Except Fault (Option String) :=
  match v with
  | .text s =>
    .ok (match s with
      | "email" => some ".email()"
      | "uuid" => some ".uuid()"
      | "date-time" => some ".datetime()"
      | "uri" | "url" => some ".url()"
      | "ipv4" | "ipv6" => some ".ip()"
      | _ => none)
  | .scalar _ => .ok none
  | _ => .error .wrongKind

/-- The call that sets a bound. -/
def boundCall? : Limit → Option String
  | .minLength | .minimum | .minItems => some "min"
  | .maxLength | .maximum | .maxItems => some "max"
  | .exclusiveMinimum => some "gt"
  | .exclusiveMaximum => some "lt"
  | .multipleOf => some "multipleOf"
  | _ => none

/-- Add the calls for one constraint. -/
def constrain (expr : String) (c : Constraint) : Except Fault String := do
  match c.limit with
  | .format =>
    match ← formatCall? c.value with
    | some call =>
      if expr.startsWith "z.string()" && !Text.endsWith call.toList expr.toList then
        return expr ++ call
      else return expr
    | none => return expr
  | .pattern => return expr ++ ".regex(" ++ (← Literal.regex c.value) ++ ")"
  | .description => return expr ++ ".describe(" ++ (← Literal.json c.value) ++ ")"
  | limit =>
    match boundCall? limit with
    | some call => return expr ++ "." ++ call ++ "(" ++ (← Literal.number c.value) ++ ")"
    | none => return expr

def constrainAll (expr : String) (cs : List Constraint) : Except Fault String :=
  cs.foldlM constrain expr

def schemaName (name : String) : String := Identifier.sanitize name ++ "Schema"

def literal (v : Value) : Except Fault String :=
  match v with
  | .null => .ok "z.null()"
  | v => return "z.literal(" ++ (← Literal.exactScript v) ++ ")"

def call (f : String) (args : List String) : String := f ++ "(" ++ ", ".intercalate args ++ ")"

def listCall (f : String) (args : List String) : String :=
  f ++ "([" ++ ", ".intercalate args ++ "])"

def enumeration (vs : List Value) : Except Fault String := do
  match vs with
  | [] => return "z.never()"
  | vs =>
    if vs.all Literal.isTextValue then return listCall "z.enum" (← vs.mapM Literal.json)
    else match vs with
      | [v] => literal v
      | vs => return listCall "z.union" (← vs.mapM literal)

def isOptional (expr : String) : Bool := Text.endsWith ".optional()".toList expr.toList

def optional (expr : String) : String := if isOptional expr then expr else expr ++ ".optional()"

/-- The type of a field with its optionality, default and description. -/
def fieldExpression (m : MappedField String) : Except Fault String := do
  let expr := if m.field.optional then optional m.expression else m.expression
  let expr ← match m.field.default? with
    | some v => do pure (expr ++ ".default(" ++ (← Literal.exactScript v) ++ ")")
    | none => pure expr
  if m.field.description.isTruthy then
    return expr ++ ".describe(" ++ (← Literal.json m.field.description) ++ ")"
  else return expr

def entry (m : MappedField String) : Except Fault String := do
  return (← Literal.key m.field.key) ++ ": " ++ (← fieldExpression m)

/-- An object on one line. -/
def inlineObject (fields : List (MappedField String)) : Except Fault String := do
  match ← fields.mapM entry with
  | [] => return "z.object(\x7b\x7d)"
  | entries => return "z.object(\x7b " ++ ", ".intercalate entries ++ " \x7d)"

/-- An object with one line for each field. -/
def tallObject (indent : Indent) (fields : List (MappedField String)) : Except Fault String := do
  let pad ← indent.shown 1
  let entries ← fields.mapM entry
  return "z.object(\x7b\n" ++ String.join (entries.map fun e => pad ++ e ++ ",\n") ++ "\x7d)"

def object (indent : Indent) (fields : List (MappedField String))
    (additional : Option (Additional String)) (top : Bool) : Except Fault String := do
  let body ← if top && !fields.isEmpty then tallObject indent fields else inlineObject fields
  match additional with
  | none => return body
  | some .anything => return body ++ ".passthrough()"
  | some .nothing => return body ++ ".strict()"
  | some (.typed t) => return body ++ ".catchall(" ++ t ++ ")"

def container (kind : Container) (args : List String) : Except Fault String :=
  match kind, args with
  | .record, args =>
    match args.getLast? with
    | some v => .ok (call "z.record" [v])
    | none => .error .tooShort
  | .map, [] => .error .tooShort
  | .map, [v] => .ok (call "z.map" ["z.string()", v])
  | .map, k :: v :: _ => .ok (call "z.map" [k, v])
  | .set, [] | .promise, [] => .error .tooShort
  | .set, v :: _ => .ok (call "z.set" [v])
  | .promise, v :: _ => .ok (call "z.promise" [v])
  | _, [] => .ok unknown
  | _, v :: _ => .ok v

/-- The keys of a mask, all set to true. -/
def mask (keys : List Scalar) : Except Fault String := do
  let entries ← keys.mapM fun k => do return (← Literal.key k) ++ ": true"
  return "(\x7b " ++ ", ".intercalate entries ++ " \x7d)"

def select (kind : Container) (base : String) (keys : List String) : Except Fault String :=
  let call := schemaName base ++ "." ++ kind.name
  match kind with
  | .pick | .without => return call ++ (← mask (keys.map .text))
  | _ => .ok (call ++ "()")

def renderer (coerced : Bool) (indent : Indent) : Renderer String where
  unknown := fun _ => unknown
  primitive := fun p cs => constrainAll (primitive coerced p) cs
  literal := literal
  enumeration := fun _ vs => return (← enumeration vs, [])
  array := fun element cs => constrainAll (call "z.array" [element]) cs
  tuple := fun es => .ok (listCall "z.tuple" es)
  union := fun ms => .ok (listCall "z.union" ms)
  intersect := fun a b => .ok (a ++ ".and(" ++ b ++ ")")
  nullable := fun e => .ok (e ++ ".nullable()")
  optional := fun e => .ok (optional e)
  container := container
  select? := some select
  object := object indent
  reference := schemaName
  deferred := fun name => "z.lazy(() => " ++ schemaName name ++ ")"

/-! ### Documents -/

/-- Comments that say where the schemas come from. -/
def header (s : Setting) : List String :=
  let source := s.fact "source"
  let title := s.fact "title"
  let version := s.fact "version"
  let comments :=
    (if source.isTruthy then ["// Generated from " ++ source.display] else []) ++
    (if title.isTruthy then
      ["// " ++ title.display ++ (if version.isTruthy then " v" ++ version.display else "")]
    else [])
  if comments.isEmpty then [] else comments ++ [""]

/-- The facts that the comments show. -/
def shownFacts (s : Setting) : List Value :=
  let title := s.fact "title"
  ([s.fact "source", title] ++ (if title.isTruthy then [s.fact "version"] else [])).filter
    Value.isTruthy

def schemaLines (name expression : String) : List String :=
  ["export const " ++ name ++ "Schema = " ++ expression ++ ";",
    "export type " ++ name ++ " = z.infer<typeof " ++ name ++ "Schema>;"]

/-- A comment on one line. -/
def comment (v : Value) : Except Fault (List String) :=
  v.printed.map fun s => ["/** " ++ s ++ " */"]

def commentLines (d : Declaration) : Except Fault (List String) :=
  match d.description? with
  | some v => if v.isTruthy then comment v else .ok []
  | none => .ok []

def declarationLines (d : MappedDeclaration String) : Except Fault (List String) := do
  let name ← Identifier.sanitizeName d.name
  return (← commentLines d.declaration) ++ schemaLines name d.expression ++ [""]

/-- For a database model also the schema of what is needed to create a record: the fields that the
database fills in are left out. -/
def modelLines (d : MappedDeclaration String) : Except Fault (List String) := do
  let lines ← declarationLines d
  if d.declaration.isModel then
    let name ← Identifier.sanitizeName d.name
    let generated := (d.declaration.fields.filter fun f => f.has "generated").map Field.key
    let selection ← if generated.isEmpty then pure "" else (mask generated).map (".omit" ++ ·)
    let expression := name ++ "Schema" ++ selection
    return lines ++ ["// Input schema"] ++ schemaLines (name ++ "CreateInput") expression ++ [""]
  else return lines

def dropEndLines (s : String) : String := String.ofList (Text.stripEnd ['\n'] s.toList)

/-- What stands on the lines of a module; comments and expressions may take several lines. -/
def statements (lines : MappedDeclaration String → Except Fault (List String)) (s : Setting)
    (ds : List (MappedDeclaration String)) : Except Fault (List String) := do
  let _ ← (shownFacts s).mapM Value.printed
  let body ← ds.mapM lines
  return ["import \x7b z \x7d from \"zod\";", ""] ++ header s ++ body.flatten

def emit (lines : MappedDeclaration String → Except Fault (List String)) (s : Setting)
    (ds : List (MappedDeclaration String)) : Except Fault String :=
  (statements lines s ds).map fun all => dropEndLines ("\n".intercalate all) ++ "\n"

end Crosswalk.Target.Zod
