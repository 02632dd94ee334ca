import Crosswalk.Target.JsonSchema
import Crosswalk.Target.Zod

/-!
Remote procedures: a tRPC router made from the fields of root operations, and an OpenAPI document
made from the procedures of a router.
-/

namespace Crosswalk.Target.Router

/-! ### tRPC routers -/

/-- The kind of procedure that the fields of a root operation are. -/
def operation? (name : Scalar) : Option String :=
  match name with
  | .text "Query" => some "query"
  | .text "Mutation" => some "mutation"
  | .text "Subscription" => some "subscription"
  | _ => none

def rawText (r : Raw) : Except Fault String :=
  match r with
  | .text cs => .ok (String.ofList (Text.trim cs))
  | .node v => v.printed.map fun s => String.ofList (Text.trim s.toList)

def inputLine (pad : String) (arguments : List (MappedField String)) : Except Fault String :=
  if arguments.isEmpty then .ok ""
  else (Zod.inlineObject arguments).map fun s => pad ++ ".input(" ++ s ++ ")\n"

/-- A procedure with the arguments of a field as its input. -/
def route (indent : Indent) (kind : String) (m : MappedField String) : Except Fault String := do
  let pad ← indent.shown 1
  let name ← (Value.scalar m.field.key).printed
  let pad2 ← indent.shown 2
  let input ← inputLine pad2 m.arguments
  let type ← rawText m.field.type
  let pad3 ← indent.shown 3
  return pad ++ name ++ ": publicProcedure\n" ++ input ++
    pad2 ++ "." ++ kind ++ "(async (\x7b input \x7d) => \x7b\n" ++
    pad3 ++ "// TODO: Return " ++ type ++ "\n" ++
    pad3 ++ "return null as any;\n" ++
    pad2 ++ "\x7d),"

/-- What a declaration contributes: lines with its schema, or routes. -/
def parts (indent : Indent) (d : MappedDeclaration String) :
    Except Fault (List String × List String) := do
  match operation? d.name with
  | none => return (← Zod.declarationLines d, [])
  | some kind => return ([], ← d.fields.mapM (route indent kind))

/-- The lines of a module, one of which holds all its routes. -/
def moduleLines (indent : Indent) (ds : List (MappedDeclaration String)) :
    Except Fault (List String) := do
  let found ← ds.mapM (parts indent)
  return ["import \x7b z \x7d from 'zod';",
      "import \x7b router, publicProcedure \x7d from './trpc';", ""] ++
    (found.map Prod.fst).flatten ++
    ["export const appRouter = router(\x7b", "\n\n".intercalate (found.map Prod.snd).flatten,
      "\x7d);", "", "export type AppRouter = typeof appRouter;"]

def emit (s : Setting) (ds : List (MappedDeclaration String)) : Except Fault String :=
  (moduleLines s.indent ds).map fun lines => "\n".intercalate lines ++ "\n"

/-! ### OpenAPI documents -/

def componentsStart : String := "#/components/schemas/"

/-- Put a blank before every capital. -/
def spreadCapitals (cs : List Char) : List Char :=
  cs.flatMap fun c => if 'A' ≤ c && c ≤ 'Z' then [' ', c] else [c]

/-- The name of a procedure as a title: `getUserById` becomes `Get User By Id`. -/
def titleOf (name : String) : String :=
  let words := Text.words (Text.replaceChar '_' ' ' (spreadCapitals name.toList))
  " ".intercalate (words.map fun w => String.ofList (Identifier.capitalize w))

def object (es : List (String × Value)) : Value := Value.object es

def described (s : String) : Value := object [("description", .text s)]

/-- The input of a query is a parameter, that of a mutation the body of the request. -/
def inputPart (mutation : Bool) (schema : Value) : List (String × Value) :=
  if mutation then
    [("requestBody", object [("required", .bool true),
      ("content", object [("application/json", object [("schema", schema)])])])]
  else
    [("parameters", .list [object [("name", .text "input"), ("in", .text "query"),
      ("required", .bool true), ("schema", schema), ("style", .text "deepObject"),
      ("explode", .bool true)]])]

def operation (mutation : Bool) (d : MappedDeclaration Value) : Except Fault Value := do
  let name ← d.name.asText
  return object (
    [("summary", .text (titleOf name)), ("operationId", .text name),
      ("tags", .list [.text (if mutation then "Mutations" else "Queries")])] ++
    (if d.declaration.hasInput then inputPart mutation d.expression else []) ++
    [("responses", object [("200", described "Successful response"),
      ("400", described "Invalid input")])])

/-- The path of a procedure. -/
def path (kind : String) (d : MappedDeclaration Value) : Except Fault (Scalar × Value) := do
  let mutation := kind == "mutation"
  let method := if mutation then "post" else "get"
  return (.text ("/trpc/" ++ d.name.display), object [(method, ← operation mutation d)])

/-- A document with these paths and component schemas. -/
def document (paths schemas : List (Scalar × Value)) : Value :=
  object (
    [("openapi", .text "3.1.0"),
      ("info", object [("title", .text "tRPC Converted API"), ("version", .text "1.0.0"),
        ("description", .text "Auto-generated from tRPC router definition.")]),
      ("servers", .list [object [("url", .text "http://localhost:3000"),
        ("description", .text "Local dev server")]]),
      ("tags", .list [
        object [("name", .text "Queries"), ("description", .text "Read operations (HTTP GET)")],
        object [("name", .text "Mutations"),
          ("description", .text "Write operations (HTTP POST)")]]),
      ("paths", .map (Value.ofEntries paths))] ++
    (if schemas.isEmpty then []
      else [("components", object [("schemas", .map (Value.ofEntries schemas))])]))

def emitOpenApi (ds : List (MappedDeclaration Value)) : Except Fault String := do
  let paths ← ds.filterMapM fun d =>
    match d.declaration.procedure? with
    | some kind => some <$> path kind d
    | none => pure none
  let schemas := (ds.filter fun d => d.declaration.procedure?.isNone).map fun d =>
    (d.name, d.expression)
  JsonSchema.dump (document paths schemas)

end Crosswalk.Target.Router
