import Crosswalk.Source.JsonSchema
import Crosswalk.Yaml.Document

/-!
OpenAPI documents in JSON or YAML: the schemas under `components`, or the `definitions` of older
documents.
-/

namespace Crosswalk.OpenApi

def documentKind : String := "OpenAPI document"

/-- The entries of a YAML document, as read by the stand-in for a library. -/
def loadYaml (source : List Char) : Logged Diagnostic (List (Scalar × Value)) := do
  match Yaml.read JsonSchema.nestingLimit source with
  | .error (.problem p) => JsonSchema.refuse documentKind p.message
  | .error (.fault f) => Logged.fail f
  | .ok (v, collapsed) =>
    let _ ← (⟨.ok (), JsonSchema.collapseWarning collapsed⟩ : Logged Diagnostic Unit)
    match v with
    | .map es => return es
    | _ => JsonSchema.refuse documentKind "top level is not a mapping"

/-- The entries of a document, which is JSON if it starts with a brace. -/
def load (source : List Char) : Logged Diagnostic (List (Scalar × Value)) :=
  if (Text.trimStart source).head? == some '{' then JsonSchema.load documentKind source
  else loadYaml source

/-- Where the schemas of a document are. -/
def schemas? (es : List (Scalar × Value)) : Option (List (Scalar × Value)) :=
  let current := match Value.lookup "components" es with
    | .map cs =>
      match Value.lookup "schemas" cs with
      | .map ss => some ss
      | _ => none
    | _ => none
  current.orElse fun _ =>
    match Value.lookup "definitions" es with
    | .map ds => some ds
    | _ => none

/-- Facts about the document: the version it is written in, its title and its own version. -/
def info (es : List (Scalar × Value)) : Except Fault (List (String × Value)) := do
  let version := [Value.lookup "openapi" es, Value.lookup "swagger" es].find? Value.isTruthy
  let about := JsonSchema.entriesUnder "info" es
  return [("source", .text ("OpenAPI " ++ (← (version.getD (.text "3.x")).printed))),
    ("title", (Value.lookup? "title" about).getD (.text "")),
    ("version", (Value.lookup? "version" about).getD (.text ""))]

def extract (source : List Char) : Logged Diagnostic Document := do
  let es ← load source
  let info ← Logged.lift (info es)
  let declarations ← Logged.lift (JsonSchema.definitions ((schemas? es).getD []))
  return { declarations, info }

end Crosswalk.OpenApi
