import Crosswalk.Target.Renderer

/-!
Prompts for language models: the fields of one object with their types in words, an example, and the
rules for the answer.
-/

namespace Crosswalk.Target

/-- A type in words. -/
structure PromptType where
  label : String
  rules : List String := []
  /-- Null asks for a placeholder made from the key. -/
  sample : Value := .null
  optional : Bool := false
deriving Repr

namespace Prompt

def label : Primitive → String
  | .integer | .decimal | .bigint => "number"
  | .datetime | .time | .bytes => "string"
  | .void => "null"
  | .json => "record (key-value map)"
  | .object => "nested object"
  | p => p.name

def sampleOf (label : String) : Value :=
  match label with
  | "number" => .int 0
  | "boolean" => .bool false
  | "date" => .text "2026-01-01T00:00:00Z"
  | _ => .null

def dateTimeRule : String := "ISO 8601 datetime"

def formatRule (v : Value) : Except Fault String :=
  match v with
  | .text "email" => .ok "must be a valid email"
  | .text "uri" => .ok "must be a valid URL"
  | .text "uuid" => .ok "must be a valid UUID"
  | .text "cuid" => .ok "must be a valid CUID"
  | .text "date-time" => .ok dateTimeRule
  | .text "ipv4" => .ok "must be a valid IP address"
  | v => do
    let text ← v.printed
    match v with
    | .scalar _ => return "format: " ++ text
    | _ => throw .wrongKind

def boundWord? : Limit → Option String
  | .minLength | .minimum | .minItems => some "min"
  | .maxLength | .maximum | .maxItems => some "max"
  | .exclusiveMinimum => some "greater than"
  | .exclusiveMaximum => some "less than"
  | .multipleOf => some "multiple of"
  | _ => none

def isZero : Value → Bool
  | .scalar s => s.same (.int 0)
  | _ => false

/-- A constraint in words. -/
def rule? (c : Constraint) : Except Fault (Option String) :=
  match c.limit with
  | .format => (formatRule c.value).map some
  | .pattern => c.value.printed.map fun s => some ("pattern: /" ++ s ++ "/")
  | limit =>
    if limit == .exclusiveMinimum && isZero c.value then .ok (some "must be positive")
    else match boundWord? limit with
      | some w => (Literal.number c.value).map fun n => some (w ++ ": " ++ n)
      | none => .ok none

def rules (cs : List Constraint) : Except Fault (List String) := do
  return ((← cs.mapM rule?).filterMap id).filter (· != "")

def primitive (p : Primitive) (cs : List Constraint) : Except Fault PromptType := do
  let given ← rules cs
  let given := if p == .integer then given ++ ["must be an integer"] else given
  let given := if p == .datetime && !given.contains dateTimeRule then given ++ [dateTimeRule]
    else given
  return { label := label p, rules := given, sample := sampleOf (label p) }

def enumeration (vs : List Value) : Except Fault PromptType := do
  return { label := "enum [" ++ ", ".intercalate (← vs.mapM Value.printed) ++ "]"
           sample := vs.head?.getD .null }

def union (ms : List PromptType) : Except Fault PromptType :=
  match ms with
  | [] => .error .tooShort
  | m :: _ => .ok
      { label := "union of " ++ " | ".intercalate (ms.map PromptType.label), sample := m.sample }

/-- Two objects are joined; otherwise the first type gets the rules of the second. -/
def intersect (a b : PromptType) : PromptType :=
  match a.sample, b.sample with
  | .map es, .map fs =>
    { label := "nested object"
      sample := .map (fs.foldl (fun acc e => Value.insert e.1 e.2 acc) es) }
  | _, _ => { a with rules := a.rules ++ b.rules }

def container (kind : Container) (args : List PromptType) : Except Fault PromptType :=
  match kind, args with
  | .record, _ => .ok { label := "record (key-value map)" }
  | .map, _ => .ok { label := "map", sample := .map [] }
  | .set, [] => .error .tooShort
  | .set, v :: _ => .ok
      { label := "set of " ++ v.label, rules := ["unique items"], sample := .list [] }
  | _, [] => .ok { label := "any" }
  | _, v :: _ => .ok v

/-- The example of a field. -/
def sampleFor (m : MappedField PromptType) : Except Fault Value :=
  if m.expression.sample.isNull then
    (Value.scalar m.field.key).printed.map fun s => .text ("<" ++ s ++ ">")
  else .ok m.expression.sample

def sampleObject (fields : List (MappedField PromptType)) : Except Fault Value := do
  let entries ← fields.mapM fun m => do return (m.field.key, ← sampleFor m)
  return .map (Value.ofEntries entries)

def renderer : Renderer PromptType where
  unknown := fun _ => { label := "any" }
  primitive := primitive
  literal := fun v => return { label := "literal " ++ (← Literal.script v), sample := v }
  enumeration := fun _ vs => return (← enumeration vs, [])
  array := fun element cs =>
    return { label := "array of " ++ element.label, rules := ← rules cs, sample := .list [] }
  tuple := fun es => .ok
    { label := "tuple [" ++ ", ".intercalate (es.map PromptType.label) ++ "]"
      sample := .list (es.map PromptType.sample) }
  union := union
  intersect := fun a b => .ok (intersect a b)
  nullable := fun e => .ok { e with rules := e.rules ++ ["nullable"], optional := true }
  optional := fun e => .ok { e with optional := true }
  container := container
  object := fun fields _ _ =>
    return { label := "nested object", sample := ← sampleObject fields }
  reference := fun name => { label := name ++ " object" }
  deferred := fun name => { label := name ++ " object" }

/-! ### Documents -/

def role : List String := [
  "You are a structured data extraction system. Your sole purpose is to analyze the user's " ++
    "input and return a single, valid JSON object that conforms exactly to the schema below."]

def instructions : List String := [
  "1. Return ONLY raw JSON. No markdown code fences, no commentary, no explanations.",
  "2. Every field marked REQUIRED must be present. Omit OPTIONAL fields only if the data is " ++
    "genuinely absent.",
  "3. Data types must match exactly: strings as strings, numbers as numbers, booleans as " ++
    "true/false.",
  "4. Do NOT invent or assume values not present in the user's input. Use null for missing " ++
    "optional fields.",
  "5. Respect every constraint (min, max, format, enum values) listed in the schema."]

def outputRules : List String := [
  "- Output must be parseable by JSON.parse() with zero modifications.",
  "- Do not wrap in markdown. Do not add trailing commas.",
  "- If a field is an enum, use ONLY the listed values.",
  "- If the user's input is ambiguous for a field, prefer null over guessing."]

/-- The line about one field. -/
def fieldLine (m : MappedField PromptType) : Except Fault String := do
  let required := if m.field.optional || m.expression.optional then "OPTIONAL" else "REQUIRED"
  let default ← match m.field.default? with
    | some v => do pure ["default: " ++ (← Literal.script v)]
    | none => pure []
  let given := m.expression.rules ++ default
  let key ← (Value.scalar m.field.key).printed
  let description ← if m.field.description.isTruthy then m.field.description.printed
    else pure "No description provided."
  return "  - \"" ++ key ++ "\": [" ++ m.expression.label ++ "] (" ++ required ++
    "): " ++ description ++
    (if given.isEmpty then "" else " | Constraints: " ++ ", ".intercalate given)

def sampleText (v : Value) : Except Fault String :=
  match (Json.Layout.mk false (some "  ")).write? 0 v with
  | some s => .ok s
  | none => .error (Json.refusal v)

def tagged (name : String) (lines : List String) : List String :=
  ["<" ++ name ++ ">"] ++ lines ++ ["</" ++ name ++ ">"]

/-- The prompt for the last object, which is the outermost because types are declared before they
are used. -/
def emit (ds : List (MappedDeclaration PromptType)) : Except Fault String := do
  match (ds.filter fun d => d.declaration.isObject).getLast? with
  | none => throw (.refused (.nothingFound "z.object() schemas"))
  | some d =>
    if d.fields.isEmpty then
      throw (.refused (.invalidDocument "Zod object schema"
        ("could not detect any fields inside " ++ (← (Value.scalar d.name).printed))))
    else
      let sample ← sampleObject d.fields
      let lines ← d.fields.mapM fieldLine
      let text ← sampleText sample
      return "\n".intercalate (
        ["<system>"] ++ tagged "role" role ++ [""] ++ tagged "instructions" instructions ++
        [""] ++ tagged "json_schema" lines ++ [""] ++ tagged "example_output" [text] ++
        [""] ++ tagged "constraints" outputRules ++ ["</system>"]) ++ "\n"

end Prompt

end Crosswalk.Target
