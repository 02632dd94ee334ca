import Crosswalk.Target.Renderer

/-!
TypeScript types: interfaces for objects, and type aliases for everything else.
-/

namespace Crosswalk.Target.TypeScript

def primitive : Primitive → String
  | .string | .datetime | .time | .bytes => "string"
  | .number | .integer | .decimal => "number"
  | .bigint => "bigint"
  | .boolean => "boolean"
  | .null => "null"
  | .undefined => "undefined"
  | .void => "void"
  | .any => "any"
  | .unknown => "unknown"
  | .never => "never"
  | .object => "object"
  | .symbol => "symbol"
  | .date => "Date"
  | .json => "Record<string, unknown>"
  | .other _ => "unknown"

/-- An operator stands at the top level of an expression. -/
def needsGrouping (operators : List Char) (expr : String) : Bool :=
  1 < (splitTopNonempty everyOpener operators expr.toList).length

def literal (v : Value) : Except Fault String := Literal.exactScript v

def enumeration (vs : List Value) : Except Fault String := do
  match vs with
  | [] => return "never"
  | vs => return " | ".intercalate (← vs.mapM literal)

def array (element : String) : String :=
  if needsGrouping ['|', '&'] element || element.startsWith "(" then "(" ++ element ++ ")[]"
  else element ++ "[]"

def intersect (a b : String) : String :=
  let grouped (e : String) : String := if needsGrouping ['|'] e then "(" ++ e ++ ")" else e
  grouped a ++ " & " ++ grouped b

def container (kind : Container) (args : List String) : Except Fault String :=
  let generic := match kind with
    | .set => some "Set"
    | .map => some "Map"
    | .record => some "Record"
    | .promise => some "Promise"
    | _ => none
  match generic with
  | some g => .ok (g ++ "<" ++ ", ".intercalate args ++ ">")
  | none => .ok (args.head?.getD "unknown")

/-- The lines of a comment about a declaration or field. -/
def docLines (pad : String) (v : Value) : Except Fault (List String) :=
  let oneLine := v.printed.map fun s => [pad ++ "/** " ++ s ++ " */"]
  match v with
  | .text s =>
    if s.toList.contains '\n' then
      .ok ([pad ++ "/**"] ++
        (Text.lines s.toList).map (fun l =>
          String.ofList (Text.trimEnd (pad ++ " * " ++ String.ofList l).toList)) ++
        [pad ++ " */"])
    else oneLine
  | .list vs => if vs.any (Value.isText "\n") then .error .noSuchPart else oneLine
  | .map es => if Value.hasKey "\n" es then .error .noSuchPart else oneLine
  | _ => .error .wrongKind

/-- Indent every line but the first. -/
def indentRest (pad s : String) : String :=
  String.ofList (Text.replaceAll ['\n'] ('\n' :: pad.toList) s.toList)

def fieldLines (indent : Indent) (m : MappedField String) : Except Fault (List String) := do
  let pad ← indent.shown 1
  let comment ← if m.field.description.isTruthy then docLines pad m.field.description else pure []
  let expression := indentRest (← indent.text) m.expression
  let mark := if m.field.optional then "?" else ""
  return comment ++ [pad ++ (← Literal.key m.field.key) ++ mark ++ ": " ++ expression ++ ";"]

def indexLines (indent : Indent) (additional : Option (Additional String)) :
    Except Fault (List String) := do
  match additional with
  | none | some .nothing => return []
  | some .anything => return [(← indent.shown 1) ++ "[key: string]: unknown;"]
  | some (.typed t) =>
    let expression := indentRest (← indent.text) t
    return [(← indent.shown 1) ++ "[key: string]: " ++ expression ++ ";"]

def object (indent : Indent) (fields : List (MappedField String))
    (additional : Option (Additional String)) : Except Fault String := do
  let trivial := match additional with
    | none | some .nothing => fields.isEmpty
    | _ => false
  if trivial then return "\x7b\x7d"
  else
    let _ ← indent.shown 1
    let lines ← fields.mapM (fieldLines indent)
    let index ← indexLines indent additional
    return "\n".intercalate (["\x7b"] ++ lines.flatten ++ index ++ ["\x7d"])

def renderer (indent : Indent) : Renderer String where
  unknown := fun _ => "unknown"
  primitive := fun p _ => .ok (primitive p)
  literal := literal
  enumeration := fun _ vs => return (← enumeration vs, [])
  array := fun element _ => .ok (array element)
  tuple := fun es => .ok ("[" ++ ", ".intercalate es ++ "]")
  union := fun ms => .ok (" | ".intercalate ms)
  intersect := fun a b => .ok (intersect a b)
  nullable := fun e => .ok (e ++ " | null")
  optional := fun e => .ok (e ++ " | undefined")
  container := container
  object := fun fields additional _ => object indent fields additional
  reference := Identifier.sanitize
  deferred := Identifier.sanitize

/-! ### Documents -/

def declarationText (d : MappedDeclaration String) : Except Fault String := do
  let comment ← match d.declaration.description? with
    | some v => if v.isTruthy then docLines "" v else pure []
    | none => pure []
  let name ← Identifier.sanitizeName d.name
  let line := match d.body with
    | some body =>
      let bases := if d.bases.isEmpty then "" else " extends " ++ ", ".intercalate d.bases
      "export interface " ++ name ++ bases ++ " " ++ body
    | none => "export type " ++ name ++ " = " ++ d.expression ++ ";"
  return "\n".intercalate (comment ++ [line])

def emit (ds : List (MappedDeclaration String)) : Except Fault String := do
  return "\n\n".intercalate (← ds.mapM declarationText) ++ "\n"

end Crosswalk.Target.TypeScript
