import Crosswalk.Source.Document
import Crosswalk.Source.Member
import Crosswalk.Scan.Comment
import Crosswalk.Text.Pattern

/-!
Prisma schemas: enums, and models whose fields carry attributes. A native type after the type of a
field belongs to the raw type. A field whose type is another model describes no column and is left
out. A question mark after a type means that the value may be null; the field itself is never
absent.
-/

namespace Crosswalk.Prisma

open Text (Pattern after? before? isWord parts startsWith stripEnd trim words)
open Text.Pattern
open String (ofList)

def tracked : List Char := openersWithoutAngle

def separators : List Char := [';', '\n']

def isGap (c : Char) : Bool := c == ' ' || c == '\t'

/-- A block up to its opening brace: keyword and name. -/
def blockHead : Pattern :=
  .lineStart ++ .run isGap ++
  .group 1 (text "model" <|> text "type" <|> text "view" <|> text "enum") ++ run1 isGap ++
  .group 2 (run1 isWord) ++ .run isGap ++ char '{'

def docMark : List Char := ['/', '/', '/']

/-- The text of a line of documentation. -/
def docText? (line : List Char) : Option (List Char) :=
  (after? docMark (trim line)).map trim

def dropFinalNewlines (cs : List Char) : List Char := stripEnd ['\n'] cs

/-- The documentation that ends a text. -/
def docsAtEnd (before : List Char) : String :=
  let lines := (parts ['\n'] (dropFinalNewlines before)).reverse
  let docs := (lines.map docText?).takeWhile Option.isSome
  Text.join " " ((docs.filterMap id).reverse.map ofList)

/-! ### Fields -/

/-- A native database type with its arguments. -/
def nativeType? (cs : List Char) : Option (List Char × Option (List Char)) := do
  let rest ← after? "@db.".toList cs
  let name := rest.takeWhile isWord
  if name.isEmpty then none
  else match rest.drop name.length with
    | [] => some (name, none)
    | '(' :: inner =>
      let args := inner.takeWhile (· != ')')
      if inner.drop args.length == [')'] then some (name, some args) else none
    | _ => none

/-- An attribute with its arguments. -/
def attribute? (cs : List Char) : Option (List Char × List Char) := do
  let rest ← after? ['@'] cs
  let name := rest.takeWhile fun c => isWord c || c == '.'
  if name.isEmpty then none
  else match rest.drop name.length with
    | [] => some (name, [])
    | '(' :: inner => if inner.getLast? == some ')' then some (name, trim inner.dropLast) else none
    | _ => none

/-- Functions of which the database computes the value. -/
def generators : List String :=
  ["autoincrement", "now", "uuid", "cuid", "nanoid", "ulid", "dbgenerated", "sequence"]

/-- The name of a call at the start of a text. -/
def callName? (cs : List Char) : Option String :=
  let name := cs.takeWhile isWord
  if name.isEmpty then none
  else if (Text.trimStart (cs.drop name.length)).head? == some '(' then some (ofList name)
  else none

/-- What a default says: a generated value, a literal, or the name of an enum value. -/
def defaultAttribute (args : List Char) : Except Fault (Option FieldAttribute) := do
  if (callName? args).any generators.contains then return some .generated
  else match ← Literal.read? args with
    | some v => return some (.default v)
    | none =>
      if Identifier.isName args then return some (.default (.text (ofList args)))
      else return none

/-- Take account of one word after the type. -/
def addWord (type : List Char) (f : Field) (token : List Char) : Except Fault Field := do
  if (nativeType? token).isSome then return { f with type := .text (type ++ ' ' :: token) }
  else
    let put (a : FieldAttribute) : Field :=
      { f with attributes := Field.putAttribute a f.attributes }
    match attribute? token with
    | none => return f
    | some (name, args) =>
      match ofList name with
      | "id" => return put .primaryKey
      | "unique" => return put .unique
      | "updatedAt" => return put .generated
      | "relation" => return put .relation
      | "default" =>
        if args.isEmpty then return f
        else
          let f := match ← defaultAttribute args with
            | some a => put a
            | none => f
          return { f with defaultText := some (ofList args) }
      | _ => return f

/-- A field line: name, type and attributes. -/
def field (description : String) (line : List Char) : Except Fault (Option Field) := do
  match splitTopNonempty tracked [' ', '\t'] line with
  | key :: type :: tokens =>
    if Identifier.isName key then
      let f : Field := { key := .text (ofList key), type := .text type,
                         description := .text description }
      return some (← tokens.foldlM (addWord type) f)
    else return none
  | _ => return none

/-- The name of the type of a field, without the marks after it. -/
def typeName (f : Field) : String :=
  ofList (stripEnd ['?', '[', ']'] ((words f.type.asText).head?.getD []))

/-- The fields of a body that are columns. Documentation above a field is its description. -/
def columns (models : List String) (body : List Char) : Except Fault (List Field) := do
  let found ← (parts ['\n'] body).foldlM
    (fun (acc : List Field × List (List Char)) line => do
      match docText? line with
      | some d => return (acc.1, acc.2 ++ [d])
      | none =>
        let line := trim (CommentMarks.strip {} (trim line))
        if line.isEmpty || startsWith ['@', '@'] line then return (acc.1, [])
        else
          match ← field (Text.join " " (acc.2.map ofList)) line with
          | none => return (acc.1, [])
          | some f =>
            if f.has "relation" || models.contains (typeName f) then return (acc.1, [])
            else return (f :: acc.1, []))
    ([], [])
  return found.1.reverse

/-! ### Declarations -/

structure Block where
  keyword : String
  name : String
  description : String
  body : List Char

def Block.isModel (b : Block) : Bool := b.keyword == "model" || b.keyword == "view"

def block (source : List Char) (m : Found) : Except Diagnostic Block :=
  let name := ofList (m.getD 2)
  match group? ('{' :: m.stop.rest) with
  | none => .error (.unbalancedDelimiter name "\x7b")
  | some (body, _) => .ok {
      keyword := ofList (m.getD 1)
      name
      description := docsAtEnd (source.take m.start.index)
      body }

def Block.declaration (models : List String) (b : Block) : Except Fault Declaration := do
  let description := if b.description == "" then []
    else [DeclarationAttribute.description (.text b.description)]
  if b.keyword == "enum" then
    return { name := .text b.name, body := .enumeration (.text b.body), attributes := description }
  else
    return { name := .text b.name, body := .object (← columns models b.body),
             attributes := description ++ (if b.isModel then [.model] else []) }

/-- The enums of a source, and after them its models. -/
def extract (source : List Char) : Logged Diagnostic Document := do
  let blocks ← Document.report ((blockHead.all source).map (block source))
  let models := (blocks.filter Block.isModel).map Block.name
  let declarations ← Logged.lift (blocks.mapM (Block.declaration models))
  return {
    declarations := declarations.filter Declaration.isEnumeration ++
      declarations.filter fun d => !d.isEnumeration
    info := if blocks.isEmpty then [] else [("source", .text "Prisma schema")] }

/-- The names at the starts of the lines of an enum. -/
def enumValues (body : List Char) : List Value :=
  (parts ['\n'] (CommentMarks.strip {} body)).filterMap fun line =>
    let line := trim line
    if startsWith ['@', '@'] line then none
    else match words line with
      | w :: _ => if Identifier.isName w then some (.text (ofList w)) else none
      | [] => none

/-! ### Type expressions -/

def scalar? (s : String) : Option Primitive :=
  match s with
  | "String" => some .string
  | "Int" => some .integer
  | "BigInt" => some .bigint
  | "Float" => some .number
  | "Decimal" => some .decimal
  | "Boolean" => some .boolean
  | "DateTime" => some .datetime
  | "Json" => some .json
  | "Bytes" => some .bytes
  | _ => none

/-- What a native type says about a value. -/
def nativeConstraints (native : List Char) : Except Fault (List Constraint) := do
  match nativeType? native with
  | none => return []
  | some (name, args) =>
    let digits := trim (args.getD [])
    if ["VarChar", "Char", "NVarChar", "NChar"].contains (ofList name) &&
        !digits.isEmpty && digits.all Text.isDigit then
      match Number.integer? 10 digits with
      | some n => return [⟨.maxLength, .int n⟩]
      | none => throw .unreadableNumber
    else if name == "Uuid".toList then return [⟨.format, .text "uuid"⟩]
    else return []

/-- The shape of a field type. -/
def classify (raw : List Char) : Except Fault Shape := do
  let cs := Text.squeezeBlanks (trim raw)
  let base := cs.takeWhile (· != ' ')
  let native := cs.drop (base.length + 1)
  let together (b : List Char) : Raw := .text (trim (b ++ ' ' :: native))
  if startsWith "Unsupported(".toList cs then return .unknown (ofList cs)
  else match before? ['?'] base with
  | some b => return .nullable (together b)
  | none =>
  match before? ['[', ']'] base with
  | some b => return .array (together b) []
  | none =>
  match scalar? (ofList base) with
  | some p => return .primitive p (← nativeConstraints native)
  | none =>
    if Identifier.isName cs then return .reference (ofList cs)
    else return .unknown (ofList cs)

end Crosswalk.Prisma
