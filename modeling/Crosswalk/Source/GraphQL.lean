import Crosswalk.Source.Document
import Crosswalk.Source.Member
import Crosswalk.Scan.Comment
import Crosswalk.Text.Pattern

/-!
GraphQL schemas: object, input and interface types with the arguments of their fields, enums and
unions. A type may be absent unless it ends in an exclamation mark. A scalar that the document
defines is no declaration: its name counts as a primitive.
-/

namespace Crosswalk.GraphQL

open Text (Pattern isWord trim)
open Text.Pattern
open String (ofList)

def tracked : List Char := openersWithoutAngle

def separators : List Char := ['\n', ',']

def isNameStart (c : Char) : Bool :=
  ('a' ≤ c && c ≤ 'z') || ('A' ≤ c && c ≤ 'Z') || c == '_'

def isName : List Char → Bool
  | [] => false
  | c :: cs => isNameStart c && cs.all isWord

def name (n : Nat) : Pattern := .group n (.one isNameStart ++ .run isWord)

/-- A directive with its arguments in parentheses; `gap` may stand before them. -/
def directive (gap : Pattern) : Pattern :=
  char '@' ++ run1 isWord ++ maybe (gap ++ char '(' ++ .run (· != ')') ++ char ')')

def directives : Pattern := .star (directive .empty ++ blanks)

/-- A block up to its opening brace: keyword, name and the interfaces it implements. -/
def blockHead : Pattern :=
  .wordEdge ++
  .group 1 (text "type" <|> text "input" <|> text "interface" <|> text "enum") ++ blanks1 ++
  name 2 ++
  maybe (blanks1 ++ text "implements" ++ blanks1 ++ .group 3 (.one isBasePart ++
    .reluctantRun isBasePart)) ++
  blanks ++ directives ++ char '{'
where
  isBasePart (c : Char) : Bool := isWord c || c == '&' || c == ',' || Text.isBlank c

/-- A union with its name and its members. -/
def unionForm : Pattern :=
  .wordEdge ++ text "union" ++ blanks1 ++ name 1 ++ blanks ++ directives ++ char '=' ++ blanks ++
  .group 2 (maybe (char '|') ++ run1 isMemberPart ++
    .star (blanks ++ char '|' ++ run1 isMemberPart))
where
  isMemberPart (c : Char) : Bool := c != '\n' && c != '|'

def scalarForm : Pattern := .wordEdge ++ text "scalar" ++ blanks1 ++ name 1

/-- A line that holds nothing but a quoted description. -/
def descriptionLine : Pattern :=
  let gap (c : Char) : Bool := c == ' ' || c == '\t'
  .lineStart ++ .run gap ++ char '"' ++
  .star (.one (fun c => c != '"' && c != '\\' && c != '\n') <|>
    (char '\\' ++ .one (· != '\n'))) ++
  char '"' ++ .run gap ++ .lineEnd

def commentMarks : CommentMarks where
  line := [['#']]
  block := [(['"', '"', '"'], ['"', '"', '"'])]

/-- The source without comments and descriptions. -/
def stripComments (source : List Char) : List Char :=
  descriptionLine.substitute (fun _ => []) (commentMarks.strip source)

def dropDirectives (cs : List Char) : List Char :=
  (directive blanks).substitute (fun _ => []) cs

/-! ### Fields -/

/-- The text of a field without its arguments, and the arguments; nothing if their closer is
missing. -/
def splitArguments? (line : List Char) : Option (List Char × Option (List Char)) :=
  let left := line.takeWhile fun c => c != '(' && c != ':'
  match line.drop left.length with
  | '(' :: rest =>
    (group? ('(' :: rest)).map fun (inner, after) => (left ++ after, some inner)
  | _ => some (line, none)

/-- A field `name(arguments): Type = default`. `fuel` bounds the nesting of arguments. -/
def fieldWithin : Nat → List Char → Except Fault (Option Field)
  | 0, _ => .ok none
  | fuel + 1, line => do
    match splitArguments? (trim line) with
    | none => return none
    | some (line, inner) =>
      let arguments ← match inner with
        | none => pure []
        | some inner => do
          let found ← (splitTopNonempty tracked [',', '\n'] inner).mapM (fieldWithin fuel)
          pure (found.filterMap id)
      match splitFirstTop tracked [':'] line with
      | (_, none) => return none
      | (key, some type) =>
        if type.isEmpty || !isName key then return none
        else
          let (type, value) := splitFirstTop tracked ['='] (dropDirectives type)
          let field : Field :=
            { key := .text (ofList key), type := .text (trim type), arguments }
          match value with
          | none => return some field
          | some value =>
            if value.isEmpty then return some field
            else
              let known ← Literal.read? value
              return some { field with
                defaultText := some (ofList value)
                attributes := (known.map FieldAttribute.default).toList }

def field (line : List Char) : Except Fault (Option Field) := fieldWithin (line.length + 1) line

/-! ### Declarations -/

/-- The words of a list that is divided by blanks and other marks. -/
def wordsBy (divides : Char → Bool) (cs : List Char) : List (List Char) :=
  Text.words (cs.map fun c => if divides c then ' ' else c)

def block (m : Found) : Except Fault Finding := do
  let title := ofList (m.getD 2)
  match group? ('{' :: m.stop.rest) with
  | none => return .error (.unbalancedDelimiter title "\x7b")
  | some (body, _) =>
    if m.getD 1 == "enum".toList then
      return .ok { name := .text title, body := .enumeration (.text (trim body)) }
    else
      let found ← (splitTopNonempty tracked separators body).mapM field
      let bases := wordsBy (fun c => c == '&' || c == ',') (m.getD 3)
      return .ok { name := .text title, body := .object (found.filterMap id),
                   bases := bases.map ofList }

/-- A union is an alias of its members, which are never absent. -/
def union (m : Found) : Declaration :=
  let members := ((Text.parts ['|'] (m.getD 2)).map trim).filter fun p => !p.isEmpty
  let body := Text.join " | " (members.map fun p => ofList (p ++ ['!']))
  { name := .text (ofList (m.getD 1)), body := .synonym (.text body.toList) }

/-- The declarations of a source in order, and the scalars it defines. -/
def extract (source : List Char) : Logged Diagnostic Document := do
  let text := stripComments source
  let scalars := (scalarForm.all text).map fun m => ofList (m.getD 1)
  let blocks ← Document.readAll (blockHead.all text) fun m => do
    return (m.start.index, ← block m)
  let unions := (unionForm.all text).map fun m => (m.start.index, union m)
  return {
    declarations := Document.inOrder (blocks ++ unions)
    scope := { customScalars := scalars } }

/-- The names in the body of an enum. -/
def enumValues (body : List Char) : List Value :=
  ((wordsBy (· == ',') (dropDirectives body)).filter isName).map fun w => .text (ofList w)

/-! ### Type expressions -/

def scalar? (s : String) : Option Primitive :=
  match s with
  | "ID" | "String" => some .string
  | "Int" => some .integer
  | "Float" => some .number
  | "Boolean" => some .boolean
  | _ => none

/-- Widely used scalars that are not built in. -/
def wellKnownScalar? (s : String) : Option (Primitive × List Constraint) :=
  let format (f : String) : List Constraint := [⟨.format, .text f⟩]
  match s with
  | "DateTime" | "Timestamp" => some (.datetime, [])
  | "Date" => some (.date, [])
  | "Time" => some (.time, [])
  | "JSON" | "JSONObject" => some (.json, [])
  | "BigInt" => some (.bigint, [])
  | "Long" => some (.integer, [])
  | "Decimal" => some (.decimal, [])
  | "UUID" => some (.string, format "uuid")
  | "EmailAddress" | "Email" => some (.string, format "email")
  | "URL" => some (.string, format "url")
  | "Upload" => some (.unknown, [])
  | _ => none

/-- The shape of a type; `custom` are the scalars that the document defines. -/
def classify (custom : List String) (raw : List Char) : Shape :=
  let cs := trim raw
  let members := splitTopNonempty tracked ['|'] cs
  if 2 ≤ members.length then
    .union (members.map fun m => .text (Text.stripEnd ['!'] m ++ ['!']))
  else if !cs.isEmpty && cs.getLast? != some '!' && !cs.contains '|' then
    .optional (.text (cs ++ ['!']))
  else
    let inner := trim cs.dropLast
    match enclosed? '[' inner with
    | some element => .array (.text (trim element)) []
    | none =>
      let s := ofList inner
      match (scalar? s).map (fun p => (p, [])) |>.orElse fun _ => wellKnownScalar? s with
      | some (p, cs) => .primitive p cs
      | none =>
        if custom.contains s then .primitive .unknown []
        else if isName inner then .reference s
        else .unknown (ofList cs)

end Crosswalk.GraphQL
