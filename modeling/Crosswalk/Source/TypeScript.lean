import Crosswalk.Source.Document
import Crosswalk.Source.Member
import Crosswalk.Scan.Comment
import Crosswalk.Text.Pattern

/-!
TypeScript sources: interfaces, type aliases and enums, and the type expressions in them.
-/

namespace Crosswalk.TypeScript

open Text (Pattern Place after? before? trim trimStart)
open String (ofList)

/-- Fields end at a semicolon, a comma or the end of a line. -/
def separators : List Char := [';', ',', '\n']

def fields (body : List Char) : Except Fault (List Field × Option (List Char)) :=
  Member.readBody everyOpener separators (fun line => .ok (Member.field? everyOpener line)) body

/-! ### Type expressions -/

/-- The primitive that a keyword names. -/
def keyword? (s : String) : Option Primitive :=
  match s with
  | "string" => some .string
  | "number" => some .number
  | "boolean" => some .boolean
  | "bigint" => some .bigint
  | "symbol" => some .symbol
  | "null" => some .null
  | "undefined" => some .undefined
  | "void" => some .void
  | "any" => some .any
  | "unknown" => some .unknown
  | "never" => some .never
  | "object" => some .object
  | "Date" => some .date
  | _ => none

/-- The container that a generic type names. -/
def container? (s : String) : Option Container :=
  match s with
  | "Set" | "ReadonlySet" => some .set
  | "Map" | "ReadonlyMap" => some .map
  | "Record" => some .record
  | "Promise" => some .promise
  | "Partial" => some .partially
  | "Required" => some .required
  | "Readonly" => some .readonly
  | "Pick" => some .pick
  | "Omit" => some .without
  | _ => none

/-- Drop operators before the first member of a union or intersection. -/
def dropLeadingOperators : Nat → List Char → List Char
  | 0, cs => cs
  | fuel + 1, cs =>
    match cs with
    | c :: rest =>
      if c == '|' || c == '&' then dropLeadingOperators fuel (unwrapParens rest) else c :: rest
    | [] => []

/-- A type expression without the parentheses, leading operators and `readonly` around it. -/
def normalize (cs : List Char) : List Char :=
  let cs := dropLeadingOperators (cs.length + 1) (unwrapParens cs)
  match after? "readonly ".toList cs with
  | some rest => trim rest
  | none => cs

def splitTypes (operator : Char) (cs : List Char) : List (List Char) :=
  splitTopNonempty everyOpener [operator] cs

def union? (cs : List Char) : Except Fault (Option Shape) := do
  let parts := splitTypes '|' cs
  if parts.length < 2 then return none
  else
    let values ← Literal.enumeration? parts
    match values.filter fun vs => vs.all Literal.isTextValue with
    | some vs => return some (.enumeration vs)
    | none =>
      match parts with
      | [a, b] =>
        if a == "null".toList then return some (.nullable (.text b))
        else if b == "null".toList then return some (.nullable (.text a))
        else return some (.union (parts.map .text))
      | _ => return some (.union (parts.map .text))

def intersection? (cs : List Char) : Option Shape :=
  let parts := splitTypes '&' cs
  if parts.length < 2 then none else some (.intersection (parts.map .text))

def array? (cs : List Char) : Option Shape :=
  match before? ['[', ']'] cs with
  | some element => if element.isEmpty then none else some (.array (.text (trim element)) [])
  | none => none

/-- Drop the label of a tuple element: a name with optional dots before and a mark after it. -/
def dropLabel (cs : List Char) : List Char :=
  let body := (after? ['.', '.', '.'] cs).getD cs
  match Identifier.leading? Identifier.isPart body with
  | none => cs
  | some (_, rest) =>
    let rest := (after? ['?'] rest).getD rest
    match trimStart rest with
    | ':' :: type => trimStart type
    | _ => cs

/-- A tuple element without its label and without the mark of an optional one. -/
def tupleElement (cs : List Char) : List Char :=
  let cs := dropLabel cs
  (before? ['?'] cs).getD cs

def tuple? (cs : List Char) : Option Shape :=
  (enclosed? '[' cs).map fun inner =>
    .tuple ((splitTypes ',' inner).map fun e => .text (tupleElement e))

/-- The keys that a selection lists, written as literals. -/
def selectedKeys (cs : List Char) : Except Fault (List String) := do
  let values ← (splitTypes '|' (unwrapParens cs)).mapM Literal.read?
  return values.filterMap fun v =>
    match v with
    | some (.text s) => some s
    | _ => none

/-- The name of a generic type and what stands between its angle brackets. -/
def generic? (cs : List Char) : Option (List Char × List Char) := do
  let (name, rest) ← Identifier.leading? (fun c => Identifier.isPart c || c == '.') cs
  let inner ← enclosed? '<' (trimStart rest)
  return (name, inner)

def genericShape? (cs : List Char) : Except Fault (Option Shape) := do
  match generic? cs with
  | none => return none
  | some (name, inner) =>
    let name := ofList name
    match splitTypes ',' inner with
    | [] => return none
    | first :: others =>
      if name == "Array" || name == "ReadonlyArray" then
        return some (.array (.text first) [])
      else if name == "NonNullable" then
        let kept := (splitTypes '|' (unwrapParens first)).filter fun m =>
          m != "null".toList && m != "undefined".toList
        if kept.isEmpty then return some (.primitive .never [])
        else return some (.union (kept.map .text))
      else
        match container? name with
        | some .pick => return some (.container .pick [.text first] (← keys others))
        | some .without => return some (.container .without [.text first] (← keys others))
        | some kind => return some (.container kind ((first :: others).map .text) [])
        | none => return some (.reference name)
where
  keys (others : List (List Char)) : Except Fault (List String) :=
    selectedKeys (others.head?.getD [])

def object? (cs : List Char) : Except Fault (Option Shape) := do
  match enclosed? '{' cs with
  | none => return none
  | some inner =>
    let (fs, index) ← fields inner
    return some (.object fs (index.map fun t => .typed (.text t)))

def reference? (cs : List Char) : Option Shape :=
  if Identifier.isQualified cs then some (.reference (ofList cs)) else none

/-- The shape of a type expression: the first rule that applies decides. -/
def classify (raw : List Char) : Except Fault Shape := do
  let cs := normalize raw
  match keyword? (ofList cs) with
  | some p => return .primitive p []
  | none =>
  match ← Literal.read? cs with
  | some v => return .literal v
  | none =>
  match ← union? cs with
  | some s => return s
  | none =>
  match (intersection? cs).orElse fun _ => (array? cs).orElse fun _ => tuple? cs with
  | some s => return s
  | none =>
  match ← genericShape? cs with
  | some s => return s
  | none =>
  match ← object? cs with
  | some s => return s
  | none => return (reference? cs).getD (.unknown (ofList cs))

/-! ### Declarations -/

open Text.Pattern

def name (n : Nat) : Pattern := .group n (.one Identifier.isStart ++ .run Identifier.isPart)

def exportWords : Pattern :=
  maybe (text "export" ++ blanks1) ++ maybe (text "declare" ++ blanks1)

/-- An interface up to its opening brace; groups 1 and 2 are its name and its bases. -/
def interfaceHead : Pattern :=
  let notBrace (c : Char) : Bool := c != '{'
  text "interface" ++ blanks1 ++ name 1 ++ blanks ++
  maybe (char '<' ++ .reluctantRun notBrace ++ char '>') ++ blanks ++
  maybe (text "extends" ++ blanks1 ++ .group 2 (.one notBrace ++ .reluctantRun notBrace) ++
    blanks) ++ char '{'

/-- An alias up to its equals sign; group 3 is its name. -/
def aliasHead : Pattern :=
  text "type" ++ blanks1 ++ name 3 ++ blanks ++
  maybe (char '<' ++ .reluctantRun (· != '=') ++ char '>') ++ blanks ++ char '='

/-- An enum up to its opening brace; group 4 is its name. -/
def enumHead : Pattern :=
  maybe (text "const" ++ blanks1) ++ text "enum" ++ blanks1 ++ name 4 ++ blanks ++ char '{'

def declarationHead : Pattern :=
  .wordEdge ++ exportWords ++ (interfaceHead <|> aliasHead <|> enumHead)

/-- A line that starts another declaration or statement. -/
def nextStatement : Pattern :=
  char '\n' ++ .run (fun c => c == ' ' || c == '\t') ++ exportWords ++
  (text "interface" <|> text "type" <|> text "enum" <|> text "const" <|> text "let" <|>
    text "var" <|> text "class" <|> text "function" <|> text "import") ++ .wordEdge

/-- The length of the text before the first semicolon at the top level, at most `limit`. -/
def lengthToSemicolon (tracked : List Char) (previous : Option Char) (s : Scan) (n : Nat) :
    Nat → List Char → Nat
  | 0, _ => n
  | _, [] => n
  | limit + 1, c :: cs =>
    if s.atTop && c == ';' then n
    else lengthToSemicolon tracked (some c) (s.step tracked previous c) (n + 1) limit cs

/-- The length of a statement: up to a semicolon at the top level or to the next statement. -/
def statementLength (tracked : List Char) (next : Pattern) (p : Place) : Nat :=
  let limit := match next.search? p with
    | some m => m.start.index - p.index
    | none => p.rest.length
  lengthToSemicolon tracked p.previous {} 0 limit p.rest

def additional (index : Option (List Char)) : List DeclarationAttribute :=
  (index.map fun t => DeclarationAttribute.additional (.typed (.text t))).toList

/-- The names of the interfaces that an interface extends, without type arguments. -/
def bases (cs : List Char) : List String :=
  (splitTypes ',' cs).map fun b => ofList (trim (b.takeWhile (· != '<')))

/-- A declaration at a place just behind its opening brace, and the place behind its body. -/
def braced (name : List Char) (p : Place)
    (make : List Char → Except Fault Declaration) :
    Except Fault (Option Finding × Place) := do
  match closer? ('{' :: p.rest) with
  | none => return (some (.error (.unbalancedDelimiter (ofList name) "\x7b")), p)
  | some n => return (some (.ok (← make (p.rest.take (n - 1)))), p.skip n)

/-- An alias at a place just behind its equals sign, and the place behind it. -/
def aliasDeclaration (name : List Char) (p : Place) : Except Fault (Option Finding × Place) := do
  let n := statementLength everyOpener nextStatement p
  let body := trim (p.rest.take n)
  let next := p.skip (n + 1)
  let title := ofList name
  match openAtEnd? everyOpener body with
  | some opener =>
    return (some (.error (.unbalancedDelimiter title (String.singleton opener))), next)
  | none =>
    if body.isEmpty then return (none, next)
    else match enclosed? '{' body with
      | some inner =>
        let (fs, index) ← fields inner
        return (some (.ok
          { name := .text title, body := .object fs, attributes := additional index }), next)
      | none => return (some (.ok { name := .text title, body := .synonym (.text body) }), next)

/-- What a head announces, and the place behind it. -/
def declaration (m : Found) : Except Fault (Option Finding × Place) :=
  match m.get? 1 with
  | some name =>
    braced name m.stop fun body => do
      let (fs, index) ← fields body
      return { name := .text (ofList name), body := .object fs,
               bases := bases (m.getD 2), attributes := additional index }
  | none =>
    match m.get? 3 with
    | some name => aliasDeclaration name m.stop
    | none =>
      let name := m.getD 4
      braced name m.stop fun body =>
        .ok { name := .text (ofList name), body := .enumeration (.text (trim body)) }

/-- What is found from a place on, after what has been `found`, the last first. -/
def findingsFrom (found : List Finding) : Nat → Place → Except Fault (List Finding)
  | 0, _ => .ok found.reverse
  | fuel + 1, p =>
    match declarationHead.search? p with
    | none => .ok found.reverse
    | some m =>
      match declaration m with
      | .error e => .error e
      | .ok (finding, next) => findingsFrom (finding.toList ++ found) fuel next

/-- The interfaces, aliases and enums of a source. -/
def extract (source : List Char) : Logged Diagnostic Document := do
  let text := CommentMarks.strip {} source
  let found ← Logged.lift (findingsFrom [] (text.length + 1) (.start text))
  return { declarations := ← Document.report found }

/-- The values of an enum: the text that a member is set to, or else its name. -/
def enumValues (body : List Char) : Except Fault (List Value) :=
  (splitTypes ',' body).mapM fun member => do
    let (name, initializer) := splitFirstTop everyOpener ['='] member
    let value ← match initializer with
      | some cs => if cs.isEmpty then pure none else Literal.read? cs
      | none => pure none
    match value with
    | some (.text s) => return .text s
    | _ => return .text (ofList (Text.stripChars Literal.quotes name))

end Crosswalk.TypeScript
