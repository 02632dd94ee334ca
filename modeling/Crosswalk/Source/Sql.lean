import Crosswalk.Source.Document
import Crosswalk.Source.Member
import Crosswalk.Scan.Comment
import Crosswalk.Text.LetterCase
import Crosswalk.Text.Pattern

/-!
SQL sources: tables with the types, defaults and constraints of their columns, and named
enumerations. Angle brackets never nest.
-/

namespace Crosswalk.Sql

open Text (Pattern isDecimal isInfix isWord lower startsWith trim)
open Text.Pattern
open String (ofList)

def tracked : List Char := openersWithoutAngle

def separators : List Char := [';', '\n']

/-! ### Names and lists -/

/-- A name without the blanks, quotes and brackets around it. -/
def unquoteName (cs : List Char) : List Char :=
  Text.stripChars ['\x60', '"', '[', ']'] (trim cs)

/-- The column names in the first parentheses of a text. -/
def columnNames (cs : List Char) : List String :=
  match cs.dropWhile (· != '(') with
  | [] => []
  | rest =>
    let inner := match group? rest with
      | some (inner, _) => inner
      | none => rest.drop 1
    (Text.parts [','] inner).filterMap fun c =>
      (Text.words c).head?.map fun w => ofList (unquoteName w)

/-- Two single quotes inside a literal stand for one. -/
def unescapeQuotes (cs : List Char) : List Char :=
  Text.replaceAll ['\x27', '\x27'] ['\\', '\x27'] cs

/-- The literals of a list. -/
def literals (cs : List Char) : Except Fault (List Value) := do
  let found ← (splitTopNonempty tracked [','] cs).mapM fun p => Literal.read? (unescapeQuotes p)
  return found.filterMap id

/-! ### Columns -/

def longTypes : List String :=
  ["double precision", "character varying", "timestamp without time zone",
    "timestamp with time zone", "time without time zone", "time with time zone"]

/-- A type name with its parameters and array brackets. -/
def typeForm : Pattern :=
  .one (fun c => ('a' ≤ c && c ≤ 'z') || ('A' ≤ c && c ≤ 'Z') || c == '_') ++ .run isWord ++
  blanks ++ maybe (char '(' ++ .run (· != ')') ++ char ')') ++
  .star (blanks ++ char '[' ++ .run isDecimal ++ char ']')

def lengthForm : Pattern := blanks ++ char '(' ++ run1 isDecimal ++ char ')'

def unsignedForm : Pattern := blanks1 ++ (word "UNSIGNED" <|> word "ZEROFILL") ++ .wordEdge

/-- The type of a column and what follows it. -/
def splitType (cs : List Char) : List Char × List Char :=
  let lowered := lower cs
  match longTypes.find? fun t => startsWith t.toList lowered with
  | some t =>
    let n := t.length
    let more := match lengthForm.matchStart? (cs.drop n) with
      | some m => m.stop.index
      | none => 0
    (cs.take (n + more), cs.drop (n + more))
  | none =>
    match typeForm.matchStart? cs with
    | none => ([], cs)
    | some m =>
      let n := m.stop.index
      let more := match unsignedForm.matchStart? (cs.drop n) with
        | some m => m.stop.index
        | none => 0
      (trim (cs.take (n + more)), cs.drop (n + more))

/-- The name between a quote at the start of a text and the next `close`. -/
def quotedName? (close : Char) (cs : List Char) : Option (List Char × List Char) :=
  let inner := cs.takeWhile (· != close)
  if inner.isEmpty then none
  else match cs.drop inner.length with
    | _ :: rest => some (inner, rest)
    | [] => none

/-- The name of a column, quoted or plain, and what follows it. -/
def columnName? (cs : List Char) : Option (List Char × List Char) :=
  match cs with
  | '\x60' :: rest => quotedName? '\x60' rest
  | '"' :: rest => quotedName? '"' rest
  | '[' :: rest => quotedName? ']' rest
  | _ =>
    let word := cs.takeWhile Identifier.isPart
    if word.isEmpty then none else some (word, cs.drop word.length)

structure Column where
  name : String
  type : String
  notNull : Bool
  primaryKey : Bool
  unique : Bool
  autoIncrement : Bool
  default : Option String
deriving Repr

/-- The value after `DEFAULT`: quoted text, parentheses, or a word that may be a call. -/
def defaultForm : Pattern :=
  let quote := char '\x27'
  let plain (c : Char) : Bool := c != '(' && c != ')'
  .wordEdge ++ word "DEFAULT" ++ blanks1 ++ .group 1 (
    (quote ++ .star (.one (· != '\x27') <|> (quote ++ quote)) ++ quote) <|>
    (char '(' ++ .star (.one plain <|> (char '(' ++ .run plain ++ char ')')) ++ char ')') <|>
    (run1 (fun c => isWord c || c == '.' || c == '+' || c == '-') ++
      maybe (blanks ++ char '(' ++ .run plain ++ char ')')))

def uniqueForm : Pattern := .wordEdge ++ text "UNIQUE" ++ .wordEdge

def countedForm : Pattern :=
  (.wordEdge ++ text "AUTO" ++ maybe (char '_') ++ text "INCREMENT" ++ .wordEdge) <|>
  (.wordEdge ++ text "GENERATED" ++ .wordEdge ++ .run (· != '\n') ++ .wordEdge ++ text "AS" ++
    blanks1 ++ text "IDENTITY" ++ .wordEdge)

def occurs (p : Pattern) (cs : List Char) : Bool := (p.search? (.start cs)).isSome

def column? (cs : List Char) : Option Column := do
  let (name, rest) ← columnName? (trim cs)
  let (type, rest) := splitType (Text.trimStart rest)
  if type.isEmpty then none
  else
    let upper := Text.upper rest
    let base := lower (trim (type.takeWhile (· != '(')))
    some {
      name := ofList name
      type := ofList type
      notNull := isInfix "NOT NULL".toList upper
      primaryKey := isInfix "PRIMARY KEY".toList upper
      unique := occurs uniqueForm upper
      autoIncrement :=
        ["serial", "smallserial", "bigserial"].contains (ofList base) ||
          occurs countedForm upper
      default := (defaultForm.search? (.start rest)).map fun m => ofList (m.getD 1) }

/-- The default of a column, unless it is null, with its value where that can be read. -/
def defaultOf (c : Column) : Except Fault (Option String × List FieldAttribute) := do
  match c.default with
  | none => return (none, [])
  | some d =>
    if Text.upper d.toList == "NULL".toList then return (none, [])
    else
      let known ← Literal.read? (unescapeQuotes d.toList)
      let lowered := ofList (lower d.toList)
      let value := if lowered == "true" then some (Value.bool true)
        else if lowered == "false" then some (Value.bool false) else known
      return (some d, (value.map FieldAttribute.default).toList)

def Column.field (primary unique : Bool) (c : Column) : Except Fault Field := do
  let (defaultText, value) ← defaultOf c
  return {
    key := .text c.name
    type := .text c.type.toList
    optional := !(c.notNull || primary)
    defaultText
    attributes := (if primary then [.primaryKey] else []) ++
      (if c.unique || unique then [.unique] else []) ++
      (if c.autoIncrement then [.autoIncrement] else []) ++ value }

/-! ### Declarations -/

/-- A name that may be qualified and quoted; group 1 is its last part. -/
def qualifiedName : Pattern :=
  let opening := maybe (.one fun c => c == '\x60' || c == '"' || c == '[')
  let closing := maybe (.one fun c => c == '\x60' || c == '"' || c == ']')
  .star (opening ++ run1 Identifier.isPart ++ closing ++ char '.') ++
  opening ++ .group 1 (run1 Identifier.isPart) ++ closing

def tableHead : Pattern :=
  .wordEdge ++ word "CREATE" ++ blanks1 ++
  maybe (maybe ((word "GLOBAL" ++ blanks1) <|> (word "LOCAL" ++ blanks1)) ++ word "TEMP" ++
    maybe (word "ORARY") ++ blanks1) ++
  word "TABLE" ++ blanks1 ++
  maybe (word "IF" ++ blanks1 ++ word "NOT" ++ blanks1 ++ word "EXISTS" ++ blanks1) ++
  qualifiedName ++ blanks ++ char '('

def enumHead : Pattern :=
  .wordEdge ++ word "CREATE" ++ blanks1 ++ word "TYPE" ++ blanks1 ++ qualifiedName ++ blanks1 ++
  word "AS" ++ blanks1 ++ word "ENUM" ++ blanks ++ char '('

/-- The start of a constraint on the table as a whole; group 1 is its kind. -/
def tableConstraint : Pattern :=
  maybe (word "CONSTRAINT" ++ blanks1 ++ run1 (fun c => !Text.isBlank c) ++ blanks1) ++
  .group 1 (
    (word "PRIMARY" ++ blanks1 ++ word "KEY") <|>
    (word "UNIQUE" ++ maybe (blanks1 ++ (word "KEY" <|> word "INDEX"))) <|>
    (word "FOREIGN" ++ blanks1 ++ word "KEY") <|>
    word "CHECK" <|> word "KEY" <|> word "INDEX" <|> word "EXCLUDE") ++
  .wordEdge

structure TableParts where
  columns : List Column := []
  primaryKey : List String := []
  uniques : List (List String) := []

/-- Add one part of a table: a constraint on the table, or a column. -/
def TableParts.add (t : TableParts) (part : List Char) : TableParts :=
  match tableConstraint.matchStart? part with
  | some m =>
    let kind := Text.upper (m.getD 1)
    if startsWith "PRIMARY".toList kind then { t with primaryKey := columnNames part }
    else if startsWith "UNIQUE".toList kind then
      { t with uniques := t.uniques ++ [columnNames part] }
    else t
  | none => { t with columns := t.columns ++ (column? part).toList }

/-- The first letter as a capital. -/
def capitalized : List Char → List Char
  | [] => []
  | c :: cs => Text.upperChar c ++ cs

def table (name body : List Char) : Except Fault Declaration := do
  let parts := (splitTopNonempty tracked [','] body).foldl TableParts.add {}
  let primaryKey := if parts.primaryKey.isEmpty then
      (parts.columns.filter Column.primaryKey).map Column.name
    else parts.primaryKey
  let single := parts.uniques.filterMap fun cols =>
    match cols with
    | [c] => some c
    | _ => none
  let fields ← parts.columns.mapM fun c =>
    c.field (primaryKey.contains c.name) (single.contains c.name)
  return {
    name := .text (ofList (capitalized name))
    body := .object fields
    attributes := [.table (ofList name), .primaryKey primaryKey,
      .uniqueTogether (parts.uniques.filter fun cols => 1 < cols.length)] }

/-- A declaration from its head and what stands in the parentheses after it. -/
def parenthesized (m : Found) (make : List Char → List Char → Except Fault Declaration) :
    Except Fault (Nat × Finding) := do
  match group? ('(' :: m.stop.rest) with
  | none => return (m.start.index, .error (.unbalancedDelimiter (ofList (m.getD 1)) "("))
  | some (body, _) => return (m.start.index, .ok (← make (m.getD 1) body))

def enumeration (name body : List Char) : Except Fault Declaration :=
  .ok { name := .text (ofList name), body := .enumeration (.text (trim body)) }

def commentMarks : CommentMarks := { line := ["--".toList, ['#']] }

/-- The enumerations and tables of a source in order. -/
def extract (source : List Char) : Logged Diagnostic Document := do
  let text := commentMarks.strip source
  let enums ← Document.readAll (enumHead.all text) fun m => parenthesized m enumeration
  let tables ← Document.readAll (tableHead.all text) fun m => parenthesized m table
  return { declarations := Document.inOrder (enums ++ tables) }

/-! ### Type expressions -/

def inlineEnum? (cs : List Char) : Option (List Char) :=
  let form := .group 1 (word "enum" <|> word "set") ++ blanks ++ char '('
  match form.matchStart? cs with
  | none => none
  | some m =>
    let kind := ofList (lower (m.getD 1))
    let inner := m.stop.rest
    if (kind == "enum" || kind == "set") && inner.getLast? == some ')' then some inner.dropLast
    else none

/-- Drop the last brackets and the blanks before them. -/
def dropBrackets (cs : List Char) : List Char :=
  match cs.reverse with
  | ']' :: rest =>
    match rest.dropWhile isDecimal with
    | '[' :: before => Text.trimEnd before.reverse
    | _ => cs
  | _ => cs

def array? (cs : List Char) : Option (List Char) :=
  if cs.getLast? == some ']' then some (dropBrackets cs)
  else if Text.endsWith " ARRAY".toList (Text.upper cs) then some (cs.take (cs.length - 6))
  else none

def booleanForm : Pattern :=
  word "tinyint" ++ blanks ++ char '(' ++ blanks ++ char '1' ++ blanks ++ char ')'

/-- The primitive that the base name of a type stands for. -/
def baseType? (s : String) : Option (Primitive × List Constraint) :=
  match s with
  | "int" | "integer" | "tinyint" | "smallint" | "mediumint" | "serial" | "smallserial" | "year" =>
    some (.integer, [])
  | "bigint" | "bigserial" => some (.bigint, [])
  | "float" | "double" | "double precision" | "real" => some (.number, [])
  | "decimal" | "numeric" | "money" => some (.decimal, [])
  | "varchar" | "char" | "character" | "character varying" | "nvarchar" | "text" | "tinytext"
  | "mediumtext" | "longtext" | "citext" => some (.string, [])
  | "uuid" => some (.string, [⟨.format, .text "uuid"⟩])
  | "boolean" | "bool" | "bit" => some (.boolean, [])
  | "timestamp" | "timestamp without time zone" | "timestamp with time zone" | "timestamptz"
  | "datetime" | "date" => some (.datetime, [])
  | "time" => some (.time, [])
  | "json" | "jsonb" => some (.json, [])
  | "blob" | "bytea" | "binary" | "varbinary" => some (.bytes, [])
  | _ => none

/-- A base name with parameters and the words for unsigned numbers. -/
def primitiveForm : Pattern :=
  .group 1 (.one (fun c => ('a' ≤ c && c ≤ 'z') || c == '_') ++
    .reluctantRun (fun c => isWord c || c == ' ')) ++
  blanks ++ maybe (char '(' ++ .group 2 (.run (· != ')')) ++ char ')') ++
  .star (blanks1 ++ (text "unsigned" <|> text "zerofill")) ++ .textEnd

def primitive? (cs : List Char) : Except Fault (Option Shape) := do
  match primitiveForm.matchStart? (lower cs) with
  | none => return none
  | some m =>
    let base := trim (m.getD 1)
    match baseType? (ofList base) with
    | none => return none
    | some (p, constraints) =>
      let params := ((Text.parts [','] (m.getD 2)).map trim).filter fun a => !a.isEmpty
      match p, params with
      | .string, length :: _ =>
        if length.all Text.isDigit then
          match Number.integer? 10 length with
          | some n => return some (.primitive p (constraints ++ [⟨.maxLength, .int n⟩]))
          | none => throw .unreadableNumber
        else return some (.primitive p constraints)
      | .decimal, [a, b] =>
        let note := ofList (Text.upper base) ++ "(" ++ ofList a ++ "," ++
          ofList b ++ ")"
        return some (.primitive p (constraints ++ [⟨.description, .text note⟩]))
      | _, _ => return some (.primitive p constraints)

/-- The shape of a column type. -/
def classify (raw : List Char) : Except Fault Shape := do
  let cs := Text.squeezeBlanks (trim raw)
  match inlineEnum? cs with
  | some inner => return .enumeration (← literals inner)
  | none =>
  match array? cs with
  | some element => return .array (.text element) []
  | none =>
  if (booleanForm.matchStart? cs).isSome then return .primitive .boolean []
  else
  match ← primitive? cs with
  | some s => return s
  | none =>
    let last := unquoteName ((Text.parts ['.'] cs).getLast?.getD [])
    if !last.isEmpty && last.all Identifier.isPart then return .reference (ofList last)
    else return .unknown (ofList cs)

end Crosswalk.Sql
