import Crosswalk.Source.TypeScript

/-!
Zod sources: named schema constants and the procedures of a tRPC router. A schema is a chain of
calls; the last calls of a chain are looked at first.
-/

namespace Crosswalk.Zod

open Text (Pattern)
open Text.Pattern
open Identifier (isName isPart isStart leading?)
open String (ofList)

def tracked : List Char := openersWithoutAngle

def separators : List Char := [',']

/-! ### Chains -/

/-- One link of a chain: a name, and the text of its arguments if it is called. -/
structure Call where
  name : String
  args : Option (List Char)
deriving Repr, DecidableEq

/-- The arguments, which must not be empty. -/
def Call.given? (c : Call) : Option (List Char) := c.args.filter fun a => !a.isEmpty

/-- A name with optional arguments in parentheses. -/
def call? (cs : List Char) : Option Call := do
  let (name, rest) ← leading? isPart cs
  match Text.trimStart rest with
  | [] => some ⟨ofList name, none⟩
  | '(' :: inner =>
    if inner.getLast? == some ')' then some ⟨ofList name, some inner.dropLast⟩ else none
  | _ => none

/-- The links of a chain; none if a part of it is no call. -/
def chain (cs : List Char) : List Call := ((splitTop tracked ['.'] cs).mapM call?).getD []

def Call.text (c : Call) : List Char :=
  c.name.toList ++ match c.args with
    | none => []
    | some args => '(' :: (args ++ [')'])

def joinChain (calls : List Call) : List Char := ['.'].intercalate (calls.map Call.text)

/-- The parts of a list of arguments. -/
def arguments (cs : List Char) : List (List Char) := splitTopNonempty tracked [','] cs

/-- The elements of an argument in brackets. -/
def listItems (cs : List Char) : List (List Char) :=
  let cs := Text.trim cs
  arguments (if cs.head? == some '[' && cs.getLast? == some ']' then (cs.drop 1).dropLast else cs)

/-- The first argument, if it is a number. -/
def numberArgument (args : Option (List Char)) : Except Fault (Option Value) := do
  let value ← Literal.read? ((args.getD []).takeWhile (· != ','))
  return value.filter Literal.isNumberValue

/-- The text of a description, which may be a template. -/
def describeText (args : Option (List Char)) : Option String :=
  let cs := Text.trim (args.getD [])
  if isStringLiteral Literal.quotesAndTemplate cs then
    (Literal.unquote cs).toOption.map ofList
  else none

/-- The name of a schema constant without the word at its end. -/
def baseName (cs : List Char) : List Char :=
  match Text.before? "Schema".toList cs with
  | some base => if base.isEmpty then cs else base
  | none => cs

/-! ### Fields -/

/-- The calls from the last `array` on: only they apply to the field as a whole. -/
def tailOfArray (calls : List Call) : List Call :=
  let after := (calls.reverse.takeWhile fun c => c.name != "array").reverse
  if after.length == calls.length then calls else calls.drop (calls.length - after.length - 1)

/-- The value of the first default that can be read. -/
def defaultValue : List Call → Except Fault (Option Value)
  | [] => .ok none
  | c :: cs => do
    match if c.name == "default" then c.given? else none with
    | none => defaultValue cs
    | some args =>
      match ← Literal.read? args with
      | some v => return some v
      | none => defaultValue cs

def field (line : List Char) : Except Fault (Option Field) := do
  match Member.field? tracked line with
  | none => return none
  | some f =>
    let calls := chain f.type.asText
    let optional := f.optional ||
      (tailOfArray calls).any fun c => c.name == "optional" || c.name == "nullish"
    let description := calls.findSome? fun c =>
      if c.name == "describe" then describeText c.args else none
    let value ← defaultValue calls
    return some { f with
      optional
      description := .text (description.getD "")
      attributes := (value.map FieldAttribute.default).toList }

def fields (body : List Char) : Except Fault (List Field) := do
  return (← Member.readBody tracked separators field body).1

/-! ### Schemas -/

/-- Calls that leave the validated type as it is. -/
def isTransparent (s : String) : Bool :=
  ["describe", "default", "catch", "refine", "superRefine", "transform", "brand", "readonly",
    "trim", "toLowerCase", "toUpperCase"].contains s

/-- Drop transparent calls from the end, but keep the first `keep` calls. -/
def dropTransparent (keep : Nat) (calls : List Call) : List Call :=
  calls.take keep ++ ((calls.drop keep).reverse.dropWhile fun c => isTransparent c.name).reverse

/-- The schema that a deferred one stands for. -/
def deferred? (calls : List Call) : Option (List Char) :=
  match calls with
  | [z, lazy] =>
    if z.name == "z" && lazy.name == "lazy" then
      lazy.given?.map fun body =>
        let body := Text.trim body
        match Text.breakOn? ['=', '>'] body with
        | some (_, result) => Text.trim result
        | none => body
    else none
  | _ => none

/-- Drop what does not change the type: transparent calls at the end, and deferral. -/
def simplify : Nat → List Char → List Char
  | 0, cs => cs
  | fuel + 1, cs =>
    match chain cs with
    | [] => cs
    | first :: others =>
      let keep := if first.name == "z" then 2 else 1
      let calls := dropTransparent keep (first :: others)
      match deferred? calls with
      | some inner => simplify fuel inner
      | none => joinChain calls

def normalize (raw : List Char) : List Char :=
  let cs := Text.replaceAll "z.coerce.".toList "z.".toList
    (Text.trim (Text.stripEnd [','] (Text.trim raw)))
  simplify (cs.length + 1) cs

/-- The keys of a mask such as `{ a: true }`. -/
def maskKeys (args : List Char) : List String :=
  (arguments ((Text.trim args).drop 1).dropLast).map fun k =>
    ofList (Text.stripChars Literal.quotes (Text.trim (k.takeWhile (· != ':'))))

/-- The shape that the last call of a chain gives to what precedes it. -/
def lastCall? (calls : List Call) : Option Shape :=
  match calls.reverse with
  | last :: previous :: before =>
    let calls := (previous :: before).reverse
    let rest : Raw := .text (joinChain calls)
    let bare := last.given?.isNone
    match last.name with
    | "optional" => some (.optional rest)
    | "nullable" => some (.nullable rest)
    | "nullish" => some (.optional (.text (rest.asText ++ ".nullable()".toList)))
    | name =>
      if before.isEmpty && previous.name == "z" then none
      else match name with
        | "or" => last.given?.map fun a => .union [rest, .text a]
        | "and" | "merge" => last.given?.map fun a => .intersection [rest, .text a]
        | "extend" => last.given?.map fun a =>
          .intersection [rest, .text ("z.object(".toList ++ a ++ [')'])]
        | "array" => if bare then some (.array rest []) else none
        | "pick" => last.given?.map fun a => .container .pick [rest] (maskKeys a)
        | "omit" => last.given?.map fun a => .container .without [rest] (maskKeys a)
        | "partial" => if bare then some (.container .partially [rest] []) else none
        | "required" => if bare then some (.container .required [rest] []) else none
        | _ => none
  | _ => none

/-- The primitive that a factory makes. -/
def factory? (s : String) : Option Primitive :=
  match s with
  | "string" => some .string
  | "number" => some .number
  | "bigint" => some .bigint
  | "boolean" => some .boolean
  | "date" => some .date
  | "symbol" => some .symbol
  | "null" => some .null
  | "undefined" => some .undefined
  | "void" => some .void
  | "any" => some .any
  | "unknown" => some .unknown
  | "never" => some .never
  | _ => none

def stringFormat? (s : String) : Option String :=
  match s with
  | "email" => some "email"
  | "url" => some "uri"
  | "uuid" => some "uuid"
  | "cuid" => some "cuid"
  | "datetime" => some "date-time"
  | "ip" => some "ipv4"
  | _ => none

/-- The limit that a call with a number sets on a number. -/
def numberLimit? (s : String) : Option Limit :=
  match s with
  | "min" | "gte" => some .minimum
  | "max" | "lte" => some .maximum
  | "gt" => some .exclusiveMinimum
  | "lt" => some .exclusiveMaximum
  | _ => none

/-- The constraints that a call with a number sets on a length or size. -/
def sizeConstraints (least greatest : Limit) (name : String) (v : Value) : List Constraint :=
  (if name == "min" || name == "length" then [⟨least, v⟩] else []) ++
  (if name == "max" || name == "length" then [⟨greatest, v⟩] else [])

/-- What one call says about a primitive. -/
def refine (p : Primitive) (c : Call) (number : Option Value) : Primitive × List Constraint :=
  if c.name == "int" then (.integer, [])
  else match stringFormat? c.name with
  | some f => (p, [⟨.format, .text f⟩])
  | none =>
  match if c.name == "regex" then c.given? else none with
  | some args =>
    (p, [⟨.pattern, .text (ofList (Text.stripChars ['/'] (Text.trim args)))⟩])
  | none =>
  match number with
  | some v =>
    let sizes := if p == .string then sizeConstraints .minLength .maxLength c.name v else []
    if !sizes.isEmpty then (p, sizes)
    else match numberLimit? c.name with
      | some l => (p, [⟨l, v⟩])
      | none => (p, sign c.name)
  | none => (p, sign c.name)
where
  sign (name : String) : List Constraint :=
    if name == "positive" then [⟨.exclusiveMinimum, .int 0⟩]
    else if name == "nonnegative" then [⟨.minimum, .int 0⟩]
    else []

def primitive (p : Primitive) (methods : List Call) : Except Fault Shape := do
  let (p, constraints) ← methods.foldlM
    (fun (acc : Primitive × List Constraint) c => do
      let number ← numberArgument c.args
      let (p, more) := refine acc.1 c number
      return (p, acc.2 ++ more))
    (p, [])
  return .primitive p constraints

def arrayConstraints (methods : List Call) : Except Fault (List Constraint) := do
  let found ← methods.mapM fun c => do
    match ← numberArgument c.args with
    | none => return []
    | some v => return sizeConstraints .minItems .maxItems c.name v
  return found.flatten

/-- What the calls after an object schema say about further keys: the last word counts. -/
def additional (methods : List Call) : Option (Additional Raw) :=
  methods.foldl
    (fun acc c =>
      match c.name with
      | "strict" => some .nothing
      | "passthrough" => some .anything
      | "catchall" =>
        match c.given? with
        | some a => some (.typed (.text a))
        | none => acc
      | _ => acc)
    none

def object (args : List Char) (methods : List Call) : Except Fault Shape := do
  let fs ← match enclosed? '{' args with
    | some inner => fields inner
    | none => pure []
  return .object fs (additional methods)

/-- A factory call and the calls after it. -/
def factoryShape? (calls : List Call) : Except Fault (Option Shape) := do
  match calls with
  | z :: made :: methods =>
    if z.name != "z" then return none
    else
      let args := Text.trim (made.args.getD [])
      match factory? made.name with
      | some p => return some (← primitive p methods)
      | none =>
        match made.name with
        | "literal" => return (← Literal.read? args).map .literal
        | "enum" => return some (.enumeration ((← Literal.enumeration? (listItems args)).getD []))
        | "array" => return some (.array (.text args) (← arrayConstraints methods))
        | "tuple" => return some (.tuple ((listItems args).map .text))
        | "union" | "discriminatedUnion" =>
          let items := if args.contains '[' then args.dropWhile (· != '[') else args
          return some (.union ((listItems items).map .text))
        | "intersection" => return some (.intersection ((arguments args).map .text))
        | "object" => return some (← object args methods)
        | "record" => return some (.container .record (keyed args) [])
        | "map" => return some (.container .map (keyed args) [])
        | "set" => return some (.container .set [.text args] [])
        | "promise" => return some (.container .promise [.text args] [])
        | _ => return none
  | _ => return none
where
  /-- Keys are text if only the type of the values is given. -/
  keyed (args : List Char) : List Raw :=
    match arguments args with
    | [v] => [.text "z.string()".toList, .text v]
    | parts => (parts.take 2).map .text

/-- The shape of a schema expression: the first rule that applies decides. -/
def classify (raw : List Char) : Except Fault Shape := do
  let cs := normalize raw
  let calls := chain cs
  match lastCall? calls with
  | some s => return s
  | none =>
    if isName cs && cs != ['z'] then return .reference (ofList (baseName cs))
    else match ← factoryShape? calls with
      | some s => return s
      | none => return .unknown (ofList cs)

/-- The values of an enumeration that is written as a schema. -/
def enumValues (body : List Char) : Except Fault (List Value) := do
  match ← classify body with
  | .enumeration vs => return vs
  | _ => return []

/-! ### Declarations -/

/-- A constant that is set to a schema; group 1 is its name. -/
def constantHead : Pattern :=
  .wordEdge ++ maybe (text "export" ++ blanks1) ++ text "const" ++ blanks1 ++
  .group 1 (.one isStart ++ .run isPart) ++ blanks ++
  maybe (char ':' ++ run1 (· != '=')) ++ char '=' ++ blanks ++ .ahead (text "z.")

def nextStatement : Pattern :=
  char '\n' ++ .run (fun c => c == ' ' || c == '\t') ++ maybe (text "export" ++ blanks1) ++
  (text "const" <|> text "let" <|> text "var" <|> text "type" <|> text "interface" <|>
    text "function" <|> text "import") ++ .wordEdge

def routerHead : Pattern :=
  .wordEdge ++ text "router" ++ blanks ++ char '(' ++ blanks ++ char '{'

/-- A constant that is an object schema declares an object, every other one an alias. -/
def constant (m : Found) : Except Fault Declaration := do
  let n := TypeScript.statementLength tracked nextStatement m.stop
  let body := Text.trim (m.stop.rest.take n)
  let name : Scalar := .text (ofList (baseName (m.getD 1)))
  let inner := match chain body with
    | [_, made] => if made.name == "object" then
        made.args.bind fun args => enclosed? '{' (Text.trim args) else none
    | _ => none
  match inner with
  | some inner => return { name, body := .object (← fields inner) }
  | none => return { name, body := .synonym (.text body) }

/-- The kind of a procedure, and its input. -/
def procedure? (chunk : List Char) : Option Declaration := do
  let (name, rest) ← leading? isPart chunk
  match Text.trimStart rest with
  | ':' :: definition =>
    let calls := chain (Text.trim definition)
    let kind ← ["mutation", "subscription", "query"].find? fun k =>
      calls.any fun c => c.name == k
    let input := calls.findSome? fun c => if c.name == "input" then c.given? else none
    some {
      name := .text (ofList name)
      body := .synonym (.text (Text.trim (input.getD [])))
      attributes := [.procedure kind, .hasInput input.isSome] }
  | _ => none

/-- The procedures of the first router. -/
def procedures (cs : List Char) : Logged Diagnostic (List Declaration) :=
  match routerHead.search? (.start cs) with
  | none => pure []
  | some m =>
    match group? ('{' :: m.stop.rest) with
    | none => do
      Logged.record (.unbalancedDelimiter "router" "\x7b")
      return []
    | some (body, _) => pure ((arguments body).filterMap procedure?)

/-- The schema constants of a source, and after them the procedures of its router. -/
def extract (source : List Char) : Logged Diagnostic Document := do
  let cs := CommentMarks.strip {} source
  let constants ← Logged.lift ((constantHead.all cs).mapM constant)
  return { declarations := constants ++ (← procedures cs) }

end Crosswalk.Zod
