import Crosswalk.Value.Display

/-!
Problems found while a document is converted. An error leaves no usable output; a warning reports
that something was skipped or is typed as unknown.
-/

namespace Crosswalk

inductive Severity where
  | error | warning | info
deriving Repr, DecidableEq

def Severity.label : Severity → String
  | .error => "error"
  | .warning => "warning"
  | .info => "info"

inductive Problem where
  | syntaxUnrecognized
  | sizeLimitExceeded
  | unbalancedDelimiter
  | depthExceeded
  | unknownReference
  | numericRange
  | unsupportedConstruct
deriving Repr, DecidableEq

def Problem.label : Problem → String
  | .syntaxUnrecognized => "syntax-unrecognized"
  | .sizeLimitExceeded => "size-limit-exceeded"
  | .unbalancedDelimiter => "unbalanced-delimiter"
  | .depthExceeded => "depth-exceeded"
  | .unknownReference => "unknown-reference"
  | .numericRange => "numeric-range"
  | .unsupportedConstruct => "unsupported-construct"

structure Diagnostic where
  severity : Severity
  problem : Problem
  code : String
  message : String
  /-- The name of the declaration at hand, or the empty text. -/
  declaration : Scalar := .text ""
  construct : String
deriving Repr, DecidableEq

namespace Diagnostic

def display (d : Diagnostic) : String :=
  let place := if d.declaration.isTruthy then d.declaration.display ++ ": " else ""
  "[" ++ d.severity.label ++ "] " ++ place ++ d.message ++ " (" ++ d.code ++ ")"

/-- A problem that leaves no output. -/
def fatal (problem : Problem) (code message : String) : Diagnostic where
  severity := .error
  problem := problem
  code := code
  message := message
  construct := "document"

/-- No declaration was found. -/
def nothingFound (what : String) : Diagnostic :=
  fatal .syntaxUnrecognized "E001" s!"No {what} found in input."

/-- A structured document could not be read. -/
def invalidDocument (what detail : String) : Diagnostic :=
  fatal .syntaxUnrecognized "E001" s!"Input is not a valid {what}: {detail}"

/-- The input is longer than allowed; the limit is given as text. -/
def tooLarge (length : Nat) (limit : String) : Diagnostic :=
  let size := groupedDigits length
  fatal .sizeLimitExceeded "E002"
    s!"Input too large ({size} characters). Maximum allowed is {limit} characters."

/-- The conversion met a value that it cannot handle. -/
def conversionFailed (detail : String) : Diagnostic :=
  fatal .unsupportedConstruct "E099" s!"Conversion failed: {detail}"

def unbalancedDelimiter (name : String) (delimiter : String) : Diagnostic where
  severity := .warning
  problem := .unbalancedDelimiter
  code := "W001"
  message := s!"Declaration \"{name}\" was skipped: no closing delimiter for \"{delimiter}\"."
  declaration := .text name
  construct := "declaration"

def depthExceeded (limit : String) (declaration : Scalar) : Diagnostic where
  severity := .warning
  problem := .depthExceeded
  code := "W002"
  message := s!"Schema exceeds {limit} levels of nesting. Deeper nodes are typed as unknown."
  declaration := declaration
  construct := "nesting"

def unknownReference (name : String) (declaration : Scalar) : Diagnostic where
  severity := .warning
  problem := .unknownReference
  code := "W003"
  message := s!"Reference \"{name}\" is not declared in this document; typed as unknown."
  declaration := declaration
  construct := "reference"

def numericRange (value : String) (declaration : Scalar) : Diagnostic where
  severity := .warning
  problem := .numericRange
  code := "W004"
  message := s!"Integer {value} exceeds the safe integer range; " ++
    "consumers using float64 numbers will lose precision."
  declaration := declaration
  construct := "literal"

def unsupportedConstruct (construct detail : String) (declaration : Scalar) : Diagnostic where
  severity := .warning
  problem := .unsupportedConstruct
  code := "W099"
  message :=
    s!"Unsupported construct: {construct}" ++ (if detail == "" then "" else s!" ({detail})")
  declaration := declaration
  construct := construct

end Diagnostic

/-- Diagnostics in the order in which they were found. -/
structure Collector where
  verbose : Bool := false
  entries : List Diagnostic := []
deriving Repr

namespace Collector

def add (c : Collector) (ds : List Diagnostic) : Collector := { c with entries := c.entries ++ ds }

def clear (c : Collector) : Collector := { c with entries := [] }

def warnings (c : Collector) : List Diagnostic :=
  c.entries.filter fun d => d.severity == .warning

/-- Put a warning with the others about its construct. -/
def addToGroup (d : Diagnostic) : List (String × List Diagnostic) → List (String × List Diagnostic)
  | [] => [(if d.construct == "" then "other" else d.construct, [d])]
  | g :: gs =>
    if g.1 == (if d.construct == "" then "other" else d.construct) then (g.1, g.2 ++ [d]) :: gs
    else g :: addToGroup d gs

/-- The warnings by construct, in alphabetical order. -/
def groups (c : Collector) : List (String × List Diagnostic) :=
  (c.warnings.foldl (fun gs d => addToGroup d gs) []).mergeSort fun a b => a.1 ≤ b.1

/-- The report of the warnings: one line per construct and, if verbose, one per warning. -/
def report (c : Collector) : String :=
  if c.warnings.isEmpty then ""
  else
    let heading := "\nTranspiler warnings (" ++ Nat.repr c.warnings.length ++ "):\n"
    let sections := c.groups.map fun g =>
      "  " ++ g.1 ++ ": " ++ Nat.repr g.2.length ++ " occurrence(s)\n" ++
        (if c.verbose then String.join (g.2.map fun d => "    " ++ d.display ++ "\n") else "")
    heading ++ String.join sections

def summary (c : Collector) : String :=
  if c.entries.isEmpty then "No transpiler warnings."
  else
    let parts := c.groups.map fun g => Nat.repr g.2.length ++ " " ++ g.1
    "Transpiler warnings: " ++ ", ".intercalate parts

end Collector

end Crosswalk
