import Crosswalk.CommandLine.Arguments
import Crosswalk.Converter

/-!
A run of the command: which files it reads, what it prints, and what it writes. The contents of
files and of the standard input are given, so that a run is a function of them.
-/

namespace Crosswalk.CommandLine

def program : String := "schema-transpiler"

/-- The text that a reader sees: every line ends with a line feed. -/
def unifyLineEnds : List Char → List Char
  | [] => []
  | '\r' :: '\n' :: cs => '\n' :: unifyLineEnds cs
  | '\r' :: cs => '\n' :: unifyLineEnds cs
  | c :: cs => c :: unifyLineEnds cs

/-- A path without its empty parts and its single dots. -/
def plainPath (path : String) : String :=
  let cs := path.toList
  let parts := (Text.parts ['/'] cs).filter fun p => !p.isEmpty && p != ['.']
  let joined := ['/'].intercalate parts
  if Text.startsWith ['/'] cs then String.ofList ('/' :: joined)
  else if joined.isEmpty then "." else String.ofList joined

/-- What a run can see. -/
structure World where
  /-- The content of a file, if there is one at a path. -/
  file? : String → Option String
  standardInput : String

/-- What a run leaves behind. -/
structure Outcome where
  exitCode : Nat
  output : String := ""
  messages : String := ""
  /-- A file that is to be written: its path and its content. -/
  written : Option (String × String) := none
deriving Repr, DecidableEq

/-- Why a run gives no outcome of its own. -/
inductive Halt where
  | usage (i : Interruption)
  | missingInput (path : String)
  | fault (f : Fault)
deriving Repr, DecidableEq

/-- One line for each converter; the descriptions stand in a column. -/
def listing : String :=
  String.join (Converter.all.map fun c =>
    c.name ++ String.ofList (List.replicate (20 - c.name.length) ' ') ++ " " ++ c.description ++
      "\n")

def synopsis : String :=
  "usage: " ++ program ++ " [-h] [-o OUTPUT] [--config FILE] [--list] [-v]\n" ++
  "                         [converter] [input]\n"

def helpText : String :=
  synopsis ++ "\nConvert schema definitions between formats\n" ++
  "\npositional arguments:\n" ++
  "  converter             Converter name (see --list)\n" ++
  "  input                 Input file (default: stdin)\n" ++
  "\noptions:\n" ++
  "  -h, --help            show this help message and exit\n" ++
  "  -o OUTPUT, --output OUTPUT\n" ++
  "                        Output file (default: stdout)\n" ++
  "  --config FILE         JSON file overriding the converter limits\n" ++
  "  --list                List available converters and exit\n" ++
  "  -v, --verbose         Debug logging and per-warning detail\n"

/-- What is printed about arguments that are refused, without the synopsis. -/
def errorLine (e : UsageError) : String := program ++ ": error: " ++ e.message

/-- A run that ends before anything is converted. -/
def failed (message : String) : Outcome :=
  { exitCode := 2, messages := "Error: " ++ message ++ "\n" }

/-- An empty text counts as an argument that was not given. -/
def given (a : Option String) : Option String := a.filter fun s => s != ""

/-- The overrides that a file holds. -/
def overrides (w : World) (path : String) : Except String Value :=
  match w.file? path with
  | none => .error ("[Errno 2] No such file or directory: " ++ Text.quoted (plainPath path))
  | some content =>
    let source := unifyLineEnds content.toList
    match Json.read source with
    | .error e => .error (e.message source)
    | .ok (.map es) => .ok (.map es)
    | .ok _ => .error (path ++ ": config must be a JSON object")

/-- The settings for a run: those of the converter, with the overrides of a file. A refusal is an
outcome, any other fault is not. -/
def settings (w : World) (base : Settings) : Option String → Except Fault (Except String Settings)
  | none => .ok (.ok base)
  | some path =>
    match overrides w path with
    | .error message => .ok (.error message)
    | .ok data =>
      match base.override data with
      | .ok s => .ok (.ok s)
      | .error (.invalid message) => .ok (.error message)
      | .error f => .error f

def source (w : World) : Option String → Except Halt (List Char)
  | none => .ok (unifyLineEnds w.standardInput.toList)
  | some path =>
    match w.file? path with
    | some content => .ok (unifyLineEnds content.toList)
    | none => .error (.missingInput path)

/-- Convert and report; the warnings are printed before the result. -/
def convert (a : Arguments) (c : Conversion) (source : List Char) : Outcome :=
  let (result, collected) := c.convert { verbose := a.verbose } source
  match result.diagnostic, given a.output with
  | some d, _ =>
    { exitCode := 1, messages := collected.report ++ "Error: " ++ d.display ++ "\n" }
  | none, some path =>
    { exitCode := 0, messages := collected.report ++ "Written: " ++ path ++ "\n"
      written := some (path, result.output) }
  | none, none => { exitCode := 0, output := result.output, messages := collected.report }

/-- Run the command with arguments that have been read. -/
def perform (w : World) (a : Arguments) : Except Halt Outcome := do
  if a.list then return { exitCode := 0, output := listing }
  match given a.converter with
  | none => throw (.usage (.refused .missingConverter))
  | some name =>
    match Converter.find name with
    | .error (.invalid message) => return failed message
    | .error f => throw (.fault f)
    | .ok converter =>
      match settings w converter.conversion.settings (given a.config) with
      | .error f => throw (.fault f)
      | .ok (.error message) => return failed message
      | .ok (.ok s) =>
        return convert a { converter.conversion with settings := s }
          (← source w (given a.input))

/-- Run the command. -/
def run (w : World) (texts : List String) : Except Halt Outcome :=
  match Arguments.read texts with
  | .error i => .error (.usage i)
  | .ok a => perform w a

end Crosswalk.CommandLine
