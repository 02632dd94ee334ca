import Crosswalk.Text.Digit
import Crosswalk.Text.Segment
import Crosswalk.Value.Display

/-!
The arguments of the command: two names, which stand together, and options before or after them. A
long option may be shortened as long as it stays unique, short options may share a dash, and what
follows `--` is no option.
-/

namespace Crosswalk.CommandLine

open String (ofList)

inductive Flag where
  | help | output | config | list | verbose
deriving Repr, DecidableEq

namespace Flag

/-- The ways to write an option, in the order in which they are listed. -/
def spellings : Flag → List String
  | help => ["-h", "--help"]
  | output => ["-o", "--output"]
  | config => ["--config"]
  | list => ["--list"]
  | verbose => ["-v", "--verbose"]

def all : List Flag := [help, output, config, list, verbose]

/-- An option is followed by a value. -/
def takesValue : Flag → Bool
  | output | config => true
  | _ => false

/-- Every spelling with its option. -/
def table : List (List Char × Flag) :=
  all.flatMap fun f => f.spellings.map fun s => (s.toList, f)

def ofSpelling? (cs : List Char) : Option Flag :=
  (table.find? fun e => e.1 == cs).map Prod.snd

/-- The long options that a text is the start of. -/
def candidates (cs : List Char) : List (List Char × Flag) :=
  table.filter fun e => Text.startsWith cs e.1

end Flag

/-- Why the arguments are refused. -/
inductive UsageError where
  | missingConverter
  | missingValue (flag : Flag)
  | needlessValue (flag : Flag) (value : List Char)
  | ambiguous (argument : List Char) (candidates : List (List Char))
  | unrecognized (arguments : List (List Char))
deriving Repr, DecidableEq

namespace UsageError

def argument (f : Flag) : String := "argument " ++ "/".intercalate f.spellings ++ ": "

def message : UsageError → String
  | missingConverter => "a converter name is required (see --list)"
  | missingValue f => argument f ++ "expected one argument"
  | needlessValue f v =>
    argument f ++ "ignored explicit argument " ++ Text.quoted (ofList v)
  | ambiguous a cs =>
    "ambiguous option: " ++ ofList a ++ " could match " ++
      ", ".intercalate (cs.map ofList)
  | unrecognized as => "unrecognized arguments: " ++ " ".intercalate (as.map ofList)

end UsageError

/-- What an argument is, taken by itself. -/
inductive Word where
  | name (cs : List Char)
  /-- The mark after which everything is a name. -/
  | divider
  | unknown (cs : List Char)
  /-- A long option, with the value that is attached to it. -/
  | long (flag : Flag) (attached : Option (List Char))
  /-- A short option, with what follows it behind the same dash; `marked` says that an equals sign
  stands between. -/
  | short (flag : Flag) (marked : Bool) (attached : Option (List Char))
deriving Repr, DecidableEq

namespace Word

/-- A number below zero is a name. -/
def isNegativeNumber (cs : List Char) : Bool :=
  match Text.dropFinalNewline cs with
  | '-' :: rest =>
    let after := rest.dropWhile Text.isDecimal
    match after with
    | [] => !rest.isEmpty
    | '.' :: fraction => !fraction.isEmpty && fraction.all Text.isDecimal
    | _ => false
  | _ => false

/-- What starts with a dash and is no option. -/
def other (cs : List Char) : Word :=
  if isNegativeNumber cs || cs.contains ' ' then name cs else unknown cs

/-- A text that starts with two dashes; a value may be attached with an equals sign. -/
def ofLong (cs : List Char) : Except UsageError Word :=
  let (start, attached) := match Text.breakOn? ['='] cs with
    | some (start, value) => (start, some value)
    | none => (cs, none)
  match Flag.ofSpelling? start, Flag.candidates start with
  | some f, _ => .ok (long f attached)
  | none, [] => .ok (other cs)
  | none, [(_, f)] => .ok (long f attached)
  | none, several => .error (.ambiguous cs (several.map Prod.fst))

/-- A text that starts with one dash and a letter. -/
def ofShort (c : Char) (rest : List Char) : Word :=
  match Flag.ofSpelling? ['-', c], rest with
  | some f, [] => short f false none
  | some f, '=' :: value => short f true (some value)
  | some f, attached => short f false (some attached)
  | none, _ => other ('-' :: c :: rest)

def ofText (cs : List Char) : Except UsageError Word :=
  match cs with
  | '-' :: '-' :: _ => ofLong cs
  | '-' :: c :: rest => .ok (ofShort c rest)
  | _ => .ok (name cs)

/-- All arguments; behind the divider they are names. -/
def ofTexts : List (List Char) → Except UsageError (List Word)
  | [] => .ok []
  | cs :: rest =>
    if cs = ['-', '-'] then .ok (divider :: rest.map name)
    else do
      let word ← ofText cs
      return word :: (← ofTexts rest)

end Word

/-- What the arguments say. -/
structure Arguments where
  converter : Option String := none
  input : Option String := none
  output : Option String := none
  config : Option String := none
  list : Bool := false
  verbose : Bool := false
deriving Repr, DecidableEq

/-- The arguments ask for the help text, or are refused. -/
inductive Interruption where
  | help
  | refused (e : UsageError)
deriving Repr, DecidableEq

namespace Arguments

/-- Take account of an option without a value. -/
def switch (a : Arguments) : Flag → Except Interruption Arguments
  | .help => .error .help
  | .list => .ok { a with list := true }
  | .verbose => .ok { a with verbose := true }
  | .output | .config => .ok a

def assign (a : Arguments) (value : List Char) : Flag → Arguments
  | .output => { a with output := some (ofList value) }
  | .config => { a with config := some (ofList value) }
  | .help | .list | .verbose => a

end Arguments

/-- How a group of short options ends. -/
inductive ClusterEnd where
  | complete
  | value (flag : Flag) (cs : List Char)
  | needsValue (flag : Flag)
  | unknown (cs : List Char)
deriving Repr, DecidableEq

/-- The options behind one dash: those without a value, and what comes last. -/
structure Cluster where
  switches : List Flag
  ending : ClusterEnd
deriving Repr, DecidableEq

namespace Cluster

/-- An option with nothing behind it. -/
def single (f : Flag) : Cluster :=
  if f.takesValue then ⟨[], .needsValue f⟩ else ⟨[f], .complete⟩

/-- An option and the text behind it, which is its value or holds more options. -/
def read (f : Flag) (marked : Bool) : List Char → Except UsageError Cluster
  | [] => if f.takesValue then .ok ⟨[], .value f []⟩ else .error (.needlessValue f [])
  | c :: rest =>
    if f.takesValue then .ok ⟨[], .value f (c :: rest)⟩
    else if marked || c == '-' then .error (.needlessValue f (c :: rest))
    else match Flag.ofSpelling? ['-', c] with
      | none => .ok ⟨[f], .unknown ('-' :: c :: rest)⟩
      | some g => do
        let next ← match rest with
          | [] => pure (single g)
          | '=' :: value => read g true value
          | attached => read g false attached
        return { next with switches := f :: next.switches }

end Cluster

/-- How far the names have been read. They have to stand together, so that an option after the first
one closes them. -/
inductive Stage where
  | fresh | afterConverter | afterInput | closed
deriving Repr, DecidableEq

structure Reading where
  arguments : Arguments := {}
  stage : Stage := .fresh
  extras : List (List Char) := []
  /-- An option that waits for its value, with the options that stand before it in its group. -/
  waiting : Option (List Flag × Flag) := none
deriving Repr, DecidableEq

namespace Reading

def refuse {α : Type} (e : UsageError) : Except Interruption α := .error (.refused e)

/-- An option ends the names, once one has been read. -/
def passOption (r : Reading) : Reading :=
  { r with stage := if r.stage = .fresh then .fresh else .closed }

def name (r : Reading) (cs : List Char) : Reading :=
  match r.stage with
  | .fresh =>
    { r with stage := .afterConverter
             arguments := { r.arguments with converter := some (ofList cs) } }
  | .afterConverter =>
    { r with stage := .afterInput
             arguments := { r.arguments with input := some (ofList cs) } }
  | .afterInput | .closed => { r with stage := .closed, extras := r.extras ++ [cs] }

def divider (r : Reading) : Reading :=
  match r.stage with
  | .closed => { r with extras := r.extras ++ [['-', '-']] }
  | _ => r

def switches (r : Reading) (fs : List Flag) : Except Interruption Reading := do
  return { r with arguments := ← fs.foldlM Arguments.switch r.arguments }

def cluster (r : Reading) (c : Cluster) : Except Interruption Reading :=
  match c.ending with
  | .complete => r.switches c.switches
  | .value f v => do
    let r ← r.switches c.switches
    return { r with arguments := r.arguments.assign v f }
  | .needsValue f => .ok { r with waiting := some (c.switches, f) }
  | .unknown cs => do
    let r ← r.switches c.switches
    return { r with extras := r.extras ++ [cs] }

def option (r : Reading) : Word → Except Interruption Reading
  | .name cs => .ok (r.name cs)
  | .divider => .ok r.divider
  | .unknown cs => .ok { r.passOption with extras := r.extras ++ [cs] }
  | .long f none | .short f _ none => r.passOption.cluster (.single f)
  | .long f (some v) =>
    if f.takesValue then r.passOption.cluster ⟨[], .value f v⟩ else refuse (.needlessValue f v)
  | .short f marked (some attached) =>
    match Cluster.read f marked attached with
    | .ok c => r.passOption.cluster c
    | .error e => refuse e

/-- Take account of a word: the value of the option before it, or a name or option of its own. -/
def step (r : Reading) (w : Word) : Except Interruption Reading :=
  match r.waiting, w with
  | none, w => r.option w
  | some (fs, f), .name v => do
    let r ← r.switches fs
    return { r with waiting := none, arguments := r.arguments.assign v f }
  | some (_, f), _ => refuse (.missingValue f)

def finish (r : Reading) : Except Interruption Arguments :=
  match r.waiting with
  | some (_, f) => refuse (.missingValue f)
  | none => if r.extras.isEmpty then .ok r.arguments else refuse (.unrecognized r.extras)

end Reading

/-- Read the arguments of the command. -/
def Arguments.read (texts : List String) : Except Interruption Arguments :=
  match Word.ofTexts (texts.map String.toList) with
  | .error e => .error (.refused e)
  | .ok words => do (← words.foldlM Reading.step {}).finish

end Crosswalk.CommandLine
