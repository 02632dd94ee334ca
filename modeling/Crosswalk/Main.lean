import Crosswalk.CommandLine.Session

/-!
The command itself: it reads the files that its arguments name and prints what a run leaves behind.
-/

namespace Crosswalk.CommandLine

/-- The content of a file, if it can be read. -/
def contentOf (path : String) : IO (Option String) := do
  try return some (← IO.FS.readFile path) catch _ => return none

/-- What can be seen of the files that the arguments name. -/
def worldFor (a : Arguments) : IO World := do
  let config ← (given a.config).mapM contentOf
  let input ← (given a.input).mapM contentOf
  let standardInput ← if (given a.input).isSome || a.list then pure ""
    else (← IO.getStdin).readToEnd
  return {
    file? := fun path =>
      if a.config = some path then config.join else if a.input = some path then input.join else none
    standardInput }

def finish (o : Outcome) : IO UInt32 := do
  IO.eprint o.messages
  IO.print o.output
  if let some (path, content) := o.written then IO.FS.writeFile path content
  return o.exitCode.toUInt32

def halt : Halt → IO UInt32
  | .usage .help => do
    IO.print helpText
    return 0
  | .usage (.refused e) => do
    IO.eprintln (synopsis ++ errorLine e)
    return 2
  | .missingInput path => do
    IO.eprintln ("No such file or directory: " ++ Text.quoted path)
    return 1
  | .fault f => do
    IO.eprintln f.label
    return 1

end Crosswalk.CommandLine

open Crosswalk.CommandLine in
def main (texts : List String) : IO UInt32 := do
  match Arguments.read texts with
  | .error i => halt (.usage i)
  | .ok a =>
    match perform (← worldFor a) a with
    | .ok o => finish o
    | .error h => halt h
