import Crosswalk.Schema.Shape
import Crosswalk.Source.Literal

/-!
Members of an object in source text: fields of the form `key: type`, and index signatures of the
form `[key: T]: type`.
-/

namespace Crosswalk

/-- The raw text of a type. -/
def Raw.asText : Raw → List Char
  | .text cs => cs
  | .node v => v.display.toList

namespace Member

/-- A quoted key up to its closing quote, and what follows. A backslash escapes any character but a
newline. -/
def quotedRest? (q : Char) (passed : List Char) : List Char → Option (List Char × List Char)
  | [] => none
  | '\\' :: c :: cs =>
    if c == '\n' then none else quotedRest? q (c :: '\\' :: passed) cs
  | c :: cs =>
    if c == q then some (passed.reverse, cs)
    else if c == '\\' then none
    else quotedRest? q (c :: passed) cs

/-- A key at the start of a text, with the quotes it is written in resolved. -/
def keyStart? (cs : List Char) : Option (List Char × List Char) :=
  match cs with
  | '"' :: rest => (quotedRest? '"' [] rest).map fun (k, after) => (unescape k, after)
  | '\x27' :: rest => (quotedRest? '\x27' [] rest).map fun (k, after) => (unescape k, after)
  | _ => Identifier.leading? (fun c => Identifier.isPart c || c == '-') cs
where
  unescape (k : List Char) : List Char :=
    Text.replaceAll ['\\', '\x27'] ['\x27'] (Text.replaceAll ['\\', '"'] ['"'] k)

/-- A whole key, and whether a question mark follows it. -/
def wholeKey? (cs : List Char) : Option (List Char × Bool) := do
  let (key, rest) ← keyStart? cs
  match Text.trimStart rest with
  | [] => some (key, false)
  | ['?'] => some (key, true)
  | _ => none

/-- A key, which `readonly` may precede. -/
def key? (cs : List Char) : Option (List Char × Bool) :=
  match Text.after? "readonly".toList cs with
  | some (c :: rest) =>
    if Text.isBlank c then (wholeKey? (Text.trimStart rest)).orElse fun _ => wholeKey? cs
    else wholeKey? cs
  | _ => wholeKey? cs

/-- A field: a key and a type around the first colon at the top level. -/
def field? (tracked line : List Char) : Option Field :=
  match splitFirstTop tracked [':'] line with
  | (_, none) => none
  | (left, some type) =>
    if type.isEmpty then none
    else (key? left).map fun (key, optional) =>
      { key := .text (String.ofList key), type := .text type, optional }

/-- Join lines to the ones they continue: a type may go on after `:`, `|` and `&`, and lines that
start with `|` or `&` go on with one. -/
def joinContinuations (lines : List (List Char)) : List (List Char) :=
  (lines.foldl
    (fun (acc : List (List Char)) line =>
      match acc with
      | [] => [line]
      | last :: before =>
        if line.head?.any (fun c => c == '|' || c == '&') ||
            last.getLast?.any (fun c => c == ':' || c == '|' || c == '&') then
          (last ++ ' ' :: line) :: before
        else line :: last :: before)
    []).reverse

/-- The lines of a body, one for each member. -/
def lines (tracked separators body : List Char) : List (List Char) :=
  joinContinuations (splitTopNonempty tracked separators body)

/-- The type of an index signature. -/
def indexType? (tracked line : List Char) : Option (List Char) :=
  match splitFirstTop tracked [':'] line with
  | (_, some type) => if type.isEmpty then none else some type
  | _ => none

/-- The fields of a body and the type of its last index signature. `readField` reads one line. -/
def readBody (tracked separators : List Char)
    (readField : List Char → Except Fault (Option Field)) (body : List Char) :
    Except Fault (List Field × Option (List Char)) := do
  let found ← (lines tracked separators body).foldlM
    (fun (acc : List Field × Option (List Char)) line => do
      if line.head? == some '[' then
        return (acc.1, (indexType? tracked line).orElse fun _ => acc.2)
      else match ← readField line with
        | some f => return (f :: acc.1, acc.2)
        | none => return acc)
    ([], none)
  return (found.1.reverse, found.2)

end Member

end Crosswalk
