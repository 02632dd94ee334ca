import Crosswalk.Source.Literal
import Crosswalk.Text.LetterCase

/-!
Names in the output: identifiers, object keys, and the changes of case between naming styles.
-/

namespace Crosswalk

/-- A name that has to be text. -/
def Scalar.asText : Scalar → Except Fault String
  | .text s => .ok s
  | _ => .error .wrongKind

namespace Identifier

def isValid (s : String) : Bool := isNameLine s.toList

/-- Replace what cannot stand in an identifier. -/
def sanitize (s : String) : String :=
  if isValid s then s
  else
    match s.toList.map fun c => if isPart c then c else '_' with
    | [] => "_"
    | c :: cs => String.ofList (if Text.isDigit c then '_' :: c :: cs else c :: cs)

def sanitizeName (name : Scalar) : Except Fault String := name.asText.map sanitize

/-- Marks between the words of a name. -/
def dividesWords (c : Char) : Bool := c == '_' || c == '-' || c == '.' || Text.isBlank c

/-- The words of a name. -/
def wordsOf (s : String) : List (List Char) :=
  Text.words (s.toList.map fun c => if dividesWords c then ' ' else c)

def capitalize : List Char → List Char
  | [] => []
  | c :: cs => Text.upperChar c ++ cs

/-- The words of a name with capitals, joined: `user_profiles` becomes `UserProfiles`. -/
def pascalCase (s : String) : String := String.ofList ((wordsOf s).flatMap capitalize)

/-- Like `pascalCase`, with a small first letter. -/
def camelCase (s : String) : String :=
  match (pascalCase s).toList with
  | [] => ""
  | c :: cs => String.ofList (Text.lower [c] ++ cs)

/-- The singular of an English plural, by its ending. -/
def singular (s : String) : String :=
  let cs := s.toList
  let endsIn (mark : String) : Bool := Text.endsWith mark.toList cs
  if endsIn "ies" then String.ofList (cs.take (cs.length - 3) ++ ['y'])
  else if endsIn "ses" || endsIn "xes" then String.ofList (cs.take (cs.length - 2))
  else if endsIn "s" && !endsIn "ss" && !endsIn "us" then String.ofList cs.dropLast
  else s

end Identifier

end Crosswalk
