import Crosswalk.Fault
import Crosswalk.Number.Reading
import Crosswalk.Scan.Closer
import Crosswalk.Scan.Split
import Crosswalk.Text.WordCharacter

/-!
Identifiers and literals as they are written in source text: quoted text, numbers and truth values.
-/

namespace Crosswalk

namespace Identifier

def isStart (c : Char) : Bool :=
  ('a' ≤ c && c ≤ 'z') || ('A' ≤ c && c ≤ 'Z') || c == '_' || c == '$'

def isPart (c : Char) : Bool := Text.isWord c || c == '$'

/-- A letter, underscore or dollar sign, followed by word characters and dollar signs. -/
def isName : List Char → Bool
  | [] => false
  | c :: cs => isStart c && cs.all isPart

/-- The name at the start of a text, and what follows it. -/
def leading? (part : Char → Bool) : List Char → Option (List Char × List Char)
  | [] => none
  | c :: cs =>
    if isStart c then some (c :: cs.takeWhile part, cs.dropWhile part) else none

/-- Names may be followed by one newline. -/
def isNameLine (cs : List Char) : Bool := isName (Text.dropFinalNewline cs)

/-- Names joined by dots. -/
def isQualified (cs : List Char) : Bool := (Text.parts ['.'] cs).all isName

end Identifier

namespace Literal

def quotes : List Char := ['"', '\x27']

def quotesAndTemplate : List Char := ['"', '\x27', '\x60']

/-- The text inside a quoted literal, whose escaped quotes and backslashes are resolved. -/
def unquote : List Char → Except Fault (List Char)
  | [] => .error .tooShort
  | q :: cs =>
    .ok (Text.replaceAll ['\\', '\\'] ['\\'] (Text.replaceAll ['\\', q] [q] cs.dropLast))

/-- Drop a minus sign. -/
def unsigned : List Char → List Char
  | '-' :: cs => cs
  | cs => cs

/-- One or more decimal digits. -/
def isDigits (cs : List Char) : Bool := !cs.isEmpty && cs.all Text.isDecimal

def isInteger (cs : List Char) : Bool := isDigits (unsigned cs)

/-- What follows the exponent mark: an optional sign and digits. -/
def isExponent : List Char → Bool
  | '+' :: cs => isDigits cs
  | '-' :: cs => isDigits cs
  | cs => isDigits cs

/-- What may follow the digits of a number: nothing, or an exponent. -/
def isNumberEnd : List Char → Bool
  | [] => true
  | c :: cs => (c == 'e' || c == 'E') && isExponent cs

/-- Digits with an optional point and exponent; one of the two sides of the point may be empty. -/
def isNumber (cs : List Char) : Bool :=
  let body := unsigned cs
  let whole := body.takeWhile Text.isDecimal
  match body.dropWhile Text.isDecimal with
  | '.' :: rest =>
    let fraction := rest.takeWhile Text.isDecimal
    !(whole.isEmpty && fraction.isEmpty) && isNumberEnd (rest.dropWhile Text.isDecimal)
  | rest => !whole.isEmpty && isNumberEnd rest

/-- Digits followed by `n`. -/
def isBigInteger (cs : List Char) : Bool := cs.getLast? == some 'n' && isInteger cs.dropLast

def integer (cs : List Char) : Except Fault Value :=
  match Number.integer? 10 cs with
  | some i => .ok (.int i)
  | none => .error .unreadableNumber

/-- The value of quoted text, a number or a truth value. -/
def read? (cs : List Char) : Except Fault (Option Value) :=
  let cs := Text.trim cs
  if isStringLiteral quotes cs then (unquote cs).map fun s => some (.text (String.ofList s))
  else if isNumber cs then
    if isInteger cs then (integer cs).map some
    else match Number.float? cs with
      | some x => .ok (some (.float x))
      | none => .error .unreadableNumber
  else if isBigInteger cs then (integer cs.dropLast).map some
  else if cs == "true".toList then .ok (some (.bool true))
  else if cs == "false".toList then .ok (some (.bool false))
  else .ok none

def isTextValue : Value → Bool
  | .text _ => true
  | _ => false

def isNumberValue : Value → Bool
  | .int _ | .float _ => true
  | _ => false

/-- The values of parts that are all text or all numbers. -/
def enumeration? (parts : List (List Char)) : Except Fault (Option (List Value)) := do
  let values ← parts.mapM read?
  if values.isEmpty || values.any Option.isNone then return none
  else
    let values := values.filterMap id
    if values.all isTextValue || values.all isNumberValue then return some values else return none

end Literal

/-- Drop parentheses that enclose the whole text, at most `fuel` times. -/
def unwrapFrom : Nat → List Char → List Char
  | 0, cs => cs
  | fuel + 1, cs =>
    if cs.head? == some '(' && closer? cs == some (cs.length - 1) then
      unwrapFrom fuel (Text.trim (cs.drop 1).dropLast)
    else cs

/-- Drop parentheses that enclose the whole text. -/
def unwrapParens (cs : List Char) : List Char :=
  let cs := Text.trim cs
  unwrapFrom cs.length cs

/-- A text that one pair of delimiters encloses, without the pair. -/
def enclosed? (opener : Char) (cs : List Char) : Option (List Char) :=
  if cs.head? == some opener && closer? cs == some (cs.length - 1) then some (cs.drop 1).dropLast
  else none

end Crosswalk
