import Crosswalk.Number.Reading
import Crosswalk.Text.LetterCase
import Crosswalk.Text.Pattern
import Crosswalk.Text.Segment
import Crosswalk.Yaml.Problem

/-!
What a YAML scalar stands for. An untagged plain scalar gets its tag from its text: a truth value, a
number, a date or null if it is written like one, and text otherwise.
-/

namespace Crosswalk.Yaml

inductive Tag where
  | null | bool | int | float | binary | timestamp | text
  | sequence | mapping | orderedMap | pairs | set
  | merge | value
  | other (name : String)
deriving Repr, DecidableEq

namespace Tag

def core (name : String) : String := "tag:yaml.org,2002:" ++ name

def name : Tag → String
  | null => core "null"
  | bool => core "bool"
  | int => core "int"
  | float => core "float"
  | binary => core "binary"
  | timestamp => core "timestamp"
  | text => core "str"
  | sequence => core "seq"
  | mapping => core "map"
  | orderedMap => core "omap"
  | pairs => core "pairs"
  | set => core "set"
  | merge => core "merge"
  | value => core "value"
  | other s => s

def vocabulary : List Tag :=
  [null, bool, int, float, binary, timestamp, text, sequence, mapping, orderedMap, pairs, set,
    merge, value]

def ofName (s : String) : Tag := (vocabulary.find? fun t => t.name == s).getD (other s)

end Tag

/-! ### Tags told from the text -/

namespace Plain

open Text Text.Pattern

def digit (c : Char) : Bool := '0' ≤ c && c ≤ '9'

def digitOrScore (c : Char) : Bool := digit c || c == '_'

def sign : Pattern := maybe (.one fun c => c == '-' || c == '+')

/-- Digits of which the first is one of a class. -/
def digitsFrom (p : Char → Bool) : Pattern := .one p ++ .run digitOrScore

/-- The parts to the base sixty after the first. -/
def sixtieths : Pattern :=
  plus (char ':' ++ maybe (.one fun c => '0' ≤ c && c ≤ '5') ++ .one digit)

def exponent : Pattern :=
  maybe (.one (fun c => c == 'e' || c == 'E') ++ .one (fun c => c == '-' || c == '+') ++
    run1 digit)

def oneOf (names : List String) : Pattern :=
  names.foldr (fun n p => text n <|> p) (.one fun _ => false)

def floatForm : Pattern :=
  (sign ++ digitsFrom digit ++ char '.' ++ .run digitOrScore ++ exponent ++ .textEnd) <|>
  (char '.' ++ digitsFrom digit ++ exponent ++ .textEnd) <|>
  (sign ++ digitsFrom digit ++ sixtieths ++ char '.' ++ .run digitOrScore ++ .textEnd) <|>
  (sign ++ oneOf [".inf", ".Inf", ".INF"] ++ .textEnd) <|>
  (oneOf [".nan", ".NaN", ".NAN"] ++ .textEnd)

def nonzero (c : Char) : Bool := '1' ≤ c && c ≤ '9'

def intForm : Pattern :=
  (sign ++ text "0b" ++ run1 (fun c => c == '0' || c == '1' || c == '_') ++ .textEnd) <|>
  (sign ++ char '0' ++ run1 (fun c => ('0' ≤ c && c ≤ '7') || c == '_') ++ .textEnd) <|>
  (sign ++ (char '0' <|> digitsFrom nonzero) ++ .textEnd) <|>
  (sign ++ text "0x" ++
    run1 (fun c => digitOrScore c || ('a' ≤ c && c ≤ 'f') || ('A' ≤ c && c ≤ 'F')) ++
    .textEnd) <|>
  (sign ++ digitsFrom nonzero ++ sixtieths ++ .textEnd)

def boolForm : Pattern :=
  oneOf ["yes", "Yes", "YES", "no", "No", "NO", "true", "True", "TRUE", "false", "False", "FALSE",
    "on", "On", "ON", "off", "Off", "OFF"] ++ .textEnd

def nullForm : Pattern := (oneOf ["~", "null", "Null", "NULL"] <|> .empty) ++ .textEnd

def oneOrTwo : Pattern := .one digit ++ maybe (.one digit)

def two : Pattern := .one digit ++ .one digit

def four : Pattern := two ++ two

def gap (c : Char) : Bool := c == ' ' || c == '\t'

/-- A time of day. Its parts are kept as groups 4 to 7, the zone as 8 to 11. -/
def clock : Pattern :=
  (.one (fun c => c == 'T' || c == 't') <|> run1 gap) ++
  .group 4 oneOrTwo ++ char ':' ++ .group 5 two ++ char ':' ++ .group 6 two ++
  maybe (char '.' ++ .group 7 (.run digit)) ++
  maybe (.run gap ++ .group 8 (char 'Z' <|>
    (.group 9 (.one fun c => c == '-' || c == '+') ++ .group 10 oneOrTwo ++
      maybe (char ':' ++ .group 11 two))))

/-- A date with groups 1 to 3, and a time of day. -/
def dateAndClock (time : Pattern) : Pattern :=
  .group 1 four ++ char '-' ++ .group 2 oneOrTwo ++ char '-' ++ .group 3 oneOrTwo ++ time ++
    .textEnd

/-- A date alone has two digits for month and day. -/
def timestampForm : Pattern :=
  (four ++ char '-' ++ two ++ char '-' ++ two ++ .textEnd) <|> dateAndClock clock

def isForm (p : Pattern) (cs : List Char) : Bool := (p.matchStart? cs).isSome

/-- The tag of an untagged plain scalar. -/
def tag (s : String) : Tag :=
  let cs := s.toList
  if isForm boolForm cs then .bool
  else if isForm floatForm cs then .float
  else if isForm intForm cs then .int
  else if isForm (text "<<" ++ .textEnd) cs then .merge
  else if isForm nullForm cs && cs != ['\n'] then .null
  else if isForm timestampForm cs then .timestamp
  else if isForm (char '=' ++ .textEnd) cs then .value
  else if isForm (oneOf ["!", "&", "*"] ++ .textEnd) cs then .other (Tag.core "yaml")
  else .text

end Plain

/-! ### Values of scalars -/

namespace ScalarValue

def refuse {α : Type} (f : Fault) : Except Failure α := .error (.fault f)

def read {α : Type} (x : Option α) : Except Failure α :=
  match x with
  | some a => .ok a
  | none => refuse .unreadableNumber

def withoutScores (s : String) : List Char := s.toList.filter (· != '_')

/-- The sign of a number that must not be empty. -/
def signOf : List Char → Except Failure (Bool × List Char)
  | [] => refuse .tooShort
  | cs => .ok (Number.splitSign cs)

def signed (negative : Bool) (i : Int) : Int := if negative then -i else i

/-- An integer; parts between colons are to the base sixty. -/
def int (s : String) : Except Failure Int := do
  let (negative, cs) ← signOf (withoutScores s)
  match cs with
  | ['0'] => return 0
  | '0' :: 'b' :: rest => return signed negative (← read (Number.integer? 2 rest))
  | '0' :: 'x' :: rest => return signed negative (← read (Number.integer? 16 rest))
  | '0' :: _ => return signed negative (← read (Number.integer? 8 cs))
  | [] => refuse .tooShort
  | _ =>
    if cs.contains ':' then
      let parts ← (Text.parts [':'] cs).mapM fun p => read (Number.integer? 10 p)
      return signed negative (parts.foldl (fun n d => n * 60 + d) 0)
    else return signed negative (← read (Number.integer? 10 cs))

/-- The sum of parts to the base sixty, the last part first, each step rounded. -/
def sumOfSixtieths (parts : List Binary64) : Binary64 :=
  (parts.reverse.foldl
    (fun (acc : Binary64 × Nat) d =>
      (acc.1.add (d.mul (Binary64.ofInt (Int.ofNat acc.2))), acc.2 * 60))
    (Binary64.zero false, 1)).1

def float (s : String) : Except Failure Binary64 := do
  let (negative, cs) ← signOf (Text.lower (withoutScores s))
  let apply (x : Binary64) : Binary64 := if negative then x.neg else x
  if cs == ".inf".toList then return .infinity negative
  else if cs == ".nan".toList then return .nan
  else if cs.contains ':' then
    let parts ← (Text.parts [':'] cs).mapM fun p => read (Number.float? p)
    return apply (sumOfSixtieths parts)
  else return apply (← read (Number.float? cs))

def bool (s : String) : Except Failure Bool :=
  let name := String.ofList (Text.lower s.toList)
  if ["yes", "true", "on"].contains name then .ok true
  else if ["no", "false", "off"].contains name then .ok false
  else refuse .noSuchEntry

def isLeap (year : Nat) : Bool := year % 4 == 0 && (year % 100 != 0 || year % 400 == 0)

def daysIn (year month : Nat) : Nat :=
  match month with
  | 2 => if isLeap year then 29 else 28
  | 4 | 6 | 9 | 11 => 30
  | _ => 31

def isDate (d : CalendarDate) : Bool :=
  1 ≤ d.year && 1 ≤ d.month && d.month ≤ 12 && 1 ≤ d.day && d.day ≤ daysIn d.year d.month

/-- Six digits of a fraction of a second. -/
def microseconds (fraction : List Char) : Nat :=
  let six := fraction.take 6
  Number.ofDigits 10 ((six ++ List.replicate (6 - six.length) '0').map fun c => c.toNat - 48)

/-- A date, or a moment if a time of day is given. -/
def timestamp (s : String) : Except Failure Scalar := do
  match (Plain.dateAndClock (Text.Pattern.maybe Plain.clock)).matchStart? s.toList with
  | none => refuse .noSuchPart
  | some m =>
    let number (n : Nat) : Nat := Number.ofDigits 10 ((m.getD n).map fun c => c.toNat - 48)
    let date : CalendarDate := ⟨number 1, number 2, number 3⟩
    match m.get? 4 with
    | none => if isDate date then return .date date else refuse .unreadableNumber
    | some _ =>
      let span : Int := Int.ofNat (number 10 * 60 + number 11)
      let offset := match m.get? 9 with
        | some sign => some (if sign == ['-'] then -span else span)
        | none => (m.get? 8).map fun _ => (0 : Int)
      let moment : Moment :=
        ⟨date, number 4, number 5, number 6, microseconds (m.getD 7), offset⟩
      if isDate date && moment.hour < 24 && moment.minute < 60 && moment.second < 60 &&
          offset.all (fun o => o.natAbs < 1440) then
        return .moment moment
      else refuse .unreadableNumber

/-! ### Binary data -/

def sixBits? (c : Char) : Option Nat :=
  if 'A' ≤ c && c ≤ 'Z' then some (c.toNat - 65)
  else if 'a' ≤ c && c ≤ 'z' then some (c.toNat - 71)
  else if '0' ≤ c && c ≤ '9' then some (c.toNat + 4)
  else if c == '+' then some 62
  else if c == '/' then some 63
  else none

/-- A group of four that is being collected: how many characters it has, its bits that have not
been written, and the padding met in it. -/
structure Quad where
  count : Nat := 0
  bits : Nat := 0
  padding : Nat := 0

/-- Decode groups of four characters; characters outside the alphabet are passed over. -/
def decodeFrom (q : Quad) (out : List Nat) : List Char → Except Failure (List Nat)
  | [] =>
    if q.count == 0 then .ok out.reverse
    else if q.count == 1 then
      let n := Nat.repr (out.length / 3 * 4 + 1)
      .error (.problem (.undecodableBinary
        (s!"Invalid base64-encoded string: number of data characters ({n}) " ++
          "cannot be 1 more than a multiple of 4")))
    else .error (.problem (.undecodableBinary "Incorrect padding"))
  | '=' :: cs =>
    if 2 ≤ q.count && 4 ≤ q.count + q.padding + 1 then .ok out.reverse
    else decodeFrom { q with padding := q.padding + 1 } out cs
  | c :: cs =>
    match sixBits? c with
    | none => decodeFrom q out cs
    | some v =>
      match q.count with
      | 0 => decodeFrom { count := 1, bits := v } out cs
      | 1 => decodeFrom { count := 2, bits := v % 16 } ((q.bits * 4 + v / 16) :: out) cs
      | 2 => decodeFrom { count := 3, bits := v % 4 } ((q.bits * 16 + v / 4) :: out) cs
      | _ => decodeFrom {} ((q.bits * 64 + v) :: out) cs

/-- What is wrong with text that must be ASCII. -/
def describeNonAscii (cs : List Char) : String :=
  let start := (cs.takeWhile fun c => c.toNat < 128).length
  let wrong := (cs.drop start).takeWhile fun c => 128 ≤ c.toNat
  let place := match wrong with
    | [c] =>
      let shown := "'" ++ String.ofList (Text.escapeCode c) ++ "'"
      "character " ++ shown ++ " in position " ++ Nat.repr start
    | _ => "characters in position " ++ Nat.repr start ++ "-" ++
        Nat.repr (start + wrong.length - 1)
  "'ascii' codec can't encode " ++ place ++ ": ordinal not in range(128)"

def binary (s : String) : Except Failure (List Nat) :=
  if s.toList.all fun c => c.toNat < 128 then decodeFrom {} [] s.toList
  else .error (.problem (.unreadableBinary (describeNonAscii s.toList)))

/-- The value of a scalar with a tag. -/
def ofTag (tag : Tag) (s : String) : Except Failure Scalar :=
  match tag with
  | .null => .ok .null
  | .bool => (bool s).map .bool
  | .int => (int s).map .int
  | .float => (float s).map .float
  | .binary => (binary s).map .bytes
  | .timestamp => timestamp s
  | .text => .ok (.text s)
  | t => .error (.problem (.unknownTag t.name))

end ScalarValue

end Crosswalk.Yaml
