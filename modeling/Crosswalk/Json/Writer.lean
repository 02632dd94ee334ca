import Crosswalk.Fault

/-!
Writing values as JSON text, on one line or with an indent. Dates, binary data and integers with too
many digits have no JSON form: a value that holds one is not written.
-/

namespace Crosswalk.Json

/-- A code unit as a numeric escape. -/
def unitEscape (n : Nat) : List Char := '\\' :: 'u' :: Text.hexDigits 4 n

/-- How a character stands inside a JSON string. Above ASCII it stands for itself unless `ascii`. -/
def escapeChar (ascii : Bool) (c : Char) : List Char :=
  if c == '"' then ['\\', '"']
  else if c == '\\' then ['\\', '\\']
  else if c == '\n' then ['\\', 'n']
  else if c == '\r' then ['\\', 'r']
  else if c == '\t' then ['\\', 't']
  else if c == '\x0c' then ['\\', 'f']
  else if c == '\x08' then ['\\', 'b']
  else if c.toNat < 0x20 then unitEscape c.toNat
  else if ascii && '~' < c then
    if c.toNat < 0x10000 then unitEscape c.toNat
    else
      let n := c.toNat - 0x10000
      unitEscape (0xD800 + n / 1024) ++ unitEscape (0xDC00 + n % 1024)
  else [c]

/-- The characters of a JSON string, with its quotes. -/
def stringChars (ascii : Bool) (cs : List Char) : List Char :=
  '"' :: (cs.flatMap (escapeChar ascii) ++ ['"'])

def stringText (s : String) (ascii : Bool := false) : String :=
  String.ofList (stringChars ascii s.toList)

/-- Numbers are laid out as usual, with the JSON extensions for the others. -/
def numberLayout : NumberLayout := { NumberLayout.plain with nan := "NaN", infinity := "Infinity" }

def scalarText? (ascii : Bool) : Scalar → Option String
  | .null => some "null"
  | .bool b => some (if b then "true" else "false")
  | .int i => if (Scalar.int i).hasText then some (intText i) else none
  | .float x => some (numberLayout.write x)
  | .text s => some (stringText s ascii)
  | .date _ | .moment _ | .bytes _ => none

/-- The text of a key before it is quoted. -/
def keyText? : Scalar → Option String
  | .text s => some s
  | s => scalarText? false s

/-- With an indent, each item and each entry stands on a line of its own. -/
structure Layout where
  ascii : Bool := false
  indent : Option String := none

namespace Layout

def lineBreak (l : Layout) (level : Nat) : String :=
  match l.indent with
  | none => ""
  | some pad => "\n" ++ String.join (List.replicate level pad)

def separator (l : Layout) (level : Nat) : String :=
  match l.indent with
  | none => ", "
  | some _ => "," ++ l.lineBreak level

/-- A collection whose members have been written. -/
def enclose (l : Layout) (level : Nat) (opening closing : String) (members : List String) :
    String :=
  if members.isEmpty then opening ++ closing
  else opening ++ l.lineBreak (level + 1) ++ (l.separator (level + 1)).intercalate members ++
    l.lineBreak level ++ closing

mutual

def write? (l : Layout) (level : Nat) : Value → Option String
  | .scalar s => scalarText? l.ascii s
  | .list vs => (writeItems? l (level + 1) vs).map (l.enclose level "[" "]")
  | .map es => (writeEntries? l (level + 1) es).map (l.enclose level "\x7b" "\x7d")

def writeItems? (l : Layout) (level : Nat) : List Value → Option (List String)
  | [] => some []
  | v :: vs =>
    match write? l level v, writeItems? l level vs with
    | some t, some ts => some (t :: ts)
    | _, _ => none

def writeEntries? (l : Layout) (level : Nat) : List (Scalar × Value) → Option (List String)
  | [] => some []
  | (k, v) :: es =>
    match keyText? k, write? l level v, writeEntries? l level es with
    | some key, some t, some ts => some ((stringText key l.ascii ++ ": " ++ t) :: ts)
    | _, _, _ => none

end

end Layout

/-- Why a value is not written: its first scalar without a JSON form decides. -/
def refusal (v : Value) : Fault :=
  match v.scalars.find? fun s => (scalarText? false s).isNone with
  | some (.int _) => .unreadableNumber
  | _ => .wrongKind

/-- A value on one line. -/
def line? (v : Value) (ascii : Bool := false) : Option String := { ascii : Layout }.write? 0 v

/-- A document with an indent of two spaces and a final newline. -/
def document? (v : Value) : Option String :=
  (({ indent := some "  " } : Layout).write? 0 v).map (· ++ "\n")

end Crosswalk.Json
