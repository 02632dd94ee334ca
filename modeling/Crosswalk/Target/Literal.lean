import Crosswalk.Json.Writer
import Crosswalk.Schema.Primitive
import Crosswalk.Target.Identifier

/-!
Values as literals of the output languages.
-/

namespace Crosswalk

namespace Literal

/-- A value as JSON on one line. -/
def json (v : Value) : Except Fault String :=
  match Json.line? v with
  | some s => .ok s
  | none => .error (Json.refusal v)

/-- A number, written without a fraction if it has none. -/
def number (v : Value) : Except Fault String :=
  match v with
  | .float x =>
    match x.toInt? with
    | some i => .ok (intText i)
    | none => v.printed
  | v => v.printed

/-- A literal of JavaScript. -/
def script (v : Value) : Except Fault String :=
  match v with
  | .bool b => .ok (if b then "true" else "false")
  | .null => .ok "null"
  | .int _ | .float _ => number v
  | v => json v

/-- A literal of JavaScript, in which integers that a number may not hold are big integers. -/
def exactScript (v : Value) : Except Fault String :=
  if isUnsafeInteger v then v.printed.map (· ++ "n") else script v

/-- An object key: bare if it is an identifier, and quoted otherwise. -/
def key (k : Scalar) : Except Fault String :=
  k.asText.map fun s => if Identifier.isValid s then s else Json.stringText s

/-- Escape slashes that no backslash precedes. -/
def escapeSlashes (previous : Option Char) : List Char → List Char
  | [] => []
  | c :: cs =>
    if c == '/' && previous != some '\\' then '\\' :: '/' :: escapeSlashes (some c) cs
    else c :: escapeSlashes (some c) cs

/-- A regular expression between slashes. -/
def regex (v : Value) : Except Fault String :=
  match v with
  | .text s => .ok ("/" ++ String.ofList (escapeSlashes none s.toList) ++ "/")
  | _ => .error .wrongKind

end Literal

/-- The unit of indentation. Any value can be one; what is not text or a number fails when it is
repeated. -/
structure Indent where
  unit : Value := .text "  "
deriving Repr

namespace Indent

/-- The unit taken `n` times. -/
def times (n : Nat) (i : Indent) : Except Fault Value :=
  match i.unit with
  | .text s => .ok (.text (String.join (List.replicate n s)))
  | .int k => .ok (.int (Int.ofNat n * k))
  | .bool b => .ok (.int (if b then Int.ofNat n else 0))
  | .float x => .ok (.float ((Binary64.ofInt (Int.ofNat n)).mul x))
  | .list vs => .ok (.list (List.replicate n vs).flatten)
  | _ => .error .wrongKind

/-- Indentation as it is shown before a line. -/
def shown (n : Nat) (i : Indent) : Except Fault String := do (← i.times n).printed

/-- Indentation that has to be text. -/
def text (i : Indent) : Except Fault String := do
  match ← i.times 1 with
  | .text s => return s
  | _ => throw .wrongKind

end Indent

end Crosswalk
