import Crosswalk.Target.Literal

/-!
Limits and layout of a conversion. A limit can be any number; a truth value counts as one or zero.
-/

namespace Crosswalk

namespace Scalar

/-- The greatest integer that is not above a number; none if there is no bound. Other scalars are
refused. -/
def floor? : Scalar → Except Fault (Option Int)
  | .bool b => .ok (some (if b then 1 else 0))
  | .int i => .ok (some i)
  | .float (.finite n m e) => .ok (some (Binary64.floor n m e))
  | .float _ => .ok none
  | _ => .error .wrongKind

/-- A number is below zero. -/
def isNegative : Scalar → Bool
  | .int i => i < 0
  | .float (.finite n m _) => n && m != 0
  | .float (.infinity n) => n
  | _ => false

def isZero (s : Scalar) : Bool := s.same (.int 0)

/-- A number with its digits in groups of three. -/
def grouped (s : Scalar) : String :=
  match s with
  | .bool b => if b then "1" else "0"
  | .int i => (if i < 0 then "-" else "") ++ groupedDigits i.natAbs
  | s =>
    let text := s.display.toList
    let whole := text.takeWhile fun c => '0' ≤ c && c ≤ '9'
    let rest := text.drop whole.length
    if whole.isEmpty || rest.contains 'e' then s.display
    else groupedDigits (Number.ofDigits 10 (whole.map fun c => c.toNat - 48)) ++ String.ofList rest

end Scalar

structure Settings where
  /-- Longer inputs are refused. -/
  maxInputLength : Scalar := .int 500000
  /-- Deeper types are unknown. -/
  maxDepth : Scalar := .int 32
  indent : Indent := {}
deriving Repr

namespace Settings

/-- The first limit has to be positive, the second must not be negative. -/
def check (s : Settings) : Except Fault Settings := do
  let _ ← s.maxInputLength.floor?
  if s.maxInputLength.isNegative || s.maxInputLength.isZero then
    throw (.invalid "max_input_length must be positive")
  let _ ← s.maxDepth.floor?
  if s.maxDepth.isNegative then throw (.invalid "max_depth must not be negative")
  return s

def keys : List String := ["max_input_length", "max_depth", "indent"]

def unknownKeys (names : List String) : List String :=
  ((names.filter fun k => !keys.contains k).eraseDups).mergeSort fun a b => a ≤ b

/-- A limit that has to be a number. -/
def limit : Value → Except Fault Scalar
  | .scalar s => .ok s
  | _ => .error .wrongKind

def textKey : Scalar → Option String
  | .text s => some s
  | _ => none

def refuseKeys {α : Type} (names : List String) : Except Fault α :=
  match unknownKeys names with
  | [] => .error .wrongKind
  | unknown => .error (.invalid ("Unknown config keys: " ++ ", ".intercalate unknown))

/-- Override settings by the entries of a mapping, which have to be known. -/
def override (base : Settings) (data : Value) : Except Fault Settings := do
  match data with
  | .map es =>
    let names := es.filterMap fun e => textKey e.1
    if !(unknownKeys names).isEmpty then refuseKeys names
    else
      let length ← match Value.lookup? "max_input_length" es with
        | some v => limit v
        | none => pure base.maxInputLength
      let depth ← match Value.lookup? "max_depth" es with
        | some v => match v with
          | .scalar s => pure s
          | _ => pure .null
        | none => pure base.maxDepth
      let indent := ((Value.lookup? "indent" es).map Indent.mk).getD base.indent
      check { maxInputLength := length, maxDepth := depth, indent }
  | .list vs =>
    refuseKeys (← vs.mapM fun v =>
      match v with
      | .text s => pure s
      | _ => throw .wrongKind)
  | .text s => refuseKeys (s.toList.map String.singleton)
  | _ => throw .wrongKind

/-- An input has more characters than allowed. -/
def refusesLength (s : Settings) (n : Nat) : Bool :=
  match s.maxInputLength.floor? with
  | .ok (some limit) => limit < Int.ofNat n
  | _ => false

/-- How many levels of a type are mapped that stands at a depth. A depth that is infinite or no
number sets no limit; the number of levels that the stack has room for stands in for it. -/
def budgetAt (s : Settings) (depth : Int) : Nat :=
  match s.maxDepth.floor? with
  | .ok (some limit) => (limit + 1 - depth).toNat
  | _ => 1000

theorem lt_budgetAt {s : Settings} {limit : Int} {n : Nat}
    (hlimit : s.maxDepth.floor? = .ok (some limit)) (hn : n ≤ limit) : n < s.budgetAt 0 := by
  rw [budgetAt, hlimit]
  simp only
  omega

end Settings

end Crosswalk
