import Crosswalk.Number.Shortest

/-!
Values of structured documents. A mapping keeps its entries in the order in which their keys first
occurred, and its keys are scalars. Integers are unbounded and kept apart from floating numbers.
-/

namespace Crosswalk

structure CalendarDate where
  year : Nat
  month : Nat
  day : Nat
deriving Repr, DecidableEq

/-- A time of day on a date; the offset from universal time is in minutes. -/
structure Moment where
  date : CalendarDate
  hour : Nat
  minute : Nat
  second : Nat
  microsecond : Nat
  offset : Option Int
deriving Repr, DecidableEq

inductive Scalar where
  | null
  | bool (b : Bool)
  | int (i : Int)
  | float (x : Binary64)
  | text (s : String)
  | date (d : CalendarDate)
  | moment (m : Moment)
  | bytes (data : List Nat)
deriving Repr, DecidableEq, Inhabited

inductive Value where
  | scalar (s : Scalar)
  | list (items : List Value)
  | map (entries : List (Scalar × Value))
deriving Repr, BEq, Inhabited

namespace Scalar

def text? : Scalar → Option String
  | .text s => some s
  | _ => none

/-- Values that count as absent when a default may take their place. -/
def isTruthy : Scalar → Bool
  | .null => false
  | .bool b => b
  | .int i => i != 0
  | .float (.finite _ m _) => m != 0
  | .float _ => true
  | .text s => s != ""
  | .date _ | .moment _ => true
  | .bytes data => !data.isEmpty

/-- The number that a scalar is equal to: `true` is one and `false` zero. -/
def integer? : Scalar → Option Int
  | .bool b => some (if b then 1 else 0)
  | .int i => some i
  | .float x => x.toInt?
  | _ => none

/-- Equality of keys and members: numbers are compared by value, whatever their kind. -/
def same : Scalar → Scalar → Bool
  | .float x, .float y => x.same y
  | a, b =>
    match a.integer?, b.integer? with
    | some i, some j => i == j
    | none, none => a == b
    | _, _ => false

end Scalar

namespace Value

@[match_pattern] abbrev null : Value := .scalar .null

@[match_pattern] abbrev bool (b : Bool) : Value := .scalar (.bool b)

@[match_pattern] abbrev int (i : Int) : Value := .scalar (.int i)

@[match_pattern] abbrev float (x : Binary64) : Value := .scalar (.float x)

@[match_pattern] abbrev text (s : String) : Value := .scalar (.text s)

mutual

/-- The scalars of a value in the order in which they are written, keys included. -/
def scalars : Value → List Scalar
  | .scalar s => [s]
  | .list vs => scalarsOfItems vs
  | .map es => scalarsOfEntries es

def scalarsOfItems : List Value → List Scalar
  | [] => []
  | v :: vs => v.scalars ++ scalarsOfItems vs

def scalarsOfEntries : List (Scalar × Value) → List Scalar
  | [] => []
  | (k, v) :: es => k :: (v.scalars ++ scalarsOfEntries es)

end

def isTruthy : Value → Bool
  | .scalar s => s.isTruthy
  | .list vs => !vs.isEmpty
  | .map es => !es.isEmpty

/-- The plain scalars: text, numbers, truth values and null. -/
def isPlain : Value → Bool
  | .scalar s =>
    match s with
    | .null | .bool _ | .int _ | .float _ | .text _ => true
    | _ => false
  | _ => false

def isNull : Value → Bool
  | .null => true
  | _ => false

def isText (s : String) : Value → Bool
  | .text t => s == t
  | _ => false

/-- The entry of a mapping under a textual key. -/
def lookup? (key : String) (entries : List (Scalar × Value)) : Option Value :=
  (entries.find? fun e => e.1 == .text key).map Prod.snd

/-- The entry of a mapping under a textual key, or null. -/
def lookup (key : String) (entries : List (Scalar × Value)) : Value :=
  (lookup? key entries).getD .null

def hasKey (key : String) (entries : List (Scalar × Value)) : Bool :=
  (lookup? key entries).isSome

/-- Set an entry: a key that is present keeps its place and its spelling. -/
def insert (key : Scalar) (v : Value) : List (Scalar × Value) → List (Scalar × Value)
  | [] => [(key, v)]
  | e :: es => if e.1.same key then (e.1, v) :: es else e :: insert key v es

def ofEntries (es : List (Scalar × Value)) : List (Scalar × Value) :=
  es.foldl (fun acc e => insert e.1 e.2 acc) []

/-- A mapping with textual keys. -/
def object (es : List (String × Value)) : Value := .map (es.map fun e => (.text e.1, e.2))

/-- A member of a list under the equality of keys. -/
def isMember (key : Scalar) (items : List Value) : Bool :=
  items.any fun v =>
    match v with
    | .scalar s => s.same key
    | _ => false

end Value

end Crosswalk
