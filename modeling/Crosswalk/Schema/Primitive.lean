import Crosswalk.Value.Basic

/-!
The vocabulary shared by all notations: every source names its primitive types in it, and every
target says how it writes each of them.
-/

namespace Crosswalk

inductive Primitive where
  | string | number | integer | bigint | decimal | boolean
  | null | undefined | void | any | unknown | never
  | object | symbol | date | datetime | time | json | bytes
  /-- A name outside the vocabulary, which targets treat as unknown. -/
  | other (name : String)
deriving Repr, DecidableEq

namespace Primitive

def name : Primitive → String
  | string => "string"
  | number => "number"
  | integer => "integer"
  | bigint => "bigint"
  | decimal => "decimal"
  | boolean => "boolean"
  | null => "null"
  | undefined => "undefined"
  | void => "void"
  | any => "any"
  | unknown => "unknown"
  | never => "never"
  | object => "object"
  | symbol => "symbol"
  | date => "date"
  | datetime => "datetime"
  | time => "time"
  | json => "json"
  | bytes => "bytes"
  | other s => s

/-- The named primitives. -/
def vocabulary : List Primitive :=
  [string, number, integer, bigint, decimal, boolean, null, undefined, void, any, unknown, never,
    object, symbol, date, datetime, time, json, bytes]

def ofName (s : String) : Primitive := (vocabulary.find? fun p => p.name == s).getD (other s)

end Primitive

/-- What a constraint limits. -/
inductive Limit where
  | format | minLength | maxLength | pattern | minimum | maximum
  | exclusiveMinimum | exclusiveMaximum | multipleOf | minItems | maxItems | description
  | other (name : String)
deriving Repr, DecidableEq

namespace Limit

def name : Limit → String
  | format => "format"
  | minLength => "min_length"
  | maxLength => "max_length"
  | pattern => "pattern"
  | minimum => "minimum"
  | maximum => "maximum"
  | exclusiveMinimum => "exclusive_minimum"
  | exclusiveMaximum => "exclusive_maximum"
  | multipleOf => "multiple_of"
  | minItems => "min_items"
  | maxItems => "max_items"
  | description => "description"
  | other s => s

def vocabulary : List Limit :=
  [format, minLength, maxLength, pattern, minimum, maximum, exclusiveMinimum, exclusiveMaximum,
    multipleOf, minItems, maxItems, description]

def ofName (s : String) : Limit := (vocabulary.find? fun l => l.name == s).getD (other s)

/-- The keyword of JSON Schema for a limit. -/
def keyword? : Limit → Option String
  | format => some "format"
  | minLength => some "minLength"
  | maxLength => some "maxLength"
  | pattern => some "pattern"
  | minimum => some "minimum"
  | maximum => some "maximum"
  | exclusiveMinimum => some "exclusiveMinimum"
  | exclusiveMaximum => some "exclusiveMaximum"
  | multipleOf => some "multipleOf"
  | minItems => some "minItems"
  | maxItems => some "maxItems"
  | description => some "description"
  | other _ => none

end Limit

structure Constraint where
  limit : Limit
  value : Value
deriving Repr

/-- The greatest integer up to which every integer is a double-precision number. -/
def safeIntegerMax : Nat := Nat.pow 2 53 - 1

/-- Integers that a double-precision number may not hold exactly. -/
def isUnsafeInteger : Value → Bool
  | .int i => safeIntegerMax < i.natAbs
  | _ => false

end Crosswalk
