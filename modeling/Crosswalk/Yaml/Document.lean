import Crosswalk.Yaml.Node

/-!
The value of a YAML document. Merge keys are replaced by the entries they merge, which stand before
the mapping's own. Of several failures the one nearest to the root is reported.
-/

namespace Crosswalk.Yaml

namespace Node

def isMergeKey (n : Node) : Bool := n.tag == .merge

/-- A key that is an equals sign is text. -/
def plainKey : Node → Node
  | .scalar .value s => .scalar .text s
  | n => n

mutual

/-- The entries of a mapping with its merge keys replaced. -/
def flattenEntries : List (Node × Node) →
    Except Failure (List (Node × Node) × List (Node × Node))
  | [] => .ok ([], [])
  | (k, v) :: es => do
    if isMergeKey k then
      let first ← mergedEntries v
      let (merged, own) ← flattenEntries es
      return (first ++ merged, own)
    else
      let (merged, own) ← flattenEntries es
      return (merged, (plainKey k, v) :: own)

/-- What a merge key adds: the entries of a mapping, or of several, the last of which come first. -/
def mergedEntries : Node → Except Failure (List (Node × Node))
  | .mapping _ es => do
    let (merged, own) ← flattenEntries es
    return merged ++ own
  | .sequence _ items => mergedItems items
  | _ => .error (.problem (.constructing "a mapping"))

def mergedItems : List Node → Except Failure (List (Node × Node))
  | [] => .ok []
  | .mapping _ es :: ns => do
    let (merged, own) ← flattenEntries es
    return (← mergedItems ns) ++ (merged ++ own)
  | _ => .error (.problem (.constructing "a mapping"))

end

def flatten (es : List (Node × Node)) : Except Failure (List (Node × Node)) :=
  (flattenEntries es).map fun (merged, own) => merged ++ own

mutual

/-- The text of a scalar, or of the entry of a mapping that stands for its value. -/
def scalarText : Node → Except Failure String
  | .scalar _ s => .ok s
  | .mapping _ es => entryText es
  | n => .error (.problem (.expectedNode "scalar" n.kind))

def entryText : List (Node × Node) → Except Failure String
  | [] => .error (.problem (.expectedNode "scalar" "mapping"))
  | (k, v) :: es => if k.tag == .value then v.scalarText else entryText es

end

/-- Tags whose values are made of other values. -/
def isCollectionTag : Tag → Bool
  | .sequence | .mapping | .orderedMap | .pairs | .set => true
  | _ => false

/-- The value of a node with a scalar tag. -/
def scalarValue (n : Node) : Except Failure Scalar :=
  match n.tag with
  | .null | .bool | .int | .float | .binary | .timestamp | .text => do
    ScalarValue.ofTag n.tag (← n.scalarText)
  | t => .error (.problem (.unknownTag t.name))

def keyScalar (n : Node) : Except Failure Scalar :=
  if isCollectionTag n.tag then .error (.problem (.constructing "a mapping")) else n.scalarValue

/-- The entry of a mapping that has just one. -/
def soleEntry? : Node → Option (Node × Node)
  | .mapping _ [e] => some e
  | _ => none

def itemsOf (n : Node) : Except Failure (List Node) :=
  match n with
  | .sequence _ items => .ok items
  | _ => .error (.problem (.expectedNode "sequence" n.kind))

def entriesOf (n : Node) : Except Failure (List (Node × Node)) :=
  match n with
  | .mapping _ es => flatten es
  | _ => .error (.problem (.expectedNode "mapping" n.kind))

/-- The entries of a sequence of mappings with one entry each. -/
def soleEntries (n : Node) : Except Failure (List (Node × Node)) :=
  let what := if n.tag == .orderedMap then "an ordered map" else "pairs"
  match n with
  | .sequence _ items =>
    items.mapM fun i =>
      match i.soleEntry? with
      | some e => .ok e
      | none => .error (.problem (.constructing what))
  | _ => .error (.problem (.constructing what))

/-- The value of a node. `depth` bounds the nesting. There are no sets among the values: a set is
read as the list of its members. -/
def value : Nat → Node → Except Failure Value
  | 0, _ => .ok .null
  | depth + 1, n =>
    match n.tag with
    | .sequence => do
      return .list (← (← n.itemsOf).mapM (value depth))
    | .mapping => do
      let es ← (← n.entriesOf).mapM fun e => do
        let k ← e.1.keyScalar
        return (k, ← value depth e.2)
      return .map (Value.ofEntries es)
    | .set => do
      let ks ← (← n.entriesOf).mapM fun e => do
        let k ← e.1.keyScalar
        return (k, ← value depth e.2)
      return .list ((Value.ofEntries ks).map fun e => .scalar e.1)
    | .orderedMap | .pairs => do
      let es ← (← n.soleEntries).mapM fun e => do
        return Value.list [← value depth e.1, ← value depth e.2]
      return .list es
    | _ => n.scalarValue.map .scalar

/-- Scalars fail at once; the parts of a collection are looked at later. -/
def checkNow (n : Node) : Except Failure (List Node) :=
  if isCollectionTag n.tag then .ok [n] else do
    let _ ← n.scalarValue
    return []

/-- The collections that a collection holds, if nothing fails at this level. -/
def checkParts (n : Node) : Except Failure (List Node) :=
  match n.tag with
  | .sequence => do
    return (← (← n.itemsOf).mapM checkNow).flatten
  | .mapping | .set => do
    let parts ← (← n.entriesOf).mapM fun e => do
      let _ ← e.1.keyScalar
      checkNow e.2
    return parts.flatten
  | .orderedMap | .pairs => do
    let parts ← (← n.soleEntries).mapM fun e => do
      return (← checkNow e.1) ++ (← checkNow e.2)
    return parts.flatten
  | _ => .ok []

/-- The failure that is met first when the collections are looked at level by level. -/
def firstFailure : Nat → List Node → Option Failure
  | 0, _ => none
  | _, [] => none
  | depth + 1, level =>
    match level.mapM checkParts with
    | .error e => some e
    | .ok parts => firstFailure depth parts.flatten

/-- More levels than any document has. -/
def depthBound (events : List Event) : Nat := (events.length + 1) * (65 * 65)

def document (depth : Nat) (n : Node) : Except Failure Value :=
  match n.checkNow with
  | .error e => .error e
  | .ok level =>
    match n.value depth with
    | .ok v => .ok v
    | .error e => .error ((firstFailure depth level).getD e)

end Node

/-- Read a document; collections nested in `limit` others are read as empty mappings. The number of
such collections is returned with the value. The program leaves YAML to a library, which this reader
stands in for; no theorem rests on what it returns. -/
def read (limit : Nat) (source : List Char) : Except Failure (Value × Nat) := do
  let events ← readEvents source
  let (events, collapsed) := collapseEvents limit 0 0 events
  match ← Node.ofEvents? events with
  | none => return (.null, collapsed)
  | some n => return (← n.document (Node.depthBound events), collapsed)

end Crosswalk.Yaml
