import Crosswalk.Yaml.Event
import Crosswalk.Yaml.Resolve

/-!
YAML nodes: the tree of a document with every alias replaced by the node it names. A collection that
holds an alias of itself is unrolled a bounded number of times.
-/

namespace Crosswalk.Yaml

inductive Node where
  | scalar (tag : Tag) (text : String)
  | sequence (tag : Tag) (items : List Node)
  | mapping (tag : Tag) (entries : List (Node × Node))
  /-- An alias of a collection that is not complete yet. -/
  | within (anchor : String)
deriving Repr

namespace Node

def tag : Node → Tag
  | .scalar t _ | .sequence t _ | .mapping t _ => t
  | .within _ => .null

/-- The kind of a node in messages. -/
def kind : Node → String
  | .scalar _ _ | .within _ => "scalar"
  | .sequence _ _ => "sequence"
  | .mapping _ _ => "mapping"

mutual

/-- How often a node mentions an open collection. -/
def mentions (anchor : String) : Node → Nat
  | .scalar _ _ => 0
  | .sequence _ items => mentionsInItems anchor items
  | .mapping _ entries => mentionsInEntries anchor entries
  | .within a => if a == anchor then 1 else 0

def mentionsInItems (anchor : String) : List Node → Nat
  | [] => 0
  | n :: ns => n.mentions anchor + mentionsInItems anchor ns

def mentionsInEntries (anchor : String) : List (Node × Node) → Nat
  | [] => 0
  | (k, v) :: es => k.mentions anchor + v.mentions anchor + mentionsInEntries anchor es

end

mutual

/-- Put a node in the place of every mention of an open collection. -/
def fill (anchor : String) (new : Node) : Node → Node
  | .scalar t s => .scalar t s
  | .sequence t items => .sequence t (fillItems anchor new items)
  | .mapping t entries => .mapping t (fillEntries anchor new entries)
  | .within a => if a == anchor then new else .within a

def fillItems (anchor : String) (new : Node) : List Node → List Node
  | [] => []
  | n :: ns => fill anchor new n :: fillItems anchor new ns

def fillEntries (anchor : String) (new : Node) : List (Node × Node) → List (Node × Node)
  | [] => []
  | (k, v) :: es => (fill anchor new k, fill anchor new v) :: fillEntries anchor new es

end

/-- How often a collection that mentions itself is unrolled. Values are finite trees, so such a
collection, which has no end, is cut off after a number of levels that keeps it small. -/
def unrollLevels (mentions : Nat) : Nat :=
  if mentions ≤ 1 then 64 else 12 / (mentions.log2 + 1)

/-- Close an anchored collection: its mentions of itself are unrolled. -/
def close (anchor : Option String) (n : Node) : Node :=
  match anchor with
  | none => n
  | some a =>
    match n.mentions a with
    | 0 => n
    | m =>
      (List.range (unrollLevels m)).foldl (fun inner _ => fill a inner n)
        (fill a (.scalar .null "") n)

end Node

/-- The nodes that have been given a name; an open collection has none yet. -/
abbrev Anchors := List (String × Option Node)

namespace Node

def declareAnchor (anchor : Option String) (known : Anchors) : Except Failure Anchors :=
  match anchor with
  | none => .ok known
  | some a =>
    if known.any fun e => e.1 == a then .error (.problem (.duplicateAnchor a))
    else .ok ((a, none) :: known)

def setAnchor (anchor : Option String) (n : Node) (known : Anchors) : Anchors :=
  match anchor with
  | none => known
  | some a => (a, some n) :: known.filter fun e => e.1 != a

/-- The tag of a collection. -/
def collectionTag (tag : Option String) (default : Tag) : Tag :=
  match tag with
  | none => default
  | some t => if t == "!" then default else .ofName t

def scalarTag (tag : Option String) (implicit : Bool) (text : String) : Tag :=
  match tag with
  | some t => if t == "!" then (if implicit then Plain.tag text else .text) else .ofName t
  | none => if implicit then Plain.tag text else .text

abbrev Composed (α : Type) := Except Failure (α × List Event × Anchors)

mutual

/-- Put a node together from the events of a text. -/
def compose : Nat → List Event → Anchors → Composed Node
  | 0, events, known => .ok (.scalar .null "", events, known)
  | fuel + 1, events, known =>
    match events with
    | .reference name :: rest =>
      match known.find? fun e => e.1 == name with
      | none => .error (.problem (.undefinedAlias name))
      | some (_, some n) => .ok (n, rest, known)
      | some (_, none) => .ok (.within name, rest, known)
    | .scalar anchor tag implicit text :: rest =>
      match declareAnchor anchor known with
      | .error e => .error e
      | .ok known =>
        let n := Node.scalar (scalarTag tag implicit text) text
        .ok (n, rest, setAnchor anchor n known)
    | .sequenceStart anchor tag :: rest =>
      match declareAnchor anchor known with
      | .error e => .error e
      | .ok known =>
        match composeItems fuel [] rest known with
        | .error e => .error e
        | .ok (items, rest, known) =>
          let n := close anchor (.sequence (collectionTag tag .sequence) items)
          .ok (n, rest, setAnchor anchor n known)
    | .mappingStart anchor tag :: rest =>
      match declareAnchor anchor known with
      | .error e => .error e
      | .ok known =>
        match composeEntries fuel [] rest known with
        | .error e => .error e
        | .ok (entries, rest, known) =>
          let n := close anchor (.mapping (collectionTag tag .mapping) entries)
          .ok (n, rest, setAnchor anchor n known)
    | rest => .ok (.scalar .null "", rest, known)

def composeItems : Nat → List Node → List Event → Anchors → Composed (List Node)
  | 0, items, events, known => .ok (items.reverse, events, known)
  | fuel + 1, items, events, known =>
    match events with
    | .sequenceEnd :: rest => .ok (items.reverse, rest, known)
    | _ =>
      match compose fuel events known with
      | .error e => .error e
      | .ok (n, rest, known) => composeItems fuel (n :: items) rest known

def composeEntries : Nat → List (Node × Node) → List Event → Anchors →
    Composed (List (Node × Node))
  | 0, entries, events, known => .ok (entries.reverse, events, known)
  | fuel + 1, entries, events, known =>
    match events with
    | .mappingEnd :: rest => .ok (entries.reverse, rest, known)
    | _ =>
      match compose fuel events known with
      | .error e => .error e
      | .ok (k, rest, known) =>
        match compose fuel rest known with
        | .error e => .error e
        | .ok (v, rest, known) => composeEntries fuel ((k, v) :: entries) rest known

end

/-- The node of the only document, if there is one. -/
def ofEvents? (events : List Event) : Except Failure (Option Node) := do
  match events with
  | .documentStart :: rest =>
    let (n, rest, _) ← compose (rest.length + 1) rest []
    match rest.drop 1 with
    | [] => return some n
    | _ => throw (.problem .severalDocuments)
  | _ => return none

end Node

end Crosswalk.Yaml
