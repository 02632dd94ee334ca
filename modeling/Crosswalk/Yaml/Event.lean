import Crosswalk.Yaml.Token

/-!
YAML events: the structure of a stream as a sequence of starts, ends and scalars. The tokens are
read against a stack of goals, each of which says what has to come next.
-/

namespace Crosswalk.Yaml

inductive Event where
  | documentStart
  | documentEnd
  | reference (name : String)
  /-- `implicit` says that the kind of value is to be told from the text. -/
  | scalar (anchor tag : Option String) (implicit : Bool) (text : String)
  | sequenceStart (anchor tag : Option String)
  | sequenceEnd
  | mappingStart (anchor tag : Option String)
  | mappingEnd
deriving Repr, DecidableEq

namespace Event

def opens : Event → Bool
  | .sequenceStart _ _ | .mappingStart _ _ => true
  | _ => false

def closes : Event → Bool
  | .sequenceEnd | .mappingEnd => true
  | _ => false

def anchor? : Event → Option String
  | .scalar a _ _ _ | .sequenceStart a _ | .mappingStart a _ => a
  | _ => none

/-- A node that is left out reads as the empty plain scalar. -/
def emptyScalar : Event := .scalar none none true ""

end Event

/-- What has to come next. -/
inductive Goal where
  | implicitDocument
  | document
  | documentContent
  | documentEnd
  | node (block indentless : Bool)
  | blockEntry
  | indentlessEntry
  | blockKey
  | blockValue
  | flowEntry (first : Bool)
  /-- The parts of a mapping of one entry inside a flow sequence. -/
  | pairKey
  | pairValue
  | pairEnd
  | flowKey (first : Bool)
  | flowValue
  | flowEmptyValue
deriving Repr, DecidableEq

structure EventReader where
  tokens : List Token
  /-- Why there are no more tokens after the last. -/
  stop : Failure
  goals : List Goal := [.implicitDocument]
  handles : List (String × String) := []
  /-- The events so far, the last first. -/
  events : List Event := []

namespace EventReader

/-- The handles that every document has. -/
def defaultHandles : List (String × String) := [("!", "!"), ("!!", "tag:yaml.org,2002:")]

variable (r : EventReader)

def peek : Except Failure Token :=
  match r.tokens with
  | t :: _ => .ok t
  | [] => .error r.stop

def advance : EventReader := { r with tokens := r.tokens.drop 1 }

def emit (e : Event) : EventReader := { r with events := e :: r.events }

def expect (goals : List Goal) : EventReader :=
  { r with goals := goals ++ r.goals }

/-- Read the directives before a document. -/
def directives : Nat → Bool → EventReader → Except Failure EventReader
  | 0, _, r => .ok r
  | fuel + 1, versioned, r => do
    match ← r.peek with
    | .directive (.version major _) =>
      if versioned then throw (.problem .duplicateVersion)
      else if major != 1 then throw (.problem .incompatibleVersion)
      else directives fuel true r.advance
    | .directive (.tag handle leading) =>
      if r.handles.any fun h => h.1 == handle then
        throw (.problem (.duplicateTagHandle handle))
      else
        directives fuel versioned
          { r.advance with handles := r.handles ++ [(handle, leading)] }
    | .directive .other => directives fuel versioned r.advance
    | _ => return r

def skipDocumentEnds : Nat → EventReader → Except Failure EventReader
  | 0, r => .ok r
  | fuel + 1, r => do
    match ← r.peek with
    | .documentEnd => skipDocumentEnds fuel r.advance
    | _ => return r

/-- An explicit document, or the end of the stream. -/
def startDocument : Except Failure EventReader := do
  let r ← skipDocumentEnds (r.tokens.length + 1) r
  match ← r.peek with
  | .streamEnd => return { r with tokens := [], goals := [] }
  | _ =>
    let r ← directives (r.tokens.length + 1) false { r with handles := [] }
    let missing := defaultHandles.filter fun d => !r.handles.any fun h => h.1 == d.1
    let r := { r with handles := r.handles ++ missing }
    match ← r.peek with
    | .documentStart =>
      return (r.advance.emit .documentStart).expect [.documentContent, .documentEnd, .document]
    | t => throw (.problem (.expectedDocumentStart t.label))

/-- The anchor and the tag before a node, in either order. -/
def properties :
    Except Failure (Option String × Option (Option String × String) × EventReader) := do
  match ← r.peek with
  | .anchor a =>
    let r := r.advance
    match ← r.peek with
    | .tag h s => return (some a, some (h, s), r.advance)
    | _ => return (some a, none, r)
  | .tag h s =>
    let r := r.advance
    match ← r.peek with
    | .anchor a => return (some a, some (h, s), r.advance)
    | _ => return (none, some (h, s), r)
  | _ => return (none, none, r)

/-- A tag with its handle replaced. -/
def resolveTag : Option (Option String × String) →
    Except Failure (Option String)
  | none => .ok none
  | some (none, suffix) => .ok (some suffix)
  | some (some handle, suffix) =>
    match r.handles.find? fun h => h.1 == handle with
    | some h => .ok (some (h.2 ++ suffix))
    | none => .error (.problem (.parsing "a node"))

def readNode (block indentless : Bool) (r : EventReader) : Except Failure EventReader := do
  match ← r.peek with
  | .reference name => return r.advance.emit (.reference name)
  | _ =>
    let (anchor, tagParts, r) ← r.properties
    let tag ← r.resolveTag tagParts
    let untagged := tag.isNone || tag == some "!"
    match ← r.peek with
    | .blockEntry =>
      if indentless then
        return (r.emit (.sequenceStart anchor tag)).expect [.indentlessEntry]
      else missing anchor tag untagged r
    | .scalar text plain =>
      let implicit := (plain && tag.isNone) || tag == some "!"
      return r.advance.emit (.scalar anchor tag implicit text)
    | .flowSequenceStart =>
      return (r.advance.emit (.sequenceStart anchor tag)).expect [.flowEntry true]
    | .flowMappingStart =>
      return (r.advance.emit (.mappingStart anchor tag)).expect [.flowKey true]
    | .blockSequenceStart =>
      if block then return (r.advance.emit (.sequenceStart anchor tag)).expect [.blockEntry]
      else missing anchor tag untagged r
    | .blockMappingStart =>
      if block then return (r.advance.emit (.mappingStart anchor tag)).expect [.blockKey]
      else missing anchor tag untagged r
    | _ => missing anchor tag untagged r
where
  /-- A node without content is allowed only after an anchor or a tag. -/
  missing (anchor tag : Option String) (untagged : Bool) (r : EventReader) :
      Except Failure EventReader :=
    if anchor.isSome || tag.isSome then .ok (r.emit (.scalar anchor tag untagged ""))
    else .error (.problem (.parsing (if block then "a block node" else "a flow node")))

/-- After a mark: a node, unless one of `ends` follows, which makes it empty. -/
def nodeUnless (ends : Token → Bool) (node next : Goal) (r : EventReader) :
    Except Failure EventReader := do
  if ends (← r.peek) then return (r.emit Event.emptyScalar).expect [next]
  else return r.expect [node, next]

def isBlockPart : Token → Bool
  | .key | .value | .blockEnd => true
  | _ => false

def readBlockEntry : Except Failure EventReader := do
  match ← r.peek with
  | .blockEntry =>
    r.advance.nodeUnless (fun t => t == .blockEntry || t == .blockEnd)
      (.node true false) .blockEntry
  | .blockEnd => return r.advance.emit .sequenceEnd
  | _ => throw (.problem (.parsing "a block collection"))

def readIndentlessEntry : Except Failure EventReader := do
  match ← r.peek with
  | .blockEntry =>
    r.advance.nodeUnless (fun t => t == .blockEntry || isBlockPart t)
      (.node true false) .indentlessEntry
  | _ => return r.emit .sequenceEnd

def readBlockKey : Except Failure EventReader := do
  match ← r.peek with
  | .key => r.advance.nodeUnless isBlockPart (.node true true) .blockValue
  | .blockEnd => return r.advance.emit .mappingEnd
  | _ => throw (.problem (.parsing "a block mapping"))

def readBlockValue : Except Failure EventReader := do
  match ← r.peek with
  | .value => r.advance.nodeUnless isBlockPart (.node true true) .blockKey
  | _ => return (r.emit Event.emptyScalar).expect [.blockKey]

/-- The comma before every entry of a flow collection but the first. -/
def flowComma (first : Bool) (what : String) (r : EventReader) : Except Failure EventReader := do
  if first then return r
  else match ← r.peek with
    | .flowEntry => return r.advance
    | _ => throw (.problem (.parsing what))

def readFlowEntry (first : Bool) (r : EventReader) : Except Failure EventReader := do
  match ← r.peek with
  | .flowSequenceEnd => return r.advance.emit .sequenceEnd
  | _ =>
    let r ← r.flowComma first "a flow sequence"
    match ← r.peek with
    | .key => return (r.emit (.mappingStart none none)).expect [.pairKey]
    | .flowSequenceEnd => return r.advance.emit .sequenceEnd
    | _ => return r.expect [.node false false, .flowEntry false]

def endsPair (t : Token) : Bool := t == .flowEntry || t == .flowSequenceEnd

def readPairKey : Except Failure EventReader :=
  r.advance.nodeUnless (fun t => t == .value || endsPair t) (.node false false) .pairValue

def readPairValue : Except Failure EventReader := do
  match ← r.peek with
  | .value => r.advance.nodeUnless endsPair (.node false false) .pairEnd
  | _ => return (r.emit Event.emptyScalar).expect [.pairEnd]

def endsFlowEntry (t : Token) : Bool := t == .flowEntry || t == .flowMappingEnd

def readFlowKey (first : Bool) (r : EventReader) : Except Failure EventReader := do
  match ← r.peek with
  | .flowMappingEnd => return r.advance.emit .mappingEnd
  | _ =>
    let r ← r.flowComma first "a flow mapping"
    match ← r.peek with
    | .key =>
      r.advance.nodeUnless (fun t => t == .value || endsFlowEntry t)
        (.node false false) .flowValue
    | .flowMappingEnd => return r.advance.emit .mappingEnd
    | _ => return r.expect [.node false false, .flowEmptyValue]

def readFlowValue : Except Failure EventReader := do
  match ← r.peek with
  | .value => r.advance.nodeUnless endsFlowEntry (.node false false) (.flowKey false)
  | _ => return (r.emit Event.emptyScalar).expect [.flowKey false]

/-- Work on one goal that has been taken from the stack. -/
def work (goal : Goal) (r : EventReader) : Except Failure EventReader :=
  match goal with
  | .implicitDocument => do
    match ← r.peek with
    | .directive _ | .documentStart | .streamEnd => r.startDocument
    | _ =>
      return ({ r with handles := defaultHandles }.emit .documentStart).expect
        [.node true false, .documentEnd, .document]
  | .document => r.startDocument
  | .documentContent => do
    match ← r.peek with
    | .directive _ | .documentStart | .documentEnd | .streamEnd =>
      return r.emit Event.emptyScalar
    | _ => return r.expect [.node true false]
  | .documentEnd => do
    match ← r.peek with
    | .documentEnd => return r.advance.emit .documentEnd
    | _ => return r.emit .documentEnd
  | .node block indentless => r.readNode block indentless
  | .blockEntry => r.readBlockEntry
  | .indentlessEntry => r.readIndentlessEntry
  | .blockKey => r.readBlockKey
  | .blockValue => r.readBlockValue
  | .flowEntry first => r.readFlowEntry first
  | .pairKey => r.readPairKey
  | .pairValue => r.readPairValue
  | .pairEnd => .ok ((r.emit .mappingEnd).expect [.flowEntry false])
  | .flowKey first => r.readFlowKey first
  | .flowValue => r.readFlowValue
  | .flowEmptyValue => .ok ((r.emit Event.emptyScalar).expect [.flowKey false])

def run : Nat → EventReader → Except Failure (List Event)
  | 0, r => .ok r.events.reverse
  | fuel + 1, r =>
    match r.goals with
    | [] => .ok r.events.reverse
    | g :: gs => do run fuel (← work g { r with goals := gs })

end EventReader

/-- The events of a text. -/
def readEvents (source : List Char) : Except Failure (List Event) :=
  let (tokens, stop) := scan source
  EventReader.run (10 * tokens.length + 40)
    { tokens, stop := stop.getD (.problem (.parsing "a node")) }

/-- Replace every collection that is nested in `limit` others by an empty mapping that keeps its
anchor. The second component is the number of replacements. `skipping` counts the collections that
are open inside a replaced one. -/
def collapseEvents (limit : Nat) : Nat → Nat → List Event → List Event × Nat
  | _, _, [] => ([], 0)
  | depth, skipping, e :: es =>
    if skipping != 0 then
      collapseEvents limit depth
        (if e.opens then skipping + 1 else if e.closes then skipping - 1 else skipping) es
    else if e.opens && limit ≤ depth then
      let (kept, n) := collapseEvents limit depth 1 es
      (.mappingStart e.anchor? none :: .mappingEnd :: kept, n + 1)
    else
      let depth := if e.opens then depth + 1 else if e.closes then depth - 1 else depth
      let (kept, n) := collapseEvents limit depth 0 es
      (e :: kept, n)

end Crosswalk.Yaml
