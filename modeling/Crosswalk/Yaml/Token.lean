import Crosswalk.Yaml.ScalarText

/-!
YAML tokens. Whether a scalar is a key is known only when the colon after it is met, so a token is
handed on as soon as it can no longer turn out to be the start of a key. Tokens that were handed on
before a problem stay valid.
-/

namespace Crosswalk.Yaml

inductive Directive where
  | version (major minor : Nat)
  | tag (handle leading : String)
  | other
deriving Repr, DecidableEq

inductive Token where
  | streamEnd
  | directive (d : Directive)
  | documentStart
  | documentEnd
  | blockSequenceStart
  | blockMappingStart
  | blockEnd
  | flowSequenceStart
  | flowSequenceEnd
  | flowMappingStart
  | flowMappingEnd
  | blockEntry
  | flowEntry
  | key
  | value
  | reference (name : String)
  | anchor (name : String)
  | tag (handle : Option String) (suffix : String)
  | scalar (text : String) (plain : Bool)
deriving Repr, DecidableEq

/-- The name of a token in messages. -/
def Token.label : Token → String
  | .streamEnd => "<stream end>"
  | .directive _ => "<directive>"
  | .documentStart => "<document start>"
  | .documentEnd => "<document end>"
  | .blockSequenceStart => "<block sequence start>"
  | .blockMappingStart => "<block mapping start>"
  | .blockEnd => "<block end>"
  | .flowSequenceStart => "["
  | .flowSequenceEnd => "]"
  | .flowMappingStart => "\x7b"
  | .flowMappingEnd => "\x7d"
  | .blockEntry => "-"
  | .flowEntry => ","
  | .key => "?"
  | .value => ":"
  | .reference _ => "<alias>"
  | .anchor _ => "<anchor>"
  | .tag _ _ => "<tag>"
  | .scalar _ _ => "<scalar>"

/-! ### Names, tags and directives -/

def isNameChar (c : Char) : Bool :=
  ('0' ≤ c && c ≤ '9') || ('A' ≤ c && c ≤ 'Z') || ('a' ≤ c && c ≤ 'z') || c == '-' || c == '_'

def isUriChar (c : Char) : Bool :=
  isNameChar c || ";/?:@&=+$,.!~*\x27()[]%".toList.contains c

def spaceOrBreak (c : Char) : Bool := c == ' ' || isBreakOrEnd c

/-- The name after the mark of an anchor or alias. -/
def scanAnchor (what : String) (c : Cursor) : Except Failure (String × Cursor) :=
  let (name, c) := c.next.takeWhile isNameChar
  if name.isEmpty then .error (.problem (.scanning what))
  else if endsWord c.peek || "?:,]\x7d%@\x60".toList.contains c.peek then
    .ok (String.ofList name, c)
  else .error (.problem (.scanning what))

/-- The continuation bytes that follow a first byte of UTF-8, and the bits of the first. -/
def utf8Lead (b : Nat) : Option (Nat × Nat) :=
  if b < 0x80 then some (0, b)
  else if 0xC2 ≤ b && b < 0xE0 then some (1, b - 0xC0)
  else if 0xE0 ≤ b && b < 0xF0 then some (2, b - 0xE0)
  else if 0xF0 ≤ b && b < 0xF5 then some (3, b - 0xF0)
  else none

/-- Bytes as UTF-8 text. -/
def decodeUtf8 : Nat → List Nat → Option (List Char)
  | 0, _ => none
  | _ + 1, [] => some []
  | fuel + 1, b :: bs => do
    let (count, bits) ← utf8Lead b
    let tail := bs.take count
    if tail.length < count || tail.any (fun t => t < 0x80 || 0xBF < t) then none
    else
      let n := tail.foldl (fun acc t => acc * 64 + (t - 0x80)) bits
      let overlong := (count == 2 && n < 0x800) || (count == 3 && n < 0x10000)
      if overlong || (0xD800 ≤ n && n < 0xE000) || 0x10FFFF < n then none
      else
        let rest ← decodeUtf8 fuel (bs.drop count)
        return Char.ofNat n :: rest

/-- Escaped bytes in a row, as in `%C3%A9`. -/
def scanUriBytes (what : String) : Nat → List Nat → Cursor → Except Failure (List Nat × Cursor)
  | 0, acc, c => .ok (acc.reverse, c)
  | fuel + 1, acc, c =>
    if c.peek == '%' then
      match hexDigit? (c.peekAt 1), hexDigit? (c.peekAt 2) with
      | some h, some l => scanUriBytes what fuel ((16 * h + l) :: acc) (c.forward 3)
      | _, _ => .error (.problem (.scanning what))
    else .ok (acc.reverse, c)

def scanUriFrom (what : String) : Nat → List Char → Cursor → Except Failure (List Char × Cursor)
  | 0, acc, c => .ok (acc, c)
  | fuel + 1, acc, c => do
    if c.peek == '%' then
      let (bytes, c) ← scanUriBytes what c.bound [] c
      match decodeUtf8 (bytes.length + 1) bytes with
      | some cs => scanUriFrom what fuel (acc ++ cs) c
      | none => throw (.problem (.scanning what))
    else if isUriChar c.peek then scanUriFrom what fuel (acc ++ [c.peek]) c.next
    else return (acc, c)

/-- The text of a tag, with escaped bytes decoded; `what` names what it belongs to. -/
def scanUri (what : String) (c : Cursor) : Except Failure (String × Cursor) := do
  if isUriChar c.peek then
    let (cs, c) ← scanUriFrom what c.bound [] c
    return (String.ofList cs, c)
  else throw (.problem (.parsing what))

/-- A tag handle: `!`, `!!` or `!name!`. -/
def scanTagHandle (what : String) (c : Cursor) : Except Failure (String × Cursor) :=
  if c.peek != '!' then .error (.problem (.scanning what))
  else if c.peekAt 1 == ' ' then .ok ("!", c.next)
  else
    let (name, c) := c.next.takeWhile isNameChar
    if c.peek == '!' then .ok (String.ofList ('!' :: (name ++ ['!'])), c.next)
    else .error (.problem (.scanning what))

def scanTag (c : Cursor) : Except Failure (Token × Cursor) := do
  let following := c.peekAt 1
  let (token, c) ←
    if following == '<' then do
      let (suffix, c) ← scanUri "a tag" (c.forward 2)
      if c.peek != '>' then throw (.problem (.parsing "a tag"))
      pure (Token.tag none suffix, c.next)
    else if endsWord following then pure (Token.tag none "!", c.next)
    else do
      let word := c.next.rest.takeWhile fun ch => !spaceOrBreak ch
      let (handle, c) ←
        if word.contains '!' then scanTagHandle "a tag" c else pure ("!", c.next)
      let (suffix, c) ← scanUri "a tag" c
      pure (Token.tag (some handle) suffix, c)
  if spaceOrBreak c.peek then return (token, c) else throw (.problem (.scanning "a tag"))

def directiveProblem {α : Type} : Except Failure α := .error (.problem (.scanning "a directive"))

def scanVersionNumber (c : Cursor) : Except Failure (Nat × Cursor) :=
  let (ds, c) := c.takeWhile isDigitChar
  if ds.isEmpty then directiveProblem
  else .ok (ds.foldl (fun n d => 10 * n + (d.toNat - 48)) 0, c)

def scanDirective (c : Cursor) : Except Failure (Token × Cursor) := do
  let (name, c) := c.next.takeWhile isNameChar
  if name.isEmpty || !spaceOrBreak c.peek then directiveProblem
  else
    let (d, c) ←
      if name == "YAML".toList then do
        let (major, c) ← scanVersionNumber c.skipSpaces
        if c.peek != '.' then directiveProblem
        else
          let (minor, c) ← scanVersionNumber c.next
          if spaceOrBreak c.peek then pure (Directive.version major minor, c)
          else directiveProblem
      else if name == "TAG".toList then do
        let (handle, c) ← scanTagHandle "a directive" c.skipSpaces
        if c.peek != ' ' then directiveProblem
        else
          let (leading, c) ← scanUri "a directive" c.skipSpaces
          if spaceOrBreak c.peek then pure (Directive.tag handle leading, c)
          else directiveProblem
      else pure (Directive.other, c.skipWhile fun ch => !isBreak ch)
    let c := c.skipSpaces.skipComment
    if isBreakOrEnd c.peek then return (.directive d, c.lineBreak.2) else directiveProblem

/-! ### The scanner -/

/-- A token that may turn out to be the start of a key. -/
structure SimpleKey where
  tokenNumber : Nat
  required : Bool
  index : Nat
  line : Nat
  column : Nat
deriving Repr

structure Scanner where
  cursor : Cursor
  /-- How many flow collections are open; an excess of closers makes it negative. -/
  flowLevel : Int := 0
  indent : Int := -1
  indents : List Int := []
  allowSimpleKey : Bool := true
  /-- At most one possible key for each flow level. -/
  keys : List (Int × SimpleKey) := []
  /-- How many tokens have been handed on. -/
  taken : Nat := 0
  queue : List Token := []
  /-- The tokens handed on, the last first. -/
  delivered : List Token := []
  done : Bool := false

namespace Scanner

variable (s : Scanner)

def inFlow : Bool := s.flowLevel != 0

def push (t : Token) : Scanner := { s with queue := s.queue ++ [t] }

def simpleKeyProblem {α : Type} : Except Failure α :=
  .error (.problem (.scanning "a simple key"))

/-- Forget possible keys that are too long or not on the line at hand. -/
def dropStaleKeys : Except Failure Scanner :=
  let stale (k : SimpleKey) : Bool :=
    k.line != s.cursor.line || k.index + 1024 < s.cursor.index
  if s.keys.any fun e => stale e.2 && e.2.required then simpleKeyProblem
  else .ok { s with keys := s.keys.filter fun e => !stale e.2 }

/-- Forget the possible key at the level at hand. -/
def dropKey : Except Failure Scanner :=
  if s.keys.any fun e => e.1 == s.flowLevel && e.2.required then simpleKeyProblem
  else .ok { s with keys := s.keys.filter fun e => e.1 != s.flowLevel }

/-- The next token may start a key. -/
def saveKey : Except Failure Scanner := do
  if s.allowSimpleKey then
    let required := !s.inFlow && s.indent == Int.ofNat s.cursor.column
    let t ← s.dropKey
    let key : SimpleKey :=
      ⟨t.taken + t.queue.length, required, t.cursor.index, t.cursor.line, t.cursor.column⟩
    return { t with keys := t.keys ++ [(t.flowLevel, key)] }
  else return s

/-- Close the blocks that are indented further than a column. -/
def unwind (column : Int) : Nat → Scanner → Scanner
  | 0, s => s
  | fuel + 1, s =>
    if s.inFlow || s.indent ≤ column then s
    else
      let (outer, more) := match s.indents with
        | i :: is => (i, is)
        | [] => (-1, [])
      unwind column fuel { s.push .blockEnd with indent := outer, indents := more }

def unwindTo (column : Int) : Scanner := unwind column (s.indents.length + 1) s

/-- Open a block at a column, unless one stands there. -/
def addIndent (column : Nat) : Bool × Scanner :=
  if s.indent < Int.ofNat column then
    (true, { s with indents := s.indent :: s.indents, indent := Int.ofNat column })
  else (false, s)

/-- Pass spaces, comments and line breaks. After a line break outside flow a key may follow. -/
def toNextToken : Nat → Scanner → Scanner
  | 0, s => s
  | fuel + 1, s =>
    let c := s.cursor.skipSpaces.skipComment
    if isBreak c.peek then
      toNextToken fuel { s with
        cursor := c.lineBreak.2
        allowSimpleKey := s.allowSimpleKey || !s.inFlow }
    else { s with cursor := c }

def skipByteOrderMark : Scanner :=
  if s.cursor.index == 0 && s.cursor.peek == '\uFEFF' then { s with cursor := s.cursor.next } else s

def fetchDocumentMark (t : Token) : Except Failure Scanner := do
  let s ← (s.unwindTo (-1)).dropKey
  return { s.push t with allowSimpleKey := false, cursor := s.cursor.forward 3 }

def fetchFlowStart (t : Token) : Except Failure Scanner := do
  let s ← s.saveKey
  return { s.push t with
    flowLevel := s.flowLevel + 1, allowSimpleKey := true, cursor := s.cursor.next }

def fetchFlowEnd (t : Token) : Except Failure Scanner := do
  let s ← s.dropKey
  return { s.push t with
    flowLevel := s.flowLevel - 1, allowSimpleKey := false, cursor := s.cursor.next }

def fetchFlowEntry : Except Failure Scanner := do
  let s ← s.dropKey
  return { s.push .flowEntry with allowSimpleKey := true, cursor := s.cursor.next }

/-- In a block, open a collection at the column at hand if none stands there. -/
def openBlock (start : Token) (what : String) : Except Failure Scanner :=
  if s.inFlow then .ok s
  else if !s.allowSimpleKey then .error (.problem (.misplaced what))
  else
    let (opened, s) := s.addIndent s.cursor.column
    .ok (if opened then s.push start else s)

def fetchBlockEntry : Except Failure Scanner := do
  let s ← s.openBlock .blockSequenceStart "sequence entries"
  let s ← s.dropKey
  return { s.push .blockEntry with allowSimpleKey := true, cursor := s.cursor.next }

def fetchKey : Except Failure Scanner := do
  let s ← s.openBlock .blockMappingStart "mapping keys"
  let s ← s.dropKey
  return { s.push .key with allowSimpleKey := !s.inFlow, cursor := s.cursor.next }

def insertAt (t : Token) (n : Nat) (queue : List Token) : List Token :=
  queue.take n ++ t :: queue.drop n

/-- A colon makes the possible key at this level a key. -/
def fetchValue : Except Failure Scanner := do
  match s.keys.find? fun e => e.1 == s.flowLevel with
  | some (_, key) =>
    let s := { s with keys := s.keys.filter fun e => e.1 != s.flowLevel }
    let n := key.tokenNumber - s.taken
    let s := { s with queue := insertAt .key n s.queue }
    let (opened, s) := if s.inFlow then (false, s) else s.addIndent key.column
    let s := if opened then { s with queue := insertAt .blockMappingStart n s.queue } else s
    return { s.push .value with allowSimpleKey := false, cursor := s.cursor.next }
  | none =>
    let s ← s.openBlock .blockMappingStart "mapping values"
    let s ← s.dropKey
    return { s.push .value with allowSimpleKey := !s.inFlow, cursor := s.cursor.next }

def fetchAnchor (what : String) (make : String → Token) :
    Except Failure Scanner := do
  let s ← s.saveKey
  let (name, c) ← scanAnchor what s.cursor
  return { s.push (make name) with allowSimpleKey := false, cursor := c }

def fetchTag : Except Failure Scanner := do
  let s ← s.saveKey
  let (t, c) ← scanTag s.cursor
  return { s.push t with allowSimpleKey := false, cursor := c }

def fetchDirective : Except Failure Scanner := do
  let s ← (s.unwindTo (-1)).dropKey
  let (t, c) ← scanDirective s.cursor
  return { s.push t with allowSimpleKey := false, cursor := c }

def fetchBlockScalar (folded : Bool) : Except Failure Scanner := do
  let s ← s.dropKey
  let (text, c) ← blockScalar folded s.indent s.cursor
  return { s.push (.scalar (String.ofList text) false) with allowSimpleKey := true, cursor := c }

def fetchQuoted : Except Failure Scanner := do
  let s ← s.saveKey
  let (text, c) ← quotedScalar s.cursor
  return { s.push (.scalar (String.ofList text) false) with allowSimpleKey := false, cursor := c }

def fetchPlain : Except Failure Scanner := do
  let s ← s.saveKey
  let (text, broken, c) :=
    plainParts s.inFlow (s.indent + 1) s.cursor.bound [] [] false s.cursor
  return { s.push (.scalar (String.ofList text) true) with allowSimpleKey := broken, cursor := c }

def fetchEnd : Except Failure Scanner := do
  let s ← (s.unwindTo (-1)).dropKey
  return { s.push .streamEnd with allowSimpleKey := false, keys := [], done := true }

/-- A plain scalar may start here. -/
def startsPlain : Bool :=
  let ch := s.cursor.peek
  !(endsWord ch || "-?:,[]\x7b\x7d#&*!|>\x27\"%@\x60".toList.contains ch) ||
    (!endsWord (s.cursor.peekAt 1) && (ch == '-' || (!s.inFlow && (ch == '?' || ch == ':'))))

/-- Read the next token into the queue. -/
def fetch : Except Failure Scanner := do
  let s := toNextToken s.cursor.bound s.skipByteOrderMark
  let s ← s.dropStaleKeys
  let s := s.unwindTo (Int.ofNat s.cursor.column)
  let c := s.cursor
  let ch := c.peek
  let atMargin := c.column == 0
  let wordEnds := endsWord (c.peekAt 1)
  if c.rest.isEmpty then s.fetchEnd
  else if ch == '%' && atMargin then s.fetchDirective
  else if ch == '-' && atMargin && c.atDocumentMark then s.fetchDocumentMark .documentStart
  else if ch == '.' && atMargin && c.atDocumentMark then s.fetchDocumentMark .documentEnd
  else if ch == '[' then s.fetchFlowStart .flowSequenceStart
  else if ch == '{' then s.fetchFlowStart .flowMappingStart
  else if ch == ']' then s.fetchFlowEnd .flowSequenceEnd
  else if ch == '}' then s.fetchFlowEnd .flowMappingEnd
  else if ch == ',' then s.fetchFlowEntry
  else if ch == '-' && wordEnds then s.fetchBlockEntry
  else if ch == '?' && (s.inFlow || wordEnds) then s.fetchKey
  else if ch == ':' && (s.inFlow || wordEnds) then s.fetchValue
  else if ch == '*' then s.fetchAnchor "an alias" Token.reference
  else if ch == '&' then s.fetchAnchor "an anchor" Token.anchor
  else if ch == '!' then s.fetchTag
  else if ch == '|' && !s.inFlow then s.fetchBlockScalar false
  else if ch == '>' && !s.inFlow then s.fetchBlockScalar true
  else if ch == '\x27' || ch == '"' then s.fetchQuoted
  else if s.startsPlain then s.fetchPlain
  else throw (.problem (.scanning "for the next token"))

/-- The number of the first token that may turn out to be a key. -/
def firstKey? : Option Nat := (s.keys.map fun e => e.2.tokenNumber).min?

/-- Hand on the tokens that cannot turn out to be keys. -/
def deliver : Nat → Scanner → Scanner
  | 0, s => s
  | fuel + 1, s =>
    match s.queue with
    | [] => s
    | t :: rest =>
      if !s.done && s.firstKey? == some s.taken then s
      else deliver fuel { s with
        queue := rest, delivered := t :: s.delivered, taken := s.taken + 1 }

/-- Scan to the end of the text, or to the first problem. -/
def run : Nat → Scanner → List Token × Option Failure
  | 0, s => (s.delivered.reverse, none)
  | fuel + 1, s =>
    match s.fetch with
    | .error e => (s.delivered.reverse, some e)
    | .ok s =>
      if s.done then ((deliver (s.queue.length + 1) s).delivered.reverse, none)
      else match s.dropStaleKeys with
        | .error e => (s.delivered.reverse, some e)
        | .ok s => run fuel (deliver (s.queue.length + 1) s)

end Scanner

/-- Characters that YAML text may hold. -/
def isAcceptable (c : Char) : Bool :=
  let n := c.toNat
  c == '\t' || c == '\n' || c == '\r' || (0x20 ≤ n && n ≤ 0x7E) || n == 0x85 ||
    (0xA0 ≤ n && n ≤ 0xFFFD) || 0x10000 ≤ n

/-- The tokens of a text, and the problem that stops whoever asks for more of them. -/
def scan (source : List Char) : List Token × Option Failure :=
  match source.find? fun c => !isAcceptable c with
  | some c => ([], some (.problem (.unacceptableCharacter c)))
  | none => Scanner.run (2 * source.length + 2) { cursor := Cursor.start source }

end Crosswalk.Yaml
