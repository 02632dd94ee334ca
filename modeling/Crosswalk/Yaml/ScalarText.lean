import Crosswalk.Yaml.Cursor
import Crosswalk.Yaml.Problem

/-!
The text of scalars: plain, quoted, and literal or folded blocks. Line breaks inside a scalar are
folded: a single break becomes a space and further breaks stay.
-/

namespace Crosswalk.Yaml

/-- The text of a line break and the breaks after it once they are folded. -/
def foldBreaks (first : List Char) (more : List Char) : List Char :=
  if first != ['\n'] then first ++ more else if more.isEmpty then [' '] else more

/-! ### Plain scalars -/

/-- Where a plain scalar ends: before a blank, a colon that ends a key, or in flow context a mark of
flow structure. -/
def endsPlain (flow : Bool) (ch following : Char) : Bool :=
  endsWord ch ||
    (ch == ':' && (endsWord following ||
      (flow && (following == ',' || following == '[' || following == ']' || following == '{' ||
        following == '}')))) ||
    (flow && (ch == ',' || ch == '?' || ch == '[' || ch == ']' || ch == '{' || ch == '}'))

/-- How many characters of a plain scalar stand at the start of the text. -/
def plainLength (flow : Bool) : List Char → Nat
  | [] => 0
  | c :: cs => if endsPlain flow c (cs.headD endMark) then 0 else plainLength flow cs + 1

/-- The breaks and spaces after a line break in a plain scalar, unless a document mark ends it. -/
def plainBreaks : Nat → List Char → Cursor → Option (List Char) × Cursor
  | 0, breaks, c => (some breaks, c)
  | fuel + 1, breaks, c =>
    if c.peek == ' ' then plainBreaks fuel breaks c.next
    else if isBreak c.peek then
      let (b, c) := c.lineBreak
      if c.atDocumentMark then (none, c) else plainBreaks fuel (breaks ++ b) c
    else (some breaks, c)

/-- The blanks between two parts of a plain scalar; whether a line was broken comes third. -/
def plainSpaces (c : Cursor) : List Char × Cursor × Bool :=
  let (blanks, c) := c.takeWhile (· == ' ')
  if isBreak c.peek then
    let (b, c) := c.lineBreak
    if c.atDocumentMark then ([], c, true)
    else match plainBreaks c.bound [] c with
      | (none, c) => ([], c, true)
      | (some more, c) => (foldBreaks b more, c, true)
  else (blanks, c, false)

/-- The parts of a plain scalar. The flag says whether the scalar was followed by a line break. -/
def plainParts (flow : Bool) (indent : Int) :
    Nat → List Char → List Char → Bool → Cursor → List Char × Bool × Cursor
  | 0, text, _, broken, c => (text, broken, c)
  | fuel + 1, text, spaces, broken, c =>
    if c.peek == '#' then (text, broken, c)
    else
      let n := plainLength flow c.rest
      if n = 0 then (text, broken, c)
      else
        let text := text ++ spaces ++ c.rest.take n
        let (spaces, c, broken) := plainSpaces (c.forward n)
        if spaces.isEmpty || c.peek == '#' || (!flow && Int.ofNat c.column < indent) then
          (text, broken, c)
        else plainParts flow indent fuel text spaces broken c

/-! ### Quoted scalars -/

def escapeReplacement? : Char → Option Char
  | '0' => some '\x00'
  | 'a' => some '\x07'
  | 'b' => some '\x08'
  | 't' => some '\t'
  | '\t' => some '\t'
  | 'n' => some '\n'
  | 'v' => some '\x0b'
  | 'f' => some '\x0c'
  | 'r' => some '\r'
  | 'e' => some '\x1b'
  | ' ' => some ' '
  | '"' => some '"'
  | '\\' => some '\\'
  | '/' => some '/'
  | 'N' => some '\x85'
  | '_' => some '\xa0'
  | 'L' => some '\u2028'
  | 'P' => some '\u2029'
  | _ => none

def escapeWidth? : Char → Option Nat
  | 'x' => some 2
  | 'u' => some 4
  | 'U' => some 8
  | _ => none

def hexDigit? (c : Char) : Option Nat :=
  if '0' ≤ c && c ≤ '9' then some (c.toNat - 48)
  else if 'a' ≤ c && c ≤ 'f' then some (c.toNat - 87)
  else if 'A' ≤ c && c ≤ 'F' then some (c.toNat - 55)
  else none

def hexNumber (cs : List Char) : Option Nat :=
  cs.foldl (fun acc c => do return 16 * (← acc) + (← hexDigit? c)) (some 0)

/-- The breaks after a line break in a quoted scalar; a document mark must not stand there. -/
def quotedBreaks : Nat → List Char → Cursor → Except Failure (List Char × Cursor)
  | 0, breaks, c => .ok (breaks, c)
  | fuel + 1, breaks, c =>
    if c.atDocumentMark then .error (.problem (.scanning "a quoted scalar"))
    else
      let c := c.skipWhile fun ch => ch == ' ' || ch == '\t'
      if isBreak c.peek then
        let (b, c) := c.lineBreak
        quotedBreaks fuel (breaks ++ b) c
      else .ok (breaks, c)

/-- The blanks inside a quoted scalar. -/
def quotedSpaces (c : Cursor) : Except Failure (List Char × Cursor) :=
  let (blanks, c) := c.takeWhile fun ch => ch == ' ' || ch == '\t'
  if c.rest.isEmpty then .error (.problem (.scanning "a quoted scalar"))
  else if isBreak c.peek then do
    let (b, c) := c.lineBreak
    let (more, c) ← quotedBreaks c.bound [] c
    return (foldBreaks b more, c)
  else .ok (blanks, c)

def isQuotedStop (c : Char) : Bool := c == '\x27' || c == '"' || c == '\\' || endsWord c

/-- What an escape stands for. -/
def quotedEscape (c : Cursor) : Except Failure (List Char × Cursor) :=
  let ch := c.peek
  match escapeReplacement? ch, escapeWidth? ch with
  | some r, _ => .ok ([r], c.next)
  | none, some width =>
    let c := c.next
    let digits := c.rest.take width
    match hexNumber digits, digits.length == width with
    | some n, true =>
      if 0x10FFFF < n then .error (.fault .unreadableNumber)
      else
        let char := if 0xD800 ≤ n && n < 0xE000 then '\uFFFD' else Char.ofNat n
        .ok ([char], c.forward width)
    | _, _ => .error (.problem (.scanning "a double-quoted scalar"))
  | none, none =>
    if isBreak ch then
      let c := c.lineBreak.2
      quotedBreaks c.bound [] c
    else .error (.problem (.scanning "a double-quoted scalar"))

/-- The text of a quoted scalar up to the next blank or the closing quote. -/
def quotedRun (double : Bool) : Nat → List Char → Cursor → Except Failure (List Char × Cursor)
  | 0, text, c => .ok (text, c)
  | fuel + 1, text, c => do
    let (run, c) := c.takeWhile fun ch => !isQuotedStop ch
    let text := text ++ run
    let ch := c.peek
    if !double && ch == '\x27' && c.peekAt 1 == '\x27' then
      quotedRun double fuel (text ++ ['\x27']) (c.forward 2)
    else if (double && ch == '\x27') || (!double && (ch == '"' || ch == '\\')) then
      quotedRun double fuel (text ++ [ch]) c.next
    else if double && ch == '\\' then
      let (more, c) ← quotedEscape c.next
      quotedRun double fuel (text ++ more) c
    else return (text, c)

/-- Runs and blanks in turn until the closing quote. -/
def quotedBody (quote : Char) : Nat → List Char → Cursor → Except Failure (List Char × Cursor)
  | 0, text, c => .ok (text, c)
  | fuel + 1, text, c => do
    if c.peek == quote && !c.rest.isEmpty then return (text, c.next)
    else
      let (spaces, c) ← quotedSpaces c
      let (run, c) ← quotedRun (quote == '"') c.bound [] c
      quotedBody quote fuel (text ++ spaces ++ run) c

/-- A quoted scalar, from its opening quote. -/
def quotedScalar (c : Cursor) : Except Failure (List Char × Cursor) := do
  let quote := c.peek
  let c := c.next
  let (run, c) ← quotedRun (quote == '"') c.bound [] c
  quotedBody quote c.bound run c

/-! ### Block scalars -/

/-- What is done with the line breaks at the end of a block scalar. -/
inductive Chomping where
  | strip | clip | keep
deriving Repr, DecidableEq

def chomping? : Char → Option Chomping
  | '+' => some .keep
  | '-' => some .strip
  | _ => none

def blockProblem {α : Type} : Except Failure α := .error (.problem (.scanning "a block scalar"))

def isDigitChar (c : Char) : Bool := '0' ≤ c && c ≤ '9'

/-- The chomping and indentation indicators of a block scalar, in either order. -/
def blockIndicators (c : Cursor) : Except Failure (Chomping × Option Nat × Cursor) :=
  let finish (chomping : Chomping) (increment : Option Nat) (c : Cursor) :
      Except Failure (Chomping × Option Nat × Cursor) :=
    if c.peek == ' ' || isBreakOrEnd c.peek then .ok (chomping, increment, c) else blockProblem
  match chomping? c.peek with
  | some chomping =>
    let c := c.next
    if isDigitChar c.peek then
      if c.peek == '0' then blockProblem
      else finish chomping (some (c.peek.toNat - 48)) c.next
    else finish chomping none c
  | none =>
    if isDigitChar c.peek then
      if c.peek == '0' then blockProblem
      else
        let increment := some (c.peek.toNat - 48)
        let c := c.next
        match chomping? c.peek with
        | some chomping => finish chomping increment c.next
        | none => finish .clip increment c
    else finish .clip none c

/-- The rest of the header line of a block scalar. -/
def blockHeaderEnd (c : Cursor) : Except Failure Cursor :=
  let c := c.skipSpaces.skipComment
  if isBreakOrEnd c.peek then .ok c.lineBreak.2 else blockProblem

/-- The leading breaks of a block scalar and the greatest indentation among them. -/
def blockIndentation : Nat → List Char → Nat → Cursor → List Char × Nat × Cursor
  | 0, breaks, greatest, c => (breaks, greatest, c)
  | fuel + 1, breaks, greatest, c =>
    if c.peek == ' ' then
      let c := c.next
      blockIndentation fuel breaks (max greatest c.column) c
    else if isBreak c.peek then
      let (b, c) := c.lineBreak
      blockIndentation fuel (breaks ++ b) greatest c
    else (breaks, greatest, c)

/-- Pass at most the indentation. -/
def skipIndent (indent : Int) : Nat → Cursor → Cursor
  | 0, c => c
  | fuel + 1, c =>
    if Int.ofNat c.column < indent && c.peek == ' ' then skipIndent indent fuel c.next else c

/-- The breaks before the next line of a block scalar, with the indentation passed. -/
def blockBreaks (indent : Int) : Nat → List Char → Cursor → List Char × Cursor
  | 0, breaks, c => (breaks, c)
  | fuel + 1, breaks, c =>
    let c := skipIndent indent c.bound c
    if isBreak c.peek then
      let (b, c) := c.lineBreak
      blockBreaks indent fuel (breaks ++ b) c
    else (breaks, c)

def isSpaceOrTab (c : Char) : Bool := c == ' ' || c == '\t'

/-- The lines of a block scalar: text, the last line break, and the breaks after it. -/
def blockLines (folded : Bool) (indent : Int) :
    Nat → List Char → List Char → List Char → Cursor → List Char × List Char × List Char × Cursor
  | 0, text, last, breaks, c => (text, last, breaks, c)
  | fuel + 1, text, last, breaks, c =>
    if Int.ofNat c.column == indent && !c.rest.isEmpty then
      let text := text ++ breaks
      let flush := !isSpaceOrTab c.peek
      let (line, c) := c.takeWhile fun ch => !isBreak ch
      let text := text ++ line
      let (last, c) := c.lineBreak
      let (breaks, c) := blockBreaks indent c.bound [] c
      if Int.ofNat c.column == indent && !c.rest.isEmpty then
        if folded && last == ['\n'] && flush && !isSpaceOrTab c.peek then
          let joint := if breaks.isEmpty then [' '] else []
          blockLines folded indent fuel (text ++ joint) last breaks c
        else blockLines folded indent fuel (text ++ last) last breaks c
      else (text, last, breaks, c)
    else (text, last, breaks, c)

/-- A block scalar, from its indicator; `parent` is the indentation of what holds it. -/
def blockScalar (folded : Bool) (parent : Int) (c : Cursor) :
    Except Failure (List Char × Cursor) := do
  let (chomping, increment, c) ← blockIndicators c.next
  let c ← blockHeaderEnd c
  let least := max (parent + 1) 1
  let (breaks, indent, c) := match increment with
    | none =>
      let (breaks, greatest, c) := blockIndentation c.bound [] 0 c
      (breaks, max least (Int.ofNat greatest), c)
    | some n =>
      let indent := least + Int.ofNat n - 1
      let (breaks, c) := blockBreaks indent c.bound [] c
      (breaks, indent, c)
  let (text, last, breaks, c) := blockLines folded indent c.bound [] [] breaks c
  let tail := match chomping with
    | .strip => []
    | .clip => last
    | .keep => last ++ breaks
  return (text ++ tail, c)

end Crosswalk.Yaml
