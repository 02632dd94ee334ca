import Crosswalk.Text.Segment

/-!
A place in YAML text with its line and column, both counted from zero.
-/

namespace Crosswalk.Yaml

/-- Characters that break a line. -/
def isBreak (c : Char) : Bool :=
  c == '\n' || c == '\r' || c == '\x85' || c == '\u2028' || c == '\u2029'

/-- The end of the text is marked by a NUL, which the text itself cannot hold. -/
def endMark : Char := '\x00'

def isBreakOrEnd (c : Char) : Bool := isBreak c || c == endMark

/-- A space, a tab, a line break or the end of the text. -/
def endsWord (c : Char) : Bool := c == ' ' || c == '\t' || isBreakOrEnd c

structure Cursor where
  index : Nat := 0
  line : Nat := 0
  column : Nat := 0
  rest : List Char
  /-- More than the characters of the whole text: no walk over it takes as many steps. -/
  bound : Nat
deriving Repr

namespace Cursor

def start (source : List Char) : Cursor := { rest := source, bound := source.length + 1 }

def peek (c : Cursor) : Char := c.rest.headD endMark

def peekAt (c : Cursor) (n : Nat) : Char := (c.rest.drop n).headD endMark

/-- Pass one character. A byte order mark takes no column. -/
def next (c : Cursor) : Cursor :=
  match c.rest with
  | [] => c
  | ch :: cs =>
    if isBreak ch && !(ch == '\r' && cs.head? == some '\n') then
      { c with index := c.index + 1, line := c.line + 1, column := 0, rest := cs }
    else if ch == '\uFEFF' then { c with index := c.index + 1, rest := cs }
    else { c with index := c.index + 1, column := c.column + 1, rest := cs }

def forward : Nat → Cursor → Cursor
  | 0, c => c
  | n + 1, c => forward n c.next

/-- The characters of a class at the cursor, and the place after them. -/
def takeWhile (p : Char → Bool) (c : Cursor) : List Char × Cursor :=
  let cs := c.rest.takeWhile p
  (cs, c.forward cs.length)

def skipWhile (p : Char → Bool) (c : Cursor) : Cursor := (c.takeWhile p).2

def skipSpaces (c : Cursor) : Cursor := c.skipWhile (· == ' ')

/-- Pass a comment up to the end of its line. -/
def skipComment (c : Cursor) : Cursor :=
  if c.peek == '#' then c.skipWhile fun ch => !isBreak ch else c

/-- Pass a line break. Breaks of all common kinds count as a newline; the two Unicode separators
stand for themselves. -/
def lineBreak (c : Cursor) : List Char × Cursor :=
  match c.rest with
  | '\r' :: '\n' :: _ => (['\n'], c.forward 2)
  | ch :: _ =>
    if ch == '\r' || ch == '\n' || ch == '\x85' then (['\n'], c.next)
    else if ch == '\u2028' || ch == '\u2029' then ([ch], c.next)
    else ([], c)
  | [] => ([], c)

/-- A line that starts or ends a document stands here. -/
def atDocumentMark (c : Cursor) : Bool :=
  (Text.startsWith ['-', '-', '-'] c.rest || Text.startsWith ['.', '.', '.'] c.rest) &&
    endsWord (c.peekAt 3)

end Cursor

end Crosswalk.Yaml
