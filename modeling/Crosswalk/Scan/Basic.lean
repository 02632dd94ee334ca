/-!
A walk over source text that knows, at every character, which delimiters are open and whether the
character belongs to a string literal. All cutting of source text goes through `Scan.step`, so that
it agrees on what is structure and what is the content of a literal.
-/

namespace Crosswalk

/-- The kinds of brackets that can nest. -/
inductive Delimiter where
  | brace | paren | bracket | angle
deriving Repr, DecidableEq

namespace Delimiter

def opener : Delimiter → Char
  | brace => '{'
  | paren => '('
  | bracket => '['
  | angle => '<'

def closer : Delimiter → Char
  | brace => '}'
  | paren => ')'
  | bracket => ']'
  | angle => '>'

def all : List Delimiter := [brace, paren, bracket, angle]

def ofOpener? (c : Char) : Option Delimiter := all.find? fun d => d.opener == c

def ofCloser? (c : Char) : Option Delimiter := all.find? fun d => d.closer == c

end Delimiter

def isQuote (c : Char) : Bool := c == '"' || c == '\x27' || c == '\x60'

/-- The opening characters that nest in most notations. -/
def everyOpener : List Char := ['{', '(', '[', '<']

/-- The opening characters that nest where `<` and `>` are comparisons. -/
def openersWithoutAngle : List Char := ['{', '(', '[']

/-- How deep the text at hand stands in each kind of delimiter. -/
structure Depths where
  brace : Nat := 0
  paren : Nat := 0
  bracket : Nat := 0
  angle : Nat := 0
deriving Repr, DecidableEq

namespace Depths

def get (d : Depths) : Delimiter → Nat
  | .brace => d.brace
  | .paren => d.paren
  | .bracket => d.bracket
  | .angle => d.angle

def modify (f : Nat → Nat) (d : Depths) : Delimiter → Depths
  | .brace => { d with brace := f d.brace }
  | .paren => { d with paren := f d.paren }
  | .bracket => { d with bracket := f d.bracket }
  | .angle => { d with angle := f d.angle }

def total (d : Depths) : Nat := d.brace + d.paren + d.bracket + d.angle

end Depths

/-- Where the walk stands with respect to string literals. -/
inductive Mode where
  | code
  | literal (quote : Char)
  /-- Just after a backslash in a literal: the next character has no meaning of its own. -/
  | escape (quote : Char)
deriving Repr, DecidableEq

structure Scan where
  mode : Mode := .code
  depths : Depths := {}
deriving Repr, DecidableEq

namespace Scan

def inLiteral (s : Scan) : Bool := s.mode != .code

/-- The quote that opened the literal at hand. -/
def quote? (s : Scan) : Option Char :=
  match s.mode with
  | .code => none
  | .literal q | .escape q => some q

/-- Outside every literal and every tracked delimiter. -/
def atTop (s : Scan) : Bool := !s.inLiteral && s.depths.total == 0

/-- A closer that is tracked and is not the head of an arrow `=>`. -/
def closes? (tracked : List Char) (previous : Option Char) (c : Char) : Option Delimiter :=
  match Delimiter.ofCloser? c with
  | some d =>
    if tracked.contains d.opener && !(c == '>' && previous == some '=') then some d else none
  | none => none

/-- Pass one character. Only the delimiters whose opener is in `tracked` are counted, and a depth
never falls below zero, so that a stray closer leaves the walk where it is. -/
def step (tracked : List Char) (previous : Option Char) (c : Char) (s : Scan) : Scan :=
  match s.mode with
  | .escape q => { s with mode := .literal q }
  | .literal q =>
    if c = '\\' then { s with mode := .escape q }
    else if c = q then { s with mode := .code }
    else s
  | .code =>
    if isQuote c then { s with mode := .literal c }
    else match Delimiter.ofOpener? c with
      | some d =>
        if tracked.contains c then { s with depths := s.depths.modify (· + 1) d } else s
      | none =>
        match closes? tracked previous c with
        | some d => { s with depths := s.depths.modify (· - 1) d }
        | none => s

/-- Pass a text. -/
def run (tracked : List Char) (previous : Option Char) (s : Scan) : List Char → Scan
  | [] => s
  | c :: cs => run tracked (some c) (s.step tracked previous c) cs

end Scan

/-- The first delimiter that `cs` leaves open, or the quote of a literal it leaves open. -/
def openAtEnd? (tracked cs : List Char) : Option Char :=
  let s := Scan.run tracked none {} cs
  match s.quote? with
  | some q => some q
  | none => (Delimiter.all.find? fun d => s.depths.get d != 0).map Delimiter.opener

/-- A source with a place in it, for walking by hand. -/
structure Scanner where
  source : List Char
  tracked : List Char := everyOpener
  index : Nat := 0
  scan : Scan := {}
deriving Repr

namespace Scanner

/-- The character at an offset from the place at hand. -/
def peek? (s : Scanner) (offset : Int) : Option Char :=
  let i := Int.ofNat s.index + offset
  if i < 0 then none else s.source[i.toNat]?

def atEnd (s : Scanner) : Bool := s.source.length ≤ s.index

/-- Pass one character, or an escape in a literal as a whole, and return what was passed. -/
def advance (s : Scanner) : List Char × Scanner :=
  match s.source.drop s.index with
  | [] => ([], s)
  | c :: cs =>
    let next := s.scan.step s.tracked (s.peek? (-1)) c
    match next.mode, cs with
    | .escape _, d :: _ =>
      ([c, d], { s with index := s.index + 2, scan := next.step s.tracked (some c) d })
    | _, _ => ([c], { s with index := s.index + 1, scan := next })

/-- Pass everything that remains. -/
def finish (s : Scanner) : List Char × Scanner :=
  let rest := s.source.drop s.index
  (rest, { s with
    index := s.index + rest.length
    scan := s.scan.run s.tracked (s.peek? (-1)) rest })

end Scanner

end Crosswalk
