import Crosswalk.Scan.Basic

/-!
The end of a string literal and the closer of a delimiter. Within a group only delimiters of the
same kind are counted, and the content of literals is passed over.
-/

namespace Crosswalk

/-- The index of the quote that ends the literal at hand, or of the last character if none does;
`i` characters of the text have been passed. -/
def literalCloseFrom (s : Scan) (i : Nat) : List Char → Nat
  | [] => i - 1
  | c :: cs =>
    let next := s.step [] none c
    if next.inLiteral then literalCloseFrom next (i + 1) cs else i

/-- The index at which the literal that opens a text ends. -/
def literalClose? : List Char → Option Nat
  | c :: cs => if isQuote c then some (literalCloseFrom { mode := .literal c } 1 cs) else none
  | [] => none

/-- The index at which the literal that opens at `i` ends. -/
def literalCloseAt? (cs : List Char) (i : Nat) : Option Nat :=
  (literalClose? (cs.drop i)).map (· + i)

/-- A text that is one string literal, opened by one of `quotes`. -/
def isStringLiteral (quotes : List Char) (cs : List Char) : Bool :=
  match cs with
  | c :: _ :: _ =>
    quotes.contains c && literalClose? cs == some (cs.length - 1) && cs.getLast? == some c
  | _ => false

/-- The index of the closer that brings `depth` to zero. -/
def closerFrom (opener closer : Char) (depth : Nat) (previous : Option Char) (s : Scan) (i : Nat) :
    List Char → Option Nat
  | [] => none
  | c :: cs =>
    let next := s.step [] previous c
    if s.inLiteral then closerFrom opener closer depth (some c) next (i + 1) cs
    else if c = opener then closerFrom opener closer (depth + 1) (some c) next (i + 1) cs
    else if c = closer && !(closer == '>' && previous == some '=') then
      if depth ≤ 1 then some i
      else closerFrom opener closer (depth - 1) (some c) next (i + 1) cs
    else closerFrom opener closer depth (some c) next (i + 1) cs

/-- The index of the closer that balances the delimiter which opens a text. -/
def closer? : List Char → Option Nat
  | [] => none
  | c :: cs => (Delimiter.ofOpener? c).bind fun d => closerFrom c d.closer 1 (some c) {} 1 cs

/-- The index of the closer that balances the delimiter at `i`. -/
def closerAt? (cs : List Char) (i : Nat) : Option Nat := (closer? (cs.drop i)).map (· + i)

/-- What stands between the delimiter that opens a text and its closer, and what follows. -/
def group? (cs : List Char) : Option (List Char × List Char) :=
  (closer? cs).map fun n => ((cs.take n).drop 1, cs.drop (n + 1))

end Crosswalk
