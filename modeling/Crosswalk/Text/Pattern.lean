import Crosswalk.Text.Blank
import Crosswalk.Text.WordCharacter

/-!
Patterns with ordered choice. A pattern offers its matches at a position in an order of preference:
the first alternative before the second, the longest repetition first (or last, if the repetition
is reluctant). The match of a sequence is the first choice for its first part that lets the rest
match.
-/

namespace Crosswalk.Text

/-- A place in a text: how many characters precede it, the last of them, and what follows. -/
structure Place where
  index : Nat
  previous : Option Char
  rest : List Char
deriving Repr, DecidableEq

namespace Place

def start (cs : List Char) : Place := ⟨0, none, cs⟩

def atWordEdge (p : Place) : Bool :=
  (p.previous.any isWord) != (p.rest.head?.any isWord)

/-- The text from one place to a later one. -/
def upTo (p q : Place) : List Char := p.rest.take (q.index - p.index)

/-- The place `n` characters further on. -/
def skip : Nat → Place → Place
  | 0, p => p
  | _ + 1, ⟨i, prev, []⟩ => ⟨i, prev, []⟩
  | n + 1, ⟨i, _, c :: cs⟩ => skip n ⟨i + 1, some c, cs⟩

/-- The places that are reached over characters of a class, the furthest first. -/
def reachOver (p : Char → Bool) (passed : List Place) : Nat → Option Char → List Char → List Place
  | i, prev, [] => ⟨i, prev, []⟩ :: passed
  | i, prev, c :: cs =>
    if p c then reachOver p (⟨i, prev, c :: cs⟩ :: passed) (i + 1) (some c) cs
    else ⟨i, prev, c :: cs⟩ :: passed

end Place

inductive Pattern where
  | empty
  /-- One character of a class. -/
  | one (p : Char → Bool)
  | seq (a b : Pattern)
  | alt (a b : Pattern)
  /-- As many characters of a class as the rest allows. -/
  | run (p : Char → Bool)
  /-- As few characters of a class as the rest allows. -/
  | reluctantRun (p : Char → Bool)
  /-- As many matches of a pattern as the rest allows. -/
  | star (a : Pattern)
  /-- The text that `a` matches is kept under a number. -/
  | group (n : Nat) (a : Pattern)
  | wordEdge
  /-- The start of the text or of a line. -/
  | lineStart
  /-- The end of the text or of a line. -/
  | lineEnd
  /-- The end of the text, or just before a newline that ends it. -/
  | textEnd
  /-- The rest starts with a match of `a`, which is not passed. -/
  | ahead (a : Pattern)

namespace Pattern

/-- The texts kept by groups, the last first. -/
abbrev Groups := List (Nat × List Char)

abbrev Matcher (α : Type) := Place → Groups → (Place → Groups → Option α) → Option α

/-- Repeat a matcher while it moves on, with at most `fuel` rounds. -/
def repeated {α : Type} (m : Matcher α) : Nat → Matcher α
  | 0, p, g, k => k p g
  | fuel + 1, p, g, k =>
    (m p g fun q g' => if q.index = p.index then none else repeated m fuel q g' k).orElse
      fun _ => k p g

/-- Offer ever longer runs over a class, the shortest first. -/
def offerRuns {α : Type} (c : Char → Bool) (g : Groups) (k : Place → Groups → Option α) :
    Nat → Option Char → List Char → Option α
  | i, prev, [] => k ⟨i, prev, []⟩ g
  | i, prev, x :: xs =>
    match k ⟨i, prev, x :: xs⟩ g with
    | some r => some r
    | none => if c x then offerRuns c g k (i + 1) (some x) xs else none

/-- The first match of a pattern at a place that the continuation accepts. -/
def first {α : Type} : Pattern → Matcher α
  | .empty, p, g, k => k p g
  | .one c, p, g, k =>
    match p.rest with
    | x :: xs => if c x then k ⟨p.index + 1, some x, xs⟩ g else none
    | [] => none
  | .seq a b, p, g, k => first a p g fun q g' => first b q g' k
  | .alt a b, p, g, k => (first a p g k).orElse fun _ => first b p g k
  | .run c, p, g, k =>
    (Place.reachOver c [] p.index p.previous p.rest).findSome? fun q => k q g
  | .reluctantRun c, p, g, k => offerRuns c g k p.index p.previous p.rest
  | .star a, p, g, k => repeated (first a) (p.rest.length + 1) p g k
  | .group n a, p, g, k => first a p g fun q g' => k q ((n, p.upTo q) :: g')
  | .wordEdge, p, g, k => if p.atWordEdge then k p g else none
  | .lineStart, p, g, k => if p.previous.isNone || p.previous == some '\n' then k p g else none
  | .lineEnd, p, g, k => if p.rest.isEmpty || p.rest.head? == some '\n' then k p g else none
  | .textEnd, p, g, k => if p.rest.isEmpty || p.rest == ['\n'] then k p g else none
  | .ahead a, p, g, k => first a p g fun _ g' => k p g'

instance : Append Pattern := ⟨Pattern.seq⟩

instance : OrElse Pattern := ⟨fun a b => .alt a (b ())⟩

def char (c : Char) : Pattern := .one (· == c)

/-- The characters of a text in turn, each tested by `same`. -/
def spelled (same : Char → Char → Bool) : List Char → Pattern
  | [] => .empty
  | [c] => .one (same c)
  | c :: cs => .seq (.one (same c)) (spelled same cs)

def text (s : String) : Pattern := spelled (· == ·) s.toList

/-- Letters agree without regard to case. Besides the ASCII pairs, the long s counts as an s, the
Kelvin sign as a k, and the dotted capital and dotless small i as an i. -/
def sameLetter (a b : Char) : Bool :=
  a.toLower == b.toLower ||
    match a.toLower with
    | 's' => b == 'ſ'
    | 'k' => b == 'K'
    | 'i' => b == 'İ' || b == 'ı'
    | _ => false

/-- A word in any mixture of upper and lower case. -/
def word (s : String) : Pattern := spelled sameLetter s.toList

def maybe (a : Pattern) : Pattern := .alt a .empty

def plus (a : Pattern) : Pattern := a ++ .star a

def run1 (c : Char → Bool) : Pattern := .one c ++ .run c

def blanks : Pattern := .run isBlank

def blanks1 : Pattern := run1 isBlank

/-- A match: where it starts and ends, and the texts kept. -/
structure Found where
  start : Place
  stop : Place
  groups : Groups

namespace Found

/-- The text last kept under a number. -/
def get? (m : Found) (n : Nat) : Option (List Char) :=
  (m.groups.find? fun e => e.1 == n).map Prod.snd

def getD (m : Found) (n : Nat) : List Char := (m.get? n).getD []

end Found

def matchAt? (a : Pattern) (p : Place) : Option Found :=
  first a p [] fun q g => some ⟨p, q, g⟩

def matchStart? (a : Pattern) (cs : List Char) : Option Found := a.matchAt? (Place.start cs)

/-- The first match at or after a place. -/
def searchFrom (a : Pattern) (i : Nat) (prev : Option Char) (rest : List Char) : Option Found :=
  match a.matchAt? ⟨i, prev, rest⟩ with
  | some m => some m
  | none =>
    match rest with
    | [] => none
    | c :: cs => searchFrom a (i + 1) (some c) cs

def search? (a : Pattern) (p : Place) : Option Found := a.searchFrom p.index p.previous p.rest

/-- Successive matches that do not overlap; after an empty match the search moves on by one. -/
def allFrom (a : Pattern) : Nat → Place → List Found
  | 0, _ => []
  | fuel + 1, p =>
    match a.search? p with
    | none => []
    | some m =>
      m :: (if m.stop.index = m.start.index then
          (if m.stop.rest.isEmpty then [] else allFrom a fuel (m.stop.skip 1))
        else allFrom a fuel m.stop)

def all (a : Pattern) (cs : List Char) : List Found := a.allFrom (cs.length + 1) (Place.start cs)

/-- The text with every match replaced. -/
def substitute (a : Pattern) (new : Found → List Char) (cs : List Char) : List Char :=
  let go := (a.all cs).foldl
    (fun (acc : List (List Char) × Place) m =>
      (new m :: acc.2.upTo m.start :: acc.1, m.stop)) ([], Place.start cs)
  (go.2.rest :: go.1).reverse.flatten

end Pattern

end Crosswalk.Text
