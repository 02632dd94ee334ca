import Crosswalk.Scan.Basic
import Crosswalk.Text.Segment

/-!
Splitting at the top level: separators count only outside literals and outside every tracked
delimiter. Parts are trimmed.
-/

namespace Crosswalk

/-- The trimmed parts between separators, with the part at hand reversed. -/
def splitFrom (tracked separators part : List Char) (previous : Option Char) (s : Scan) :
    List Char → List (List Char)
  | [] => [Text.trim part.reverse]
  | c :: cs =>
    if s.atTop && separators.contains c then
      Text.trim part.reverse :: splitFrom tracked separators [] (some c) s cs
    else splitFrom tracked separators (c :: part) (some c) (s.step tracked previous c) cs

/-- Empty parts at the end are dropped. -/
def dropTrailingEmpty (parts : List (List Char)) : List (List Char) :=
  (parts.reverse.dropWhile List.isEmpty).reverse

/-- The parts of a text between separators at the top level, without empty ones at the end. -/
def splitTop (tracked separators cs : List Char) : List (List Char) :=
  dropTrailingEmpty (splitFrom tracked separators [] none {} cs)

/-- The parts that are not empty. -/
def splitTopNonempty (tracked separators cs : List Char) : List (List Char) :=
  (splitFrom tracked separators [] none {} cs).filter fun p => !p.isEmpty

/-- The index of the first `mark` at the top level, after `i` characters. -/
def findTopFrom (tracked mark : List Char) (previous : Option Char) (s : Scan) (i : Nat) :
    List Char → Option Nat
  | [] => none
  | c :: cs =>
    if s.atTop && Text.startsWith mark (c :: cs) then some i
    else findTopFrom tracked mark (some c) (s.step tracked previous c) (i + 1) cs

/-- The index of the first `mark` at the top level, where the walk starts at `start`. -/
def findTop? (tracked mark cs : List Char) (start : Nat := 0) : Option Nat :=
  let previous := if start = 0 then none else cs[start - 1]?
  findTopFrom tracked mark previous {} start (cs.drop start)

/-- What precedes and what follows the first `mark` at the top level, both trimmed. -/
def splitFirstTop (tracked mark cs : List Char) : List Char × Option (List Char) :=
  match findTop? tracked mark cs with
  | none => (Text.trim cs, none)
  | some i => (Text.trim (cs.take i), some (Text.trim (cs.drop (i + mark.length))))

end Crosswalk
