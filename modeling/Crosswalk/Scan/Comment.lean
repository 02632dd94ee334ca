import Crosswalk.Scan.Basic
import Crosswalk.Text.Segment

/-!
Removal of comments. A marker inside a string literal starts no comment. A block comment leaves a
single space, so that the words on either side stay apart.
-/

namespace Crosswalk

/-- The texts that start a comment up to the end of the line, and the pairs that enclose one. -/
structure CommentMarks where
  line : List (List Char) := ["//".toList]
  block : List (List Char × List Char) := [("/*".toList, "*/".toList)]
deriving Repr

namespace CommentMarks

/-- How many characters a block comment at the start of a text covers. -/
def blockLength (mark : List Char × List Char) (cs : List Char) : Nat :=
  match Text.breakOn? mark.2 (cs.drop mark.1.length) with
  | some (inside, _) => mark.1.length + inside.length + mark.2.length
  | none => cs.length

/-- `skip` characters of a comment remain to be passed. -/
def stripFrom (marks : CommentMarks) (out : List Char) (skip : Nat) (s : Scan) :
    List Char → List Char
  | [] => out.reverse
  | c :: cs =>
    match skip with
    | skip + 1 => stripFrom marks out skip s cs
    | 0 =>
      if s.inLiteral then stripFrom marks (c :: out) 0 (s.step [] none c) cs
      else if marks.line.any fun m => Text.startsWith m (c :: cs) then
        stripFrom marks out (((c :: cs).takeWhile (· != '\n')).length - 1) s cs
      else match marks.block.find? fun m => Text.startsWith m.1 (c :: cs) with
        | some m => stripFrom marks (' ' :: out) (blockLength m (c :: cs) - 1) s cs
        | none => stripFrom marks (c :: out) 0 (s.step [] none c) cs

/-- The text without its comments. -/
def strip (marks : CommentMarks) (cs : List Char) : List Char := stripFrom marks [] 0 {} cs

end CommentMarks

end Crosswalk
