import Crosswalk.Scan.Closer

/-!
Cutting off groups that are nested too deeply. A group that stands in at least `limit` others is
replaced as a whole; one that never closes is replaced up to the end of the text.
-/

namespace Crosswalk

/-- The text with deep groups replaced, and their number. `skip` characters of a group remain to be
passed. -/
def collapseFrom (tracked replacement : List Char) (limit : Nat) (out : List Char)
    (count skip : Nat) (previous : Option Char) (s : Scan) : List Char → List Char × Nat
  | [] => (out.reverse, count)
  | c :: cs =>
    match skip with
    | skip + 1 => collapseFrom tracked replacement limit out count skip (some c) s cs
    | 0 =>
      if !s.inLiteral && tracked.contains c && limit ≤ s.depths.total then
        collapseFrom tracked replacement limit (replacement.reverse ++ out) (count + 1)
          ((closer? (c :: cs)).getD cs.length) (some c) s cs
      else
        collapseFrom tracked replacement limit (c :: out) count 0 (some c)
          (s.step tracked previous c) cs

def collapseDeep (tracked replacement : List Char) (limit : Nat) (cs : List Char) :
    List Char × Nat :=
  collapseFrom tracked replacement limit [] 0 0 none {} cs

end Crosswalk
