import Crosswalk.Schema.Declaration

/-!
The declarations of a document by name, and the order in which each stands after those it refers to.
Of two declarations with one name the first counts.
-/

namespace Crosswalk

structure Catalogue where
  declarations : List Declaration
  duplicates : List Declaration
deriving Repr

namespace Catalogue

def names (c : Catalogue) : List Scalar := c.declarations.map Declaration.name

def find? (c : Catalogue) (name : Scalar) : Option Declaration :=
  c.declarations.find? fun d => d.name == name

def contains (c : Catalogue) (name : Scalar) : Bool := (c.find? name).isSome

def isObject (c : Catalogue) (name : Scalar) : Bool := (c.find? name).any Declaration.isObject

def empty : Catalogue := ⟨[], []⟩

def add (c : Catalogue) (d : Declaration) : Catalogue :=
  if c.contains d.name then { c with duplicates := c.duplicates ++ [d] }
  else { c with declarations := c.declarations ++ [d] }

def ofList (ds : List Declaration) : Catalogue := ds.foldl add empty

/-- A declaration in its place in the order, with the names that are still open there: itself and
the chain of declarations whose references led to it. -/
structure Step where
  name : Scalar
  pending : List Scalar
deriving Repr, DecidableEq

/-- Visit a name: first what it refers to, in order of first use, then itself. Names that are open
or done are passed over. `fuel` bounds the length of the chain of open names. -/
def visit (declared : List Scalar) (refs : Scalar → List Scalar) :
    Nat → List Scalar → List Step → Scalar → List Step
  | 0, _, done, _ => done
  | fuel + 1, chain, done, name =>
    if !declared.contains name || chain.contains name || done.any (fun s => s.name == name) then
      done
    else
      let open' := chain ++ [name]
      let done' := (refs name).foldl (visit declared refs fuel open') done
      done' ++ [⟨name, open'⟩]

/-- Every declared name, each after the names it refers to unless they are still open. -/
def order (c : Catalogue) (refs : Scalar → List Scalar) : List Step :=
  c.names.foldl (visit c.names refs c.names.length []) []

end Catalogue

end Crosswalk
