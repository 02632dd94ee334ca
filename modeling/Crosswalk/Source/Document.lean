import Crosswalk.Schema.Catalogue

/-!
What is read from a source: its declarations, facts about the document, and the names that decide
how its types are classified.
-/

namespace Crosswalk

/-- Names that a document gives a meaning to. -/
structure Scope where
  /-- Scalars that the document defines. -/
  customScalars : List String := []
  /-- The declaration that a reference to the whole document means. -/
  rootName : String := ""
deriving Repr

structure Document where
  declarations : List Declaration
  info : List (String × Value) := []
  scope : Scope := {}
deriving Repr

/-- A declaration, or the reason why one was skipped. -/
abbrev Finding := Except Diagnostic Declaration

namespace Document

abbrev catalogue (doc : Document) : Catalogue := .ofList doc.declarations

/-- Record the reasons for what was skipped. -/
def report {α : Type} (found : List (Except Diagnostic α)) : Logged Diagnostic (List α) where
  result := .ok (found.filterMap fun f => f.toOption)
  log := found.filterMap fun f =>
    match f with
    | .error d => some d
    | .ok _ => none

/-- Read what each head announces, in turn. -/
def readAll {α : Type} (heads : List α) (read : α → Except Fault (Nat × Finding)) :
    Logged Diagnostic (List (Nat × Declaration)) := do
  let found ← heads.mapM fun h => do
    let (place, finding) ← Logged.lift (read h)
    let kept ← report [finding]
    return kept.map fun d => (place, d)
  return found.flatten

/-- Declarations in the order of their places. -/
def inOrder (found : List (Nat × Declaration)) : List Declaration :=
  (found.mergeSort fun a b => a.1 ≤ b.1).map Prod.snd

end Document

end Crosswalk
