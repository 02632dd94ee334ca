import Crosswalk.Target.Renderer

/-!
What happens while types are mapped, as a list of events, and the state that a list of events leaves
behind: the references of the declaration at hand, the blocks to be printed, and the warnings.
-/

namespace Crosswalk

namespace Mapping

inductive Event where
  /-- Mapping turns to another declaration. -/
  | enterDeclaration (name : Scalar)
  /-- Mapping turns to a field of the declaration itself. -/
  | enterField (key : Scalar)
  | reference (name : String)
  | warning (d : Diagnostic)
  /-- A type was cut off because it is nested too deeply. -/
  | depthCut (limit : String) (declaration : Scalar)
  | block (b : Block)
deriving Repr

/-- A result with the events on the way to it. -/
abbrev Traced (α : Type) := Logged Event α

end Mapping

/-- The state of mapping a document. -/
structure Progress where
  site : Site := {}
  /-- The names that the declaration at hand refers to, in order of first use. -/
  references : List String := []
  /-- The declarations that have been cut off somewhere. -/
  cut : List Scalar := []
  blocks : List Block := []
deriving Repr

namespace Progress

/-- Set the text of a block: a name that is present keeps its place. -/
def putBlock (b : Block) : List Block → List Block
  | [] => [b]
  | c :: cs => if c.name == b.name then b :: cs else c :: putBlock b cs

/-- Take account of an event; a cut is reported once for each declaration. -/
def after (p : Progress) : Mapping.Event → Progress × List Diagnostic
  | .enterDeclaration name => ({ p with site := { declaration := name }, references := [] }, [])
  | .enterField key => ({ p with site := { p.site with field := key } }, [])
  | .reference name =>
    (if p.references.contains name then p else { p with references := p.references ++ [name] }, [])
  | .warning d => (p, [d])
  | .depthCut limit declaration =>
    if p.cut.contains declaration then (p, [])
    else ({ p with cut := declaration :: p.cut }, [.depthExceeded limit declaration])
  | .block b => ({ p with blocks := putBlock b p.blocks }, [])

/-- Take account of events in turn. -/
def afterAll (p : Progress) (events : List Mapping.Event) : Progress × List Diagnostic :=
  events.foldl
    (fun acc e =>
      let (next, ds) := acc.1.after e
      (next, acc.2 ++ ds))
    (p, [])

@[simp] theorem afterAll_nil (p : Progress) : p.afterAll [] = (p, []) := rfl

theorem afterAll_cons (p : Progress) (e : Mapping.Event) (es : List Mapping.Event) :
    p.afterAll (e :: es) =
      (((p.after e).1.afterAll es).1, (p.after e).2 ++ ((p.after e).1.afterAll es).2) := by
  have hfrom (q : Progress) (ds : List Diagnostic) :
      es.foldl (fun (acc : Progress × List Diagnostic) e =>
          ((acc.1.after e).1, acc.2 ++ (acc.1.after e).2)) (q, ds) =
        ((q.afterAll es).1, ds ++ (q.afterAll es).2) := by
    induction es generalizing q ds with
    | nil => simp
    | cons e es ih =>
      have hcons : q.afterAll (e :: es) =
          ((((q.after e).1).afterAll es).1, (q.after e).2 ++ ((q.after e).1.afterAll es).2) :=
        ih _ _
      rw [List.foldl_cons, ih, hcons]
      simp [List.append_assoc]
  exact hfrom _ _

end Progress

end Crosswalk
