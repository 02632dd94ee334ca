import Crosswalk.Mapping.Declaration
import Crosswalk.Settings
import Crosswalk.Target

/-!
Conversions: a document is read, its declarations are mapped, and the result is printed. A
conversion never fails without an answer: a problem that leaves no output is its diagnostic.
-/

namespace Crosswalk

/-- A source notation and a target notation. -/
structure Conversion where
  grammar : Grammar
  target : Target
  settings : Settings := {}
  /-- References are expanded in place. -/
  inline : Bool := false
deriving Repr

/-- What came out of a conversion. -/
structure Conversion.Result where
  output : String
  /-- Why there is no output. -/
  diagnostic : Option Diagnostic
  warnings : List Diagnostic
deriving Repr

namespace Conversion

def Result.isOk (r : Result) : Bool := r.diagnostic.isNone

/-- The warnings about declarations whose name is taken. -/
def duplicateWarnings (c : Catalogue) : List Diagnostic :=
  c.duplicates.map fun d =>
    .unsupportedConstruct "duplicate declaration" "only the first definition is kept" d.name

/-- The mapping of a document to the target. -/
def mapping (c : Conversion) (scope : Scope) (catalogue : Catalogue) (root : Scalar) :
    Mapping c.target.Expression where
  grammar := c.grammar
  scope := scope
  catalogue := catalogue
  renderer := c.target.renderer c.settings.indent root
  inline := c.inline
  limitText := c.settings.maxDepth.display

def rootName (c : Conversion) (catalogue : Catalogue) : Scalar :=
  if c.target.hasRoot then (catalogue.names.head?).getD (.text "") else .text ""

/-- Map the declarations of a document and print them. -/
def print (c : Conversion) (doc : Document) : Logged Diagnostic String :=
  let catalogue := doc.catalogue
  let m := c.mapping doc.scope catalogue (c.rootName catalogue)
  let budget := c.settings.budgetAt 0
  let traced := if c.target.isOrdered then m.inDependencyOrder budget else m.inSourceOrder budget
  let (progress, warnings) := ({} : Progress).afterAll traced.log
  let setting : Setting :=
    { indent := c.settings.indent, info := doc.info, blocks := progress.blocks }
  ⟨traced.result.bind (c.target.emit setting), duplicateWarnings catalogue ++ warnings⟩

/-- Convert a source, or fail with the fault that ended the conversion. -/
def run (c : Conversion) (source : List Char) : Logged Diagnostic String := do
  if c.settings.refusesLength source.length then
    Logged.fail (.refused (.tooLarge source.length c.settings.maxInputLength.grouped))
  else
    let doc ← c.grammar.extract source
    if doc.declarations.isEmpty then Logged.fail (.refused (.nothingFound c.grammar.content))
    else c.print doc

/-- Convert a source; the warnings are added to those that have been collected. -/
def convert (c : Conversion) (collected : Collector) (source : List Char) : Result × Collector :=
  let run := c.run source
  let collected := collected.add run.log
  match run.result with
  | .ok output => ({ output, diagnostic := none, warnings := collected.warnings }, collected)
  | .error f =>
    ({ output := c.target.placeholder, diagnostic := some f.diagnostic,
       warnings := collected.warnings }, collected)

end Conversion

end Crosswalk
