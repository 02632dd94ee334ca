import Crosswalk.Mapping.Trace
import Crosswalk.Schema.Catalogue
import Crosswalk.Source.Grammar

/-!
Mapping types. The grammar classifies one level of a type; its parts are mapped first and handed to
the renderer. Every level uses up a unit of a budget, and a type for which none is left is unknown.
A reference to a name that is being expanded, or that is printed later, takes the deferred form.
-/

namespace Crosswalk

open Logged (lift lift_ok record)

/-- A document and the target it is mapped to. -/
structure Mapping (ε : Type) where
  grammar : Grammar
  scope : Scope
  catalogue : Catalogue
  renderer : Renderer ε
  /-- Expand references in place. -/
  inline : Bool
  /-- The greatest depth, as it is written in warnings. -/
  limitText : String

namespace Mapping

variable {ε : Type}

def warn (d : Diagnostic) : Traced Unit := record (.warning d)

/-- What is too deep is unknown. -/
def cutOff (m : Mapping ε) (site : Site) : Traced ε := do
  record (.depthCut m.limitText site.declaration)
  return m.renderer.unknown ""

/-- Warn about integers that lose precision in the target. The warning shows the integer, so one
that has no text ends the mapping here. -/
def checkRange (site : Site) (vs : List Value) : Traced Unit :=
  (vs.filter isUnsafeInteger).forM fun v => do
    warn (.numericRange (← lift v.printed) site.declaration)

/-- The integers that the check warns about have texts. -/
def rangeShown (vs : List Value) : Bool := (vs.filter isUnsafeInteger).all Value.hasText

theorem rangeShown_of_hasText {vs : List Value} (h : ∀ v ∈ vs, v.hasText) : rangeShown vs :=
  List.all_eq_true.mpr fun v hv => h v (List.mem_filter.mp hv).1

/-- The check ends at the first integer without a text. -/
theorem checkRange_eq (site : Site) (vs : List Value) :
    checkRange site vs =
      ⟨if rangeShown vs then .ok () else .error .unreadableNumber,
        ((vs.filter isUnsafeInteger).takeWhile Value.hasText).map fun v =>
          .warning (.numericRange v.display site.declaration)⟩ := by
  unfold checkRange rangeShown
  generalize vs.filter isUnsafeInteger = ws
  induction ws with
  | nil => rfl
  | cons v ws ih =>
    rw [List.forM, ih, Value.printed]
    cases hv : v.hasText <;> simp [hv, Bind.bind, Logged.bind, lift, warn, record]

theorem rangeShown_of_checkRange {site : Site} {vs : List Value}
    (h : (checkRange site vs).result = .ok ()) : rangeShown vs := by
  rw [checkRange_eq] at h
  dsimp only at h
  split at h
  · assumption
  · cases h

theorem checkRange_of_rangeShown {vs : List Value} (h : rangeShown vs) (site : Site) :
    checkRange site vs = ⟨.ok (), (vs.filter isUnsafeInteger).map fun v =>
      .warning (.numericRange v.display site.declaration)⟩ := by
  have htake : (vs.filter isUnsafeInteger ++ []).takeWhile Value.hasText =
      vs.filter isUnsafeInteger ++ [].takeWhile Value.hasText :=
    List.takeWhile_append_of_pos (List.all_eq_true.mp h)
  rw [List.append_nil, List.takeWhile_nil, List.append_nil] at htake
  rw [checkRange_eq, if_pos h, htake]

def enumeration (m : Mapping ε) (site : Site) (vs : List Value) : Traced ε := do
  let (e, blocks) ← lift (m.renderer.enumeration site vs)
  blocks.forM fun b => record (.block b)
  return e

/-- Join expressions from the left. -/
def intersectAll (m : Mapping ε) (es : List ε) : Except Fault ε :=
  match es with
  | [] => .error .wrongKind
  | e :: es => es.foldlM m.renderer.intersect e

mutual

/-- Map a field and its arguments; `type` maps the type of a field. -/
def mapField (type : Field → Traced ε) : Field → Traced (MappedField ε)
  | ⟨key, raw, optional, description, defaultText, attributes, arguments⟩ => do
    let field : Field :=
      ⟨key, raw, optional, description, defaultText, attributes, arguments⟩
    let expression ← type field
    return { field, expression, arguments := ← mapFields type arguments }

def mapFields (type : Field → Traced ε) : List Field → Traced (List (MappedField ε))
  | [] => pure []
  | f :: fs => do
    let mapped ← mapField type f
    return mapped :: (← mapFields type fs)

end

/-- Fields are mapped one after the other, each before its arguments. -/
theorem mapFields_cons (type : Field → Traced ε) (f : Field) (fs : List Field) :
    mapFields type (f :: fs) = (do
      let expression ← type f
      let arguments ← mapFields type f.arguments
      let mapped ← mapFields type fs
      return ⟨f, expression, arguments⟩ :: mapped) := by
  obtain ⟨_, _, _, _, _, _, _⟩ := f
  simp only [mapFields, mapField, bind_assoc, pure_bind]

/-- What an object allows besides its fields; `type` maps a type. -/
def mapAdditional (type : Raw → Traced ε) :
    Option (Additional Raw) → Traced (Option (Additional ε))
  | none => pure none
  | some .anything => pure (some .anything)
  | some .nothing => pure (some .nothing)
  | some (.typed raw) => do return some (.typed (← type raw))

/-- How types and references are mapped at some depth, given the names that are being expanded. -/
structure Level (ε : Type) where
  type : List Scalar → Raw → Traced ε
  reference : List Scalar → String → Traced ε

/-- An object from its fields, with its bases before it. -/
def object (m : Mapping ε) (below : Level ε) (ancestors : List Scalar) (d : Declaration) :
    Traced ε := do
  let fields ← mapFields (fun f => below.type ancestors f.type) d.fields
  let additional ← mapAdditional (below.type ancestors) d.additional?
  let body ← lift (m.renderer.object fields additional false)
  let bases ← d.bases.mapM (below.reference ancestors)
  lift (m.intersectAll (bases ++ [body]))

/-- Expand a declaration in place. -/
def definition (m : Mapping ε) (site : Site) (below : Level ε) (ancestors : List Scalar)
    (d : Declaration) : Traced ε :=
  match d.body with
  | .enumeration body => do
    m.enumeration site (← lift (m.grammar.enumValues body))
  | .synonym body => below.type ancestors body
  | .object _ => m.object below ancestors d

/-- Map a reference. `below?` is missing if the budget ends here. -/
def resolve (m : Mapping ε) (site : Site) (known : List Scalar) (below? : Option (Level ε))
    (ancestors : List Scalar) (name : String) : Traced ε := do
  if !known.contains (.text name) then
    warn (.unknownReference name site.declaration)
    return m.renderer.unknown name
  else
    record (.reference name)
    if ancestors.contains (.text name) then return m.renderer.deferred name
    else if m.inline then
      match below?, m.catalogue.find? (.text name) with
      | none, _ => m.cutOff site
      | some below, some d => m.definition site below (.text name :: ancestors) d
      | some _, none => Logged.fail .noSuchPart
    else return m.renderer.reference name

section Resolve

variable {m : Mapping ε} {site : Site} {known : List Scalar} {below? : Option (Level ε)}
  {ancestors : List Scalar} {name : String}

theorem resolve_undeclared (hk : .text name ∉ known) :
    m.resolve site known below? ancestors name = (do
      warn (.unknownReference name site.declaration)
      return m.renderer.unknown name) := by
  simp [resolve, hk]

theorem resolve_open (hk : .text name ∈ known) (ho : .text name ∈ ancestors) :
    m.resolve site known below? ancestors name = (do
      record (.reference name)
      return m.renderer.deferred name) := by
  simp [resolve, hk, ho]

theorem resolve_named (hk : .text name ∈ known) (ho : .text name ∉ ancestors)
    (hi : m.inline = false) :
    m.resolve site known below? ancestors name = (do
      record (.reference name)
      return m.renderer.reference name) := by
  simp [resolve, hk, ho, hi]

theorem resolve_inline (hk : .text name ∈ known) (ho : .text name ∉ ancestors)
    (hi : m.inline = true) :
    m.resolve site known below? ancestors name = (do
      record (.reference name)
      match below?, m.catalogue.find? (.text name) with
      | none, _ => m.cutOff site
      | some below, some d => m.definition site below (.text name :: ancestors) d
      | some _, none => Logged.fail .noSuchPart) := by
  simp [resolve, hk, ho, hi]

end Resolve

/-- Fields picked from, or changed in, another object. -/
def selection (m : Mapping ε) (known : List Scalar)
    (type : List Scalar → Raw → Traced ε) (reference : String → Traced ε)
    (ancestors : List Scalar) (kind : Container) (args : List Raw) (keys : List String) :
    Traced ε := do
  match args with
  | [] => Logged.fail .tooShort
  | base :: _ =>
    match ← lift (m.grammar.classify m.scope base) with
    | .reference name =>
      if !known.contains (.text name) then type ancestors base
      else
        match if m.inline || ancestors.contains (.text name) then none
            else m.renderer.select? with
        | some select => do
          record (.reference name)
          lift (select kind name keys)
        | none =>
          if !m.catalogue.isObject (.text name) then reference name
          else
            let fields := ((m.catalogue.find? (.text name)).map Declaration.fields).getD []
            let mapped ← mapFields (fun f => type (.text name :: ancestors) f.type)
              (selectFields kind keys fields)
            lift (m.renderer.object mapped none false)
    | _ => type ancestors base

section Selection

variable {m : Mapping ε} {known : List Scalar} {type : List Scalar → Raw → Traced ε}
  {reference : String → Traced ε} {ancestors : List Scalar} {kind : Container} {base : Raw}
  {rest : List Raw} {keys : List String} {name : String}

theorem selection_failed {e : Fault} (hc : m.grammar.classify m.scope base = .error e) :
    m.selection known type reference ancestors kind (base :: rest) keys = Logged.fail e := by
  simp only [selection, hc]
  rfl

theorem selection_other {s : Shape} (hc : m.grammar.classify m.scope base = .ok s)
    (hs : ∀ name, s = .reference name → .text name ∉ known) :
    m.selection known type reference ancestors kind (base :: rest) keys = type ancestors base := by
  simp only [selection, hc, lift_ok, pure_bind]
  cases s with
  | reference name => simp [hs name rfl]
  | _ => rfl

theorem selection_selected {select : Container → String → List String → Except Fault ε}
    (hc : m.grammar.classify m.scope base = .ok (.reference name)) (hk : .text name ∈ known)
    (ho : .text name ∉ ancestors) (hi : m.inline = false) (hs : m.renderer.select? = some select) :
    m.selection known type reference ancestors kind (base :: rest) keys = (do
      record (.reference name)
      lift (select kind name keys)) := by
  simp [selection, hc, lift_ok, hk, ho, hi, hs]

/-- Nothing is selected by name: the fields are expanded, or the reference is kept. -/
theorem selection_expanded (hc : m.grammar.classify m.scope base = .ok (.reference name))
    (hk : .text name ∈ known)
    (hn : m.inline = true ∨ .text name ∈ ancestors ∨ m.renderer.select? = none) :
    m.selection known type reference ancestors kind (base :: rest) keys =
      if !m.catalogue.isObject (.text name) then reference name
      else (do
        let mapped ← mapFields (fun f => type (.text name :: ancestors) f.type)
          (selectFields kind keys
            (((m.catalogue.find? (.text name)).map Declaration.fields).getD []))
        lift (m.renderer.object mapped none false)) := by
  have hnone : (if m.inline || ancestors.contains (.text name) then none
      else m.renderer.select?) = none := by
    rcases hn with h | h | h <;> simp [h]
  simp only [selection, hc, lift_ok, pure_bind, List.contains_eq_mem, hk, decide_true,
    Bool.not_true, Bool.false_eq_true, if_false]
  rw [List.contains_eq_mem] at hnone
  rw [hnone]

end Selection

/-- Map a shape; `type` maps what is one level deeper, and `reference` a name at this level. -/
def shape (m : Mapping ε) (site : Site) (known : List Scalar)
    (type : List Scalar → Raw → Traced ε) (reference : String → Traced ε)
    (ancestors : List Scalar) : Shape → Traced ε
  | .primitive p cs => lift (m.renderer.primitive p cs)
  | .literal v => do
    checkRange site [v]
    lift (m.renderer.literal v)
  | .enumeration vs => do
    checkRange site vs
    m.enumeration site vs
  | .array element cs => do
    lift (m.renderer.array (← type ancestors element) cs)
  | .tuple elements => do
    lift (m.renderer.tuple (← elements.mapM (type ancestors)))
  | .union members => do
    match ← members.mapM (type ancestors) with
    | [e] => return e
    | es => lift (m.renderer.union es)
  | .intersection members => do
    lift (m.intersectAll (← members.mapM (type ancestors)))
  | .nullable inner => do
    lift (m.renderer.nullable (← type ancestors inner))
  | .optional inner => do
    lift (m.renderer.optional (← type ancestors inner))
  | .container .readonly args _ =>
    match args with
    | [] => Logged.fail .tooShort
    | inner :: _ => type ancestors inner
  | .container kind args keys =>
    if kind.isSelection then m.selection known type reference ancestors kind args keys
    else do lift (m.renderer.container kind (← args.mapM (type ancestors)))
  | .object fields additional => do
    let mapped ← mapFields (fun f => type ancestors f.type) fields
    let extra ← mapAdditional (type ancestors) additional
    lift (m.renderer.object mapped extra false)
  | .reference name => reference name
  | .unknown text => do
    if text != "" then
      warn (.unsupportedConstruct "type expression" (String.ofList (text.toList.take 80))
        site.declaration)
    return m.renderer.unknown text

/-- The mappers of types and references within a budget of levels. -/
def level (m : Mapping ε) (site : Site) (known : List Scalar) : Nat → Level ε
  | 0 =>
    { type := fun _ _ => m.cutOff site
      reference := m.resolve site known none }
  | budget + 1 =>
    let below : Level ε :=
      { type := fun ancestors raw => (level m site known budget).type ancestors raw
        reference := fun ancestors name =>
          (level m site known budget).reference ancestors name }
    let reference := m.resolve site known (if budget = 0 then none else some below)
    { type := fun ancestors raw => do
        let s ← lift (m.grammar.classify m.scope raw)
        m.shape site known below.type (reference ancestors) ancestors s
      reference }

/-- Map a type within a budget of levels. -/
def mapType (m : Mapping ε) (site : Site) (known : List Scalar) (budget : Nat)
    (ancestors : List Scalar) (raw : Raw) : Traced ε :=
  (m.level site known budget).type ancestors raw

/-- Map a reference within a budget of levels. -/
def mapReference (m : Mapping ε) (site : Site) (known : List Scalar) (budget : Nat)
    (ancestors : List Scalar) (name : String) : Traced ε :=
  (m.level site known budget).reference ancestors name

section Level

variable (m : Mapping ε) (site : Site) (known : List Scalar) (budget : Nat)
  (ancestors : List Scalar)

theorem mapType_zero (raw : Raw) : m.mapType site known 0 ancestors raw = m.cutOff site := rfl

theorem mapType_succ (raw : Raw) :
    m.mapType site known (budget + 1) ancestors raw = (do
      let s ← lift (m.grammar.classify m.scope raw)
      m.shape site known (m.mapType site known budget)
        (m.mapReference site known (budget + 1) ancestors) ancestors s) := rfl

theorem mapReference_zero :
    m.mapReference site known 0 = m.resolve site known none := rfl

theorem mapReference_succ :
    m.mapReference site known (budget + 1) =
      m.resolve site known (if budget = 0 then none else some (m.level site known budget)) := rfl

end Level

end Mapping

end Crosswalk
