import Crosswalk.Conversion
import Crosswalk.Proofs.ScriptLiterals

/-!
Types of GraphQL fields with their marks. A level without a mark is read as the same level with a
mark that may be absent, so a mark is written and taken away again on the way down. Main statement:
a type is mapped level by level, and optional are exactly the levels without a mark.
-/

namespace Crosswalk.GraphQL

open List
open Identifier (isPart)

variable {c : Char} {cs : List Char}

/-! ### Names -/

theorem isPart_of_isNameStart (h : isNameStart c) : isPart c := by
  apply isPart_of_isStart
  simp only [isNameStart, Bool.or_eq_true] at h
  simp only [Identifier.isStart, Bool.or_eq_true]
  exact .inl h

theorem forall_isPart_of_isName (h : isName cs) : ∀ c ∈ cs, isPart c := by
  cases cs with
  | nil => cases h
  | cons c cs =>
    simp only [isName, Bool.and_eq_true, all_eq_true] at h
    refine forall_mem_cons.mpr ⟨isPart_of_isNameStart h.1, fun d hd => ?_⟩
    rw [isPart, h.2 d hd]
    rfl

theorem ne_nil_of_isName (h : isName cs) : cs ≠ [] := by
  rintro rfl
  cases h

/-! ### Types -/

/-- A name or a list, which is never absent if it is `required`. -/
inductive TypeText where
  | named (name : String) (required : Bool)
  | list (element : TypeText) (required : Bool)
deriving Repr

namespace TypeText

def mark (required : Bool) : List Char := if required then ['!'] else []

/-- A type as it is written. -/
def print : TypeText → List Char
  | named n required => n.toList ++ mark required
  | list t required => '[' :: (t.print ++ ']' :: mark required)

/-- The name within all lists. -/
def name : TypeText → String
  | named n _ => n
  | list t _ => t.name

/-- How many lists stand in each other. -/
def nesting : TypeText → Nat
  | named _ _ => 0
  | list t _ => t.nesting + 1

/-- Characters outside the brackets of a type. -/
def isOutside (c : Char) : Bool := isPart c || c == '!'

variable {t : TypeText} {n : String} {required : Bool} {custom : List String}

theorem piece_name {tracked : List Char} (h : isName n.toList) : Piece tracked isOutside n.toList :=
  .of_word (ne_nil_of_isName h) (forall_isPart_of_isName h) fun c hc => by simp [isOutside, hc]

/-- The brackets of a type close, and nothing in it divides. -/
theorem piece_print (h : isName t.name.toList) : Piece tracked isOutside t.print := by
  have hmarked {cs : List Char} (hcs : Piece tracked isOutside cs) (required : Bool) :
      Piece tracked isOutside (cs ++ mark required) := by
    cases required with
    | false => rwa [mark, if_neg (by decide), append_nil]
    | true => exact hcs.append (.plain rfl rfl .nil) ⟨'!', rfl, rfl⟩
  induction t with
  | named n required => exact hmarked (piece_name h) required
  | list t required ih =>
    have hgroup : Piece tracked isOutside ('[' :: (t.print ++ [']'])) :=
      ⟨.group .bracket (by decide) ((ih h).balanced.mono fun _ _ => rfl) .nil, ⟨'[', rfl, rfl⟩,
        ⟨']', by rw [← cons_append, getLast?_concat], rfl⟩⟩
    simpa [print] using hmarked hgroup required

theorem notMem_print (h : isName t.name.toList) (hc : isOutside c = false) (hopen : c ≠ '[')
    (hclose : c ≠ ']') : c ∉ t.print := by
  rw [isOutside, Bool.or_eq_false_iff, beq_eq_false_iff_ne] at hc
  induction t with
  | named n required =>
    have hname : c ∉ n.toList := fun hmem => by simp [forall_isPart_of_isName h c hmem] at hc
    cases required <;> simp [print, mark, hname, hc.2]
  | list t required ih => cases required <;> simp [print, mark, ih h, hc.2, hopen, hclose]

/-! ### One level -/

/-- What a level stands for apart from its mark. -/
theorem classify_unmarked (h : isName t.name.toList) (hlast : t.print.getLast? ≠ some '!') :
    classify custom t.print = .optional (.text (t.print ++ ['!'])) := by
  have hpiece := piece_print h
  have hsingle : splitTopNonempty tracked ['|'] t.print = [t.print] :=
    hpiece.splitTopNonempty_eq rfl
  rw [classify, hpiece.trim_eq, hsingle]
  simp [hpiece.ne_nil, hlast, notMem_print h (c := '|') rfl (by decide) (by decide)]

theorem classify_list (h : isName t.name.toList) :
    classify custom (list t true).print = .array (.text t.print) [] := by
  have hpiece := piece_print (t := list t true) h
  have hsingle : splitTopNonempty tracked ['|'] (list t true).print = [(list t true).print] :=
    hpiece.splitTopNonempty_eq rfl
  have hprint : (list t true).print = '[' :: (t.print ++ [']']) ++ ['!'] := by simp [print, mark]
  have henclosed : enclosed? '[' ('[' :: (t.print ++ [']'])) = some t.print :=
    (piece_print h).balanced.enclosed?_group .bracket
  rw [classify, hpiece.trim_eq, hsingle, hprint, getLast?_concat, dropLast_concat,
    Text.trim_between rfl rfl]
  simp [henclosed, (piece_print h).trim_eq]

/-- A scalar that is built in, or a name that no scalar has. -/
theorem classify_named (h : isName n.toList)
    (hscalar : (scalar? n).isSome ∨ (wellKnownScalar? n = none ∧ n ∉ custom)) :
    classify custom (named n true).print =
      match scalar? n with
      | some p => .primitive p []
      | none => .reference n := by
  have hpiece := piece_print (t := named n true) h
  have hsingle : splitTopNonempty tracked ['|'] (named n true).print = [(named n true).print] :=
    hpiece.splitTopNonempty_eq rfl
  have hprint : (named n true).print = n.toList ++ ['!'] := rfl
  have hopen : enclosed? '[' n.toList = none := enclosed?_of_head (by
    intro hhead
    exact absurd (forall_isPart_of_isName h _ (mem_of_mem_head? hhead)) (by decide))
  rw [classify, hpiece.trim_eq, hsingle, hprint, getLast?_concat, dropLast_concat,
    (@piece_name _ tracked h).trim_eq]
  cases hs : scalar? n with
  | some p => simp [hopen, hs]
  | none =>
    obtain ⟨hwell, hcustom⟩ := hscalar.resolve_left (by simp [hs])
    simp [hopen, hs, hwell, hcustom, h]

/-! ### Schemas -/

/-- The schema of a name: that of a scalar, or the constant that is declared for it. -/
def constant (n : String) : String :=
  match n with
  | "ID" | "String" => "z.string()"
  | "Int" => "z.number().int()"
  | "Float" => "z.number()"
  | "Boolean" => "z.boolean()"
  | n => Identifier.sanitize n ++ "Schema"

def optionally (required : Bool) (expr : String) : String :=
  if required then expr else expr ++ ".optional()"

/-- The schema of a type. -/
def schema : TypeText → String
  | named n required => optionally required (constant n)
  | list t required => optionally required ("z.array(" ++ t.schema ++ ")")

open Target.Zod (isOptional)

/-- What is optional ends in a call without arguments. -/
theorem isOptional_eq_false {expr : String} (h : expr.toList.dropLast.getLast? ≠ some '(') :
    isOptional expr = false := by
  rw [isOptional, Bool.eq_false_iff, Ne, Text.endsWith_iff]
  rintro ⟨u, hu⟩
  rw [← hu] at h
  have hcall : u ++ ".optional()".toList = u ++ ".optional(".toList ++ [')'] := by simp
  rw [hcall, dropLast_concat] at h
  exact h (by simp)

theorem constant_of_scalar {p : Primitive} (h : scalar? n = some p) :
    Target.Zod.primitive false p = constant n := by
  unfold scalar? at h
  split at h <;> cases h <;> rfl

theorem constant_of_declared (h : scalar? n = none) : Target.Zod.schemaName n = constant n := by
  unfold scalar? at h
  unfold constant
  split
  case h_6 => rfl
  all_goals cases h

theorem isOptional_constant (n : String) : isOptional (constant n) = false := by
  unfold constant
  split
  case h_6 => exact isOptional_eq_false (by simp [dropLast_append_of_ne_nil])
  all_goals decide

theorem getLast?_append {mark : String} (expr : String) (h : mark.toList.getLast? = some c) :
    (expr ++ mark).toList.getLast? = some c := by
  rw [String.toList_append, List.getLast?_append, h]
  rfl

theorem getLast?_schema (t : TypeText) : ∃ c, t.schema.toList.getLast? = some c ∧ c ≠ '(' := by
  have hconstant (n : String) : ∃ c, (constant n).toList.getLast? = some c ∧ c ≠ '(' := by
    unfold constant
    split
    case h_6 => exact ⟨'a', getLast?_append _ rfl, by decide⟩
    all_goals exact ⟨')', rfl, by decide⟩
  cases t with
  | named n required =>
    cases required with
    | false => exact ⟨')', getLast?_append _ rfl, by decide⟩
    | true => exact hconstant n
  | list t required =>
    cases required with
    | false => exact ⟨')', getLast?_append _ rfl, by decide⟩
    | true => exact ⟨')', getLast?_append _ rfl, by decide⟩

/-- The same type with a mark. -/
def require : TypeText → TypeText
  | named n _ => named n true
  | list t _ => list t true

/-- The schema without regard to the outermost mark. -/
def inner : TypeText → String
  | named n _ => constant n
  | list t _ => "z.array(" ++ t.schema ++ ")"

/-- No schema is taken for one that is optional already. -/
theorem optional_inner (t : TypeText) : Target.Zod.optional t.inner = t.inner ++ ".optional()" := by
  have hinner : isOptional t.inner = false := by
    cases t with
    | named n required => exact isOptional_constant n
    | list t required =>
      obtain ⟨c, hc, hne⟩ := getLast?_schema t
      have htext :
          (inner (list t required)).toList = "z.array(".toList ++ t.schema.toList ++ [')'] := by
        simp [inner]
      refine isOptional_eq_false ?_
      rw [htext, dropLast_concat, List.getLast?_append, hc]
      simpa using hne
  rw [Target.Zod.optional, hinner]
  rfl

/-! ### All levels -/

/-- Names that stand for a schema: scalars that are built in, and types that are declared. -/
def IsDeclared (scope : Scope) (known ancestors : List Scalar) (n : String) : Prop :=
  isName n.toList = true ∧ ((scalar? n).isSome = true ∨
    wellKnownScalar? n = none ∧ n ∉ scope.customScalars ∧ .text n ∈ known ∧ .text n ∉ ancestors)

/-- The names of declarations in a type. -/
def references (t : TypeText) : List String := if (scalar? t.name).isSome then [] else [t.name]

/-- From types to schemas, with references by name. -/
abbrev schemas (settings : Settings) : Conversion :=
  { grammar := .graphQL, target := .zod, settings }

variable {settings : Settings} {scope : Scope} {catalogue : Catalogue} {root : Scalar} {site : Site}
  {known ancestors : List Scalar} {budget : Nat}

theorem mapType_named (h : IsDeclared scope known ancestors n) :
    ((schemas settings).mapping scope catalogue root).mapType site known (budget + 1) ancestors
      (.text (named n true).print) =
        ⟨.ok (constant n), (named n true).references.map .reference⟩ := by
  obtain ⟨hname, hscalar⟩ := h
  have hclassify : (((schemas settings).mapping scope catalogue root).grammar.classify
      ((schemas settings).mapping scope catalogue root).scope (.text (named n true).print)) =
        .ok (match scalar? n with
          | some p => .primitive p []
          | none => .reference n) :=
    congrArg Except.ok (classify_named hname (hscalar.imp_right fun h => ⟨h.1, h.2.1⟩))
  rw [Mapping.mapType_succ, hclassify, Logged.lift_ok, pure_bind]
  cases hs : scalar? n with
  | some p =>
    rw [← constant_of_scalar hs]
    simp [references, name, hs]
    rfl
  | none =>
    obtain ⟨-, -, hknown, hopen⟩ := hscalar.resolve_left (by simp [hs])
    change Mapping.mapReference _ site known (budget + 1) ancestors n = _
    rw [Mapping.mapReference_succ, Mapping.resolve_named hknown hopen rfl,
      ← constant_of_declared hs]
    simp [references, name, hs]
    rfl

/-- A type has a mark, or lacks it in its text and in its schema. -/
theorem required_or_optional (h : isName t.name.toList) :
    (t.require = t ∧ t.schema = t.inner) ∨
      (t.print.getLast? ≠ some '!' ∧ t.print ++ ['!'] = t.require.print ∧
        t.schema = Target.Zod.optional t.inner) := by
  rw [optional_inner]
  cases t with
  | named n required =>
    cases required with
    | true => exact .inl ⟨rfl, rfl⟩
    | false =>
      refine .inr ⟨fun hlast => ?_, by simp [print, mark, require], rfl⟩
      have hmem : '!' ∈ n.toList := by simpa [print, mark] using mem_of_getLast? hlast
      exact absurd (forall_isPart_of_isName h _ hmem) (by decide)
  | list t required =>
    cases required with
    | true => exact .inl ⟨rfl, rfl⟩
    | false =>
      have hlast : (list t false).print.getLast? = some ']' := by
        rw [print, mark, if_neg (by decide), ← cons_append, getLast?_concat]
      exact .inr ⟨by simp [hlast], by simp [print, mark, require], rfl⟩

/-- A level without a mark is mapped as the level with a mark and made optional. -/
theorem mapType_of_require (hname : isName t.name.toList) {events : List Mapping.Event}
    (h : ∀ budget, 2 * t.nesting + 1 ≤ budget →
      ((schemas settings).mapping scope catalogue root).mapType site known budget ancestors
        (.text t.require.print) = ⟨.ok t.inner, events⟩)
    (hbudget : 2 * t.nesting + 2 ≤ budget) :
    ((schemas settings).mapping scope catalogue root).mapType site known budget ancestors
      (.text t.print) =
      ⟨.ok t.schema, events⟩ := by
  rcases required_or_optional hname with ⟨hrequire, hschema⟩ | ⟨hlast, hprint, hschema⟩
  · rw [hschema, ← h budget (by omega), hrequire]
  · obtain ⟨below, rfl⟩ := Nat.exists_eq_add_one_of_ne_zero (show budget ≠ 0 by omega)
    have hclassify : ((schemas settings).mapping scope catalogue root).grammar.classify
        ((schemas settings).mapping scope catalogue root).scope (.text t.print) =
          .ok (.optional (.text t.require.print)) := by
      rw [← hprint]
      exact congrArg Except.ok (classify_unmarked hname hlast)
    rw [Mapping.mapType_succ, hclassify, Logged.lift_ok, pure_bind, Mapping.shape,
      h below (by omega), hschema]
    exact congrArg (Logged.mk _) (append_nil _)

/-- A type with a mark is mapped without regard to it. -/
theorem mapType_require (h : IsDeclared scope known ancestors t.name)
    (hbudget : 2 * t.nesting + 1 ≤ budget) :
    ((schemas settings).mapping scope catalogue root).mapType site known budget ancestors
      (.text t.require.print) = ⟨.ok t.inner, t.references.map .reference⟩ := by
  induction t generalizing budget with
  | named n required =>
    obtain ⟨below, rfl⟩ := Nat.exists_eq_add_one_of_ne_zero (show budget ≠ 0 by omega)
    exact mapType_named h
  | list t required ih =>
    rw [nesting] at hbudget
    obtain ⟨below, rfl⟩ := Nat.exists_eq_add_one_of_ne_zero (show budget ≠ 0 by omega)
    have hclassify : ((schemas settings).mapping scope catalogue root).grammar.classify
        ((schemas settings).mapping scope catalogue root).scope (.text (list t true).print) =
          .ok (.array (.text t.print) []) := congrArg Except.ok (classify_list h.1)
    have hbelow : 2 * t.nesting + 2 ≤ below := by omega
    have helement := mapType_of_require (t := t) h.1 (fun _ => ih h) hbelow
    rw [require, Mapping.mapType_succ, hclassify, Logged.lift_ok, pure_bind, Mapping.shape,
      helement]
    exact congrArg (Logged.mk _) (append_nil _)

/-- Types are mapped to schemas level by level, with the declarations they refer to noted. -/
theorem mapType_schema (settings : Settings) (scope : Scope) (catalogue : Catalogue) (root : Scalar)
    (site : Site) (known ancestors : List Scalar) {t : TypeText}
    (ht : IsDeclared scope known ancestors t.name) {limit : Int}
    (hlimit : settings.maxDepth.floor? = .ok (some limit)) (hnesting : 2 * t.nesting + 1 ≤ limit) :
    ((schemas settings).mapping scope catalogue root).mapType site known (settings.budgetAt 0)
      ancestors
      (.text t.print) = ⟨.ok t.schema, t.references.map .reference⟩ := by
  exact mapType_of_require ht.1 (fun _ => mapType_require ht) (Settings.lt_budgetAt hlimit hnesting)

/-- A list that may be absent, of lists that are never absent, of users that may be. -/
def userLists : TypeText := .list (.list (.named "User" false) true) false

theorem userLists_schema :
    IsDeclared {} [.text "User"] [] userLists.name ∧ 2 * userLists.nesting + 1 ≤ (5 : Int) ∧
      userLists.print = "[[User]!]".toList ∧
      ((schemas { maxDepth := .int 5 }).mapping {} (.ofList []) (.text "")).mapType {}
        [.text "User"] 6 []
        (.text userLists.print) =
          ⟨.ok "z.array(z.array(UserSchema.optional())).optional()", [.reference "User"]⟩ := by
  have hdeclared : IsDeclared {} [.text "User"] [] userLists.name :=
    ⟨by decide, .inr ⟨rfl, by simp, by simp [userLists, name], by simp⟩⟩
  have hschema : userLists.schema = "z.array(z.array(UserSchema.optional())).optional()" := by
    decide
  refine ⟨hdeclared, by decide, rfl, ?_⟩
  rw [← hschema]
  exact mapType_schema { maxDepth := .int 5 } {} (.ofList []) (.text "") {} [.text "User"] []
    hdeclared rfl (by decide)

end TypeText

end Crosswalk.GraphQL
