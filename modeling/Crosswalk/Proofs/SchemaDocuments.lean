import Crosswalk.Proofs.PlainNotations

/-!
Documents of schema nodes. The first declaration is the document itself and the others are its
definitions, so a name that is known when it is referred to is a name that can be followed. Main
statement: every reference in a document that was made from TypeScript or SQL leads to the document
or to one of its definitions. The nodes themselves are no deeper than the depth limit allows.
-/

namespace Crosswalk

open List
open Catalogue (mem_of_mem_ofList ofList)

variable {doc : Document} {output : String}

/-! ### Parts of documents -/

theorem exists_map_text {α : Type} {f : α → Scalar} {as : List α}
    (h : ∀ a ∈ as, ∃ n, f a = .text n) : ∃ ns : List String, as.map f = ns.map .text := by
  induction as with
  | nil => exact ⟨[], rfl⟩
  | cons a as ih =>
    rw [forall_mem_cons] at h
    obtain ⟨n, hn⟩ := h.1
    obtain ⟨ns, hns⟩ := ih h.2
    exact ⟨n :: ns, by rw [map_cons, hn, hns, map_cons]⟩

namespace Value

variable {es : List (Scalar × Value)} {key : String} {ns : List String}

/-- The part of a value that is reached by keys. -/
def part? : List String → Value → Option Value
  | [], v => some v
  | key :: keys, .map es => (lookup? key es).bind (part? keys)
  | _ :: _, _ => none

/-- The keys of the mapping that is reached by keys. -/
def keysAt (path : List String) (v : Value) : List Scalar :=
  match v.part? path with
  | some (.map es) => es.map Prod.fst
  | _ => []

theorem keysAt_cons {path : List String} {v : Value} (h : lookup? key es = some v) :
    keysAt (key :: path) (.map es) = v.keysAt path := by
  simp [keysAt, part?, h]

theorem keysAt_of_none {path : List String} (h : lookup? key es = none) :
    keysAt (key :: path) (.map es) = [] := by
  simp [keysAt, part?, h]

theorem lookup?_eq_none (h : ∀ e ∈ es, e.1 ≠ .text key) : lookup? key es = none := by
  simpa [lookup?] using h

theorem lookup?_insert_self (key : String) (v : Value) (es : List (Scalar × Value)) :
    lookup? key (insert (.text key) v es) = some v := by
  induction es with
  | nil => simp [insert, lookup?]
  | cons e es ih =>
    rw [insert]
    split
    case isTrue hsame =>
      have hkey : e.1 = .text key := (eq_text_iff_of_same hsame).mpr rfl
      simp [lookup?, hkey]
    case isFalse hother =>
      have hkey : (e.1 == .text key) = false := by
        rw [beq_eq_false_iff_ne]
        intro heq
        rw [heq, same_text] at hother
        simp at hother
      simp only [lookup?, find?_cons, hkey] at ih ⊢
      exact ih

theorem exists_texts (h : es.map Prod.fst = ns.map .text) :
    ∃ es', es = texts es' ∧ es'.map Prod.fst = ns := by
  induction es generalizing ns with
  | nil =>
    cases ns with
    | nil => exact ⟨[], rfl, rfl⟩
    | cons n ns => cases h
  | cons e es ih =>
    cases ns with
    | nil => cases h
    | cons n ns =>
      obtain ⟨hn, hns⟩ := cons.inj h
      obtain ⟨es', rfl, rfl⟩ := ih hns
      refine ⟨(n, e.2) :: es', ?_, rfl⟩
      rw [texts_cons, ← hn]

theorem lookup?_of_mem (h : es.map Prod.fst = ns.map .text) (hn : ns.Nodup) {v : Value}
    (hmem : (.text key, v) ∈ es) : lookup? key es = some v := by
  obtain ⟨es', rfl, rfl⟩ := exists_texts h
  obtain ⟨e, he, heq⟩ := mem_map.mp hmem
  cases heq
  rw [lookup?_texts]
  exact lookup_of_mem hn he

theorem ofEntries_eq_self (h : es.map Prod.fst = ns.map .text) (hn : ns.Nodup) :
    ofEntries es = es := by
  obtain ⟨es', rfl, rfl⟩ := exists_texts h
  exact ofEntries_texts hn

end Value

/-! ### Documents that list declarations in source order -/

namespace Conversion

variable {c : Conversion}

/-- The output is printed from these declarations in source order. -/
structure Lists (c : Conversion) (doc : Document)
    (mds : List (MappedDeclaration c.target.Expression)) (output : String) : Prop where
  mapped : ((c.mappingOf doc).inSourceOrder (c.settings.budgetAt 0)).result = .ok mds
  emitted : ∃ setting, c.target.emit setting mds = .ok output

theorem result_of_convert {collected : Collector} {source : List Char}
    (h : (c.convert collected source).1.diagnostic = none) :
    (c.run source).result = .ok (c.convert collected source).1.output := by
  unfold convert at h ⊢
  dsimp only at h ⊢
  split at h
  case h_1 output hrun => rw [hrun]
  case h_2 => cases h

theorem lists_of_convert (ho : c.target.isOrdered = false) {collected : Collector}
    {source : List Char} (h : (c.convert collected source).1.diagnostic = none) :
    ∃ doc mds, (c.grammar.extract source).result = .ok doc ∧ doc.declarations ≠ [] ∧
      c.Lists doc mds (c.convert collected source).1.output := by
  have hrun := result_of_convert h
  rw [run] at hrun
  split at hrun
  · cases hrun
  obtain ⟨doc, hdoc, hrun⟩ := result_bind_eq_ok.mp hrun
  split at hrun
  · cases hrun
  rename_i hne
  simp only [print, ho, Bool.false_eq_true, if_false] at hrun
  obtain ⟨mds, hmds, hemit⟩ := bind_eq_ok.mp hrun
  exact ⟨doc, mds, hdoc, by simpa using hne, hmds, _, hemit⟩

/-- Each declaration of the catalogue is mapped, in its place. -/
theorem Lists.map_declaration {mds : List (MappedDeclaration c.target.Expression)}
    (h : c.Lists doc mds output) :
    mds.map MappedDeclaration.declaration = doc.catalogue.declarations := by
  have hmapped := h.mapped
  rw [Mapping.inSourceOrder, Logged.result_mapM] at hmapped
  change doc.catalogue.declarations.mapM _ = _ at hmapped
  generalize doc.catalogue.declarations = ds at hmapped
  have hall := forall₂_of_mapM hmapped
  clear hmapped h
  induction hall with
  | nil => rfl
  | cons hmd _ ih => rw [map_cons, ih, (Mapping.parts_of_mapped hmd).1]

theorem Lists.map_name {mds : List (MappedDeclaration c.target.Expression)}
    (h : c.Lists doc mds output) :
    mds.map MappedDeclaration.name = doc.catalogue.names := by
  rw [Catalogue.names, ← h.map_declaration, map_map]
  rfl

/-- The registered names are texts, each of them once. -/
theorem exists_names {written : String → Prop} {ds : List Declaration}
    (h : ∀ d ∈ ds, d.Regular written) :
    ∃ ns : List String, (ofList ds).names = ns.map .text ∧ ns.Nodup := by
  obtain ⟨ns, hns⟩ := exists_map_text fun d hd => (h d (mem_of_mem_ofList hd)).named
  have hnodup := Catalogue.names_ofList_nodup ds
  rw [Catalogue.names, hns] at hnodup
  exact ⟨ns, hns, hnodup.of_map _⟩

theorem names_ofList_ne_nil {ds : List Declaration} (h : ds ≠ []) :
    (ofList ds).names ≠ [] := by
  cases ds with
  | nil => exact absurd rfl h
  | cons d ds =>
    have hfind := Catalogue.find?_ofList (d :: ds) d.name
    rw [find?_cons_of_pos (by simp)] at hfind
    exact ne_nil_of_mem (mem_map_of_mem (mem_of_find?_eq_some hfind))

end Conversion

/-! ### The document of JSON Schema -/

namespace Target.JsonSchema

open Value

variable {ok : String → Prop} {n : Nat}

theorem linked_declarationNode {md : MappedDeclaration Value} {es : Node}
    (hlinked : Linked ok (n + 1) md.expression)
    (hplain : ∀ v, md.declaration.description? = some v → v.isPlain)
    (h : declarationNode md = .ok es) : Linked ok (n + 1) (.map es) := by
  obtain ⟨es', hes', _⟩ := hlinked.isNode
  rw [hes'] at hlinked
  simp only [declarationNode, hes', asNode] at h
  obtain ⟨_, hok, h⟩ := bind_eq_ok.mp h
  cases hok
  split at h
  case h_1 v hv =>
    cases h
    split
    · exact linked_set rfl hlinked (within_of_isPlain (hplain v hv))
    · exact hlinked
  case h_2 =>
    cases h
    exact hlinked

/-- The root with what stands before its keywords. -/
theorem linked_headed {es head : Node} (hes : Linked ok (n + 1) (.map es))
    (hhead : Linked ok (n + 1) (.map head)) :
    Linked ok (n + 1) (.map (es.foldl (fun acc e => Value.insert e.1 e.2 acc) head)) := by
  obtain ⟨⟨_, hnode, hkeys⟩, hwithin⟩ := hes
  cases hnode
  obtain ⟨⟨_, hnode, hheadKeys⟩, hheadWithin⟩ := hhead
  cases hnode
  rw [within_map] at hwithin hheadWithin
  refine ⟨⟨_, rfl, ?_⟩, within_map.mpr ?_⟩
  · exact forall_mem_foldl_insert (Q := fun e => e.1 ≠ .text "$defs") defs_ne_of_same hkeys
      hheadKeys
  · exact forall_mem_foldl_insert entryWithin_of_same hwithin hheadWithin

theorem map_fst_definitions {mds : List (MappedDeclaration Value)} {definitions : Node}
    (h : (mds.mapM fun d => do return (d.name, Value.map (← declarationNode d))) =
      .ok definitions) :
    definitions.map Prod.fst = mds.map MappedDeclaration.name := by
  have hall := forall₂_of_mapM h
  clear h
  induction hall with
  | nil => rfl
  | cons hmd _ ih =>
    obtain ⟨inner, _, hmd⟩ := bind_eq_ok.mp hmd
    cases hmd
    rw [map_cons, map_cons, ih]

/-- The document: its references are those of the declarations, and its definitions are the
declarations after the first. -/
theorem exists_document {root : MappedDeclaration Value} {others : List (MappedDeclaration Value)}
    {ns : List String} (hlinked : ∀ md ∈ root :: others, Linked ok (n + 1) md.expression)
    (hplain : ∀ md ∈ root :: others, ∀ v, md.declaration.description? = some v → v.isPlain)
    (hnames : others.map MappedDeclaration.name = ns.map .text) (hn : ns.Nodup)
    (h : emit (root :: others) = .ok output) :
    ∃ v, Json.document? v = some output ∧ v.RefersOnly ok ∧
      v.keysAt ["$defs"] = others.map MappedDeclaration.name := by
  rw [forall_mem_cons] at hlinked hplain
  obtain ⟨es, hes, h⟩ := bind_eq_ok.mp h
  obtain ⟨definitions, hdefinitions, h⟩ := bind_eq_ok.mp h
  have hkeys := map_fst_definitions hdefinitions
  have hdefinitionRefs : RefersOnly ok (.map (Value.ofEntries definitions)) := by
    apply refersOnly_ofEntries
    intro e he
    obtain ⟨d, hd, hde⟩ := exists_mem_of_forall₂ (forall₂_of_mapM hdefinitions) he
    obtain ⟨inner, hinner, hde⟩ := bind_eq_ok.mp hde
    cases hde
    have hinnerLinked := linked_declarationNode (hlinked.2 d hd) (hplain.2 d hd) hinner
    exact ⟨⟨inner, rfl⟩, hinnerLinked.refersOnly⟩
  have hhead (title : Scalar) : Linked ok (n + 1) (.map [
      (.text "$schema", .text "http://json-schema.org/draft-07/schema#"),
      (.text "title", .scalar title)]) := ⟨⟨_, rfl, by simp⟩, by simp [entryWithin_of_ne]⟩
  have hdocument (title : Scalar) :=
    linked_headed (linked_declarationNode hlinked.1 hplain.1 hes) (hhead title)
  unfold dump at h
  split at h
  case h_2 => cases h
  case h_1 text htext =>
    cases h
    refine ⟨_, htext, ?_⟩
    cases others with
    | nil =>
      obtain ⟨⟨_, hnode, hundefined⟩, hrefs⟩ := hdocument _
      cases hnode
      exact ⟨hrefs.1, keysAt_of_none (lookup?_eq_none hundefined)⟩
    | cons d ds =>
      simp only [isEmpty_cons, Bool.false_eq_true, if_false, set]
      constructor
      · rw [refersOnly_map]
        refine forall_mem_insert entryRefersOnly_of_same
          (refersOnly_map.mp (hdocument _).refersOnly) ?_
        exact entryRefersOnly_map.mpr hdefinitionRefs
      · rw [keysAt_cons (lookup?_insert_self _ _ _),
          ofEntries_eq_self (hkeys.trans hnames) hn, ← hkeys]
        rfl

/-- A reference to the document itself or to one of its definitions. -/
def LeadsTo (definitions : List String) (r : String) : Prop :=
  r = "#" ∨ ∃ n ∈ definitions, r = definitionsStart ++ n

/-- What is rendered for a registered name: the first is the document itself. -/
theorem leadsTo_target {first n : String} {others : List String} (h : n ∈ first :: others) :
    LeadsTo others (target definitionsStart (.text first) n) := by
  by_cases hfirst : first = n
  · exact .inl (by simp [target, hfirst])
  · have hothers : n ∈ others := (mem_cons.mp h).resolve_left (Ne.symm hfirst)
    exact .inr ⟨n, hothers, by simp [target, hfirst]⟩

theorem not_leadsTo {first : String} {others : List String} (h : first ∉ others) :
    ¬LeadsTo others (definitionsStart ++ first) := by
  intro hleads
  rcases hleads with heq | ⟨n, hn, heq⟩
  · simpa [definitionsStart] using congrArg String.toList heq
  · have hsame : first = n := by simpa using heq
    exact h (hsame ▸ hn)

end Target.JsonSchema

/-! ### Sources that are converted to JSON Schema -/

namespace Conversion

open Target.JsonSchema

variable {c : Conversion}

/-- In TypeScript and in SQL the values are literals, and any name may be referred to. -/
theorem regular_extract (hg : c.grammar = .typeScript ∨ c.grammar = .sql) {source : List Char}
    (h : (c.grammar.extract source).result = .ok doc) :
    ∀ d ∈ doc.declarations, d.Regular anyName := by
  rcases hg with hg | hg <;> rw [hg] at h
  · exact TypeScript.regular_extract h
  · exact Sql.regular_extract h

theorem plain_mappingOf (hg : c.grammar = .typeScript ∨ c.grammar = .sql) {source : List Char}
    (h : (c.grammar.extract source).result = .ok doc) : (c.mappingOf doc).Plain anyName where
  classify raw s hs := by
    change c.grammar.classify _ raw = .ok s at hs
    rcases hg with hg | hg <;> rw [hg] at hs
    · exact ((TypeScript.ensures_classify _).holds hs).plain
    · exact ((Sql.ensures_classify _).holds hs).plain
  enumValues body vs hvs := by
    change c.grammar.enumValues body = .ok vs at hvs
    rcases hg with hg | hg <;> rw [hg] at hvs
    · exact (TypeScript.ensures_enumValues _).holds hvs
    · exact (Sql.ensures_literals _).holds hvs
  declarations d hd := (regular_extract hg h d (mem_of_mem_ofList hd)).plain

end Conversion

namespace Converter

open Target.JsonSchema

/-- Every reference of a document leads to the document itself or to one of its definitions, which
are the registered declarations after the first; the first is always referred to as the document. -/
theorem references_defined {name : String}
    (hname : name ∈ ["ts-to-json-schema", "sql-to-json-schema"]) {c : Converter}
    (hc : find? name = some c) (s : Settings) {collected : Collector} {source : List Char}
    (h : ((c.withSettings s).conversion.convert collected source).1.diagnostic = none) :
    ∃ doc first others v,
      ((c.withSettings s).conversion.grammar.extract source).result = .ok doc ∧
      doc.catalogue.names = .text first :: others ∧
      Json.document? v = some ((c.withSettings s).conversion.convert collected source).1.output ∧
      v.keysAt ["$defs"] = others ∧
      (∀ r ∈ v.refs, r = "#" ∨ ∃ n, .text n ∈ v.keysAt ["$defs"] ∧ r = "#/$defs/" ++ n) ∧
      "#/$defs/" ++ first ∉ v.refs ∧
      (Target.jsonSchema.renderer s.indent ((c.withSettings s).conversion.rootName
        doc.catalogue)).reference first = .object [("$ref", .text "#")] := by
  obtain ⟨g, hg, hconversion⟩ : ∃ g, (g = .typeScript ∨ g = .sql) ∧
      (c.withSettings s).conversion = { grammar := g, target := .jsonSchema, settings := s } := by
    simp only [mem_cons, not_mem_nil, or_false] at hname
    obtain rfl | rfl := hname <;> simp only [find?, all, find?_cons, String.reduceBEq] at hc
    · cases hc
      exact ⟨_, .inl rfl, rfl⟩
    · cases hc
      exact ⟨_, .inr rfl, rfl⟩
  rw [hconversion] at h ⊢
  obtain ⟨doc, mds, hdoc, hne, hlists⟩ := Conversion.lists_of_convert rfl h
  have hregular := Conversion.regular_extract hg hdoc
  have hplain := Conversion.plain_mappingOf hg hdoc
  obtain ⟨ns, hns, hnodup⟩ := Conversion.exists_names hregular
  have hnames := hlists.map_name.trans hns
  have hnonempty := Conversion.names_ofList_ne_nil hne
  cases ns with
  | nil => exact absurd hns hnonempty
  | cons first rest =>
  rw [nodup_cons] at hnodup
  cases mds with
  | nil => cases hnames
  | cons root others =>
  have hroot : Conversion.rootName { grammar := g, target := .jsonSchema, settings := s }
      doc.catalogue = .text first := by
    simp [Conversion.rootName, Target.hasRoot, hns]
  have htarget : ∀ n, .text n ∈ doc.catalogue.names →
      LeadsTo rest (target definitionsStart (.text first) n) := by
    intro n hn
    rw [hns] at hn
    exact leadsTo_target (by simpa using hn)
  rw [← hroot] at htarget
  have hlinked := linked_inSourceOrder rfl rfl hplain (fun n hn _ => htarget n hn) hlists.mapped
  obtain ⟨setting, hemit⟩ := hlists.emitted
  have hdescription : ∀ md ∈ root :: others, ∀ v,
      md.declaration.description? = some v → v.isPlain = true := by
    intro md hmd
    have hmem := mem_map_of_mem (f := MappedDeclaration.declaration) hmd
    rw [hlists.map_declaration] at hmem
    exact (hplain.declarations _ hmem).description
  obtain ⟨v, hv, hrefs, hdefs⟩ :=
    exists_document hlinked hdescription (cons.inj hnames).2 hnodup.2 hemit
  rw [(cons.inj hnames).2] at hdefs
  refine ⟨doc, first, rest.map .text, v, hdoc, hns, hv, hdefs, ?_, ?_, ?_⟩
  · intro r hr
    apply (hrefs r hr).imp_right
    rintro ⟨n, hn, hr⟩
    exact ⟨n, hdefs ▸ mem_map_of_mem hn, hr⟩
  · intro hfirst
    exact not_leadsTo hnodup.1 (hrefs _ hfirst)
  · rw [hroot]
    simp [Target.renderer, renderer, reference, node]

/-- Interfaces that refer to themselves, to each other and to an alias, also through a selection. -/
def linkedInterfaces : List Char :=
  "interface A \x7b self?: A; b: B[]; kind: Kind | null \x7d\n".toList ++
  "interface B extends A \x7b part: Pick<A, 'b' | 'self'>; [key: string]: C \x7d\n".toList ++
  "type C = Map<string, B> & \x7b $ref: A \x7d;\nenum Kind \x7b X, Y \x7d\ntype B = string;".toList

theorem linkedInterfaces_references :
    ∃ c v, find? "ts-to-json-schema" = some c ∧
      Json.document? v =
        some ((c.withSettings scriptSettings).conversion.convert {} linkedInterfaces).1.output ∧
      v.keysAt ["$defs"] = [.text "B", .text "C", .text "Kind"] ∧
      (∀ r ∈ v.refs, r = "#" ∨ ∃ n, .text n ∈ v.keysAt ["$defs"] ∧ r = "#/$defs/" ++ n) ∧
      "#/$defs/A" ∉ v.refs := by
  have hname : "ts-to-json-schema" ∈ ["ts-to-json-schema", "sql-to-json-schema"] := by simp
  have hc : find? "ts-to-json-schema" = some all[1] := rfl
  have hok : ((all[1].withSettings scriptSettings).conversion.convert {}
      linkedInterfaces).1.diagnostic.isNone = true := by decide +kernel
  have hnames : ((TypeScript.extract linkedInterfaces).result.toOption.map fun doc =>
      doc.catalogue.names) =
        some [.text "A", .text "B", .text "C", .text "Kind"] := by decide +kernel
  obtain ⟨doc, first, others, v, hdoc, hfirst, hv, hdefs, hrefs, hroot, _⟩ :=
    references_defined hname hc scriptSettings (Option.isNone_iff_eq_none.mp hok)
  change (TypeScript.extract linkedInterfaces).result = .ok doc at hdoc
  rw [hdoc] at hnames
  have hall := hfirst.symm.trans (Option.some.inj hnames)
  cases hall
  exact ⟨all[1], v, hc, hv, hdefs, hrefs, hroot⟩

end Converter

/-! ### The depth of nodes -/

/-- TypeScript types written as schema nodes. -/
abbrev Conversion.scriptNodes (s : Settings) : Conversion :=
  { grammar := .typeScript, target := .jsonSchema, settings := s }

namespace Converter

open Conversion

/-- However deep its types are and however they recurse, a declaration is written as a node whose
depth is bounded by the limit: a level of types adds at most two collections. -/
theorem nesting_declaration_le {c : Converter} (hc : find? "ts-to-json-schema" = some c)
    {s : Settings} {limit : Nat} (hlimit : s.maxDepth.floor? = .ok (some limit))
    {source : List Char} {doc : Document} (hdoc : (TypeScript.extract source).result = .ok doc)
    {d : Declaration} (hd : d ∈ doc.catalogue.declarations)
    {pending : List Scalar} {md : MappedDeclaration Value}
    (h : (((scriptNodes s).mappingOf doc).declaration (s.budgetAt 0) pending d).result = .ok md) :
    (c.withSettings s).conversion = scriptNodes s ∧
      (∃ es, md.expression = .map es) ∧ md.expression.nesting < 2 * limit + 8 := by
  have hplain := plain_mappingOf (c := scriptNodes s) (.inl rfl) hdoc
  have hlinked : Target.JsonSchema.Linked anyName (2 * s.budgetAt 0 + 5) md.expression :=
    (Target.JsonSchema.linked_declaration rfl rfl hplain (fun _ _ _ => trivial) hd).holds md h
  obtain ⟨es, hes, _⟩ := hlinked.isNode
  refine ⟨?_, ⟨es, hes⟩, Nat.lt_of_le_of_lt hlinked.within.2 ?_⟩
  · simp only [find?, all, find?_cons, String.reduceBEq] at hc
    cases hc
    rfl
  · have hbudget : s.budgetAt 0 = limit + 1 := by
      simp only [Settings.budgetAt, hlimit]
      omega
    omega

/-- An interface with a base and a selection that opens the interface again. -/
def reopenedInterface : List Char :=
  "interface B \x7b \x7d interface A extends B \x7b self: Partial<A> \x7d".toList

/-- The bound is reached: only the limit ends the expansion of the selection. -/
theorem reopenedInterface_nesting :
    ∃ c doc d md, find? "ts-to-json-schema" = some c ∧
      (TypeScript.extract reopenedInterface).result = .ok doc ∧
      d ∈ doc.catalogue.declarations ∧
      (((scriptNodes { maxDepth := .int 2 }).mappingOf doc).declaration 3 [] d).result = .ok md ∧
      md.expression.nesting = 2 * 2 + 7 ∧ md.expression.nesting < 2 * 2 + 8 := by
  have hdepths : ((TypeScript.extract reopenedInterface).result.toOption.map fun doc =>
      doc.catalogue.declarations.map fun d => Option.map (fun md => Value.nesting md.expression)
        (((scriptNodes { maxDepth := .int 2 }).mappingOf doc).declaration 3 [] d).result.toOption) =
      some [some 2, some 11] := by
    decide +kernel
  obtain ⟨doc, hdoc, hdepths⟩ := Option.map_eq_some_iff.mp hdepths
  have hmem : some 11 ∈ [some 2, some 11] := by simp
  obtain ⟨d, hd, hmd⟩ := mem_map.mp (hdepths ▸ hmem)
  obtain ⟨md, hmd, hdepth⟩ := Option.map_eq_some_iff.mp hmd
  replace hdoc := eq_ok_of_toOption hdoc
  replace hmd := eq_ok_of_toOption hmd
  have hc : find? "ts-to-json-schema" = some all[1] := rfl
  have hlimit : Scalar.floor? (.int 2) = .ok (some (2 : Nat)) := rfl
  exact ⟨all[1], doc, d, md, hc, hdoc, hd, hmd, hdepth,
    (nesting_declaration_le hc hlimit hdoc hd hmd).2.2⟩

end Converter

end Crosswalk
