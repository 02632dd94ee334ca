import Crosswalk.Proofs.RouterModules

/-!
The names that a module of schemas exports: for every declaration a type and a constant, and for a
model also those of what is needed to create a record. Main statement: the names are different
exactly if the identifiers that are made from the declared names are different and none of them is
the name that is derived from another one; and all of them are identifiers exactly if no declared
name is an identifier with a newline after it or begins with a letter that identifiers cannot begin
with.
-/

namespace Crosswalk

open List

namespace Identifier

theorem newline_notMem_of_isName {cs : List Char} (h : isName cs) : '\n' ∉ cs := by
  obtain ⟨c, rest, rfl, _, hpart⟩ := Member.exists_of_isName h
  intro hmem
  cases hpart _ hmem

theorem isNameLine_iff {cs : List Char} :
    isNameLine cs ↔ isName cs ∨ ∃ name, isName name ∧ cs = name ++ ['\n'] := by
  unfold isNameLine Text.dropFinalNewline
  split
  case h_1 rest hrest =>
    have hcs : cs = rest.reverse ++ ['\n'] := by
      rw [← reverse_cons, ← hrest, reverse_reverse]
    have hname : ¬isName cs := fun h =>
      newline_notMem_of_isName h (hcs ▸ mem_append_right _ mem_cons_self)
    constructor
    · intro h
      exact Or.inr ⟨_, h, hcs⟩
    · rintro (h | ⟨name, h, hname⟩)
      · exact absurd h hname
      · rwa [append_cancel_right (hcs.symm.trans hname)]
  case h_2 hend =>
    refine (or_iff_left ?_).symm
    rintro ⟨name, _, rfl⟩
    exact hend name.reverse (by simp)

theorem isValid_and_newline_notMem_iff {s : String} :
    isValid s ∧ '\n' ∉ s.toList ↔ isName s.toList := by
  rw [isValid, isNameLine_iff]
  constructor
  · rintro ⟨h | ⟨name, _, hline⟩, hnewline⟩
    · exact h
    · exact absurd (hline ▸ mem_append_right _ mem_cons_self) hnewline
  · intro h
    exact ⟨Or.inl h, newline_notMem_of_isName h⟩

/-- Names that become identifiers: others keep a newline at their end, or begin with a character
that is kept though no identifier begins with it. -/
structure IsNameable (s : String) : Prop where
  ending : ∀ name, isName name = true → s.toList ≠ name ++ ['\n']
  beginning : ∀ c ∈ s.toList.head?, Text.isWord c = true → isStart c = true ∨ Text.isDigit c = true

theorem isPart_replaced (cs : List Char) :
    (cs.map fun c => if isPart c then c else '_').all isPart := by
  rw [all_eq_true]
  intro x hx
  obtain ⟨c, _, rfl⟩ := mem_map.mp hx
  by_cases hpart : isPart c
  · rwa [if_pos hpart]
  · rw [if_neg hpart]
    decide

theorem isName_sanitize_iff (s : String) : isName (sanitize s).toList ↔ IsNameable s := by
  by_cases hvalid : isValid s
  · rw [sanitize, if_pos hvalid]
    constructor
    · intro hname
      refine ⟨?_, ?_⟩
      · rintro name _ heq
        exact newline_notMem_of_isName hname (heq ▸ mem_append_right _ mem_cons_self)
      · obtain ⟨c, rest, hcs, hstart, _⟩ := Member.exists_of_isName hname
        rw [hcs]
        rintro _ ⟨⟩ _
        exact Or.inl hstart
    · intro h
      rcases isNameLine_iff.mp hvalid with hname | ⟨name, hname, hline⟩
      · exact hname
      · exact absurd hline (h.ending name hname)
  · have hending : ∀ name, isName name → s.toList ≠ name ++ ['\n'] := fun name hname hline =>
      hvalid (isNameLine_iff.mpr (Or.inr ⟨name, hname, hline⟩))
    have hiff : IsNameable s ↔ ∀ c ∈ s.toList.head?, Text.isWord c →
        isStart c ∨ Text.isDigit c := ⟨fun h => h.beginning, fun h => ⟨hending, h⟩⟩
    rw [hiff, sanitize, if_neg hvalid]
    cases s.toList with
    | nil => exact iff_of_true rfl (by simp)
    | cons c cs =>
      have hparts := isPart_replaced (c :: cs)
      simp only [map_cons, String.toList_ofList, head?_cons, Option.mem_some_iff,
        forall_eq'] at hparts ⊢
      by_cases hpart : isPart c
      · rw [if_pos hpart] at hparts ⊢
        by_cases hdigit : Text.isDigit c
        · simp only [hdigit, if_true, or_true, implies_true, iff_true]
          rw [isName, hparts]
          rfl
        · rw [all_cons, Bool.and_eq_true] at hparts
          rw [if_neg hdigit, isName, hparts.2, Bool.and_true, or_iff_left hdigit]
          refine ⟨fun h _ => h, fun h => ?_⟩
          rw [isPart, Bool.or_eq_true] at hpart
          rcases hpart with hword | hdollar
          · exact h hword
          · simp [isStart, hdollar]
      · rw [if_neg hpart] at hparts ⊢
        rw [all_cons, Bool.and_eq_true] at hparts
        have hword : ¬Text.isWord c := fun h => hpart (by rw [isPart, h]; rfl)
        rw [if_neg (by decide), isName, hparts.2]
        simp [hword, isStart]

theorem toList_sanitize_ne_nil (s : String) : (sanitize s).toList ≠ [] := by
  unfold sanitize
  split
  case isTrue hvalid =>
    rcases isNameLine_iff.mp hvalid with hname | ⟨name, _, hline⟩
    · obtain ⟨c, rest, hcs, _⟩ := Member.exists_of_isName hname
      simp [hcs]
    · simp [hline]
  case isFalse =>
    split
    · decide
    · rw [String.toList_ofList]
      split <;> simp

/-- Letters at the end do not decide whether a text is a name. -/
theorem isName_append {s t : String} (hs : s.toList ≠ []) (ht : t.toList.all isPart) :
    isName (s ++ t).toList = isName s.toList := by
  obtain ⟨c, rest, hcs⟩ := exists_cons_of_ne_nil hs
  rw [String.toList_append, hcs, cons_append, isName, isName, all_append, ht, Bool.and_true]

end Identifier

/-! ### The statements of a module -/

namespace Target.Zod

variable {name : String} {all names models lines : List String} {d : MappedDeclaration String}

/-- The name that a statement exports: what stands between the keyword and the next space. -/
def exported? (keyword statement : String) : Option String :=
  (statement.toList.dropPrefix? ("export " ++ keyword ++ " ").toList).map fun rest =>
    String.ofList (rest.takeWhile (· != ' '))

def constants (all : List String) : List String := all.filterMap (exported? "const")

def types (all : List String) : List String := all.filterMap (exported? "type")

theorem constants_append (all rest : List String) :
    constants (all ++ rest) = constants all ++ constants rest := filterMap_append

theorem types_append (all rest : List String) : types (all ++ rest) = types all ++ types rest :=
  filterMap_append

theorem exported?_append (keyword : String) (hname : ' ' ∉ name.toList) (rest : String) :
    exported? keyword ("export " ++ keyword ++ " " ++ name ++ " " ++ rest) = some name := by
  have hword : (name.toList ++ ' ' :: rest.toList).takeWhile (· != ' ') = name.toList := by
    rw [takeWhile_append_of_pos]
    · simp
    · intro c hc
      simpa using ne_of_mem_of_not_mem hc hname
  have hprefix : ("export " ++ keyword ++ " " ++ name ++ " " ++ rest).toList =
      ("export " ++ keyword ++ " ").toList ++ (name.toList ++ ' ' :: rest.toList) := by
    simp
  rw [exported?, hprefix, dropPrefix?_append_of_beq _ (beq_self_eq_true _), Option.map_some,
    hword, String.ofList_toList]

theorem exported?_eq_none {keyword statement : String}
    (h : ∀ rest, statement.toList ≠ "export ".toList ++ keyword.toList ++ ' ' :: rest) :
    exported? keyword statement = none := by
  rw [exported?, Option.map_eq_none_iff, Option.eq_none_iff_forall_ne_some]
  intro rest hrest
  obtain ⟨start, hstart, heq⟩ := dropPrefix?_eq_some_iff.mp hrest
  apply h rest
  rw [hstart, eq_of_beq heq, String.toList_append, String.toList_append]
  simp

/-- Comments, empty lines and imports export nothing. -/
theorem filterMap_exported?_of_head {keyword : String}
    (h : ∀ statement ∈ all, statement.toList.head? ≠ some 'e') :
    all.filterMap (exported? keyword) = [] := by
  rw [filterMap_eq_nil_iff]
  intro statement hs
  apply exported?_eq_none
  intro rest hrest
  exact h statement hs (by simp [hrest])

theorem head?_header (s : Setting) :
    ∀ statement ∈ header s, statement.toList.head? ≠ some 'e' := by
  unfold header
  by_cases hsource : (s.fact "source").isTruthy <;>
    by_cases htitle : (s.fact "title").isTruthy <;> simp [hsource, htitle]

/-- The two statements of a schema export its constant and its type. -/
theorem exported_schemaLines (hname : ' ' ∉ name.toList) (expression : String) :
    types (schemaLines name expression) = [name] ∧
      constants (schemaLines name expression) = [name ++ "Schema"] := by
  have hconst : "export const " ++ name ++ "Schema = " ++ expression ++ ";" =
      "export " ++ "const" ++ " " ++ (name ++ "Schema") ++ " " ++ ("= " ++ expression ++ ";") := by
    apply String.toList_inj.mp
    simp
  have htype : "export type " ++ name ++ " = z.infer<typeof " ++ name ++ "Schema>;" =
      "export " ++ "type" ++ " " ++ name ++ " " ++ ("= z.infer<typeof " ++ name ++ "Schema>;") := by
    apply String.toList_inj.mp
    simp
  have hschema : ' ' ∉ (name ++ "Schema").toList := by simp [hname]
  rw [schemaLines, hconst, htype, constants, types]
  constructor
  · rw [filterMap_cons_none, filterMap_cons_some (exported?_append _ hname _),
      filterMap_nil]
    exact exported?_eq_none fun rest => by simp
  · rw [filterMap_cons_some (exported?_append _ hschema _), filterMap_cons_none,
      filterMap_nil]
    exact exported?_eq_none fun rest => by simp

/-- Comments and empty lines around a schema export nothing more. -/
theorem exported_schema {before after : List String}
    (hbefore : ∀ statement ∈ before, statement.toList.head? ≠ some 'e')
    (hafter : ∀ statement ∈ after, statement.toList.head? ≠ some 'e') (hname : ' ' ∉ name.toList)
    (expression : String) :
    types (before ++ schemaLines name expression ++ after) = [name] ∧
      constants (before ++ schemaLines name expression ++ after) = [name ++ "Schema"] := by
  have hschema := exported_schemaLines hname expression
  simp only [types, constants, filterMap_append, filterMap_exported?_of_head hbefore,
    filterMap_exported?_of_head hafter, nil_append, append_nil] at hschema ⊢
  exact hschema

/-- The types of a declaration. -/
def typesOf (models : Bool) (d : Declaration) (name : String) : List String :=
  Identifier.sanitize name ::
    if models && d.isModel then [Identifier.sanitize name ++ "CreateInput"] else []

theorem exported_declarationLines (hname : d.name = .text name)
    (h : declarationLines d = .ok lines) :
    types lines = [Identifier.sanitize name] ∧
      constants lines = [Identifier.sanitize name ++ "Schema"] := by
  obtain ⟨n, hn, h⟩ := bind_eq_ok.mp h
  rw [Identifier.sanitizeName, hname] at hn
  cases hn
  obtain ⟨comment, hcomment, h⟩ := bind_eq_ok.mp h
  cases h
  refine exported_schema (fun line hline => ?_) (by simp) (Identifier.space_notMem_sanitize name) _
  simp [Router.head?_commentLines hcomment line hline]

/-- The statements of a declaration of a module, which may be one of models. -/
def linesOf (models : Bool) : MappedDeclaration String → Except Fault (List String) :=
  if models then modelLines else declarationLines

theorem modelLines_eq (hname : d.name = .text name) (hmodel : d.declaration.isModel)
    (h : modelLines d = .ok lines) :
    ∃ first expression, declarationLines d = .ok first ∧ lines = first ++ ["// Input schema"] ++
      schemaLines (Identifier.sanitize name ++ "CreateInput") expression ++ [""] := by
  obtain ⟨first, hfirst, h⟩ := bind_eq_ok.mp h
  rw [if_pos hmodel] at h
  obtain ⟨n, hn, h⟩ := bind_eq_ok.mp h
  rw [Identifier.sanitizeName, hname] at hn
  cases hn
  dsimp only at h
  split at h
  · cases h
    exact ⟨first, _, hfirst, rfl⟩
  · obtain ⟨selection, _, h⟩ := bind_eq_ok.mp h
    cases h
    exact ⟨first, _, hfirst, rfl⟩

theorem exported_linesOf {models : Bool} (h : linesOf models d = .ok lines) :
    ∃ name, d.name = .text name ∧ types lines = typesOf models d.declaration name ∧
      constants lines = (typesOf models d.declaration name).map (· ++ "Schema") := by
  cases models with
  | false =>
    obtain ⟨name, hname⟩ := Router.name_of_declarationLines h
    exact ⟨name, hname, exported_declarationLines hname h⟩
  | true =>
    obtain ⟨_, hfirst, hrest⟩ := bind_eq_ok.mp h
    obtain ⟨name, hname⟩ := Router.name_of_declarationLines hfirst
    refine ⟨name, hname, ?_⟩
    cases hmodel : d.declaration.isModel with
    | false =>
      rw [hmodel] at hrest
      cases hrest
      simpa [typesOf, hmodel] using exported_declarationLines hname hfirst
    | true =>
      obtain ⟨first, expression, hfirst, rfl⟩ := modelLines_eq hname hmodel h
      have hplain := exported_declarationLines hname hfirst
      have hmark : ∀ statement ∈ ["// Input schema"], statement.toList.head? ≠ some 'e' := by simp
      have hend : ∀ statement ∈ [""], statement.toList.head? ≠ some 'e' := by simp
      have hspace : ' ' ∉ (Identifier.sanitize name ++ "CreateInput").toList := by
        simp [Identifier.space_notMem_sanitize]
      have hinput := exported_schema hmark hend hspace expression
      rw [append_assoc first, append_assoc first, types_append, constants_append,
        hplain.1, hplain.2, hinput.1, hinput.2]
      simp [typesOf, hmodel]

/-- The names of declarations, which are texts wherever they are printed. -/
def textNames (ds : List Declaration) : List String := ds.filterMap fun d => d.name.text?

/-- The models among declarations, in a module that has them. -/
def modelsOf (models : Bool) (ds : List Declaration) : List Declaration :=
  ds.filter fun d => models && d.isModel

theorem textNames_modelsOf_sublist (models : Bool) (ds : List Declaration) :
    (textNames (modelsOf models ds)).Sublist (textNames ds) := filter_sublist.filterMap _

/-- The types of a module: those of all names, and those of the records of models. -/
def typeNames (names models : List String) : List String :=
  names.map Identifier.sanitize ++ models.map fun n => Identifier.sanitize n ++ "CreateInput"

theorem typeNames_cons (models : Bool) {d : Declaration} (hname : d.name = .text name)
    (ds : List Declaration) :
    (typeNames (textNames (d :: ds)) (textNames (modelsOf models (d :: ds)))).Perm
      (typesOf models d name ++ typeNames (textNames ds) (textNames (modelsOf models ds))) := by
  have hnames : textNames (d :: ds) = name :: textNames ds :=
    filterMap_cons_some (by rw [hname]; rfl)
  rw [hnames, typesOf, typeNames, map_cons, cons_append, cons_append]
  refine Perm.cons _ ?_
  rw [modelsOf, filter_cons, ← modelsOf]
  by_cases hmodel : (models && d.isModel)
  · rw [if_pos hmodel, if_pos hmodel]
    have hmodels : textNames (d :: modelsOf models ds) = name :: textNames (modelsOf models ds) :=
      filterMap_cons_some (by rw [hname]; rfl)
    rw [hmodels, map_cons]
    exact perm_middle
  · rw [if_neg hmodel, if_neg hmodel]
    exact Perm.refl _

theorem exported_flatten {models : Bool} {ds : List (MappedDeclaration String)}
    {body : List (List String)}
    (h : Forall₂ (fun d lines => linesOf models d = .ok lines) ds body) :
    (types body.flatten).Perm (typeNames (textNames (ds.map MappedDeclaration.declaration))
        (textNames (modelsOf models (ds.map MappedDeclaration.declaration)))) ∧
      constants body.flatten = (types body.flatten).map (· ++ "Schema") := by
  induction h with
  | nil => exact ⟨Perm.nil, rfl⟩
  | @cons d lines ds body hd _ ih =>
    obtain ⟨name, hname, htypes, hconstants⟩ := exported_linesOf hd
    rw [flatten_cons, types_append, constants_append, htypes, hconstants, ih.2, map_append]
    exact ⟨(ih.1.append_left _).trans (typeNames_cons models hname _).symm, rfl⟩

/-- A module exports the types of its declarations and a constant for each type. -/
theorem exported_statements {models : Bool} {s : Setting} {ds : List (MappedDeclaration String)}
    (h : statements (linesOf models) s ds = .ok all) {declared : List Declaration}
    (hperm : (ds.map MappedDeclaration.declaration).Perm declared) :
    (types all).Perm (typeNames (textNames declared) (textNames (modelsOf models declared))) ∧
      constants all = (types all).map (· ++ "Schema") := by
  obtain ⟨_, _, h⟩ := bind_eq_ok.mp h
  obtain ⟨body, hbody, h⟩ := bind_eq_ok.mp h
  cases h
  have hbefore : ∀ statement ∈ ["import \x7b z \x7d from \"zod\";", ""] ++ header s,
      statement.toList.head? ≠ some 'e' := by
    rw [forall_mem_append]
    exact ⟨by simp, head?_header s⟩
  have hexported := exported_flatten (forall₂_of_mapM hbody)
  rw [types_append, constants_append, types, constants, filterMap_exported?_of_head hbefore,
    filterMap_exported?_of_head hbefore, nil_append, nil_append]
  refine ⟨hexported.1.trans ?_, hexported.2⟩
  exact ((hperm.filterMap _).map _).append (((hperm.filter _).filterMap _).map _)

/-- The types of declarations of these names are different. -/
structure Apart (names models : List String) : Prop where
  identifiers : (names.map Identifier.sanitize).Nodup
  inputs : ∀ n ∈ models, Identifier.sanitize n ++ "CreateInput" ∉ names.map Identifier.sanitize

theorem marked_injective (mark : String) : Function.Injective (· ++ mark) :=
  fun _ _ h => (String.append_left_inj mark).mp h

theorem nodup_typeNames_iff (h : models.Sublist names) :
    (typeNames names models).Nodup ↔ Apart names models := by
  rw [typeNames, nodup_append]
  constructor
  · rintro ⟨hnames, _, hdisjoint⟩
    refine ⟨hnames, fun n hn hmem => ?_⟩
    exact hdisjoint _ hmem _ (mem_map_of_mem hn) rfl
  · rintro ⟨hnames, hinputs⟩
    refine ⟨hnames, ?_, ?_⟩
    · have hmodels := hnames.sublist (h.map Identifier.sanitize)
      rw [← nodup_map_iff (marked_injective "CreateInput"), map_map] at hmodels
      exact hmodels
    · rintro _ hmem _ hinput rfl
      obtain ⟨n, hn, rfl⟩ := mem_map.mp hinput
      exact hinputs n hn hmem

/-- No type of a record has the name of a constant. -/
theorem schema_mem_typeNames_iff (t : String) :
    t ++ "Schema" ∈ typeNames names models ↔ t ++ "Schema" ∈ names.map Identifier.sanitize := by
  rw [typeNames, mem_append]
  refine or_iff_left ?_
  intro hmem
  obtain ⟨n, _, hn⟩ := mem_map.mp hmem
  have hlast := congrArg (fun s : String => s.toList.getLast?) hn
  simp at hlast

theorem nodup_exports_iff (h : models.Sublist names)
    (htypes : (types all).Perm (typeNames names models))
    (hconstants : constants all = (types all).map (· ++ "Schema")) :
    (constants all ++ types all).Nodup ↔
      Apart names models ∧
        ∀ t ∈ typeNames names models, t ++ "Schema" ∉ names.map Identifier.sanitize := by
  rw [nodup_append, hconstants, nodup_map_iff (marked_injective _), htypes.nodup_iff,
    nodup_typeNames_iff h, ← and_assoc, and_self]
  refine and_congr_right fun _ => ?_
  simp only [forall_mem_map, htypes.mem_iff]
  constructor
  · intro hdisjoint t ht hmem
    exact hdisjoint t ht _ ((schema_mem_typeNames_iff t).mpr hmem) rfl
  · rintro hdisjoint t ht _ hmem rfl
    exact hdisjoint t ht ((schema_mem_typeNames_iff t).mp hmem)

theorem isName_exports_iff (h : models.Sublist names)
    (htypes : (types all).Perm (typeNames names models))
    (hconstants : constants all = (types all).map (· ++ "Schema")) :
    (∀ t ∈ constants all ++ types all, Identifier.isValid t ∧ '\n' ∉ t.toList) ↔
      ∀ n ∈ names, Identifier.IsNameable n := by
  simp only [Identifier.isValid_and_newline_notMem_iff, ← Identifier.isName_sanitize_iff,
    hconstants, forall_mem_append, forall_mem_map, htypes.mem_iff, typeNames]
  constructor
  · intro hall n hn
    exact hall.2.1 n hn
  · intro hall
    have hends {n : String} (hn : n ∈ names) {mark : String}
        (hmark : mark.toList.all Identifier.isPart) :
        Identifier.isName (Identifier.sanitize n ++ mark).toList := by
      rw [Identifier.isName_append (Identifier.toList_sanitize_ne_nil n) hmark]
      exact hall n hn
    refine ⟨⟨fun n hn => hends hn (by decide +kernel), fun n hn => ?_⟩, hall,
      fun n hn => hends (h.subset hn) (by decide +kernel)⟩
    rw [String.append_assoc]
    exact hends (h.subset hn) (by decide +kernel)

end Target.Zod

namespace Conversion

open Target.Zod

/-- What a conversion to schemas prints are the statements of its declarations. -/
theorem exists_statements {c : Conversion} {models : Bool}
    (ht : c.target = if models then .zodModel else .zod) {source : List Char} {output : String}
    (h : (c.run source).result = .ok output) :
    ∃ doc setting ds all, (c.grammar.extract source).result = .ok doc ∧
      (ds.map MappedDeclaration.declaration).Perm doc.catalogue.declarations ∧
      statements (linesOf models) setting ds = .ok all ∧
      output = dropEndLines ("\n".intercalate all) ++ "\n" := by
  have ho : c.target.isOrdered := by
    rw [ht]
    cases models <;> rfl
  obtain ⟨doc, mds, hdoc, hprints⟩ := prints_of_run ho h
  have hperm := Mapping.map_declaration_perm (Catalogue.names_ofList_nodup _) hprints.mapped
  obtain ⟨setting, hemit⟩ := hprints.emitted
  obtain ⟨grammar, target, settings, inline⟩ := c
  dsimp only at ht
  subst ht
  have hdeclarations {ε : Type} (mds : List (MappedDeclaration (Noted Use ε))) :
      (mds.map (MappedDeclaration.map Noted.expression)).map MappedDeclaration.declaration =
        mds.map MappedDeclaration.declaration := by
    rw [map_map]
    rfl
  rw [← hdeclarations] at hperm
  cases models <;>
  · obtain ⟨all, hall, houtput⟩ := map_eq_ok.mp hemit
    exact ⟨doc, setting, _, all, hdoc, hperm, hall, houtput.symm⟩

end Conversion

namespace Converter

open Target.Zod

theorem target_schemas {name : String}
    (hname : name ∈ ["ts-to-zod", "json-schema-to-zod", "openapi-to-zod", "graphql-to-zod",
      "sql-to-zod", "prisma-to-zod"])
    {c : Converter} (hc : find? name = some c) (s : Settings) :
    (c.withSettings s).conversion.target =
      if name == "prisma-to-zod" then .zodModel else .zod := by
  simp only [mem_cons, not_mem_nil, or_false] at hname
  obtain rfl | rfl | rfl | rfl | rfl | rfl := hname <;>
    simp only [find?, all, find?_cons, String.reduceBEq] at hc <;>
    · cases hc
      rfl

/-- The names that a module of schemas exports are different exactly if the identifiers of the
declared names are apart, and they are identifiers exactly if all declared names can be made one. -/
theorem exports_distinct_iff {name : String}
    (hname : name ∈ ["ts-to-zod", "json-schema-to-zod", "openapi-to-zod", "graphql-to-zod",
      "sql-to-zod", "prisma-to-zod"])
    {c : Converter} (hc : find? name = some c) (s : Settings) {collected : Collector}
    {source : List Char}
    (h : ((c.withSettings s).conversion.convert collected source).1.diagnostic = none) :
    ∃ doc declared names models setting ds all,
      (c.conversion.grammar.extract source).result = .ok doc ∧
      declared = doc.catalogue.declarations ∧
      names = textNames declared ∧
      models = textNames (modelsOf (name == "prisma-to-zod") declared) ∧
      (ds.map MappedDeclaration.declaration).Perm declared ∧
      statements (linesOf (name == "prisma-to-zod")) setting ds = .ok all ∧
      ((c.withSettings s).conversion.convert collected source).1.output =
        dropEndLines ("\n".intercalate all) ++ "\n" ∧
      ((types all).Nodup ↔ Apart names models) ∧
      ((constants all).Nodup ↔ Apart names models) ∧
      ((constants all ++ types all).Nodup ↔ Apart names models ∧
        ∀ t ∈ typeNames names models, t ++ "Schema" ∉ names.map Identifier.sanitize) ∧
      ((∀ n ∈ constants all ++ types all, Identifier.isValid n = true ∧ '\n' ∉ n.toList) ↔
        ∀ n ∈ names, Identifier.IsNameable n) := by
  obtain ⟨doc, setting, ds, all, hdoc, hperm, hall, houtput⟩ :=
    Conversion.exists_statements (target_schemas hname hc s) (Conversion.result_of_convert h)
  obtain ⟨htypes, hconstants⟩ := exported_statements hall hperm
  have hsub := textNames_modelsOf_sublist (name == "prisma-to-zod")
    doc.catalogue.declarations
  refine ⟨doc, _, _, _, setting, ds, all, hdoc, rfl, rfl, rfl, hperm, hall, houtput, ?_, ?_,
    nodup_exports_iff hsub htypes hconstants, isName_exports_iff hsub htypes hconstants⟩
  · rw [htypes.nodup_iff, nodup_typeNames_iff hsub]
  · rw [hconstants, nodup_map_iff (marked_injective _), htypes.nodup_iff,
      nodup_typeNames_iff hsub]

/-- Two names that have one identifier. -/
def dividedNames : List Char :=
  "\x7b\"$defs\": \x7b\"a-b\": \x7b\"type\": \"string\"\x7d, ".toList ++
  "\"a_b\": \x7b\"type\": \"number\"\x7d\x7d\x7d".toList

/-- Both `a-b` and `a_b` are exported as `a_b`. -/
theorem dividedNames_exported_twice :
    ∃ c setting ds all, find? "json-schema-to-zod" = some c ∧
      ((c.withSettings schemaSettings).conversion.convert {} dividedNames).1.diagnostic = none ∧
      statements (linesOf false) setting ds = .ok all ∧
      ((c.withSettings schemaSettings).conversion.convert {} dividedNames).1.output =
        dropEndLines ("\n".intercalate all) ++ "\n" ∧
      ¬(types all).Nodup ∧ ¬(constants all).Nodup := by
  have hc : find? "json-schema-to-zod" = some all[3] := rfl
  obtain ⟨output, hrun⟩ := exists_eq_ok
    (x := ((all[3].withSettings schemaSettings).conversion.run dividedNames).result)
    (by decide +kernel)
  have hdone := Conversion.diagnostic_of_run hrun {}
  have hread : ((all[3].conversion.grammar.extract dividedNames).result.toOption.map fun doc =>
      textNames doc.catalogue.declarations) = some ["a-b", "a_b"] := by
    decide +kernel
  obtain ⟨doc, declared, names, models, setting, ds, all, hdoc, hdeclared, hnames, _, _, hall,
    houtput, htypes, hconstants, _⟩ := exports_distinct_iff (by simp) hc schemaSettings hdone
  have hsame : ¬Apart names models := by
    intro hapart
    rw [hdoc] at hread
    have hpair : names = ["a-b", "a_b"] := by
      rw [hnames, hdeclared]
      exact Option.some.inj hread
    have hnodup := hapart.identifiers
    rw [hpair] at hnodup
    exact absurd hnodup (by decide +kernel)
  exact ⟨_, setting, ds, all, hc, hdone, hall, houtput, fun h => hsame (htypes.mp h),
    fun h => hsame (hconstants.mp h)⟩

end Converter

end Crosswalk
