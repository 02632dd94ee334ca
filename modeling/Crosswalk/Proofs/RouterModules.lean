import Crosswalk.Proofs.SchemaDocuments
import Crosswalk.Proofs.ScriptLiterals

/-!
Modules with a router. Every type of a schema becomes a schema constant, except the root operations:
their fields become the procedures of the router. Main statement: a name that a printed schema or
the input of a procedure uses is the name of a constant that the module exports, unless it is the
name of a root operation, and then it is not.
-/

namespace Crosswalk

open List

variable {doc : Document} {output : String}

namespace Identifier

theorem isPart_or_newline {cs : List Char} (h : isNameLine cs) :
    ∀ c ∈ cs, isPart c ∨ c = '\n' := by
  have hname {name : List Char} (hn : isName name) : ∀ c ∈ name, isPart c := by
    cases name with
    | nil => cases hn
    | cons first rest =>
      rw [isName, Bool.and_eq_true] at hn
      exact forall_mem_cons.mpr ⟨isPart_of_isStart hn.1, all_eq_true.mp hn.2⟩
  intro c hc
  unfold isNameLine Text.dropFinalNewline at h
  split at h
  case h_1 rest hrest =>
    rw [← mem_reverse, hrest, mem_cons] at hc
    rcases hc with rfl | hc
    · exact Or.inr rfl
    · exact Or.inl (hname h c (mem_reverse.mpr hc))
  case h_2 => exact Or.inl (hname h c hc)

/-- No identifier that is made from a name holds a space. -/
theorem space_notMem_sanitize (s : String) : ' ' ∉ (sanitize s).toList := by
  have hspace : isPart ' ' = false := by decide
  have hmapped : ' ' ∉ s.toList.map fun c => if isPart c then c else '_' := by
    intro hmem
    obtain ⟨c, _, hc⟩ := mem_map.mp hmem
    split at hc
    case isTrue hpart =>
      subst hc
      rw [hspace] at hpart
      cases hpart
    case isFalse => cases hc
  unfold sanitize
  split
  case isTrue hvalid =>
    intro hmem
    rcases isPart_or_newline hvalid _ hmem with hpart | heq
    · rw [hspace] at hpart
      cases hpart
    · cases heq
  case isFalse =>
    split
    case h_1 => decide
    case h_2 c cs hcs =>
      rw [hcs] at hmapped
      rw [String.toList_ofList]
      split
      · simpa using hmapped
      · exact hmapped

/-- A name is changed only by underscores. -/
theorem sanitize_eq_of_notMem {s : String} (h : '_' ∉ (sanitize s).toList) : sanitize s = s := by
  have hkept (cs : List Char) (hcs : '_' ∉ cs.map fun c => if isPart c then c else '_') :
      (cs.map fun c => if isPart c then c else '_') = cs := by
    conv_rhs => rw [← List.map_id cs]
    apply map_congr_left
    intro c hc
    by_cases hpart : isPart c
    · simp [hpart]
    · exact absurd (mem_map.mpr ⟨c, hc, by simp [hpart]⟩) hcs
  unfold sanitize at h ⊢
  split at h
  case isTrue hvalid => rw [if_pos hvalid]
  case isFalse hvalid =>
    rw [if_neg hvalid]
    split at h
    case h_1 => exact absurd (by decide) h
    case h_2 c cs hcs =>
      rw [String.toList_ofList] at h
      split at h
      case isTrue => simp at h
      case isFalse hdigit =>
        rw [← hcs] at h
        simp only [if_neg hdigit]
        rw [← hcs, hkept _ h, String.ofList_toList]

end Identifier

/-! ### The lines of a module -/

namespace Target.Router

variable {constant : String} {lines : List String} {indent : Indent}

/-- The types whose fields are procedures. -/
def operations : List String := ["Query", "Mutation", "Subscription"]

theorem operation?_eq_none_iff (n : String) : operation? (.text n) = none ↔ n ∉ operations := by
  unfold operation?
  split <;> simp_all [operations]

/-- A line that exports a constant. -/
def Exports (constant line : String) : Prop :=
  ∃ e, line = "export const " ++ constant ++ " = " ++ e ++ ";"

def Defines (lines : List String) (constant : String) : Prop :=
  ∃ line ∈ lines, Exports constant line

theorem Exports.head {line : String} (h : Exports constant line) :
    line.toList.head? = some 'e' := by
  obtain ⟨e, rfl⟩ := h
  simp

theorem Exports.last {line : String} (h : Exports constant line) :
    line.toList.getLast? = some ';' := by
  obtain ⟨e, rfl⟩ := h
  rw [String.toList_append, getLast?_append]
  rfl

theorem eq_of_append_space {a b r s : List Char} (ha : ' ' ∉ a) (hb : ' ' ∉ b)
    (h : a ++ ' ' :: r = b ++ ' ' :: s) : a = b := by
  have hword (w t : List Char) (hw : ' ' ∉ w) : (w ++ ' ' :: t).takeWhile (· != ' ') = w := by
    rw [takeWhile_append_of_pos]
    · simp
    · intro c hc
      simpa using ne_of_mem_of_not_mem hc hw
  rw [← hword a r ha, ← hword b s hb, h]

theorem head?_commentLines {d : Declaration} (h : Zod.commentLines d = .ok lines) :
    ∀ line ∈ lines, line.toList.head? = some '/' := by
  unfold Zod.commentLines at h
  split at h
  · split at h
    · obtain ⟨s, _, rfl⟩ := map_eq_ok.mp h
      simp
    · cases h
      nofun
  · cases h
    nofun

/-- The lines of a schema export its constant and no other one. -/
theorem defines_declarationLines {d : MappedDeclaration String} {name : String}
    (hname : d.name = .text name) (h : Zod.declarationLines d = .ok lines)
    (hc : ' ' ∉ constant.toList) : Defines lines constant ↔ constant = Zod.schemaName name := by
  obtain ⟨n, hn, h⟩ := bind_eq_ok.mp h
  rw [Identifier.sanitizeName, hname] at hn
  cases hn
  obtain ⟨comment, hcomment, h⟩ := bind_eq_ok.mp h
  cases h
  constructor
  · rintro ⟨line, hline, hexports⟩
    simp only [mem_append, Zod.schemaLines, mem_cons, not_mem_nil, or_false] at hline
    rcases hline with (hline | rfl | rfl) | rfl
    · have hhead := head?_commentLines hcomment line hline
      rw [hexports.head] at hhead
      cases hhead
    · obtain ⟨e, he⟩ := hexports
      have hchars := congrArg String.toList he
      simp only [String.toList_append, append_assoc] at hchars
      have hword := eq_of_append_space (a := (Identifier.sanitize name).toList ++ "Schema".toList)
        (b := constant.toList) (by simp [Identifier.space_notMem_sanitize]) hc
        (by simpa using append_cancel_left hchars)
      apply String.toList_inj.mp
      rw [Zod.schemaName, String.toList_append, hword]
    · obtain ⟨e, he⟩ := hexports
      have hchars := congrArg String.toList he
      simp at hchars
    · have hhead := hexports.head
      simp at hhead
  · rintro rfl
    refine ⟨_, mem_append_left _ (mem_append_right _ mem_cons_self), d.expression, ?_⟩
    simp only [Zod.schemaName, String.append_assoc]
    rfl

theorem space_notMem_schemaName (n : String) : ' ' ∉ (Zod.schemaName n).toList := by
  simp [Zod.schemaName, Identifier.space_notMem_sanitize]

/-- No other name has the constant of a root operation. -/
theorem schemaName_operation {n n' : String} (hop : n ∈ operations)
    (h : Zod.schemaName n = Zod.schemaName n') : n = n' := by
  have hsame : Identifier.sanitize n = Identifier.sanitize n' := (String.append_left_inj _).mp h
  obtain ⟨hself, hmark⟩ : Identifier.sanitize n = n ∧ '_' ∉ n.toList := by
    simp only [operations, mem_cons, not_mem_nil, or_false] at hop
    rcases hop with rfl | rfl | rfl <;> decide
  rw [hself] at hsame
  rw [hsame, Identifier.sanitize_eq_of_notMem (hsame ▸ hmark)]

theorem getLast?_route {kind text : String} {m : MappedField String}
    (h : route indent kind m = .ok text) : text.toList.getLast? = some ',' := by
  obtain ⟨_, _, h⟩ := bind_eq_ok.mp h
  obtain ⟨_, _, h⟩ := bind_eq_ok.mp h
  obtain ⟨_, _, h⟩ := bind_eq_ok.mp h
  obtain ⟨_, _, h⟩ := bind_eq_ok.mp h
  obtain ⟨_, _, h⟩ := bind_eq_ok.mp h
  obtain ⟨_, _, h⟩ := bind_eq_ok.mp h
  obtain ⟨start, rfl⟩ : ∃ start, text = start ++ "\x7d)," := by
    cases h
    exact ⟨_, rfl⟩
  rw [String.toList_append, getLast?_append]
  rfl

theorem getLast?_intercalate {mark : String} {texts : List String} {c : Char} (hne : texts ≠ [])
    (h : ∀ t ∈ texts, t.toList.getLast? = some c) :
    (mark.intercalate texts).toList.getLast? = some c := by
  induction texts with
  | nil => exact absurd rfl hne
  | cons t ts ih =>
    rw [forall_mem_cons] at h
    cases ts with
    | nil => simpa using h.1
    | cons u us =>
      rw [String.intercalate_cons_of_ne_nil (by simp), String.toList_append, getLast?_append,
        ih (by simp) h.2]
      rfl

/-- The routes of a module export nothing. -/
theorem not_exports_routes {ds : List (MappedDeclaration String)}
    {found : List (List String × List String)} (h : ds.mapM (parts indent) = .ok found)
    (constant : String) : ¬Exports constant ("\n\n".intercalate (found.map Prod.snd).flatten) := by
  intro hexports
  have hroutes : ∀ t ∈ (found.map Prod.snd).flatten, t.toList.getLast? = some ',' := by
    intro t ht
    obtain ⟨part, hpart, ht⟩ := mem_flatten.mp ht
    obtain ⟨p, hp, rfl⟩ := mem_map.mp hpart
    obtain ⟨d, _, hd⟩ := exists_mem_of_forall₂ (forall₂_of_mapM h) hp
    unfold parts at hd
    split at hd
    case h_1 =>
      obtain ⟨_, _, hd⟩ := bind_eq_ok.mp hd
      cases hd
      cases ht
    case h_2 kind _ =>
      obtain ⟨routes, hroutes, hd⟩ := bind_eq_ok.mp hd
      cases hd
      obtain ⟨m, _, hm⟩ := exists_mem_of_forall₂ (forall₂_of_mapM hroutes) ht
      exact getLast?_route hm
  have hlast := hexports.last
  by_cases hempty : (found.map Prod.snd).flatten = []
  · rw [hempty] at hlast
    cases hlast
  · rw [getLast?_intercalate hempty hroutes] at hlast
    cases hlast

theorem name_of_declarationLines {d : MappedDeclaration String}
    (h : Zod.declarationLines d = .ok lines) : ∃ n, d.name = .text n := by
  obtain ⟨n, hn, _⟩ := bind_eq_ok.mp h
  cases hname : d.name with
  | text s => exact ⟨s, rfl⟩
  | _ =>
    rw [hname] at hn
    cases hn

/-- A module exports the constants of its schemas: those of all types but the root operations. -/
theorem defines_moduleLines {ds : List (MappedDeclaration String)}
    (h : moduleLines indent ds = .ok lines) (hc : ' ' ∉ constant.toList) :
    Defines lines constant ↔
      ∃ d ∈ ds, ∃ n, d.name = .text n ∧ n ∉ operations ∧ constant = Zod.schemaName n := by
  obtain ⟨found, hfound, h⟩ := bind_eq_ok.mp h
  cases h
  have hparts := forall₂_of_mapM hfound
  constructor
  · rintro ⟨line, hline, hexports⟩
    obtain ⟨part, hpart, hline⟩ : ∃ part ∈ found, line ∈ part.1 := by
      simp only [mem_append, mem_cons, not_mem_nil, or_false, mem_flatten,
        mem_map, exists_exists_and_eq_and] at hline
      -- the other lines begin with something else or do not end a statement
      have hhead := hexports.head
      have hlast := hexports.last
      obtain ((rfl | rfl | rfl) | hschema) | rfl | rfl | rfl | rfl | rfl := hline
      case inl.inr => exact hschema
      case inr.inr.inl => exact absurd hexports (not_exports_routes hfound constant)
      case inr.inr.inr.inr.inr =>
        obtain ⟨e, he⟩ := hexports
        have hchars := congrArg String.toList he
        simp at hchars
      all_goals simp at hhead hlast
    obtain ⟨d, hd, hparts⟩ := exists_mem_of_forall₂ hparts hpart
    unfold parts at hparts
    split at hparts
    case h_1 hop =>
      obtain ⟨schema, hschema, hparts⟩ := bind_eq_ok.mp hparts
      cases hparts
      obtain ⟨n, hname⟩ := name_of_declarationLines hschema
      rw [hname, operation?_eq_none_iff] at hop
      exact ⟨d, hd, n, hname, hop,
        (defines_declarationLines hname hschema hc).mp ⟨line, hline, hexports⟩⟩
    case h_2 =>
      obtain ⟨_, _, hparts⟩ := bind_eq_ok.mp hparts
      cases hparts
      cases hline
  · rintro ⟨d, hd, n, hname, hop, rfl⟩
    obtain ⟨part, hpart, hparts⟩ := exists_mem_of_forall₂ hparts.flip hd
    rw [parts, hname, (operation?_eq_none_iff n).mpr hop] at hparts
    obtain ⟨schema, hschema, hparts⟩ := bind_eq_ok.mp hparts
    cases hparts
    obtain ⟨line, hline, hexports⟩ := (defines_declarationLines hname hschema hc).mpr rfl
    refine ⟨line, ?_, hexports⟩
    refine mem_append_left _ (mem_append_right _ (mem_flatten.mpr ⟨schema, ?_, hline⟩))
    exact mem_map.mpr ⟨_, hpart, rfl⟩

/-- The names in the printed text: those of a schema, or those in the inputs of the procedures. -/
def writtenUses (md : MappedDeclaration (Noted Use String)) : List Use :=
  match operation? md.name with
  | none => md.expression.notes
  | some _ => md.fields.flatMap fun f => MappedField.notesAll Use.notebook f.arguments

end Target.Router

namespace MappedField

theorem notes_arguments_subset {ε : Type} {f : MappedField (Noted Use ε)} :
    ∀ {fs : List (MappedField (Noted Use ε))}, f ∈ fs →
      notesAll Use.notebook f.arguments ⊆ notesAll Use.notebook fs
  | g :: fs, h => by
    rw [notesAll]
    rcases mem_cons.mp h with rfl | h
    · obtain ⟨_, _, _⟩ := f
      rw [notes]
      exact fun u hu => mem_append_left _ (mem_append_right _ hu)
    · exact fun u hu => mem_append_right _ (notes_arguments_subset h hu)

end MappedField

namespace Mapping

/-- What the fields of a declaration use is used in its expression. -/
theorem notesAll_fields_subset {ε : Type} {m : Mapping ε} {budget : Nat} {pending : List Scalar}
    {d : Declaration} {md : MappedDeclaration (Noted Use ε)}
    (h : (m.noting.declaration budget pending d).result = .ok md) :
    MappedField.notesAll Use.notebook md.fields ⊆ md.expression.notes := by
  rcases (parts_of_mapped h).2 with hnone | ⟨additional, body, bases, hbody, he⟩
  · rw [hnone]
    exact nil_subset _
  · rw [notes_intersectAll he, flatMap_append, flatMap_singleton, notes_of_map hbody]
    exact fun u hu => mem_append_right _ (mem_append_left _ hu)

end Mapping

namespace Conversion

open Target.Router

abbrev graphRouters (s : Settings) : Conversion :=
  { grammar := .graphQL, target := .trpc, settings := s }

/-- The names in a printed module are names of the document. -/
theorem Prints.declared {s : Settings} {mds : List (MappedDeclaration (Noted Use String))}
    (h : (graphRouters s).Prints doc mds output) {md : MappedDeclaration (Noted Use String)}
    (hmd : md ∈ mds) {u : Use} (hu : u ∈ writtenUses md) :
    ∃ md' ∈ mds, md'.name = .text u.name := by
  obtain ⟨refs, _, hall⟩ := Mapping.mapped_inDependencyOrder h.mapped
  obtain ⟨step, _, d, _, _, hd⟩ := exists_mem_of_forall₂ hall hmd
  have hused : u ∈ md.expression.notes := by
    unfold writtenUses at hu
    split at hu
    · exact hu
    · obtain ⟨f, hf, hu⟩ := mem_flatMap.mp hu
      exact Mapping.notesAll_fields_subset hd (MappedField.notes_arguments_subset hf hu)
  have hname :=
    (Mapping.fits_of_uses (m := (graphRouters s).mappingOf doc) rfl rfl hd hused).declared
  have hperm := (Mapping.map_declaration_perm (Catalogue.names_ofList_nodup _) h.mapped).map
    Declaration.name
  have hmem := hperm.mem_iff.mpr hname
  rw [map_map] at hmem
  exact mem_map.mp hmem

/-- The output of a conversion consists of the lines of a module. -/
theorem Prints.exists_lines {s : Settings} {mds : List (MappedDeclaration (Noted Use String))}
    (h : (graphRouters s).Prints doc mds output) :
    ∃ indent lines,
      moduleLines indent (mds.map (MappedDeclaration.map Noted.expression)) = .ok lines ∧
      output = "\n".intercalate lines ++ "\n" := by
  obtain ⟨setting, hemit⟩ := h.emitted
  obtain ⟨lines, hlines, houtput⟩ := map_eq_ok.mp hemit
  exact ⟨setting.indent, lines, hlines, houtput.symm⟩

end Conversion

namespace GraphQL

/-- The blocks of a source with their places. -/
def blocks (source : List Char) : Except Fault (List (Nat × Declaration)) :=
  (Document.readAll (blockHead.all (stripComments source)) fun m => do
    return (m.start.index, ← block m)).result

/-- A source with nothing but blocks. -/
theorem result_extract {source : List Char} {found : List (Nat × Declaration)}
    (hfound : blocks source = .ok found) (hplaces : (found.map Prod.fst).Pairwise (· ≤ ·))
    (hunions : unionForm.all (stripComments source) = [])
    (hscalars : scalarForm.all (stripComments source) = []) :
    (extract source).result = .ok { declarations := found.map Prod.snd } := by
  refine result_bind_eq_ok.mpr ⟨found, hfound, ?_⟩
  have hsorted : found.mergeSort (fun a b => a.1 ≤ b.1) = found :=
    mergeSort_of_pairwise (by simpa [pairwise_map] using hplaces)
  simp only [hunions, hscalars, map_nil, append_nil, Document.inOrder, hsorted]
  rfl

end GraphQL

theorem Conversion.result_run {c : Conversion} {source : List Char}
    (hlength : c.settings.refusesLength source.length = false)
    (hdoc : (c.grammar.extract source).result = .ok doc)
    (hdeclarations : doc.declarations.isEmpty = false) (h : (c.print doc).result = .ok output) :
    (c.run source).result = .ok output := by
  rw [run, hlength]
  refine result_bind_eq_ok.mpr ⟨doc, hdoc, ?_⟩
  rw [hdeclarations]
  exact h

theorem Conversion.diagnostic_of_run {c : Conversion} {source : List Char}
    (h : (c.run source).result = .ok output) (collected : Collector) :
    (c.convert collected source).1.diagnostic = none := by
  simp only [convert, h]

namespace Converter

open Target.Router Conversion

theorem conversion_graphRouters {c : Converter} (hc : find? "graphql-to-trpc" = some c)
    (s : Settings) : (c.withSettings s).conversion = graphRouters s := by
  simp only [find?, all, find?_cons, String.reduceBEq] at hc
  cases hc
  rfl

/-- The constant of a name that a module uses is exported by the module, unless the name is that of
a root operation: then it is exported nowhere. -/
theorem constant_undefined_iff_operation {c : Converter} (hc : find? "graphql-to-trpc" = some c)
    (s : Settings) {collected : Collector} {source : List Char}
    (h : ((c.withSettings s).conversion.convert collected source).1.diagnostic = none) :
    ∃ doc mds indent lines, (GraphQL.extract source).result = .ok doc ∧
      (graphRouters s).Prints doc mds
        ((c.withSettings s).conversion.convert collected source).1.output ∧
      moduleLines indent (mds.map (MappedDeclaration.map Noted.expression)) = .ok lines ∧
      ((c.withSettings s).conversion.convert collected source).1.output =
        "\n".intercalate lines ++ "\n" ∧
      ∀ md ∈ mds, ∀ u ∈ writtenUses md,
        (¬Defines lines (Target.Zod.schemaName u.name) ↔ u.name ∈ operations) := by
  rw [conversion_graphRouters hc] at h ⊢
  obtain ⟨doc, mds, hdoc, hprints⟩ := prints_of_run (c := graphRouters s) rfl (result_of_convert h)
  obtain ⟨indent, lines, hlines, houtput⟩ := hprints.exists_lines
  refine ⟨doc, mds, indent, lines, hdoc, hprints, hlines, houtput, ?_⟩
  intro md hmd u hu
  rw [defines_moduleLines hlines (space_notMem_schemaName u.name)]
  constructor
  · intro hundefined
    by_contra hop
    obtain ⟨md', hmd', hname⟩ := hprints.declared hmd hu
    exact hundefined ⟨_, mem_map_of_mem hmd', u.name, hname, hop, rfl⟩
  · rintro hop ⟨_, _, n, _, hn, hconstant⟩
    exact hn (schemaName_operation hop hconstant ▸ hop)

/-- A type with a field of the type of the queries. -/
def linkedQuery : List Char :=
  "type User \x7b id: ID!\n api: Query \x7d\ntype Query \x7b user(id: ID!): User \x7d\n".toList

def linkedQueryDocument : Document :=
  { declarations := [
      { name := .text "User", body := .object [
          { key := .text "id", type := .text "ID!".toList },
          { key := .text "api", type := .text "Query".toList }] },
      { name := .text "Query", body := .object [
          { key := .text "user", type := .text "User".toList,
            arguments := [{ key := .text "id", type := .text "ID!".toList }] }] }] }

theorem extract_linkedQuery :
    ((graphRouters {}).grammar.extract linkedQuery).result = .ok linkedQueryDocument := by
  have hblocks :
      GraphQL.blocks linkedQuery = .ok ([0, 34].zip linkedQueryDocument.declarations) := by
    with_unfolding_all rfl
  exact GraphQL.result_extract hblocks (by decide) (by with_unfolding_all rfl)
    (by with_unfolding_all rfl)

/-- `User` uses `Query`, and the module has no constant of that name. -/
theorem linkedQuery_constant_undefined :
    ∃ c doc mds indent lines, find? "graphql-to-trpc" = some c ∧
      (graphRouters {}).Prints doc mds
        ((c.withSettings {}).conversion.convert {} linkedQuery).1.output ∧
      moduleLines indent (mds.map (MappedDeclaration.map Noted.expression)) = .ok lines ∧
      ((c.withSettings {}).conversion.convert {} linkedQuery).1.output =
        "\n".intercalate lines ++ "\n" ∧
      (∃ md ∈ mds, md.name = .text "User" ∧ ⟨"Query", .plain⟩ ∈ writtenUses md) ∧
      ¬Defines lines "QuerySchema" := by
  have hc : find? "graphql-to-trpc" = some all[6] := rfl
  obtain ⟨output, houtput⟩ := exists_eq_ok
    (x := ((graphRouters {}).print linkedQueryDocument).result) (by decide +kernel)
  have hrun : ((all[6].withSettings {}).conversion.convert {} linkedQuery).1.diagnostic = none :=
    diagnostic_of_run (result_run (by decide) extract_linkedQuery rfl houtput) {}
  have huses : (graphRouters {}).printedUses linkedQuery =
      some [(.text "Query", [⟨"User", .deferred⟩]), (.text "User", [⟨"Query", .plain⟩])] := by
    rw [printedUses, extract_linkedQuery]
    decide +kernel
  obtain ⟨doc, mds, indent, lines, hdoc, hprints, hlines, houtput, hlaw⟩ :=
    constant_undefined_iff_operation hc {} hrun
  have hprinted := hprints.map_uses_eq (c := graphRouters {}) hdoc huses
  obtain ⟨md, hmd, hused⟩ := mem_map.mp
    (hprinted ▸ mem_cons_of_mem _ mem_cons_self :
      (Scalar.text "User", [Use.mk "Query" .plain]) ∈ mds.map fun md =>
        (md.name, md.expression.notes))
  obtain ⟨hname, hused⟩ := Prod.mk.inj hused
  have hwritten : ⟨"Query", .plain⟩ ∈ writtenUses md := by
    rw [writtenUses, hname]
    exact hused ▸ mem_cons_self
  refine ⟨all[6], doc, mds, indent, lines, hc, hprints, hlines, houtput, ⟨md, hmd, hname, hwritten⟩,
    ?_⟩
  exact (hlaw md hmd _ hwritten).mpr (by decide)

end Converter

end Crosswalk
