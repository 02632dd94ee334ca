import Crosswalk.Proofs.SchemaDocuments

/-!
Documents of the procedures of a router. Schema constants and procedures share one catalogue of
names: a constant is registered without the word at the end of its name, before any procedure.
Procedures are printed as paths and constants as components. Main statements: a procedure has its
path exactly if no constant is registered under its key, and a reference leads to a component
exactly if its name is not that of a path.
-/

namespace Crosswalk

open List

/-! ### The document -/

namespace Target.Router

open Value Target.JsonSchema

variable {ok : String → Prop} {n : Nat}

variable {ds : List (MappedDeclaration Value)} {paths : List (Scalar × Value)}
  {d : MappedDeclaration Value}

/-- The method by which a procedure is called. -/
def method (kind : String) : String := if kind == "mutation" then "post" else "get"

def isProcedure (d : MappedDeclaration Value) : Bool := d.declaration.procedure?.isSome

/-- The key of the path of a procedure. -/
def address (d : MappedDeclaration Value) : String := "/trpc/" ++ d.name.display

/-- `p` is the path of a procedure. -/
def Serves (d : MappedDeclaration Value) (p : Scalar × Value) : Prop :=
  ∃ kind, d.declaration.procedure? = some kind ∧ path kind d = .ok p

/-- The schemas that are printed as components. -/
def components (ds : List (MappedDeclaration Value)) : List (Scalar × Value) :=
  (ds.filter fun d => d.declaration.procedure?.isNone).map fun d => (d.name, d.expression)

theorem serves_of_filterMapM (h : (ds.filterMapM fun d =>
      match d.declaration.procedure? with
      | some kind => some <$> path kind d
      | none => pure none) = .ok paths) :
    Forall₂ Serves (ds.filter isProcedure) paths := by
  induction ds generalizing paths with
  | nil =>
    cases h
    exact .nil
  | cons d ds ih =>
    rw [filterMapM_cons] at h
    obtain ⟨p?, hp?, h⟩ := bind_eq_ok.mp h
    cases hk : d.declaration.procedure? with
    | none =>
      rw [hk] at hp?
      cases hp?
      rw [filter_cons_of_neg (by simp [isProcedure, hk])]
      exact ih h
    | some kind =>
      rw [hk] at hp?
      obtain ⟨p, hp, rfl⟩ := map_eq_ok.mp hp?
      obtain ⟨rest, hrest, h⟩ := bind_eq_ok.mp h
      cases h
      rw [filter_cons_of_pos (by simp [isProcedure, hk])]
      exact .cons ⟨kind, hk, hp⟩ (ih hrest)

theorem exists_paths {output : String} (h : emitOpenApi ds = .ok output) :
    ∃ paths, Forall₂ Serves (ds.filter isProcedure) paths ∧
      Json.document? (document paths (components ds)) = some output := by
  obtain ⟨paths, hpaths, h⟩ := bind_eq_ok.mp h
  refine ⟨paths, serves_of_filterMapM hpaths, ?_⟩
  change dump (document paths (components ds)) = .ok output at h
  unfold dump at h
  split at h <;> cases h
  assumption

theorem keysAt_paths (paths schemas : List (Scalar × Value)) (rest : List String) :
    (document paths schemas).keysAt ("paths" :: rest) =
      (Value.map (Value.ofEntries paths)).keysAt rest := by
  rw [document, object, object_eq]
  apply keysAt_cons
  rw [lookup?_texts]
  rfl

theorem keysAt_schemas (paths schemas : List (Scalar × Value)) :
    (document paths schemas).keysAt ["components", "schemas"] =
      (Value.ofEntries schemas).map Prod.fst := by
  rw [document, object, object_eq]
  cases schemas with
  | nil =>
    apply keysAt_of_none
    rw [lookup?_texts]
    rfl
  | cons e es =>
    rw [keysAt_cons (v := object [("schemas", .map (Value.ofEntries (e :: es)))])
      (by rw [lookup?_texts]; rfl), object, object_eq,
      keysAt_cons (v := .map (Value.ofEntries (e :: es))) (by rw [lookup?_texts]; rfl)]
    rfl

/-- A document refers to what its paths and components refer to. -/
theorem refersOnly_document {schemas : List (Scalar × Value)}
    (hpaths : RefersOnly ok (.map (Value.ofEntries paths)))
    (hschemas : RefersOnly ok (.map (Value.ofEntries schemas))) :
    RefersOnly ok (document paths schemas) := by
  have hdescribed (a b c d : String) (ha : a ≠ "$ref") (hc : c ≠ "$ref") :
      RefersOnly ok (object [(a, .text b), (c, .text d)]) :=
    refersOnly_object (by simp [ha, hc])
  have hinfo : RefersOnly ok (object [("title", .text "tRPC Converted API"),
      ("version", .text "1.0.0"),
      ("description", .text "Auto-generated from tRPC router definition.")]) :=
    refersOnly_object (by simp)
  have hcomponents : RefersOnly ok (object [("schemas", .map (Value.ofEntries schemas))]) :=
    refersOnly_object (by simpa using hschemas)
  apply refersOnly_object
  intro e he
  rcases mem_append.mp he with he | he
  · simp only [mem_cons, not_mem_nil, or_false] at he
    rcases he with rfl | rfl | rfl | rfl | rfl
    · exact ⟨by decide, refersOnly_scalar _⟩
    · exact ⟨by decide, hinfo⟩
    · refine ⟨by decide, refersOnly_list.mpr ?_⟩
      simpa using hdescribed _ _ _ _ (by decide) (by decide)
    · refine ⟨by decide, refersOnly_list.mpr ?_⟩
      simpa using ⟨hdescribed _ _ _ _ (by decide) (by decide),
        hdescribed _ _ _ _ (by decide) (by decide)⟩
    · exact ⟨show "paths" ≠ "$ref" by decide, hpaths⟩
  · split at he
    · cases he
    · cases mem_singleton.mp he
      exact ⟨show "components" ≠ "$ref" by decide, hcomponents⟩

theorem refersOnly_inputPart {mutation : Bool} {schema : Value} (h : schema.RefersOnly ok) :
    ∀ e ∈ inputPart mutation schema, e.1 ≠ "$ref" ∧ e.2.RefersOnly ok := by
  have hjson : RefersOnly ok (object [("schema", schema)]) := refersOnly_object (by simpa using h)
  have hcontent : RefersOnly ok (object [("application/json", object [("schema", schema)])]) :=
    refersOnly_object (by simpa using hjson)
  cases mutation with
  | true =>
    have hbody : RefersOnly ok (object [("required", .bool true),
        ("content", object [("application/json", object [("schema", schema)])])]) :=
      refersOnly_object (by simpa using hcontent)
    simpa [inputPart] using hbody
  | false =>
    have hparameter : RefersOnly ok (object [("name", .text "input"), ("in", .text "query"),
        ("required", .bool true), ("schema", schema), ("style", .text "deepObject"),
        ("explode", .bool true)]) := refersOnly_object (by simpa using h)
    simpa [inputPart] using hparameter

theorem refersOnly_operation {mutation : Bool} {v : Value} (hd : d.expression.RefersOnly ok)
    (h : operation mutation d = .ok v) : v.RefersOnly ok := by
  obtain ⟨name, _, h⟩ := bind_eq_ok.mp h
  cases h
  have hdescribed (s : String) : RefersOnly ok (described s) := refersOnly_object (by simp)
  have hresponses : RefersOnly ok (object [("200", described "Successful response"),
      ("400", described "Invalid input")]) := refersOnly_object (by simp [hdescribed])
  apply refersOnly_object
  rw [forall_mem_append, forall_mem_append]
  refine ⟨⟨by simp, ?_⟩, by simpa using hresponses⟩
  split
  · exact refersOnly_inputPart hd
  · simp

/-- The path of a procedure holds its one operation, which refers to what its input refers to. -/
theorem Serves.eq {p : Scalar × Value} (h : Serves d p) (hd : d.expression.RefersOnly ok) :
    ∃ kind v, d.declaration.procedure? = some kind ∧ v.RefersOnly ok ∧
      p = (.text (address d), Value.object [(method kind, v)]) := by
  obtain ⟨kind, hkind, h⟩ := h
  obtain ⟨v, hv, h⟩ := bind_eq_ok.mp h
  cases h
  exact ⟨kind, v, hkind, refersOnly_operation hd hv, rfl⟩

/-- What a document says about declarations: components are listed by their names, and procedures
by their paths. -/
structure Describes (ds : List (MappedDeclaration Value)) (v : Value) : Prop where
  schemas : ∀ d ∈ ds, d.name ∈ v.keysAt ["components", "schemas"] ↔ isProcedure d = false
  paths : ∀ key, key ∈ v.keysAt ["paths"] ↔ ∃ d ∈ ds, isProcedure d = true ∧ key = .text (address d)
  methods : ∀ d ∈ ds, ∀ kind, d.declaration.procedure? = some kind →
    v.keysAt ["paths", address d] = [.text (method kind)]

/-- Declarations with different textual names. -/
structure Separate (ds : List (MappedDeclaration Value)) : Prop where
  named : ∀ d ∈ ds, ∃ n, d.name = .text n
  distinct : (ds.map MappedDeclaration.name).Nodup

theorem Separate.filter (h : Separate ds) (p : MappedDeclaration Value → Bool) :
    Separate (ds.filter p) where
  named d hd := h.named d (mem_of_mem_filter hd)
  distinct := h.distinct.sublist (filter_sublist.map _)

theorem Separate.eq_of_name_eq (h : Separate ds) {d' : MappedDeclaration Value} (hd : d ∈ ds)
    (hd' : d' ∈ ds) (heq : d.name = d'.name) :
    d = d' := inj_on_of_nodup_map h.distinct hd hd' heq

theorem Separate.address_nodup (h : Separate ds) : (ds.map address).Nodup := by
  refine Nodup.map_on ?_ h.distinct.of_map
  intro d hd d' hd' heq
  obtain ⟨n, hn⟩ := h.named d hd
  obtain ⟨n', hn'⟩ := h.named d' hd'
  apply h.eq_of_name_eq hd hd'
  have hsame : n = n' := by simpa [address, hn, hn', Scalar.display, Scalar.displayWith] using heq
  rw [hn, hn', hsame]

theorem map_fst_components (h : Separate ds) :
    (ofEntries (components ds)).map Prod.fst =
      (ds.filter fun d => d.declaration.procedure?.isNone).map MappedDeclaration.name := by
  have hfiltered := h.filter fun d => d.declaration.procedure?.isNone
  obtain ⟨ns, hns⟩ := exists_map_text hfiltered.named
  have hkeys : (components ds).map Prod.fst = ns.map .text := by
    rw [← hns, components, map_map]
    rfl
  have hdistinct := hfiltered.distinct
  rw [hns] at hdistinct
  rw [ofEntries_eq_self hkeys (hdistinct.of_map _), hkeys, hns]

/-- A procedure has a path, a component has none. -/
theorem Describes.address_mem_iff {v : Value} (h : Describes ds v) (hds : Separate ds)
    (hd : d ∈ ds) :
    .text (address d) ∈ v.keysAt ["paths"] ↔ isProcedure d := by
  rw [h.paths]
  constructor
  · rintro ⟨d', hd', hprocedure, heq⟩
    rwa [inj_on_of_nodup_map hds.address_nodup hd hd' (Scalar.text.inj heq)]
  · intro hprocedure
    exact ⟨d, hd, hprocedure, rfl⟩

theorem map_fst_paths (h : Forall₂ Serves ds paths) :
    paths.map Prod.fst = (ds.map address).map .text := by
  induction h with
  | nil => rfl
  | cons hp _ ih =>
    obtain ⟨_, _, hp⟩ := hp
    obtain ⟨_, _, hp⟩ := bind_eq_ok.mp hp
    cases hp
    rw [map_cons, ih]
    rfl

theorem refersOnly_paths (hlinked : ∀ d ∈ ds, Linked ok n d.expression)
    (h : Forall₂ Serves ds paths) : RefersOnly ok (.map (Value.ofEntries paths)) := by
  apply refersOnly_ofEntries
  intro p hp
  obtain ⟨d, hd, hserves⟩ := exists_mem_of_forall₂ h hp
  obtain ⟨kind, v, _, hrefs, rfl⟩ := hserves.eq (hlinked d hd).refersOnly
  have hmethod : method kind ≠ "$ref" := by
    unfold method
    split <;> decide
  exact ⟨⟨_, rfl⟩, refersOnly_object (by simpa using ⟨hmethod, hrefs⟩)⟩

theorem refersOnly_components (hlinked : ∀ d ∈ ds, Linked ok n d.expression) :
    RefersOnly ok (.map (Value.ofEntries (components ds))) := by
  apply refersOnly_ofEntries
  intro e he
  obtain ⟨d, hd, rfl⟩ := mem_map.mp he
  have hd := hlinked d (mem_of_mem_filter hd)
  obtain ⟨es, hes, _⟩ := hd.isNode
  exact ⟨⟨es, hes⟩, hd.refersOnly⟩

theorem keysAt_path (hds : Separate ds) (h : Forall₂ Serves ds paths) (hd : d ∈ ds)
    {kind : String} (hkind : d.declaration.procedure? = some kind) :
    (Value.map paths).keysAt [address d] = [.text (method kind)] := by
  obtain ⟨p, hp, hserves⟩ := exists_mem_of_forall₂ h.flip hd
  -- What the input refers to does not count for the keys.
  have hany : d.expression.RefersOnly fun _ => True := fun _ _ => trivial
  obtain ⟨kind', v, hkind', _, rfl⟩ := Serves.eq hserves hany
  cases hkind.symm.trans hkind'
  rw [keysAt_cons (lookup?_of_mem (map_fst_paths h) hds.address_nodup hp)]
  rfl

theorem describes_document (hds : Separate ds)
    (h : Forall₂ Serves (ds.filter isProcedure) paths) :
    Describes ds (document paths (components ds)) := by
  have hkeys := map_fst_paths h
  have hprocedures := hds.filter isProcedure
  have hself := ofEntries_eq_self hkeys hprocedures.address_nodup
  constructor
  case schemas =>
    intro d hd
    rw [keysAt_schemas, map_fst_components hds]
    constructor
    · intro hmem
      obtain ⟨d', hd', heq⟩ := mem_map.mp hmem
      rw [mem_filter] at hd'
      rw [← hds.eq_of_name_eq hd'.1 hd heq]
      simpa [isProcedure] using hd'.2
    · intro hd'
      apply mem_map_of_mem
      exact mem_filter.mpr ⟨hd, by simpa [isProcedure] using hd'⟩
  case paths =>
    intro key
    rw [keysAt_paths, hself]
    change key ∈ paths.map Prod.fst ↔ _
    rw [hkeys, map_map, mem_map]
    constructor
    · rintro ⟨d, hd, rfl⟩
      exact ⟨d, (mem_filter.mp hd).1, (mem_filter.mp hd).2, rfl⟩
    · rintro ⟨d, hd, hprocedure, rfl⟩
      exact ⟨d, mem_filter.mpr ⟨hd, hprocedure⟩, rfl⟩
  case methods =>
    intro d hd kind hkind
    rw [keysAt_paths, hself]
    exact keysAt_path hprocedures h (mem_filter.mpr ⟨hd, by simp [isProcedure, hkind]⟩) hkind

theorem exists_describes {output : String} (hds : Separate ds)
    (hlinked : ∀ d ∈ ds, Linked ok n d.expression) (h : emitOpenApi ds = .ok output) :
    ∃ v, Json.document? v = some output ∧ v.RefersOnly ok ∧ Describes ds v := by
  obtain ⟨paths, hpaths, hv⟩ := exists_paths h
  refine ⟨_, hv, refersOnly_document ?_ (refersOnly_components hlinked),
    describes_document hds hpaths⟩
  exact refersOnly_paths (fun d hd => hlinked d (mem_of_mem_filter hd)) hpaths

end Target.Router

/-! ### Routers in sources -/

namespace Zod

variable {d : Declaration}

/-- The entries of the first router. -/
def entries (cs : List Char) : List (List Char) :=
  match routerHead.search? (.start cs) with
  | none => []
  | some m => ((group? ('{' :: m.stop.rest)).map fun g => arguments g.1).getD []

/-- The key of an entry. -/
def entryKey? (entry : List Char) : Option String :=
  (Identifier.leading? Identifier.isPart entry).map fun found => String.ofList found.1

theorem result_procedures (cs : List Char) :
    (procedures cs).result = .ok ((entries cs).filterMap procedure?) := by
  unfold procedures entries
  cases routerHead.search? (.start cs) with
  | none => rfl
  | some m =>
    dsimp only
    cases group? ('{' :: m.stop.rest) with
    | none => rfl
    | some g => rfl

theorem exists_kind {entry : List Char} (h : procedure? entry = some d) :
    ∃ key kind, entryKey? entry = some key ∧ d.name = .text key ∧ d.procedure? = some kind := by
  obtain ⟨⟨name, rest⟩, hname, h⟩ := Option.bind_eq_some_iff.mp h
  dsimp only at h
  split at h
  case h_1 =>
    obtain ⟨kind, _, h⟩ := Option.bind_eq_some_iff.mp h
    cases h
    exact ⟨String.ofList name, kind, by simp [entryKey?, hname], rfl, rfl⟩
  case h_2 => cases h

theorem procedure?_constant {m : Text.Pattern.Found} (h : constant m = .ok d) :
    d.procedure? = none := by
  simp only [constant] at h
  split at h
  · obtain ⟨fs, _, h⟩ := bind_eq_ok.mp h
    cases h
    rfl
  · cases h
    rfl

/-- A source declares its constants and after them the procedures of its router. -/
theorem declarations_extract {source : List Char} {doc : Document}
    (h : (extract source).result = .ok doc) :
    ∃ constants, (constantHead.all (CommentMarks.strip {} source)).mapM constant = .ok constants ∧
      doc.declarations =
        constants ++ (entries (CommentMarks.strip {} source)).filterMap procedure? := by
  obtain ⟨constants, hconstants, h⟩ := result_bind_eq_ok.mp h
  obtain ⟨found, hfound, h⟩ := result_bind_eq_ok.mp h
  cases h
  rw [result_procedures] at hfound
  cases hfound
  exact ⟨constants, hconstants, rfl⟩

/-- Entries with different keys declare procedures that are found by their keys. -/
theorem find?_procedure {es : List (List Char)} (hkeys : (es.filterMap entryKey?).Nodup)
    {entry : List Char} (hentry : entry ∈ es) {key : String} (hd : procedure? entry = some d)
    (hkey : entryKey? entry = some key) (hname : d.name = .text key) :
    (es.filterMap procedure?).find? (fun d => d.name == .text key) = some d := by
  induction es with
  | nil => cases hentry
  | cons e es ih =>
    rcases mem_cons.mp hentry with rfl | hentry
    · rw [filterMap_cons_some hd, find?_cons_of_pos (by simp [hname])]
    · have hrest : (es.filterMap entryKey?).Nodup :=
        hkeys.sublist ((sublist_cons_self e es).filterMap _)
      cases hother : procedure? e with
      | none =>
        rw [filterMap_cons_none hother]
        exact ih hrest hentry
      | some d' =>
        obtain ⟨key', kind, hkey', hname', _⟩ := exists_kind hother
        rw [filterMap_cons_some hkey', nodup_cons] at hkeys
        have hne : key' ≠ key := by
          intro heq
          exact hkeys.1 (mem_filterMap.mpr ⟨entry, hentry, heq ▸ hkey⟩)
        rw [filterMap_cons_some hother,
          find?_cons_of_neg (by simpa [hname'] using hne)]
        exact ih hrest hentry

end Zod

/-! ### Conversions of routers -/

namespace Conversion

open Target.Router

/-- Routers are converted to documents of their procedures. -/
def routers (s : Settings) : Conversion := { grammar := .zod, target := .openApi, settings := s }

theorem plain_routers {s : Settings} {source : List Char} {doc : Document}
    (h : (Zod.extract source).result = .ok doc) :
    ((routers s).mappingOf doc).Plain Zod.isGiven where
  classify raw shape hshape := by
    change Zod.classify raw.asText = .ok shape at hshape
    exact ((Zod.ensures_classify _).holds hshape).plain
  enumValues body vs hvs := by
    change Zod.enumValues body.asText = .ok vs at hvs
    exact (Zod.ensures_enumValues _).holds hvs
  declarations d hd := (Zod.regular_extract h d (Catalogue.mem_of_mem_ofList hd)).plain

/-- A reference to a registered name. -/
def RefersTo (ds : List Declaration) (r : String) : Prop :=
  ∃ n, .text n ∈ (Catalogue.ofList ds).names ∧ r = componentsStart ++ n

/-- A document describes the registered declarations and refers to nothing else. -/
theorem exists_describes {s : Settings} {collected : Collector} {source : List Char}
    (h : ((routers s).convert collected source).1.diagnostic = none) :
    ∃ doc mds v, (Zod.extract source).result = .ok doc ∧
      mds.map MappedDeclaration.declaration = doc.catalogue.declarations ∧
      Json.document? v = some ((routers s).convert collected source).1.output ∧
      Separate mds ∧ Describes mds v ∧ v.RefersOnly (RefersTo doc.declarations) := by
  obtain ⟨doc, mds, hdoc, _, hlists⟩ := lists_of_convert rfl h
  have hregular := Zod.regular_extract hdoc
  have hseparate : Separate mds := by
    constructor
    · intro md hmd
      have hmem := mem_map_of_mem (f := MappedDeclaration.declaration) hmd
      rw [hlists.map_declaration] at hmem
      exact (hregular _ (Catalogue.mem_of_mem_ofList hmem)).named
    · have hnodup := Catalogue.names_ofList_nodup doc.declarations
      rwa [← hlists.map_name] at hnodup
  -- The document has no root, and no empty name is written.
  have htarget : ∀ n, .text n ∈ doc.catalogue.names ∧ Zod.isGiven n →
      RefersTo doc.declarations (Target.JsonSchema.target componentsStart (.text "") n) := by
    intro n hn
    refine ⟨n, hn.1, ?_⟩
    simp [Target.JsonSchema.target, Ne.symm hn.2]
  have hlinked := Target.JsonSchema.linked_inSourceOrder rfl rfl (plain_routers hdoc)
    (fun n hn hgiven => htarget n ⟨hn, hgiven⟩) hlists.mapped
  obtain ⟨setting, hemit⟩ := hlists.emitted
  obtain ⟨v, hv, hrefs, hdescribes⟩ := Target.Router.exists_describes hseparate hlinked hemit
  exact ⟨doc, mds, v, hdoc, hlists.map_declaration, hv, hseparate, hdescribes, hrefs⟩

end Conversion

namespace Converter

open Target.Router Conversion

theorem conversion_routers {c : Converter} (hc : find? "trpc-to-openapi" = some c) (s : Settings) :
    (c.withSettings s).conversion = routers s := by
  simp only [find?, all, find?_cons, String.reduceBEq] at hc
  cases hc
  rfl

/-- In a router with different keys, a procedure has its path, under its method, exactly if no
schema constant is registered under its key. -/
theorem path_listed_iff_unshadowed {c : Converter} (hc : find? "trpc-to-openapi" = some c)
    (s : Settings) {collected : Collector} {source : List Char}
    (h : ((c.withSettings s).conversion.convert collected source).1.diagnostic = none)
    (hkeys : ((Zod.entries (CommentMarks.strip {} source)).filterMap Zod.entryKey?).Nodup) :
    ∃ constants v,
      (Zod.constantHead.all (CommentMarks.strip {} source)).mapM Zod.constant = .ok constants ∧
      Json.document? v = some ((c.withSettings s).conversion.convert collected source).1.output ∧
      ∀ entry ∈ Zod.entries (CommentMarks.strip {} source), ∀ d, Zod.procedure? entry = some d →
        ∃ key kind, Zod.entryKey? entry = some key ∧ d.procedure? = some kind ∧
          (.text ("/trpc/" ++ key) ∈ v.keysAt ["paths"] ↔ ∀ k ∈ constants, k.name ≠ .text key) ∧
          (.text ("/trpc/" ++ key) ∈ v.keysAt ["paths"] →
            v.keysAt ["paths", "/trpc/" ++ key] =
              [.text (if kind == "mutation" then "post" else "get")]) := by
  rw [conversion_routers hc] at h ⊢
  obtain ⟨doc, mds, v, hdoc, hmds, hv, hseparate, hdescribes, _⟩ := exists_describes h
  obtain ⟨constants, hconstants, hdeclarations⟩ := Zod.declarations_extract hdoc
  refine ⟨constants, v, hconstants, hv, ?_⟩
  intro entry hentry d hd
  obtain ⟨key, kind, hkey, hname, hkind⟩ := Zod.exists_kind hd
  refine ⟨key, kind, hkey, hkind, ?_⟩
  -- The declaration that is registered under the key decides.
  have hfind := Catalogue.find?_ofList doc.declarations (.text key)
  rw [hdeclarations, find?_append,
    Zod.find?_procedure hkeys hentry hd hkey hname, ← hdeclarations] at hfind
  have hregistered {d' : Declaration}
      (hd' : doc.catalogue.find? (.text key) = some d') :
      ∃ md ∈ mds, md.declaration = d' ∧ address md = "/trpc/" ++ key := by
    have hmem := mem_of_find?_eq_some hd'
    have hname' : d'.name = .text key := by simpa using find?_some hd'
    rw [← hmds] at hmem
    obtain ⟨md, hmd, rfl⟩ := mem_map.mp hmem
    exact ⟨md, hmd, rfl, by simp [address, MappedDeclaration.name, hname', Scalar.display,
      Scalar.displayWith]⟩
  cases hconstant : constants.find? fun k => k.name == .text key with
  | none =>
    rw [hconstant] at hfind
    obtain ⟨md, hmd, rfl, haddress⟩ := hregistered hfind
    have hlisted := hdescribes.address_mem_iff hseparate hmd
    have hmethod := hdescribes.methods md hmd kind hkind
    rw [haddress] at hlisted hmethod
    refine ⟨?_, fun _ => hmethod⟩
    simpa [hlisted, isProcedure, hkind] using hconstant
  | some k =>
    rw [hconstant] at hfind
    obtain ⟨md, hmd, rfl, haddress⟩ := hregistered hfind
    have hlisted := hdescribes.address_mem_iff hseparate hmd
    have hmem := mem_of_find?_eq_some hconstant
    have hnone := forall_mem_of_mapM hconstants (fun _ _ _ => Zod.procedure?_constant) _ hmem
    rw [haddress] at hlisted
    have habsent : .text ("/trpc/" ++ key) ∉ v.keysAt ["paths"] := by
      rw [hlisted]
      simp [isProcedure, hnone]
    refine ⟨⟨fun hmem => absurd hmem habsent, ?_⟩, fun hmem => absurd hmem habsent⟩
    intro hall
    exact absurd (by simpa using find?_some hconstant) (hall _ hmem)

/-- The input of `add` is registered under the key of the procedure. -/
def shadowedRouter : List Char :=
  "const addSchema = z.object(\x7b n: z.string() \x7d);\n".toList ++
  "const app = router(\x7b\n  add: open.input(addSchema).mutation(add),\n".toList ++
  "  put: open.input(addSchema).mutation(put),\n  all: open.query(all),\n\x7d);\n".toList

theorem shadowedRouter_paths :
    ∃ c v, find? "trpc-to-openapi" = some c ∧
      Json.document? v =
        some ((c.withSettings scriptSettings).conversion.convert {} shadowedRouter).1.output ∧
      .text "/trpc/add" ∉ v.keysAt ["paths"] ∧
      v.keysAt ["paths", "/trpc/put"] = [.text "post"] ∧
      v.keysAt ["paths", "/trpc/all"] = [.text "get"] := by
  have hc : find? "trpc-to-openapi" = some all[10] := rfl
  have hok : ((all[10].withSettings scriptSettings).conversion.convert {}
      shadowedRouter).1.diagnostic.isNone = true := by decide +kernel
  have hentries : (Zod.entries (CommentMarks.strip {} shadowedRouter)).map (fun e =>
      (Zod.entryKey? e, (Zod.procedure? e).bind Declaration.procedure?)) =
        [(some "add", some "mutation"), (some "put", some "mutation"),
          (some "all", some "query")] := by
    decide +kernel
  have hnames : ((Zod.constantHead.all (CommentMarks.strip {} shadowedRouter)).mapM
      Zod.constant).toOption.map (·.map Declaration.name) = some [.text "add"] := by
    decide +kernel
  have hkeys : ((Zod.entries (CommentMarks.strip {} shadowedRouter)).filterMap
      Zod.entryKey?).Nodup := by
    have hread := congrArg (List.filterMap Prod.fst) hentries
    rw [filterMap_map] at hread
    change List.filterMap Zod.entryKey? _ = _ at hread
    rw [hread]
    decide
  obtain ⟨constants, v, hconstants, hv, hpaths⟩ :=
    path_listed_iff_unshadowed hc scriptSettings (Option.isNone_iff_eq_none.mp hok) hkeys
  rw [hconstants] at hnames
  have hnames : constants.map Declaration.name = [.text "add"] := Option.some.inj hnames
  have hunshadowed (key : String) :
      (∀ k ∈ constants, k.name ≠ .text key) ↔ key ≠ "add" := by
    rw [← forall_mem_map (f := Declaration.name) (P := fun n => n ≠ .text key), hnames]
    simp [eq_comm]
  have hpath (key kind : String) (h : (some key, some kind) ∈
      (Zod.entries (CommentMarks.strip {} shadowedRouter)).map (fun e =>
        (Zod.entryKey? e, (Zod.procedure? e).bind Declaration.procedure?))) :
      (.text ("/trpc/" ++ key) ∈ v.keysAt ["paths"] ↔ key ≠ "add") ∧
      (.text ("/trpc/" ++ key) ∈ v.keysAt ["paths"] → v.keysAt ["paths", "/trpc/" ++ key] =
        [.text (if kind == "mutation" then "post" else "get")]) := by
    obtain ⟨entry, hentry, heq⟩ := mem_map.mp h
    obtain ⟨hkey, hkind⟩ := Prod.mk.inj heq
    obtain ⟨d, hd, hkind⟩ := Option.bind_eq_some_iff.mp hkind
    obtain ⟨key', kind', hkey', hkind', hlisted⟩ := hpaths entry hentry d hd
    cases hkey.symm.trans hkey'
    cases hkind.symm.trans hkind'
    rwa [hunshadowed] at hlisted
  rw [hentries] at hpath
  have hadd := hpath "add" "mutation" (by simp)
  have hput := hpath "put" "mutation" (by simp)
  have hall := hpath "all" "query" (by simp)
  refine ⟨all[10], v, hc, hv, ?_, ?_, ?_⟩
  · exact fun hmem => hadd.1.mp hmem rfl
  · exact hput.2 (hput.1.mpr (by decide))
  · exact hall.2 (hall.1.mpr (by decide))

/-- Every reference has the form of a reference to a component; it leads to none exactly if a
procedure is listed under its name. -/
theorem reference_dangles_iff_procedure {c : Converter} (hc : find? "trpc-to-openapi" = some c)
    (s : Settings) {collected : Collector} {source : List Char}
    (h : ((c.withSettings s).conversion.convert collected source).1.diagnostic = none) :
    ∃ v, Json.document? v = some ((c.withSettings s).conversion.convert collected source).1.output ∧
      ∀ r ∈ v.refs, ∃ n, r = "#/components/schemas/" ++ n ∧
        (.text n ∉ v.keysAt ["components", "schemas"] ↔
          .text ("/trpc/" ++ n) ∈ v.keysAt ["paths"]) := by
  rw [conversion_routers hc] at h ⊢
  obtain ⟨doc, mds, v, hdoc, hmds, hv, hseparate, hdescribes, hrefs⟩ := exists_describes h
  refine ⟨v, hv, ?_⟩
  intro r hr
  obtain ⟨n, hn, rfl⟩ := hrefs r hr
  refine ⟨n, rfl, ?_⟩
  rw [Catalogue.names, ← hmds, map_map] at hn
  obtain ⟨md, hmd, hname⟩ := mem_map.mp hn
  change md.name = .text n at hname
  have haddress : address md = "/trpc/" ++ n := by
    simp [address, hname, Scalar.display, Scalar.displayWith]
  rw [← hname, ← haddress, hdescribes.schemas md hmd, hdescribes.address_mem_iff hseparate hmd,
    Bool.not_eq_false]

/-- A schema that refers to a procedure. -/
def linkedPage : List Char :=
  "const Page = z.array(get);\nconst app = router(\x7b get: open.query(get) \x7d);\n".toList

def linkedPageDocument : Value :=
  document
    [(.text "/trpc/get", object [("get", object [("summary", .text "Get"),
      ("operationId", .text "get"), ("tags", .list [.text "Queries"]),
      ("responses", object [("200", described "Successful response"),
        ("400", described "Invalid input")])])])]
    [(.text "Page", object [("type", .text "array"),
      ("items", object [("$ref", .text "#/components/schemas/get")])])]

theorem linkedPage_reference_dangles :
    ∃ c, find? "trpc-to-openapi" = some c ∧
      (∃ v, Json.document? v =
          some ((c.withSettings scriptSettings).conversion.convert {} linkedPage).1.output ∧
        ∀ r ∈ v.refs, ∃ n, r = "#/components/schemas/" ++ n ∧
          (.text n ∉ v.keysAt ["components", "schemas"] ↔
            .text ("/trpc/" ++ n) ∈ v.keysAt ["paths"])) ∧
      Json.document? linkedPageDocument =
        some ((c.withSettings scriptSettings).conversion.convert {} linkedPage).1.output ∧
      linkedPageDocument.refs = ["#/components/schemas/get"] ∧
      linkedPageDocument.keysAt ["components", "schemas"] = [.text "Page"] := by
  have hc : find? "trpc-to-openapi" = some all[10] := rfl
  have hrun : ((all[10].withSettings scriptSettings).conversion.convert {}
        linkedPage).1.diagnostic.isNone = true ∧
      Json.document? linkedPageDocument =
        some ((all[10].withSettings scriptSettings).conversion.convert {} linkedPage).1.output := by
    decide +kernel
  refine ⟨all[10], hc, ?_, hrun.2, by decide +kernel, by decide +kernel⟩
  exact reference_dangles_iff_procedure hc scriptSettings (Option.isNone_iff_eq_none.mp hrun.1)

end Converter

end Crosswalk
