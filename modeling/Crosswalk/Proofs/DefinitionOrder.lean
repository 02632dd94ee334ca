import Crosswalk.Converter
import Crosswalk.Proofs.Selections
import Crosswalk.Proofs.TwoPasses

/-!
Where a printed declaration finds the names that it uses. A deferred name is the declaration itself
or is printed later. Every other name is printed earlier, unless it comes in only with the fields of
an object that is printed later. Notations without selections have no such names.
-/

namespace Crosswalk

open List

variable {ε α β : Type} {doc : Document} {u : Use}

theorem forall₂_split {R : α → β → Prop} {as : List α} {before after : List β} {b : β}
    (h : Forall₂ R as (before ++ b :: after)) :
    ∃ first a last, as = first ++ a :: last ∧ Forall₂ R first before ∧ R a b ∧
      Forall₂ R last after := by
  have hfirst := forall₂_take_append _ _ _ h
  obtain ⟨a, last, hab, hlast, hdrop⟩ := forall₂_cons_right_iff.mp
    (forall₂_drop_append _ _ _ h)
  refine ⟨_, a, last, ?_, hfirst, hab, hlast⟩
  rw [← hdrop, take_append_drop]

namespace Mapping

variable {m : Mapping ε} {budget : Nat}

variable {d : Declaration} {mds : List (MappedDeclaration ε)} {md : MappedDeclaration (Noted Use ε)}

/-- What a name refers to is what its declaration refers to. -/
theorem targets_eq {refs : List (Scalar × List Scalar)} (h : m.references budget = .ok refs)
    {n : Scalar} (hd : m.catalogue.find? n = some d) :
    ∃ names, m.referencesOf budget d = .ok names ∧ targets refs n = names.map .text := by
  have hall := forall₂_of_mapM h
  clear h
  rw [Catalogue.find?] at hd
  generalize m.catalogue.declarations = ds at hall hd
  induction hall with
  | nil => cases hd
  | @cons e r es rs hr _ ih =>
    obtain ⟨names, hnames, hr⟩ := bind_eq_ok.mp hr
    cases hr
    cases hn : e.name == n with
    | true =>
      rw [find?_cons, hn] at hd
      cases hd
      exact ⟨names, hnames, by simp [targets, hn]⟩
    | false =>
      rw [find?_cons, hn] at hd
      obtain ⟨names', hnames', htargets⟩ := ih hd
      exact ⟨names', hnames', by simpa [targets, hn] using htargets⟩

/-- A declaration that is mapped at a step of the order. -/
def MappedAt (m : Mapping ε) (budget : Nat) (s : Catalogue.Step) (md : MappedDeclaration ε) :
    Prop :=
  ∃ d, m.catalogue.find? s.name = some d ∧ d.name = s.name ∧
    (m.declaration budget s.pending d).result = .ok md

theorem MappedAt.name_eq {s : Catalogue.Step} {md : MappedDeclaration ε}
    (h : m.MappedAt budget s md) : md.name = s.name := by
  obtain ⟨d, _, hname, hmd⟩ := h
  rw [MappedDeclaration.name, (parts_of_mapped hmd).1, hname]

theorem map_name_eq {steps : List Catalogue.Step} (h : Forall₂ (m.MappedAt budget) steps mds) :
    mds.map MappedDeclaration.name = steps.map Catalogue.Step.name := by
  induction h with
  | nil => rfl
  | cons hmd _ ih => rw [map_cons, map_cons, hmd.name_eq, ih]

theorem mappedAt_of_atStep {steps : List Catalogue.Step} {parts : List (List (MappedDeclaration ε))}
    (hdecl : ∀ n ∈ steps.map Catalogue.Step.name, n ∈ m.catalogue.names)
    (h : Forall₂ (fun s part => (m.atStep budget s).result = .ok part) steps parts) :
    Forall₂ (m.MappedAt budget) steps parts.flatten := by
  induction h with
  | nil => exact .nil
  | @cons s part steps parts hpart _ ih =>
    obtain ⟨d, hfind, hname⟩ := Catalogue.exists_find?_eq_some (hdecl s.name (by simp))
    rw [atStep, hfind] at hpart
    obtain ⟨md, hmd, hpart⟩ := result_bind_eq_ok.mp hpart
    cases hpart
    exact .cons ⟨d, hfind, hname, hmd⟩ (ih fun n hn => hdecl n (mem_cons_of_mem _ hn))

/-- Each step of the order maps one declaration. -/
theorem mapped_inDependencyOrder (h : (m.inDependencyOrder budget).result = .ok mds) :
    ∃ refs, m.references budget = .ok refs ∧
      Forall₂ (m.MappedAt budget) (m.catalogue.order (targets refs)) mds := by
  obtain ⟨steps, hsteps, h⟩ := result_bind_eq_ok.mp h
  obtain ⟨refs, hrefs, hplan⟩ := bind_eq_ok.mp hsteps
  cases hplan
  obtain ⟨parts, hparts, h⟩ := result_bind_eq_ok.mp h
  cases h
  rw [Logged.result_mapM] at hparts
  exact ⟨refs, hrefs, mappedAt_of_atStep
    (Catalogue.wellOrdered_order m.catalogue (targets refs)).name_declared (forall₂_of_mapM hparts)⟩

/-- A name that the first pass over a declaration does not meet, although the second may: the first
pass selects from an object that is printed later and whose fields the second pass writes out. -/
def Late (m : Mapping ε) (budget : Nat) (d : Declaration) (after : List Scalar) (name : String) :
    Prop :=
  (∃ names, m.referencesOf budget d = .ok names ∧ name ∉ names) ∧
    ∃ first, (m.noting.declaration budget [] d).result = .ok first ∧
      ∃ v ∈ first.expression.notes, m.catalogue.Unfolds after v

theorem referencesOf_noting (m : Mapping ε) (budget : Nat) (d : Declaration) :
    m.noting.referencesOf budget d = m.referencesOf budget d :=
  (referencesOf_map (m := m.noting) (m.renderer.noting_hom _) budget d).symm

/-- A name that the first pass has not met comes from a selection that the second pass unfolds. -/
theorem exists_unfolds_of_unrecorded (hi : m.inline = false) (hs : m.renderer.select?.isSome)
    {pending : List Scalar} (hmd : (m.noting.declaration budget pending d).result = .ok md)
    {names : List String} (hnames : m.noting.referencesOf budget d = .ok names)
    (hu : u ∈ md.expression.notes) (hrec : u.name ∉ names) :
    ∃ first, (m.noting.declaration budget [] d).result = .ok first ∧
      ∃ v ∈ first.expression.notes, m.catalogue.Unfolds pending v ∧ .text v.name ≠ d.name := by
  obtain ⟨first, hfirst, _⟩ := map_eq_ok.mp hnames
  refine ⟨first, hfirst, ?_⟩
  rcases alike_declaration hi hs budget pending d first md hfirst hmd with ⟨v, hv, hunf⟩ | hall
  · obtain ⟨hform, hopen, hobject⟩ := hunf
    have hfit := fits_of_uses hi hs hfirst hv
    have hne : .text v.name ≠ d.name := by
      intro h
      have hdef := hfit.deferred_iff.mpr (by simp [h])
      rw [hform] at hdef
      cases hdef
    exact ⟨v, hv, ⟨hform, (mem_cons.mp hopen).resolve_left hne, hobject⟩, hne⟩
  · obtain ⟨v, hv, hname⟩ := mem_map.mp (hall u hu)
    exact absurd (hname ▸ mem_references_of_uses hi hs hfirst hnames hv) hrec

/-- The place of a name that is used. -/
theorem place_of_use (hi : m.inline = false) (hs : m.renderer.select?.isSome)
    {before after : List (MappedDeclaration (Noted Use ε))}
    (h : (m.noting.inDependencyOrder budget).result = .ok (before ++ md :: after))
    (hu : u ∈ md.expression.notes) :
    u.form = .deferred ∧
        (.text u.name = md.name ∨ .text u.name ∈ after.map MappedDeclaration.name) ∨
      u.form ≠ .deferred ∧ (.text u.name ∈ before.map MappedDeclaration.name ∨
        .text u.name ∈ after.map MappedDeclaration.name ∧
          m.Late budget md.declaration (after.map MappedDeclaration.name) u.name) := by
  obtain ⟨refs, hrefs, hall⟩ := mapped_inDependencyOrder h
  have hord := Catalogue.wellOrdered_order m.catalogue (targets refs)
  have hcover := fun n => Catalogue.mem_order_of_mem_names m.catalogue (targets refs) (n := n)
  obtain ⟨sb, s, sa, hsteps, hb, hs', ha⟩ := forall₂_split hall
  have hsteps' : m.catalogue.order (targets refs) = sb ++ s :: sa := hsteps
  rw [hsteps'] at hord hcover
  rw [map_name_eq hb, map_name_eq ha, hs'.name_eq]
  obtain ⟨d, hfind, hname, hmd⟩ := hs'
  rw [(parts_of_mapped hmd).1]
  have hfit := fits_of_uses hi hs hmd hu
  have hopen {n : Scalar} (hn : n ∈ d.name :: s.pending) :
      n = s.name ∨ n ∈ sa.map Catalogue.Step.name := by
    rcases mem_cons.mp hn with rfl | hn
    · exact .inl hname
    · exact hord.open_after hcover hn
  by_cases hdef : u.form = .deferred
  · exact .inl ⟨hdef, hopen (hfit.deferred_iff.mp hdef)⟩
  refine .inr ⟨hdef, ?_⟩
  have hclosed : .text u.name ∉ d.name :: s.pending := mt hfit.deferred_iff.mpr hdef
  obtain ⟨names, hnames, htargets⟩ := targets_eq hrefs hfind
  by_cases hrec : u.name ∈ names
  · -- the first pass has met the name: the walk is done with it, since it is not open
    have hmem : .text u.name ∈ targets refs s.name := by
      rw [htargets]
      exact mem_map_of_mem hrec
    rcases hord.settled.covered _ hmem hfit.declared with hpend | hbefore
    · exact absurd (mem_cons_of_mem _ hpend) hclosed
    · exact .inl hbefore
  · have hplace := hcover _ hfit.declared
    rw [map_append, map_cons, mem_append, mem_cons] at hplace
    rcases hplace with hbefore | hself | hafter
    · exact .inl hbefore
    · exact absurd (hself ▸ hname ▸ mem_cons_self) hclosed
    · obtain ⟨first, hfirst, v, hv, ⟨hform, hpend, hobject⟩, hne⟩ :=
        exists_unfolds_of_unrecorded hi hs hmd hnames hu hrec
      have hlater := (hopen (mem_cons_of_mem _ hpend)).resolve_left (hname ▸ hne)
      rw [referencesOf_noting] at hnames
      exact .inr ⟨hafter, ⟨names, hnames, hrec⟩, first, hfirst, v, hv, hform, hlater, hobject⟩

/-- Every declaration is mapped once. -/
theorem map_declaration_perm (hn : m.catalogue.names.Nodup)
    (h : (m.inDependencyOrder budget).result = .ok mds) :
    (mds.map MappedDeclaration.declaration).Perm m.catalogue.declarations := by
  obtain ⟨refs, _, hall⟩ := mapped_inDependencyOrder h
  have hperm := (Catalogue.order_perm m.catalogue (targets refs) hn).filterMap m.catalogue.find?
  rw [Catalogue.filterMap_find?_names hn] at hperm
  refine Perm.trans (Perm.of_eq ?_) hperm
  generalize m.catalogue.order (targets refs) = steps at hall
  clear hperm h
  induction hall with
  | nil => rfl
  | cons hmd _ ih =>
    obtain ⟨d, hfind, _, hmd⟩ := hmd
    rw [map_cons, map_cons, filterMap_cons_some hfind, (parts_of_mapped hmd).1, ih]

theorem map_name_nodup (h : (m.inDependencyOrder budget).result = .ok mds) :
    (mds.map MappedDeclaration.name).Nodup := by
  obtain ⟨refs, _, hall⟩ := mapped_inDependencyOrder h
  rw [map_name_eq hall]
  exact (Catalogue.wellOrdered_order _ _).name_nodup

/-- Without selections nothing is late. -/
theorem not_late (hi : m.inline = false) (hs : m.renderer.select?.isSome) (hsel : ¬m.Selects)
    {after : List Scalar} {name : String} : ¬m.Late budget d after name := by
  rintro ⟨_, first, hfirst, v, hv, hform, _⟩
  exact hsel ((fits_of_uses hi hs hfirst hv).selects hform)

theorem plain_or_deferred (hi : m.inline = false) (hs : m.renderer.select?.isSome)
    (hsel : ¬m.Selects) {pending : List Scalar}
    (hmd : (m.noting.declaration budget pending d).result = .ok md) (hu : u ∈ md.expression.notes) :
    u.form = .plain ∨ u.form = .deferred := by
  have hselected := mt (fits_of_uses hi hs hmd hu).selects hsel
  cases hform : u.form with
  | plain => exact .inl rfl
  | selected => exact absurd hform hselected
  | deferred => exact .inr rfl

end Mapping

namespace Conversion

variable {c : Conversion} {output : String}

/-- The mapping of the declarations of a document. -/
def mappingOf (c : Conversion) (doc : Document) : Mapping c.target.Expression :=
  c.mapping doc.scope doc.catalogue
    (c.rootName doc.catalogue)

/-- The output is printed from these declarations, one after the other. -/
structure Prints (c : Conversion) (doc : Document)
    (mds : List (MappedDeclaration (Noted Use c.target.Expression))) (output : String) : Prop where
  mapped : ((c.mappingOf doc).noting.inDependencyOrder (c.settings.budgetAt 0)).result = .ok mds
  emitted : ∃ setting,
    c.target.emit setting (mds.map (MappedDeclaration.map Noted.expression)) = .ok output

theorem select?_isSome {t : Target} (h : t.isOrdered) (indent : Indent) (root : Scalar) :
    (t.renderer indent root).select?.isSome := by
  cases t <;> first | rfl | cases h

/-- A conversion that succeeds has printed the declarations of the document it has read. -/
theorem prints_of_run (ho : c.target.isOrdered) {source : List Char}
    (h : (c.run source).result = .ok output) :
    ∃ doc mds, (c.grammar.extract source).result = .ok doc ∧ c.Prints doc mds output := by
  rw [run] at h
  split at h
  · cases h
  obtain ⟨doc, hdoc, h⟩ := result_bind_eq_ok.mp h
  split at h
  · cases h
  simp only [print, ho, if_true] at h
  obtain ⟨plain, hplain, hemit⟩ := bind_eq_ok.mp h
  change ((c.mappingOf doc).inDependencyOrder _).result = _ at hplain
  rw [Mapping.inDependencyOrder_noting, Logged.result_map] at hplain
  obtain ⟨mds, hmds, rfl⟩ := map_eq_ok.mp hplain
  exact ⟨doc, mds, hdoc, hmds, _, hemit⟩

/-- Among the names that are not deferred, those that are not printed earlier are the late ones. -/
theorem not_before_iff_late (ho : c.target.isOrdered) (hi : c.inline = false)
    {before after : List (MappedDeclaration (Noted Use c.target.Expression))}
    {md : MappedDeclaration (Noted Use c.target.Expression)}
    (h : c.Prints doc (before ++ md :: after) output) (hu : u ∈ md.expression.notes)
    (hform : u.form ≠ .deferred) :
    .text u.name ∉ before.map MappedDeclaration.name ↔
      .text u.name ∈ after.map MappedDeclaration.name ∧
        (c.mappingOf doc).Late (c.settings.budgetAt 0) md.declaration
          (after.map MappedDeclaration.name) u.name := by
  have hplace := Mapping.place_of_use (m := c.mappingOf doc) hi (select?_isSome ho _ _) h.mapped hu
  have hnodup := Mapping.map_name_nodup h.mapped
  rw [map_append, map_cons] at hnodup
  constructor
  · intro hbefore
    obtain ⟨hdef, _⟩ | ⟨_, hmem | hlate⟩ := hplace
    · exact absurd hdef hform
    · exact absurd hmem hbefore
    · exact hlate
  · rintro ⟨hafter, _⟩ hbefore
    exact (nodup_append.mp hnodup).2.2 _ hbefore _ (mem_cons_of_mem _ hafter) rfl

/-- The uses of a printed declaration, in a notation without selections. -/
theorem plain_before_or_deferred (ho : c.target.isOrdered) (hi : c.inline = false)
    (hsel : ¬(c.mappingOf doc).Selects)
    {before after : List (MappedDeclaration (Noted Use c.target.Expression))}
    {md : MappedDeclaration (Noted Use c.target.Expression)}
    (h : c.Prints doc (before ++ md :: after) output) (hu : u ∈ md.expression.notes) :
    u.form = .plain ∧ .text u.name ∈ before.map MappedDeclaration.name ∨
      u.form = .deferred ∧
        (.text u.name = md.name ∨ .text u.name ∈ after.map MappedDeclaration.name) := by
  have hs := select?_isSome ho c.settings.indent (c.rootName doc.catalogue)
  rcases Mapping.place_of_use (m := c.mappingOf doc) hi hs h.mapped hu with
    hdef | ⟨hform, hbefore | ⟨_, hlate⟩⟩
  · exact .inr hdef
  · obtain ⟨_, _, hall⟩ := Mapping.mapped_inDependencyOrder h.mapped
    obtain ⟨_, _, _, _, _, ⟨_, _, _, hmd⟩, _⟩ := forall₂_split hall
    have hplain :=
      (Mapping.plain_or_deferred (m := c.mappingOf doc) hi hs hsel hmd hu).resolve_right hform
    exact .inl ⟨hplain, hbefore⟩
  · exact absurd hlate (Mapping.not_late (m := c.mappingOf doc) hi hs hsel)

end Conversion

theorem eq_ok_of_toOption {x : Except Fault α} {a : α} (h : x.toOption = some a) : x = .ok a := by
  cases x with
  | error e => cases h
  | ok a => cases h; rfl

theorem exists_eq_ok {x : Except Fault α} (h : x.toOption.isSome) : ∃ a, x = .ok a :=
  (Option.isSome_iff_exists.mp h).imp fun _ => eq_ok_of_toOption

namespace Conversion

/-- The printed names, each with what it uses. -/
def printedUses (c : Conversion) (source : List Char) : Option (List (Scalar × List Use)) :=
  (c.grammar.extract source).result.toOption.bind fun doc =>
    ((c.mappingOf doc).noting.inDependencyOrder (c.settings.budgetAt 0)).result.toOption.map
      fun mds => mds.map fun md => (md.name, md.expression.notes)

theorem Prints.map_uses_eq {c : Conversion} {source : List Char} {output : String}
    {mds : List (MappedDeclaration (Noted Use c.target.Expression))} {us : List (Scalar × List Use)}
    (hdoc : (c.grammar.extract source).result = .ok doc) (hprints : c.Prints doc mds output)
    (h : c.printedUses source = some us) :
    (mds.map fun md => (md.name, md.expression.notes)) = us := by
  rw [printedUses, hdoc, Except.toOption, Option.bind_some, hprints.mapped] at h
  cases h
  rfl

/-- Each declaration is printed once. What it uses as it stands is printed earlier, and what it
defers is the declaration itself or is printed later. -/
structure InOrder {ε : Type} (doc : Document) (mds : List (MappedDeclaration (Noted Use ε))) :
    Prop where
  once : (mds.map MappedDeclaration.declaration).Perm doc.catalogue.declarations
  distinct : (mds.map MappedDeclaration.name).Nodup
  placed : ∀ before md after, mds = before ++ md :: after → ∀ u ∈ md.expression.notes,
    u.form = .plain ∧ .text u.name ∈ before.map MappedDeclaration.name ∨
      u.form = .deferred ∧
        (.text u.name = md.name ∨ .text u.name ∈ after.map MappedDeclaration.name)

end Conversion

namespace Converter

/-- In the modules that are generated from interfaces, a name that is read as it stands is defined
earlier, except exactly where it is late and printed later. -/
theorem read_before_defined_iff_late {c : Converter} (hc : find? "ts-to-zod" = some c)
    (s : Settings) {source : List Char} {output : String}
    (h : ((c.withSettings s).conversion.run source).result = .ok output) :
    ∃ doc mds, ((c.withSettings s).conversion.grammar.extract source).result = .ok doc ∧
      (c.withSettings s).conversion.Prints doc mds output ∧
      ∀ before md after, mds = before ++ md :: after →
        ∀ u ∈ md.expression.notes, u.form ≠ .deferred →
          (.text u.name ∉ before.map MappedDeclaration.name ↔
            .text u.name ∈ after.map MappedDeclaration.name ∧
              ((c.withSettings s).conversion.mappingOf doc).Late (s.budgetAt 0) md.declaration
                (after.map MappedDeclaration.name) u.name) := by
  obtain ⟨hordered, hinline⟩ : (c.withSettings s).conversion.target.isOrdered = true ∧
      (c.withSettings s).conversion.inline = false := by
    simp only [find?, all, find?_cons, String.reduceBEq] at hc
    cases hc
    exact ⟨rfl, rfl⟩
  obtain ⟨doc, mds, hdoc, hprints⟩ := Conversion.prints_of_run hordered h
  refine ⟨doc, mds, hdoc, hprints, ?_⟩
  rintro before md after rfl u hu hform
  exact Conversion.not_before_iff_late hordered hinline hprints hu hform

/-- An alias that picks a field of an interface, which refers to the alias before it refers to the
type of that field. -/
def cyclicPick : List Char :=
  "interface A \x7b d: D; n: N \x7d\n".toList ++
    "type D = Pick<A, 'n'>;\ninterface N \x7b x: string \x7d\n".toList

/-- `D` is printed first and reads `N`, which is printed after it. -/
theorem cyclicPick_read_before_defined :
    ∃ c output doc mds md after, find? "ts-to-zod" = some c ∧
      ((c.withSettings scriptSettings).conversion.run cyclicPick).result = .ok output ∧
      (c.withSettings scriptSettings).conversion.Prints doc mds output ∧
      mds = md :: after ∧ md.name = .text "D" ∧ ⟨"N", .plain⟩ ∈ md.expression.notes ∧
      .text "N" ∈ after.map MappedDeclaration.name ∧
      ((c.withSettings scriptSettings).conversion.mappingOf doc).Late (scriptSettings.budgetAt 0)
        md.declaration (after.map MappedDeclaration.name) "N" := by
  have hc : find? "ts-to-zod" = some all[0] := rfl
  obtain ⟨output, hrun⟩ := exists_eq_ok
    (x := ((all[0].withSettings scriptSettings).conversion.run cyclicPick).result)
    (by decide +kernel)
  have huses : (all[0].withSettings scriptSettings).conversion.printedUses cyclicPick =
      some [(.text "D", [⟨"N", .plain⟩]), (.text "N", []),
        (.text "A", [⟨"D", .plain⟩, ⟨"N", .plain⟩])] := by decide +kernel
  obtain ⟨doc, mds, hdoc, hprints, hlaw⟩ := read_before_defined_iff_late hc scriptSettings hrun
  obtain ⟨md, after, rfl, hmd, _⟩ := map_eq_cons_iff.mp (hprints.map_uses_eq hdoc huses)
  obtain ⟨hname, hmd⟩ := Prod.mk.inj hmd
  have hmem : ⟨"N", .plain⟩ ∈ md.expression.notes := by simp [hmd]
  have hlate := (hlaw [] md after rfl _ hmem (by simp)).mp (by simp)
  exact ⟨all[0], output, doc, _, md, after, hc, hrun, hprints, rfl, hname, hmem, hlate⟩

/-- Where types cannot select fields, every use finds its definition. -/
theorem printed_inOrder {name : String}
    (hname : name ∈ ["graphql-to-zod", "sql-to-zod", "prisma-to-zod", "json-schema-to-zod"])
    {c : Converter} (hc : find? name = some c) (s : Settings) {source : List Char} {output : String}
    (h : ((c.withSettings s).conversion.run source).result = .ok output) :
    ∃ doc mds, ((c.withSettings s).conversion.grammar.extract source).result = .ok doc ∧
      (c.withSettings s).conversion.Prints doc mds output ∧ Conversion.InOrder doc mds := by
  obtain ⟨hordered, hinline, hselective⟩ : (c.withSettings s).conversion.target.isOrdered = true ∧
      (c.withSettings s).conversion.inline = false ∧
      (c.withSettings s).conversion.grammar.isSelective = false := by
    simp only [mem_cons, not_mem_nil, or_false] at hname
    obtain rfl | rfl | rfl | rfl := hname <;>
      simp only [find?, all, find?_cons, String.reduceBEq] at hc <;>
      · cases hc
        exact ⟨rfl, rfl, rfl⟩
  obtain ⟨doc, mds, hdoc, hprints⟩ := Conversion.prints_of_run hordered h
  refine ⟨doc, mds, hdoc, hprints, ?_, Mapping.map_name_nodup hprints.mapped, ?_⟩
  · exact Mapping.map_declaration_perm (Catalogue.names_ofList_nodup _) hprints.mapped
  · rintro before md after rfl u hu
    exact Conversion.plain_before_or_deferred hordered hinline (Mapping.not_selects hselective)
      hprints hu

/-- A document and a definition that refer to each other, the definition also to itself, and an
enumeration. -/
def cyclicSchema : List Char :=
  "\x7b\"properties\": \x7b\"b\": \x7b\"$ref\": \"#/$defs/B\"\x7d, ".toList ++
  "\"c\": \x7b\"$ref\": \"#/$defs/C\"\x7d\x7d, \"$defs\": \x7b\"B\": \x7b\"properties\": ".toList ++
  "\x7b\"a\": \x7b\"$ref\": \"#\"\x7d, \"b\": \x7b\"$ref\": \"#/$defs/B\"\x7d\x7d\x7d, ".toList ++
  "\"C\": \x7b\"enum\": [\"X\", \"Y\"]\x7d\x7d\x7d".toList

theorem cyclicSchema_inOrder :
    ∃ c output doc mds, find? "json-schema-to-zod" = some c ∧
      ((c.withSettings schemaSettings).conversion.run cyclicSchema).result = .ok output ∧
      (c.withSettings schemaSettings).conversion.Prints doc mds output ∧
      Conversion.InOrder doc mds ∧
      (mds.map fun md => (md.name, md.expression.notes)) =
        [(.text "B", [⟨"Root", .deferred⟩, ⟨"B", .deferred⟩]), (.text "C", []),
          (.text "Root", [⟨"B", .plain⟩, ⟨"C", .plain⟩])] := by
  have hname : "json-schema-to-zod" ∈
      ["graphql-to-zod", "sql-to-zod", "prisma-to-zod", "json-schema-to-zod"] := by simp
  have hc : find? "json-schema-to-zod" = some all[3] := rfl
  obtain ⟨output, hrun⟩ := exists_eq_ok
    (x := ((all[3].withSettings schemaSettings).conversion.run cyclicSchema).result)
    (by decide +kernel)
  have huses : (all[3].withSettings schemaSettings).conversion.printedUses cyclicSchema =
      some [(.text "B", [⟨"Root", .deferred⟩, ⟨"B", .deferred⟩]), (.text "C", []),
        (.text "Root", [⟨"B", .plain⟩, ⟨"C", .plain⟩])] := by decide +kernel
  obtain ⟨doc, mds, hdoc, hprints, hord⟩ := printed_inOrder hname hc schemaSettings hrun
  exact ⟨all[3], output, doc, mds, hc, hrun, hprints, hord, hprints.map_uses_eq hdoc huses⟩

end Converter

end Crosswalk
