import Crosswalk.Proofs.ClassifiedShapes

/-!
Selections over declarations that are open. A reference to such a declaration is deferred, but a
selection expands its fields once more, so selections can go round in cycles that only the limit of
depth ends. Main statement: these are the only paths on which a declaration is opened twice, and a
document without them is mapped completely within a depth that it determines.
-/

namespace Crosswalk

open List

variable {ε : Type}

namespace Mapping

/-- A type that selects from a declared object and keeps a field of this very type. -/
def Spins (m : Mapping ε) (known : List Scalar) (n : String) (raw : Raw) : Prop :=
  ∃ kind base rest keys,
    m.grammar.classify m.scope raw = .ok (.container kind (base :: rest) keys) ∧
    kind.isSelection = true ∧ m.grammar.classify m.scope base = .ok (.reference n) ∧
    .text n ∈ known ∧ m.catalogue.isObject (.text n) = true ∧
    raw ∈ Field.typesAll (m.selected kind keys n)

section Cycles

variable {m : Mapping ε} {known a : List Scalar} {n : String} {raw : Raw}

/-- A cycle goes on as long as the budget lasts. -/
theorem deep_of_spins (h : m.Spins known n raw) (ha : .text n ∈ a) (b : Nat) :
    m.Deep known (.type a raw) b := by
  induction b generalizing a with
  | zero => exact deep_zero (by simp [Task.isReference])
  | succ b ih =>
    obtain ⟨kind, base, rest, keys, hc, hk, hb, hn, ho, hmem⟩ := h
    refine meets_iff.mpr (.inr ⟨_, 1, _, .field hc hk hb hn (.inr (.inl ha)) ho hmem, ?_⟩)
    exact ih (mem_cons_of_mem _ ha)

end Cycles

section Properties

variable (m : Mapping ε) (pending : List Scalar) (d : Declaration)

/-- A selection over an open declaration expands its fields once more. Only without fields it is
deferred. -/
def ExpandsOpen : Prop :=
  ∀ site b a raw kind base rest keys n,
    m.grammar.classify m.scope raw = .ok (.container kind (base :: rest) keys) →
    kind.isSelection = true → m.grammar.classify m.scope base = .ok (.reference n) →
    .text n ∈ m.catalogue.names → .text n ∈ a →
      m.mapType site m.catalogue.names (b + 1) a raw =
        if m.catalogue.isObject (.text n) then do
          let mapped ← mapFields (fun f => m.mapType site m.catalogue.names b (.text n :: a) f.type)
            (m.selected kind keys n)
          Logged.lift (m.renderer.object mapped none false)
        else do
          Logged.record (.reference n)
          return m.renderer.deferred n

/-- What is opened on the way down from a declaration, in the order in which it is opened. -/
def Opens (os : List Opening) : Prop :=
  ∃ n u, m.Path m.catalogue.names (.expansion (d.name :: pending) d) os n u

/-- A path opens a declaration twice exactly if a selection opens one that is open. -/
def ReopensBySelection : Prop :=
  ∀ os, m.Opens pending d os → (Fresh (d.name :: pending) os ↔
    ∀ before o after, os = before ++ o :: after → o.isSelection = true →
      o.name ∉ before.map Opening.name ∧ o.name ∉ d.name :: pending)

/-- A declaration that is mapped is cut off exactly if a path is as long as the budget. -/
def CutByLength : Prop :=
  ∀ b md, b ≠ 0 → (m.declaration b pending d).result = .ok md →
    (Cut (m.declaration b pending d) ↔
      m.Deep m.catalogue.names (.expansion (d.name :: pending) d) b)

def AlwaysCut : Prop :=
  ∀ b md, b ≠ 0 → (m.declaration b pending d).result = .ok md → Cut (m.declaration b pending d)

end Properties

theorem expandsOpen (m : Mapping ε) : m.ExpandsOpen := by
  intro site b a raw kind base rest keys n hc hk hb hn ha
  rw [mapType_succ, hc, Logged.lift_ok, pure_bind, shape_selection hk,
    selection_expanded hb hn (.inr (.inl ha)), mapReference_succ, resolve_open hn ha]
  cases m.catalogue.isObject (.text n) <;> rfl

/-- A declaration that selects from itself and keeps the selecting field is always cut off. -/
theorem alwaysCut_of_spins {m : Mapping ε} {pending : List Scalar} {d : Declaration} {n : String}
    {raw : Raw} (hname : d.name = .text n) (hraw : raw ∈ d.types)
    (h : m.Spins m.catalogue.names n raw) : m.AlwaysCut pending d := by
  intro b md hb hmd
  refine (cut_declaration_iff hb hmd).mpr (meets_expansion.mpr (.inr (.inl ⟨raw, hraw, ?_⟩)))
  exact deep_of_spins h (hname ▸ mem_cons_self) b

end Mapping

namespace Conversion

open Mapping

/-- From a greatest depth on, nothing is cut off from a declaration, and it is mapped alike. -/
def SettlesAt (c : Conversion) (doc : Document) (depth : Nat) (pending : List Scalar)
    (d : Declaration) : Prop :=
  ∀ (s : Settings) (limit : Int), s.indent = c.settings.indent →
    s.maxDepth.floor? = .ok (some limit) → ↑depth ≤ limit →
      ¬Cut (({ c with settings := s }.mappingOf doc).declaration (s.budgetAt 0) pending d) ∧
        ({ c with settings := s }.mappingOf doc).declaration (s.budgetAt 0) pending d =
          (c.mappingOf doc).declaration depth pending d

theorem shrinks_of_isSelective {c : Conversion} (hg : c.grammar.isSelective)
    (doc : Document) : (c.mappingOf doc).Shrinks Raw.weight := by
  intro raw s hc p hp
  have hgrammar : (c.mappingOf doc).grammar = c.grammar := rfl
  rw [hgrammar] at hc
  cases hname : c.grammar with
  | typeScript =>
    rw [hname] at hc
    exact (TypeScript.inside_of_classify hc hp).2 .heavy
  | zod =>
    rw [hname] at hc
    exact Zod.classify_shrinks hc hp
  | _ =>
    rw [hname] at hg
    cases hg

/-- In the notations whose types select fields, a declaration is opened twice on a path only by a
selection over one that is open. Without such paths it is mapped completely from some depth on; with
them, it is cut off as soon as one of them is as long as the budget. -/
theorem selections_reopen {c : Conversion} (hg : c.grammar.isSelective = true) {doc : Document}
    {L : Nat} (hL : ∀ d ∈ doc.catalogue.declarations, ∀ p ∈ d.types, p.asText.length ≤ L)
    {d : Declaration} (hd : d ∈ doc.catalogue.declarations) (pending : List Scalar) :
    (c.mappingOf doc).ExpandsOpen ∧ (c.mappingOf doc).ReopensBySelection pending d ∧
      (c.mappingOf doc).CutByLength pending d ∧
      ((∀ os, (c.mappingOf doc).Opens pending d os → Fresh (d.name :: pending) os) →
        c.SettlesAt doc ((doc.catalogue.names.length + 1) * (8 * L + 1)) pending d) ∧
      ∀ n raw, d.name = .text n → raw ∈ d.types →
        (c.mappingOf doc).Spins doc.catalogue.names n raw →
          (c.mappingOf doc).AlwaysCut pending d := by
  refine ⟨expandsOpen _, fun os ⟨n, u, hpath⟩ => hpath.fresh_iff,
    fun b md hb hmd => cut_declaration_iff hb hmd, fun hfresh s limit hindent hlimit hdeep => ?_,
    fun n raw hname hraw hspins => alwaysCut_of_spins hname hraw hspins⟩
  have hS : ∀ d ∈ doc.catalogue.declarations, ∀ p ∈ d.types, p.weight ≤ 8 * L := by
    intro d hd p hp
    have hweight := Text.Measure.heavy_weight_le p.asText
    have hlength := hL d hd p hp
    rw [Raw.weight]
    omega
  exact c.declaration_of_fresh (shrinks_of_isSelective hg doc) hS hd
    (fun os n u hpath => hfresh os ⟨n, u, hpath⟩) (Nat.le_refl _) hindent hlimit hdeep

/-- An interface with a field that is made of its own fields. -/
def partialSelf : List Char := "interface A \x7b p: Partial<A>; \x7d".toList

def partialSelfDeclaration : Declaration :=
  { name := .text "A", body := .object [{ key := .text "p", type := .text "Partial<A>".toList }] }

def partialSelfDocument : Document := { declarations := [partialSelfDeclaration] }

theorem extract_partialSelf :
    (TypeScript.extract partialSelf).result = .ok partialSelfDocument := by
  with_unfolding_all rfl

/-- The interface is cut off at every depth at which it is mapped, as at the third. -/
theorem partialSelf_reopens :
    ∃ c : Conversion, ∃ doc d, c.grammar = .typeScript ∧ c.target = .zod ∧
      (c.grammar.extract partialSelf).result = .ok doc ∧ d ∈ doc.catalogue.declarations ∧
      (c.mappingOf doc).ExpandsOpen ∧ (c.mappingOf doc).ReopensBySelection [] d ∧
      (c.mappingOf doc).CutByLength [] d ∧
      ((∀ os, (c.mappingOf doc).Opens [] d os → Fresh [d.name] os) → c.SettlesAt doc 162 [] d) ∧
      (c.mappingOf doc).AlwaysCut [] d ∧
      ∃ md, ((c.mappingOf doc).declaration 3 [] d).result = .ok md := by
  let c : Conversion := { grammar := .typeScript, target := .zod }
  have hd : partialSelfDeclaration ∈ partialSelfDocument.catalogue.declarations :=
    mem_singleton_self _
  have hL : ∀ d ∈ partialSelfDocument.catalogue.declarations, ∀ p ∈ d.types,
      p.asText.length ≤ 10 := by
    intro d' hd' p hp
    cases mem_singleton.mp hd'
    cases mem_singleton.mp hp
    decide
  have hspins : (c.mappingOf partialSelfDocument).Spins
      partialSelfDocument.catalogue.names "A" (.text "Partial<A>".toList) := by
    refine ⟨.partially, .text ['A'], [], [], ?_, rfl, ?_, ?_, rfl, ?_⟩
    · with_unfolding_all rfl
    · with_unfolding_all rfl
    · exact mem_singleton_self _
    · exact mem_singleton_self _
  obtain ⟨md, hmd⟩ := exists_eq_ok
    (x := ((c.mappingOf partialSelfDocument).declaration 3 [] partialSelfDeclaration).result)
    (by decide +kernel)
  obtain ⟨hopen, hreopens, hlength, hsettles, hendless⟩ := selections_reopen (c := c) rfl hL hd []
  exact ⟨c, partialSelfDocument, _, rfl, rfl, extract_partialSelf, hd, hopen, hreopens, hlength,
    hsettles, hendless "A" _ rfl (mem_singleton_self _) hspins, md, hmd⟩

end Conversion

end Crosswalk
