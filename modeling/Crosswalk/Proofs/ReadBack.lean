import Crosswalk.Mapping.Declaration
import Mathlib.Data.List.Forall2

/-!
Runs of the mapper that succeed without a warning, except about integers that a number may not hold.
Such runs compose: what a target wrote is read back part by part.
-/

namespace Crosswalk

open List

variable {ε α β : Type}

variable {as : List α} {R : α → β → Prop}

theorem exists_forall₂ (h : ∀ a ∈ as, ∃ b, R a b) : ∃ bs, Forall₂ R as bs := by
  induction as with
  | nil => exact ⟨[], .nil⟩
  | cons a as ih =>
    obtain ⟨b, hb⟩ := h a (mem_cons_self ..)
    obtain ⟨bs, hbs⟩ := ih fun a' ha' => h a' (mem_cons_of_mem _ ha')
    exact ⟨b :: bs, .cons hb hbs⟩

theorem exists_mem_of_forall₂ {bs : List β} (h : Forall₂ R as bs) {b : β} (hb : b ∈ bs) :
    ∃ a ∈ as, R a b := by
  induction h with
  | nil => cases hb
  | @cons a b' as bs hab _ ih =>
    rcases mem_cons.mp hb with rfl | hb
    · exact ⟨a, mem_cons_self .., hab⟩
    · obtain ⟨a', ha', hab'⟩ := ih hb
      exact ⟨a', mem_cons_of_mem _ ha', hab'⟩

theorem exists_getLast?_of_forall₂ {bs : List β} (h : Forall₂ R as bs) {a : α}
    (ha : as.getLast? = some a) : ∃ b, bs.getLast? = some b ∧ R a b := by
  induction h with
  | nil => cases ha
  | @cons a' b as bs hb hbs ih =>
    cases hbs with
    | nil =>
      cases ha
      exact ⟨b, rfl, hb⟩
    | cons _ _ =>
      rw [getLast?_cons_cons] at ha ⊢
      exact ih ha

theorem forall₂_of_mapM {f : α → Except Fault β} :
    ∀ {as : List α} {bs : List β}, as.mapM f = .ok bs → Forall₂ (fun a b => f a = .ok b) as bs
  | [], bs, h => by
    cases h
    exact .nil
  | a :: as, bs, h => by
    rw [mapM_cons] at h
    obtain ⟨b, hb, h⟩ := bind_eq_ok.mp h
    obtain ⟨bs', hbs, h⟩ := bind_eq_ok.mp h
    cases h
    exact .cons hb (forall₂_of_mapM hbs)

theorem mapM_eq_some_iff {f : α → Option β} {bs : List β} :
    as.mapM f = some bs ↔ Forall₂ (fun a b => f a = some b) as bs := by
  induction as generalizing bs with
  | nil => simp [eq_comm]
  | cons a as ih =>
    rw [mapM_cons, forall₂_cons_left_iff]
    simp only [← ih]
    cases f a with
    | none => simp
    | some b => cases as.mapM f <;> simp [eq_comm]

theorem mapM_eq_map {f : α → Except Fault β} {g : α → β} (h : ∀ a ∈ as, f a = .ok (g a)) :
    as.mapM f = .ok (as.map g) := by
  induction as with
  | nil => rfl
  | cons a as ih =>
    obtain ⟨ha, has⟩ := forall_mem_cons.mp h
    rw [mapM_cons, ha, ih has]
    rfl

theorem Logged.result_mapM {ω : Type} (f : α → Logged ω β) (as : List α) :
    (as.mapM f).result = as.mapM fun a => (f a).result := by
  induction as with
  | nil => rfl
  | cons a as ih =>
    rw [mapM_cons, mapM_cons, ← ih]
    cases h : (f a).result with
    | error e => simp [Bind.bind, Logged.bind, Except.bind, h]
    | ok b =>
      cases h' : (as.mapM f).result <;>
        simp [Bind.bind, Logged.bind, Except.bind, Pure.pure, Logged.pure, Except.pure, h, h']

namespace Mapping

/-- Events without a warning, or with one about the range of a number. -/
def Event.isQuiet : Event → Bool
  | .reference _ => true
  | .warning d => d.problem == .numericRange
  | _ => false

/-- A run that ends with a result and was quiet on the way. -/
structure Yields (x : Traced α) (a : α) : Prop where
  result : x.result = .ok a
  quiet : ∀ e ∈ x.log, e.isQuiet = true

end Mapping

theorem Progress.numericRange_of_quiet {log : List Mapping.Event}
    (h : ∀ e ∈ log, e.isQuiet) (p : Progress) :
    ∀ d ∈ (p.afterAll log).2, d.problem = .numericRange := by
  induction log generalizing p with
  | nil => simp
  | cons e log ih =>
    intro d hd
    rw [afterAll_cons] at hd
    rcases mem_append.mp hd with hd | hd
    · have he := h e (mem_cons_self ..)
      cases e with
      | reference name => simp [after] at hd
      | warning d' =>
        cases mem_singleton.mp hd
        simpa [Mapping.Event.isQuiet] using he
      | enterDeclaration _ | enterField _ | depthCut _ _ | block _ => cases he
    · exact ih (fun e' he' => h e' (mem_cons_of_mem _ he')) _ d hd

namespace Mapping

namespace Yields

theorem pure (a : α) : Yields (Pure.pure a : Traced α) a := ⟨rfl, by simp⟩

theorem lift {x : Except Fault α} {a : α} (h : x = .ok a) : Yields (Logged.lift x) a :=
  ⟨h, by simp⟩

theorem record {e : Event} (h : e.isQuiet) : Yields (Logged.record e) () :=
  ⟨rfl, by simpa using h⟩

theorem bind {x : Traced α} {f : α → Traced β} {a : α} {b : β} (hx : Yields x a)
    (hf : Yields (f a) b) : Yields (x >>= f) b := by
  refine ⟨result_bind_eq_ok.mpr ⟨a, hx.result, hf.result⟩, fun e he => ?_⟩
  rw [Logged.log_bind hx.result] at he
  exact (mem_append.mp he).elim (hx.quiet e) (hf.quiet e)

theorem mapM {f : α → Traced β} {as : List α} {bs : List β}
    (h : Forall₂ (fun a b => Yields (f a) b) as bs) : Yields (as.mapM f) bs := by
  induction h with
  | nil => exact pure _
  | cons ha _ ih =>
    rw [mapM_cons]
    exact ha.bind (ih.bind (pure _))

theorem forM {act : α → Traced PUnit} {as : List α} (h : ∀ a ∈ as, Yields (act a) ⟨⟩) :
    Yields (as.forM act) ⟨⟩ := by
  induction as with
  | nil => exact pure _
  | cons a as ih =>
    have hrest := ih fun a' ha' => h a' (mem_cons_of_mem _ ha')
    exact (h a (mem_cons_self ..)).bind hrest

/-- A field without arguments, and what its type is mapped to. -/
def Mapped (type : Field → Traced ε) (f : Field) (m : MappedField ε) : Prop :=
  m.field = f ∧ f.arguments = [] ∧ m.arguments = [] ∧ Yields (type f) m.expression

theorem mapFields {type : Field → Traced ε} {fs : List Field} {ms : List (MappedField ε)}
    (h : Forall₂ (Mapped type) fs ms) : Yields (Mapping.mapFields type fs) ms := by
  induction h with
  | nil => exact pure _
  | @cons f m fs ms hm _ ih =>
    obtain ⟨field, e, args⟩ := m
    obtain ⟨rfl, hargs, rfl, he⟩ := hm
    rw [mapFields_cons, hargs]
    exact he.bind ((pure _).bind (ih.bind (pure _)))

end Yields

theorem yields_mapM_text {type : Raw → Traced String} {raws : List (List Char)}
    {us : List (List Char)}
    (h : Forall₂ (fun raw u => Yields (type (.text raw)) (String.ofList u)) raws us) :
    Yields ((raws.map Raw.text).mapM type) (us.map String.ofList) :=
  Yields.mapM (forall₂_map_left_iff.mpr (forall₂_map_right_iff.mpr h))

theorem yields_checkRange {vs : List Value} (h : rangeShown vs) (site : Site) :
    Yields (checkRange site vs) () := by
  rw [checkRange_of_rangeShown h]
  refine ⟨rfl, fun e he => ?_⟩
  obtain ⟨v, -, rfl⟩ := mem_map.mp he
  rfl

/-- References to declared names are kept, whether they are deferred or not. -/
theorem yields_reference {m : Mapping ε} {site : Site} {known ancestors : List Scalar}
    {budget : Nat} {name : String} (hknown : .text name ∈ known) (hinline : m.inline = false)
    (hdeferred : m.renderer.deferred name = m.renderer.reference name) :
    Yields (m.mapReference site known (budget + 1) ancestors name) (m.renderer.reference name) := by
  rw [mapReference_succ]
  by_cases ho : .text name ∈ ancestors
  · rw [resolve_open hknown ho, hdeferred]
    exact (Yields.record rfl).bind (Yields.pure _)
  · rw [resolve_named hknown ho hinline]
    exact (Yields.record rfl).bind (Yields.pure _)

end Mapping

end Crosswalk
