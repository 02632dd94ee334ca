import Crosswalk.Proofs.Uses

/-!
A declaration is mapped twice: a first time with nothing pending, to find out what it refers to, and
again with the names that are printed later. Main statement: the second pass uses no name that the
first one does not use, unless the first one selects from an object that the second one, because it
is pending, writes out.
-/

namespace Crosswalk

open List

variable {ε α β : Type}

/-- A selection from an open object: its fields are written out. -/
def Catalogue.Unfolds (c : Catalogue) (opened : List Scalar) (u : Use) : Prop :=
  u.form = .selected ∧ .text u.name ∈ opened ∧ c.isObject (.text u.name) = true

namespace Mapping

/-- What is used later is used first, or something that is used first unfolds later. -/
def Carries (c : Catalogue) (opened : List Scalar) (first later : List Use) : Prop :=
  (∃ v ∈ first, c.Unfolds opened v) ∨ ∀ u ∈ later, u.name ∈ first.map Use.name

/-- Two passes over the same source: if both succeed, the first carries the second. -/
def Alike (c : Catalogue) (opened : List Scalar) (uses : α → List Use) (x y : Traced α) : Prop :=
  ∀ a b, x.result = .ok a → y.result = .ok b → Carries c opened (uses a) (uses b)

variable {c : Catalogue} {opened : List Scalar}

theorem Carries.refl (us : List Use) : Carries c opened us us :=
  .inr fun _ hu => mem_map_of_mem hu

theorem Carries.append {us us' vs vs' : List Use} (h : Carries c opened us us')
    (h' : Carries c opened vs vs') : Carries c opened (us ++ vs) (us' ++ vs') := by
  rcases h with ⟨v, hv, hunf⟩ | h
  · exact .inl ⟨v, mem_append_left _ hv, hunf⟩
  rcases h' with ⟨v, hv, hunf⟩ | h'
  · exact .inl ⟨v, mem_append_right _ hv, hunf⟩
  refine .inr fun u hu => ?_
  rw [map_append, mem_append]
  exact (mem_append.mp hu).imp (h u) (h' u)

namespace Alike

variable {W : β → List Use}

theorem refl {uses : α → List Use} (x : Traced α) : Alike c opened uses x x := by
  intro a b ha hb
  cases ha.symm.trans hb
  exact Carries.refl _

theorem pure {uses : α → List Use} {a b : α} (h : Carries c opened (uses a) (uses b)) :
    Alike c opened uses (Pure.pure a) (Pure.pure b) := by
  intro _ _ ha hb
  cases ha
  cases hb
  exact h

theorem bind {U : α → List Use} {x y : Traced α} {f g : α → Traced β} (hx : Alike c opened U x y)
    (hf : ∀ a b, Carries c opened (U a) (U b) → Alike c opened W (f a) (g b)) :
    Alike c opened W (x >>= f) (y >>= g) := by
  intro a b ha hb
  obtain ⟨a', ha', ha⟩ := result_bind_eq_ok.mp ha
  obtain ⟨b', hb', hb⟩ := result_bind_eq_ok.mp hb
  exact hf a' b' (hx a' b' ha' hb') a b ha hb

/-- The two passes start with the same computation. -/
theorem bind_same {x : Traced α} {f g : α → Traced β} (hf : ∀ a, Alike c opened W (f a) (g a)) :
    Alike c opened W (x >>= f) (x >>= g) := by
  intro a b ha hb
  obtain ⟨a', ha', ha⟩ := result_bind_eq_ok.mp ha
  obtain ⟨b', hb', hb⟩ := result_bind_eq_ok.mp hb
  cases ha'.symm.trans hb'
  exact hf a' a b ha hb

/-- What follows puts together what is used so far. -/
theorem bind_uses {U : α → List Use} {x y : Traced α} {f : α → Traced β} (hx : Alike c opened U x y)
    (hf : ∀ a b, (f a).result = .ok b → W b = U a) : Alike c opened W (x >>= f) (y >>= f) := by
  refine hx.bind fun a b hcar a' b' ha hb => ?_
  rw [hf a a' ha, hf b b' hb]
  exact hcar

theorem mapM {uses : β → List Use} {f g : α → Traced β} :
    ∀ as : List α, (∀ a ∈ as, Alike c opened uses (f a) (g a)) →
      Alike c opened (fun bs => bs.flatMap uses) (as.mapM f) (as.mapM g)
  | [], _ => refl _
  | a :: as, h => by
    rw [mapM_cons, mapM_cons]
    refine (h a (mem_cons_self ..)).bind fun b b' hb => ?_
    refine (mapM as fun a' ha' => h a' (mem_cons_of_mem _ ha')).bind fun bs bs' hbs => ?_
    exact pure (by simpa only [flatMap_cons] using hb.append hbs)

theorem mapFields {f g : Field → Traced (Noted Use ε)}
    (h : ∀ field, Alike c opened Noted.notes (f field) (g field)) (fields : List Field) :
    Alike c opened (MappedField.notesAll Use.notebook) (Mapping.mapFields f fields)
      (Mapping.mapFields g fields) := by
  induction fields using Field.induction with
  | nil => exact refl _
  | cons field fields harguments hfields =>
    rw [mapFields_cons, mapFields_cons]
    refine (h field).bind fun e e' he => harguments.bind fun args args' hargs =>
      hfields.bind fun ms ms' hms => pure ?_
    simpa only [MappedField.notesAll, MappedField.notes, Use.notebook,
      append_nil] using (he.append hargs).append hms

theorem mapAdditional {f g : Raw → Traced (Noted Use ε)}
    (h : ∀ raw, Alike c opened Noted.notes (f raw) (g raw)) :
    ∀ a, Alike c opened Additional.notes (Mapping.mapAdditional f a) (Mapping.mapAdditional g a)
  | none | some .anything | some .nothing => refl _
  | some (.typed raw) => (h raw).bind fun _ _ he => pure he

end Alike

variable {m : Mapping ε} {known opened₁ opened₂ : List Scalar}

/-- A reference to a declared name is one use of it. -/
theorem uses_resolve (hi : m.inline = false) {site : Site} {below? : Option (Level (Noted Use ε))}
    {ancestors : List Scalar} {name : String} {n : Noted Use ε} (hk : .text name ∈ known)
    (h : (m.noting.resolve site known below? ancestors name).result = .ok n) :
    ∃ form, n.notes = [⟨name, form⟩] := by
  by_cases hopen : .text name ∈ ancestors
  · rw [resolve_open hk hopen] at h
    cases h
    exact ⟨_, rfl⟩
  · rw [resolve_named (m := m.noting) hk hopen hi] at h
    cases h
    exact ⟨_, rfl⟩

theorem uses_mapReference (hi : m.inline = false) {site : Site} {budget : Nat}
    {ancestors : List Scalar} {name : String} {n : Noted Use ε} (hk : .text name ∈ known)
    (h : (m.noting.mapReference site known budget ancestors name).result = .ok n) :
    ∃ form, n.notes = [⟨name, form⟩] := by
  cases budget with
  | zero => exact uses_resolve hi hk h
  | succ budget => exact uses_resolve hi hk h

theorem alike_mapReference (hi : m.inline = false) (site : Site) (budget : Nat)
    (ancestors₁ ancestors₂ : List Scalar) (name : String) :
    Alike c opened Noted.notes (m.noting.mapReference site known budget ancestors₁ name)
      (m.noting.mapReference site known budget ancestors₂ name) := by
  by_cases hk : .text name ∈ known
  · intro n n' hn hn'
    obtain ⟨form, hform⟩ := uses_mapReference hi hk hn
    obtain ⟨form', hform'⟩ := uses_mapReference hi hk hn'
    rw [hform, hform']
    exact .inr (by simp)
  · cases budget with
    | zero =>
      rw [mapReference_zero, resolve_undeclared hk, resolve_undeclared hk]
      exact Alike.refl _
    | succ budget =>
      rw [mapReference_succ, resolve_undeclared hk, resolve_undeclared hk]
      exact Alike.refl _

section Shapes

variable (hi : m.inline = false) (hs : m.renderer.select?.isSome)
  {type : List Scalar → Raw → Traced (Noted Use ε)}
    {reference₁ reference₂ : String → Traced (Noted Use ε)}
  {ancestors₁ ancestors₂ : List Scalar} (h₁ : ∀ n, n ∈ ancestors₁ ↔ n ∈ opened₁)
  (h₂ : ∀ n, n ∈ ancestors₂ ↔ n ∈ opened₂) (hsub : opened₁ ⊆ opened₂)
  (htype : ∀ a₁ a₂, (∀ n, n ∈ a₁ ↔ n ∈ opened₁) → (∀ n, n ∈ a₂ ↔ n ∈ opened₂) →
    ∀ raw, Alike m.catalogue opened₂ Noted.notes (type a₁ raw) (type a₂ raw))
  (href : ∀ name, Alike m.catalogue opened₂ Noted.notes (reference₁ name) (reference₂ name))
  (huses : ∀ name n, .text name ∈ known → (reference₂ name).result = .ok n → ∃ form,
    n.notes = [⟨name, form⟩])
include hi hs h₁ h₂ hsub htype href huses

/-- The case that sets the passes apart is a base that is open in the second one only. -/
theorem alike_selection (kind : Container) (args : List Raw) (keys : List String) :
    Alike m.catalogue opened₂ Noted.notes
      (m.noting.selection known type reference₁ ancestors₁ kind args keys)
      (m.noting.selection known type reference₂ ancestors₂ kind args keys) := by
  rcases args with _ | ⟨base, rest⟩
  · exact Alike.refl _
  rcases hc : m.grammar.classify m.scope base with e | shape
  · rw [selection_failed (m := m.noting) hc, selection_failed (m := m.noting) hc]
    exact Alike.refl _
  by_cases hother : ∀ name, shape = .reference name → .text name ∉ known
  · rw [selection_other (m := m.noting) hc hother, selection_other (m := m.noting) hc hother]
    exact htype _ _ h₁ h₂ base
  obtain ⟨name, rfl, hk⟩ : ∃ name, shape = .reference name ∧ .text name ∈ known := by
    simpa using hother
  obtain ⟨select, hselect⟩ := Option.isSome_iff_exists.mp hs
  have hnoted := select_noting hselect
  by_cases hopen₁ : .text name ∈ ancestors₁
  · have hopen₂ : .text name ∈ ancestors₂ := (h₂ _).mpr (hsub ((h₁ _).mp hopen₁))
    rw [selection_expanded (m := m.noting) hc hk (.inr (.inl hopen₁)),
      selection_expanded (m := m.noting) hc hk (.inr (.inl hopen₂))]
    split
    · exact href name
    · refine (Alike.mapFields (fun f =>
        htype _ _ (opened_cons h₁ hopen₁)
          (opened_cons h₂ hopen₂) f.type) _).bind_uses fun ms e he => ?_
      simpa [Additional.notes] using notes_of_map he
  by_cases hopen₂ : .text name ∈ ancestors₂
  · rw [selection_selected (m := m.noting) hc hk hopen₁ hi hnoted,
      selection_expanded (m := m.noting) hc hk (.inr (.inl hopen₂))]
    intro n n' hn hn'
    obtain ⟨_, _, hn⟩ := result_bind_eq_ok.mp hn
    rw [notes_of_map hn]
    cases hobject : m.catalogue.isObject (.text name) with
    | true => exact .inl ⟨_, mem_singleton.mpr rfl, rfl, (h₂ _).mp hopen₂, hobject⟩
    | false =>
      have hobject' : m.noting.catalogue.isObject (.text name) = false := hobject
      rw [hobject'] at hn'
      obtain ⟨form, hform⟩ := huses name n' hk hn'
      exact .inr (by simp [hform])
  · rw [selection_selected (m := m.noting) hc hk hopen₁ hi hnoted,
      selection_selected (m := m.noting) hc hk hopen₂ hi hnoted]
    exact Alike.refl _

theorem alike_shape (site : Site) (shape : Shape) :
    Alike m.catalogue opened₂ Noted.notes
      (m.noting.shape site known type reference₁ ancestors₁ shape)
      (m.noting.shape site known type reference₂ ancestors₂ shape) := by
  have hone (raw : Raw) := htype _ _ h₁ h₂ raw
  have hall (raws : List Raw) := Alike.mapM raws fun raw _ => hone raw
  cases shape with
  | primitive _ _ | literal _ | enumeration _ | unknown _ => exact Alike.refl _
  | array element cs => exact (hone element).bind_uses fun _ _ he => notes_of_map he
  | tuple elements => exact (hall elements).bind_uses fun _ _ he => notes_of_map he
  | union members =>
    refine (hall members).bind_uses fun es n hn => ?_
    rcases es with _ | ⟨e, _ | ⟨e', es⟩⟩
    · exact notes_of_map hn
    · cases hn
      simp
    · exact notes_of_map hn
  | intersection members => exact (hall members).bind_uses fun _ _ he => notes_intersectAll he
  | nullable inner => exact (hone inner).bind_uses fun _ _ he => notes_of_map he
  | optional inner => exact (hone inner).bind_uses fun _ _ he => notes_of_map he
  | container kind args keys =>
    have hplain := (hall args).bind_uses (W := Noted.notes)
      (f := fun es => Logged.lift ((m.renderer.noting Use.notebook).container kind es))
        fun _ _ he => notes_of_map he
    have hselection := alike_selection hi hs h₁ h₂ hsub htype href huses kind args keys
    cases kind with
    | readonly =>
      rcases args with _ | ⟨inner, _⟩
      · exact Alike.refl _
      · exact hone inner
    | pick | without | partially | required => exact hselection
    | _ => exact hplain
  | object fields additional =>
    refine (Alike.mapFields (fun f => hone f.type) fields).bind fun ms ms' hms => ?_
    refine (Alike.mapAdditional hone additional).bind fun extra extra' hextra => ?_
    intro n n' hn hn'
    rw [notes_of_map hn, notes_of_map hn']
    exact hms.append hextra
  | reference name => exact href name

end Shapes

theorem alike_mapType (hi : m.inline = false) (hs : m.renderer.select?.isSome) (site : Site)
    (budget : Nat) {ancestors₁ ancestors₂ : List Scalar} (h₁ : ∀ n, n ∈ ancestors₁ ↔ n ∈ opened₁)
    (h₂ : ∀ n, n ∈ ancestors₂ ↔ n ∈ opened₂) (hsub : opened₁ ⊆ opened₂) (raw : Raw) :
    Alike m.catalogue opened₂ Noted.notes
      (m.noting.mapType site known budget ancestors₁ raw)
      (m.noting.mapType site known budget ancestors₂ raw) := by
  induction budget generalizing ancestors₁ ancestors₂ raw with
  | zero => exact Alike.refl _
  | succ budget ih =>
    rw [mapType_succ, mapType_succ]
    refine Alike.bind_same fun shape => ?_
    exact alike_shape hi hs h₁ h₂ hsub (fun _ _ h₁ h₂ raw => ih h₁ h₂ raw)
      (alike_mapReference hi site (budget + 1) _ _) (fun _ _ hk h => uses_mapReference hi hk h) site
        shape

/-- The two passes over a declaration. -/
theorem alike_declaration (hi : m.inline = false) (hs : m.renderer.select?.isSome) (budget : Nat)
    (pending : List Scalar) (d : Declaration) :
    Alike m.catalogue (d.name :: pending) (fun md => md.expression.notes)
      (m.noting.declaration budget [] d) (m.noting.declaration budget pending d) := by
  have h₁ : ∀ n, n ∈ [d.name] ↔ n ∈ [d.name] := fun _ => Iff.rfl
  have h₂ : ∀ n, n ∈ d.name :: pending ↔ n ∈ d.name :: pending := fun _ => Iff.rfl
  have htype (site : Site) (raw : Raw) : Alike m.catalogue (d.name :: pending) Noted.notes
      (m.noting.mapType site m.catalogue.names budget [d.name] raw)
      (m.noting.mapType site m.catalogue.names budget (d.name :: pending) raw) :=
    alike_mapType hi hs site budget h₁ h₂ (by simp) raw
  refine Alike.bind_same fun _ => ?_
  cases d.body with
  | enumeration body => exact Alike.refl _
  | synonym body => exact (htype _ body).bind fun e e' he => Alike.pure he
  | object fields =>
    refine (Alike.mapFields (fun f => Alike.bind_same fun _ => htype _ f.type) fields).bind
      fun ms ms' hms => ?_
    refine (Alike.mapAdditional (htype _) d.additional?).bind fun extra extra' hextra => ?_
    have hbody : Alike m.catalogue (d.name :: pending) Noted.notes
        (Logged.lift (m.noting.renderer.object ms extra true))
        (Logged.lift (m.noting.renderer.object ms' extra' true)) := by
      intro n n' hn hn'
      rw [notes_of_map hn, notes_of_map hn']
      exact hms.append hextra
    refine hbody.bind fun body body' hbody => ?_
    refine (Alike.mapM d.bases fun b _ => alike_mapReference hi _ budget _ _ b).bind
      fun bases bases' hbases => ?_
    have hjoin : Alike m.catalogue (d.name :: pending) Noted.notes
        (Logged.lift (m.noting.intersectAll (bases ++ [body])))
        (Logged.lift (m.noting.intersectAll (bases' ++ [body']))) := by
      intro n n' hn hn'
      rw [notes_intersectAll hn, notes_intersectAll hn']
      simpa using hbases.append hbody
    exact hjoin.bind fun e e' he => Alike.pure he

end Mapping

end Crosswalk
