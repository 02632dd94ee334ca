import Crosswalk.Proofs.NotedExpressions
import Crosswalk.Proofs.Places

/-!
The names that an expression uses, and the form in which each is written. They are read off a
renderer that notes, beside every expression, the references that were rendered on the way to it.
Main statement: the uses of a mapped declaration are recorded as its references, and a use is
deferred exactly if its name is open where the declaration is mapped.
-/

namespace Crosswalk

open List
open Logged (Each)

variable {ε α β : Type} {budget : Nat} {u : Use}

/-- How a name is written: as it stands, as the base of a selection, or put off. -/
inductive ReferenceForm where
  | plain | selected | deferred
deriving Repr, DecidableEq

structure Use where
  name : String
  form : ReferenceForm
deriving Repr, DecidableEq

/-- Note every reference. -/
def Use.notebook : Notebook Use where
  selected name := [⟨name, .selected⟩]
  reference name := [⟨name, .plain⟩]
  deferred name := [⟨name, .deferred⟩]

namespace Mapping

/-- The mapping to expressions with the names that are rendered on the way to them. -/
abbrev noting (m : Mapping ε) : Mapping (Noted Use ε) := m.noted Use.notebook

theorem inDependencyOrder_noting (m : Mapping ε) (budget : Nat) :
    m.inDependencyOrder budget =
      List.map (MappedDeclaration.map Noted.expression) <$> m.noting.inDependencyOrder budget :=
  inDependencyOrder_map (m := m.noting) (m.renderer.noting_hom _) budget

theorem select_noting {m : Mapping ε} {select : Container → String → List String → Except Fault ε}
    (h : m.renderer.select? = some select) :
    m.noting.renderer.select? = some fun k name keys =>
      (select k name keys).map (⟨·, [⟨name, .selected⟩]⟩) := by
  simp [noted, withRenderer, Renderer.noting, Use.notebook, h]

end Mapping

/-! ### What a computation tells -/

/-- Types that select fields of another type. -/
def Shape.isSelection : Shape → Bool
  | .container kind _ _ => kind.isSelection
  | _ => false

theorem Progress.mem_references_afterAll {log : List Mapping.Event} {n : String}
    (hlog : ∀ e ∈ log, e.isInner) {p : Progress}
    (h : n ∈ p.references ∨ .reference n ∈ log) : n ∈ (p.afterAll log).1.references := by
  induction log generalizing p with
  | nil => simpa using h
  | cons e log ih =>
    rw [afterAll_cons]
    refine ih (fun e' he' => hlog e' (mem_cons_of_mem _ he')) ?_
    rcases h with h | h
    · left
      cases e with
      | enterDeclaration name => cases hlog _ (mem_cons_self ..)
      | reference name =>
        simp only [after]
        split
        · exact h
        · exact mem_append_left _ h
      | depthCut limit declaration =>
        simp only [after]
        split <;> exact h
      | enterField _ | warning _ | block _ => exact h
    · rcases mem_cons.mp h with rfl | h
      · left
        simp only [after]
        split
        · rename_i hc
          simpa using hc
        · simp
      · exact Or.inr h

namespace Mapping

variable {d : Declaration} {pending : List Scalar} {md : MappedDeclaration (Noted Use ε)}

/-- The notation has types that select fields of another type. -/
def Selects (m : Mapping ε) : Prop :=
  ∃ raw shape, m.grammar.classify m.scope raw = .ok shape ∧ shape.isSelection = true

/-- A use of a declared name that is deferred exactly if the name is open. -/
structure Fits (known opened : List Scalar) (selects : Prop) (u : Use) : Prop where
  declared : .text u.name ∈ known
  deferred_iff : u.form = .deferred ↔ .text u.name ∈ opened
  selects : u.form = .selected → selects

/-- The uses fit, and their names are recorded. -/
def Told (known : List Scalar) (selects : Prop) (opened : List Scalar) (l : List Event)
    (us : List Use) : Prop :=
  ∀ u ∈ us, Fits known opened selects u ∧ .reference u.name ∈ l

/-- What holds of no uses, of uses put together in any order and of the form each name is written
in. -/
structure Notes (m : Mapping ε) (known : List Scalar)
    (S : List Scalar → List Event → List Use → Prop) : Prop where
  nil : ∀ a l, S a l []
  append : ∀ {a l l' us us'}, S a l us → S a l' us' → S a (l ++ l') (us ++ us')
  comm : ∀ {a l us us'}, S a l (us ++ us') → S a l (us' ++ us)
  skip : ∀ {a l us e}, S a l us → S a (e :: l) us
  select : ∀ {a name}, m.Selects → .text name ∈ known → .text name ∉ a → m.inline = false →
    S a [.reference name] [⟨name, .selected⟩]
  close : ∀ {a l us name}, (m.inline = true ∨ .text name ∈ a ∨ m.renderer.select? = none) →
    S (.text name :: a) l us → S a l us
  reference : ∀ {a name}, .text name ∈ known → .text name ∉ a → m.inline = false →
    S a [.reference name] [⟨name, .plain⟩]
  deferred : ∀ {a name}, .text name ∈ known → .text name ∈ a →
    S a [.reference name] [⟨name, .deferred⟩]

variable {m : Mapping ε} {known : List Scalar}

theorem notes_enumeration {site : Site} {vs : List Value} {n : Noted Use ε} {bs : List Block}
    (h : m.noting.renderer.enumeration site vs = .ok (n, bs)) : n.notes = [] := by
  obtain ⟨_, _, hp⟩ := map_eq_ok.mp h
  cases hp
  rfl

namespace Notes

variable {S : List Scalar → List Event → List Use → Prop} (hS : m.Notes known S) {a : List Scalar}
  {l : List Event}

include hS

theorem flatMap {es : List (Noted Use ε)} (h : Each (fun l e => S a l e.notes) l es) :
    S a l (es.flatMap Noted.notes) :=
  Each.flatMap (hS.nil _ _) hS.append h

/-- Nothing that is put together later uses more than its parts. -/
theorem keeps (site : Site) :
    m.noting.Keeps (fun _ => True) (fun _ => True) known site (fun _ a l e => S a l e.notes)
      fun _ a l e => S a l e.notes where
  deeper h := h
  moved h := hS.skip h
  unknown _ _ _ _ _ := hS.nil _ _
  primitive _ he := notes_of_map he ▸ hS.nil _ _
  literal _ _ he := notes_of_map he ▸ hS.nil _ _
  enumeration _ _ he := notes_enumeration he ▸ hS.nil _ _
  array _ h he := notes_of_map he ▸ h
  tuple h he := notes_of_map he ▸ hS.flatMap h
  union h he := notes_of_map he ▸ hS.flatMap h
  intersection h he := notes_intersectAll he ▸ hS.flatMap h
  nullable h he := notes_of_map he ▸ h
  optional h he := notes_of_map he ▸ h
  container h he := notes_of_map he ▸ hS.flatMap h
  object _ h hx he := notes_of_map he ▸ hS.append
    (collected_notesAll (hS.nil _ _) hS.append (fun _ => hS.nil _ _) h)
    (collected_additional (hS.nil _ _) hx)
  select {_ _ raw _ _ _ _ _ _} hc hkind _ hn ho hi hselect he := by
    obtain ⟨_, _, rfl⟩ := Option.map_eq_some_iff.mp hselect
    exact notes_of_map he ▸ hS.select ⟨raw, _, hc, hkind⟩ hn ho hi
  close hopen h := hS.close (hopen.imp_right (.imp_right Option.map_eq_none_iff.mp)) h
  reference _ hn ho hi := hS.reference hn ho hi
  deferred _ hn ho := hS.deferred hn ho
  joined h hes he := by
    rw [notes_intersectAll he, flatMap_append, flatMap_singleton]
    exact hS.comm (hS.append h (hS.flatMap hes))
  whole h := h
  inlined _ {_ _ _ _} h := h
  refers _ {_ _ _ _ _} h := hS.skip h
  members _ {_ _ _ _ _ _ _} _ _ _ he := notes_enumeration he ▸ hS.nil _ _

omit hS in
/-- What the uses of a declaration satisfy, after turning to it. -/
theorem declaration (hS : m.Notes m.catalogue.names S) {pending : List Scalar} {d : Declaration}
    {md : MappedDeclaration (Noted Use ε)}
    (h : (m.noting.declaration budget pending d).result = .ok md) :
    ∃ l, (m.noting.declaration budget pending d).log = .enterDeclaration d.name :: l ∧
      S (d.name :: pending) l md.expression.notes :=
  (gives_declaration (within_trivial _) (fun _ => hS.keeps _) (fun _ _ => trivial)
    (fun _ _ => trivial) budget pending).holds md h

end Notes

/-- Expanded in place, a declaration names others in their deferred form only. -/
theorem uses_declaration_of_inline (hi : m.inline) {b : Nat}
    (h : (m.noting.declaration b pending d).result = .ok md) (hu : u ∈ md.expression.notes) :
    u.form = .deferred := by
  have hnotes : m.Notes m.catalogue.names fun _ _ us => ∀ u ∈ us, u.form = .deferred :=
    { nil := fun _ _ _ hu => by cases hu
      append := fun h h' => forall_mem_append.mpr ⟨h, h'⟩
      comm := fun h => forall_mem_append.mpr (forall_mem_append.mp h).symm
      skip := id
      select := fun _ _ _ h => absurd (hi.symm.trans h) (by simp)
      close := fun _ => id
      reference := fun _ _ h => absurd (hi.symm.trans h) (by simp)
      deferred := fun _ _ => forall_mem_singleton.mpr rfl }
  obtain ⟨_, _, hdeferred⟩ := hnotes.declaration h
  exact hdeferred u hu

/-! ### Fitting and recorded uses -/

variable {opened : List Scalar} {selects : Prop} {l : List Event}

theorem told_reference (h : Fits known opened selects u) :
    Told known selects opened [.reference u.name] [u] :=
  forall_mem_singleton.mpr ⟨h, mem_singleton_self _⟩

theorem opened_cons {ancestors : List Scalar} (ho : ∀ n, n ∈ ancestors ↔ n ∈ opened) {name : Scalar}
    (h : name ∈ ancestors) : ∀ n, n ∈ name :: ancestors ↔ n ∈ opened := by
  intro n
  rw [mem_cons, ← ho]
  exact ⟨fun hn => hn.elim (· ▸ h) id, Or.inr⟩

/-- Every use is told where its name is rendered. A target that selects by name expands only what is
open. -/
theorem notes_told (hi : m.inline = false) (hs : m.renderer.select?.isSome) (known : List Scalar) :
    m.Notes known (Told known m.Selects) where
  nil _ _ _ hu := by cases hu
  append h h' := forall_mem_append.mpr
    ⟨fun u hu => ⟨(h u hu).1, mem_append_left _ (h u hu).2⟩,
      fun u hu => ⟨(h' u hu).1, mem_append_right _ (h' u hu).2⟩⟩
  comm h := forall_mem_append.mpr (forall_mem_append.mp h).symm
  skip h u hu := ⟨(h u hu).1, mem_cons_of_mem _ (h u hu).2⟩
  select hsel hn ho _ := told_reference ⟨hn, by simpa using ho, fun _ => hsel⟩
  close {a _ _ name} hopen h := by
    have hmem : .text name ∈ a := by
      rcases hopen with h | h | h
      · exact absurd (hi.symm.trans h) (by simp)
      · exact h
      · rw [h] at hs
        cases hs
    intro u hu
    obtain ⟨hfit, hrec⟩ := h u hu
    exact ⟨⟨hfit.declared, hfit.deferred_iff.trans (opened_cons (fun _ => .rfl) hmem _),
      hfit.selects⟩, hrec⟩
  reference hn ho _ := told_reference ⟨hn, by simpa using ho, by simp⟩
  deferred hn ho := told_reference ⟨hn, by simpa using ho, by simp⟩

/-- The references of a declaration hold every name that its expression uses. -/
theorem mem_references_of_uses (hi : m.inline = false) (hs : m.renderer.select?.isSome)
    {names : List String} (hmd : (m.noting.declaration budget [] d).result = .ok md)
    (hnames : m.noting.referencesOf budget d = .ok names) (hu : u ∈ md.expression.notes) :
    u.name ∈ names := by
  obtain ⟨l, hlog, htold⟩ := (notes_told hi hs _).declaration hmd
  simp only [referencesOf, hmd] at hnames
  cases hnames
  obtain ⟨l', hlog', hwithin⟩ := m.noting.isWithin_declaration budget [] d
  rw [hlog'] at hlog ⊢
  cases hlog
  rw [Progress.afterAll_cons]
  exact Progress.mem_references_afterAll (fun e he => (hwithin e he).isInner)
    (Or.inr (htold u hu).2)

theorem fits_of_uses (hi : m.inline = false) (hs : m.renderer.select?.isSome)
    (hmd : (m.noting.declaration budget pending d).result = .ok md) (hu : u ∈ md.expression.notes) :
    Fits m.catalogue.names (d.name :: pending) m.Selects u := by
  obtain ⟨_, _, htold⟩ := (notes_told hi hs _).declaration hmd
  exact (htold u hu).1

/-- What is mapped, and how the fields of an object enter its expression. -/
theorem parts_of_mapped {md : MappedDeclaration ε}
    (h : (m.declaration budget pending d).result = .ok md) :
    md.declaration = d ∧ (md.fields = [] ∨ ∃ additional body bases,
      m.renderer.object md.fields additional true = .ok body ∧
        m.intersectAll (bases ++ [body]) = .ok md.expression) := by
  obtain ⟨_, _, h⟩ := result_bind_eq_ok.mp h
  cases hb : d.body with
  | enumeration body =>
    simp only [hb] at h
    obtain ⟨_, _, h⟩ := result_bind_eq_ok.mp h
    obtain ⟨_, _, h⟩ := result_bind_eq_ok.mp h
    obtain ⟨_, _, h⟩ := result_bind_eq_ok.mp h
    cases h
    exact ⟨rfl, .inl rfl⟩
  | synonym body =>
    simp only [hb] at h
    obtain ⟨_, _, h⟩ := result_bind_eq_ok.mp h
    cases h
    exact ⟨rfl, .inl rfl⟩
  | object fields =>
    simp only [hb] at h
    obtain ⟨_, _, h⟩ := result_bind_eq_ok.mp h
    obtain ⟨additional, _, h⟩ := result_bind_eq_ok.mp h
    obtain ⟨body, hbody, h⟩ := result_bind_eq_ok.mp h
    obtain ⟨bases, _, h⟩ := result_bind_eq_ok.mp h
    obtain ⟨_, he, h⟩ := result_bind_eq_ok.mp h
    cases h
    exact ⟨rfl, .inr ⟨additional, body, bases, hbody, he⟩⟩

end Mapping

end Crosswalk
