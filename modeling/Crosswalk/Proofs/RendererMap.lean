import Crosswalk.Mapping.Declaration

/-!
Maps between the expressions of two targets. A map that agrees with every operation of two renderers
agrees with mapping as a whole, so that what is shown about a renderer that keeps more can be used
for one that keeps less. The events are the same on both sides, also if mapping ends early. Main
statement: besides the target, the place at hand may be exchanged for another, if the events are
changed accordingly.
-/

namespace Crosswalk

open List

variable {ε δ : Type}

/-! ### Changing what is recorded -/

namespace Logged

variable {α β γ ω : Type}

/-- The same computation with other entries in its log. -/
def mapLog (f : ω → ω) (x : Logged ω α) : Logged ω α := ⟨x.result, x.log.map f⟩

/-- The same computation with another result and other entries in its log. -/
def carry (f : α → β) (g : ω → ω) (x : Logged ω α) : Logged ω β := f <$> mapLog g x

section Carry

variable (f : α → β) (g : ω → ω)

theorem mapLog_record (entry : ω) : mapLog g (record entry) = record (g entry) := rfl

theorem mapLog_lift (x : Except Fault α) : mapLog g (lift x) = lift x := rfl

theorem mapLog_bind (x : Logged ω α) (k : α → Logged ω β) :
    mapLog g (x >>= k) = mapLog g x >>= fun a => mapLog g (k a) := by
  obtain ⟨r, l⟩ := x
  cases r with
  | error e => rfl
  | ok a => simp only [mapLog, Bind.bind, Logged.bind, map_append]

theorem mapLog_forM (k : α → Logged ω PUnit) (as : List α) :
    mapLog g (as.forM k) = as.forM fun a => mapLog g (k a) := by
  induction as with
  | nil => rfl
  | cons a as ih => exact (mapLog_bind g _ _).trans (bind_congr fun _ => ih)

theorem carry_pure (a : α) : carry f g (Pure.pure a : Logged ω α) = Pure.pure (f a) := rfl

theorem carry_lift (x : Except Fault α) : carry f g (lift x) = lift (x.map f) := map_lift f x

theorem carry_bind (x : Logged ω γ) (k : γ → Logged ω α) :
    carry f g (x >>= k) = mapLog g x >>= fun a => carry f g (k a) := by
  rw [carry, mapLog_bind, map_bind]
  rfl

theorem bind_carry (x : Logged ω α) (k : β → Logged ω γ) :
    carry f g x >>= k = mapLog g x >>= fun a => k (f a) := bind_map_left ..

theorem mapM_carry (k : γ → Logged ω α) (as : List γ) :
    as.mapM (fun a => carry f g (k a)) = carry (List.map f) g (as.mapM k) := by
  induction as with
  | nil => rfl
  | cons a as ih => simp only [mapM_cons, ih, carry_bind, bind_carry, carry_pure, map_cons]

theorem mapLog_id (x : Logged ω α) : mapLog (fun e => e) x = x := by
  rw [mapLog, map_id']

theorem carry_log_id (x : Logged ω α) : carry f (fun e => e) x = f <$> x := by
  rw [carry, mapLog_id]

end Carry

end Logged

/-! ### Changing expressions -/

namespace MappedField

mutual

def map (f : ε → δ) : MappedField ε → MappedField δ
  | ⟨field, expression, arguments⟩ => ⟨field, f expression, mapAll f arguments⟩

def mapAll (f : ε → δ) : List (MappedField ε) → List (MappedField δ)
  | [] => []
  | m :: ms => map f m :: mapAll f ms

end

end MappedField

def Additional.map (f : ε → δ) : Additional ε → Additional δ
  | .anything => .anything
  | .nothing => .nothing
  | .typed e => .typed (f e)

def MappedDeclaration.map (f : ε → δ) (d : MappedDeclaration ε) : MappedDeclaration δ where
  declaration := d.declaration
  expression := f d.expression
  fields := MappedField.mapAll f d.fields
  bases := d.bases.map f
  enumValues := d.enumValues
  body := d.body.map f

/-- `f` carries what `r` renders to what `s` renders. -/
structure Renderer.Hom (f : ε → δ) (r : Renderer ε) (s : Renderer δ) : Prop where
  unknown : ∀ t, s.unknown t = f (r.unknown t)
  primitive : ∀ p cs, s.primitive p cs = (r.primitive p cs).map f
  literal : ∀ v, s.literal v = (r.literal v).map f
  enumeration : ∀ site vs, s.enumeration site vs = (r.enumeration site vs).map (Prod.map f id)
  array : ∀ e cs, s.array (f e) cs = (r.array e cs).map f
  tuple : ∀ es, s.tuple (es.map f) = (r.tuple es).map f
  union : ∀ es, s.union (es.map f) = (r.union es).map f
  intersect : ∀ a b, s.intersect (f a) (f b) = (r.intersect a b).map f
  nullable : ∀ e, s.nullable (f e) = (r.nullable e).map f
  optional : ∀ e, s.optional (f e) = (r.optional e).map f
  container : ∀ k es, s.container k (es.map f) = (r.container k es).map f
  select : s.select? = r.select?.map fun g k name keys => (g k name keys).map f
  object : ∀ ms a top, s.object (MappedField.mapAll f ms) (a.map (Additional.map f)) top =
    (r.object ms a top).map f
  reference : ∀ name, s.reference name = f (r.reference name)
  deferred : ∀ name, s.deferred name = f (r.deferred name)

namespace MappedField

mutual

theorem map_id : ∀ m : MappedField ε, m.map id = m
  | ⟨_, _, arguments⟩ => by rw [MappedField.map, mapAll_id arguments]; rfl

theorem mapAll_id : ∀ ms : List (MappedField ε), mapAll id ms = ms
  | [] => rfl
  | m :: ms => by rw [mapAll, map_id m, mapAll_id ms]

end

end MappedField

theorem Additional.map_id (a : Additional ε) : a.map id = a := by
  cases a <;> rfl

theorem Renderer.hom_id (r : Renderer ε) : r.Hom id r := by
  have hadditional : Additional.map (ε := ε) id = id := funext Additional.map_id
  constructor <;> intros <;> simp [Except.map_id, MappedField.mapAll_id, hadditional]

namespace Mapping

/-- The same document mapped to another target. -/
def withRenderer (m : Mapping ε) (s : Renderer δ) : Mapping δ where
  grammar := m.grammar
  scope := m.scope
  catalogue := m.catalogue
  renderer := s
  inline := m.inline
  limitText := m.limitText

/-- What stands at `other` is mapped by `s` to what `f` makes of the same at `site`, with the events
that `g` makes of its events. -/
structure Mimics (f : ε → δ) (g : Event → Event) (m : Mapping ε) (s : Renderer δ)
    (site other : Site) : Prop where
  renderer : m.renderer.Hom f s
  enumeration : ∀ vs, s.enumeration other vs = (m.renderer.enumeration site vs).map (Prod.map f id)
  warning : ∀ d, d.declaration = site.declaration → d.problem ≠ .depthExceeded →
    g (.warning d) = .warning { d with declaration := other.declaration }
  depthCut : ∀ limit, g (.depthCut limit site.declaration) = .depthCut limit other.declaration
  reference : ∀ name, g (.reference name) = .reference name
  block : ∀ b, g (.block b) = .block b

variable {m : Mapping ε} {f : ε → δ} {g : Event → Event} {s : Renderer δ} {site other : Site}
  {known ancestors : List Scalar}

open Logged (mapLog mapLog_record mapLog_lift mapLog_forM carry carry_pure carry_lift carry_bind
  bind_carry mapM_carry mapLog_id carry_log_id)

theorem mapFields_carry (f : ε → δ) (g : Event → Event) (type : Field → Traced ε)
    (fields : List Field) :
    mapFields (fun x => carry f g (type x)) fields =
      carry (MappedField.mapAll f) g (mapFields type fields) := by
  induction fields using Field.induction with
  | nil => rfl
  | cons field fields harguments hfields =>
    simp only [mapFields_cons, harguments, hfields, carry_bind, bind_carry, carry_pure,
      MappedField.mapAll, MappedField.map]

theorem mapAdditional_carry (f : ε → δ) (g : Event → Event) (type : Raw → Traced ε) :
    ∀ a, mapAdditional (fun raw => carry f g (type raw)) a =
      carry (Option.map (Additional.map f)) g (mapAdditional type a)
  | none | some .anything | some .nothing => rfl
  | some (.typed raw) => by
    simp only [mapAdditional, carry_bind, bind_carry, carry_pure, Option.map_some, Additional.map]

attribute [ext] Level

/-- A level whose expressions and events are carried over. -/
def Level.carry (f : ε → δ) (g : Event → Event) (l : Level ε) : Level δ where
  type := fun ancestors raw => Logged.carry f g (l.type ancestors raw)
  reference := fun ancestors name => Logged.carry f g (l.reference ancestors name)

theorem foldlM_intersect (h : m.renderer.Hom f s) (es : List ε) (e : ε) :
    (es.map f).foldlM s.intersect (f e) = (es.foldlM m.renderer.intersect e).map f := by
  induction es generalizing e with
  | nil => rfl
  | cons e' es ih =>
    simp only [map_cons, foldlM_cons, h.intersect]
    cases m.renderer.intersect e e' with
    | error _ => rfl
    | ok joined => exact ih joined

theorem intersectAll_map (h : m.renderer.Hom f s) (es : List ε) :
    (m.withRenderer s).intersectAll (es.map f) = (m.intersectAll es).map f := by
  cases es with
  | nil => rfl
  | cons e es => exact foldlM_intersect h es e

/-- The bases of an object stand before it. -/
theorem intersectAll_append (h : m.renderer.Hom f s) (es : List ε) (body : ε) :
    (m.withRenderer s).intersectAll (es.map f ++ [f body]) =
      (m.intersectAll (es ++ [body])).map f := by
  rw [← intersectAll_map h, map_append, map_singleton]

namespace Mimics

variable (h : m.Mimics f g s site other)
include h

theorem checkRange (vs : List Value) :
    Mapping.checkRange other vs = mapLog g (Mapping.checkRange site vs) := by
  have hwarning (v : Value) : g (.warning (.numericRange v.display site.declaration)) =
      .warning (.numericRange v.display other.declaration) := h.warning _ rfl nofun
  simp [Mapping.checkRange_eq, mapLog, hwarning]

theorem enumeration_eq (vs : List Value) :
    (m.withRenderer s).enumeration other vs = carry f g (m.enumeration site vs) := by
  simp only [Mapping.enumeration, withRenderer, h.enumeration, carry_bind, carry_pure, mapLog_lift,
    mapLog_forM, mapLog_record, h.block]
  cases m.renderer.enumeration site vs <;> rfl

theorem cutOff : (m.withRenderer s).cutOff other = carry f g (m.cutOff site) := by
  simp only [Mapping.cutOff, withRenderer, h.renderer.unknown, carry_bind, carry_pure,
    mapLog_record, h.depthCut]

theorem object (below : Level ε) (ancestors : List Scalar) (d : Declaration) :
    (m.withRenderer s).object (below.carry f g) ancestors d =
      carry f g (m.object below ancestors d) := by
  have hobject : (m.withRenderer s).renderer.object = s.object := rfl
  simp only [Mapping.object, Level.carry,
    mapFields_carry f g (fun x => below.type ancestors x.type),
    mapAdditional_carry, mapM_carry, hobject, carry_bind, bind_carry, h.renderer.object, carry_lift,
    mapLog_lift, ← Logged.map_lift, bind_map_left, intersectAll_append h.renderer]

theorem definition (below : Level ε) (ancestors : List Scalar) (d : Declaration) :
    (m.withRenderer s).definition other (below.carry f g) ancestors d =
      carry f g (m.definition site below ancestors d) := by
  unfold Mapping.definition
  split
  case h_1 body => simp only [h.enumeration_eq, carry_bind, mapLog_lift]; rfl
  case h_2 body => rfl
  case h_3 => exact h.object below ancestors d

theorem resolve (below? : Option (Level ε)) (ancestors : List Scalar) (name : String) :
    (m.withRenderer s).resolve other known (below?.map (Level.carry f g)) ancestors name =
      carry f g (m.resolve site known below? ancestors name) := by
  by_cases hk : .text name ∈ known
  · by_cases ho : .text name ∈ ancestors
    · rw [resolve_open hk ho, resolve_open hk ho]
      simp only [carry_bind, mapLog_record, h.reference, carry_pure, ← h.renderer.deferred]
      rfl
    · cases hi : m.inline with
      | false =>
        rw [resolve_named hk ho (show (m.withRenderer s).inline = false from hi),
          resolve_named hk ho hi]
        simp only [carry_bind, mapLog_record, h.reference, carry_pure, ← h.renderer.reference]
        rfl
      | true =>
        rw [resolve_inline hk ho (show (m.withRenderer s).inline from hi), resolve_inline hk ho hi,
          carry_bind, mapLog_record, h.reference]
        refine bind_congr fun _ => ?_
        have hcatalogue : (m.withRenderer s).catalogue = m.catalogue := rfl
        rw [hcatalogue]
        cases below? with
        | none => exact h.cutOff
        | some below =>
          cases m.catalogue.find? (.text name) with
          | none => rfl
          | some d => exact h.definition below _ d
  · have hwarning : g (.warning (.unknownReference name site.declaration)) =
        .warning (.unknownReference name other.declaration) := h.warning _ rfl nofun
    rw [resolve_undeclared hk, resolve_undeclared hk]
    simp only [warn, carry_bind, mapLog_record, hwarning, carry_pure, ← h.renderer.unknown]
    rfl

theorem selection (type : List Scalar → Raw → Traced ε) (reference : String → Traced ε)
    (kind : Container) (args : List Raw) (keys : List String) :
    (m.withRenderer s).selection known (fun a raw => carry f g (type a raw))
      (fun n => carry f g (reference n))
        ancestors kind args keys =
      carry f g (m.selection known type reference ancestors kind args keys) := by
  rcases args with _ | ⟨base, rest⟩
  · rfl
  rcases hc : m.grammar.classify m.scope base with e | shape
  · rw [selection_failed hc, selection_failed (m := m.withRenderer s) hc]
    rfl
  by_cases hother : ∀ name, shape = .reference name → .text name ∉ known
  · rw [selection_other hc hother, selection_other (m := m.withRenderer s) hc hother]
  · obtain ⟨name, rfl, hk⟩ : ∃ name, shape = .reference name ∧ .text name ∈ known := by
      simpa using hother
    have hselect := h.renderer.select
    by_cases hn : m.inline ∨ .text name ∈ ancestors ∨ m.renderer.select? = none
    · have hn' : (m.withRenderer s).inline ∨ .text name ∈ ancestors ∨
          (m.withRenderer s).renderer.select? = none := by
        refine hn.imp id (Or.imp id fun h0 => ?_)
        rw [show (m.withRenderer s).renderer.select? = s.select? from rfl, hselect, h0]
        rfl
      rw [selection_expanded hc hk hn, selection_expanded (m := m.withRenderer s) hc hk hn']
      have hcatalogue : (m.withRenderer s).catalogue = m.catalogue := rfl
      rw [hcatalogue]
      split
      · rfl
      · rw [mapFields_carry f g (fun x => type (.text name :: ancestors) x.type), carry_bind,
            bind_carry]
        refine bind_congr fun mapped => ?_
        rw [carry_lift, ← h.renderer.object]
        rfl
    · simp only [not_or] at hn
      obtain ⟨hi, ho, hs⟩ := hn
      rw [Bool.not_eq_true] at hi
      obtain ⟨select, hs⟩ := Option.ne_none_iff_exists'.mp hs
      rw [hs] at hselect
      rw [selection_selected hc hk ho hi hs,
        selection_selected (m := m.withRenderer s) hc hk ho hi hselect, carry_bind, mapLog_record,
        h.reference]
      exact bind_congr fun _ => (carry_lift f g _).symm

theorem shape (type : List Scalar → Raw → Traced ε) (reference : String → Traced ε)
    (shape : Shape) :
    (m.withRenderer s).shape other known (fun a raw => carry f g (type a raw))
      (fun n => carry f g (reference n))
        ancestors shape =
      carry f g (m.shape site known type reference ancestors shape) := by
  have hr : (m.withRenderer s).renderer = s := rfl
  cases shape with
  | primitive p cs => simp only [Mapping.shape, hr, h.renderer.primitive, carry_lift]
  | literal v =>
    simp only [Mapping.shape, hr, h.checkRange, h.renderer.literal, carry_lift, carry_bind]
  | enumeration vs => simp only [Mapping.shape, h.checkRange, h.enumeration_eq, carry_bind]
  | array element cs =>
    simp only [Mapping.shape, hr, carry_bind, bind_carry, h.renderer.array, carry_lift]
  | tuple elements =>
    simp only [Mapping.shape, hr, mapM_carry, carry_bind, bind_carry, h.renderer.tuple, carry_lift]
  | union members =>
    simp only [Mapping.shape, hr, mapM_carry, carry_bind, bind_carry]
    refine bind_congr fun es => ?_
    rcases es with _ | ⟨e, _ | ⟨e', es⟩⟩
    · rw [carry_lift, ← h.renderer.union]
      rfl
    · rfl
    · rw [carry_lift, ← h.renderer.union]
      rfl
  | intersection members =>
    simp only [Mapping.shape, mapM_carry, carry_bind, bind_carry, intersectAll_map h.renderer,
      carry_lift]
  | nullable inner =>
    simp only [Mapping.shape, hr, carry_bind, bind_carry, h.renderer.nullable, carry_lift]
  | optional inner =>
    simp only [Mapping.shape, hr, carry_bind, bind_carry, h.renderer.optional, carry_lift]
  | container kind args keys =>
    have hplain : (do Logged.lift ((m.withRenderer s).renderer.container kind
          (← args.mapM fun raw => carry f g (type ancestors raw))) : Traced δ) =
        carry f g (do Logged.lift (m.renderer.container kind (← args.mapM (type ancestors)))) := by
      simp only [hr, mapM_carry, carry_bind, bind_carry, h.renderer.container, carry_lift]
    have hselection : (m.withRenderer s).selection known (fun a raw => carry f g (type a raw))
          (fun n => carry f g (reference n)) ancestors kind args keys =
        carry f g (m.selection known type reference ancestors kind args keys) :=
      h.selection type reference kind args keys
    cases kind with
    | readonly => rcases args with _ | ⟨inner, _⟩ <;> rfl
    | pick | without | partially | required => exact hselection
    | _ => exact hplain
  | object fields additional =>
    simp only [Mapping.shape, hr, mapFields_carry f g (fun x => type ancestors x.type),
      mapAdditional_carry, carry_bind, bind_carry, h.renderer.object, carry_lift]
  | reference name => rfl
  | unknown text =>
    have hwarning (t : String) :
        g (.warning (.unsupportedConstruct "type expression" t site.declaration)) =
          .warning (.unsupportedConstruct "type expression" t other.declaration) :=
      h.warning _ rfl nofun
    simp only [Mapping.shape, hr, h.renderer.unknown]
    split <;> simp only [warn, carry_bind, carry_pure, mapLog_record, hwarning]

/-- What is mapped is carried over on every level. -/
theorem level (known : List Scalar) (budget : Nat) :
    (m.withRenderer s).level other known budget = (m.level site known budget).carry f g := by
  have hresolve (below? : Option (Level ε)) :
      (m.withRenderer s).resolve other known (below?.map (Level.carry f g)) =
        fun ancestors name => carry f g (m.resolve site known below? ancestors name) :=
    funext fun ancestors => funext fun name => h.resolve below? ancestors name
  induction budget with
  | zero => exact Level.ext (funext fun _ => funext fun _ => h.cutOff) (hresolve none)
  | succ budget ih =>
    have hreference : ((m.withRenderer s).level other known (budget + 1)).reference =
        ((m.level site known (budget + 1)).carry f g).reference := by
      change (m.withRenderer s).resolve other known
        (if budget = 0 then none else some ((m.withRenderer s).level other known budget)) = _
      rw [ih]
      refine Eq.trans ?_ (hresolve (if budget = 0 then none else some (m.level site known budget)))
      split <;> rfl
    refine Level.ext ?_ hreference
    funext ancestors raw
    change (m.withRenderer s).mapType other known (budget + 1) ancestors raw =
      carry f g (m.mapType site known (budget + 1) ancestors raw)
    rw [mapType_succ, mapType_succ, carry_bind, mapLog_lift]
    refine bind_congr fun shape => ?_
    rw [← h.shape]
    congr 1
    · funext ancestors raw
      rw [mapType, ih]
      rfl
    · exact congrFun hreference ancestors

end Mimics

/-! ### Other targets -/

section Targets

variable (h : m.renderer.Hom f s)
include h

/-- The place at hand is not exchanged. -/
theorem mimics_of_hom (site : Site) : m.Mimics f (fun e => e) s site site where
  renderer := h
  enumeration := h.enumeration site
  warning := fun d hd _ => by rw [← hd]
  depthCut := fun _ => rfl
  reference := fun _ => rfl
  block := fun _ => rfl

theorem mapType_map (site : Site) (known : List Scalar) (budget : Nat) (ancestors : List Scalar) :
    (m.withRenderer s).mapType site known budget ancestors =
      fun raw => carry f (fun e => e) (m.mapType site known budget ancestors raw) :=
  congrFun (congrArg Level.type ((mimics_of_hom h site).level known budget)) ancestors

theorem mapReference_map (site : Site) (known : List Scalar) (budget : Nat)
    (ancestors : List Scalar) :
    (m.withRenderer s).mapReference site known budget ancestors =
      fun name => carry f (fun e => e) (m.mapReference site known budget ancestors name) :=
  congrFun (congrArg Level.reference ((mimics_of_hom h site).level known budget)) ancestors

theorem ownFields_map (name : Scalar) (budget : Nat) (ancestors : List Scalar)
    (fields : List Field) :
    (m.withRenderer s).ownFields name budget ancestors fields =
      carry (MappedField.mapAll f) (fun e => e) (m.ownFields name budget ancestors fields) := by
  have hcatalogue : (m.withRenderer s).catalogue = m.catalogue := rfl
  simp only [ownFields, hcatalogue, mapType_map h, ← mapFields_carry, carry_bind, mapLog_id]

theorem declaration_map (budget : Nat) (pending : List Scalar) (d : Declaration) :
    (m.withRenderer s).declaration budget pending d =
      MappedDeclaration.map f <$> m.declaration budget pending d := by
  have hobject : (m.withRenderer s).renderer.object = s.object := rfl
  have hgrammar : (m.withRenderer s).grammar = m.grammar := rfl
  have hcatalogue : (m.withRenderer s).catalogue = m.catalogue := rfl
  rw [← carry_log_id]
  simp only [declaration, carry_bind, mapLog_id]
  refine bind_congr fun _ => ?_
  cases d.body with
  | enumeration body =>
    simp only [hgrammar, (mimics_of_hom h _).enumeration_eq, carry_bind, bind_carry, carry_pure,
      mapLog_id]
    rfl
  | synonym body =>
    simp only [hcatalogue, mapType_map h, carry_bind, bind_carry, carry_pure]
    rfl
  | object fields =>
    simp only [hcatalogue, hobject, ownFields_map h, mapType_map h,
      mapReference_map h, mapAdditional_carry, mapM_carry, carry_bind, bind_carry, h.object,
      ← Logged.map_lift, bind_map_left, intersectAll_append h, mapLog_id, carry_pure]
    rfl

omit h in
theorem mapM_map {α ω : Type} (f : ε → δ) (k : α → Logged ω ε) (as : List α) :
    as.mapM (fun a => f <$> k a) = List.map f <$> as.mapM k := by
  simpa only [carry_log_id] using mapM_carry f (fun e => e) k as

theorem referencesOf_map (budget : Nat) (d : Declaration) :
    (m.withRenderer s).referencesOf budget d = m.referencesOf budget d := by
  simp only [referencesOf, declaration_map h, Logged.log_map, Logged.result_map]
  cases (m.declaration budget [] d).result <;> rfl

theorem references_map (budget : Nat) :
    (m.withRenderer s).references budget = m.references budget := by
  simp only [references, referencesOf_map h]
  rfl

theorem plan_map (budget : Nat) :
    (m.withRenderer s).plan budget = m.plan budget := by
  simp only [plan, references_map h]
  rfl

theorem atStep_map (budget : Nat) :
    (m.withRenderer s).atStep budget =
      fun step => List.map (MappedDeclaration.map f) <$> m.atStep budget step := by
  funext step
  have hcatalogue : (m.withRenderer s).catalogue = m.catalogue := rfl
  simp only [atStep, hcatalogue]
  cases m.catalogue.find? step.name with
  | none => rfl
  | some d => simp only [declaration_map h, map_bind, bind_map_left, map_pure, map_singleton]

theorem inDependencyOrder_map (budget : Nat) :
    (m.withRenderer s).inDependencyOrder budget =
      List.map (MappedDeclaration.map f) <$> m.inDependencyOrder budget := by
  simp only [inDependencyOrder, plan_map h, atStep_map h, mapM_map, map_bind, bind_map_left,
    map_pure, map_flatten]

end Targets

end Mapping

end Crosswalk
