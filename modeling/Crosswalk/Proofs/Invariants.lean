import Crosswalk.Proofs.RendererMap

/-!
Properties of what is mapped, together with what is recorded on the way. A property that is kept
wherever expressions are put together holds of every expression that mapping gives. It may depend on
the levels that are left and on the names that are open, and it may rely on what the notation
guarantees about fields and names.
-/

namespace Crosswalk

open List

variable {ε α β ω : Type} {d : Declaration}

/-! ### Results of computations -/

namespace Logged

/-- A computation whose result, if it has one, satisfies `P` together with the log. -/
structure Gives (P : List ω → α → Prop) (x : Logged ω α) : Prop where
  holds : ∀ a, x.result = .ok a → P x.log a

/-- Results that satisfy `P`, each with its own part of the log. -/
inductive Each (P : List ω → α → Prop) : List ω → List α → Prop
  | nil : Each P [] []
  | cons {l l' : List ω} {a : α} {as : List α} (head : P l a) (tail : Each P l' as) :
      Each P (l ++ l') (a :: as)

theorem Each.forall_mem {Q : α → Prop} {l : List ω} {as : List α} (h : Each (fun _ => Q) l as) :
    ∀ a ∈ as, Q a := by
  induction h with
  | nil => simp
  | cons head _ ih => exact forall_mem_cons.mpr ⟨head, ih⟩

/-- What is noted about each result adds up. -/
theorem Each.flatMap {ν : Type} {S : List ω → List ν → Prop} {notes : α → List ν} (hnil : S [] [])
    (happend : ∀ {l l' ns ns'}, S l ns → S l' ns' → S (l ++ l') (ns ++ ns')) {l : List ω}
    {as : List α} (h : Each (fun l a => S l (notes a)) l as) : S l (as.flatMap notes) := by
  induction h with
  | nil => exact hnil
  | cons head _ ih => exact happend head ih

theorem forM_record (entry : α → ω) (as : List α) :
    (as.forM fun a => record (entry a)) = ⟨.ok (), as.map entry⟩ := by
  induction as with
  | nil => rfl
  | cons a as ih =>
    change (record (entry a) >>= fun _ => as.forM fun a => record (entry a)) = _
    rw [ih]
    rfl

namespace Gives

variable {P : List ω → α → Prop} {Q : List ω → β → Prop}

variable {x : Logged ω α} {f : α → Logged ω β}

theorem lift {x : Except Fault α} (h : ∀ a, x = .ok a → P [] a) : Gives P (Logged.lift x) := ⟨h⟩

theorem pure {a : α} (h : P [] a) : Gives P (Pure.pure a) :=
  lift fun _ hb => by cases hb; exact h

theorem fail (e : Fault) : Gives P (Logged.fail e) :=
  lift fun _ ha => by cases ha

theorem mono {P' : List ω → α → Prop} (hx : Gives P x) (h : ∀ l a, P l a → P' l a) : Gives P' x :=
  ⟨fun a ha => h _ _ (hx.holds a ha)⟩

theorem bind (hx : Gives P x) (hf : ∀ l a, P l a → Gives (fun l' => Q (l ++ l')) (f a)) :
    Gives Q (x >>= f) := by
  constructor
  intro b hb
  obtain ⟨a, ha, hb⟩ := result_bind_eq_ok.mp hb
  rw [log_bind ha]
  exact (hf _ a (hx.holds a ha)).holds b hb

theorem lift_bind {x : Except Fault α} (hf : ∀ a, x = .ok a → Gives Q (f a)) :
    Gives Q (Logged.lift x >>= f) :=
  bind (P := fun l a => l = [] ∧ x = .ok a) ⟨fun _ ha => ⟨rfl, ha⟩⟩ fun _ a h => h.1 ▸ hf a h.2

theorem record_bind {e : ω} {x : Logged ω β} (hx : Gives (fun l => Q (e :: l)) x) :
    Gives Q (record e >>= fun _ => x) :=
  bind (P := fun l _ => l = [e]) ⟨fun _ _ => rfl⟩ fun _ _ h => h ▸ hx

theorem bind_lift {g : α → Except Fault β} (hx : Gives P x)
    (hg : ∀ l a b, P l a → g a = .ok b → Q l b) : Gives Q (x >>= fun a => Logged.lift (g a)) :=
  hx.bind fun l a ha => lift fun b hb => by
    rw [append_nil]
    exact hg l a b ha hb

theorem bind_pure {g : α → β} (hx : Gives P x) (h : ∀ l a, P l a → Q l (g a)) :
    Gives Q (x >>= fun a => Pure.pure (g a)) :=
  hx.bind_lift fun l a _ ha hb => by cases hb; exact h l a ha

theorem mapM {as : List α} (h : ∀ a ∈ as, Gives Q (f a)) : Gives (Each Q) (as.mapM f) := by
  induction as with
  | nil => exact pure .nil
  | cons a as ih =>
    rw [forall_mem_cons] at h
    rw [mapM_cons]
    exact h.1.bind fun _ _ hb => (ih h.2).bind_pure fun _ _ hbs => .cons hb hbs

end Gives

end Logged

open Logged (Gives Each)

/-! ### What a notation guarantees -/

/-- The default of a field, where it could be read, is a plain value. -/
def Field.Plain (f : Field) : Prop := ∀ v, f.default? = some v → v.isPlain = true

/-- The values in a type are plain, and the name of a reference is one that can be written. -/
def Shape.Plain (written : String → Prop) : Shape → Prop
  | .primitive _ cs | .array _ cs => ∀ c ∈ cs, c.value.isPlain = true
  | .literal v => v.isPlain = true
  | .enumeration vs => ∀ v ∈ vs, v.isPlain = true
  | .object fs _ => ∀ f ∈ fs, f.Plain
  | .reference name => written name
  | _ => True

/-- A declaration whose values are plain and whose bases have names that can be written. -/
structure Declaration.Plain (written : String → Prop) (d : Declaration) : Prop where
  fields : ∀ f ∈ d.fields, f.Plain
  bases : ∀ b ∈ d.bases, written b
  description : ∀ v, d.description? = some v → v.isPlain = true

/-- A document of a notation whose types and declarations are plain. -/
structure Mapping.Plain (m : Mapping ε) (written : String → Prop) : Prop where
  classify : ∀ raw s, m.grammar.classify m.scope raw = .ok s → s.Plain written
  enumValues : ∀ body vs, m.grammar.enumValues body = .ok vs → ∀ v ∈ vs, v.isPlain = true
  declarations : ∀ d ∈ m.catalogue.declarations, d.Plain written

/-- What a selection keeps of a field is the field, up to whether it may be missing. -/
theorem Field.exists_of_mem_selectFields {kind : Container} {keys : List String}
    {fields : List Field} {f : Field} (hf : f ∈ selectFields kind keys fields) :
    ∃ g ∈ fields, ∃ optional, f = { g with optional } := by
  have hchanged (b : Bool) (hf : f ∈ fields.map fun g => { g with optional := b }) :
      ∃ g ∈ fields, ∃ optional, f = { g with optional } := by
    obtain ⟨g, hg, rfl⟩ := mem_map.mp hf
    exact ⟨g, hg, b, rfl⟩
  cases kind with
  | pick | without => exact ⟨f, (mem_filter.mp hf).1, f.optional, by cases f; rfl⟩
  | _ => exact hchanged _ hf

/-! ### Properties that mapping keeps -/

/-- Expressions of fields and of their arguments that satisfy `P`, each with its part of the log. -/
inductive MappedField.Each (P : List Mapping.Event → ε → Prop) :
    List Mapping.Event → List (MappedField ε) → Prop
  | nil : Each P [] []
  | cons {f : Field} {e : ε} {args ms : List (MappedField ε)} {l l₁ l₂ : List Mapping.Event}
      (expression : P l e) (arguments : Each P l₁ args) (rest : Each P l₂ ms) :
      Each P (l ++ (l₁ ++ l₂)) (⟨f, e, args⟩ :: ms)

theorem MappedField.Each.forall_mem {Q : ε → Prop} {l : List Mapping.Event}
    {ms : List (MappedField ε)} (h : MappedField.Each (fun _ => Q) l ms) :
    ∀ m ∈ ms, Q m.expression := by
  induction h with
  | nil => simp
  | cons expression _ _ _ ih => exact forall_mem_cons.mpr ⟨expression, ih⟩

def Additional.Holds (P : List Mapping.Event → ε → Prop) (l : List Mapping.Event) :
    Option (Additional ε) → Prop
  | some (.typed e) => P l e
  | _ => l = []

namespace Mapping

/-- Events that come with an expression for what is unknown. -/
def Event.Complains : Event → Prop
  | .depthCut _ _ => True
  | .warning d => d.problem ≠ .numericRange
  | _ => False

/-- The events of naming the blocks of an enumeration. -/
def blockEvents (bs : List Block) : List Event := bs.map .block

/-- The fields and names that stand in a document are `own` and `written`. -/
structure Within (m : Mapping ε) (own : Field → Prop) (written : String → Prop) : Prop where
  fields : ∀ {raw fs a}, m.grammar.classify m.scope raw = .ok (.object fs a) → ∀ f ∈ fs, own f
  reference : ∀ {raw name}, m.grammar.classify m.scope raw = .ok (.reference name) → written name
  declared : ∀ d ∈ m.catalogue.declarations, (∀ f ∈ d.fields, own f) ∧ ∀ b ∈ d.bases, written b
  selected : ∀ f optional, own f → own { f with optional }

theorem Plain.within {m : Mapping ε} {written : String → Prop} (h : m.Plain written) :
    m.Within Field.Plain written where
  fields hc := h.classify _ _ hc
  reference hc := h.classify _ _ hc
  declared d hd := ⟨(h.declarations d hd).fields, (h.declarations d hd).bases⟩
  selected _ _ hf := hf

theorem within_trivial (m : Mapping ε) : m.Within (fun _ => True) fun _ => True :=
  ⟨fun _ _ _ => trivial, fun _ => trivial, fun _ _ => ⟨fun _ _ => trivial, fun _ _ => trivial⟩,
    fun _ _ _ => trivial⟩

/-- Wherever mapping puts an expression together from parts with `P`, the whole has `P` for one more
level; `J` is what holds of an object with its bases before it. -/
structure Keeps (m : Mapping ε) (own : Field → Prop) (written : String → Prop) (known : List Scalar)
    (site : Site) (P J : Nat → List Scalar → List Event → ε → Prop) : Prop where
  deeper : ∀ {b a l e}, P b a l e → P (b + 1) a l e
  moved : ∀ {b a l e key}, P b a l e → P b a (.enterField key :: l) e
  unknown : ∀ b a l t, (∀ e ∈ l, e.Complains) → P b a l (m.renderer.unknown t)
  primitive : ∀ {b a raw p cs e}, m.grammar.classify m.scope raw = .ok (.primitive p cs) →
    m.renderer.primitive p cs = .ok e → P (b + 1) a [] e
  literal : ∀ {b a raw v e}, m.grammar.classify m.scope raw = .ok (.literal v) → rangeShown [v] →
    m.renderer.literal v = .ok e → P (b + 1) a (checkRange site [v]).log e
  enumeration : ∀ {b a vs e bs},
    (∃ raw, m.grammar.classify m.scope raw = .ok (.enumeration vs)) ∨
      (∃ body, m.grammar.enumValues body = .ok vs) →
    rangeShown vs → m.renderer.enumeration site vs = .ok (e, bs) →
    P (b + 1) a ((checkRange site vs).log ++ blockEvents bs) e
  array : ∀ {b a raw element cs l e e'},
    m.grammar.classify m.scope raw = .ok (.array element cs) → P b a l e →
    m.renderer.array e cs = .ok e' → P (b + 1) a l e'
  tuple : ∀ {b a l es e}, Each (P b a) l es → m.renderer.tuple es = .ok e → P (b + 1) a l e
  union : ∀ {b a l es e}, Each (P b a) l es → m.renderer.union es = .ok e → P (b + 1) a l e
  intersection : ∀ {b a l es e}, Each (P b a) l es → m.intersectAll es = .ok e → P (b + 1) a l e
  nullable : ∀ {b a l e e'}, P b a l e → m.renderer.nullable e = .ok e' → P (b + 1) a l e'
  optional : ∀ {b a l e e'}, P b a l e → m.renderer.optional e = .ok e' → P (b + 1) a l e'
  container : ∀ {b a l k es e}, Each (P b a) l es → m.renderer.container k es = .ok e →
    P (b + 1) a l e
  object : ∀ {b a l l' ms x top e}, (∀ mf ∈ ms, own mf.field) → MappedField.Each (P b a) l ms →
    Additional.Holds (P b a) l' x → m.renderer.object ms x top = .ok e → P (b + 1) a (l ++ l') e
  select : ∀ {b a raw kind args name keys e select},
    m.grammar.classify m.scope raw = .ok (.container kind args keys) → kind.isSelection = true →
    written name → .text name ∈ known → .text name ∉ a → m.inline = false →
    m.renderer.select? = some select → select kind name keys = .ok e → P b a [.reference name] e
  /-- The fields of a selection are mapped while its base is open. -/
  close : ∀ {b a l name e}, (m.inline = true ∨ .text name ∈ a ∨ m.renderer.select? = none) →
    P b (.text name :: a) l e → P b a l e
  reference : ∀ {b a name}, written name → .text name ∈ known → .text name ∉ a →
    m.inline = false → P b a [.reference name] (m.renderer.reference name)
  deferred : ∀ {b a name}, written name → .text name ∈ known → .text name ∈ a →
    P b a [.reference name] (m.renderer.deferred name)
  joined : ∀ {b a l l' es body e}, P (b + 1) a l body → Each (P b a) l' es →
    m.intersectAll (es ++ [body]) = .ok e → J (b + 1) a (l ++ l') e
  whole : ∀ {b a l e}, P b a l e → J b a l e
  /-- Only targets that expand references in place put whole declarations into expressions. -/
  inlined : m.inline = true → ∀ {b a l e}, J b a l e → P b a l e
  refers : m.inline = true → ∀ {b a l name e}, P b a l e → P b a (.reference name :: l) e
  members : m.inline = true → ∀ {b a d body vs e bs}, d ∈ m.catalogue.declarations →
    d.body = .enumeration body → m.grammar.enumValues body = .ok vs →
    m.renderer.enumeration site vs = .ok (e, bs) → P (b + 1) a (blockEvents bs) e

variable {m : Mapping ε} {own : Field → Prop} {written : String → Prop} {known : List Scalar}
  {site : Site} {P J : Nat → List Scalar → List Event → ε → Prop}

section Fields

variable {R : List Event → ε → Prop}

theorem gives_mapFields {type : Field → Traced ε} (h : ∀ f, Gives R (type f)) (fs : List Field) :
    Gives (fun l ms => ms.map MappedField.field = fs ∧ MappedField.Each R l ms)
      (mapFields type fs) := by
  induction fs using Field.induction with
  | nil => exact Gives.pure ⟨rfl, .nil⟩
  | cons f fs harguments hfs =>
    rw [mapFields_cons]
    refine (h f).bind fun l e he => harguments.bind fun l₁ args hargs =>
      hfs.bind_pure fun l₂ ms hms => ?_
    exact ⟨by rw [map_cons, hms.1], .cons he hargs.2 hms.2⟩

theorem gives_mapAdditional {type : Raw → Traced ε} (h : ∀ raw, Gives R (type raw)) :
    ∀ a, Gives (Additional.Holds R) (mapAdditional type a)
  | none | some .anything | some .nothing => Gives.pure rfl
  | some (.typed raw) => (h raw).bind_pure fun _ _ he => he

theorem gives_checkRange (site : Site) (vs : List Value) :
    Gives (fun l _ => l = (checkRange site vs).log ∧ rangeShown vs) (checkRange site vs) :=
  ⟨fun _ h => ⟨rfl, rangeShown_of_checkRange h⟩⟩

theorem gives_enumeration {vs : List Value}
    (h : ∀ e bs, m.renderer.enumeration site vs = .ok (e, bs) → R (blockEvents bs) e) :
    Gives R (m.enumeration site vs) := by
  refine Gives.lift_bind fun p hp => ?_
  obtain ⟨e, bs⟩ := p
  refine Gives.bind (P := fun l _ => l = blockEvents bs) ⟨fun _ _ => ?_⟩ fun l _ hl => Gives.pure ?_
  · rw [Logged.forM_record]
    rfl
  · rw [hl, append_nil]
    exact h e bs hp

end Fields

/-- What holds of the first expression and is kept by joining another holds of all that are
joined. -/
theorem intersectAll_induction {R Q : ε → Prop} (hfirst : ∀ a, R a → Q a)
    (hjoin : ∀ a b e, Q a → R b → m.renderer.intersect a b = .ok e → Q e) {es : List ε}
    (h : ∀ a ∈ es, R a) {e : ε} (he : m.intersectAll es = .ok e) : Q e := by
  have hfold (es : List ε) (first : ε) (hfirst : Q first) (h : ∀ a ∈ es, R a)
      (he : es.foldlM m.renderer.intersect first = .ok e) : Q e := by
    induction es generalizing first with
    | nil =>
      cases he
      exact hfirst
    | cons a es ih =>
      rw [forall_mem_cons] at h
      obtain ⟨joined, hjoined, he⟩ := bind_eq_ok.mp he
      exact ih joined (hjoin _ _ _ hfirst h.1 hjoined) h.2 he
  cases es with
  | nil => cases he
  | cons first es =>
    rw [forall_mem_cons] at h
    exact hfold es first (hfirst _ h.1) h.2 he

theorem forall_own {fs : List Field} {ms : List (MappedField ε)} (h : ms.map MappedField.field = fs)
    (hfs : ∀ f ∈ fs, own f) : ∀ mf ∈ ms, own mf.field :=
  fun _ hmf => hfs _ (h ▸ mem_map_of_mem hmf)

/-- The mappers of a level give what has `R`. -/
structure Level.Keeps (written : String → Prop) (R : List Scalar → List Event → ε → Prop)
    (l : Level ε) : Prop where
  type : ∀ a raw, Gives (R a) (l.type a raw)
  reference : ∀ a name, written name → Gives (R a) (l.reference a name)

section Level

variable (hk : m.Keeps own written known site P J) (hm : m.Within own written)
include hk

variable {b : Nat} {a : List Scalar}

theorem gives_cutOff (b : Nat) (a : List Scalar) : Gives (P b a) (m.cutOff site) :=
  Gives.record_bind (Gives.pure (hk.unknown b a _ "" (by simp [Event.Complains])))

/-- Fields and what else an object allows are mapped, and after them the bases. -/
theorem gives_body {fs : List Field} (hfs : ∀ f ∈ fs, own f) {type : Field → Traced ε}
    (htype : ∀ f, Gives (P b a) (type f)) {extra : Raw → Traced ε}
    (hextra : ∀ raw, Gives (P b a) (extra raw)) (additional : Option (Additional Raw)) (top : Bool)
    {f : List (MappedField ε) → ε → Traced β} {Q : List Event → β → Prop}
    (hf : ∀ l ms e, P (b + 1) a l e → Gives (fun l' => Q (l ++ l')) (f ms e)) :
    Gives Q (do
      let ms ← mapFields type fs
      let x ← mapAdditional extra additional
      let e ← Logged.lift (m.renderer.object ms x top)
      f ms e) := by
  refine (gives_mapFields htype fs).bind fun l ms hms => ?_
  refine (gives_mapAdditional hextra additional).bind fun l' x hx => Gives.lift_bind fun e he => ?_
  refine (hf _ ms e (hk.object (forall_own hms.1 hfs) hms.2 hx he)).mono fun l'' c hc => ?_
  rwa [append_assoc] at hc

include hm

theorem gives_object {below : Level ε} (hb : below.Keeps written (P b)) (a : List Scalar)
    (hd : d ∈ m.catalogue.declarations) : Gives (J (b + 1) a) (m.object below a d) := by
  obtain ⟨hfields, hbases⟩ := hm.declared d hd
  refine gives_body hk hfields (fun f => hb.type a f.type) (hb.type a) d.additional? false
    fun l ms body hbody => ?_
  refine (Gives.mapM fun b hmem => hb.reference a b (hbases b hmem)).bind_lift
    fun l' es e hes he => ?_
  exact hk.joined hbody hes he

theorem gives_definition (hi : m.inline) {below : Level ε} (hb : below.Keeps written (P b))
    (a : List Scalar) (hd : d ∈ m.catalogue.declarations) :
    Gives (P (b + 1) a) (m.definition site below a d) := by
  unfold definition
  split
  case h_1 body hbody =>
    exact Gives.lift_bind fun vs hvs => gives_enumeration fun e bs he =>
      hk.members hi hd hbody hvs he
  case h_2 body _ => exact (hb.type a body).mono fun _ _ h => hk.deeper h
  case h_3 => exact (gives_object hk hm hb a hd).mono fun _ _ h => hk.inlined hi h

theorem gives_resolve {c : Nat} {below? : Option (Level ε)}
    (hb : ∀ below, below? = some below → ∃ b, c = b + 1 ∧ below.Keeps written (P b))
    (a : List Scalar) {name : String} (hw : written name) :
    Gives (P c a) (m.resolve site known below? a name) := by
  by_cases hn : .text name ∈ known
  · by_cases ho : .text name ∈ a
    · rw [resolve_open hn ho]
      exact Gives.record_bind (Gives.pure (hk.deferred hw hn ho))
    · cases hi : m.inline with
      | false =>
        rw [resolve_named hn ho hi]
        exact Gives.record_bind (Gives.pure (hk.reference hw hn ho hi))
      | true =>
        rw [resolve_inline hn ho hi]
        refine Gives.record_bind ?_
        cases below? with
        | none => exact (gives_cutOff hk c a).mono fun _ _ h => hk.refers hi h
        | some below =>
          obtain ⟨b, rfl, hbelow⟩ := hb below rfl
          cases hd : m.catalogue.find? (.text name) with
          | none => exact Gives.fail _
          | some d =>
            refine (gives_definition hk hm hi hbelow _ (mem_of_find?_eq_some hd)).mono
              fun _ _ h => hk.refers hi (hk.close (.inl hi) h)
  · rw [resolve_undeclared hn]
    refine Gives.record_bind (Gives.pure (hk.unknown c a _ name ?_))
    simp [Event.Complains, Diagnostic.unknownReference]

theorem gives_selection {type : List Scalar → Raw → Traced ε}
    (htype : ∀ a raw, Gives (P b a) (type a raw)) {reference : String → Traced ε}
    (href : ∀ name, written name → Gives (P (b + 1) a) (reference name)) {raw : Raw}
    {kind : Container} {args : List Raw} {keys : List String}
    (hraw : m.grammar.classify m.scope raw = .ok (.container kind args keys))
    (hkind : kind.isSelection) :
    Gives (P (b + 1) a) (m.selection known type reference a kind args keys) := by
  rcases args with _ | ⟨base, rest⟩
  · exact Gives.fail _
  rcases hc : m.grammar.classify m.scope base with e | shape
  · rw [selection_failed hc]
    exact Gives.fail e
  by_cases hother : ∀ name, shape = .reference name → .text name ∉ known
  · rw [selection_other hc hother]
    exact (htype a base).mono fun _ _ h => hk.deeper h
  obtain ⟨name, rfl, hn⟩ : ∃ name, shape = .reference name ∧ .text name ∈ known := by
    simpa using hother
  by_cases hx : m.inline ∨ .text name ∈ a ∨ m.renderer.select? = none
  · rw [selection_expanded hc hn hx]
    split
    · exact href name (hm.reference hc)
    · have hown : ∀ f ∈ selectFields kind keys
          (((m.catalogue.find? (.text name)).map Declaration.fields).getD []), own f := by
        intro f hf
        obtain ⟨g, hg, optional, rfl⟩ := Field.exists_of_mem_selectFields hf
        cases hd : m.catalogue.find? (.text name) with
        | none => simp [hd] at hg
        | some d =>
          rw [hd] at hg
          exact hm.selected g optional ((hm.declared d (mem_of_find?_eq_some hd)).1 g hg)
      refine (gives_mapFields (fun f => htype _ f.type) _).bind_lift fun l ms e hms he => ?_
      have hnone : Additional.Holds (P b (.text name :: a)) [] none := rfl
      have hobject := hk.object (forall_own hms.1 hown) hms.2 hnone he
      rw [append_nil] at hobject
      exact hk.close hx hobject
  · simp only [not_or, Bool.not_eq_true] at hx
    obtain ⟨select, hs⟩ := Option.ne_none_iff_exists'.mp hx.2.2
    rw [selection_selected hc hn hx.2.1 hx.1 hs]
    refine Gives.record_bind (Gives.lift fun e he => ?_)
    exact hk.select hraw hkind (hm.reference hc) hn hx.2.1 hx.1 hs he

theorem gives_shape {type : List Scalar → Raw → Traced ε}
    (htype : ∀ a raw, Gives (P b a) (type a raw)) {reference : String → Traced ε}
    (href : ∀ name, written name → Gives (P (b + 1) a) (reference name)) {raw : Raw} {s : Shape}
    (hs : m.grammar.classify m.scope raw = .ok s) :
    Gives (P (b + 1) a) (m.shape site known type reference a s) := by
  have hall (raws : List Raw) : Gives (Each (P b a)) (raws.mapM (type a)) :=
    Gives.mapM fun raw _ => htype a raw
  have hchecked {vs : List Value} {x : Traced ε}
      (hx : rangeShown vs → Gives (fun l => P (b + 1) a ((checkRange site vs).log ++ l)) x) :
      Gives (P (b + 1) a) (checkRange site vs >>= fun _ => x) :=
    (gives_checkRange site vs).bind fun _ _ h => h.1 ▸ hx h.2
  cases s with
  | primitive p cs => exact Gives.lift fun e he => hk.primitive hs he
  | literal v =>
    refine hchecked fun hshown => Gives.lift fun e he => ?_
    rw [append_nil]
    exact hk.literal hs hshown he
  | enumeration vs =>
    exact hchecked fun hshown =>
      gives_enumeration fun e bs he => hk.enumeration (.inl ⟨raw, hs⟩) hshown he
  | array element cs => exact (htype a element).bind_lift fun l x e hx he => hk.array hs hx he
  | tuple elements => exact (hall elements).bind_lift fun l es e hes he => hk.tuple hes he
  | union members =>
    refine (hall members).bind fun l es hes => ?_
    split
    · obtain _ | ⟨hhead, hnil⟩ := hes
      cases hnil
      exact Gives.pure (by simpa using hk.deeper hhead)
    · refine Gives.lift fun e he => ?_
      rw [append_nil]
      exact hk.union hes he
  | intersection members =>
    exact (hall members).bind_lift fun l es e hes he => hk.intersection hes he
  | nullable inner => exact (htype a inner).bind_lift fun l x e hx he => hk.nullable hx he
  | optional inner => exact (htype a inner).bind_lift fun l x e hx he => hk.optional hx he
  | container kind args keys =>
    have hplain : Gives (P (b + 1) a) (do
        Logged.lift (m.renderer.container kind (← args.mapM (type a)))) :=
      (hall args).bind_lift fun l es e hes he => hk.container hes he
    have hselection := gives_selection hk hm htype href hs
    cases kind with
    | readonly =>
      cases args with
      | nil => exact Gives.fail _
      | cons inner rest => exact (htype a inner).mono fun _ _ h => hk.deeper h
    | pick | without | partially | required => exact hselection rfl
    | set | map | record | promise | other name => exact hplain
  | object fields additional =>
    refine (gives_mapFields (fun f => htype a f.type) fields).bind fun l ms hms => ?_
    refine (gives_mapAdditional (htype a) additional).bind_lift fun l' x e hx he => ?_
    exact hk.object (forall_own hms.1 (hm.fields hs)) hms.2 hx he
  | reference name => exact href name (hm.reference hs)
  | unknown text =>
    simp only [Mapping.shape]
    split
    · refine Gives.record_bind (Gives.pure (hk.unknown _ a _ text ?_))
      simp [Event.Complains, Diagnostic.unsupportedConstruct]
    · exact Gives.pure (hk.unknown _ a _ text (by simp))

/-- The step from one level to the next keeps the property, and so does every number of levels. -/
theorem level_keeps (b : Nat) : (m.level site known b).Keeps written (P b) := by
  induction b with
  | zero =>
    refine ⟨fun a _ => gives_cutOff hk 0 a, fun a name hw => ?_⟩
    change Gives (P 0 a) (m.resolve site known none a name)
    exact gives_resolve hk hm (by simp) a hw
  | succ b ih =>
    have href (a : List Scalar) (name : String) (hw : written name) :
        Gives (P (b + 1) a) (m.mapReference site known (b + 1) a name) := by
      rw [mapReference_succ]
      refine gives_resolve hk hm (fun below hbelow => ?_) a hw
      split at hbelow
      · cases hbelow
      · cases hbelow
        exact ⟨b, rfl, ih⟩
    refine ⟨fun a raw => ?_, href⟩
    change Gives (P (b + 1) a) (m.mapType site known (b + 1) a raw)
    rw [mapType_succ]
    exact Gives.lift_bind fun s hs => gives_shape hk hm ih.type (href a) hs

end Level

/-- After turning to a declaration, the whole has the property that is kept everywhere in it. -/
theorem gives_declaration (hm : m.Within own written)
    (hk : ∀ field, m.Keeps own written m.catalogue.names ⟨d.name, field⟩ P J)
    (hfields : ∀ f ∈ d.fields, own f) (hbases : ∀ b ∈ d.bases, written b) (b : Nat)
    (pending : List Scalar) :
    Gives (fun l md => ∃ l', l = .enterDeclaration d.name :: l' ∧
      J (b + 1) (d.name :: pending) l' md.expression) (m.declaration b pending d) := by
  have hlevel (field : Scalar) := level_keeps (hk field) hm b
  have hstart := hk (.text "")
  refine Gives.record_bind ?_
  suffices h :
      Gives (fun l (md : MappedDeclaration ε) => J (b + 1) (d.name :: pending) l md.expression)
      _ from h.mono fun l md hmd => ⟨l, rfl, hmd⟩
  split
  case h_1 body _ =>
    refine Gives.lift_bind fun vs hvs => ?_
    refine (gives_checkRange ⟨d.name, .text ""⟩ vs).bind fun l _ hl => ?_
    refine Gives.bind_pure (gives_enumeration fun e bs he => ?_) fun _ _ h => h
    exact hl.1 ▸ hstart.whole (hstart.enumeration (.inr ⟨body, hvs⟩) hl.2 he)
  case h_2 body _ =>
    refine ((hlevel _).type _ body).bind_pure fun _ _ h => ?_
    exact hstart.whole (hstart.deeper h)
  case h_3 fields hbody =>
    have hown : ∀ f ∈ fields, own f := by
      simpa [Declaration.fields, hbody] using hfields
    refine gives_body hstart hown (fun f => Gives.record_bind ?_) ((hlevel _).type _)
      d.additional? true fun l ms body hbody => ?_
    · exact ((hlevel f.key).type _ f.type).mono fun _ _ h => hstart.moved h
    · refine (Gives.mapM fun b hb => (hlevel _).reference _ b (hbases b hb)).bind
        fun l' es hes => Gives.lift_bind fun e he => Gives.pure ?_
      rw [append_nil]
      exact hstart.joined hbody hes he

end Mapping

end Crosswalk
