import Crosswalk.Proofs.DepthLimit

/-!
When mapping a type fails. A computation is decided by a proposition if it succeeds exactly where
that holds; a renderer is decided by what its target demands of a shape. Main statement: mapping a
type fails exactly if mapping comes to a task that is faulty in itself.
-/

namespace Crosswalk

open List
open Shape (deeper parts)

variable {ε α β : Type}

/-! ### Decided computations -/

namespace Logged

variable {ω : Type}

theorem result_bind (x : Logged ω α) (g : α → Logged ω β) :
    (x >>= g).result = x.result >>= fun a => (g a).result := by
  obtain ⟨r, l⟩ := x
  cases r <;> rfl

end Logged

/-- The computation succeeds exactly if `p`, and then what it gives satisfies `P`. -/
def Decides (p : Prop) (P : α → Prop) : Except Fault α → Prop
  | .ok a => p ∧ P a
  | .error _ => ¬p

namespace Decides

variable {p q : Prop} {P : α → Prop} {Q : β → Prop} {x : Except Fault α}

theorem ok {a : α} (h : P a) : Decides True P (.ok a) := ⟨trivial, h⟩

theorem done {a : α} : Decides True (fun _ => True) (.ok a) := ok trivial

theorem error {f : Fault} : Decides False P (.error f) := id

theorem of_iff (h : Decides p P x) (hpq : p ↔ q) : Decides q P x := by
  rwa [← propext hpq]

theorem error_iff (h : Decides p P x) : (∃ f, x = .error f) ↔ ¬p := by
  cases x with
  | ok a => simp [h.1]
  | error f => exact ⟨fun _ => h, fun _ => ⟨f, rfl⟩⟩

theorem exists_iff (h : Decides p P x) : (∃ a, x = .ok a) ↔ p := by
  cases x with
  | ok a => simp [h.1]
  | error f =>
    have hnot : ¬p := h
    simp [hnot]

theorem of_exists (h : Decides p P x) : Decides (∃ a, x = .ok a) P x := h.of_iff h.exists_iff.symm

theorem result (h : Decides p P x) : Decides p (fun a => P a ∧ x = .ok a) x := by
  cases x with
  | ok a => exact ⟨h.1, h.2, rfl⟩
  | error f => exact h

theorem of_ok {a : α} (h : Decides p P x) (ha : x = .ok a) : P a := by
  rw [ha] at h
  exact h.2

theorem map (h : Decides p P x) {g : α → β} (hg : ∀ a, P a → Q (g a)) : Decides p Q (x.map g) := by
  cases x with
  | ok a => exact ⟨h.1, hg a h.2⟩
  | error f => exact h

theorem bind {g : α → Except Fault β} (hx : Decides p P x) (hg : ∀ a, P a → Decides q Q (g a)) :
    Decides (p ∧ q) Q (x >>= g) := by
  cases x with
  | error f => exact fun h => hx h.1
  | ok a =>
    refine (hg a hx.2).of_iff ?_
    simp [hx.1]

/-- What is done after does not fail. -/
theorem bindTotal {g : α → Except Fault β} (hx : Decides p P x)
    (hg : ∀ a, P a → Decides True Q (g a)) : Decides p Q (x >>= g) :=
  (hx.bind hg).of_iff (by simp)

/-- Of each element of a list; the results are as many as the elements. -/
theorem mapM {f : α → Except Fault β} {as : List α} {p : α → Prop}
    (h : ∀ a ∈ as, Decides (p a) Q (f a)) :
    Decides (∀ a ∈ as, p a) (fun bs => bs.length = as.length ∧ ∀ b ∈ bs, Q b) (as.mapM f) := by
  induction as with
  | nil => exact (ok ⟨rfl, by simp⟩).of_iff (by simp)
  | cons a as ih =>
    obtain ⟨ha, has⟩ := forall_mem_cons.mp h
    rw [mapM_cons]
    refine (ha.bind fun b hb => (ih has).map fun bs hbs => ?_).of_iff forall_mem_cons.symm
    exact ⟨by simp [hbs.1], forall_mem_cons.mpr ⟨hb, hbs.2⟩⟩

section Logged

variable {ω : Type} {y : Logged ω α}

theorem pure {a : α} (h : P a) : Decides True P (Pure.pure a : Logged ω α).result := ok h

theorem bindLogged {g : α → Logged ω β} (hy : Decides p P y.result)
    (hg : ∀ a, P a → Decides q Q (g a).result) : Decides (p ∧ q) Q (y >>= g).result := by
  rw [Logged.result_bind]
  exact hy.bind hg

/-- What is done before does not fail. -/
theorem after {y : Logged ω Unit} (hy : y.result = .ok ()) {g : Unit → Logged ω β}
    (hg : Decides q Q (g ()).result) : Decides q Q (y >>= g).result := by
  rw [Logged.result_bind, hy]
  exact hg

theorem mapMLogged {f : α → Logged ω β} {as : List α} {p : α → Prop}
    (h : ∀ a ∈ as, Decides (p a) Q (f a).result) :
    Decides (∀ a ∈ as, p a) (fun bs => bs.length = as.length ∧ ∀ b ∈ bs, Q b)
      (as.mapM f).result := by
  rw [Logged.result_mapM]
  exact mapM h

end Logged

end Decides

/-! ### Demands of a target -/

/-- What the shape has to be like so that a target can write it, its parts apart. -/
structure Demands (ε : Type) where
  /-- Of a constraint on a primitive or an array. -/
  constraint : Constraint → Bool
  literal : Value → Bool
  enumeration : Site → List Value → Bool
  /-- A union may have no members. -/
  emptyUnion : Bool
  /-- A container can do without arguments. -/
  bare : Container → Bool
  /-- Of the fields of an object, and of what it allows besides them. -/
  object : List Field → Option (Additional Unit) → Bool
  /-- Of the key of a field and what its type is mapped to. -/
  member : Scalar → ε → Bool := fun _ _ => true

/-- What an object allows besides its fields, without the type. -/
def Additional.kind {α : Type} (a : Option (Additional α)) : Option (Additional Unit) :=
  a.map (Additional.map fun _ => ())

/-- A shape that a target can write once it has written its parts. Integers out of the safe range
are reported, so they need a text for every target. -/
def Demands.shape (D : Demands ε) (site : Site) : Shape → Bool
  | .primitive _ cs | .array _ cs => cs.all D.constraint
  | .literal v => Mapping.rangeShown [v] && D.literal v
  | .enumeration vs => Mapping.rangeShown vs && D.enumeration site vs
  | .union ms => !ms.isEmpty || D.emptyUnion
  | .intersection ms => !ms.isEmpty
  | .container kind args _ =>
    !args.isEmpty || kind != .readonly && !kind.isSelection && D.bare kind
  | .object fields additional => D.object fields (Additional.kind additional)
  | _ => true

/-- A field whose type is mapped to what cannot stand under its key. -/
def Demands.Unplaced (D : Demands ε) (type : Raw → Mapping.Traced ε) (fields : List Field) : Prop :=
  ∃ f ∈ fields, ∃ e, (type f.type).result = .ok e ∧ D.member f.key e = false

theorem Demands.not_unplaced_nil (D : Demands ε) (type : Raw → Mapping.Traced ε) :
    ¬D.Unplaced type [] := by
  simp [Unplaced]

def Shape.fields : Shape → List Field
  | .object fields _ => fields
  | _ => []

/-- Descriptions among constraints are text. -/
def Described (cs : List Constraint) : Prop :=
  ∀ c ∈ cs, c.limit = .description → Literal.isTextValue c.value = true

/-- Every description among the constraints of a shape is text. -/
def Shape.Described : Shape → Prop
  | .primitive _ cs | .array _ cs => Crosswalk.Described cs
  | _ => True

/-- The type of further keys satisfies `P`. -/
def Additional.All {α : Type} (P : α → Prop) : Option (Additional α) → Prop
  | some (.typed a) => P a
  | _ => True

/-- A renderer that writes exactly what meets the demands, with parts that satisfy `P`. What is not
given holds of every expression. -/
structure Renderer.Decided (D : Demands ε) (P : ε → Prop) (r : Renderer ε) : Prop where
  unknown : ∀ t, P (r.unknown t) := by exact fun _ => trivial
  primitive : ∀ p cs, Described cs → Decides (∀ c ∈ cs, D.constraint c = true) P (r.primitive p cs)
  literal : ∀ v, Decides (D.literal v = true) P (r.literal v)
  enumeration : ∀ site vs,
    Decides (D.enumeration site vs = true) (fun x => P x.1) (r.enumeration site vs)
  array : ∀ e cs, P e → Described cs → Decides (∀ c ∈ cs, D.constraint c = true) P (r.array e cs)
  tuple : ∀ es, (∀ e ∈ es, P e) → Decides True P (r.tuple es) := by exact fun _ _ => .done
  union : ∀ es, (∀ e ∈ es, P e) → Decides (es = [] → D.emptyUnion = true) P (r.union es)
  intersect : ∀ a b, P a → P b → Decides True P (r.intersect a b) := by exact fun _ _ _ _ => .done
  nullable : ∀ e, P e → Decides True P (r.nullable e) := by exact fun _ _ => .done
  optional : ∀ e, P e → Decides True P (r.optional e) := by exact fun _ _ => .done
  container : ∀ k es, (∀ e ∈ es, P e) → Decides (es = [] → D.bare k = true) P (r.container k es)
  select : ∀ g, r.select? = some g → ∀ k n keys, Decides True P (g k n keys)
  object : ∀ ms a, (∀ m ∈ ms, P m.expression) → Additional.All P a →
    Decides (D.object (ms.map MappedField.field) (Additional.kind a) = true ∧
      ∀ m ∈ ms, D.member m.field.key m.expression = true) P (r.object ms a false)
  reference : ∀ n, P (r.reference n) := by exact fun _ => trivial
  deferred : ∀ n, P (r.deferred n) := by exact fun _ => trivial

/-! ### Faulty tasks -/

namespace Mapping

/-- A selection whose base cannot be classified, or whose fields cannot be written. -/
def FaultySelection (m : Mapping ε) (D : Demands ε) (type : List Scalar → Raw → Traced ε)
    (known a : List Scalar) : Shape → Prop
  | .container kind (base :: _) keys =>
    kind.isSelection = true ∧
      match m.grammar.classify m.scope base with
      | .error _ => True
      | .ok (.reference n) =>
        .text n ∈ known ∧ m.Unfolds a n ∧ m.catalogue.isObject (.text n) = true ∧
          (D.object (m.selected kind keys n) none = false ∨
            D.Unplaced (type (.text n :: a)) (m.selected kind keys n))
      | .ok _ => False
  | _ => False

/-- A task that fails of itself, with what is left of the budget: whatever becomes of those it turns
to, or because of what a field is mapped to. -/
def Faulty (m : Mapping ε) (D : Demands ε) (site : Site) (known : List Scalar) (left : Nat) :
    Task → Prop
  | .type a raw =>
    match m.grammar.classify m.scope raw with
    | .error _ => True
    | .ok s =>
      D.shape site s = false ∨ D.Unplaced (m.mapType site known (left - 1) a) s.fields ∨
        m.FaultySelection D (m.mapType site known (left - 1)) known a s
  | .reference _ _ => False
  | .expansion a d =>
    match d.body with
    | .enumeration body =>
      match m.grammar.enumValues body with
      | .error _ => True
      | .ok vs => D.enumeration site vs = false
    | .synonym _ => False
    | .object fields =>
      D.object fields (Additional.kind d.additional?) = false ∨
        D.Unplaced (m.mapType site known left a) fields

/-- Within the budget, mapping comes to a faulty task. -/
def Fails (m : Mapping ε) (D : Demands ε) (site : Site) (known : List Scalar) :
    Task → Nat → Prop :=
  m.Meets known fun u left => 0 < left ∧ m.Faulty D site known left u

section Decided

variable {m : Mapping ε} {D : Demands ε} {P : ε → Prop} {site : Site} {known a : List Scalar}

variable {b : Nat} {T : Raw → Prop} {s : Shape} {raw : Raw}

/-- The fields, each with what its type is mapped to. -/
def Mapped (P : ε → Prop) (type : Raw → Traced ε) (fs : List Field) (ms : List (MappedField ε)) :
    Prop :=
  ms.map MappedField.field = fs ∧
    ∀ m ∈ ms, P m.expression ∧ (type m.field.type).result = .ok m.expression

section Parts

variable {type : Raw → Traced ε} (h : ∀ p, Decides (T p) P (type p).result)
include h

theorem decides_mapFields (fs : List Field) :
    Decides (∀ p ∈ Field.typesAll fs, T p) (Mapped P type fs)
      (mapFields (fun f => type f.type) fs).result := by
  induction fs using Field.induction with
  | nil => exact (Decides.ok ⟨rfl, by simp⟩).of_iff (by simp [Field.typesAll])
  | cons f fs harguments hfs =>
    rw [Field.typesAll_cons, mapFields_cons]
    refine ((h f.type).result.bindLogged fun e he => harguments.bindLogged fun _ _ =>
      hfs.bindLogged fun ms hms => .ok ?_).of_iff ?_
    · exact ⟨by simp [hms.1], forall_mem_cons.mpr ⟨he, hms.2⟩⟩
    · simp [or_imp, forall_and]

theorem decides_mapAdditional :
    ∀ extra, Decides (∀ p ∈ Additional.types extra, T p)
      (fun x => Additional.kind x = Additional.kind extra ∧ Additional.All P x)
      (mapAdditional type extra).result
  | none | some .anything | some .nothing =>
    (Decides.ok ⟨rfl, trivial⟩).of_iff (by simp [Additional.types])
  | some (.typed raw) =>
    ((h raw).bindLogged fun e he => .ok ⟨rfl, he⟩).of_iff (by simp [Additional.types])

end Parts

theorem result_forM {α : Type} {g : α → Traced Unit} (hg : ∀ a, (g a).result = .ok ())
    (as : List α) :
    (as.forM g).result = .ok () := by
  induction as with
  | nil => rfl
  | cons a as ih =>
    change (g a >>= fun _ => as.forM g).result = _
    rw [Logged.result_bind, hg]
    exact ih

theorem decides_checkRange (vs : List Value) :
    Decides (rangeShown vs = true) (fun _ => True) (checkRange site vs).result := by
  rw [checkRange_eq]
  dsimp only
  split
  · exact ⟨‹_›, trivial⟩
  · exact ‹_›

theorem not_fails_zero (t : Task) : ¬m.Fails D site known t 0 := by
  rintro ⟨os, n, u, _, hleft, _⟩
  omega

theorem fails_expansion {d : Declaration} :
    m.Fails D site known (.expansion a d) b ↔ (0 < b ∧ m.Faulty D site known b (.expansion a d)) ∨
      (∃ p ∈ d.types, m.Fails D site known (.type a p) b) ∨
        d.isObject ∧ ∃ base ∈ d.bases, m.Fails D site known (.reference a base) b :=
  meets_expansion

theorem fails_reference {n : String} :
    m.Fails D site known (.reference a n) b ↔
      (m.inline ∧ .text n ∈ known ∧ .text n ∉ a) ∧
        ∃ d, m.catalogue.find? (.text n) = some d ∧
          m.Fails D site known (.expansion (.text n :: a) d) (b - 1) :=
  meets_reference.trans (or_iff_right fun h => h.2)

theorem isSelection_of_faultySelection {type : List Scalar → Raw → Traced ε}
    (h : m.FaultySelection D type known a s) :
    s.isSelection := by
  unfold FaultySelection at h
  split at h
  · exact h.1
  · cases h

theorem faulty_type (hc : m.grammar.classify m.scope raw = .ok s) :
    m.Faulty D site known b (.type a raw) ↔
      D.shape site s = false ∨ D.Unplaced (m.mapType site known (b - 1) a) s.fields ∨
        m.FaultySelection D (m.mapType site known (b - 1)) known a s := by
  simp only [Faulty, hc]

theorem fails_name {n : String} (hc : m.grammar.classify m.scope raw = .ok (.reference n)) :
    m.Fails D site known (.type a raw) b ↔ m.Fails D site known (.reference a n) b := by
  refine (meets_name hc).trans (or_iff_right ?_)
  rintro ⟨_, hfaulty⟩
  rcases (faulty_type hc).mp hfaulty with h | h | h
  · cases h
  · exact D.not_unplaced_nil _ h
  · cases isSelection_of_faultySelection h

theorem fails_parts (hc : m.grammar.classify m.scope raw = .ok s) (hname : ∀ n, s ≠ .reference n)
    (hsel : s.isSelection = false) :
    m.Fails D site known (.type a raw) (b + 1) ↔
      (D.shape site s = false ∨ D.Unplaced (m.mapType site known b a) s.fields) ∨
        ∃ p ∈ s.deeper, m.Fails D site known (.type a p) b := by
  refine (meets_parts hc hname hsel).trans (or_congr_left ?_)
  have hsound : ¬m.FaultySelection D (m.mapType site known b) known a s := fun h =>
    Bool.false_ne_true (hsel.symm.trans (isSelection_of_faultySelection h))
  rw [faulty_type hc, Nat.add_sub_cancel]
  simp [hsound]

theorem fails_selection {kind : Container} {args : List Raw} {keys : List String}
    (hk : kind.isSelection)
    (hc : m.grammar.classify m.scope raw = .ok (.container kind args keys)) :
    m.Fails D site known (.type a raw) (b + 1) ↔
      (args = [] ∨ m.FaultySelection D (m.mapType site known b) known a
          (.container kind args keys)) ∨
        m.Selecting known a kind args keys (fun a p => m.Fails D site known (.type a p) b)
          fun n => m.Fails D site known (.reference a n) (b + 1) := by
  refine (meets_selection hk hc).trans (or_congr_left ?_)
  have hempty : D.shape site (.container kind args keys) = false ↔ args = [] := by
    cases args <;> simp [Demands.shape, hk]
  rw [faulty_type hc, hempty, Nat.add_sub_cancel]
  simp [Shape.fields, Demands.not_unplaced_nil]

/-- Shapes with constraints that describe by text only. -/
def DescribesByText (m : Mapping ε) : Prop :=
  ∀ raw s, m.grammar.classify m.scope raw = .ok s → s.Described

variable (hr : m.renderer.Decided D P)
include hr

theorem decides_foldlM_intersect {es : List ε} (hes : ∀ e ∈ es, P e) {e : ε} (he : P e) :
    Decides True P (es.foldlM m.renderer.intersect e) := by
  induction es generalizing e with
  | nil => exact .ok he
  | cons e' es ih =>
    obtain ⟨he', hes⟩ := forall_mem_cons.mp hes
    rw [foldlM_cons]
    exact ((hr.intersect e e' he he').bind fun _ hjoined => ih hes hjoined).of_iff (by simp)

theorem decides_intersectAll {es : List ε} (hes : ∀ e ∈ es, P e) :
    Decides (es ≠ []) P (m.intersectAll es) := by
  cases es with
  | nil => exact Decides.error.of_iff (by simp)
  | cons e es =>
    obtain ⟨he, hes⟩ := forall_mem_cons.mp hes
    exact (decides_foldlM_intersect hr hes he).of_iff (by simp)

theorem decides_enumeration (vs : List Value) :
    Decides (D.enumeration site vs) P (m.enumeration site vs).result := by
  have hlift : Decides (D.enumeration site vs) (fun x => P x.1)
      (Logged.lift (m.renderer.enumeration site vs) : Traced (ε × List Block)).result :=
    hr.enumeration site vs
  refine (hlift.bindLogged fun x hx => ?_).of_iff (p := _ ∧ True) (by simp)
  exact .after (result_forM (fun _ => rfl) x.2) (.pure hx)

/-- Mapped fields are written exactly if the object meets the demands, and each field can stand with
what it is mapped to. -/
theorem decides_members {type : Raw → Traced ε} {fields : List Field} {ms : List (MappedField ε)}
    (hms : Mapped P type fields ms) (extra : Option (Additional ε))
    {kind : Option (Additional Unit)} (hkind : Additional.kind extra = kind)
    (hextra : Additional.All P extra) :
    Decides (D.object fields kind ∧ ¬D.Unplaced type fields) P
      (m.renderer.object ms extra false) := by
  obtain ⟨rfl, hmapped⟩ := hms
  subst hkind
  refine (hr.object ms extra (fun f hf => (hmapped f hf).1) hextra).of_iff (and_congr_right' ?_)
  simp only [Demands.Unplaced, mem_map, exists_exists_and_eq_and, not_exists, not_and,
    Bool.not_eq_false]
  constructor
  · intro h f hf e he
    rw [(hmapped f hf).2] at he
    exact Except.ok.inj he ▸ h f hf
  · intro h f hf
    exact h f hf _ (hmapped f hf).2

/-- A shape that is no selection and no name is written exactly if it meets the demands, its fields
can stand with what they are mapped to, and its parts are written. -/
theorem decides_shape {type : List Scalar → Raw → Traced ε} {reference : String → Traced ε}
    (htype : ∀ p, Decides (T p) P (type a p).result) (hs : s.Described)
    (hname : ∀ n, s ≠ .reference n) (hsel : s.isSelection = false) :
    Decides ((D.shape site s ∧ ¬D.Unplaced (type a) s.fields) ∧ ∀ p ∈ s.deeper, T p) P
      (m.shape site known type reference a s).result := by
  have hnone := D.not_unplaced_nil (type a)
  cases s with
  | primitive p cs =>
    refine (hr.primitive p cs hs).of_iff ?_
    simp [Demands.shape, deeper, parts, Shape.fields, hnone]
  | literal v =>
    refine ((decides_checkRange [v]).bindLogged fun _ _ => hr.literal v).of_iff ?_
    simp [Demands.shape, deeper, parts, Shape.fields, hnone]
  | enumeration vs =>
    refine ((decides_checkRange vs).bindLogged fun _ _ => decides_enumeration hr vs).of_iff ?_
    simp [Demands.shape, deeper, parts, Shape.fields, hnone]
  | array element cs =>
    refine ((htype element).bindLogged fun e he => hr.array e cs he hs).of_iff ?_
    simp [Demands.shape, deeper, parts, Shape.fields, hnone, and_comm]
  | tuple elements =>
    refine ((Decides.mapMLogged fun p _ => htype p).bindLogged fun es hes =>
      hr.tuple es hes.2).of_iff ?_
    simp [Demands.shape, deeper, parts, Shape.fields, hnone]
  | union members =>
    refine ((Decides.mapMLogged fun p _ => htype p).bindLogged fun es hes => ?_).of_iff
      (p := (∀ p ∈ members, T p) ∧ (members = [] → D.emptyUnion)) ?_
    · obtain ⟨hlength, hes⟩ := hes
      have hempty : es = [] ↔ members = [] := by
        rw [← length_eq_zero_iff, hlength, length_eq_zero_iff]
      rw [← hempty]
      split
      · exact (Decides.pure (hes _ mem_cons_self)).of_iff (by simp)
      · exact hr.union es hes
    · cases members <;>
        simp [Demands.shape, deeper, parts, Shape.fields, hnone, and_comm]
  | intersection members =>
    refine ((Decides.mapMLogged fun p _ => htype p).bindLogged fun es hes =>
      (decides_intersectAll hr hes.2).of_iff (q := members ≠ []) ?_).of_iff ?_
    · rw [← length_pos_iff, hes.1, length_pos_iff]
    · simp [Demands.shape, deeper, parts, Shape.fields, hnone, and_comm]
  | nullable inner =>
    refine ((htype inner).bindLogged fun e he => hr.nullable e he).of_iff ?_
    simp [Demands.shape, deeper, parts, Shape.fields, hnone]
  | optional inner =>
    refine ((htype inner).bindLogged fun e he => hr.optional e he).of_iff ?_
    simp [Demands.shape, deeper, parts, Shape.fields, hnone]
  | container kind args keys =>
    by_cases hk : kind = .readonly
    · subst hk
      cases args with
      | nil => exact Decides.error.of_iff (by simp [Demands.shape])
      | cons inner rest =>
        refine (htype inner).of_iff ?_
        simp [Demands.shape, deeper, Shape.fields, hnone]
    · have hshape : m.shape site known type reference a (.container kind args keys) = (do
          Logged.lift (m.renderer.container kind (← args.mapM (type a)))) := by
        cases kind <;> first | rfl | exact absurd rfl hk | cases hsel
      rw [hshape]
      refine ((Decides.mapMLogged fun p _ => htype p).bindLogged fun es hes => ?_).of_iff
        (p := (∀ p ∈ args, T p) ∧ (args = [] → D.bare kind)) ?_
      · have hempty : es = [] ↔ args = [] := by
          rw [← length_eq_zero_iff, hes.1, length_eq_zero_iff]
        rw [← hempty]
        exact hr.container kind es hes.2
      · have hdeeper : (Shape.container kind args keys).deeper = args := by
          cases kind <;> first | rfl | exact absurd rfl hk | cases hsel
        rw [hdeeper]
        have hplain : kind.isSelection = false := hsel
        cases args <;> simp [Demands.shape, Shape.fields, hnone, hk, hplain, and_comm]
  | object fields additional =>
    refine ((decides_mapFields htype fields).bindLogged fun ms hms =>
      (decides_mapAdditional htype additional).bindLogged fun extra hextra =>
        decides_members hr hms extra hextra.1 hextra.2).of_iff ?_
    simp only [Demands.shape, deeper, parts, Shape.fields, forall_mem_append]
    tauto
  | reference name => exact absurd rfl (hname name)
  | unknown text =>
    refine Decides.of_iff (p := True) ?_
      (by simp [Demands.shape, deeper, parts, Shape.fields, hnone])
    simp only [shape]
    split
    · exact Decides.after rfl (.pure (hr.unknown text))
    · exact .pure (hr.unknown text)

/-- A selection is written exactly if it is not faulty and what it turns to is written. -/
theorem decides_selection {type : List Scalar → Raw → Traced ε} {reference : String → Traced ε}
    {T : List Scalar → Raw → Prop} {R : String → Prop}
    (htype : ∀ a p, Decides (¬T a p) P (type a p).result)
    (hreference : ∀ n, Decides (¬R n) P (reference n).result) {kind : Container}
    (hk : kind.isSelection) (args : List Raw) (keys : List String) :
    Decides
      (args ≠ [] ∧ ¬m.FaultySelection D type known a (.container kind args keys) ∧
        ¬m.Selecting known a kind args keys T R) P
      (m.selection known type reference a kind args keys).result := by
  rcases args with _ | ⟨base, rest⟩
  · exact Decides.error.of_iff (by simp)
  rcases hc : m.grammar.classify m.scope base with e | s
  · rw [selection_failed hc]
    exact Decides.error.of_iff (by simp [FaultySelection, hc, hk])
  -- The three ways of a selection: its base is mapped, its fields are expanded, or it is written.
  by_cases hother : ∀ n, s = .reference n → .text n ∉ known
  · have hsound : ¬m.FaultySelection D type known a (.container kind (base :: rest) keys) := by
      simp only [FaultySelection, hc]
      rintro ⟨_, hfaulty⟩
      split at hfaulty
      · rename_i h; cases h
      · rename_i h; cases h; exact hother _ rfl hfaulty.1
      · exact hfaulty
    rw [selection_other hc hother]
    exact (htype a base).of_iff (by simp [hsound, selecting_other hc hother])
  obtain ⟨n, rfl, hn⟩ : ∃ n, s = .reference n ∧ .text n ∈ known := by simpa using hother
  by_cases hu : m.Unfolds a n
  · rw [selection_expanded hc hn hu]
    cases ho : m.catalogue.isObject (.text n) with
    | false =>
      refine (hreference n).of_iff ?_
      simp [FaultySelection, hc, ho, selecting_declared hc hn, hu]
    | true =>
      refine ((decides_mapFields (htype (.text n :: a)) (m.selected kind keys n)).bindLogged
        fun ms hms => decides_members hr hms none rfl trivial).of_iff ?_
      simp [FaultySelection, hc, hk, hn, ho, selecting_declared hc hn, hu, Additional.kind,
        and_comm]
  · obtain ⟨hi, ha, hs⟩ : m.inline = false ∧ .text n ∉ a ∧ m.renderer.select? ≠ none := by
      simpa [Unfolds, not_or] using hu
    obtain ⟨select, hselect⟩ := Option.ne_none_iff_exists'.mp hs
    rw [selection_selected hc hn ha hi hselect]
    refine (Decides.after rfl (hr.select select hselect kind n keys)).of_iff ?_
    simp [FaultySelection, hc, selecting_declared hc hn, hu]

/-- A declaration is expanded exactly if nothing in it fails. -/
theorem decides_definition {l : Level ε} (hb : 0 < b) (hl : l.type = m.mapType site known b)
    (htype : ∀ a p, Decides (¬m.Fails D site known (.type a p) b) P (l.type a p).result)
    (hreference : ∀ a n,
      Decides (¬m.Fails D site known (.reference a n) b) P (l.reference a n).result)
    (d : Declaration) :
    Decides (¬m.Fails D site known (.expansion a d) b) P (m.definition site l a d).result := by
  unfold definition
  cases hbody : d.body with
  | enumeration body =>
    dsimp only
    cases hvalues : m.grammar.enumValues body with
    | error e =>
      refine Decides.of_iff (p := False) id ?_
      simp [fails_expansion, Faulty, hbody, hvalues, hb]
    | ok vs =>
      rw [Logged.lift_ok, pure_bind]
      refine (decides_enumeration hr vs).of_iff ?_
      simp [fails_expansion, Faulty, Declaration.types, Declaration.isObject, hbody, hvalues, hb]
  | synonym body =>
    refine (htype a body).of_iff ?_
    simp [fails_expansion, Faulty, Declaration.types, Declaration.isObject, hbody]
  | object fields =>
    have hown : d.fields = fields := by simp [Declaration.fields, hbody]
    have hbases := Decides.mapMLogged (p := fun n => ¬m.Fails D site known (.reference a n) b)
      fun n (_ : n ∈ d.bases) => hreference a n
    have hmembers {ms : List (MappedField ε)} (hms : Mapped P (l.type a) d.fields ms)
        {extra : Option (Additional ε)}
        (hextra : Additional.kind extra = Additional.kind d.additional? ∧ Additional.All P extra) :
        Decides (D.object d.fields (Additional.kind d.additional?) ∧
          ¬D.Unplaced (l.type a) d.fields)
          P (Logged.lift (m.renderer.object ms extra false) : Traced ε).result :=
      decides_members hr hms extra hextra.1 hextra.2
    refine ((decides_mapFields (htype a) d.fields).bindLogged fun ms hms =>
      (decides_mapAdditional (htype a) d.additional?).bindLogged fun extra hextra =>
        (hmembers hms hextra).bindLogged fun body hbody => hbases.bindLogged fun bases hbases =>
          Decides.of_iff (p := bases ++ [body] ≠ []) (q := True) ?_ (by simp)).of_iff ?_
    · refine decides_intersectAll hr fun e he => ?_
      rcases mem_append.mp he with he | he
      · exact hbases.2 e he
      · exact mem_singleton.mp he ▸ hbody
    · simp only [fails_expansion, Faulty, Declaration.types, Declaration.isObject, hbody, hown, hb,
        ← hl, mem_append, or_and_right, exists_or, not_or, not_exists, not_and, true_and,
        Bool.not_eq_false]
      tauto

/-- A name is written unless it is expanded and that fails. -/
theorem decides_resolve (hknown : ∀ n ∈ known, n ∈ m.catalogue.names) {below? : Option (Level ε)}
    (hnone : below? = none → b - 1 = 0)
    (hbelow : ∀ l, below? = some l → ∀ a d,
      Decides (¬m.Fails D site known (.expansion a d) (b - 1)) P (m.definition site l a d).result)
    (n : String) :
    Decides (¬m.Fails D site known (.reference a n) b) P
      (m.resolve site known below? a n).result := by
  have hwritten (event : Event) {e : ε} (he : P e) :
      Decides True P (do Logged.record event; return e : Traced ε).result := ⟨trivial, he⟩
  rw [fails_reference]
  by_cases hk : .text n ∈ known
  · by_cases ho : .text n ∈ a
    · rw [resolve_open hk ho]
      exact (hwritten _ (hr.deferred n)).of_iff (by simp [ho])
    · cases hi : m.inline with
      | false =>
        rw [resolve_named hk ho hi]
        exact (hwritten _ (hr.reference n)).of_iff (by simp)
      | true =>
        obtain ⟨d, hd, _⟩ := Catalogue.exists_find?_eq_some (hknown _ hk)
        rw [resolve_inline hk ho hi, hd]
        refine .after rfl ?_
        cases below? with
        | none =>
          refine (hwritten _ (hr.unknown "")).of_iff ?_
          simp [hnone rfl, not_fails_zero]
        | some l =>
          refine (hbelow l rfl (.text n :: a) d).of_iff ?_
          simp [hk, ho]
  · rw [resolve_undeclared hk]
    exact (hwritten _ (hr.unknown n)).of_iff (by simp [hk])

/-- One level: a type is mapped exactly if nothing fails at it or below it. -/
theorem decides_type (hd : m.DescribesByText)
    (htype : ∀ a p,
      Decides (¬m.Fails D site known (.type a p) b) P (m.mapType site known b a p).result)
    (hreference : ∀ a n, Decides (¬m.Fails D site known (.reference a n) (b + 1)) P
      (m.mapReference site known (b + 1) a n).result)
    (raw : Raw) :
    Decides (¬m.Fails D site known (.type a raw) (b + 1)) P
      (m.mapType site known (b + 1) a raw).result := by
  rw [mapType_succ]
  cases hc : m.grammar.classify m.scope raw with
  | error e =>
    refine Decides.of_iff (p := False) id ?_
    simp [Fails, meets_failed hc, Faulty, hc]
  | ok s =>
    rw [Logged.lift_ok, pure_bind]
    by_cases hname : ∃ n, s = .reference n
    · obtain ⟨n, rfl⟩ := hname
      rw [fails_name hc]
      exact hreference a n
    rw [not_exists] at hname
    cases hsel : s.isSelection with
    | false =>
      refine (decides_shape hr (htype a) (hd raw s hc) hname hsel).of_iff ?_
      simp [fails_parts hc hname hsel]
    | true =>
      cases s with
      | container kind args keys =>
        rw [shape_selection hsel]
        refine (decides_selection hr htype (hreference a) hsel args keys).of_iff ?_
        simp only [fails_selection hsel hc, not_or, and_assoc, ne_eq]
      | _ => cases hsel

/-- Mapping succeeds exactly if it comes to no faulty task. -/
theorem decides_level (hd : m.DescribesByText) (hknown : ∀ n ∈ known, n ∈ m.catalogue.names)
    (b : Nat) :
    (∀ a p, Decides (¬m.Fails D site known (.type a p) b) P (m.mapType site known b a p).result) ∧
      ∀ a n, Decides (¬m.Fails D site known (.reference a n) b) P
        (m.mapReference site known b a n).result := by
  induction b with
  | zero =>
    refine ⟨fun a p => ?_, fun a n => ?_⟩
    · refine Decides.of_iff (p := True) ?_ (by simp [not_fails_zero])
      exact ⟨trivial, hr.unknown ""⟩
    · rw [mapReference_zero]
      exact decides_resolve hr hknown (fun _ => rfl) (fun _ h => by cases h) n
  | succ b ih =>
    have hreference (a : List Scalar) (n : String) :
        Decides (¬m.Fails D site known (.reference a n) (b + 1)) P
          (m.mapReference site known (b + 1) a n).result := by
      rw [mapReference_succ]
      refine decides_resolve hr hknown (fun h => ?_) (fun l hl a d => ?_) n
      · simpa using h
      · -- On the last level names are not expanded at all.
        have hb : b ≠ 0 := by
          rintro rfl
          cases hl
        rw [if_neg hb] at hl
        cases hl
        exact decides_definition hr (Nat.pos_of_ne_zero hb) rfl ih.1 ih.2 d
    exact ⟨fun a raw => decides_type hr hd ih.1 hreference raw, hreference⟩

end Decided

end Mapping

end Crosswalk
