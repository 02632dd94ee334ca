import Crosswalk.Proofs.DefinitionOrder

/-!
Mapping within a budget of levels. Main statements: mapping that succeeds is cut off exactly if a
path of its recursion is as long as its budget, and where nothing is cut off, a wider budget makes
no difference.
-/

namespace Crosswalk

open List

variable {ε α β : Type} {b' : Nat}

namespace Mapping

/-! ### Cutting off -/

def Event.isCut : Event → Bool
  | .depthCut _ _ => true
  | _ => false

/-- Something was cut off. -/
def Cut (x : Traced α) : Prop := ∃ e ∈ x.log, e.isCut = true

theorem not_cut_of_log {x : Traced α} (h : x.log = []) : ¬Cut x := by
  simp [Cut, h]

theorem cut_bind {x : Traced α} {f : α → Traced β} :
    Cut (x >>= f) ↔ Cut x ∨ ∃ a, x.result = .ok a ∧ Cut (f a) := by
  obtain ⟨r, l⟩ := x
  cases r with
  | error e => simp [Cut, Bind.bind, Logged.bind]
  | ok a => simp [Cut, Bind.bind, Logged.bind, or_and_right, exists_or]

theorem not_cut_bind {x : Traced α} {f : α → Traced β} (hx : ¬Cut x) (hf : ∀ a, ¬Cut (f a)) :
    ¬Cut (x >>= f) := by
  rw [cut_bind]
  rintro (h | ⟨a, _, h⟩)
  · exact hx h
  · exact hf a h

theorem not_cut_record {e : Event} (h : e.isCut = false) : ¬Cut (Logged.record e) := by
  simp [Cut, h]

theorem not_cut_forM {act : α → Traced PUnit} (h : ∀ a, ¬Cut (act a)) :
    ∀ as : List α, ¬Cut (as.forM act)
  | [] => not_cut_of_log rfl
  | a :: as => not_cut_bind (h a) fun _ => not_cut_forM h as

theorem not_cut_checkRange (site : Site) (vs : List Value) : ¬Cut (checkRange site vs) :=
  not_cut_forM (fun _ => not_cut_bind (not_cut_of_log rfl) fun _ => not_cut_record rfl) _

theorem not_cut_enumeration (m : Mapping ε) (site : Site) (vs : List Value) :
    ¬Cut (m.enumeration site vs) := by
  refine not_cut_bind (not_cut_of_log rfl) fun p => ?_
  exact not_cut_bind (not_cut_forM (fun _ => not_cut_record rfl) _) fun _ => not_cut_of_log rfl

theorem cut_cutOff (m : Mapping ε) (site : Site) : Cut (m.cutOff site) :=
  cut_bind.mpr (.inl ⟨_, mem_singleton_self _, rfl⟩)

/-- A computation within a limit, beside one within a wider limit. It is cut off only if it is
`deep`; if it succeeds and is deep, it is cut off; and without a cut the limit makes no
difference. -/
structure Limited (deep : Prop) (x y : Traced α) : Prop where
  deep_of_cut : Cut x → deep
  cut_of_deep : ∀ a, x.result = .ok a → deep → Cut x
  same : ¬Cut x → x = y

namespace Limited

variable {p q : Prop} {x y : Traced α}

variable {P : Raw → Prop}

theorem of_iff (h : Limited p x y) (hpq : p ↔ q) : Limited q x y :=
  ⟨fun hx => hpq.mp (h.deep_of_cut hx), fun a ha hq => h.cut_of_deep a ha (hpq.mpr hq), h.same⟩

/-- What is never cut off. -/
theorem shallow (h : ¬Cut x) : Limited False x x :=
  ⟨fun hx => h hx, fun _ _ hp => hp.elim, fun _ => rfl⟩

theorem cutOff (m : Mapping ε) (site : Site) (y : Traced ε) (h : p) :
    Limited p (m.cutOff site) y :=
  ⟨fun _ => h, fun _ _ _ => cut_cutOff m site, fun hx => absurd (cut_cutOff m site) hx⟩

theorem bind {f g : α → Traced β} (hx : Limited p x y) (hf : ∀ a, Limited q (f a) (g a)) :
    Limited (p ∨ q) (x >>= f) (y >>= g) := by
  refine ⟨fun h => ?_, fun b hb h => ?_, fun h => ?_⟩
  · rcases cut_bind.mp h with h | ⟨a, _, h⟩
    · exact .inl (hx.deep_of_cut h)
    · exact .inr ((hf a).deep_of_cut h)
  · obtain ⟨a, ha, hb⟩ := result_bind_eq_ok.mp hb
    rcases h with h | h
    · exact cut_bind.mpr (.inl (hx.cut_of_deep a ha h))
    · exact cut_bind.mpr (.inr ⟨a, ha, (hf a).cut_of_deep b hb h⟩)
  · rw [cut_bind, not_or] at h
    rw [← hx.same h.1]
    obtain ⟨r, l⟩ := x
    cases r with
    | error e => rfl
    | ok a =>
      have hfa := (hf a).same fun hcut => h.2 ⟨a, rfl, hcut⟩
      change Logged.bind _ _ = Logged.bind _ _
      simp only [Logged.bind, hfa]

/-- What follows is never cut off. -/
theorem followed {f : α → Traced β} (hx : Limited p x y) (hf : ∀ a, ¬Cut (f a)) :
    Limited p (x >>= f) (y >>= f) :=
  (hx.bind fun a => shallow (hf a)).of_iff (by simp)

/-- What came before is never cut off. -/
theorem after {f g : α → Traced β} (hx : ¬Cut x) (hf : ∀ a, Limited p (f a) (g a)) :
    Limited p (x >>= f) (x >>= g) :=
  ((shallow hx).bind hf).of_iff (by simp)

theorem mapM {P : α → Prop} {f g : α → Traced β} (h : ∀ a, Limited (P a) (f a) (g a)) :
    ∀ as : List α, Limited (∃ a ∈ as, P a) (as.mapM f) (as.mapM g)
  | [] => (shallow (not_cut_of_log rfl)).of_iff (by simp)
  | a :: as => by
    rw [mapM_cons, mapM_cons]
    refine ((h a).bind fun _ => (mapM h as).followed fun _ => not_cut_of_log rfl).of_iff ?_
    simp

theorem mapFields {type type' : Field → Traced ε}
    (h : ∀ f : Field, Limited (P f.type) (type f) (type' f)) (fs : List Field) :
    Limited (∃ raw ∈ Field.typesAll fs, P raw) (Mapping.mapFields type fs)
      (Mapping.mapFields type' fs) := by
  induction fs using Field.induction with
  | nil => exact (shallow (not_cut_of_log rfl)).of_iff (by simp [Field.typesAll])
  | cons f fs harguments hfs =>
    rw [mapFields_cons, mapFields_cons, Field.typesAll_cons]
    refine ((h f).bind fun _ => harguments.bind fun _ =>
      hfs.followed fun _ => not_cut_of_log rfl).of_iff ?_
    simp [or_and_right, exists_or]

theorem mapAdditional {type type' : Raw → Traced ε}
    (h : ∀ raw, Limited (P raw) (type raw) (type' raw)) :
    ∀ a, Limited (∃ raw ∈ Additional.types a, P raw) (Mapping.mapAdditional type a)
      (Mapping.mapAdditional type' a)
  | none | some .anything | some .nothing =>
    (shallow (not_cut_of_log rfl)).of_iff (by simp [Additional.types])
  | some (.typed raw) =>
    ((h raw).followed fun _ => not_cut_of_log rfl).of_iff (by simp [Additional.types])

end Limited

/-- The same mapping with another text for its limit. -/
def withLimit (m : Mapping ε) (text : String) : Mapping ε := { m with limitText := text }

section Limits

variable {m : Mapping ε} {s : String} {site : Site} {known : List Scalar} {a : List Scalar}

variable {b : Nat}

/-- Each mapper of a level is limited where the tasks are deep, compared with another level. -/
structure Level.Limited (deep : Task → Prop) (l l' : Level ε) : Prop where
  type : ∀ a raw, Mapping.Limited (deep (.type a raw)) (l.type a raw) (l'.type a raw)
  reference : ∀ a n, Mapping.Limited (deep (.reference a n)) (l.reference a n) (l'.reference a n)

variable {deep : Task → Prop} {l l' : Level ε}

theorem limited_object (h : l.Limited deep l') (d : Declaration) :
    Limited ((∃ p ∈ Field.typesAll d.fields ++ Additional.types d.additional?, deep (.type a p)) ∨
        ∃ base ∈ d.bases, deep (.reference a base))
      (m.object l a d) ((m.withLimit s).object l' a d) := by
  have hfields := Limited.mapFields (P := fun raw => deep (.type a raw)) (fun f => h.type a f.type)
    d.fields
  have hadditional := Limited.mapAdditional (h.type a) d.additional?
  have hbases := Limited.mapM (h.reference a) d.bases
  refine (hfields.bind fun _ => hadditional.bind fun _ => Limited.after (not_cut_of_log rfl)
    fun _ => hbases.followed fun _ => not_cut_of_log rfl).of_iff ?_
  simp only [mem_append, or_and_right, exists_or, or_assoc]

theorem limited_definition (h : l.Limited deep l') (d : Declaration) :
    Limited ((∃ p ∈ d.types, deep (.type a p)) ∨
        d.isObject ∧ ∃ base ∈ d.bases, deep (.reference a base))
      (m.definition site l a d) ((m.withLimit s).definition site l' a d) := by
  cases hb : d.body with
  | enumeration body =>
    simp only [definition, Declaration.types, Declaration.isObject, hb]
    refine (Limited.shallow ?_).of_iff (by simp)
    exact not_cut_bind (not_cut_of_log rfl) fun vs => not_cut_enumeration m site vs
  | synonym body =>
    simp only [definition, Declaration.types, Declaration.isObject, hb]
    exact (h.type a body).of_iff (by simp)
  | object fields =>
    have hobject := limited_object (m := m) (s := s) (a := a) h d
    simp only [definition, Declaration.types, Declaration.isObject, Declaration.fields, hb,
      true_and] at hobject ⊢
    exact hobject

/-- A reference is cut off where the declaration that it opens is. -/
theorem limited_resolve {below? below'? : Option (Level ε)} {name : String}
    (opens : Declaration → Prop)
    (hregistered : .text name ∈ known → .text name ∈ m.catalogue.names)
    (hnone : below? = none → ∀ d, opens d)
    (hsome : ∀ below, below? = some below → ∃ below', below'? = some below' ∧
      ∀ d, Limited (opens d) (m.definition site below (.text name :: a) d)
        ((m.withLimit s).definition site below' (.text name :: a) d)) :
    Limited ((m.inline ∧ .text name ∈ known ∧ .text name ∉ a) ∧
        ∃ d, m.catalogue.find? (.text name) = some d ∧ opens d)
      (m.resolve site known below? a name) ((m.withLimit s).resolve site known below'? a name) := by
  by_cases hk : .text name ∈ known
  · by_cases ho : .text name ∈ a
    · rw [resolve_open hk ho, resolve_open hk ho]
      refine (Limited.shallow ?_).of_iff (by simp [ho])
      exact not_cut_bind (not_cut_record rfl) fun _ => not_cut_of_log rfl
    · cases hi : m.inline with
      | false =>
        rw [resolve_named hk ho hi, resolve_named (m := m.withLimit s) hk ho hi]
        refine (Limited.shallow ?_).of_iff (by simp)
        exact not_cut_bind (not_cut_record rfl) fun _ => not_cut_of_log rfl
      | true =>
        obtain ⟨d, hd, _⟩ := Catalogue.exists_find?_eq_some (hregistered hk)
        rw [resolve_inline hk ho hi, resolve_inline (m := m.withLimit s) hk ho hi]
        refine (Limited.after (p := opens d) (not_cut_record rfl) fun _ => ?_).of_iff
          (by simp [hk, ho, hd])
        have hd' : (m.withLimit s).catalogue.find? (.text name) = some d := hd
        rw [hd, hd']
        cases below? with
        | none => exact Limited.cutOff m site _ (hnone rfl d)
        | some below =>
          obtain ⟨below', rfl, hbelow⟩ := hsome below rfl
          exact hbelow d
  · rw [resolve_undeclared hk, resolve_undeclared hk]
    refine (Limited.shallow ?_).of_iff (by simp [hk])
    exact not_cut_bind (not_cut_record rfl) fun _ => not_cut_of_log rfl

section Shapes

variable {T : List Scalar → Raw → Prop} {R : String → Prop}
  {type type' : List Scalar → Raw → Traced ε} {reference reference' : String → Traced ε}

theorem limited_selection (htype : ∀ a raw, Limited (T a raw) (type a raw) (type' a raw))
    (href : ∀ n, Limited (R n) (reference n) (reference' n)) (kind : Container) (args : List Raw)
    (keys : List String) :
    Limited (m.Selecting known a kind args keys T R)
      (m.selection known type reference a kind args keys)
      ((m.withLimit s).selection known type' reference' a kind args keys) := by
  rcases args with _ | ⟨base, rest⟩
  · exact (Limited.shallow (not_cut_of_log rfl)).of_iff (by simp [Selecting])
  rcases hb : m.grammar.classify m.scope base with e | shape
  · rw [selection_failed hb, selection_failed (m := m.withLimit s) hb]
    exact (Limited.shallow (not_cut_of_log rfl)).of_iff (by simp [Selecting, hb])
  by_cases hother : ∀ n, shape = .reference n → .text n ∉ known
  · rw [selection_other hb hother, selection_other (m := m.withLimit s) hb hother]
    exact (htype a base).of_iff (selecting_other hb hother).symm
  obtain ⟨n, rfl, hn⟩ : ∃ n, shape = .reference n ∧ .text n ∈ known := by simpa using hother
  by_cases hu : m.Unfolds a n
  · rw [selection_expanded hb hn hu, selection_expanded (m := m.withLimit s) hb hn hu]
    cases ho : m.catalogue.isObject (.text n) with
    | false =>
      have hkept : (m.withLimit s).catalogue.isObject (.text n) = false := ho
      rw [hkept]
      exact (href n).of_iff (by simp [selecting_declared hb hn, hu, ho])
    | true =>
      have hopened : (m.withLimit s).catalogue.isObject (.text n) := ho
      rw [hopened]
      have hfields := Limited.mapFields (P := T (.text n :: a))
        (fun f => htype (.text n :: a) f.type) (m.selected kind keys n)
      refine (hfields.followed fun _ => not_cut_of_log rfl).of_iff ?_
      simp [selecting_declared hb hn, hu, ho]
  · obtain ⟨hi, ho, hs⟩ : m.inline = false ∧ .text n ∉ a ∧ m.renderer.select? ≠ none := by
      simpa [Unfolds] using hu
    obtain ⟨select, hselect⟩ := Option.ne_none_iff_exists'.mp hs
    rw [selection_selected hb hn ho hi hselect,
      selection_selected (m := m.withLimit s) hb hn ho hi hselect]
    refine (Limited.shallow ?_).of_iff (by simp [selecting_declared hb hn, hu])
    exact not_cut_bind (not_cut_record rfl) fun _ => not_cut_of_log rfl

/-- A shape that is neither a name nor a selection is cut off where its parts are. -/
theorem limited_parts (htype : ∀ a raw, Limited (T a raw) (type a raw) (type' a raw))
    {shape : Shape} (hr : ∀ n, shape ≠ .reference n) (hs : shape.isSelection = false) :
    Limited (∃ p ∈ shape.deeper, T a p) (m.shape site known type reference a shape)
      ((m.withLimit s).shape site known type' reference' a shape) := by
  have hone (raw : Raw) {β : Type} (f : ε → Except Fault β) :
      Limited (∃ p ∈ [raw], T a p) (do Logged.lift (f (← type a raw)))
        (do Logged.lift (f (← type' a raw))) :=
    ((htype a raw).followed fun _ => not_cut_of_log rfl).of_iff (by simp)
  have hall (raws : List Raw) {β : Type} (f : List ε → Except Fault β) :
      Limited (∃ p ∈ raws, T a p) (do Logged.lift (f (← raws.mapM (type a))))
        (do Logged.lift (f (← raws.mapM (type' a)))) :=
    (Limited.mapM (htype a) raws).followed fun _ => not_cut_of_log rfl
  have hleaf {x : Traced ε} (h : ¬Cut x) : Limited (∃ p ∈ ([] : List Raw), T a p) x x :=
    (Limited.shallow h).of_iff (by simp)
  cases shape with
  | primitive p cs => exact hleaf (not_cut_of_log rfl)
  | literal v =>
    exact hleaf (not_cut_bind (not_cut_checkRange site [v]) fun _ => not_cut_of_log rfl)
  | enumeration vs =>
    exact hleaf (not_cut_bind (not_cut_checkRange site vs) fun _ => not_cut_enumeration m site vs)
  | array element cs => exact hone element fun e => m.renderer.array e cs
  | tuple elements => exact hall elements m.renderer.tuple
  | union members =>
    refine (Limited.mapM (htype a) members).followed fun es => ?_
    split <;> exact not_cut_of_log rfl
  | intersection members => exact hall members m.intersectAll
  | nullable inner => exact hone inner m.renderer.nullable
  | optional inner => exact hone inner m.renderer.optional
  | container kind args keys =>
    cases kind with
    | readonly =>
      cases args with
      | nil => exact hleaf (not_cut_of_log rfl)
      | cons inner rest => exact (htype a inner).of_iff (by simp [Shape.deeper])
    | pick | without | partially | required => cases hs
    | set | map | record | promise | other name => exact hall args (m.renderer.container _)
  | object fields additional =>
    have hfields := Limited.mapFields (P := T a) (fun f => htype a f.type) fields
    have hadditional := Limited.mapAdditional (htype a) additional
    refine (hfields.bind fun _ => hadditional.followed fun _ => not_cut_of_log rfl).of_iff ?_
    simp [Shape.deeper, Shape.parts, or_and_right, exists_or]
  | reference n => exact absurd rfl (hr n)
  | unknown t =>
    refine hleaf ?_
    simp only [Mapping.shape]
    split
    · exact not_cut_bind (not_cut_record rfl) fun _ => not_cut_of_log rfl
    · exact not_cut_of_log rfl

end Shapes

/-- A task for which no level is left. References do not need one. -/
def Exhausted (t : Task) (budget : Nat) : Prop := budget = 0 ∧ t.isReference = false

/-- A path from a task is at least as long as its budget. -/
def Deep (m : Mapping ε) (known : List Scalar) (t : Task) (budget : Nat) : Prop :=
  m.Meets known Exhausted t budget

theorem deep_zero {t : Task} (h : t.isReference = false) : m.Deep known t 0 :=
  meets_iff.mpr (.inl ⟨rfl, h⟩)

theorem shape_selection {kind : Container} {args : List Raw} {keys : List String}
    {type : List Scalar → Raw → Traced ε} {reference : String → Traced ε}
    (hk : kind.isSelection) :
    m.shape site known type reference a (.container kind args keys) =
      m.selection known type reference a kind args keys := by
  cases kind <;> first | rfl | cases hk

theorem limited_mapType
    (hbelow : (m.level site known b).Limited (m.Deep known · b)
      ((m.withLimit s).level site known b'))
    (href : ∀ n,
      Limited (m.Deep known (.reference a n) (b + 1)) (m.mapReference site known (b + 1) a n)
        ((m.withLimit s).mapReference site known (b' + 1) a n)) (raw : Raw) :
    Limited (m.Deep known (.type a raw) (b + 1)) (m.mapType site known (b + 1) a raw)
      ((m.withLimit s).mapType site known (b' + 1) a raw) := by
  rw [mapType_succ, mapType_succ]
  change Limited _ (Logged.lift (m.grammar.classify m.scope raw) >>= _)
    (Logged.lift (m.grammar.classify m.scope raw) >>= _)
  rcases hc : m.grammar.classify m.scope raw with e | shape
  · refine (Limited.shallow (not_cut_of_log rfl)).of_iff ?_
    simp [Deep, meets_failed hc, Exhausted]
  rw [Logged.lift_ok, pure_bind, pure_bind]
  by_cases hr : ∃ n, shape = .reference n
  · obtain ⟨n, rfl⟩ := hr
    exact (href n).of_iff (by simp [Deep, meets_name hc, Exhausted])
  cases hs : shape.isSelection with
  | true =>
    obtain ⟨kind, args, keys, rfl, hk⟩ : ∃ kind args keys,
        shape = .container kind args keys ∧ kind.isSelection := by
      cases shape <;> first | cases hs | exact ⟨_, _, _, rfl, hs⟩
    rw [shape_selection hk, shape_selection hk]
    refine Limited.of_iff (limited_selection hbelow.type href kind args keys) ?_
    simp [Deep, meets_selection hk hc, Exhausted]
  | false =>
    have hname : ∀ n, shape ≠ .reference n := fun n h => hr ⟨n, h⟩
    refine Limited.of_iff (limited_parts hbelow.type hname hs) ?_
    simp [Deep, meets_parts hc hname hs, Exhausted]

/-- A reference within a budget, where the level below is limited. -/
theorem limited_mapReference (hregistered : ∀ n, .text n ∈ known → .text n ∈ m.catalogue.names)
    (h : b ≤ b') (hbelow : (m.level site known b).Limited (m.Deep known · b)
      ((m.withLimit s).level site known b'))
    (n : String) :
    Limited (m.Deep known (.reference a n) (b + 1)) (m.mapReference site known (b + 1) a n)
      ((m.withLimit s).mapReference site known (b' + 1) a n) := by
  rw [mapReference_succ, mapReference_succ]
  have hopens (d : Declaration) (hb : b ≠ 0) :
      Limited (m.Deep known (.expansion (.text n :: a) d) b)
        (m.definition site (m.level site known b) (.text n :: a) d)
        ((m.withLimit s).definition site ((m.withLimit s).level site known b') (.text n :: a)
          d) := by
    refine Limited.of_iff (limited_definition hbelow d) ?_
    simp [Deep, meets_expansion, Exhausted, hb]
  refine Limited.of_iff (limited_resolve (fun d => m.Deep known (.expansion (.text n :: a) d) b)
    (hregistered n) (fun hnone d => ?_) fun below hsome => ?_) ?_
  · have hb : b = 0 := by
      by_contra hb
      simp [hb] at hnone
    exact hb ▸ deep_zero rfl
  · have hb : b ≠ 0 := by
      rintro rfl
      simp at hsome
    rw [if_neg hb] at hsome
    cases hsome
    exact ⟨_, if_neg (by omega), fun d => hopens d hb⟩
  · simp [Deep, meets_reference, Exhausted, Task.isReference]

/-- Mapping that succeeds is cut off exactly if it is deep, and otherwise its budget makes no
difference. -/
theorem limited_level (hregistered : ∀ n, .text n ∈ known → .text n ∈ m.catalogue.names)
    (h : b ≤ b') :
    (m.level site known b).Limited (m.Deep known · b) ((m.withLimit s).level site known b') := by
  induction b generalizing b' with
  | zero =>
    refine ⟨fun a raw => Limited.cutOff m site _ (deep_zero rfl), fun a n => ?_⟩
    obtain ⟨below'?, hbelow'⟩ : ∃ below'?, ((m.withLimit s).level site known b').reference =
        (m.withLimit s).resolve site known below'? := by
      cases b' with
      | zero => exact ⟨none, rfl⟩
      | succ b' => exact ⟨if b' = 0 then none else some ((m.withLimit s).level site known b'), rfl⟩
    rw [hbelow']
    change Limited _ (m.resolve site known none a n) _
    refine Limited.of_iff (limited_resolve (fun d => m.Deep known (.expansion (.text n :: a) d) 0)
      (hregistered n) (fun _ d => deep_zero rfl) (by simp)) ?_
    simp [Deep, meets_reference, Exhausted, Task.isReference]
  | succ b ih =>
    obtain ⟨b', rfl⟩ : ∃ c, b' = c + 1 := ⟨b' - 1, by omega⟩
    have hbelow := ih (Nat.le_of_succ_le_succ h)
    have href (a : List Scalar) (n : String) :=
      limited_mapReference (a := a) hregistered (Nat.le_of_succ_le_succ h) hbelow n
    exact ⟨fun a raw => limited_mapType hbelow (href a) raw, href⟩

/-- A declaration is cut off where one of its types or bases is. -/
theorem limited_members (h : b ≤ b') (pending : List Scalar) (d : Declaration) :
    Limited ((∃ p ∈ d.types, m.Deep m.catalogue.names (.type (d.name :: pending) p) b) ∨
        d.isObject ∧ ∃ base ∈ d.bases,
          m.Deep m.catalogue.names (.reference (d.name :: pending) base) b)
      (m.declaration b pending d) ((m.withLimit s).declaration b' pending d) := by
  have hlevel (site : Site) : (m.level site m.catalogue.names b).Limited
      (m.Deep m.catalogue.names · b) ((m.withLimit s).level site m.catalogue.names b') :=
    limited_level (fun _ hn => hn) h
  refine Limited.of_iff (Limited.after (not_cut_record rfl) fun _ => ?_) (Iff.rfl)
  cases hbody : d.body with
  | enumeration body =>
    refine (Limited.shallow ?_).of_iff (by simp [Declaration.types, Declaration.isObject, hbody])
    refine not_cut_bind (not_cut_of_log rfl) fun vs => ?_
    refine not_cut_bind (not_cut_checkRange _ vs) fun _ => ?_
    exact not_cut_bind (not_cut_enumeration m _ vs) fun _ => not_cut_of_log rfl
  | synonym body =>
    refine Limited.of_iff (((hlevel _).type _ body).followed fun _ => not_cut_of_log rfl) ?_
    simp [Declaration.types, Declaration.isObject, hbody]
  | object fields =>
    have hfields := Limited.mapFields
      (P := fun raw => m.Deep m.catalogue.names (.type (d.name :: pending) raw) b)
      (fun f => Limited.after (not_cut_record (e := .enterField f.key) rfl) fun _ =>
        (hlevel { declaration := d.name, field := f.key }).type (d.name :: pending) f.type) fields
    have hadditional (site : Site) :=
      Limited.mapAdditional ((hlevel site).type (d.name :: pending)) d.additional?
    have hbases (site : Site) := Limited.mapM ((hlevel site).reference (d.name :: pending)) d.bases
    refine Limited.of_iff (hfields.bind fun _ => (hadditional _).bind fun _ =>
      Limited.after (not_cut_of_log rfl) fun _ => (hbases _).followed fun _ => ?_) ?_
    · exact not_cut_bind (not_cut_of_log rfl) fun _ => not_cut_of_log rfl
    · simp [Declaration.types, Declaration.isObject, hbody, or_and_right, exists_or, or_assoc]

/-- A declaration is mapped like its expansion. -/
theorem limited_declaration (hb : b ≠ 0) (h : b ≤ b') (pending : List Scalar) (d : Declaration) :
    Limited (m.Deep m.catalogue.names (.expansion (d.name :: pending) d) b)
      (m.declaration b pending d) ((m.withLimit s).declaration b' pending d) :=
  (limited_members h pending d).of_iff (by simp [Deep, meets_expansion, Exhausted, hb])

/-- A declaration that is mapped is cut off exactly if a path from it is as long as the budget. -/
theorem cut_declaration_iff (hb : b ≠ 0) {pending : List Scalar} {d : Declaration}
    {md : MappedDeclaration ε} (h : (m.declaration b pending d).result = .ok md) :
    Cut (m.declaration b pending d) ↔
      m.Deep m.catalogue.names (.expansion (d.name :: pending) d) b := by
  have hlimited := limited_declaration (m := m) (s := m.limitText) hb (Nat.le_refl b) pending d
  exact ⟨hlimited.deep_of_cut, hlimited.cut_of_deep md h⟩

section Fresh

variable {size : Raw → Nat} {S : Nat} {pending : List Scalar} {d : Declaration}

/-- Paths that open nothing twice are shorter than a budget that the document determines. -/
theorem not_deep_of_fresh (hshrinks : m.Shrinks size)
    (hS : ∀ d ∈ m.catalogue.declarations, ∀ p ∈ d.types, size p ≤ S)
    (hd : d ∈ m.catalogue.declarations)
    (hfresh : ∀ os n u, m.Path m.catalogue.names (.expansion (d.name :: pending) d) os n u →
      Fresh (d.name :: pending) os) :
    ¬m.Deep m.catalogue.names (.expansion (d.name :: pending) d)
      ((m.catalogue.names.length + 1) * (S + 1)) := by
  rintro ⟨os, n, u, hpath, hlength, _⟩
  have hlevels := hpath.levels_le hshrinks hS (fun _ hn => hn) hd (hfresh os n u hpath)
  have hunopened : m.unopened (d.name :: pending) ≤ m.catalogue.names.length :=
    length_filter_le ..
  have hmul := Nat.mul_le_mul_right (S + 1) hunopened
  rw [Nat.succ_mul] at hlength
  simp only [potential] at hlevels
  omega

/-- Without paths that open anything twice, nothing is cut off within a budget that the document
determines, and a wider one makes no difference. -/
theorem declaration_of_fresh (hshrinks : m.Shrinks size)
    (hS : ∀ d ∈ m.catalogue.declarations, ∀ p ∈ d.types, size p ≤ S)
    (hd : d ∈ m.catalogue.declarations)
    (hfresh : ∀ os n u, m.Path m.catalogue.names (.expansion (d.name :: pending) d) os n u →
      Fresh (d.name :: pending) os)
    {b : Nat} (hb : (m.catalogue.names.length + 1) * (S + 1) ≤ b) (s : String) :
    ¬Cut ((m.withLimit s).declaration b pending d) ∧
      (m.withLimit s).declaration b pending d =
        m.declaration ((m.catalogue.names.length + 1) * (S + 1)) pending d := by
  have hpos : (m.catalogue.names.length + 1) * (S + 1) ≠ 0 := by simp
  have hlimited := limited_declaration (m := m) (s := s) hpos hb pending d
  have huncut : ¬Cut (m.declaration ((m.catalogue.names.length + 1) * (S + 1)) pending d) :=
    mt hlimited.deep_of_cut (not_deep_of_fresh hshrinks hS hd hfresh)
  have hsame := hlimited.same huncut
  exact ⟨hsame ▸ huncut, hsame.symm⟩

end Fresh

end Limits

end Mapping

namespace Conversion

/-- Without paths that open anything twice, no greatest depth from a bound on that the document
determines cuts anything off, and they all give the same. -/
theorem declaration_of_fresh (c : Conversion) {doc : Document} {size : Raw → Nat} {S bound : Nat}
    {pending : List Scalar} {d : Declaration} (hshrinks : (c.mappingOf doc).Shrinks size)
    (hS : ∀ d ∈ doc.catalogue.declarations, ∀ p ∈ d.types, size p ≤ S)
    (hd : d ∈ doc.catalogue.declarations)
    (hfresh : ∀ os n u, (c.mappingOf doc).Path doc.catalogue.names
      (.expansion (d.name :: pending) d) os n u → Mapping.Fresh (d.name :: pending) os)
    (hbound : (doc.catalogue.names.length + 1) * (S + 1) ≤ bound)
    {s : Settings} (hindent : s.indent = c.settings.indent) {limit : Int}
    (hlimit : s.maxDepth.floor? = .ok (some limit)) (hdeep : ↑bound ≤ limit) :
    ¬Mapping.Cut (({ c with settings := s }.mappingOf doc).declaration (s.budgetAt 0) pending d) ∧
      ({ c with settings := s }.mappingOf doc).declaration (s.budgetAt 0) pending d =
        (c.mappingOf doc).declaration bound pending d := by
  have hbudget : bound ≤ s.budgetAt 0 := Nat.le_of_lt (Settings.lt_budgetAt hlimit hdeep)
  have hmapping : { c with settings := s }.mappingOf doc =
      (c.mappingOf doc).withLimit s.maxDepth.display := by
    simp only [mappingOf, mapping, Mapping.withLimit, hindent]
    rfl
  have hbase := (Mapping.declaration_of_fresh hshrinks hS hd hfresh hbound
    (c.mappingOf doc).limitText).2
  obtain ⟨huncut, hsame⟩ := Mapping.declaration_of_fresh hshrinks hS hd hfresh
    (Nat.le_trans hbound hbudget) s.maxDepth.display
  rw [hmapping]
  exact ⟨huncut, hsame.trans hbase.symm⟩

end Conversion

end Crosswalk
