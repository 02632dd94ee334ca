import Crosswalk.Proofs.DependencyOrder
import Crosswalk.Proofs.Uses

/-!
The values that are written into an expression: literals, the members of enumerations, and the
defaults of fields. They are read off a renderer that notes them beside every expression. Main
statement: mapping a declaration warns about the literals and members that it writes and whose
precision a number may lose, and about nothing else; what it expands in place from an enumeration of
the document may be left to that enumeration.
-/

namespace Crosswalk

open List
open Logged (Each lift log_bind)

variable {ε α β : Type} {budget : Nat}

/-- What a value that is written stands for. -/
inductive ValueRole where
  | literal | member | fieldDefault
deriving Repr, DecidableEq

structure WrittenValue where
  role : ValueRole
  value : Value
deriving Repr

/-- A literal or a member that is out of the range of exact numbers. -/
def WrittenValue.IsChecked (w : WrittenValue) : Prop :=
  w.role ≠ .fieldDefault ∧ isUnsafeInteger w.value = true

/-- The default of a field, where the target writes defaults. -/
def Field.writtenDefault (defaults : Bool) (f : Field) : List WrittenValue :=
  if defaults then f.default?.toList.map (⟨.fieldDefault, ·⟩) else []

/-- Note every value. -/
def WrittenValue.notebook (defaults : Bool) : Notebook WrittenValue where
  literal v := [⟨.literal, v⟩]
  enumeration vs := vs.map (⟨.member, ·⟩)
  field f := f.writtenDefault defaults

namespace Mapping

open Logged (Gives)

variable {ordered : Bool}

/-- The mapping to expressions with their values. -/
abbrev valuing (m : Mapping ε) (defaults : Bool) : Mapping (Noted WrittenValue ε) :=
  m.noted (WrittenValue.notebook defaults)

/-! ### What a computation reports -/

/-- The members of the enumerations of a document. -/
def IsMember (m : Mapping ε) (v : Value) : Prop :=
  ∃ d ∈ m.catalogue.declarations, ∃ body, d.body = .enumeration body ∧
    ∃ vs, m.grammar.enumValues body = .ok vs ∧ v ∈ vs

/-- Those of the values that are checked are warned about, and no other numbers. Members of the
enumerations of the document need no warning. -/
structure Reported (m : Mapping ε) (l : List Event) (ws : List WrittenValue) : Prop where
  complete : ∀ w ∈ ws, w.IsChecked →
    m.IsMember w.value ∨ ∃ name, .warning (.numericRange w.value.display name) ∈ l
  sound : ∀ d, .warning d ∈ l → d.problem = .numericRange →
    ∃ w ∈ ws, w.IsChecked ∧ ∃ name, d = .numericRange w.value.display name

variable {m : Mapping ε} {defaults : Bool} {known : List Scalar} {l l' : List Event}
  {ws ws' : List WrittenValue}

/-- Events other than warnings about numbers. -/
def Event.Silent (e : Event) : Prop := ∀ d, e = .warning d → d.problem ≠ .numericRange

/-- Nothing is said, and nothing needs to be. -/
theorem reported_of_silent (hl : ∀ e ∈ l, e.Silent)
    (hws : ∀ w ∈ ws, w.IsChecked → m.IsMember w.value) : m.Reported l ws :=
  ⟨fun w hw hc => .inl (hws w hw hc), fun d hd hp => absurd hp (hl _ hd d rfl)⟩

theorem reported_nil : m.Reported [] [] := reported_of_silent (by simp) (by simp)

theorem Reported.append (h : m.Reported l ws) (h' : m.Reported l' ws') :
    m.Reported (l ++ l') (ws ++ ws') := by
  refine ⟨forall_mem_append.mpr ⟨fun w hw hc => ?_, fun w hw hc => ?_⟩, fun d hd hp => ?_⟩
  · exact (h.complete w hw hc).imp_right fun ⟨name, hlog⟩ => ⟨name, mem_append_left _ hlog⟩
  · exact (h'.complete w hw hc).imp_right fun ⟨name, hlog⟩ => ⟨name, mem_append_right _ hlog⟩
  · rcases mem_append.mp hd with hd | hd
    · obtain ⟨w, hw, hrest⟩ := h.sound d hd hp
      exact ⟨w, mem_append_left _ hw, hrest⟩
    · obtain ⟨w, hw, hrest⟩ := h'.sound d hd hp
      exact ⟨w, mem_append_right _ hw, hrest⟩

theorem Reported.cons {e : Event} (he : e.Silent) (h : m.Reported l ws) :
    m.Reported (e :: l) ws := by
  have hsilent : m.Reported [e] [] := reported_of_silent (by simpa using he) (by simp)
  exact hsilent.append h

theorem silent_blockEvents (bs : List Block) : ∀ e ∈ blockEvents bs, e.Silent := by
  intro e he d hd
  obtain ⟨b, _, rfl⟩ := mem_map.mp he
  cases hd

theorem Reported.blocks (h : m.Reported l ws) (bs : List Block) :
    m.Reported (l ++ blockEvents bs) ws := by
  have hblocks : m.Reported (blockEvents bs) [] :=
    reported_of_silent (silent_blockEvents bs) (by simp)
  simpa using h.append hblocks

theorem reported_flatMap {es : List (Noted WrittenValue ε)} {l : List Event}
    (h : Each (fun l e => m.Reported l e.notes) l es) :
    m.Reported l (es.flatMap Noted.notes) :=
  Each.flatMap reported_nil Reported.append h

/-- Defaults are written without a warning. -/
theorem reported_writtenDefault (f : Field) : m.Reported [] (f.writtenDefault defaults) := by
  refine reported_of_silent (by simp) fun w hw hc => ?_
  rw [Field.writtenDefault] at hw
  split at hw
  · obtain ⟨v, _, rfl⟩ := mem_map.mp hw
    exact absurd rfl hc.1
  · cases hw

/-- The check warns about the values that need it. -/
theorem reported_checkRange {role : ValueRole} (hr : role ≠ .fieldDefault) (site : Site)
    {vs : List Value} (hshown : rangeShown vs) :
    m.Reported (checkRange site vs).log (vs.map (⟨role, ·⟩)) := by
  rw [checkRange_of_rangeShown hshown]
  refine ⟨fun w hw hc => .inr ⟨site.declaration, ?_⟩, fun d hd _ => ?_⟩
  · obtain ⟨v, hv, rfl⟩ := mem_map.mp hw
    exact mem_map.mpr ⟨v, mem_filter.mpr ⟨hv, hc.2⟩, rfl⟩
  · obtain ⟨v, hv, hd⟩ := mem_map.mp hd
    cases hd
    obtain ⟨hv, hlarge⟩ := mem_filter.mp hv
    exact ⟨⟨role, v⟩, mem_map_of_mem hv, ⟨hr, hlarge⟩, site.declaration, rfl⟩

/-- What is written is reported where it is rendered, and nothing that is put together later writes
more. -/
theorem keeps_reported (m : Mapping ε) (defaults : Bool) (known : List Scalar) (site : Site) :
    (m.valuing defaults).Keeps (fun _ => True) (fun _ => True) known site
      (fun _ _ l e => m.Reported l e.notes) fun _ _ l e => m.Reported l e.notes where
  deeper h := h
  moved h := h.cons (by simp [Event.Silent])
  unknown _ _ l _ hl := by
    refine reported_of_silent (fun e he d hd => ?_) (by simp [noted, withRenderer, Renderer.noting])
    cases hd
    exact hl _ he
  primitive _ he := notes_of_map he ▸ reported_nil
  literal _ hshown he := notes_of_map he ▸ reported_checkRange (by decide) _ hshown
  enumeration _ hshown he := by
    obtain ⟨_, _, hp⟩ := map_eq_ok.mp he
    cases hp
    exact (reported_checkRange (by decide) _ hshown).blocks _
  array _ h he := notes_of_map he ▸ h
  tuple h he := notes_of_map he ▸ reported_flatMap h
  union h he := notes_of_map he ▸ reported_flatMap h
  intersection h he := notes_intersectAll he ▸ reported_flatMap h
  nullable h he := notes_of_map he ▸ h
  optional h he := notes_of_map he ▸ h
  container h he := notes_of_map he ▸ reported_flatMap h
  object _ h hx he := notes_of_map he ▸ (collected_notesAll reported_nil Reported.append
    reported_writtenDefault h).append (collected_additional reported_nil hx)
  select _ _ _ _ _ _ hs he := by
    obtain ⟨_, _, rfl⟩ := Option.map_eq_some_iff.mp hs
    exact notes_of_map he ▸ reported_nil.cons (by simp [Event.Silent])
  close _ h := h
  reference _ _ _ _ := reported_nil.cons (by simp [Event.Silent])
  deferred _ _ _ := reported_nil.cons (by simp [Event.Silent])
  joined h hes he := by
    have hall := h.append (reported_flatMap hes)
    rw [notes_intersectAll he, flatMap_append, flatMap_singleton]
    exact ⟨fun w hw => hall.complete w (mem_append.mpr (mem_append.mp hw).symm),
      fun d hd hp => (hall.sound d hd hp).imp fun w hw =>
        hw.imp_left fun hw => mem_append.mpr (mem_append.mp hw).symm⟩
  whole h := h
  inlined _ := id
  refers _ {_ _ _ _ _} h := h.cons (by simp [Event.Silent])
  members _ {_ _ d body vs _ _} hd hbody hvs he := by
    obtain ⟨_, _, hp⟩ := map_eq_ok.mp he
    cases hp
    refine reported_of_silent (silent_blockEvents _) fun w hw _ => ?_
    obtain ⟨v, hv, rfl⟩ := mem_map.mp hw
    exact ⟨d, hd, body, hbody, vs, hvs, hv⟩

theorem gives_reported_declaration (m : Mapping ε) (defaults : Bool) (budget : Nat)
    (pending : List Scalar) (d : Declaration) :
    Gives (fun l md => m.Reported l md.expression.notes)
      ((m.valuing defaults).declaration budget pending d) := by
  refine (gives_declaration (within_trivial _) (fun _ => keeps_reported m defaults _ _)
    (fun _ _ => trivial) (fun _ _ => trivial) budget pending).mono ?_
  rintro _ _ ⟨l, rfl, h⟩
  exact h.cons (by simp [Event.Silent])

/-! ### Whole documents -/

/-- All declarations, in the order that a target asks for. -/
def inOrder (m : Mapping ε) (ordered : Bool) (budget : Nat) : Traced (List (MappedDeclaration ε)) :=
  if ordered then m.inDependencyOrder budget else m.inSourceOrder budget

theorem inOrder_map {δ : Type} {f : ε → δ} {s : Renderer δ} (h : m.renderer.Hom f s)
    (ordered : Bool) (budget : Nat) :
    (m.withRenderer s).inOrder ordered budget =
      List.map (MappedDeclaration.map f) <$> m.inOrder ordered budget := by
  cases ordered with
  | true => exact inDependencyOrder_map h budget
  | false =>
    have hdeclaration : (m.withRenderer s).declaration budget [] =
        fun d => MappedDeclaration.map f <$> m.declaration budget [] d :=
      funext fun d => declaration_map h budget [] d
    change m.catalogue.declarations.mapM _ = _
    rw [hdeclaration, mapM_map]
    rfl

theorem gives_reported_inOrder (m : Mapping ε) (defaults ordered : Bool) (budget : Nat) :
    Gives (fun l mds => m.Reported l (mds.flatMap fun md => md.expression.notes))
      ((m.valuing defaults).inOrder ordered budget) := by
  cases ordered with
  | false =>
    exact (Gives.mapM fun d _ => gives_reported_declaration m defaults budget [] d).mono
      fun _ _ h => h.flatMap reported_nil Reported.append
  | true =>
    refine Gives.lift_bind fun steps _ => ?_
    have hstep (step : Catalogue.Step) :
        Gives (fun l mds => m.Reported l (mds.flatMap fun md => md.expression.notes))
          ((m.valuing defaults).atStep budget step) := by
      rw [atStep]
      split
      · exact (gives_reported_declaration m defaults budget _ _).bind_pure fun _ _ h =>
          by simpa using h
      · exact Gives.pure reported_nil
    refine (Gives.mapM fun step _ => hstep step).bind_pure fun _ parts h => ?_
    rw [flatten_eq_flatMap, flatMap_assoc]
    exact h.flatMap reported_nil Reported.append

theorem log_subset_of_mapM {f : α → Traced β} {as : List α} {bs : List β}
    (h : (as.mapM f).result = .ok bs) {a : α} (ha : a ∈ as) :
    (∃ b ∈ bs, (f a).result = .ok b) ∧ (f a).log ⊆ (as.mapM f).log := by
  induction as generalizing bs with
  | nil => cases ha
  | cons first as ih =>
    rw [mapM_cons] at h ⊢
    obtain ⟨b, hb, h⟩ := result_bind_eq_ok.mp h
    obtain ⟨rest, hrest, h⟩ := result_bind_eq_ok.mp h
    cases h
    rw [log_bind hb, log_bind hrest]
    rcases mem_cons.mp ha with rfl | ha
    · exact ⟨⟨b, mem_cons_self, hb⟩, subset_append_left _ _⟩
    · obtain ⟨⟨b', hb', hfa⟩, hsub⟩ := ih hrest ha
      exact ⟨⟨b', mem_cons_of_mem _ hb', hfa⟩, fun e he =>
        mem_append_right _ (mem_append_left _ (hsub he))⟩

/-- Every declaration of the document is mapped. -/
theorem exists_mapped_of_mem (hn : m.catalogue.names.Nodup) {d : Declaration}
    (hd : d ∈ m.catalogue.declarations) {mds : List (MappedDeclaration ε)}
    (h : (m.inOrder ordered budget).result = .ok mds) :
    ∃ pending, (∃ md ∈ mds, (m.declaration budget pending d).result = .ok md) ∧
      (m.declaration budget pending d).log ⊆ (m.inOrder ordered budget).log := by
  cases ordered with
  | false => exact ⟨[], log_subset_of_mapM h hd⟩
  | true =>
    obtain ⟨steps, hsteps, h⟩ := result_bind_eq_ok.mp h
    obtain ⟨parts, hparts, h⟩ := result_bind_eq_ok.mp h
    cases h
    obtain ⟨refs, _, hplan⟩ := bind_eq_ok.mp hsteps
    cases hplan
    have hname : d.name ∈ m.catalogue.names := mem_map_of_mem hd
    obtain ⟨step, hstep, hat⟩ := mem_map.mp
      (Catalogue.mem_order_of_mem_names m.catalogue (targets refs) hname)
    obtain ⟨⟨part, hpart, hresult⟩, hsub⟩ := log_subset_of_mapM hparts hstep
    have hatStep : m.atStep budget step =
        m.declaration budget step.pending d >>= fun md => pure [md] := by
      rw [atStep, hat, Catalogue.find?_name hn hd]
    rw [hatStep] at hresult hsub
    obtain ⟨md, hmd, hresult⟩ := result_bind_eq_ok.mp hresult
    cases hresult
    rw [log_bind hmd] at hsub
    refine ⟨step.pending, ⟨md, mem_flatten.mpr ⟨_, hpart, mem_singleton_self md⟩, hmd⟩,
      fun e he => ?_⟩
    change e ∈ (lift (m.plan budget) >>= _).log
    rw [log_bind hsteps, log_bind hparts]
    exact mem_append_right _ (mem_append_left _ (hsub (mem_append_left _ he)))

/-- A member of an enumeration of the document is warned about where the enumeration stands. -/
theorem warned_of_isMember (hn : m.catalogue.names.Nodup) {mds : List (MappedDeclaration ε)}
    (h : (m.inOrder ordered budget).result = .ok mds) {v : Value} (hv : m.IsMember v)
    (hlarge : isUnsafeInteger v) :
    ∃ name, .warning (.numericRange v.display name) ∈ (m.inOrder ordered budget).log := by
  obtain ⟨d, hd, body, hbody, vs, hvs, hv⟩ := hv
  obtain ⟨pending, ⟨md, _, hmd⟩, hsub⟩ := exists_mapped_of_mem hn hd h
  have hdeclaration : m.declaration budget pending d =
      (Logged.record (.enterDeclaration d.name) >>= fun _ =>
          checkRange ⟨d.name, .text ""⟩ vs >>= fun _ =>
        m.enumeration ⟨d.name, .text ""⟩ vs >>= fun e =>
          pure { declaration := d, expression := e, enumValues := vs }) := by
    rw [declaration, hbody]
    dsimp only
    rw [hvs]
    rfl
  rw [hdeclaration] at hmd
  obtain ⟨_, _, hmd⟩ := result_bind_eq_ok.mp hmd
  obtain ⟨_, hchecked, _⟩ := result_bind_eq_ok.mp hmd
  rw [hdeclaration, log_bind rfl] at hsub
  refine ⟨d.name, hsub (mem_append_right _ ?_)⟩
  rw [checkRange_of_rangeShown (rangeShown_of_checkRange hchecked), log_bind rfl]
  exact mem_append_left _ (mem_map.mpr ⟨v, mem_filter.mpr ⟨hv, hlarge⟩, rfl⟩)

/-- A warning about a number tells the number. -/
theorem numericRange_inj {s t : String} {a b : Scalar}
    (h : Diagnostic.numericRange s a = .numericRange t b) : s = t := by
  have hmessage := congrArg (fun d => d.message.toList) h
  have htext : (toString s).toList = (toString t).toList := by
    simpa [Diagnostic.numericRange] using hmessage
  exact String.toList_inj.mp htext

/-- Mapping a document warns about the literals and members that it writes and that may lose
precision, and about no other number. -/
theorem warned_iff (hn : m.catalogue.names.Nodup)
    {mds : List (MappedDeclaration (Noted WrittenValue ε))}
    (h : ((m.valuing defaults).inOrder ordered budget).result = .ok mds) (s : String) :
    (∃ name, .warning (.numericRange s name) ∈ ((m.valuing defaults).inOrder ordered budget).log) ↔
      ∃ md ∈ mds, ∃ w ∈ md.expression.notes, w.IsChecked ∧ w.value.display = s := by
  have hreports := (gives_reported_inOrder m defaults ordered budget).holds mds h
  constructor
  · rintro ⟨name, hlog⟩
    obtain ⟨w, hw, hc, _, heq⟩ := hreports.sound _ hlog rfl
    obtain ⟨md, hmd, hw⟩ := mem_flatMap.mp hw
    exact ⟨md, hmd, w, hw, hc, (numericRange_inj heq).symm⟩
  · rintro ⟨md, hmd, w, hw, hc, rfl⟩
    rcases hreports.complete w (mem_flatMap.mpr ⟨md, hmd, hw⟩) hc with hm | hlog
    · exact warned_of_isMember (m := m.valuing defaults) hn h hm hc.2
    · exact hlog

end Mapping

end Crosswalk
