import Crosswalk.Proofs.RendererMap

/-!
What is recorded while a declaration is at hand. Main statement: after turning to a declaration,
mapping it turns to its own fields and to nothing else, and everything that it warns about or cuts
off is put down to it, also if it ends early.
-/

namespace Crosswalk

open List

variable {ε : Type}

namespace Logged

variable {ω α β : Type} {P : ω → Prop}

/-- Everything that is recorded is such, whether there is a result or not. -/
def Records (P : ω → Prop) (x : Logged ω α) : Prop := ∀ e ∈ x.log, P e

namespace Records

variable {f : α → Logged ω β}

theorem of_log_nil {x : Logged ω α} (h : x.log = []) : x.Records P := by simp [Records, h]

theorem record {e : ω} (h : P e) : (Logged.record e).Records P := by simpa [Records] using h

theorem bind {x : Logged ω α} (hx : x.Records P) (hf : ∀ a, x.result = .ok a → (f a).Records P) :
    (x >>= f).Records P := by
  intro e he
  cases hr : x.result with
  | error fault =>
    have hlog : (x >>= f).log = x.log := by simp only [Bind.bind, Logged.bind, hr]
    exact hx e (hlog ▸ he)
  | ok a =>
    rw [log_bind hr] at he
    exact (mem_append.mp he).elim (hx e) (hf a hr e)

theorem lift_bind {x : Except Fault α} (hf : ∀ a, x = .ok a → (f a).Records P) :
    (lift x >>= f).Records P :=
  (of_log_nil rfl).bind hf

theorem mapM : ∀ as : List α, (∀ a ∈ as, (f a).Records P) →
    (as.mapM f).Records P
  | [], _ => of_log_nil rfl
  | a :: as, h => by
    rw [forall_mem_cons] at h
    rw [mapM_cons]
    exact h.1.bind fun _ _ => (mapM as h.2).bind fun _ _ => of_log_nil rfl

end Records

end Logged

open Logged (Records)

namespace Mapping

variable {P : Event → Prop}

/-- Events that leave the place at hand as it is and put nothing down to another declaration. What
is too deep is not warned about directly. -/
def Event.belongsTo (name : Scalar) : Event → Bool
  | .enterDeclaration _ | .enterField _ => false
  | .warning d => d.declaration = name ∧ d.problem ≠ .depthExceeded
  | .depthCut _ n => n = name
  | .reference _ | .block _ => true

/-- Events of mapping a declaration after turning to it. -/
def Event.IsWithin (name : Scalar) (e : Event) : Prop :=
  e.belongsTo name = true ∨ ∃ key, e = .enterField key

/-- Events other than turning to another declaration. -/
def Event.isInner : Event → Bool
  | .enterDeclaration _ => false
  | _ => true

theorem Event.IsWithin.isInner {name : Scalar} {e : Event} (h : e.IsWithin name) :
    e.isInner := by
  obtain hbelongs | ⟨key, rfl⟩ := h
  · cases e <;> first | rfl | cases hbelongs
  · rfl

/-- The same event, if it belongs to a declaration. -/
def Event.settled (name : Scalar) (e : Event) : Event :=
  if e.belongsTo name then e else .reference ""

theorem belongsTo_settled (name : Scalar) (e : Event) : (e.settled name).belongsTo name := by
  rw [Event.settled]
  split
  · assumption
  · rfl

variable (m : Mapping ε) (site : Site)

/-- No other events occur than those that belong to the place at hand: the others may be replaced
without a difference. -/
theorem mimics_settled :
    m.Mimics id (Event.settled site.declaration) m.renderer site site where
  renderer := m.renderer.hom_id
  enumeration := fun vs => m.renderer.hom_id.enumeration site vs
  warning := fun d hd hp => by
    rw [Event.settled, if_pos (by simp [Event.belongsTo, hd, hp]), ← hd]
  depthCut := fun limit => by simp [Event.settled, Event.belongsTo]
  reference := fun _ => rfl
  block := fun _ => rfl

theorem belongsTo_of_carry {α : Type} {x y : Traced α}
    (h : y = Logged.carry id (Event.settled site.declaration) x) :
    y.Records (Event.belongsTo site.declaration ·) := by
  rw [h, Logged.carry, id_map]
  intro e he
  obtain ⟨e', _, rfl⟩ := mem_map.mp he
  exact belongsTo_settled _ e'

theorem belongsTo_mapType (known : List Scalar) (budget : Nat) (a : List Scalar) (raw : Raw) :
    (m.mapType site known budget a raw).Records (Event.belongsTo site.declaration ·) :=
  belongsTo_of_carry site
    (congrFun (congrFun (congrArg Level.type ((m.mimics_settled site).level known budget)) a) raw)

theorem belongsTo_mapReference (known : List Scalar) (budget : Nat) (a : List Scalar)
    (name : String) :
    (m.mapReference site known budget a name).Records (Event.belongsTo site.declaration ·) :=
  belongsTo_of_carry site
    (congrFun (congrFun (congrArg Level.reference ((m.mimics_settled site).level known budget)) a)
      name)

theorem records_mapFields {type : Field → Traced ε} (h : ∀ f, (type f).Records P)
    (fs : List Field) :
    (mapFields type fs).Records P := by
  induction fs using Field.induction with
  | nil => exact .of_log_nil rfl
  | cons f fs harguments hfs =>
    rw [mapFields_cons]
    exact (h f).bind fun _ _ => harguments.bind fun _ _ => hfs.bind fun _ _ => .of_log_nil rfl

theorem records_mapAdditional {type : Raw → Traced ε} (h : ∀ raw, (type raw).Records P) :
    ∀ a, (mapAdditional type a).Records P
  | none | some .anything | some .nothing => .of_log_nil rfl
  | some (.typed raw) => (h raw).bind fun _ _ => .of_log_nil rfl

/-- Mapping a declaration turns to it and stays within it. -/
theorem isWithin_declaration (budget : Nat) (pending : List Scalar) (d : Declaration) :
    ∃ l, (m.declaration budget pending d).log = .enterDeclaration d.name :: l ∧
      ∀ e ∈ l, e.IsWithin d.name := by
  have hmimics (field : Scalar) := m.mimics_settled ⟨d.name, field⟩
  have htype (field : Scalar) (raw : Raw) :
      (m.mapType ⟨d.name, field⟩ m.catalogue.names budget (d.name :: pending) raw).Records
        (Event.IsWithin d.name) := fun e he => .inl (m.belongsTo_mapType _ _ _ _ _ e he)
  have hreference (field : Scalar) (name : String) :
      (m.mapReference ⟨d.name, field⟩ m.catalogue.names budget (d.name :: pending) name).Records
        (Event.IsWithin d.name) := fun e he => .inl (m.belongsTo_mapReference _ _ _ _ _ e he)
  refine ⟨_, Logged.log_bind rfl _, ?_⟩
  change Records (Event.IsWithin d.name) _
  cases d.body with
  | enumeration body =>
    refine Records.lift_bind fun vs _ => ?_
    have hrange : (checkRange ⟨d.name, .text ""⟩ vs).Records (Event.IsWithin d.name) := fun e he =>
      .inl (belongsTo_of_carry ⟨d.name, .text ""⟩
        (((hmimics _).checkRange vs).trans (id_map _).symm) e he)
    have hvalues : (m.enumeration ⟨d.name, .text ""⟩ vs).Records (Event.IsWithin d.name) :=
        fun e he =>
      .inl (belongsTo_of_carry _ ((hmimics (.text "")).enumeration_eq vs) e he)
    exact hrange.bind fun _ _ => hvalues.bind fun _ _ => .of_log_nil rfl
  | synonym body => exact (htype _ body).bind fun _ _ => .of_log_nil rfl
  | object fields =>
    refine (records_mapFields (fun f => ?_) fields).bind fun _ _ => ?_
    · exact (Records.record (.inr ⟨f.key, rfl⟩)).bind fun _ _ => htype _ f.type
    · refine (records_mapAdditional (htype _) d.additional?).bind fun _ _ => ?_
      refine Records.lift_bind fun _ _ => ?_
      refine (Records.mapM d.bases fun b _ => hreference _ b).bind fun _ _ => ?_
      exact Records.lift_bind fun _ _ => .of_log_nil rfl

end Mapping

end Crosswalk
