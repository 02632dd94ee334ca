import Crosswalk.Conversion
import Crosswalk.Proofs.Places

/-!
Mapping in a session. Types and declarations are mapped one after the other in a state that each of
them may change: the place at hand, the references, the declarations that were cut off, the blocks
and the diagnostics. Main statement: for a target whose enumerations do not depend on the place, a
request has the same answer in every state, and so requests have the same answers in every order.
Between two states even the events are the same, except that diagnostics name the declaration at
hand.
-/

namespace Crosswalk

variable {ε : Type}

/-! ### Places -/

/-- Enumerations are written alike wherever they stand. -/
def Renderer.Placeless (r : Renderer ε) : Prop :=
  ∀ site other vs, r.enumeration other vs = r.enumeration site vs

namespace Mapping

/-- `g` puts a name into diagnostics. What it makes of events that lead to another place is open. -/
structure Event.Names (name : Scalar) (g : Event → Event) : Prop where
  warning : ∀ d, g (.warning d) = .warning { d with declaration := name }
  depthCut : ∀ limit n, g (.depthCut limit n) = .depthCut limit name
  reference : ∀ n, g (.reference n) = .reference n
  block : ∀ b, g (.block b) = .block b

/-- The same event while a declaration of another name is at hand. -/
def Event.inside (name : Scalar) : Event → Event
  | .warning d => .warning { d with declaration := name }
  | .depthCut limit _ => .depthCut limit name
  | e => e

theorem Event.names_inside (name : Scalar) : Names name (inside name) :=
  ⟨fun _ => rfl, fun _ _ => rfl, fun _ => rfl, fun _ => rfl⟩

variable {m : Mapping ε} {other : Site} {g : Event → Event}

/-- Only the place at hand is exchanged. -/
theorem mimics_elsewhere (hr : m.renderer.Placeless) (hg : Event.Names other.declaration g)
    (site : Site) :
    m.Mimics id g m.renderer site other where
  renderer := m.renderer.hom_id
  enumeration := fun vs => (hr site other vs).trans (m.renderer.hom_id.enumeration site vs)
  warning := fun d _ _ => hg.warning d
  depthCut := fun limit => hg.depthCut limit site.declaration
  reference := hg.reference
  block := hg.block

/-- At another place the same happens. -/
theorem mapType_elsewhere (hr : m.renderer.Placeless) (hg : Event.Names other.declaration g)
    (site : Site) (known : List Scalar) (budget : Nat) (ancestors : List Scalar) (raw : Raw) :
    m.mapType other known budget ancestors raw =
      Logged.mapLog g (m.mapType site known budget ancestors raw) := by
  have hlevel := (mimics_elsewhere hr hg site).level known budget
  exact (congrFun (congrFun (congrArg Level.type hlevel) ancestors) raw).trans (id_map _)

/-- Events that leave the place at hand as it is. -/
def Event.staysPut : Event → Bool
  | .enterDeclaration _ | .enterField _ => false
  | _ => true

theorem staysPut_mapType (m : Mapping ε) (site : Site) (known : List Scalar) (budget : Nat)
    (ancestors : List Scalar) (raw : Raw) :
    ∀ e ∈ (m.mapType site known budget ancestors raw).log, e.staysPut := by
  intro e he
  have hbelongs := m.belongsTo_mapType site known budget ancestors raw e he
  cases e <;> first | rfl | cases hbelongs

end Mapping

theorem Progress.site_afterAll {log : List Mapping.Event} (h : ∀ e ∈ log, e.staysPut)
    (p : Progress) : (p.afterAll log).1.site = p.site := by
  induction log generalizing p with
  | nil => rfl
  | cons e log ih =>
    rw [List.forall_mem_cons] at h
    rw [afterAll_cons]
    refine (ih h.2 _).trans ?_
    cases e with
    | enterDeclaration | enterField => cases h.1
    | reference | depthCut =>
      simp only [after]
      split <;> rfl
    | warning | block => rfl

/-! ### Sessions -/

/-- What has been left behind by all that was mapped so far, and the diagnostics collected. -/
structure Session where
  progress : Progress := {}
  collector : Collector := {}

/-- To map a type, or a declaration some names besides which are pending. -/
inductive Request where
  | type (known : List Scalar) (budget : Nat) (ancestors : List Scalar) (raw : Raw)
  | declaration (budget : Nat) (pending : List Scalar) (d : Declaration)

/-- The expression of a type, or a mapped declaration. -/
abbrev Answer (ε : Type) := ε ⊕ MappedDeclaration ε

/-- What a request makes of the place at hand. -/
def Request.trace (m : Mapping ε) (site : Site) : Request → Mapping.Traced (Answer ε)
  | .type known budget ancestors raw => Sum.inl <$> m.mapType site known budget ancestors raw
  | .declaration budget pending d => Sum.inr <$> m.declaration budget pending d

namespace Session

/-- Answer a request. What happens on the way changes the session, also if there is no answer. -/
def answer (m : Mapping ε) (s : Session) (r : Request) : Except Fault (Answer ε) × Session :=
  let traced := r.trace m s.progress.site
  let (progress, found) := s.progress.afterAll traced.log
  (traced.result, { progress, collector := s.collector.add found })

/-- Answer requests one after the other. -/
def answers (m : Mapping ε) : Session → List Request → List (Request × Except Fault (Answer ε))
  | _, [] => []
  | s, r :: rs => (r, (s.answer m r).1) :: answers m (s.answer m r).2 rs

variable {m : Mapping ε}

/-- One request has the same answer in every session. -/
theorem answer_eq (hr : m.renderer.Placeless) (s other : Session) (r : Request) :
    (other.answer m r).1 = (s.answer m r).1 := by
  cases r with
  | type known budget ancestors raw =>
    simp only [answer, Request.trace, Logged.result_map]
    rw [Mapping.mapType_elsewhere hr (Mapping.Event.names_inside _) s.progress.site]
    rfl
  | declaration budget pending d => rfl

/-- The answers in a run are those that the requests have on their own. -/
theorem answers_eq (hr : m.renderer.Placeless) (s alone : Session) (rs : List Request) :
    answers m s rs = rs.map fun r => (r, (alone.answer m r).1) := by
  induction rs generalizing s with
  | nil => rfl
  | cons r rs ih => rw [answers, List.map_cons, ih, answer_eq hr alone s r]

/-- After a type the place at hand is what it was. -/
theorem site_answer_type (s : Session) (known : List Scalar) (budget : Nat)
    (ancestors : List Scalar) (raw : Raw) :
    (s.answer m (.type known budget ancestors raw)).2.progress.site = s.progress.site := by
  refine Progress.site_afterAll ?_ s.progress
  rw [Request.trace, Logged.log_map]
  exact m.staysPut_mapType _ known budget ancestors raw

end Session

namespace Target

theorem placeless_renderer {t : Target} (ht : t ≠ .prisma) (indent : Indent) (root : Scalar) :
    (t.renderer indent root).Placeless := by
  cases t with
  | prisma => exact absurd rfl ht
  | _ => exact fun _ _ _ => rfl

/-- Whatever was mapped before, a request has the same answer, be it a result or a fault; so
requests have the same answers in every order. A type leaves the place at hand as it is, and its
events differ between two sessions only in the declaration that diagnostics name. -/
theorem answers_independent {t : Target} (ht : t ≠ .prisma) (indent : Indent) (root : Scalar)
    {m : Mapping t.Expression} (hm : m.renderer = t.renderer indent root) (s other : Session) :
    (∀ r, (other.answer m r).1 = (s.answer m r).1) ∧
    (∀ {rs rs' : List Request}, rs.Perm rs' → (s.answers m rs).Perm (other.answers m rs')) ∧
    (∀ known budget ancestors raw,
      (s.answer m (.type known budget ancestors raw)).2.progress.site = s.progress.site ∧
      (m.mapType other.progress.site known budget ancestors raw).log =
        (m.mapType s.progress.site known budget ancestors raw).log.map
          (Mapping.Event.inside other.progress.site.declaration)) := by
  have hr : m.renderer.Placeless := hm ▸ placeless_renderer ht indent root
  refine ⟨Session.answer_eq hr s other, ?_, fun known budget ancestors raw => ⟨?_, ?_⟩⟩
  · intro rs rs' hperm
    rw [Session.answers_eq hr s s, Session.answers_eq hr other s]
    exact hperm.map _
  · exact Session.site_answer_type s known budget ancestors raw
  · rw [Mapping.mapType_elsewhere hr (Mapping.Event.names_inside _) s.progress.site]
    rfl

/-- Two declarations, of which the first refers to the second and has a set of values. -/
def linkedCatalogue : Catalogue :=
  .ofList
    [{ name := .text "A",
       body := .object [{ key := .text "b", type := .text "B[]".toList },
         { key := .text "kind", type := .text "'x' | 'y'".toList }] },
     { name := .text "B", body := .synonym (.text "A | C".toList) }]

/-- A session in which much has happened. -/
def busySession : Session where
  progress :=
    { site := ⟨.text "B", .text "kind"⟩, references := ["A"], cut := [.text "A", .text "B"],
      blocks := [⟨"BKind", "enum BKind"⟩] }
  collector := { entries := [.unknownReference "C" (.text "B")] }

/-- All declarations and a type that is nested too deeply. -/
def linkedRequests : List Request :=
  .type linkedCatalogue.names 1 [] (.text "B[]".toList) ::
    linkedCatalogue.declarations.map (.declaration 3 [])

theorem linkedRequests_independent :
    zod ≠ prisma ∧
      let m : Mapping String :=
        ⟨.typeScript, {}, linkedCatalogue, zod.renderer {} (.text ""), false, "0"⟩
      (({} : Session).answers m linkedRequests).Perm
        (busySession.answers m linkedRequests.reverse) ∧
      (({} : Session).answers m linkedRequests).map
          (fun a => a.2.toOption.map (Sum.elim id MappedDeclaration.expression)) =
        [some "z.array(z.unknown())",
         some "z.object(\x7b\n  b: z.array(BSchema),\n  kind: z.enum([\"x\", \"y\"]),\n\x7d)",
         some "z.union([ASchema, z.unknown()])"] := by
  refine ⟨by decide, ?_, by decide +kernel⟩
  exact (answers_independent (t := .zod) (by decide) {} (.text "") rfl {} busySession).2.1
    (List.reverse_perm linkedRequests).symm

-- Prisma names the type of such a set after the place where it stands.
example : ¬ (prisma.renderer {} (.text "")).Placeless := by
  intro h
  exact absurd (congrArg Except.toOption (h ⟨.text "A", .text "kind"⟩ ⟨.text "B", .text "kind"⟩
    [.text "x"])) (by decide +kernel)

end Target

end Crosswalk
