import Crosswalk.Proofs.DepthLimit
import Crosswalk.Proofs.Sessions

/-!
Reports of what is too deep. While a declaration is at hand, types may be cut off any number of
times, and declarations may come to hand again. Main statements: in a session, a declaration is
reported once if something is cut off while it is at hand and otherwise not at all; and a
declaration that is mapped without a report is mapped alike within every wider limit.
-/

namespace Crosswalk

open List

variable {ε : Type} {n : Scalar} {s : Session}

open Mapping (Event Cut)

namespace Diagnostic

/-- The declarations that are reported as too deep. -/
def tooDeep (ds : List Diagnostic) : List Scalar :=
  (ds.filter fun d => d.problem == .depthExceeded).map declaration

theorem tooDeep_append (ds ds' : List Diagnostic) :
    tooDeep (ds ++ ds') = tooDeep ds ++ tooDeep ds' := by
  simp [tooDeep]

end Diagnostic

open Diagnostic (tooDeep tooDeep_append)

/-! ### Events -/

/-- Events that report nothing as too deep unless it is cut off. -/
def Mapping.Event.IsQuiet : Event → Prop
  | .warning d => d.problem ≠ .depthExceeded
  | _ => True

theorem Mapping.Event.isQuiet_of_belongsTo {name : Scalar} {e : Event} (h : e.belongsTo name) :
    e.IsQuiet := by
  cases e with
  | warning d => exact (of_decide_eq_true h).2
  | _ => trivial

namespace Progress

variable {e : Event} {log : List Event}

variable {p : Progress}

/-- What is reported is what has not been cut off before. -/
theorem cut_after (h : e.IsQuiet) (p : Progress) :
    (p.after e).1.cut = (tooDeep (p.after e).2).reverse ++ p.cut := by
  cases e with
  | warning d => simp [after, tooDeep, show d.problem ≠ .depthExceeded from h]
  | depthCut limit declaration =>
    simp only [after]
    split <;> rfl
  | reference name =>
    simp only [after]
    split <;> rfl
  | _ => rfl

theorem nodup_cut_after (h : p.cut.Nodup) : (p.after e).1.cut.Nodup := by
  cases e with
  | depthCut limit declaration =>
    simp only [after]
    split
    · exact h
    · exact nodup_cons.mpr ⟨by simp_all, h⟩
  | reference name =>
    simp only [after]
    split <;> exact h
  | _ => exact h

theorem mem_cut_after : n ∈ (p.after e).1.cut ↔ n ∈ p.cut ∨ ∃ limit, e = .depthCut limit n := by
  cases e with
  | depthCut limit declaration =>
    simp only [after]
    split
    case isTrue hcut =>
      have hmem : declaration ∈ p.cut := by simpa using hcut
      simpa using fun h => h ▸ hmem
    case isFalse => simp [or_comm, eq_comm]
  | reference name =>
    simp only [after]
    split <;> simp
  | _ => simp [after]

theorem cut_afterAll (h : ∀ e ∈ log, e.IsQuiet) (p : Progress) :
    (p.afterAll log).1.cut = (tooDeep (p.afterAll log).2).reverse ++ p.cut := by
  induction log generalizing p with
  | nil => rfl
  | cons e log ih =>
    rw [forall_mem_cons] at h
    rw [afterAll_cons, ih h.2, cut_after h.1, tooDeep_append, reverse_append, append_assoc]

theorem nodup_cut_afterAll (h : p.cut.Nodup) : (p.afterAll log).1.cut.Nodup := by
  induction log generalizing p with
  | nil => exact h
  | cons e log ih =>
    rw [afterAll_cons]
    exact ih (nodup_cut_after h)

theorem mem_cut_afterAll :
    n ∈ (p.afterAll log).1.cut ↔ n ∈ p.cut ∨ ∃ limit, .depthCut limit n ∈ log := by
  induction log generalizing p with
  | nil => simp
  | cons e log ih =>
    rw [afterAll_cons, ih, mem_cut_after, or_assoc, ← exists_or]
    simp only [mem_cons, eq_comm]

theorem declaration_afterAll (h : ∀ e ∈ log, e.isInner) (p : Progress) :
    (p.afterAll log).1.site.declaration = p.site.declaration := by
  induction log generalizing p with
  | nil => rfl
  | cons e log ih =>
    rw [forall_mem_cons] at h
    rw [afterAll_cons, ih h.2]
    cases e with
    | enterDeclaration name => cases h.1
    | reference | depthCut =>
      simp only [after]
      split <;> rfl
    | _ => rfl

end Progress

/-! ### Requests -/

namespace Request

variable (m : Mapping ε) (site : Site)

/-- The declaration at hand while a request is answered, and afterwards. -/
def current (name : Scalar) : Request → Scalar
  | .type .. => name
  | .declaration _ _ d => d.name

/-- Everything that a request records belongs to the declaration at hand, once it is at hand. -/
theorem isWithin_trace (r : Request) :
    ∃ l, (∀ e ∈ l, e.IsWithin (r.current site.declaration)) ∧
      ((r.trace m site).log = l ∧ r.current site.declaration = site.declaration ∨
        (r.trace m site).log = .enterDeclaration (r.current site.declaration) :: l) := by
  cases r with
  | type known budget ancestors raw =>
    refine ⟨_, fun e he => .inl ?_, .inl ⟨rfl, rfl⟩⟩
    rw [trace, Logged.log_map] at he
    exact m.belongsTo_mapType site known budget ancestors raw e he
  | declaration budget pending d =>
    obtain ⟨l, hlog, hwithin⟩ := m.isWithin_declaration budget pending d
    exact ⟨l, hwithin, .inr (by rw [trace, Logged.log_map, hlog]; rfl)⟩

theorem isQuiet_trace (r : Request) : ∀ e ∈ (r.trace m site).log, e.IsQuiet := by
  have hquiet {l : List Event} {name : Scalar} (h : ∀ e ∈ l, e.IsWithin name) :
      ∀ e ∈ l, e.IsQuiet := by
    intro e he
    obtain hbelongs | ⟨key, rfl⟩ := h e he
    · exact Event.isQuiet_of_belongsTo hbelongs
    · trivial
  obtain ⟨l, hwithin, ⟨hlog, _⟩ | hlog⟩ := r.isWithin_trace m site
  · exact hlog ▸ hquiet hwithin
  · exact hlog ▸ forall_mem_cons.mpr ⟨trivial, hquiet hwithin⟩

/-- Only the declaration at hand is said to be cut off. -/
theorem mem_trace_iff (r : Request) :
    (∃ limit, .depthCut limit n ∈ (r.trace m site).log) ↔
      r.current site.declaration = n ∧ Cut (r.trace m site) := by
  have hnamed {limit : String} {name : Scalar} (h : .depthCut limit name ∈ (r.trace m site).log) :
      name = r.current site.declaration := by
    obtain ⟨l, hwithin, ⟨hlog, _⟩ | hlog⟩ := r.isWithin_trace m site
    all_goals
      rw [hlog] at h
      obtain hbelongs | ⟨_, h⟩ := hwithin _ (by simpa using h)
      · exact of_decide_eq_true hbelongs
      · cases h
  constructor
  · rintro ⟨limit, h⟩
    exact ⟨(hnamed h).symm, _, h, rfl⟩
  · rintro ⟨rfl, e, he, hcut⟩
    cases e with
    | depthCut limit name => exact ⟨limit, hnamed he ▸ he⟩
    | _ => cases hcut

/-- A path of the recursion is as long as the budget. -/
def IsDeep (m : Mapping ε) : Request → Prop
  | .type known budget ancestors raw => m.Deep known (.type ancestors raw) budget
  | .declaration budget pending d =>
    (∃ p ∈ d.types, m.Deep m.catalogue.names (.type (d.name :: pending) p) budget) ∨
      d.isObject = true ∧ ∃ base ∈ d.bases,
        m.Deep m.catalogue.names (.reference (d.name :: pending) base) budget

/-- No other names are known than those that are declared. -/
def IsDeclared (m : Mapping ε) : Request → Prop
  | .type known .. => ∀ n, .text n ∈ known → .text n ∈ m.catalogue.names
  | .declaration .. => True

variable {m site}

theorem cut_map {α β : Type} {f : α → β} {x : Mapping.Traced α} : Cut (f <$> x) ↔ Cut x := by
  rw [Cut, Logged.log_map, Cut]

/-- What is answered is cut off exactly if it is too deep. -/
theorem cut_trace_iff {r : Request} {a : Answer ε} (hr : r.IsDeclared m)
    (ha : (r.trace m site).result = .ok a) : Cut (r.trace m site) ↔ r.IsDeep m := by
  cases r with
  | type known budget ancestors raw =>
    obtain ⟨e, he, _⟩ := map_eq_ok.mp ((Logged.result_map _ _).symm.trans ha)
    have hlevel : (m.level site known budget).Limited (m.Deep known · budget)
        ((m.withLimit m.limitText).level site known budget) :=
          Mapping.limited_level hr (Nat.le_refl budget)
    have hlimited := hlevel.type ancestors raw
    exact cut_map.trans ⟨hlimited.deep_of_cut, hlimited.cut_of_deep e he⟩
  | declaration budget pending d =>
    obtain ⟨md, hmd, _⟩ := map_eq_ok.mp ((Logged.result_map _ _).symm.trans ha)
    have hlimited :=
      Mapping.limited_members (m := m) (s := m.limitText) (Nat.le_refl budget) pending d
    exact cut_map.trans ⟨hlimited.deep_of_cut, hlimited.cut_of_deep md hmd⟩

end Request

/-! ### Sessions -/

namespace Session

variable (m : Mapping ε)

/-- The session after requests have been answered one after the other. -/
def after (s : Session) (rs : List Request) : Session := rs.foldl (fun s r => (s.answer m r).2) s

/-- The declarations that were cut off are those that were reported, each once. -/
structure Accounts (s : Session) : Prop where
  cut : s.progress.cut = (tooDeep s.collector.entries).reverse
  nodup : s.progress.cut.Nodup

variable {m}

theorem Accounts.answer (h : s.Accounts) (r : Request) : (s.answer m r).2.Accounts where
  cut := by
    refine (Progress.cut_afterAll (r.isQuiet_trace m _) s.progress).trans ?_
    rw [h.cut, ← reverse_append, ← tooDeep_append]
    rfl
  nodup := Progress.nodup_cut_afterAll h.nodup

theorem Accounts.after (h : s.Accounts) (rs : List Request) : (s.after m rs).Accounts :=
  foldlRecOn (motive := Accounts) rs _ h fun _ hs r _ => hs.answer r

theorem declaration_answer (s : Session) (r : Request) :
    (s.answer m r).2.progress.site.declaration = r.current s.progress.site.declaration := by
  obtain ⟨l, hwithin, ⟨hlog, hcurrent⟩ | hlog⟩ := r.isWithin_trace m s.progress.site
  · simp only [answer, hlog]
    rw [Progress.declaration_afterAll fun e he => (hwithin e he).isInner, hcurrent]
  · simp only [answer, hlog, Progress.afterAll_cons]
    rw [Progress.declaration_afterAll fun e he => (hwithin e he).isInner]
    rfl

theorem declaration_after (s : Session) (rs : List Request) :
    (s.after m rs).progress.site.declaration =
      rs.foldl Request.current s.progress.site.declaration := by
  induction rs generalizing s with
  | nil => rfl
  | cons r rs ih => exact (ih _).trans (by rw [declaration_answer]; rfl)

/-- What is cut off in a run is what one of its requests cuts off. -/
theorem mem_cut_after {rs : List Request} :
    n ∈ (s.after m rs).progress.cut ↔ n ∈ s.progress.cut ∨
      ∃ before r later, rs = before ++ r :: later ∧
        r.current (s.after m before).progress.site.declaration = n ∧
        Cut (r.trace m (s.after m before).progress.site) := by
  induction rs generalizing s with
  | nil => simp [after]
  | cons r rs ih =>
    have hstep : n ∈ (s.answer m r).2.progress.cut ↔ n ∈ s.progress.cut ∨
        r.current s.progress.site.declaration = n ∧ Cut (r.trace m s.progress.site) := by
      rw [← r.mem_trace_iff m s.progress.site]
      exact Progress.mem_cut_afterAll
    rw [after, foldl_cons, ← after, ih, hstep, or_assoc]
    refine or_congr_right ⟨?_, ?_⟩
    · rintro (h | ⟨before, r', later, rfl, h⟩)
      · exact ⟨[], r, rs, rfl, h⟩
      · exact ⟨r :: before, r', later, rfl, h⟩
    · rintro ⟨_ | ⟨_, before⟩, r', later, hrs, h⟩ <;> cases hrs
      · exact .inl h
      · exact .inr ⟨before, r', later, rfl, h⟩

/-- From an empty session on, no declaration is reported twice, and those are reported that are at
hand when something is cut off: when a type or an expansion is met for which no level is left. -/
theorem reported_once (m : Mapping ε) (rs : List Request) :
    (tooDeep (({} : Session).after m rs).collector.entries).Nodup ∧
    (∀ name, name ∈ tooDeep (({} : Session).after m rs).collector.entries ↔
      ∃ before r later, rs = before ++ r :: later ∧
        r.current (before.foldl Request.current (.text "")) = name ∧
        Cut (r.trace m (({} : Session).after m before).progress.site)) ∧
    ∀ r site a, Request.IsDeclared m r → (r.trace m site).result = .ok a →
      (Cut (r.trace m site) ↔ r.IsDeep m) := by
  have haccounts : (({} : Session).after m rs).Accounts := Accounts.after ⟨rfl, nodup_nil⟩ rs
  refine ⟨?_, fun name => ?_, fun r site a => Request.cut_trace_iff⟩
  · rw [← nodup_reverse, ← haccounts.cut]
    exact haccounts.nodup
  · rw [← mem_reverse, ← haccounts.cut, mem_cut_after]
    simp only [declaration_after, not_mem_nil, false_or]

/-- Two declarations that are expanded in place, each of which refers to the other. -/
def expandedLinks : Mapping String :=
  ⟨.typeScript, {}, Target.linkedCatalogue, Target.zod.renderer {} (.text ""), true, "3"⟩

/-- Types that are too deep before and after the declarations are mapped, which is done twice. -/
def repeatedRequests : List Request :=
  let deep := Request.type expandedLinks.catalogue.names 1 [] (.text "B[]".toList)
  let all := expandedLinks.catalogue.declarations.map (.declaration 2 [])
  deep :: expandedLinks.catalogue.declarations.map (.declaration 4 []) ++ deep :: all ++ deep :: all

/-- A type that is too deep is put down to the declaration that came to hand last, if any has. -/
theorem repeatedRequests_reported :
    let reported := tooDeep (({} : Session).after expandedLinks repeatedRequests).collector.entries
    reported = [.text "", .text "B", .text "A"] ∧ reported.Nodup ∧
      (∃ before r later, repeatedRequests = before ++ r :: later ∧
        r.current (before.foldl Request.current (.text "")) = .text "A" ∧
        Cut (r.trace expandedLinks (({} : Session).after expandedLinks before).progress.site)) ∧
      ∀ d ∈ expandedLinks.catalogue.declarations, ∀ site a,
        (Request.trace expandedLinks site (.declaration 2 [] d)).result = .ok a →
        (Cut (Request.trace expandedLinks site (.declaration 2 [] d)) ↔
          Request.IsDeep expandedLinks (.declaration 2 [] d)) := by
  have hreported : tooDeep (({} : Session).after expandedLinks repeatedRequests).collector.entries =
      [.text "", .text "B", .text "A"] := by decide +kernel
  obtain ⟨hnodup, hiff, hdeep⟩ := reported_once expandedLinks repeatedRequests
  refine ⟨hreported, hnodup, (hiff _).mp ?_, fun d _ site a ha => hdeep _ site a trivial ha⟩
  rw [hreported]
  simp

/-- A declaration that is mapped without being reported, and that has not been reported before, has
the same answer and leaves the same session behind within every wider limit. -/
theorem answer_of_unreported (m : Mapping ε) {limit limit' : Int} (hlimit : limit ≤ limit')
    (text : String) {s : Session} {pending : List Scalar} {d : Declaration}
    (hfresh : d.name ∉ s.progress.cut)
    (hquiet : tooDeep (s.answer m (.declaration (limit + 1).toNat pending d)).2.collector.entries =
      tooDeep s.collector.entries) :
    s.answer (m.withLimit text) (.declaration (limit' + 1).toNat pending d) =
      s.answer m (.declaration (limit + 1).toNat pending d) := by
  have huncut :
      ¬Cut (Request.trace m s.progress.site (.declaration (limit + 1).toNat pending d)) := by
    intro hcut
    have hreported := Progress.cut_afterAll
      (Request.isQuiet_trace m s.progress.site (.declaration (limit + 1).toNat pending d))
        s.progress
    have hnone : tooDeep (s.progress.afterAll
        (Request.trace m s.progress.site (.declaration (limit + 1).toNat pending d)).log).2 =
          [] := by
      simpa [answer, Collector.add, tooDeep_append] using hquiet
    rw [hnone] at hreported
    apply hfresh
    rw [← nil_append s.progress.cut, ← reverse_nil, ← hreported, Progress.mem_cut_afterAll]
    exact .inr ((Request.mem_trace_iff m _ _).mpr ⟨rfl, hcut⟩)
  have hbudget : (limit + 1).toNat ≤ (limit' + 1).toNat := by omega
  have hsame := (Mapping.limited_members (s := text) hbudget pending d).same
    (mt Request.cut_map.mpr huncut)
  simp only [answer, Request.trace, ← hsame]

/-- A session in which one of two declarations has been reported. -/
def reportedSession : Session where
  progress := { site := ⟨.text "B", .text ""⟩, references := ["A"], cut := [.text "B"] }
  collector := { entries := [.depthExceeded "2" (.text "B")] }

/-- From a limit of three on, the other is expanded alike. -/
theorem reportedSession_unreported :
    ∃ d ∈ expandedLinks.catalogue.declarations, d.name = .text "A" ∧
      d.name ∉ reportedSession.progress.cut ∧
      ∀ limit : Int, 3 ≤ limit → ∀ text,
        reportedSession.answer (expandedLinks.withLimit text)
            (.declaration (limit + 1).toNat [] d) =
          reportedSession.answer expandedLinks (.declaration 4 [] d) :=
  ⟨_, mem_cons_self .., rfl, by decide, fun _ hlimit text =>
    answer_of_unreported expandedLinks hlimit text (by decide) (by decide +kernel)⟩

end Session

end Crosswalk
