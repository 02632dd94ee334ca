import Crosswalk.Proofs.DependencyOrder
import Mathlib.Logic.Relation

/-!
References back to names that are still open. Each name that is open at a step leads to it along the
references, so that a reference from the step to such a name closes a cycle. Main statement: the
order of a catalogue lists every declaration once, each after what it refers to but for the
references that close a cycle.
-/

namespace Crosswalk.Catalogue

open List
open Relation (ReflTransGen TransGen)

variable {declared : List Scalar} {refs : Scalar → List Scalar}

/-- One declaration refers to another. -/
def Refers (declared : List Scalar) (refs : Scalar → List Scalar) (a b : Scalar) : Prop :=
  a ∈ declared ∧ b ∈ declared ∧ b ∈ refs a

/-- Every name that is open at a step leads to it. -/
def Step.Led (declared : List Scalar) (refs : Scalar → List Scalar) (s : Step) : Prop :=
  ∀ n ∈ s.pending, ReflTransGen (Refers declared refs) n s.name

theorem led_foldl {visitOne : List Step → Scalar → List Step} {names : List Scalar}
    (hone : ∀ name ∈ names, ∀ done : List Step, (∀ s ∈ done, s.Led declared refs) →
      ∀ s ∈ visitOne done name, s.Led declared refs)
    {done : List Step} (hdone : ∀ s ∈ done, s.Led declared refs) :
    ∀ s ∈ names.foldl visitOne done, s.Led declared refs := by
  induction names generalizing done with
  | nil => exact hdone
  | cons name names ih =>
    have hfirst := hone name mem_cons_self done hdone
    exact ih (fun n hn => hone n (mem_cons_of_mem name hn)) hfirst

/-- The induction is on the fuel: below a name the chain grows by that name, which leads to whatever
it refers to. -/
theorem led_visit (fuel : Nat) {chain : List Scalar} {name : Scalar}
    (hchain : name ∈ declared → ∀ n ∈ chain, ReflTransGen (Refers declared refs) n name)
    {done : List Step} (hdone : ∀ s ∈ done, s.Led declared refs) :
    ∀ s ∈ visit declared refs fuel chain done name, s.Led declared refs := by
  induction fuel generalizing chain name done with
  | zero => exact hdone
  | succ fuel ih =>
    rw [visit]
    split
    case isTrue => exact hdone
    case isFalse hfresh =>
      rw [passed_iff, not_or, not_not] at hfresh
      have hdecl : name ∈ declared := hfresh.1
      have hopen : ∀ n ∈ chain ++ [name], ReflTransGen (Refers declared refs) n name := by
        intro n hn
        rcases mem_append.mp hn with hn | hn
        · exact hchain hdecl n hn
        · exact mem_singleton.mp hn ▸ .refl
      have hbelow : ∀ s ∈ (refs name).foldl (visit declared refs fuel (chain ++ [name])) done,
          s.Led declared refs := by
        apply led_foldl
        · intro target htarget done' hdone'
          apply ih
          · intro htd n hn
            exact (hopen n hn).tail ⟨hdecl, htd, htarget⟩
          · exact hdone'
        · exact hdone
      intro s hs
      rcases mem_append.mp hs with hs | hs
      · exact hbelow s hs
      · cases mem_singleton.mp hs
        exact hopen

theorem led_order (c : Catalogue) (refs : Scalar → List Scalar) :
    ∀ s ∈ c.order refs, s.Led c.names refs := by
  apply led_foldl
  · intro name _ done hdone
    exact led_visit c.names.length (by simp) hdone
  · simp

/-- A reference from a step to a name that is open there closes a cycle. -/
theorem cycle_of_pending {c : Catalogue} {s : Step} (hs : s ∈ c.order refs) {n : Scalar}
    (href : n ∈ refs s.name) (hn : n ∈ s.pending) :
    Refers c.names refs s.name n ∧ ReflTransGen (Refers c.names refs) n s.name := by
  obtain ⟨before, after, horder⟩ := append_of_mem hs
  have hsettled : Settled c.names refs (before.map Step.name) s :=
    (horder ▸ wellOrdered_order c refs : WellOrdered c.names refs (before ++ s :: after)).settled
  have hname := hsettled.open_declared _ hsettled.self_open
  exact ⟨⟨hname, hsettled.open_declared n hn, href⟩, led_order c refs s hs n hn⟩

/-- Looking up the names of the order gives every declaration once. -/
theorem order_declarations_perm (ds : List Declaration) (refs : Scalar → List Scalar) :
    (((ofList ds).order refs).map fun s => (ofList ds).find? s.name).Perm
      ((ofList ds).declarations.map some) := by
  have hnodup := names_ofList_nodup ds
  have hperm := (order_perm (ofList ds) refs hnodup).map (ofList ds).find?
  have hlookup : (ofList ds).names.map (ofList ds).find? = (ofList ds).declarations.map some := by
    rw [names, map_map]
    exact map_congr_left fun d hd => find?_name hnodup hd
  rwa [map_map, hlookup] at hperm

/-- The order of a catalogue is a depth-first order: every declaration stands in it once. At a step
the step itself is open and nothing that is open stands before it; what it refers to stands before
it or is open, and a reference to what is open closes a cycle. Without cycles no step refers to a
name that is open. -/
theorem order_depth_first (ds : List Declaration) (refs : Scalar → List Scalar) :
    (((ofList ds).order refs).map fun s => (ofList ds).find? s.name).Perm
        ((ofList ds).declarations.map some) ∧
      (∀ before s after, (ofList ds).order refs = before ++ s :: after →
        s.name ∈ s.pending ∧
        (∀ n ∈ s.pending, n ∉ before.map Step.name) ∧
        (∀ n ∈ refs s.name, n ∈ (ofList ds).names → n ∈ before.map Step.name ∨ n ∈ s.pending) ∧
        ∀ n ∈ refs s.name, n ∈ s.pending → Refers (ofList ds).names refs s.name n ∧
          ReflTransGen (Refers (ofList ds).names refs) n s.name) ∧
      ((∀ n, ¬TransGen (Refers (ofList ds).names refs) n n) →
        ∀ s ∈ (ofList ds).order refs, ∀ n ∈ refs s.name, n ∉ s.pending) := by
  refine ⟨order_declarations_perm ds refs, ?_, ?_⟩
  · intro before s after horder
    have hord := wellOrdered_order (ofList ds) refs
    rw [horder] at hord
    have hs : s ∈ (ofList ds).order refs := by
      rw [horder]
      exact mem_append_right before mem_cons_self
    exact ⟨hord.settled.self_open, hord.settled.open_not_before,
      fun n hn hd => (hord.settled.covered n hn hd).symm, fun n hn => cycle_of_pending hs hn⟩
  · intro hacyclic s hs n href hn
    obtain ⟨hfirst, hback⟩ := cycle_of_pending hs href hn
    exact hacyclic s.name (TransGen.head' hfirst hback)

/-- Three names without a body of their own. -/
def loopNames : List Declaration :=
  ["A", "B", "C"].map fun n => { name := .text n, body := .synonym (.text []) }

/-- `A` and `B` refer to each other, `B` also to itself; `X` is not declared and `C` has no
entry. -/
def loopRefs (n : Scalar) : List Scalar :=
  if n = .text "A" then [.text "B", .text "X", .text "B"]
  else if n = .text "B" then [.text "A", .text "B", .text "C"]
  else []

/-- `A` refers to `B`, which refers to nothing. -/
def arrowRefs (n : Scalar) : List Scalar := if n = .text "A" then [.text "B"] else []

theorem loop_depth_first :
    (ofList loopNames).order loopRefs =
        [⟨.text "C", [.text "A", .text "B", .text "C"]⟩, ⟨.text "B", [.text "A", .text "B"]⟩,
          ⟨.text "A", [.text "A"]⟩] ∧
      (Refers (ofList loopNames).names loopRefs (.text "B") (.text "A") ∧
        ReflTransGen (Refers (ofList loopNames).names loopRefs) (.text "A") (.text "B")) ∧
      ∀ s ∈ (ofList loopNames).order arrowRefs, ∀ n ∈ arrowRefs s.name, n ∉ s.pending := by
  have horder : (ofList loopNames).order loopRefs =
      [⟨.text "C", [.text "A", .text "B", .text "C"]⟩, ⟨.text "B", [.text "A", .text "B"]⟩,
        ⟨.text "A", [.text "A"]⟩] := by decide
  have harrow {a b : Scalar} (h : Refers (ofList loopNames).names arrowRefs a b) :
      a = .text "A" ∧ b = .text "B" := by
    have href := h.2.2
    rw [arrowRefs] at href
    split at href
    case isTrue ha => exact ⟨ha, mem_singleton.mp href⟩
    case isFalse => cases href
  refine ⟨horder, ?_, ?_⟩
  · have hstep := (order_depth_first loopNames loopRefs).2.1 [_] _ [_] horder
    exact hstep.2.2.2 (.text "A") (by decide) (by decide)
  · apply (order_depth_first loopNames arrowRefs).2.2
    intro n hcycle
    obtain ⟨_, hfirst, _⟩ := TransGen.head'_iff.mp hcycle
    obtain ⟨_, _, hlast⟩ := TransGen.tail'_iff.mp hcycle
    have hclash := (harrow hfirst).1.symm.trans (harrow hlast).2
    exact absurd hclash (by decide)

end Crosswalk.Catalogue
