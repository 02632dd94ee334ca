import Crosswalk.Proofs.PatternSpans

/-!
Texts without the matches of a pattern. Matches are taken away from left to right, and the search
goes on behind each. Main statement: a text stays as it is exactly if the pattern occurs nowhere in
it.
-/

namespace Crosswalk.Text.Pattern

open List

variable {a : Pattern} {prev : Option Char} {cs rest out x : List Char} {g : Groups} {p q : Place}

theorem occurs_cons {d : Char} :
    a.Occurs prev (d :: cs) ↔ ¬a.Fails prev (d :: cs) ∨ a.Occurs (some d) cs := by
  constructor
  · rintro ⟨u, y, z, hcs, hy⟩
    cases u with
    | nil => exact Or.inl fun hfails => hfails y z hcs hy
    | cons e u =>
      obtain ⟨rfl, hrest⟩ := cons.inj hcs
      rw [Place.getLast?_cons_or] at hy
      exact Or.inr ⟨u, y, z, hrest, hy⟩
  · intro h
    rcases h with hfails | ⟨u, y, z, rfl, hy⟩
    · simp only [Fails, not_forall, not_not] at hfails
      obtain ⟨y, z, hcs, hy⟩ := hfails
      exact ⟨[], y, z, hcs, hy⟩
    · exact ⟨d :: u, y, z, rfl, by rwa [Place.getLast?_cons_or]⟩

/-- What is offered is spanned. -/
theorem Offers.spans {g' : Groups} (h : Offers a prev x rest g g') : a.Spans prev x rest := by
  obtain ⟨y, q, g'', hpass, hy, hr⟩ := exists_spans_of_first
    (h ⟨0, prev, x ++ rest⟩ rfl rfl _ (fun q _ => if q.rest = rest then some () else none) ()
      (if_pos rfl))
  have hrest : q.rest = rest := by
    by_contra hne
    rw [if_neg hne] at hr
    cases hr
  have hxy : x ++ rest = y ++ rest := by
    have := hpass.rest
    rwa [hrest] at this
  rw [append_cancel_right hxy, ← hrest]
  exact hy

theorem allFrom_of_fails {d : Char} (h : a.Fails p.previous p.rest) (hp : p.rest = d :: cs)
    (fuel : Nat) :
    a.allFrom fuel p = a.allFrom fuel ⟨p.index + 1, some d, cs⟩ := by
  obtain ⟨n, prev, rest⟩ := p
  cases hp
  have hnone : a.matchAt? ⟨n, prev, d :: cs⟩ = none := h.first_eq_none
  cases fuel with
  | zero => rfl
  | succ fuel => rw [allFrom, allFrom, search?_cons, hnone, Option.none_or]

theorem allFrom_of_offers (h : Offers a p.previous x rest [] g) (hp : p.rest = x ++ rest)
    (hx : x ≠ []) (fuel : Nat) :
    a.allFrom (fuel + 1) p = ⟨p, p.behind x rest, g⟩ :: a.allFrom fuel (p.behind x rest) := by
  have hmoves : (p.behind x rest).index ≠ p.index := by
    have hpos := length_pos_iff.mpr hx
    change p.index + x.length ≠ p.index
    omega
  rw [allFrom, h.search? hp]
  dsimp only
  rw [if_neg hmoves]

theorem allFrom_of_not_occurs (h : ¬a.Occurs p.previous p.rest) (fuel : Nat) :
    a.allFrom fuel p = [] := by
  cases fuel with
  | zero => rfl
  | succ fuel => rw [allFrom, search?_eq_none_iff.mpr h]

theorem substitute_of_not_occurs (h : ¬a.Occurs none cs) (new : Found → List Char) :
    a.substitute new cs = cs := by
  rw [substitute, Pattern.all, allFrom_of_not_occurs h]
  simp [Place.start]

/-! ### Patterns with a character in every match -/

section Mark

variable {c : Char} (hc : ∀ prev x rest, a.Spans prev x rest → c ∈ x)
include hc

theorem not_occurs_of_notMem (h : c ∉ cs) : ¬a.Occurs prev cs := by
  rintro ⟨u, y, z, rfl, hy⟩
  exact h (by simp [hc _ _ _ hy])

/-- A text with one such character holds one match at most. -/
theorem all_eq_toList (h : cs.count c ≤ 1) : a.all cs = (a.search? (.start cs)).toList := by
  cases hm : a.search? (.start cs) with
  | none => rw [Pattern.all, allFrom, hm, Option.toList_none]
  | some m =>
    obtain ⟨u, y, hu, hy, hspans⟩ := exists_of_search? hm
    have hmem := hc _ _ _ hspans
    have hmoves : m.stop.index ≠ m.start.index := by
      rw [hy.index]
      have hpos := length_pos_of_mem hmem
      omega
    have hrest : c ∉ m.stop.rest := by
      have hcs : cs = u ++ (y ++ m.stop.rest) := by
        rw [← hy.rest]
        exact hu.rest
      rw [hcs, count_append, count_append] at h
      have hpos := count_pos_iff.mpr hmem
      exact count_eq_zero.mp (by omega)
    rw [Pattern.all, allFrom, hm]
    dsimp only
    rw [if_neg hmoves, allFrom_of_not_occurs (not_occurs_of_notMem hc hrest), Option.toList_some]

end Mark

/-! ### What is left -/

/-- A walk through a text behind `prev` that passes over each match and keeps all else. -/
inductive Erased (a : Pattern) : Option Char → List Char → List Char → Prop
  | nil {prev : Option Char} (h : a.Fails prev []) : Erased a prev [] []
  | keep {prev : Option Char} {d : Char} {cs out : List Char} (h : a.Fails prev (d :: cs))
      (hcs : Erased a (some d) cs out) : Erased a prev (d :: cs) (d :: out)
  | drop {prev : Option Char} {x rest out : List Char} {g : Groups} (hx : x ≠ [])
      (h : Offers a prev x rest [] g) (hrest : Erased a (x.getLast?.or prev) rest out) :
      Erased a prev (x ++ rest) out

namespace Erased

theorem length_le (h : Erased a prev cs out) : out.length ≤ cs.length := by
  induction h with
  | nil => exact Nat.le_refl _
  | keep _ _ ih => exact Nat.succ_le_succ ih
  | drop _ _ _ ih =>
    rw [length_append]
    exact Nat.le_trans ih (Nat.le_add_left _ _)

/-- Only what matches is lost. -/
theorem subset (h : Erased a prev cs out) : out ⊆ cs := by
  induction h with
  | nil => exact Subset.refl _
  | keep _ _ ih => exact cons_subset_cons _ ih
  | drop _ _ _ ih => exact fun _ hd => mem_append_right _ (ih hd)

theorem eq_self_iff (h : Erased a prev cs out) : out = cs ↔ ¬a.Occurs prev cs := by
  induction h with
  | @nil prev h =>
    refine iff_of_true rfl ?_
    rintro ⟨u, y, z, hcs, hy⟩
    obtain ⟨rfl, hyz⟩ := append_eq_nil_iff.mp hcs.symm
    exact h y z hyz.symm hy
  | keep h _ ih => rw [occurs_cons, cons_inj_right, ih, not_or, not_not, and_iff_right h]
  | @drop prev x rest out g hx h hrest ih =>
    refine iff_of_false (fun heq => ?_) (not_not.mpr ⟨[], x, rest, rfl, h.spans⟩)
    have hlength := hrest.length_le
    rw [heq, length_append] at hlength
    exact hx (length_eq_zero_iff.mp (by omega))

/-- Characters that start no match are kept. -/
theorem append_left {u : List Char} (hu : ∀ d ∈ u, ∀ prev rest, a.Fails prev (d :: rest))
    (h : ∀ prev, Erased a prev cs out) (prev : Option Char) :
    Erased a prev (u ++ cs) (u ++ out) := by
  induction u generalizing prev with
  | nil => exact h prev
  | cons d u ih =>
    obtain ⟨hd, hu⟩ := forall_mem_cons.mp hu
    exact .keep (hd prev _) (ih hu _)

/-- The state of the walk: what stands behind the last match, and the matches that are to come. -/
theorem flatten_allFrom (h : Erased a prev cs out) {fuel : Nat} (hfuel : cs.length < fuel)
    (hprev : p.previous = prev) (hp : p.rest = cs) {kept : List Char}
      (hpass : Place.Passes kept q p)
    (passed : List (List Char)) :
    let go := (a.allFrom fuel p).foldl (fun (acc : List (List Char) × Place) m =>
      ([] :: acc.2.upTo m.start :: acc.1, m.stop)) (passed, q)
    (go.2.rest :: go.1).reverse.flatten = passed.reverse.flatten ++ (kept ++ out) := by
  induction h generalizing fuel p q kept passed with
  | @nil prev h =>
    have hnone : a.allFrom fuel p = [] := by
      refine allFrom_of_not_occurs ?_ fuel
      rw [hp]
      exact (Erased.nil (hprev ▸ h)).eq_self_iff.mp rfl
    rw [hnone]
    simp [hpass.rest, hp]
  | @keep prev d cs out h hcs ih =>
    have hmove := Place.Passes.cons (p := p) hp
    rw [allFrom_of_fails (by rwa [hprev, hp]) hp]
    have hgo :=
      ih (p := ⟨p.index + 1, some d, cs⟩) (Nat.lt_of_succ_lt hfuel) rfl rfl (hpass.trans hmove)
      passed
    rwa [append_assoc, singleton_append] at hgo
  | @drop prev x rest out g hx h hrest ih =>
    obtain ⟨n, rfl⟩ := Nat.exists_eq_add_one_of_ne_zero (Nat.ne_of_gt (Nat.zero_lt_of_lt hfuel))
    rw [allFrom_of_offers (hprev ▸ h) hp hx, foldl_cons]
    have hkept : q.upTo p = kept := by
      rw [hpass.eq_behind]
      exact Place.upTo_behind hpass.rest
    have hlength : rest.length < n := by
      have hpos := length_pos_iff.mpr hx
      rw [length_append] at hfuel
      omega
    have hgo := ih (p := p.behind x rest) (q := p.behind x rest) hlength (by rw [← hprev]; rfl) rfl
      (.refl _) ([] :: q.upTo p :: passed)
    rw [hkept] at hgo ⊢
    simpa using hgo

theorem substitute_eq (h : Erased a none cs out) : a.substitute (fun _ => []) cs = out :=
  h.flatten_allFrom (Nat.lt_succ_self _) rfl rfl (.refl _) []

end Erased

end Crosswalk.Text.Pattern
