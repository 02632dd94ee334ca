import Crosswalk.Text.Pattern
import Crosswalk.Text.Segment
import Mathlib.Data.List.Forall2

/-!
The texts that patterns match. A text is spanned by a pattern, behind the character before it and in
front of the text that follows, whatever the order in which the matcher offers its choices. Main
statement: a search finds nothing exactly if no part of the text is spanned.
-/

namespace Crosswalk.Text

open List

variable {x y rest cs : List Char} {prev : Option Char} {p q : Place} {c : Char → Bool} {d : Char}
    {n : Nat}
  {w : String}

namespace Place

/-- `x` lies between two places. -/
structure Passes (x : List Char) (p q : Place) : Prop where
  rest : p.rest = x ++ q.rest
  index : q.index = p.index + x.length
  previous : q.previous = x.getLast?.or p.previous

theorem Passes.refl (p : Place) : Passes [] p p := ⟨rfl, rfl, rfl⟩

theorem Passes.cons (hp : p.rest = d :: y) : Passes [d] p ⟨p.index + 1, some d, y⟩ := ⟨hp, rfl, rfl⟩

theorem Passes.trans {r : Place} (hx : Passes x p q) (hy : Passes y q r) :
    Passes (x ++ y) p r := by
  refine ⟨?_, ?_, ?_⟩
  · rw [hx.rest, hy.rest, append_assoc]
  · rw [hy.index, hx.index, length_append, Nat.add_assoc]
  · rw [hy.previous, hx.previous, getLast?_append, Option.or_assoc]

/-- The place behind a text that stands ahead. -/
def behind (p : Place) (x rest : List Char) : Place :=
  ⟨p.index + x.length, x.getLast?.or p.previous, rest⟩

theorem passes_behind (h : p.rest = x ++ rest) : Passes x p (p.behind x rest) :=
  ⟨h, rfl, rfl⟩

theorem Passes.eq_behind (h : Passes x p q) : q = p.behind x q.rest := by
  obtain ⟨hrest, hindex, hprevious⟩ := h
  rw [behind, ← hindex, ← hprevious]

theorem behind_behind (p : Place) (x y rest rest' : List Char) :
    (p.behind x rest').behind y rest = p.behind (x ++ y) rest := by
  rw [behind, behind, behind, length_append, getLast?_append, Nat.add_assoc, Option.or_assoc]

/-- Two texts are passed one after the other. -/
theorem Passes.split (h : Passes (x ++ y) p q) :
    Passes x p (p.behind x (y ++ q.rest)) ∧ Passes y (p.behind x (y ++ q.rest)) q := by
  refine ⟨passes_behind (by rw [h.rest, append_assoc]), rfl, ?_, ?_⟩
  · rw [h.index, behind, length_append, Nat.add_assoc]
  · rw [h.previous, behind, getLast?_append, Option.or_assoc]

theorem Passes.eq_of_nil (h : Passes [] p q) : q = p := by
  rw [h.eq_behind, ← h.rest.trans (nil_append _)]
  rfl

theorem getLast?_cons_or (d : Char) (x : List Char) (prev : Option Char) :
    (d :: x).getLast?.or prev = x.getLast?.or (some d) := by
  rw [getLast?_cons]
  cases x.getLast? <;> rfl

theorem Passes.tail {e : Char} (h : Passes (d :: x) ⟨n, prev, e :: rest⟩ q) :
    e = d ∧ Passes x ⟨n + 1, some e, rest⟩ q := by
  obtain ⟨hhead, hrest⟩ := cons.inj h.rest
  subst hhead
  refine ⟨rfl, hrest, ?_, ?_⟩
  · rw [h.index, length_cons, Nat.add_right_comm, Nat.add_assoc]
  · rw [h.previous, getLast?_cons_or]

theorem mem_reachOver (rest : List Char) {passed : List Place}
    (h : q ∈ reachOver c passed n prev rest) :
    q ∈ passed ∨ ∃ x, (∀ d ∈ x, c d) ∧ Passes x ⟨n, prev, rest⟩ q := by
  induction rest generalizing n prev passed with
  | nil =>
    rcases mem_cons.mp h with rfl | h
    · exact .inr ⟨[], by simp, .refl _⟩
    · exact .inl h
  | cons d rest ih =>
    rw [reachOver] at h
    split at h
    case isTrue hd =>
      rcases ih h with h | ⟨x, hx, hpasses⟩
      · rcases mem_cons.mp h with rfl | h
        · exact .inr ⟨[], by simp, .refl _⟩
        · exact .inl h
      · exact .inr ⟨d :: x, forall_mem_cons.mpr ⟨hd, hx⟩,
          (Passes.cons (p := ⟨n, prev, d :: rest⟩) rfl).trans hpasses⟩
    case isFalse =>
      rcases mem_cons.mp h with rfl | h
      · exact .inr ⟨[], by simp, .refl _⟩
      · exact .inl h

/-- A run over a class offers every place that is reached over its characters. -/
theorem mem_reachOver_of_passes (x : List Char) (hx : ∀ d ∈ x, c d) {passed : List Place}
    (h : q ∈ passed ∨ Passes x ⟨n, prev, rest⟩ q) : q ∈ reachOver c passed n prev rest := by
  induction rest generalizing x n prev passed with
  | nil =>
    rw [reachOver]
    rcases h with h | h
    · exact mem_cons_of_mem _ h
    · obtain ⟨rfl, hq⟩ := append_eq_nil_iff.mp h.rest.symm
      rw [h.eq_behind, hq]
      exact mem_cons_self
  | cons d rest ih =>
    rw [reachOver]
    rcases h with h | h
    · split
      · exact ih [] (by simp) (.inl (mem_cons_of_mem _ h))
      · exact mem_cons_of_mem _ h
    · cases x with
      | nil =>
        have hq : q = ⟨n, prev, d :: rest⟩ := h.eq_of_nil
        split
        · exact ih [] (by simp) (.inl (hq ▸ mem_cons_self))
        · exact hq ▸ mem_cons_self
      | cons e x =>
        obtain ⟨he, hx'⟩ := forall_mem_cons.mp hx
        obtain ⟨rfl, hnext⟩ := h.tail
        rw [if_pos he]
        exact ih x hx' (.inr hnext)

/-- A run over a class offers first the place that is furthest. -/
theorem reachOver_append (hx : ∀ d ∈ x, c d) (hrest : ∀ d ∈ rest.head?, c d = false)
    (n : Nat) (prev : Option Char) (passed : List Place) :
    ∃ others, reachOver c passed n prev (x ++ rest) =
      ⟨n + x.length, x.getLast?.or prev, rest⟩ :: others := by
  induction x generalizing n prev passed with
  | nil =>
    refine ⟨passed, ?_⟩
    cases rest with
    | nil => rfl
    | cons d rest =>
      rw [nil_append, reachOver, hrest d rfl]
      rfl
  | cons d x ih =>
    obtain ⟨hd, hx'⟩ := forall_mem_cons.mp hx
    obtain ⟨others, hothers⟩ := ih hx' (n + 1) (some d) (⟨n, prev, d :: (x ++ rest)⟩ :: passed)
    refine ⟨others, ?_⟩
    rw [cons_append, reachOver, if_pos hd, hothers, getLast?_cons_or, length_cons,
      Nat.add_right_comm, Nat.add_assoc]

theorem upTo_behind (h : p.rest = x ++ rest) : p.upTo (p.behind x rest) = x := by
  rw [upTo, behind, h, Nat.add_sub_cancel_left, take_left']
  rfl

theorem skip_length (h : p.rest = x ++ rest) : p.skip x.length = p.behind x rest := by
  induction x generalizing p with
  | nil => exact (passes_behind h).eq_of_nil.symm
  | cons d x ih =>
    obtain ⟨n, prev, cs⟩ := p
    obtain rfl : cs = d :: (x ++ rest) := h
    change skip x.length ⟨n + 1, some d, x ++ rest⟩ = _
    rw [ih rfl, behind, behind, getLast?_cons_or, length_cons, Nat.add_right_comm, Nat.add_assoc]

end Place

namespace Pattern

/-- Texts that are not empty, one after the other. -/
inductive Repeats (R : Option Char → List Char → List Char → Prop) :
    Option Char → List Char → List Char → Prop
  | nil {prev : Option Char} {rest : List Char} : Repeats R prev [] rest
  | cons {prev : Option Char} {x y rest : List Char} (hx : x ≠ []) (h : R prev x (y ++ rest))
      (hy : Repeats R (x.getLast?.or prev) y rest) : Repeats R prev (x ++ y) rest

/-- The pattern matches `x` behind `prev` and in front of `rest`. -/
def Spans : Pattern → Option Char → List Char → List Char → Prop
  | .empty, _, x, _ => x = []
  | .one c, _, x, _ => ∃ d, c d = true ∧ x = [d]
  | .seq a b, prev, x, rest => ∃ y z, x = y ++ z ∧ a.Spans prev y (z ++ rest) ∧
      b.Spans (y.getLast?.or prev) z rest
  | .alt a b, prev, x, rest => a.Spans prev x rest ∨ b.Spans prev x rest
  | .run c, _, x, _ | .reluctantRun c, _, x, _ => ∀ d ∈ x, c d = true
  | .star a, prev, x, rest => Repeats a.Spans prev x rest
  | .group _ a, prev, x, rest => a.Spans prev x rest
  | .wordEdge, prev, x, rest => x = [] ∧ prev.any isWord ≠ rest.head?.any isWord
  | .lineStart, prev, x, _ => x = [] ∧ (prev = none ∨ prev = some '\n')
  | .lineEnd, _, x, rest => x = [] ∧ (rest = [] ∨ rest.head? = some '\n')
  | .textEnd, _, x, rest => x = [] ∧ (rest = [] ∨ rest = ['\n'])
  | .ahead a, prev, x, rest => x = [] ∧ ∃ y z, rest = y ++ z ∧ a.Spans prev y z

variable {α : Type} {a b : Pattern} {g g' g'' : Groups} {k : Place → Groups → Option α} {r : α}

/-! ### What is found is spanned -/

theorem first_one_cons {ds : List Char} (h : p.rest = d :: ds) (g : Groups)
    (k : Place → Groups → Option α) :
    first (.one c) p g k = if c d then k ⟨p.index + 1, some d, ds⟩ g else none := by
  simp only [first, h]

theorem exists_of_offerRuns (h : offerRuns c g k n prev rest = some r) :
    ∃ x q, (∀ d ∈ x, c d) ∧ Place.Passes x ⟨n, prev, rest⟩ q ∧ k q g = some r := by
  induction rest generalizing n prev with
  | nil => exact ⟨[], _, by simp, .refl _, h⟩
  | cons d rest ih =>
    rw [offerRuns] at h
    split at h
    case h_1 r' hk => exact ⟨[], _, by simp, .refl _, hk.trans h⟩
    case h_2 =>
      split at h
      case isTrue hd =>
        obtain ⟨x, q, hx, hpasses, hk⟩ := ih h
        exact ⟨d :: x, q, forall_mem_cons.mpr ⟨hd, hx⟩,
          (Place.Passes.cons (p := ⟨n, prev, d :: rest⟩) rfl).trans hpasses, hk⟩
      case isFalse => cases h

theorem exists_of_repeated {R : Option Char → List Char → List Char → Prop} {m : Matcher α}
    (hm : ∀ {p : Place} {g : Groups} {k : Place → Groups → Option α} {r : α},
      m p g k = some r → ∃ x q g', Place.Passes x p q ∧ R p.previous x q.rest ∧ k q g' = some r)
    (fuel : Nat) {g : Groups} (h : repeated m fuel p g k = some r) :
    ∃ x q g', Place.Passes x p q ∧ Repeats R p.previous x q.rest ∧ k q g' = some r := by
  induction fuel generalizing p g with
  | zero => exact ⟨[], p, g, .refl p, .nil, h⟩
  | succ fuel ih =>
    rw [repeated] at h
    cases hfirst : m p g fun q g' => if q.index = p.index then none else repeated m fuel q g' k with
    | none =>
      rw [hfirst] at h
      exact ⟨[], p, g, .refl p, .nil, h⟩
    | some r' =>
      rw [hfirst] at h
      cases h
      obtain ⟨x, q, g', hpq, hx, hrest⟩ := hm hfirst
      split at hrest
      case isTrue => cases hrest
      case isFalse hmoves =>
        obtain ⟨y, s, g'', hqs, hy, hk⟩ := ih hrest
        have hne : x ≠ [] := by
          rintro rfl
          exact hmoves hpq.index
        rw [hqs.rest] at hx
        rw [hpq.previous] at hy
        exact ⟨x ++ y, s, g'', hpq.trans hqs, .cons hne hx hy, hk⟩

theorem exists_spans_of_first (h : first a p g k = some r) :
    ∃ x q g', Place.Passes x p q ∧ a.Spans p.previous x q.rest ∧ k q g' = some r := by
  induction a generalizing α p g k r with
  | empty => exact ⟨[], p, g, .refl p, rfl, h⟩
  | one c =>
    cases hp : p.rest with
    | nil => simp only [first, hp] at h; cases h
    | cons d ds =>
      rw [first_one_cons hp] at h
      split at h
      case isTrue hd => exact ⟨[d], _, g, .cons hp, ⟨d, hd, rfl⟩, h⟩
      case isFalse => cases h
  | seq a b iha ihb =>
    obtain ⟨x, q, g', hpq, hx, h⟩ := iha h
    obtain ⟨y, s, g'', hqs, hy, h⟩ := ihb h
    rw [hqs.rest] at hx
    rw [hpq.previous] at hy
    exact ⟨x ++ y, s, g'', hpq.trans hqs, ⟨x, y, rfl, hx, hy⟩, h⟩
  | alt a b iha ihb =>
    rw [first] at h
    cases hfirst : first a p g k with
    | none =>
      rw [hfirst] at h
      obtain ⟨x, q, g', hpq, hx, hk⟩ := ihb h
      exact ⟨x, q, g', hpq, .inr hx, hk⟩
    | some r' =>
      rw [hfirst] at h
      obtain ⟨x, q, g', hpq, hx, hk⟩ := iha (hfirst.trans h)
      exact ⟨x, q, g', hpq, .inl hx, hk⟩
  | run c =>
    obtain ⟨q, hq, hk⟩ := exists_of_findSome?_eq_some h
    rcases Place.mem_reachOver _ hq with hq | ⟨x, hx, hpq⟩
    · cases hq
    · exact ⟨x, q, g, hpq, hx, hk⟩
  | reluctantRun c =>
    obtain ⟨x, q, hx, hpq, hk⟩ := exists_of_offerRuns h
    exact ⟨x, q, g, hpq, hx, hk⟩
  | star a iha => exact exists_of_repeated iha _ h
  | group n a iha =>
    obtain ⟨x, q, g', hpq, hx, hk⟩ := iha h
    exact ⟨x, q, _, hpq, hx, hk⟩
  | wordEdge =>
    rw [first] at h
    split at h
    case isTrue hedge => exact ⟨[], p, g, .refl p, ⟨rfl, bne_iff_ne.mp hedge⟩, h⟩
    case isFalse => cases h
  | lineStart =>
    rw [first] at h
    split at h
    case isTrue hline => exact ⟨[], p, g, .refl p, ⟨rfl, by simpa using hline⟩, h⟩
    case isFalse => cases h
  | lineEnd =>
    rw [first] at h
    split at h
    case isTrue hline => exact ⟨[], p, g, .refl p, ⟨rfl, by simpa using hline⟩, h⟩
    case isFalse => cases h
  | textEnd =>
    rw [first] at h
    split at h
    case isTrue hend => exact ⟨[], p, g, .refl p, ⟨rfl, by simpa using hend⟩, h⟩
    case isFalse => cases h
  | ahead a iha =>
    obtain ⟨x, q, g', hpq, hx, hk⟩ := iha h
    exact ⟨[], p, g', .refl p, ⟨rfl, x, q.rest, hpq.rest, hx⟩, hk⟩

/-! ### What is spanned is found -/

theorem offerRuns_isSome (hx : ∀ d ∈ x, c d) (h : Place.Passes x ⟨n, prev, rest⟩ q)
    (hk : (k q g).isSome) :
    (offerRuns c g k n prev rest).isSome := by
  induction x generalizing n prev rest with
  | nil =>
    rw [h.eq_of_nil] at hk
    cases rest with
    | nil => exact hk
    | cons d rest =>
      obtain ⟨r, hr⟩ := Option.isSome_iff_exists.mp hk
      rw [offerRuns, hr]
      rfl
  | cons d x ih =>
    obtain ⟨hd, hx'⟩ := forall_mem_cons.mp hx
    cases rest with
    | nil => cases h.rest
    | cons e rest =>
      obtain ⟨rfl, hnext⟩ := h.tail
      rw [offerRuns]
      split
      · rfl
      · rw [if_pos hd]
        exact ih hx' hnext

theorem orElse_isSome {o : Option α} {o' : Unit → Option α} :
    (o.orElse o').isSome ↔ o.isSome ∨ (o' ()).isSome := by
  cases o <;> simp

/-- The induction is on the texts that are repeated; each uses up a round and at least one
character. -/
theorem repeated_isSome {R : Option Char → List Char → List Char → Prop} {m : Matcher α}
    (hm : ∀ {x : List Char} {p q : Place} {g : Groups} {k : Place → Groups → Option α},
      R p.previous x q.rest → Place.Passes x p q → (∀ g, (k q g).isSome) → (m p g k).isSome)
    (h : Repeats R prev x rest) {fuel : Nat} (hfuel : x.length ≤ fuel) (hprev : p.previous = prev)
    (hq : q.rest = rest) (hpasses : Place.Passes x p q) (hk : ∀ g, (k q g).isSome) (g : Groups) :
    (repeated m fuel p g k).isSome := by
  induction h generalizing fuel p g with
  | nil =>
    rw [hpasses.eq_of_nil] at hk
    cases fuel with
    | zero => exact hk g
    | succ fuel => exact orElse_isSome.mpr (.inr (hk g))
  | @cons prev x y rest hx hR _ ih =>
    have hlength := length_pos_of_ne_nil hx
    rw [length_append] at hfuel
    cases fuel with
    | zero => omega
    | succ fuel =>
      obtain ⟨hfirst, hrest⟩ := hpasses.split
      refine orElse_isSome.mpr (.inl (hm ?_ hfirst fun g' => ?_))
      · rw [hprev]
        simpa only [Place.behind, hq] using hR
      · rw [if_neg (by simp only [Place.behind]; omega)]
        exact ih (by omega) (by rw [← hprev]; rfl) hq hrest g'

theorem first_isSome_of_spans (h : a.Spans p.previous x q.rest) (hpasses : Place.Passes x p q)
    (hk : ∀ g, (k q g).isSome) : (first a p g k).isSome := by
  induction a generalizing α p q g k x with
  | empty =>
    cases h
    exact hpasses.eq_of_nil ▸ hk g
  | one c =>
    obtain ⟨d, hd, rfl⟩ := h
    have hrest : p.rest = d :: q.rest := hpasses.rest
    rw [first_one_cons hrest, if_pos hd]
    have hq := hpasses.eq_behind
    exact hq ▸ hk g
  | seq a b iha ihb =>
    obtain ⟨y, z, rfl, hy, hz⟩ := h
    obtain ⟨hfirst, hrest⟩ := hpasses.split
    exact iha hy hfirst fun g' => ihb hz hrest hk
  | alt a b iha ihb =>
    rw [first, orElse_isSome]
    exact h.imp (fun h => iha h hpasses hk) (fun h => ihb h hpasses hk)
  | run c =>
    have hmem : q ∈ Place.reachOver c [] p.index p.previous p.rest :=
      Place.mem_reachOver_of_passes x h (.inr hpasses)
    exact findSome?_isSome_iff.mpr ⟨q, hmem, hk g⟩
  | reluctantRun c => exact offerRuns_isSome h hpasses (hk g)
  | star a iha =>
    have hlength : x.length ≤ p.rest.length + 1 := by
      rw [hpasses.rest, length_append]
      omega
    exact repeated_isSome iha h hlength rfl rfl hpasses hk g
  | group n a iha => exact iha h hpasses fun g' => hk _
  | wordEdge =>
    obtain ⟨rfl, hedge⟩ := h
    cases hpasses.eq_of_nil
    have hat : p.atWordEdge := bne_iff_ne.mpr hedge
    rw [first, if_pos hat]
    exact hk g
  | lineStart =>
    obtain ⟨rfl, hline⟩ := h
    cases hpasses.eq_of_nil
    rw [first, if_pos (by simpa using hline)]
    exact hk g
  | lineEnd =>
    obtain ⟨rfl, hline⟩ := h
    cases hpasses.eq_of_nil
    rw [first, if_pos (by simpa using hline)]
    exact hk g
  | textEnd =>
    obtain ⟨rfl, hend⟩ := h
    cases hpasses.eq_of_nil
    rw [first, if_pos (by simpa using hend)]
    exact hk g
  | ahead a iha =>
    obtain ⟨rfl, y, z, hrest, hy⟩ := h
    cases hpasses.eq_of_nil
    exact iha (q := p.behind y z) hy (Place.passes_behind hrest) fun g' => hk g'

/-! ### Texts and runs -/

theorem spans_alt : (a <|> b).Spans prev x rest ↔ a.Spans prev x rest ∨ b.Spans prev x rest :=
  Iff.rfl

theorem spans_spelled {same : Char → Char → Bool} {w : List Char} :
    (spelled same w).Spans prev x rest ↔ Forall₂ (fun d e => same d e = true) w x := by
  have hone (d : Char) {prev : Option Char} {x rest : List Char} :
      (Pattern.one (same d)).Spans prev x rest ↔ Forall₂ (fun d e => same d e = true) [d] x := by
    constructor
    · rintro ⟨e, he, rfl⟩
      exact .cons he .nil
    · rintro (_ | ⟨he, ⟨⟩⟩)
      exact ⟨_, he, rfl⟩
  induction w generalizing prev x rest with
  | nil => exact forall₂_nil_left_iff.symm
  | cons d w ih =>
    cases w with
    | nil => exact hone d
    | cons e w =>
      change (∃ y z, x = y ++ z ∧ (Pattern.one (same d)).Spans prev y (z ++ rest) ∧ _) ↔ _
      simp only [hone, ih]
      constructor
      · rintro ⟨y, z, rfl, hy, hz⟩
        exact rel_append hy hz
      · rintro (_ | ⟨hd, hx⟩)
        exact ⟨[_], _, rfl, .cons hd .nil, hx⟩

theorem spans_text : (text w).Spans prev x rest ↔ x = w.toList := by
  simp only [text, spans_spelled, beq_iff_eq]
  rw [forall₂_eq_eq_eq, eq_comm]

theorem spans_char : (char d).Spans prev x rest ↔ x = [d] := by
  constructor
  · rintro ⟨e, he, rfl⟩
    rw [beq_iff_eq.mp he]
  · rintro rfl
    exact ⟨d, beq_self_eq_true d, rfl⟩

theorem spans_run1 : (run1 c).Spans prev x rest ↔ x ≠ [] ∧ ∀ d ∈ x, c d := by
  constructor
  · rintro ⟨_, z, rfl, ⟨d, hd, rfl⟩, hz⟩
    exact ⟨by simp, forall_mem_cons.mpr ⟨hd, hz⟩⟩
  · rintro ⟨hne, hx⟩
    obtain ⟨d, z, rfl⟩ := exists_cons_of_ne_nil hne
    obtain ⟨hd, hz⟩ := forall_mem_cons.mp hx
    exact ⟨[d], z, rfl, ⟨d, hd, rfl⟩, hz⟩

theorem spans_assoc {c : Pattern} :
    (a ++ b ++ c).Spans prev x rest ↔ (a ++ (b ++ c)).Spans prev x rest := by
  constructor
  · rintro ⟨_, z, rfl, ⟨x, y, rfl, hx, hy⟩, hz⟩
    rw [getLast?_append, Option.or_assoc] at hz
    exact ⟨x, y ++ z, append_assoc .., by rwa [append_assoc], y, z, rfl, hy, hz⟩
  · rintro ⟨x, _, rfl, hx, y, z, rfl, hy, hz⟩
    rw [append_assoc] at hx
    refine ⟨x ++ y, z, (append_assoc ..).symm, ⟨x, y, rfl, hx, hy⟩, ?_⟩
    rwa [getLast?_append, Option.or_assoc]

theorem spans_wordEdge_seq : (.wordEdge ++ a : Pattern).Spans prev x rest ↔
    prev.any isWord ≠ (x ++ rest).head?.any isWord ∧ a.Spans prev x rest := by
  constructor
  · rintro ⟨_, x, rfl, ⟨rfl, hedge⟩, hx⟩
    exact ⟨hedge, hx⟩
  · rintro ⟨hedge, hx⟩
    exact ⟨[], x, rfl, ⟨rfl, hedge⟩, hx⟩

theorem spans_seq_ahead :
    (a ++ .ahead (text w)).Spans prev x rest ↔ a.Spans prev x rest ∧ w.toList <+: rest := by
  constructor
  · rintro ⟨x, _, rfl, hx, rfl, y, z, hrest, hy⟩
    rw [append_nil]
    exact ⟨hx, z, by rw [hrest, spans_text.mp hy]⟩
  · rintro ⟨hx, z, rfl⟩
    exact ⟨x, [], (append_nil x).symm, hx, rfl, w.toList, z, rfl, spans_text.mpr rfl⟩

/-! ### Searching -/

/-- The pattern matches a part of the text, which stands behind `prev`. -/
def Occurs (a : Pattern) (prev : Option Char) (cs : List Char) : Prop :=
  ∃ x y z, cs = x ++ (y ++ z) ∧ a.Spans (x.getLast?.or prev) y z

theorem matchAt?_isSome_iff :
    (a.matchAt? p).isSome ↔ ∃ y z, p.rest = y ++ z ∧ a.Spans p.previous y z := by
  constructor
  · intro h
    obtain ⟨m, hm⟩ := Option.isSome_iff_exists.mp h
    obtain ⟨x, q, g', hpq, hx, -⟩ := exists_spans_of_first hm
    exact ⟨x, q.rest, hpq.rest, hx⟩
  · rintro ⟨y, z, hrest, hy⟩
    exact first_isSome_of_spans (q := p.behind y z) hy (Place.passes_behind hrest) fun g => rfl

/-- A search looks at each place in turn. -/
theorem search?_cons :
    a.search? ⟨n, prev, d :: rest⟩ =
      (a.matchAt? ⟨n, prev, d :: rest⟩).or (a.search? ⟨n + 1, some d, rest⟩) := by
  rw [search?, searchFrom]
  cases a.matchAt? ⟨n, prev, d :: rest⟩ <;> rfl

theorem search?_isSome_iff : (a.search? p).isSome ↔ a.Occurs p.previous p.rest := by
  obtain ⟨n, prev, rest⟩ := p
  induction rest generalizing n prev with
  | nil =>
    have hsearch : a.search? ⟨n, prev, []⟩ = a.matchAt? ⟨n, prev, []⟩ := by
      rw [search?, searchFrom]
      cases a.matchAt? ⟨n, prev, []⟩ <;> rfl
    rw [hsearch, matchAt?_isSome_iff]
    constructor
    · rintro ⟨y, z, hrest, hy⟩
      exact ⟨[], y, z, hrest, hy⟩
    · rintro ⟨x, y, z, hrest, hy⟩
      obtain ⟨rfl, hrest'⟩ := append_eq_nil_iff.mp hrest.symm
      exact ⟨y, z, hrest'.symm, hy⟩
  | cons d rest ih =>
    rw [search?_cons, Option.isSome_or, Bool.or_eq_true, matchAt?_isSome_iff, ih]
    constructor
    · rintro (⟨y, z, hrest, hy⟩ | ⟨x, y, z, hrest, hy⟩)
      · exact ⟨[], y, z, hrest, hy⟩
      · refine ⟨d :: x, y, z, congrArg (d :: ·) hrest, ?_⟩
        rwa [Place.getLast?_cons_or]
    · rintro ⟨x, y, z, hrest, hy⟩
      cases x with
      | nil => exact .inl ⟨y, z, hrest, hy⟩
      | cons e x =>
        obtain ⟨hhead, hrest'⟩ := cons.inj hrest
        subst hhead
        refine .inr ⟨x, y, z, hrest', ?_⟩
        rwa [Place.getLast?_cons_or] at hy

theorem search?_eq_none_iff : a.search? p = none ↔ ¬a.Occurs p.previous p.rest := by
  rw [← search?_isSome_iff, Bool.not_eq_true, Option.isSome_eq_false_iff, Option.isNone_iff_eq_none]

/-- What is found is the match at some place ahead. -/
theorem exists_matchAt?_of_search? {m : Found} (h : a.search? p = some m) :
    ∃ x q, Place.Passes x p q ∧ a.matchAt? q = some m := by
  obtain ⟨n, prev, rest⟩ := p
  induction rest generalizing n prev with
  | nil =>
    rw [search?, searchFrom] at h
    split at h
    case h_1 m' hm =>
      cases h
      exact ⟨[], _, .refl _, hm⟩
    case h_2 => cases h
  | cons d rest ih =>
    rw [search?_cons, Option.or_eq_some_iff] at h
    rcases h with hm | ⟨-, h⟩
    · exact ⟨[], _, .refl _, hm⟩
    · obtain ⟨x, q, hx, hq⟩ := ih (n + 1) (some d) h
      exact ⟨d :: x, q, (Place.Passes.cons (p := ⟨n, prev, d :: rest⟩) rfl).trans hx, hq⟩

theorem exists_of_search? {m : Found} (h : a.search? p = some m) :
    ∃ x y, Place.Passes x p m.start ∧ Place.Passes y m.start m.stop ∧
      a.Spans m.start.previous y m.stop.rest := by
  obtain ⟨x, q, hx, hm⟩ := exists_matchAt?_of_search? h
  obtain ⟨y, r, g, hqr, hy, hm⟩ := exists_spans_of_first hm
  cases hm
  exact ⟨x, y, hx, hqr, hy⟩

/-! ### The match that is offered first -/

/-- The match that is offered first behind `prev` is `x` in front of `rest`, with the groups
`g'`. -/
def Offers (a : Pattern) (prev : Option Char) (x rest : List Char) (g g' : Groups) : Prop :=
  ∀ (p : Place), p.previous = prev → p.rest = x ++ rest →
    ∀ (α : Type) (k : Place → Groups → Option α) (r : α),
      k (p.behind x rest) g' = some r → first a p g k = some r

/-- The pattern matches no text at the start of `cs`. -/
def Fails (a : Pattern) (prev : Option Char) (cs : List Char) : Prop :=
  ∀ x rest, cs = x ++ rest → ¬a.Spans prev x rest

theorem Fails.first_eq_none (h : a.Fails p.previous p.rest) : first a p g k = none := by
  rw [Option.eq_none_iff_forall_ne_some]
  intro r hr
  obtain ⟨x, q, g', hpq, hx, -⟩ := exists_spans_of_first hr
  exact h x q.rest hpq.rest hx

/-- A match starts with a character that is none of the text's. -/
theorem fails_of_head?
    (h : ∀ x rest, a.Spans prev x rest → ∃ d, x.head? = some d ∧ cs.head? ≠ some d) :
    a.Fails prev cs := by
  rintro x rest rfl hx
  obtain ⟨d, hd, hne⟩ := h x rest hx
  rw [head?_append, hd] at hne
  exact hne rfl

theorem Fails.seq (h : a.Fails prev cs) : (a ++ b).Fails prev cs := by
  rintro x rest rfl ⟨y, z, rfl, hy, -⟩
  exact h y (z ++ rest) (append_assoc ..) hy

theorem fails_text (h : startsWith w.toList cs = false) : (text w).Fails prev cs := by
  rintro x rest rfl hx
  rw [spans_text.mp hx, Bool.eq_false_iff] at h
  exact h (startsWith_iff.mpr (prefix_append _ _))

theorem fails_char (h : cs.head? ≠ some d) : (char d).Fails prev cs :=
  fails_of_head? fun x rest hx => ⟨d, by rw [spans_char.mp hx]; rfl, h⟩

namespace Offers

theorem seq (ha : Offers a prev x (y ++ rest) g g')
    (hb : Offers b (x.getLast?.or prev) y rest g' g'') :
    Offers (a ++ b) prev (x ++ y) rest g g'' := by
  intro p hprev hrest α k r hk
  rw [append_assoc] at hrest
  refine ha p hprev hrest α _ r (hb _ ?_ rfl α k r ?_)
  · rw [← hprev]
    rfl
  · rwa [Place.behind_behind]

theorem alt_left (ha : Offers a prev x rest g g') : Offers (a <|> b) prev x rest g g' := by
  intro p hprev hrest α k r hk
  change (first a p g k).orElse (fun _ => first b p g k) = _
  rw [ha p hprev hrest α k r hk]
  rfl

theorem alt_right (ha : a.Fails prev (x ++ rest)) (hb : Offers b prev x rest g g') :
    Offers (a <|> b) prev x rest g g' := by
  intro p hprev hrest α k r hk
  rw [← hprev, ← hrest] at ha
  change (first a p g k).orElse (fun _ => first b p g k) = _
  rw [ha.first_eq_none]
  exact hb p hprev hrest α k r hk

theorem empty : Offers .empty prev [] rest g g := by
  intro p _ hrest α k r hk
  rwa [(Place.passes_behind hrest).eq_of_nil] at hk

theorem maybe (ha : a.Fails prev rest) : Offers (Pattern.maybe a) prev [] rest g g :=
  alt_right (b := .empty) ha empty

theorem one (hd : c d) : Offers (.one c) prev [d] rest g g := by
  intro p _ hrest α k r hk
  rw [first_one_cons hrest, if_pos hd]
  exact hk

theorem char : Offers (Pattern.char d) prev [d] rest g g := one (beq_self_eq_true d)

theorem spelled {same : Char → Char → Bool} {w : List Char}
    (h : Forall₂ (fun d e => same d e = true) w x) :
    Offers (Pattern.spelled same w) prev x rest g g := by
  induction h generalizing prev with
  | nil => exact empty
  | @cons d e w x hd hx ih =>
    have hone (prev : Option Char) (rest : List Char) : Offers (.one (same d)) prev [e] rest g g :=
      one hd
    cases hx with
    | nil => exact hone prev rest
    | cons => exact (hone prev _).seq ih

theorem text : Offers (Pattern.text w) prev w.toList rest g g :=
  spelled (forall₂_same.mpr fun d _ => beq_self_eq_true d)

/-- A run goes on as far as it can. -/
theorem run (hx : ∀ d ∈ x, c d) (hrest : ∀ d ∈ rest.head?, c d = false) :
    Offers (.run c) prev x rest g g := by
  intro p _ h α k r hk
  obtain ⟨others, hothers⟩ := Place.reachOver_append hx hrest p.index p.previous []
  change (Place.reachOver c [] p.index p.previous p.rest).findSome? _ = _
  rw [h, hothers, findSome?_cons_of_isSome]
  · exact hk
  · exact Option.isSome_of_mem hk

theorem run1 (hx : ∀ e ∈ d :: x, c e) (hrest : ∀ e ∈ rest.head?, c e = false) :
    Offers (Pattern.run1 c) prev (d :: x) rest g g := by
  obtain ⟨hd, hx⟩ := forall_mem_cons.mp hx
  exact (one hd).seq (run hx hrest)

theorem space (hrest : ∀ e ∈ rest.head?, isBlank e = false) : Offers blanks1 prev [' '] rest g g :=
  run1 (by decide) hrest

theorem group (ha : Offers a prev x rest g g') :
    Offers (.group n a) prev x rest g ((n, x) :: g') := by
  intro p hprev hrest α k r hk
  refine ha p hprev hrest α _ r ?_
  rwa [Place.upTo_behind hrest]

theorem wordEdge (h : prev.any isWord ≠ rest.head?.any isWord) :
    Offers .wordEdge prev [] rest g g := by
  intro p hprev hrest α k r hk
  rw [(Place.passes_behind hrest).eq_of_nil] at hk
  rw [nil_append] at hrest
  have hat : p.atWordEdge := by
    rw [Place.atWordEdge, hprev, hrest]
    exact bne_iff_ne.mpr h
  rwa [first, if_pos hat]

theorem ahead (ha : Offers a prev x y g g') : Offers (.ahead a) prev [] (x ++ y) g g' := by
  intro p hprev hrest α k r hk
  rw [(Place.passes_behind hrest).eq_of_nil] at hk
  exact ha p hprev hrest α _ r hk

/-- A repetition goes on as long as the pattern matches. -/
theorem star (h : Repeats (fun prev x rest => ∀ g, Offers a prev x rest g g) prev x rest)
    (hend : a.Fails (x.getLast?.or prev) rest) : Offers (.star a) prev x rest g g := by
  suffices hrounds : ∀ (p : Place) (α : Type) (k : Place → Groups → Option α) (r : α) (fuel : Nat),
      p.previous = prev → p.rest = x ++ rest → p.rest.length < fuel →
        k (p.behind x rest) g = some r → repeated (first a) fuel p g k = some r from
    fun p hprev hp α k r hk => hrounds p α k r _ hprev hp (Nat.lt_succ_self _) hk
  induction h with
  | nil =>
    rintro p α k r (_ | fuel) hprev hp hfuel hk
    · cases hfuel
    rw [(Place.passes_behind hp).eq_of_nil] at hk
    rw [nil_append] at hp
    rw [repeated, Fails.first_eq_none (by rwa [hprev, hp])]
    exact hk
  | @cons prev x y rest hx h hy ih =>
    rintro p α k r (_ | fuel) hprev hp hfuel hk
    · cases hfuel
    have hpos := length_pos_iff.mpr hx
    rw [hp, append_assoc, length_append] at hfuel
    rw [append_assoc] at hp
    have hround := h g p hprev hp α (fun q g' => if q.index = p.index then none else
      repeated (first a) fuel q g' k) r (by
        rw [if_neg (by simp only [Place.behind]; omega)]
        refine ih (by rwa [getLast?_append, Option.or_assoc] at hend) _ α k r fuel
          (by rw [← hprev]; rfl) rfl (by change (y ++ rest).length < fuel; omega) ?_
        rwa [Place.behind_behind])
    rw [repeated, hround]
    rfl

/-- What is offered where the search starts is found. -/
theorem search? (ha : Offers a p.previous x rest [] g') (hrest : p.rest = x ++ rest) :
    a.search? p = some ⟨p, p.behind x rest, g'⟩ := by
  have hat : a.matchAt? p = some ⟨p, p.behind x rest, g'⟩ := ha p rfl hrest _ _ _ rfl
  obtain ⟨n, prev, rest⟩ := p
  rw [Pattern.search?, searchFrom.eq_def, hat]

end Offers

end Pattern

end Crosswalk.Text
