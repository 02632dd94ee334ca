import Crosswalk.Proofs.ChainNormalForms

/-!
Splitting at the top level is compositional. At the top the walk forgets what precedes it, so that
it starts afresh behind every separator, whatever trimming has removed. Main statement: a separator
at the top divides a text into parts that are split on their own, no part is split again, and to
split at the first separator and then the rest is to split the whole.
-/

namespace Crosswalk

open List
open Text (isBlank trim)

variable {tracked separators : List Char} {p q : Option Char} {s t : Scan}
    {as bs cs part : List Char} {c : Char}
  {stop : Char → Bool}

/-! ### Trimmed text -/

namespace Text

theorem trim_append_left {b : List Char} (hb : ∀ c ∈ b, isBlank c) (x : List Char) :
    trim (b ++ x) = trim x := by
  rw [trim, trimStart_append hb, trim]

/-- Trimming takes blanks off both ends. -/
theorem exists_eq_trim (x : List Char) :
    ∃ a b, x = a ++ (trim x ++ b) ∧ (∀ c ∈ a, isBlank c) ∧ ∀ c ∈ b, isBlank c := by
  have hend (y : List Char) : y = trimEnd y ++ (y.reverse.takeWhile isBlank).reverse := by
    rw [trimEnd, ← reverse_append, takeWhile_append_dropWhile, reverse_reverse]
  refine ⟨x.takeWhile isBlank, ((trimStart x).reverse.takeWhile isBlank).reverse, ?_,
    fun c hc => all_eq_true.mp all_takeWhile c hc, fun c hc => ?_⟩
  · rw [trim, ← hend]
    exact takeWhile_append_dropWhile.symm
  · exact all_eq_true.mp all_takeWhile c (mem_reverse.mp hc)

theorem trim_trim (x : List Char) : trim (trim x) = trim x := by
  obtain ⟨a, b, hx, ha, hb⟩ := exists_eq_trim x
  conv_rhs => rw [hx, trim_append_left ha, Zod.trim_append_blanks hb]

end Text

/-! ### The walk at the top -/

/-- At the top a closer changes nothing, so that it does not matter whether it heads an arrow. -/
theorem Scan.step_top (p q : Option Char) (c : Char) :
    ({} : Scan).step tracked p c = ({} : Scan).step tracked q c := by
  by_cases hc : c = '>'
  · subst hc
    have hstays (p : Option Char) : ({} : Scan).step tracked p '>' = {} := by
      rcases step_code_cases tracked p {} (c := '>') rfl rfl with h | ⟨x, h⟩
      · exact h
      · exact h.trans (by cases x <;> rfl)
    rw [hstays, hstays]
  · exact step_congr fun h => absurd h hc

theorem splitFrom_top (p q : Option Char) :
    splitFrom tracked separators part p {} cs = splitFrom tracked separators part q {} cs := by
  cases cs with
  | nil => rfl
  | cons c cs => rw [splitFrom, splitFrom, Scan.step_top p q]

theorem Passes.top (h : Passes tracked stop p {} cs q t) (r : Option Char) :
    ∃ q', Passes tracked stop r {} cs q' t := by
  cases h with
  | nil => exact ⟨r, .nil⟩
  | cons hc h => exact ⟨q, .cons hc (Scan.step_top p r _ ▸ h)⟩

theorem Passes.exists_of_append (h : Passes tracked stop p s (as ++ bs) q t) :
    ∃ r u, Passes tracked stop p s as r u ∧ Passes tracked stop r u bs q t := by
  induction as generalizing p s with
  | nil => exact ⟨p, s, .nil, h⟩
  | cons a as ih =>
    cases h with
    | cons hc h =>
      obtain ⟨r, u, ha, hb⟩ := ih h
      exact ⟨r, u, .cons hc ha, hb⟩

/-- Text that is passed from the top is passed without the blanks around it. -/
theorem Passes.trim (h : Passes tracked stop p {} cs q t) :
    ∃ q' t', Passes tracked stop none {} (trim cs) q' t' := by
  obtain ⟨a, b, hcs, ha, -⟩ := Text.exists_eq_trim cs
  rw [hcs] at h
  obtain ⟨r, u, hblank, h⟩ := h.exists_of_append
  obtain ⟨r', u', h, -⟩ := h.exists_of_append
  have htop : u = {} := by
    rw [← hblank.run_eq]
    exact Scan.run_blank (by rintro q ⟨⟩) (by simp) ha
  rw [htop] at h
  obtain ⟨q', h⟩ := h.top none
  exact ⟨q', u', h⟩

/-! ### Parts -/

/-- What is not divided has one part. -/
theorem splitTopNonempty_passes (h : Passes tracked separators.contains none {} cs q t)
    (hne : trim cs ≠ []) :
    splitTopNonempty tracked separators cs = [trim cs] := by
  have hsplit := splitFrom_passes h [] []
  rw [append_nil, append_nil, splitFrom, reverse_reverse] at hsplit
  rw [splitTopNonempty, hsplit]
  simpa using hne

/-- No part is divided. The invariant is that the part at hand has been passed from the top. -/
theorem exists_passes_of_mem {u : List Char}
    (hpart : Passes tracked separators.contains q {} part.reverse p s)
    (hu : u ∈ splitFrom tracked separators part p s cs) :
    ∃ v r q' t', u = trim v ∧ Passes tracked separators.contains r {} v q' t' := by
  induction cs generalizing part q p s with
  | nil =>
    rw [splitFrom, mem_singleton] at hu
    exact ⟨_, _, _, _, hu, hpart⟩
  | cons c cs ih =>
    rw [splitFrom] at hu
    split at hu
    case isTrue hc =>
      rcases mem_cons.mp hu with hu | hu
      · exact ⟨_, _, _, _, hu, hpart⟩
      · rw [Scan.eq_of_atTop (Bool.and_eq_true_iff.mp hc).1] at hu
        exact ih .nil hu
    case isFalse hc =>
      have hnext : Passes tracked separators.contains q {} (c :: part).reverse (some c)
          (s.step tracked p c) := by
        rw [reverse_cons]
        exact hpart.append (.cons (by simpa using hc) .nil)
      exact ih hnext hu

/-- Blanks in front of the part at hand are trimmed. -/
theorem splitFrom_append_blanks (hb : ∀ c ∈ bs, isBlank c) :
    splitFrom tracked separators (part ++ bs) p s cs =
      splitFrom tracked separators part p s cs := by
  have htrim (part : List Char) : trim (part ++ bs).reverse = trim part.reverse := by
    rw [reverse_append, Text.trim_append_left fun c hc => hb c (mem_reverse.mp hc)]
  induction cs generalizing part p s with
  | nil => rw [splitFrom, splitFrom, htrim]
  | cons c cs ih =>
    rw [splitFrom, splitFrom, htrim]
    split
    · rfl
    · rw [← cons_append, ih]

theorem splitTopNonempty_blanks_append (ha : ∀ c ∈ as, isBlank c) :
    splitTopNonempty tracked separators (as ++ cs) = splitTopNonempty tracked separators cs := by
  induction as with
  | nil => rfl
  | cons a as ih =>
    obtain ⟨hblank, ha⟩ := forall_mem_cons.mp ha
    have hstep : ({} : Scan).step tracked none a = {} :=
      Scan.step_plain rfl (Text.isPlain_of_isBlank hblank)
    rw [← ih ha, splitTopNonempty, cons_append, splitFrom]
    split
    · rw [splitFrom_top (some a) none]
      rfl
    · rw [hstep, splitFrom_top (some a) none, ← nil_append [a],
        splitFrom_append_blanks (forall_mem_singleton.mpr hblank), splitTopNonempty]

/-- Blanks at the end give no further part. -/
theorem filter_splitFrom_append_blanks (hb : ∀ c ∈ bs, isBlank c) :
    (splitFrom tracked separators part p s (cs ++ bs)).filter (fun u => !u.isEmpty) =
      (splitFrom tracked separators part p s cs).filter fun u => !u.isEmpty := by
  induction cs generalizing part p s with
  | nil =>
    rw [nil_append]
    induction bs generalizing part p s with
    | nil => rfl
    | cons b bs ih =>
      obtain ⟨hblank, hb⟩ := forall_mem_cons.mp hb
      rw [splitFrom.eq_def tracked separators part p s (b :: bs)]
      dsimp only
      split
      · have hempty :
            (splitFrom tracked separators [] (some b) s []).filter (fun u => !u.isEmpty) = [] := rfl
        rw [filter_cons, ih hb, hempty, splitFrom, filter_cons, filter_nil]
      · rw [ih hb, splitFrom, splitFrom, reverse_cons,
          Zod.trim_append_blanks (forall_mem_singleton.mpr hblank)]
  | cons c cs ih =>
    rw [cons_append, splitFrom, splitFrom]
    split
    · rw [filter_cons, filter_cons, ih]
    · exact ih

theorem splitTopNonempty_trim (cs : List Char) :
    splitTopNonempty tracked separators (trim cs) = splitTopNonempty tracked separators cs := by
  obtain ⟨a, b, hcs, ha, hb⟩ := Text.exists_eq_trim cs
  conv_rhs =>
    rw [hcs, splitTopNonempty_blanks_append ha, splitTopNonempty, filter_splitFrom_append_blanks hb]
  rfl

/-! ### Separators -/

theorem dropTrailingEmpty_append (us vs : List (List Char)) :
    dropTrailingEmpty (us ++ dropTrailingEmpty vs) = dropTrailingEmpty (us ++ vs) := by
  have hdrop (xs ys : List (List Char)) :
      (xs.dropWhile List.isEmpty ++ ys).dropWhile List.isEmpty =
        (xs ++ ys).dropWhile List.isEmpty := by
    induction xs with
    | nil => rfl
    | cons x xs ih =>
      rw [dropWhile_cons, cons_append]
      split
      case isTrue hx => rw [ih, dropWhile_cons_of_pos hx]
      case isFalse => rfl
  simp only [dropTrailingEmpty, reverse_append, reverse_reverse, hdrop]

/-- The walk starts afresh behind a separator. -/
theorem splitFrom_separated (hneutral : ∀ c ∈ separators, isNeutral c) (hc : c ∈ separators)
    (htop : (Scan.run tracked none {} as).atTop) :
    splitFrom tracked separators [] none {} (as ++ c :: bs) =
      splitFrom tracked separators [] none {} as ++ splitFrom tracked separators [] none {} bs := by
  rw [splitFrom_append hneutral hc [] htop, Scan.eq_of_atTop htop, splitFrom_top (some c) none]

theorem splitTopNonempty_separated (hneutral : ∀ c ∈ separators, isNeutral c) (hc : c ∈ separators)
    (htop : (Scan.run tracked none {} as).atTop) :
    splitTopNonempty tracked separators (as ++ c :: bs) =
      splitTopNonempty tracked separators as ++ splitTopNonempty tracked separators bs := by
  rw [splitTopNonempty, splitFrom_separated hneutral hc htop, filter_append]
  rfl

/-- The mark that is found stands at the top. -/
theorem exists_of_findTopFrom {n i : Nat} (h : findTopFrom tracked [c] p s n cs = some i) :
    ∃ as bs, cs = as ++ c :: bs ∧ i = n + as.length ∧ (Scan.run tracked p s as).atTop := by
  induction cs generalizing p s n with
  | nil => cases h
  | cons d cs ih =>
    rw [findTopFrom] at h
    split at h
    case isTrue hd =>
      cases h
      obtain ⟨htop, hstarts⟩ := Bool.and_eq_true_iff.mp hd
      obtain ⟨rest, hrest⟩ := Text.startsWith_iff.mp hstarts
      obtain ⟨rfl, rfl⟩ := cons.inj hrest
      exact ⟨[], rest, rfl, rfl, htop⟩
    case isFalse =>
      obtain ⟨as, bs, rfl, rfl, htop⟩ := ih h
      exact ⟨d :: as, bs, rfl, by rw [length_cons]; omega, htop⟩

theorem exists_of_splitFirstTop {head tail : List Char}
    (h : splitFirstTop tracked [c] cs = (head, some tail)) :
    ∃ as bs, cs = as ++ c :: bs ∧ head = trim as ∧ tail = trim bs ∧
      (Scan.run tracked none {} as).atTop := by
  rw [splitFirstTop] at h
  split at h
  case h_1 => cases h
  case h_2 i hi =>
    obtain ⟨as, bs, rfl, rfl, htop⟩ := exists_of_findTopFrom hi
    simp only [Prod.mk.injEq, Option.some.injEq] at h
    refine ⟨as, bs, rfl, ?_, ?_, htop⟩
    · rw [← h.1, Nat.zero_add, take_left']
      rfl
    · rw [← h.2, Nat.zero_add, length_singleton, ← drop_drop, drop_left' rfl]
      rfl

/-- A separator behind a text that leaves nothing open divides, a part is not divided any more, and
splitting at the first of one separator commutes with splitting the rest. Where empty parts are
kept, those of both sides are, up to the empty ones at the end. -/
theorem splitTop_compositional (hneutral : ∀ c ∈ separators, isNeutral c) :
    (∀ as c bs, (Scan.run tracked none {} as).atTop → c ∈ separators →
      splitTopNonempty tracked separators (as ++ c :: bs) =
        splitTopNonempty tracked separators as ++ splitTopNonempty tracked separators bs ∧
      splitTop tracked separators (as ++ c :: bs) =
        dropTrailingEmpty (splitFrom tracked separators [] none {} as ++
          splitTop tracked separators bs)) ∧
    (∀ cs, ∀ part ∈ splitTopNonempty tracked separators cs,
      splitTopNonempty tracked separators part = [part]) ∧
    (∀ cs, ∀ c ∈ separators, ∀ head tail, splitFirstTop tracked [c] cs = (head, some tail) →
      splitTopNonempty tracked separators cs =
        splitTopNonempty tracked separators head ++ splitTopNonempty tracked separators tail) := by
  refine ⟨fun as c bs htop hc => ⟨splitTopNonempty_separated hneutral hc htop, ?_⟩, ?_, ?_⟩
  · rw [splitTop, splitFrom_separated hneutral hc htop, splitTop, dropTrailingEmpty_append]
  · intro cs part hpart
    obtain ⟨hmem, hne⟩ := mem_filter.mp hpart
    obtain ⟨v, r, q, t, rfl, hpasses⟩ := exists_passes_of_mem .nil hmem
    obtain ⟨q, t, hpasses⟩ := hpasses.trim
    rw [splitTopNonempty_passes hpasses (by rw [Text.trim_trim]; simpa using hne), Text.trim_trim]
  · intro cs c hc head tail hfirst
    obtain ⟨as, bs, rfl, rfl, rfl, htop⟩ := exists_of_splitFirstTop hfirst
    rw [splitTopNonempty_separated hneutral hc htop, splitTopNonempty_trim, splitTopNonempty_trim]

/-- The separator itself makes an arrow with what follows, and a stray closer stands before it. -/
theorem splitTop_arrow :
    (Scan.run everyOpener none {} "a)".toList).atTop ∧
      splitTopNonempty everyOpener ['=', ' '] "a)=> <b c>".toList =
        ["a)".toList, ">".toList, "<b c>".toList] ∧
      splitTopNonempty everyOpener ['=', ' '] "a)=> <b c>".toList =
        splitTopNonempty everyOpener ['=', ' '] "a)".toList ++
          splitTopNonempty everyOpener ['=', ' '] "> <b c>".toList :=
  ⟨by decide, by decide,
    ((@splitTop_compositional everyOpener ['=', ' '] (by decide)).1 "a)".toList '=' "> <b c>".toList
      (by decide) (by decide)).1⟩

end Crosswalk
