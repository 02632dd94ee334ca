import Crosswalk.Proofs.SettledText

/-!
Closers and the scanner. The search for the closer of a delimiter counts delimiters of one kind from
that place on; the scanner counts every tracked kind from the start of the text, and never below
zero. Main statement: the search ends at the first unit whose passing brings the scanner back to the
depth that it had in front of the opener, and finds nothing exactly if the scanner never comes back.
-/

namespace Crosswalk

open List

/-! ### Depths of one kind -/

section Walk

variable {tracked : List Char} {p : Option Char} {s t : Scan} {x : Delimiter} {k : Nat} {c : Char}
  {cs : List Char}

theorem Scan.step_code_mode_ne_escape (c q : Char) :
    (({} : Scan).step [] none c).mode ≠ .escape q := by
  by_cases hq : isQuote c
  · simp [step, hq]
  · rw [step_untracked rfl (by simpa using hq)]
    simp

/-- One step leaves the depth at `k` or above it. -/
theorem Scan.le_get_step (h : k < s.depths.get x) (hx : x.opener ∈ tracked) :
    k ≤ (s.step tracked p c).depths.get x := by
  by_cases ho : s.mode = .code ∧ c = x.opener
  · obtain ⟨hs, rfl⟩ := ho
    rw [get_step_opener hs hx]
    omega
  · by_cases hc : s.Counts x p c
    · rw [get_step_closer hc hx]
      omega
    · rw [get_step_other ho hc]
      omega

/-- A walk that never comes back to depth `k` stays above it. -/
theorem lt_get_run (hx : x.opener ∈ tracked) (hdepth : k < t.depths.get x)
    (h : ∀ n < cs.length, (t.run tracked p (cs.take (n + 1))).depths.get x ≠ k) :
    k < (t.run tracked p cs).depths.get x := by
  induction cs generalizing p t with
  | nil => exact hdepth
  | cons c cs ih =>
    have hfirst : (t.step tracked p c).depths.get x ≠ k := h 0 (Nat.zero_lt_succ _)
    have hle := Scan.le_get_step (p := p) (c := c) hdepth hx
    exact ih (Nat.lt_of_le_of_ne hle hfirst.symm) fun n hn => h (n + 1) (Nat.succ_lt_succ hn)

end Walk

/-! ### Places in a text -/

/-- The walk over the first `i` characters of a text. -/
def scanTo (tracked cs : List Char) (i : Nat) : Scan := Scan.run tracked none {} (cs.take i)

section Places

variable {tracked cs : List Char} {x : Delimiter} {i c : Nat}

theorem scanTo_succ {d : Char} (h : cs[i]? = some d) :
    scanTo tracked cs (i + 1) = (scanTo tracked cs i).step tracked (cs.take i).getLast? d := by
  rw [scanTo, take_add_one, h, Option.toList_some, Scan.run_append, Scan.run_singleton,
    Option.or_none, scanTo]

/-- The walk behind an opener at `i` goes over what follows it. -/
theorem scanTo_behind (hi : cs[i]? = some x.opener) (n : Nat) :
    scanTo tracked cs (i + 1 + n) =
      (scanTo tracked cs (i + 1)).run tracked (some x.opener) ((cs.drop (i + 1)).take n) := by
  have hlast : (cs.take (i + 1)).getLast? = some x.opener := by
    rw [take_add_one, hi, Option.toList_some, getLast?_concat]
  rw [scanTo, take_add, Scan.run_append, hlast, Option.some_or, scanTo]

variable (hx : x.opener ∈ tracked) (hs : (scanTo tracked cs i).mode = .code)
  (hi : cs[i]? = some x.opener)
include hx hs hi

theorem closerAt?_eq_find? :
    closerAt? cs i = ((range (cs.length - (i + 1))).find? fun n =>
      (scanTo tracked cs (i + 1 + (n + 1))).depths.get x == (scanTo tracked cs i).depths.get x).map
        (i + 1 + ·) := by
  have hlt : i < cs.length := (List.getElem?_eq_some_iff.mp hi).1
  have hdrop : cs.drop i = x.opener :: cs.drop (i + 1) := by
    rw [drop_eq_getElem_cons hlt, (List.getElem?_eq_some_iff.mp hi).2]
  have hopen :
      (scanTo tracked cs (i + 1)).depths.get x = (scanTo tracked cs i).depths.get x + 1 := by
    rw [scanTo_succ hi, Scan.get_step_opener hs hx]
  have hmode : ({} : Scan).mode = (scanTo tracked cs (i + 1)).mode := by
    rw [scanTo_succ hi, Scan.step_opener hs hx]
    exact hs.symm
  rw [closerAt?, hdrop, closer?, x.ofOpener?_opener, Option.bind_some,
    closerFrom_eq_find? hx hmode (Nat.le_refl 1) hopen, length_drop, Option.map_map]
  simp only [scanTo_behind hi]
  refine congrArg (Option.map · _) (funext fun n => ?_)
  simp only [Function.comp]
  omega

/-- The closer is the first character behind which the walk is back at the depth in front of the
opener. -/
theorem closerAt?_eq_some_iff :
    closerAt? cs i = some c ↔ (i < c ∧ c < cs.length) ∧
      (scanTo tracked cs (c + 1)).depths.get x = (scanTo tracked cs i).depths.get x ∧
      ∀ j, i < j → j < c →
        (scanTo tracked cs (j + 1)).depths.get x ≠ (scanTo tracked cs i).depths.get x := by
  rw [closerAt?_eq_find? hx hs hi, Option.map_eq_some_iff]
  simp only [find?_range_eq_some, beq_iff_eq, mem_range, Bool.not_eq_true', beq_eq_false_iff_ne]
  constructor
  · rintro ⟨n, ⟨hback, hn, hfirst⟩, rfl⟩
    refine ⟨by omega, by rwa [Nat.add_assoc], fun j hij hj => ?_⟩
    obtain ⟨m, rfl⟩ := Nat.exists_eq_add_of_le hij
    rw [Nat.succ_eq_add_one, Nat.add_assoc (i + 1)]
    exact hfirst m (by omega)
  · rintro ⟨⟨hic, hc⟩, hback, hfirst⟩
    obtain ⟨n, rfl⟩ := Nat.exists_eq_add_of_le hic
    rw [Nat.succ_eq_add_one] at hback hfirst hc ⊢
    refine ⟨n, ⟨by rwa [← Nat.add_assoc], by omega, fun m hm => ?_⟩, rfl⟩
    rw [← Nat.add_assoc (i + 1)]
    exact hfirst _ (by omega) (by omega)

/-- A closer stays where it is if more text follows. -/
theorem closerAt?_append (h : closerAt? cs i = some c) (rest : List Char) :
    closerAt? (cs ++ rest) i = some c := by
  obtain ⟨⟨hlt, hc⟩, hback, hfirst⟩ := (closerAt?_eq_some_iff hx hs hi).mp h
  have hsame {j : Nat} (hj : j ≤ cs.length) :
      scanTo tracked (cs ++ rest) j = scanTo tracked cs j := by
    rw [scanTo, take_append_of_le_length hj, scanTo]
  have hstart := hsame (Nat.le_of_lt (Nat.lt_trans hlt hc))
  have hopener : (cs ++ rest)[i]? = some x.opener := by rw [getElem?_append_left (by omega), hi]
  refine (closerAt?_eq_some_iff hx (hstart ▸ hs) hopener).mpr
    ⟨⟨hlt, by rw [length_append]; omega⟩, ?_, fun j hij hj => ?_⟩
  · rw [hsame hc, hstart, hback]
  · rw [hsame (by omega), hstart]
    exact hfirst j hij hj

theorem closerAt?_eq_none_iff :
    closerAt? cs i = none ↔ ∀ j, i < j → j < cs.length →
      (scanTo tracked cs (j + 1)).depths.get x ≠ (scanTo tracked cs i).depths.get x := by
  rw [closerAt?_eq_find? hx hs hi, Option.map_eq_none_iff]
  simp only [find?_range_eq_none, Bool.not_eq_true', beq_eq_false_iff_ne]
  constructor
  · intro h j hij hj
    obtain ⟨m, rfl⟩ := Nat.exists_eq_add_of_le hij
    rw [Nat.succ_eq_add_one, Nat.add_assoc (i + 1)]
    exact h m (by omega)
  · intro h n hn
    rw [← Nat.add_assoc (i + 1)]
    exact h _ (by omega) (by omega)

/-- The closer stands in code: nothing else changes a depth. -/
theorem scanTo_closer (h : closerAt? cs i = some c) : (scanTo tracked cs c).mode = .code := by
  obtain ⟨⟨hlt, hc⟩, hback, hfirst⟩ := (closerAt?_eq_some_iff hx hs hi).mp h
  have hbefore : (scanTo tracked cs c).depths.get x ≠ (scanTo tracked cs (c + 1)).depths.get x := by
    rw [hback]
    rcases Nat.eq_or_lt_of_le hlt with heq | hlt'
    · rw [← heq, Nat.succ_eq_add_one, scanTo_succ hi, Scan.get_step_opener hs hx]
      exact Nat.succ_ne_self _
    · obtain ⟨j, rfl⟩ := Nat.exists_eq_add_of_le' (Nat.zero_lt_of_lt hlt)
      exact hfirst j (by omega) (by omega)
  by_contra hne
  refine hbefore ?_
  rw [scanTo_succ (getElem?_eq_getElem hc), Scan.get_step_other (fun h => hne h.1) fun h => hne h.1]

/-- A text that ends no deeper than its opener stands closes it. -/
theorem lt_get_of_closerAt?_eq_none (h : closerAt? cs i = none) :
    (scanTo tracked cs i).depths.get x < (scanTo tracked cs cs.length).depths.get x := by
  have hlt : i < cs.length := (List.getElem?_eq_some_iff.mp hi).1
  have hopen :
      (scanTo tracked cs (i + 1)).depths.get x = (scanTo tracked cs i).depths.get x + 1 := by
    rw [scanTo_succ hi, Scan.get_step_opener hs hx]
  have hend : scanTo tracked cs cs.length =
      (scanTo tracked cs (i + 1)).run tracked (some x.opener) (cs.drop (i + 1)) := by
    have hall : scanTo tracked cs (i + 1 + (cs.length - (i + 1))) = _ := scanTo_behind hi _
    rwa [Nat.add_sub_cancel' hlt, take_of_length_le (length_drop ▸ Nat.le_refl _)] at hall
  rw [hend]
  refine lt_get_run hx (by omega) fun n hn => ?_
  rw [length_drop] at hn
  rw [← scanTo_behind hi, ← Nat.add_assoc]
  exact (closerAt?_eq_none_iff hx hs hi).mp h _ (by omega) (by omega)

end Places

/-! ### The scanner -/

namespace Scanner

/-- The scanner after a number of units. -/
def after (s : Scanner) : Nat → Scanner
  | 0 => s
  | n + 1 => (s.after n).advance.2

/-- The scanner stands where the walk over the characters before its place ends. An escape is passed
as a whole, so that the scanner stands within one only at the end of the text. -/
structure Stands (tracked cs : List Char) (s : Scanner) : Prop where
  ofSource : s.source = cs
  ofTracked : s.tracked = tracked
  index : s.index ≤ cs.length
  scan : s.scan = scanTo tracked cs s.index
  escape : ∀ q, s.scan.mode = .escape q → s.index = cs.length

variable {tracked cs : List Char} {s : Scanner} {n m : Nat}

theorem Stands.peek? (h : Stands tracked cs s) : s.peek? (-1) = (cs.take s.index).getLast? := by
  rw [Scanner.peek?, h.ofSource, getLast?_take]
  cases hi : s.index with
  | zero => rfl
  | succ i =>
    have hlt : i < cs.length := Nat.le_trans (Nat.le_of_eq hi.symm) h.index
    have hindex : Int.ofNat (i + 1) + -1 = Int.ofNat i := by simp
    rw [hindex, if_neg (by simp), if_neg (Nat.succ_ne_zero i), Nat.add_sub_cancel]
    simp [getElem?_eq_getElem hlt]

theorem Stands.advance_end (h : Stands tracked cs s) (hend : s.index = cs.length) :
    s.advance.2 = s := by
  have hdrop : s.source.drop s.index = [] := by rw [h.ofSource, hend, drop_length]
  rw [Scanner.advance, hdrop]

/-- One unit is one character, or two if the first starts an escape. -/
theorem Stands.advance (h : Stands tracked cs s) (hlt : s.index < cs.length) :
    Stands tracked cs s.advance.2 ∧
      (s.advance.2.index = s.index + 1 ∨
        s.advance.2.index = s.index + 2 ∧
          ∃ q, (scanTo tracked cs (s.index + 1)).mode = .escape q) := by
  have hc : cs[s.index]? = some cs[s.index] := getElem?_eq_getElem hlt
  have hdrop : s.source.drop s.index = cs[s.index] :: cs.drop (s.index + 1) := by
    rw [h.ofSource, drop_eq_getElem_cons hlt]
  have hnext :
      s.scan.step s.tracked (s.peek? (-1)) cs[s.index] = scanTo tracked cs (s.index + 1) := by
    rw [scanTo_succ hc, h.peek?, h.ofTracked, h.scan]
  rw [Scanner.advance, hdrop]
  dsimp only
  rw [hnext]
  split
  case h_1 q d rest hmode hrest =>
    -- The second character of an escape is passed with the first.
    have hlt' : s.index + 1 < cs.length := by
      by_contra hge
      rw [drop_eq_nil_of_le (Nat.le_of_not_lt hge)] at hrest
      cases hrest
    have hd : cs[s.index + 1]? = some d := by
      rw [← head?_drop, hrest, head?_cons]
    have hlast : (cs.take (s.index + 1)).getLast? = some cs[s.index] := by
      rw [take_add_one, hc, Option.toList_some, getLast?_concat]
    have hscan : (scanTo tracked cs (s.index + 1)).step s.tracked (some cs[s.index]) d =
        scanTo tracked cs (s.index + 2) := by
      rw [scanTo_succ hd, hlast, h.ofTracked]
    have hback : (scanTo tracked cs (s.index + 2)).mode = .literal q := by
      rw [scanTo_succ hd, Scan.step, hmode]
    refine ⟨⟨h.ofSource, h.ofTracked, hlt', hscan, fun r hr => ?_⟩, .inr ⟨rfl, q, hmode⟩⟩
    rw [hscan, hback] at hr
    cases hr
  case h_2 hother =>
    refine ⟨⟨h.ofSource, h.ofTracked, hlt, rfl, fun q hq => ?_⟩, .inl rfl⟩
    cases hrest : cs.drop (s.index + 1) with
    | nil => exact Nat.le_antisymm hlt (drop_eq_nil_iff.mp hrest)
    | cons d rest => exact absurd hrest (hother q d rest hq)

/-- The scanner at the start of a text. -/
def onText (tracked cs : List Char) : Scanner := { source := cs, tracked }

theorem stands_after (tracked cs : List Char) (n : Nat) :
    Stands tracked cs ((onText tracked cs).after n) := by
  induction n with
  | zero => exact ⟨rfl, rfl, Nat.zero_le _, rfl, fun q hq => by cases hq⟩
  | succ n ih =>
    rw [after]
    rcases Nat.lt_or_eq_of_le ih.index with hlt | hend
    · exact (ih.advance hlt).1
    · rwa [ih.advance_end hend]

theorem index_lt_after_succ (h : ((onText tracked cs).after n).index < cs.length) :
    ((onText tracked cs).after n).index < ((onText tracked cs).after (n + 1)).index := by
  rcases ((stands_after tracked cs n).advance h).2 with hone | ⟨htwo, -⟩
  · exact Nat.lt_of_lt_of_eq (Nat.lt_succ_self _) hone.symm
  · exact Nat.lt_of_lt_of_eq (Nat.lt_add_of_pos_right (by decide)) htwo.symm

theorem index_after_mono (h : n ≤ m) :
    ((onText tracked cs).after n).index ≤ ((onText tracked cs).after m).index := by
  induction h with
  | refl => exact Nat.le_refl _
  | @step m _ ih =>
    refine Nat.le_trans ih ?_
    rcases Nat.lt_or_eq_of_le (stands_after tracked cs m).index with hlt | hend
    · exact Nat.le_of_lt (index_lt_after_succ hlt)
    · rw [after, (stands_after tracked cs m).advance_end hend]

theorem index_after_lt (h : n < m) (hlt : ((onText tracked cs).after n).index < cs.length) :
    ((onText tracked cs).after n).index < ((onText tracked cs).after m).index :=
  Nat.lt_of_lt_of_le (index_lt_after_succ hlt) (index_after_mono h)

/-- The scanner comes to every place that is not within an escape. -/
theorem exists_after {j : Nat} (hj : j ≤ cs.length)
    (h : ∀ q, (scanTo tracked cs j).mode ≠ .escape q) :
    ∃ m, ((onText tracked cs).after m).index = j := by
  -- A place that is left out is followed by one at which the scanner stands.
  have hplaces (j : Nat) (hj : j ≤ cs.length) : (∃ m, ((onText tracked cs).after m).index = j) ∨
      (∃ q, (scanTo tracked cs j).mode = .escape q) ∧
        ∃ m, ((onText tracked cs).after m).index = j + 1 := by
    induction j with
    | zero => exact .inl ⟨0, rfl⟩
    | succ j ih =>
      rcases ih (Nat.le_of_succ_le hj) with ⟨m, hm⟩ | ⟨-, hm⟩
      · rcases ((stands_after tracked cs m).advance (hm ▸ hj)).2 with hone | ⟨htwo, hescape⟩
        · exact .inl ⟨m + 1, hm ▸ hone⟩
        · exact .inr ⟨hm ▸ hescape, m + 1, hm ▸ htwo⟩
      · exact .inl hm
  rcases hplaces j hj with hm | ⟨⟨q, hq⟩, -⟩
  · exact hm
  · exact absurd hq (h q)

/-- Passing the unit behind `m` others brings the depth back to what it was behind `n` units. -/
def Returns (s : Scanner) (x : Delimiter) (n m : Nat) : Prop :=
  (s.after (m + 1)).scan.depths.get x = (s.after n).scan.depths.get x

section Opener

variable {x : Delimiter}

theorem Stands.opener (h : Stands tracked cs s) (hs : s.scan.inLiteral = false)
    (hi : s.peek? 0 = some x.opener) :
    (scanTo tracked cs s.index).mode = .code ∧ cs[s.index]? = some x.opener := by
  constructor
  · simpa [Scan.inLiteral, ← h.scan] using hs
  · simpa [Scanner.peek?, h.ofSource] using hi

variable (hx : x.opener ∈ tracked) (hs : ((onText tracked cs).after n).scan.inLiteral = false)
  (hi : ((onText tracked cs).after n).peek? 0 = some x.opener)
include hx hs hi

/-- Where the walk over the characters comes back, the scanner does. -/
theorem exists_returns {c : Nat} (h : closerAt? cs ((onText tracked cs).after n).index = some c) :
    ∃ m, n < m ∧ ((onText tracked cs).after m).index = c ∧ (onText tracked cs).Returns x n m ∧
      ∀ k, n < k → k < m → ¬(onText tracked cs).Returns x n k := by
  have hstands := stands_after tracked cs n
  obtain ⟨hcode, hopener⟩ := hstands.opener hs hi
  obtain ⟨⟨hlt, hc⟩, hback, hfirst⟩ := (closerAt?_eq_some_iff hx hcode hopener).mp h
  have hclose := scanTo_closer hx hcode hopener h
  obtain ⟨m, hm⟩ := exists_after (Nat.le_of_lt hc) fun q => by rw [hclose]; simp
  have hnm : n < m := by
    by_contra hge
    have hle : ((onText tracked cs).after m).index ≤ ((onText tracked cs).after n).index :=
      index_after_mono (Nat.le_of_not_lt hge)
    omega
  have hnext : ((onText tracked cs).after (m + 1)).index = c + 1 := by
    rcases ((stands_after tracked cs m).advance (hm ▸ hc)).2 with hone | ⟨-, q, hq⟩
    · exact hm ▸ hone
    · rw [hm, scanTo_succ (getElem?_eq_getElem hc), Scan.mode_step, hclose] at hq
      exact absurd hq (Scan.step_code_mode_ne_escape _ q)
  refine ⟨m, hnm, hm, ?_, fun k hnk hkm hreturn => ?_⟩
  · rw [Returns, (stands_after tracked cs (m + 1)).scan, hnext, hback, hstands.scan]
  · have hk : ((onText tracked cs).after n).index < ((onText tracked cs).after k).index :=
      index_after_lt hnk (Nat.lt_trans hlt hc)
    have hk' : ((onText tracked cs).after k).index < ((onText tracked cs).after m).index := by
      refine index_after_lt hkm (Nat.lt_of_le_of_lt (index_after_mono (Nat.le_of_lt hkm)) ?_)
      rwa [hm]
    have hkm' : ((onText tracked cs).after (k + 1)).index ≤ ((onText tracked cs).after m).index :=
      index_after_mono hkm
    have hkk : ((onText tracked cs).after k).index < ((onText tracked cs).after (k + 1)).index :=
      index_lt_after_succ (by omega)
    obtain ⟨j, hj⟩ : ∃ j, ((onText tracked cs).after (k + 1)).index = j + 1 :=
      Nat.exists_eq_add_one_of_ne_zero (Nat.ne_zero_of_lt hkk)
    rw [Returns, (stands_after tracked cs (k + 1)).scan, hj, hstands.scan] at hreturn
    exact hfirst j (by omega) (by omega) hreturn

/-- Where the walk over the characters never comes back, the scanner does not. -/
theorem not_returns (h : closerAt? cs ((onText tracked cs).after n).index = none) (hnm : n < m) :
    ¬(onText tracked cs).Returns x n m := by
  have hstands := stands_after tracked cs n
  obtain ⟨hcode, hopener⟩ := hstands.opener hs hi
  have hlt : ((onText tracked cs).after n).index < cs.length :=
    (List.getElem?_eq_some_iff.mp hopener).1
  have hnever := (closerAt?_eq_none_iff hx hcode hopener).mp h
  have hstands' := stands_after tracked cs (m + 1)
  have hle := hstands'.index
  have hbehind : ((onText tracked cs).after n).index < ((onText tracked cs).after (m + 1)).index :=
    index_after_lt (Nat.lt_succ_of_lt hnm) hlt
  obtain ⟨j, hj⟩ : ∃ j, ((onText tracked cs).after (m + 1)).index = j + 1 :=
    Nat.exists_eq_add_one_of_ne_zero (Nat.ne_zero_of_lt hbehind)
  intro hreturn
  rw [Returns, hstands'.scan, hj, hstands.scan] at hreturn
  have hij : ((onText tracked cs).after n).index ≤ j := by omega
  rcases Nat.eq_or_lt_of_le hij with heq | hij'
  · rw [← heq, scanTo_succ hopener, Scan.get_step_opener hcode hx] at hreturn
    exact Nat.succ_ne_self _ hreturn
  · exact hnever j hij' (by omega) hreturn

end Opener

/-- At an opener outside literals, the search for its closer ends where the scanner first comes back
to the depth in front of the opener, and it finds nothing if the scanner never does. So the opener
has a closer in every text at whose end nothing is open. -/
theorem closerAt?_agrees {x : Delimiter} (hx : x.opener ∈ tracked)
    (hs : ((onText tracked cs).after n).scan.inLiteral = false)
    (hi : ((onText tracked cs).after n).peek? 0 = some x.opener) :
    (∀ c, closerAt? cs ((onText tracked cs).after n).index = some c ↔
      ∃ m, n < m ∧ ((onText tracked cs).after m).index = c ∧ (onText tracked cs).Returns x n m ∧
        ∀ k, n < k → k < m → ¬(onText tracked cs).Returns x n k) ∧
    (closerAt? cs ((onText tracked cs).after n).index = none ↔
      ∀ m, n < m → ¬(onText tracked cs).Returns x n m) ∧
    (∀ e, ((onText tracked cs).after e).atEnd → ((onText tracked cs).after e).scan.atTop →
      ∃ c, ((onText tracked cs).after n).index < c ∧
        closerAt? cs ((onText tracked cs).after n).index = some c) := by
  have hstands := stands_after tracked cs n
  obtain ⟨hcode, hopener⟩ := hstands.opener hs hi
  refine ⟨fun c => ⟨exists_returns hx hs hi, ?_⟩, ⟨fun h m hm => not_returns hx hs hi h hm, ?_⟩, ?_⟩
  · rintro ⟨m, hnm, rfl, hreturn, hfirst⟩
    cases hcloser : closerAt? cs ((onText tracked cs).after n).index with
    | none => exact absurd hreturn (not_returns hx hs hi hcloser hnm)
    | some c =>
      obtain ⟨m', hnm', rfl, hreturn', hfirst'⟩ := exists_returns hx hs hi hcloser
      rcases Nat.lt_trichotomy m m' with hlt | rfl | hlt
      · exact absurd hreturn (hfirst' m hnm hlt)
      · rfl
      · exact absurd hreturn' (hfirst m' hnm' hlt)
  · intro hnever
    cases hcloser : closerAt? cs ((onText tracked cs).after n).index with
    | none => rfl
    | some c =>
      obtain ⟨m, hnm, -, hreturn, -⟩ := exists_returns hx hs hi hcloser
      exact absurd hreturn (hnever m hnm)
  · intro e hend htop
    cases hcloser : closerAt? cs ((onText tracked cs).after n).index with
    | some c => exact ⟨c, ((closerAt?_eq_some_iff hx hcode hopener).mp hcloser).1.1, rfl⟩
    | none =>
      have hopen := lt_get_of_closerAt?_eq_none hx hcode hopener hcloser
      have hstands' := stands_after tracked cs e
      have hlength : ((onText tracked cs).after e).index = cs.length := by
        refine Nat.le_antisymm hstands'.index ?_
        simpa [Scanner.atEnd, hstands'.ofSource] using hend
      rw [← hlength, ← hstands'.scan, Scan.eq_of_atTop htop] at hopen
      cases x <;> exact absurd hopen (Nat.not_lt_zero _)

/-- A stray closer, an arrow, a literal with an escaped quote and another unclosed delimiter. -/
theorem closerAt?_arrow :
    closerAt? "> <a => '\\'>' ( >".toList 2 = some 16 ∧
      ∃ m, 2 < m ∧ ((onText everyOpener "> <a => '\\'>' ( >".toList).after m).index = 16 ∧
        (onText everyOpener "> <a => '\\'>' ( >".toList).Returns .angle 2 m ∧
        ∀ k, 2 < k → k < m → ¬(onText everyOpener "> <a => '\\'>' ( >".toList).Returns .angle 2 k :=
  have hcloser : closerAt? "> <a => '\\'>' ( >".toList 2 = some 16 := by decide
  ⟨hcloser, ((@closerAt?_agrees everyOpener "> <a => '\\'>' ( >".toList 2 .angle
    (by decide) (by decide) (by decide)).1 16).mp hcloser⟩

end Scanner

end Crosswalk
