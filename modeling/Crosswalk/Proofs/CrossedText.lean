import Crosswalk.Proofs.TopSplits
import Crosswalk.Scan.Comment

/-!
Text that the walk crosses: wherever it stands in code, its literals end and its groups close within
it, and no separator stands at its top level. Main statements: a list of such texts is split where
it is joined, and a group is read to the closer behind such a text.
-/

namespace Crosswalk

open List

/-- A stop at the top level, or a closer without its opener. -/
def hinders (tracked : List Char) (stop : Char → Bool) (p : Option Char) (s : Scan) (c : Char) :
    Bool :=
  s.atTop && stop c || s.isStray tracked p c

/-- Text that is passed over by every walk that stands in code. -/
def Crossed (tracked : List Char) (stop : Char → Bool) (cs : List Char) : Prop :=
  ∀ (p : Option Char) (s : Scan), s.mode = .code → p ≠ some '=' →
    ∃ q, q ≠ some '=' ∧ Walks tracked (hinders tracked stop) p s cs q s

variable {tracked : List Char} {stop : Char → Bool} {as bs cs rest : List Char}

theorem Nested.crossed {ok : Char → Bool} (h : Nested tracked ok cs)
    (hspecial : ∀ c, isPlain c = false → c ≠ '=' → stop c = false)
    (hok : ∀ c, ok c → stop c = false) :
    Crossed tracked stop cs :=
  fun _ _ hs hp => h.walks ((lenient_stop hspecial).or (lenient_isStray tracked)) hs
    (.inr fun p c hc hplain => by
      rw [hinders, hok c hc, Bool.and_false, isStray_plain hplain]
      rfl) hp

theorem Nested.crossed_of_separates {ok : Char → Bool} {separators : List Char}
    (h : Nested tracked ok cs) (hs : Separates ok separators) :
    Crossed tracked separators.contains cs := by
  have hnot (c : Char) (hc : c ∉ separators) : separators.contains c = false := by simpa using hc
  refine h.crossed (fun c hplain _ => hnot c fun hc => ?_) fun c hok => hnot c fun hc => ?_
  · rw [(hs.of_mem hc).1] at hplain
    cases hplain
  · rw [(hs.of_mem hc).2.1] at hok
    cases hok

namespace Crossed

theorem nil : Crossed tracked stop [] := fun _ _ _ hp => ⟨_, hp, .nil⟩

theorem append (ha : Crossed tracked stop as) (hb : Crossed tracked stop bs) :
    Crossed tracked stop (as ++ bs) := by
  intro p s hs hp
  obtain ⟨q, hq, hpass⟩ := ha p s hs hp
  obtain ⟨r, hr, hpass'⟩ := hb q s hs hq
  exact ⟨r, hr, hpass.append hpass'⟩

theorem mono {stop' : Char → Bool} (h : Crossed tracked stop cs) (hstop : ∀ c, stop' c → stop c) :
    Crossed tracked stop' cs := by
  intro p s hs hp
  obtain ⟨q, hq, hpass⟩ := h p s hs hp
  refine ⟨q, hq, hpass.mono fun p s c hc => ?_⟩
  simp only [hinders, Bool.or_eq_true, Bool.and_eq_true] at hc ⊢
  exact hc.imp_left fun hc => ⟨hc.1, hstop c hc.2⟩

theorem passes (h : Crossed tracked stop cs) : ∃ q, Passes tracked stop none {} cs q {} := by
  obtain ⟨q, -, hpass⟩ := h none {} rfl (by simp)
  refine ⟨q, hpass.mono fun p s c hc => ?_⟩
  rw [hinders, hc, Bool.true_or]

theorem intercalate {mark : List Char} (hm : Crossed tracked stop mark) {us : List (List Char)}
    (hus : ∀ u ∈ us, Crossed tracked stop u) : Crossed tracked stop (mark.intercalate us) := by
  by_cases hne : us = []
  · subst hne
    exact nil
  · exact forall_intercalate (fun hu hv => hu.append (hm.append hv)) hus hne

/-- An equals sign is no arrow in front of a space. -/
theorem equals (he : stop '=' = false) (hspace : stop ' ' = false) :
    Crossed tracked stop ['=', ' '] := by
  intro p s hs _
  have hstep (p : Option Char) {c : Char} (hc : isNeutral c) : s.step tracked p c = s :=
    Scan.step_neutral hs hc
  have hnot (p : Option Char) {c : Char} (hc : stop c = false)
      (hcloser : Delimiter.ofCloser? c = none) :
      hinders tracked stop p s c = false := by
    simp [hinders, hc, Scan.isStray, Scan.closes?, hcloser]
  refine ⟨some ' ', by simp, .cons (hnot _ he rfl) ?_⟩
  rw [hstep p rfl]
  refine .cons (hnot _ hspace rfl) ?_
  rw [hstep _ rfl]
  exact .nil

/-! ### Groups and lists -/

theorem group?_eq (h : Crossed tracked stop cs) {d : Delimiter} (hd : d.opener ∈ tracked) :
    group? (d.opener :: (cs ++ d.closer :: rest)) = some (cs, rest) := by
  obtain ⟨q, hq, hpass⟩ := h none {} rfl (by simp)
  rw [hpass.previous_eq, Option.or_none] at hq
  have hwalks : Walks tracked (fun p s c => s.isStray tracked p c) none {} cs q {} :=
    hpass.mono fun p s c hc => by rw [hinders, hc, Bool.or_true]
  have hsealed : Sealed tracked cs := ⟨hwalks.strayless, hwalks.run_eq⟩
  rw [group?, hsealed.closer?_eq hd (fun _ => hq)]
  simp

theorem splitFirstTop_eq_none {mark : Char} (h : Crossed tracked (· == mark) cs) :
    splitFirstTop tracked [mark] cs = (Text.trim cs, none) := by
  obtain ⟨q, hpass⟩ := h.passes
  have hfind := findTopFrom_passes hpass 0 []
  rw [append_nil] at hfind
  have hnone : findTop? tracked [mark] cs = none := by
    rw [findTop?]
    simp only [if_true, drop_zero]
    rw [hfind, findTopFrom]
  rw [splitFirstTop, hnone]

variable {separators : List Char} {c : Char} {us : List (List Char)}

/-- A list is split where it is joined. -/
theorem splitTopNonempty_joined (hneutral : ∀ c ∈ separators, isNeutral c) (hc : c ∈ separators)
    {gap : List Char} (hgap : ∀ d ∈ gap, Text.isBlank d)
    (hus : ∀ u ∈ us, Crossed tracked separators.contains u ∧ Text.trim u ≠ []) :
    splitTopNonempty tracked separators ((c :: gap).intercalate us) = us.map Text.trim := by
  induction us with
  | nil => rfl
  | cons u us ih =>
    obtain ⟨⟨hu, hne⟩, hus⟩ := forall_mem_cons.mp hus
    obtain ⟨q, hpass⟩ := hu.passes
    have hsingle := splitTopNonempty_passes hpass hne
    cases us with
    | nil => rw [intercalate_singleton, hsingle, map_singleton]
    | cons v us =>
      have htop : (Scan.run tracked none {} u).atTop := by
        rw [hpass.run_eq]
        rfl
      rw [intercalate_cons_cons, append_assoc, cons_append,
        splitTopNonempty_separated hneutral hc htop,
        splitTopNonempty_blanks_append hgap, ih hus, hsingle]
      rfl

end Crossed

end Crosswalk
