import Crosswalk.Proofs.ValueTexts

/-!
Text that leaves nothing open. Unlike balanced text it may hold stray closers, as comments do: the
walk comes out of every literal and of every delimiter that the text opens, and is then no deeper
than before. Main statements: a text has this property exactly if nothing is open at its end, and a
separator after such a text divides what it stands in.
-/

namespace Crosswalk

open List

variable {c : Char}

/-! ### Depths -/

namespace Depths

theorem total_eq_zero_iff {d : Depths} : d.total = 0 ↔ ∀ x, d.get x = 0 := by
  constructor
  · intro h x
    rw [total] at h
    cases x <;> simp only [get] <;> omega
  · intro h
    have hbrace := h .brace
    have hparen := h .paren
    have hbracket := h .bracket
    have hangle := h .angle
    simp only [get] at hbrace hparen hbracket hangle
    rw [total, hbrace, hparen, hbracket, hangle]

end Depths

/-! ### Walks -/

namespace Scan

variable {tracked : List Char} {p q : Option Char} {s : Scan} {as bs cs : List Char}

/-- A character that opens nothing comes out of a delimiter at most. -/
theorem step_code_cases (tracked : List Char) (p : Option Char) (d : Depths)
    (hq : isQuote c = false) (ho : Delimiter.ofOpener? c = none) :
    (⟨.code, d⟩ : Scan).step tracked p c = ⟨.code, d⟩ ∨
      ∃ x, (⟨.code, d⟩ : Scan).step tracked p c = ⟨.code, d.modify (· - 1) x⟩ := by
  rw [step, ho]
  dsimp only
  rw [hq, if_neg Bool.false_ne_true]
  cases closes? tracked p c with
  | none => exact Or.inl rfl
  | some x => exact Or.inr ⟨x, rfl⟩

theorem mode_of_atTop (h : s.atTop) : s.mode = .code := by rw [eq_of_atTop h]

/-- The quote of the literal at hand is one that opens literals. -/
def Proper (s : Scan) : Prop := ∀ q, s.quote? = some q → isQuote q = true

theorem proper_step (h : s.Proper) (c : Char) : (s.step tracked p c).Proper := by
  obtain ⟨mode, depths⟩ := s
  intro q hq
  rw [step] at hq
  cases mode with
  | escape r => exact h q hq
  | literal r =>
    dsimp only at hq
    split at hq
    · exact h q hq
    · split at hq
      · cases hq
      · exact h q hq
  | code =>
    dsimp only at hq
    split at hq
    · rename_i hc
      cases hq
      exact hc
    · split at hq
      · split at hq <;> cases hq
      · split at hq <;> cases hq

/-- Only a backslash escapes what follows. -/
theorem step_mode_ne_escape (hc : c ≠ '\\') (q : Char) : (s.step tracked p c).mode ≠ .escape q := by
  obtain ⟨mode, depths⟩ := s
  rw [step]
  cases mode with
  | escape r => simp
  | literal r =>
    dsimp only
    rw [if_neg hc]
    split <;> simp
  | code =>
    dsimp only
    repeat' split
    all_goals simp

/-- What has no meaning of its own leaves the walk where it is, also in a literal. -/
theorem step_inert (hs : s.Proper) (hmode : ∀ q, s.mode ≠ .escape q) (hc : isPlain c)
    (hne : c ≠ '\\') :
    s.step tracked p c = s := by
  obtain ⟨mode, depths⟩ := s
  cases mode with
  | escape q => exact absurd rfl (hmode q)
  | code => exact step_plain rfl hc
  | literal q =>
    have hquote : c ≠ q := by
      rintro rfl
      have hq : isQuote c := hs c rfl
      simp [isPlain, hq] at hc
    simp only [Scan.step, if_neg hne, if_neg hquote]

theorem run_inert (hs : s.Proper) (hmode : ∀ q, s.mode ≠ .escape q)
    (hcs : ∀ c ∈ cs, isPlain c ∧ c ≠ '\\') : run tracked p s cs = s := by
  induction cs generalizing p with
  | nil => rfl
  | cons c cs ih =>
    rw [forall_mem_cons] at hcs
    rw [run, step_inert hs hmode hcs.1.1 hcs.1.2, ih hcs.2]

theorem run_blank (hs : s.Proper) (hmode : ∀ q, s.mode ≠ .escape q)
    (hcs : ∀ c ∈ cs, Text.isBlank c) : run tracked p s cs = s := by
  refine run_inert hs hmode fun c hc =>
    ⟨isPlain_of_class (p := Text.isBlank) (forall_mem_of_all rfl) (hcs c hc), ?_⟩
  rintro rfl
  cases hcs _ hc

end Scan

/-- Nothing is open at the end of a text exactly if the walk comes back to where it started. -/
theorem openAtEnd?_eq_none_iff {tracked cs : List Char} :
    openAtEnd? tracked cs = none ↔ Scan.run tracked none {} cs = {} := by
  rw [openAtEnd?]
  generalize Scan.run tracked none {} cs = s
  constructor
  · intro h
    obtain ⟨mode, depths⟩ := s
    cases mode with
    | literal q | escape q => cases h
    | code =>
      have hdepth (x : Delimiter) : depths.get x = 0 := by
        have hnone := find?_eq_none.mp (Option.map_eq_none_iff.mp h) x
          (by cases x <;> simp [Delimiter.all])
        simpa using hnone
      refine Scan.eq_of_atTop ?_
      simp [Scan.atTop, Scan.inLiteral, Depths.total_eq_zero_iff.mpr hdepth]
  · rintro rfl
    rfl

/-! ### Separators -/

namespace Text

theorem trim_ne_nil {cs : List Char} (hc : c ∈ cs) (hb : isBlank c = false) : trim cs ≠ [] := by
  have hdrop {cs : List Char} (hc : c ∈ cs) : c ∈ cs.dropWhile isBlank := by
    induction cs with
    | nil => cases hc
    | cons d cs ih =>
      rw [dropWhile_cons]
      split
      · rename_i hd
        refine ih ((mem_cons.mp hc).resolve_left ?_)
        rintro rfl
        rw [hb] at hd
        cases hd
      · exact hc
  have hmem : c ∈ trim cs :=
    mem_reverse.mpr (hdrop (mem_reverse.mpr (hdrop hc)))
  exact ne_nil_of_mem hmem

end Text

section Split

variable {tracked separators : List Char} {p : Option Char} {s : Scan} {as bs : List Char}

/-- Characters that open and close nothing. -/
def isNeutral (c : Char) : Bool :=
  !isQuote c && (Delimiter.ofOpener? c).isNone && (Delimiter.ofCloser? c).isNone

theorem Scan.step_neutral (hs : s.mode = .code) (hc : isNeutral c) : s.step tracked p c = s := by
  simp only [isNeutral, Bool.and_eq_true, Bool.not_eq_true', Option.isNone_iff_eq_none] at hc
  obtain ⟨⟨hq, ho⟩, hcl⟩ := hc
  simp [step, hs, hq, ho, closes?, hcl]

/-- A separator at the top divides what comes before it from what comes after it. -/
theorem splitFrom_append (hneutral : ∀ c ∈ separators, isNeutral c) (hc : c ∈ separators)
    (part : List Char) (htop : (s.run tracked p as).atTop) :
    splitFrom tracked separators part p s (as ++ c :: bs) =
      splitFrom tracked separators part p s as ++
        splitFrom tracked separators [] (some c) (s.run tracked p as) bs := by
  induction as generalizing part p s with
  | nil =>
    rw [Scan.run] at htop
    rw [nil_append, splitFrom, splitFrom, htop, Scan.run,
      if_pos (by simpa using hc), singleton_append]
  | cons a as ih =>
    rw [Scan.run] at htop ⊢
    rw [cons_append, splitFrom, splitFrom]
    by_cases ha : (s.atTop && separators.contains a)
    · rw [if_pos ha, if_pos ha]
      rw [Bool.and_eq_true, contains_iff_mem] at ha
      have hstep : s.step tracked p a = s :=
        Scan.step_neutral (Scan.mode_of_atTop ha.1) (hneutral a ha.2)
      rw [hstep] at htop ⊢
      rw [ih [] htop, cons_append]
    · rw [if_neg ha, if_neg ha, ih _ htop]

end Split

end Crosswalk
