import Crosswalk.Proofs.Recursion

/-!
The size of text that is cut up. What is trimmed off, taken out of delimiters or split at separators
is not larger than the text and has no words of its own, and several parts weigh together no more
than the text they come from. This holds whatever the characters count for, so it holds of lengths.
Words may be put in the place of others later on, so there is a measure in which the letters of
those count for more.
-/

namespace Crosswalk

open List

namespace Text

/-- What the characters of a text count for. -/
structure Measure where
  of : Char → Nat
  pos : ∀ c, 0 < of c
  -- Lines are joined with a space in the place of their separator.
  space : of ' ' = 1

namespace Measure

variable (μ : Measure) {as bs cs : List Char}

/-- The size of a text. -/
def weight : List Char → Nat
  | [] => 0
  | c :: cs => μ.of c + weight cs

@[simp] theorem weight_nil : μ.weight [] = 0 := rfl

@[simp] theorem weight_cons (c : Char) (cs : List Char) :
    μ.weight (c :: cs) = μ.of c + μ.weight cs := rfl

@[simp] theorem weight_append (as bs : List Char) :
    μ.weight (as ++ bs) = μ.weight as + μ.weight bs := by
  induction as with
  | nil => simp
  | cons c as ih =>
    rw [cons_append, weight_cons, weight_cons, ih]
    omega

theorem weight_le_of_sublist (h : as.Sublist bs) : μ.weight as ≤ μ.weight bs := by
  induction h with
  | slnil => exact Nat.le_refl _
  | cons c _ ih => exact Nat.le_trans ih (Nat.le_add_left _ _)
  | cons_cons c _ ih => exact Nat.add_le_add_left ih _

theorem weight_reverse (cs : List Char) : μ.weight cs.reverse = μ.weight cs := by
  induction cs with
  | nil => rfl
  | cons c cs ih =>
    simp only [reverse_cons, weight_append, weight_cons, weight_nil, ih]
    omega

theorem weight_pos (h : cs ≠ []) : 0 < μ.weight cs := by
  obtain ⟨c, cs, rfl⟩ := exists_cons_of_ne_nil h
  have := μ.pos c
  rw [weight_cons]
  omega

theorem weight_replaceFrom_le (old new : List Char) (hold : old ≠ [])
    (hnew : μ.weight new ≤ μ.weight old) (skip : Nat) (cs : List Char) :
    μ.weight (replaceFrom old new skip cs) ≤ μ.weight (cs.drop skip) := by
  induction cs generalizing skip with
  | nil => simp [replaceFrom]
  | cons c cs ih =>
    cases skip with
    | succ skip =>
      rw [replaceFrom, drop_succ_cons]
      exact ih skip
    | zero =>
      rw [replaceFrom, drop_zero]
      split
      case isTrue hstart =>
        obtain ⟨rest, hrest⟩ := startsWith_iff.mp hstart
        obtain ⟨d, old, rfl⟩ := exists_cons_of_ne_nil hold
        rw [cons_append] at hrest
        cases hrest
        have := ih old.length
        rw [drop_left] at this
        simp only [weight_append, weight_cons, length_cons, Nat.add_sub_cancel] at *
        omega
      case isFalse =>
        have := ih 0
        rw [drop_zero] at this
        simp only [weight_cons]
        omega

/-! ### Parts -/

/-- The size of texts with one mark each between them. -/
def weights : List (List Char) → Nat
  | [] => 0
  | p :: ps => μ.weight p + 1 + weights ps

variable {ps qs : List (List Char)} {p : List Char}

@[simp] theorem weights_nil : μ.weights [] = 0 := rfl

@[simp] theorem weights_cons (p : List Char) (ps : List (List Char)) :
    μ.weights (p :: ps) = μ.weight p + 1 + μ.weights ps := rfl

@[simp] theorem weights_append (ps qs : List (List Char)) :
    μ.weights (ps ++ qs) = μ.weights ps + μ.weights qs := by
  induction ps with
  | nil => simp
  | cons p ps ih =>
    rw [cons_append, weights_cons, weights_cons, ih]
    omega

theorem weights_reverse (ps : List (List Char)) : μ.weights ps.reverse = μ.weights ps := by
  induction ps with
  | nil => rfl
  | cons p ps ih =>
    simp only [reverse_cons, weights_append, weights_cons, weights_nil, ih]
    omega

theorem weights_le_of_sublist (h : ps.Sublist qs) : μ.weights ps ≤ μ.weights qs := by
  induction h with
  | slnil => exact Nat.le_refl _
  | cons p _ ih => exact Nat.le_trans ih (Nat.le_add_left _ _)
  | cons_cons p _ ih => exact Nat.add_le_add_left ih _

theorem weight_le_weights (h : p ∈ ps) : μ.weight p + 1 ≤ μ.weights ps := by
  simpa using μ.weights_le_of_sublist (singleton_sublist.mpr h)

/-- One of several parts is smaller than all. -/
theorem weight_lt_weights (h : p ∈ ps) (hlength : 2 ≤ ps.length) :
    μ.weight p + 2 ≤ μ.weights ps := by
  obtain ⟨before, after, rfl⟩ := append_of_mem h
  have hrest : before ++ after ≠ [] := by
    rintro hnil
    obtain ⟨rfl, rfl⟩ := append_eq_nil_iff.mp hnil
    simp at hlength
  obtain ⟨q, hq⟩ := exists_mem_of_ne_nil _ hrest
  have hle := μ.weight_le_weights hq
  simp only [weights_append, weights_cons] at hle ⊢
  omega

/-! ### Two measures -/

/-- Every character counts for one. -/
def unit : Measure := ⟨fun _ => 1, fun _ => Nat.one_pos, rfl⟩

theorem unit_weight (cs : List Char) : unit.weight cs = cs.length := by
  induction cs with
  | nil => rfl
  | cons c cs ih =>
    rw [weight_cons, ih, length_cons, Nat.add_comm]
    rfl

/-- The letters by which `nullish`, `extend` and `map` outweigh what is written for them. -/
def isHeavy (c : Char) : Bool := c == 'h' || c == 'x' || c == 'p'

def heavy : Measure where
  of := fun c => if isHeavy c then 8 else 1
  pos := fun c => by split <;> omega
  space := rfl

/-- Texts that are not longer than `n` weigh at most eight times as much. -/
theorem heavy_weight_le (cs : List Char) : heavy.weight cs ≤ 8 * cs.length := by
  induction cs with
  | nil => simp
  | cons c cs ih =>
    have hc : heavy.of c ≤ 8 := by
      simp only [heavy]
      split <;> omega
    simp only [weight_cons, length_cons]
    omega

end Measure

theorem trimStart_sublist (cs : List Char) : (trimStart cs).Sublist cs := dropWhile_sublist _

theorem dropWhileEnd_sublist (p : Char → Bool) (cs : List Char) :
    (cs.reverse.dropWhile p).reverse.Sublist cs := by
  simpa using (dropWhile_sublist (l := cs.reverse) p).reverse

theorem trim_sublist (cs : List Char) : (trim cs).Sublist cs :=
  (dropWhileEnd_sublist _ _).trans (trimStart_sublist cs)

theorem eq_append_of_before? {mark cs rest : List Char} (h : before? mark cs = some rest) :
    cs = rest ++ mark := by
  obtain ⟨bs, hbs, rfl⟩ := Option.map_eq_some_iff.mp h
  simpa using congrArg List.reverse (eq_append_of_after? hbs)

end Text

open Text (Measure)

theorem eq_append_of_leading? {isPart : Char → Bool} {cs name rest : List Char}
    (h : Identifier.leading? isPart cs = some (name, rest)) : cs = name ++ rest := by
  unfold Identifier.leading? at h
  split at h
  case h_1 => cases h
  case h_2 c cs =>
    split at h
    · cases h
      simp
    · cases h

/-! ### What is taken out of a text -/

/-- What is taken out of a text is no larger, and has no word that the text does not have. -/
structure TakenFrom (cs p : List Char) : Prop where
  weight_le : ∀ μ : Measure, μ.weight p ≤ μ.weight cs
  words : ∀ w, ' ' ∉ w → w <:+: p → w <:+: cs

namespace TakenFrom

variable {as cs p q : List Char}

theorem of_isInfix (h : p <:+: cs) : TakenFrom cs p :=
  ⟨fun μ => μ.weight_le_of_sublist h.sublist, fun _ _ hw => hw.trans h⟩

theorem refl (cs : List Char) : TakenFrom cs cs := of_isInfix (infix_refl cs)

theorem trans (hp : TakenFrom cs p) (hq : TakenFrom p q) : TakenFrom cs q :=
  ⟨fun μ => Nat.le_trans (hq.weight_le μ) (hp.weight_le μ), fun w hw h =>
    hp.words w hw (hq.words w hw h)⟩

theorem trimStart (cs : List Char) : TakenFrom cs (Text.trimStart cs) :=
  of_isInfix (dropWhile_suffix _).isInfix

theorem trim (cs : List Char) : TakenFrom cs (Text.trim cs) := by
  refine (trimStart cs).trans (of_isInfix ?_)
  have hsuffix := dropWhile_suffix Text.isBlank (l := (Text.trimStart cs).reverse)
  rw [← reverse_reverse (Text.trimStart cs)]
  simpa [Text.trim, Text.trimEnd] using hsuffix.reverse.isInfix

theorem getD_after? (mark cs : List Char) : TakenFrom cs ((Text.after? mark cs).getD cs) := by
  cases h : Text.after? mark cs with
  | none => exact refl cs
  | some rest => exact of_isInfix (Text.eq_append_of_after? h ▸ (suffix_append mark rest).isInfix)

theorem getD_before? (mark cs : List Char) : TakenFrom cs ((Text.before? mark cs).getD cs) := by
  cases h : Text.before? mark cs with
  | none => exact refl cs
  | some as => exact of_isInfix (Text.eq_append_of_before? h ▸ (prefix_append as mark).isInfix)

/-- What is left of a text without its first and last character. -/
theorem inner (cs : List Char) : TakenFrom cs (cs.drop 1).dropLast :=
  have hlast := dropLast_prefix (cs.drop 1)
  of_isInfix (hlast.isInfix.trans (drop_suffix 1 cs).isInfix)

theorem unwrapFrom (fuel : Nat) (cs : List Char) : TakenFrom cs (unwrapFrom fuel cs) := by
  induction fuel generalizing cs with
  | zero => exact refl cs
  | succ fuel ih =>
    rw [Crosswalk.unwrapFrom]
    split
    · exact ((inner cs).trans (trim _)).trans (ih _)
    · exact refl cs

theorem unwrapParens (cs : List Char) : TakenFrom cs (unwrapParens cs) :=
  (trim cs).trans (unwrapFrom _ _)

theorem of_splitFirstTop {tracked mark left right : List Char}
    (h : splitFirstTop tracked mark cs = (left, some right)) : TakenFrom cs right := by
  unfold splitFirstTop at h
  split at h
  · cases h
  · cases h
    exact (of_isInfix (drop_suffix _ _).isInfix).trans (trim _)

end TakenFrom

/-- What is taken out of a text together with something around it. -/
def Inside (cs p : List Char) : Prop := TakenFrom cs p ∧ ∀ μ : Measure, μ.weight p < μ.weight cs

namespace Inside

variable {cs p q : List Char}

theorem trans (hp : Inside cs p) (hq : TakenFrom p q) : Inside cs q :=
  ⟨hp.1.trans hq, fun μ => Nat.lt_of_le_of_lt (hq.weight_le μ) (hp.2 μ)⟩

theorem of_taken (hp : TakenFrom cs p) (hq : Inside p q) : Inside cs q :=
  ⟨hp.trans hq.1, fun μ => Nat.lt_of_lt_of_le (hq.2 μ) (hp.weight_le μ)⟩

theorem length_lt (h : Inside cs p) : p.length < cs.length := by
  simpa only [Measure.unit_weight] using h.2 .unit

theorem of_enclosed? {opener : Char} (h : enclosed? opener cs = some p) : Inside cs p := by
  unfold enclosed? at h
  split at h
  case isTrue hcs =>
    cases h
    refine ⟨.inner cs, fun μ => ?_⟩
    cases cs with
    | nil => simp at hcs
    | cons c cs =>
      have := μ.weight_le_of_sublist (dropLast_sublist cs)
      have := μ.pos c
      simp only [drop_succ_cons, drop_zero, Measure.weight_cons]
      omega
  case isFalse => cases h

end Inside

/-! ### Parts of a text -/

variable {tracked separators cs part line body : List Char}

theorem weights_splitFrom (μ : Measure) (tracked separators part : List Char)
    (previous : Option Char) (s : Scan) (cs : List Char) :
    μ.weights (splitFrom tracked separators part previous s cs) ≤
      μ.weight part + μ.weight cs + 1 := by
  have htrim (part : List Char) : μ.weight (Text.trim part.reverse) ≤ μ.weight part := by
    exact Nat.le_trans ((TakenFrom.trim _).weight_le μ) (Nat.le_of_eq (μ.weight_reverse part))
  induction cs generalizing part previous s with
  | nil =>
    have := htrim part
    simp only [splitFrom, Measure.weights_cons, Measure.weights_nil, Measure.weight_nil]
    omega
  | cons c cs ih =>
    have hc := μ.pos c
    rw [splitFrom]
    split
    · have := ih [] (some c) s
      have := htrim part
      simp only [Measure.weights_cons, Measure.weight_nil, Measure.weight_cons] at *
      omega
    · have := ih (c :: part) (some c) (s.step tracked previous c)
      simp only [Measure.weight_cons] at *
      omega

theorem weights_le_of_kept (μ : Measure) {ps : List (List Char)}
    (h : ps.Sublist (splitFrom tracked separators [] none {} cs)) :
    μ.weights ps ≤ μ.weight cs + 1 := by
  have hparts := weights_splitFrom μ tracked separators [] none {} cs
  have hkept := μ.weights_le_of_sublist h
  rw [Measure.weight_nil] at hparts
  omega

theorem weights_splitTopNonempty (μ : Measure) (tracked separators cs : List Char) :
    μ.weights (splitTopNonempty tracked separators cs) ≤ μ.weight cs + 1 :=
  weights_le_of_kept μ filter_sublist

theorem weights_splitTop (μ : Measure) (tracked separators cs : List Char) :
    μ.weights (splitTop tracked separators cs) ≤ μ.weight cs + 1 := by
  have hkept :
      (splitTop tracked separators cs).Sublist (splitFrom tracked separators [] none {} cs) := by
    simpa [splitTop, dropTrailingEmpty] using (dropWhile_sublist
      (l := (splitFrom tracked separators [] none {} cs).reverse) List.isEmpty).reverse
  exact weights_le_of_kept μ hkept

theorem taken_of_mem_splitFrom {p : List Char} {previous : Option Char} {s : Scan}
    (h : p ∈ splitFrom tracked separators part previous s cs) :
    TakenFrom (part.reverse ++ cs) p := by
  induction cs generalizing part previous s with
  | nil =>
    obtain rfl := mem_singleton.mp h
    rw [append_nil]
    exact .trim _
  | cons c cs ih =>
    rw [splitFrom] at h
    split at h
    · rcases mem_cons.mp h with rfl | h
      · exact (TakenFrom.of_isInfix (prefix_append _ _).isInfix).trans (.trim _)
      · refine (TakenFrom.of_isInfix ?_).trans (ih h)
        exact ⟨part.reverse ++ [c], [], by simp⟩
    · simpa using ih h

theorem taken_of_mem_splitTopNonempty (h : part ∈ splitTopNonempty tracked separators cs) :
    TakenFrom cs part := taken_of_mem_splitFrom (mem_filter.mp h).1

theorem inside_of_mem_splitTopNonempty (h : part ∈ splitTopNonempty tracked separators cs)
    (hlength : ¬(splitTopNonempty tracked separators cs).length < 2) : Inside cs part := by
  refine ⟨taken_of_mem_splitTopNonempty h, fun μ => ?_⟩
  have hpart := μ.weight_lt_weights h (Nat.le_of_not_lt hlength)
  have hall := weights_splitTopNonempty μ tracked separators cs
  omega

/-! ### Members -/

/-- A word that does not contain the mark between two texts stands on one side of it. -/
theorem eq_append_or {w x y before after : List Char} {c : Char} (hc : c ∉ w)
    (h : x ++ c :: y = before ++ (w ++ after)) :
    (∃ x', x = before ++ (w ++ x') ∧ after = x' ++ c :: y) ∨
      ∃ y', y = y' ++ (w ++ after) ∧ before = x ++ c :: y' := by
  rcases append_eq_append_iff.mp h with ⟨u, rfl, hu⟩ | ⟨u, rfl, hu⟩
  · cases u with
    | nil =>
      cases w with
      | nil => exact .inl ⟨[], by simp, by simpa using hu.symm⟩
      | cons d w =>
        cases hu
        exact absurd mem_cons_self hc
    | cons d u =>
      cases hu
      exact .inr ⟨u, rfl, rfl⟩
  · rcases append_eq_append_iff.mp hu with ⟨v, rfl, hv⟩ | ⟨v, rfl, hv⟩
    · exact .inl ⟨v, rfl, hv⟩
    · cases v with
      | nil => exact .inl ⟨[], by simp, by simpa using hv.symm⟩
      | cons d v =>
        cases hv
        exact absurd (by simp) hc

theorem isInfix_or_isInfix {w a b : List Char} {c : Char} (hc : c ∉ w) (h : w <:+: a ++ c :: b) :
    w <:+: a ∨ w <:+: b := by
  obtain ⟨before, after, h⟩ := h
  rw [append_assoc] at h
  rcases eq_append_or hc h.symm with ⟨x', rfl, -⟩ | ⟨y', rfl, -⟩
  · exact .inl ⟨before, x', append_assoc ..⟩
  · exact .inr ⟨y', after, append_assoc ..⟩

namespace Member

theorem weights_foldl {μ : Measure} {g : List (List Char) → List Char → List (List Char)}
    (hg : ∀ acc l, μ.weights (g acc l) = μ.weights acc + (μ.weight l + 1))
    (acc ls : List (List Char)) :
    μ.weights (ls.foldl g acc) = μ.weights acc + μ.weights ls := by
  induction ls generalizing acc with
  | nil => simp
  | cons l ls ih =>
    rw [foldl_cons, ih, hg, Measure.weights_cons]
    omega

/-- A line is joined to another with a space in the place of the separator. -/
theorem weights_joinContinuations (μ : Measure) (ls : List (List Char)) :
    μ.weights (joinContinuations ls) = μ.weights ls := by
  rw [joinContinuations, Measure.weights_reverse, weights_foldl, Measure.weights_nil, Nat.zero_add]
  intro acc l
  split
  · simp
  · split
    · simp [μ.space]
      omega
    · simp
      omega

/-- Joining lines makes no words, since a space stands between them. -/
theorem words_joinContinuations {ls : List (List Char)} {w : List Char} (hw : ' ' ∉ w)
    (h : ∀ l ∈ ls, w <:+: l → w <:+: body) :
    ∀ l ∈ joinContinuations ls, w <:+: l → w <:+: body := by
  suffices hfold : ∀ l ∈ (joinContinuations ls).reverse, w <:+: l → w <:+: body from
    fun l hl => hfold l (mem_reverse.mpr hl)
  rw [joinContinuations, reverse_reverse]
  refine foldlRecOn (motive := fun acc => ∀ l ∈ acc, w <:+: l → w <:+: body) ls _ (forall_mem_nil _)
    fun acc hacc line hline => ?_
  cases acc with
  | nil => exact forall_mem_singleton.mpr (h line hline)
  | cons last before =>
    obtain ⟨hlast, hbefore⟩ := forall_mem_cons.mp hacc
    dsimp only
    split
    · exact forall_mem_cons.mpr
        ⟨fun hin => (isInfix_or_isInfix hw hin).elim hlast (h line hline), hbefore⟩
    · exact forall_mem_cons.mpr ⟨h line hline, hacc⟩

theorem taken_of_mem_lines (h : line ∈ lines tracked separators body) : TakenFrom body line := by
  refine ⟨fun μ => ?_, fun w hw => words_joinContinuations hw (fun l hl => ?_) line h⟩
  · have hline := μ.weight_le_weights h
    have hall := weights_splitTopNonempty μ tracked separators body
    rw [lines, weights_joinContinuations] at hline
    omega
  · exact (taken_of_mem_splitTopNonempty hl).words w hw

theorem taken_of_field? {f : Field} {p : Raw} (h : field? tracked line = some f)
    (hp : p ∈ f.types) :
    TakenFrom line p.asText := by
  unfold field? at h
  split at h
  case h_1 => cases h
  case h_2 left type hsplit =>
    split at h
    case isTrue => cases h
    case isFalse =>
      obtain ⟨⟨key, optional⟩, _, rfl⟩ := Option.map_eq_some_iff.mp h
      rw [Field.types_eq] at hp
      cases mem_singleton.mp hp
      exact .of_splitFirstTop hsplit

theorem taken_of_indexType? {type : List Char} (h : indexType? tracked line = some type) :
    TakenFrom line type := by
  unfold indexType? at h
  split at h
  case h_1 hsplit =>
    split at h
    · cases h
    · cases h
      exact .of_splitFirstTop hsplit
  case h_2 => cases h

end Member

end Crosswalk
