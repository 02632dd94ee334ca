import Crosswalk.Proofs.Balanced

/-!
Text that closes what it opens: no closer stands in it without its opener, and neither a delimiter
nor a literal is open at its end. The search for the closer of a delimiter counts delimiters of one
kind; the walk counts every tracked kind, and never below zero. Main statements: the search ends
where the walk first comes back to the depth in front of the opener; and within a group the walk
passes such text without coming to the top level, so that the group is closed behind it and nowhere
before.
-/

namespace Crosswalk

open List

/-! ### Walks -/

namespace Scan

variable {tracked : List Char} {p q : Option Char} {s : Scan} {x : Delimiter} {c : Char}
  {as bs cs : List Char}

theorem run_append : run tracked p s (as ++ bs) =
    run tracked (as.getLast?.or p) (run tracked p s as) bs := by
  induction as generalizing p s with
  | nil => rfl
  | cons a as ih =>
    rw [cons_append, run, ih, run]
    cases as with
    | nil => rfl
    | cons b as => rw [getLast?_cons_cons, getLast?_cons, Option.some_or, Option.some_or]

theorem run_singleton (c : Char) : run tracked p s [c] = s.step tracked p c := rfl

theorem closes?_congr (h : c = '>' → (p = some '=' ↔ q = some '=')) :
    closes? tracked p c = closes? tracked q c := by
  by_cases hc : c = '>'
  · have hsame : (p == some '=') = (q == some '=') := by
      rw [Bool.eq_iff_iff, beq_iff_eq, beq_iff_eq]
      exact h hc
    rw [closes?, closes?, hsame]
  · simp [closes?, hc]

/-- What precedes a character matters only to the head of an arrow. -/
theorem step_congr (h : c = '>' → (p = some '=' ↔ q = some '=')) :
    s.step tracked p c = s.step tracked q c := by
  rw [step, step, closes?_congr h]

theorem run_congr (h : cs.head? = some '>' → (p = some '=' ↔ q = some '=')) :
    run tracked p s cs = run tracked q s cs := by
  cases cs with
  | nil => rfl
  | cons c cs => rw [run, run, step_congr fun hc => h (by rw [hc, head?_cons])]

theorem step_untracked (hs : s.mode = .code) (hc : isQuote c = false) :
    s.step [] p c = s := by
  simp only [step, hs, hc, closes?]
  cases Delimiter.ofOpener? c <;> cases Delimiter.ofCloser? c <;> simp

theorem run_untracked (p q : Option Char) : run [] p s cs = run [] q s cs := by
  cases cs with
  | nil => rfl
  | cons c cs => simp [run, step, closes?]

/-- Without tracked delimiters the mode is all that changes. -/
theorem mk_mode_run_untracked : ⟨(run [] p s cs).mode, s.depths⟩ = run [] p s cs := by
  induction cs generalizing p s with
  | nil => rfl
  | cons c cs ih =>
    have hdepths : (s.step [] p c).depths = s.depths := by
      cases hs : s.mode with
      | code =>
        by_cases hq : isQuote c
        · simp [step, hs, hq]
        · rw [step_untracked hs (by simpa using hq)]
      | escape q => simp [step, hs]
      | literal q =>
        simp only [step, hs]
        split
        · rfl
        · split <;> rfl
    rw [run, ← hdepths]
    exact ih

/-- The mode of a walk does not depend on the delimiters that are tracked. -/
theorem mode_step (s : Scan) (c : Char) :
    (s.step tracked p c).mode = (({ mode := s.mode } : Scan).step [] none c).mode := by
  obtain ⟨mode, depths⟩ := s
  cases mode with
  | escape q => rfl
  | literal q =>
    simp only [step]
    split
    · rfl
    · split <;> rfl
  | code =>
    by_cases hq : isQuote c
    · simp [step, hq]
    · rw [step_untracked rfl (by simpa using hq)]
      simp only [step, if_neg hq]
      split <;> split <;> rfl

theorem mode_run (s t : Scan) (h : s.mode = t.mode) {tracked' : List Char} :
    (run tracked p s cs).mode = (run tracked' q t cs).mode := by
  induction cs generalizing p q s t with
  | nil => exact h
  | cons c cs ih => exact ih _ _ (by rw [mode_step, mode_step (s := t), h])

/-- A closer that counts: it stands in code and is not the head of an arrow. -/
def Counts (x : Delimiter) (s : Scan) (p : Option Char) (c : Char) : Prop :=
  s.mode = .code ∧ c = x.closer ∧ ¬(x.closer = '>' ∧ p = some '=')

theorem get_step_opener (hs : s.mode = .code) (hx : x.opener ∈ tracked) :
    (s.step tracked p x.opener).depths.get x = s.depths.get x + 1 := by
  rw [step_opener hs hx, Depths.get_modify, if_pos rfl]

theorem get_step_closer (h : s.Counts x p c) (hx : x.opener ∈ tracked) :
    (s.step tracked p c).depths.get x = s.depths.get x - 1 := by
  rw [step_closes h.1 (closes?_eq_some_iff.mpr ⟨h.2.1, hx, h.2.2⟩), Depths.get_modify, if_pos rfl]

/-- Nothing but an opener or closer of its kind changes the depth of a delimiter. -/
theorem get_step_other (ho : ¬(s.mode = .code ∧ c = x.opener)) (hc : ¬s.Counts x p c) :
    (s.step tracked p c).depths.get x = s.depths.get x := by
  obtain ⟨mode, depths⟩ := s
  rw [step]
  cases mode with
  | escape q => rfl
  | literal q =>
    dsimp only
    split
    · rfl
    · split <;> rfl
  | code =>
    dsimp only
    split
    · rfl
    · split
      case h_1 d hd =>
        have hne : x ≠ d := fun h => ho ⟨rfl, h ▸ Delimiter.ofOpener?_eq_some_iff.mp hd⟩
        split
        · rw [Depths.get_modify, if_neg hne]
        · rfl
      case h_2 =>
        split
        case h_1 d hd =>
          obtain ⟨rfl, -, harrow⟩ := closes?_eq_some_iff.mp hd
          have hne : x ≠ d := fun h => hc ⟨rfl, h ▸ rfl, h ▸ harrow⟩
          rw [Depths.get_modify, if_neg hne]
        case h_2 => rfl

end Scan

/-! ### The search for a closer -/

section Search

variable {tracked : List Char} {p : Option Char} {s t : Scan} {x : Delimiter} {k depth i : Nat}
  {cs : List Char}

/-- The search for a closer looks for the first character behind which the walk is back at depth
`k`. The invariant of the induction is that the walk is `depth` deeper than `k`. -/
theorem closerFrom_eq_find? (hx : x.opener ∈ tracked) (hmode : s.mode = t.mode) (hpos : 1 ≤ depth)
    (hdepth : t.depths.get x = k + depth) :
    closerFrom x.opener x.closer depth p s i cs =
      ((range cs.length).find? fun n => (t.run tracked p (cs.take (n + 1))).depths.get x == k).map
        (i + ·) := by
  induction cs generalizing p s t depth i with
  | nil => rfl
  | cons c cs ih =>
    have hnext : (s.step [] p c).mode = (t.step tracked p c).mode := by
      rw [Scan.mode_step, Scan.mode_step (s := t), hmode]
    rw [length_cons, range_succ_eq_map, find?_cons, take_succ_cons, take_zero, Scan.run_singleton]
    -- The walk goes on one deeper, less deep or as deep as before.
    have hgo {depth' : Nat} (hpos' : 1 ≤ depth')
        (hdepth' : (t.step tracked p c).depths.get x = k + depth') :
        closerFrom x.opener x.closer depth' (some c) (s.step [] p c) (i + 1) cs =
          (match (t.step tracked p c).depths.get x == k with
            | true => some 0
            | false => ((range cs.length).map Nat.succ).find? fun n =>
                (t.run tracked p ((c :: cs).take (n + 1))).depths.get x == k).map (i + ·) := by
      have hne : ((t.step tracked p c).depths.get x == k) = false := by
        rw [beq_eq_false_iff_ne]
        omega
      rw [ih hnext hpos' hdepth', hne, find?_map, Option.map_map]
      refine congrArg (Option.map · _) (funext fun n => ?_)
      simp only [Function.comp]
      omega
    rw [closerFrom]
    by_cases hs : t.mode = .code
    · have hliteral : s.inLiteral = false := by simp [Scan.inLiteral, hmode, hs]
      rw [hliteral, if_neg Bool.false_ne_true]
      split
      case isTrue ho =>
        subst ho
        exact hgo (Nat.le_add_left 1 depth)
          (by rw [Scan.get_step_opener hs hx, hdepth, Nat.add_assoc])
      case isFalse ho =>
        have hcounts : (c = x.closer && !(x.closer == '>' && p == some '=')) ↔ t.Counts x p c := by
          simp [Scan.Counts, hs, Decidable.imp_iff_not_or]
        split
        case isTrue hc =>
          have hback := Scan.get_step_closer (hcounts.mp hc) hx
          split
          case isTrue hlast =>
            have hk : ((t.step tracked p c).depths.get x == k) := beq_iff_eq.mpr (by omega)
            rw [hk]
            rfl
          case isFalse hmore => exact hgo (by omega) (by omega)
        case isFalse hc =>
          exact hgo hpos ((Scan.get_step_other (fun h => ho h.2) (mt hcounts.mpr hc)).trans hdepth)
    · have hliteral : s.inLiteral := by simp [Scan.inLiteral, hmode, hs]
      rw [if_pos hliteral]
      exact hgo hpos ((Scan.get_step_other (fun h => hs h.1) fun h => hs h.1).trans hdepth)

end Search

/-! ### Walks within further delimiters -/

namespace Depths

def add (d e : Depths) : Depths :=
  ⟨d.brace + e.brace, d.paren + e.paren, d.bracket + e.bracket, d.angle + e.angle⟩

theorem zero_add (d : Depths) : add {} d = d := by
  cases d
  simp [add]

theorem total_add (d e : Depths) : (d.add e).total = d.total + e.total := by
  simp only [add, total]
  omega

theorem get_add (d e : Depths) (x : Delimiter) : (d.add e).get x = d.get x + e.get x := by
  cases x <;> rfl

theorem modify_succ_add (d e : Depths) (x : Delimiter) :
    (d.add e).modify (· + 1) x = (d.modify (· + 1) x).add e := by
  cases x <;> simp only [add, modify, Depths.mk.injEq, and_self, and_true, true_and] <;> omega

theorem modify_pred_add {d : Depths} {x : Delimiter} (h : d.get x ≠ 0) (e : Depths) :
    (d.add e).modify (· - 1) x = (d.modify (· - 1) x).add e := by
  cases x <;> simp only [get] at h <;>
    simp only [add, modify, Depths.mk.injEq, and_self, and_true, true_and] <;> omega

end Depths

namespace Scan

variable {tracked : List Char} {s : Scan} {p q : Option Char} {c : Char} {cs : List Char}

/-- A closer of which no opener is open. -/
def isStray (tracked : List Char) (previous : Option Char) (c : Char) (s : Scan) : Bool :=
  s.mode == .code && (closes? tracked previous c).any fun d => s.depths.get d == 0

/-- The same place of a walk that started within further delimiters. -/
def within (s : Scan) (d : Depths) : Scan := { s with depths := s.depths.add d }

theorem step_within (h : s.isStray tracked p c = false) (d : Depths) :
    (s.within d).step tracked p c = (s.step tracked p c).within d := by
  obtain ⟨mode, depths⟩ := s
  cases mode with
  | escape q => rfl
  | literal q =>
    simp only [step, within]
    split
    · rfl
    · split <;> rfl
  | code =>
    simp only [step, within]
    split
    · rfl
    · split
      · split
        · rw [Depths.modify_succ_add]
        · rfl
      · split
        case h_1 x hx =>
          have hopen : depths.get x ≠ 0 := by simpa [isStray, hx] using h
          rw [Depths.modify_pred_add hopen]
        case h_2 => rfl

/-- A closer that is no part of an arrow closes whatever stands before it. -/
theorem step_closer_of_ne_angle (hs : s.mode = .code) {d : Delimiter} (hd : d.opener ∈ tracked)
    (hangle : d ≠ .angle) :
    s.step tracked p d.closer = { s with depths := s.depths.modify (· - 1) d } := by
  refine step_closes hs (closes?_eq_some_iff.mpr ⟨rfl, hd, fun h => ?_⟩)
  cases d <;> first | exact hangle rfl | cases h.1

end Scan

/-- No closer of the text is without its opener. -/
def strayless (tracked : List Char) (previous : Option Char) (s : Scan) : List Char → Bool
  | [] => true
  | c :: cs =>
    !s.isStray tracked previous c && strayless tracked (some c) (s.step tracked previous c) cs

/-- The text closes what it opens and nothing else. -/
structure Sealed (tracked cs : List Char) : Prop where
  strayless : strayless tracked none {} cs = true
  ends : Scan.run tracked none {} cs = {}

section Walk

variable {tracked : List Char} {stop : Char → Bool} {s : Scan} {p q : Option Char}
  {cs x y : List Char}

theorem strayless_append :
    strayless tracked p s (x ++ y) = (strayless tracked p s x &&
      strayless tracked (x.getLast?.or p) (Scan.run tracked p s x) y) := by
  induction x generalizing p s with
  | nil => rfl
  | cons c x ih =>
    rw [cons_append, strayless, ih, strayless, Scan.run, getLast?_cons, Bool.and_assoc]
    cases x.getLast? <;> rfl

theorem strayless_of_isPrefix (h : strayless tracked p s cs) (hx : x <+: cs) :
    strayless tracked p s x := by
  obtain ⟨y, rfl⟩ := hx
  rw [strayless_append, Bool.and_eq_true] at h
  exact h.1

theorem strayless_congr (hp : p ≠ some '=') (hq : q ≠ some '=') :
    strayless tracked p s cs = strayless tracked q s cs := by
  cases cs with
  | nil => rfl
  | cons c cs =>
    have hsame : c = '>' → (p = some '=' ↔ q = some '=') := fun _ => iff_of_false hp hq
    rw [strayless, strayless, Scan.isStray, Scan.isStray, Scan.closes?_congr hsame,
      Scan.step_congr hsame]

theorem run_within (h : strayless tracked p s cs) (d : Depths) :
    Scan.run tracked p (s.within d) cs = (Scan.run tracked p s cs).within d := by
  induction cs generalizing p s with
  | nil => rfl
  | cons c cs ih =>
    rw [strayless, Bool.and_eq_true, Bool.not_eq_true'] at h
    rw [Scan.run, Scan.run, Scan.step_within h.1, ih h.2]

/-- Within a group the walk does not come to the top level. -/
theorem passes_within (h : strayless tracked p s cs) {d : Depths} (hd : d.total ≠ 0) :
    ∃ q, Passes tracked stop p (s.within d) cs q ((Scan.run tracked p s cs).within d) := by
  induction cs generalizing p s with
  | nil => exact ⟨p, .nil⟩
  | cons c cs ih =>
    rw [strayless, Bool.and_eq_true, Bool.not_eq_true'] at h
    have htop : (s.within d).atTop = false := by
      refine Scan.atTop_eq_false ?_
      rw [Scan.within, Depths.total_add]
      omega
    obtain ⟨q, hnext⟩ := ih h.2
    rw [← Scan.step_within h.1] at hnext
    exact ⟨q, .cons (by rw [htop]; rfl) hnext⟩

/-- The walk passes characters without a meaning. -/
theorem passes_plain (hs : s.mode = .code)
    (h : ∀ c ∈ cs, isPlain c ∧ stop c = false) : ∃ q, Passes tracked stop p s cs q s := by
  induction cs generalizing p with
  | nil => exact ⟨p, .nil⟩
  | cons c cs ih =>
    obtain ⟨⟨hplain, hc⟩, hcs⟩ := forall_mem_cons.mp h
    obtain ⟨q, hpasses⟩ := ih (p := some c) hcs
    refine ⟨q, .cons (by rw [hc, Bool.and_false]) ?_⟩
    rwa [Scan.step_plain hs hplain]

theorem within_top (d : Depths) : ({} : Scan).within d = ⟨.code, d⟩ := by
  rw [Scan.within, Depths.zero_add]

namespace Sealed

theorem strayless_of_ne (h : Sealed tracked cs) (hp : p ≠ some '=') :
    Crosswalk.strayless tracked p {} cs := by
  rw [strayless_congr hp (q := none) (by simp), h.strayless]

theorem run_of_ne (h : Sealed tracked cs) (hp : p ≠ some '=') : Scan.run tracked p {} cs = {} := by
  rw [Scan.run_congr (q := none) fun _ => iff_of_false hp (by simp), h.ends]

/-- A group of such text is passed as a whole. -/
theorem passes_group (h : Sealed tracked cs) {d : Delimiter} (hd : d.opener ∈ tracked)
    (hangle : d ≠ .angle) (hopener : stop d.opener = false) (hcloser : stop d.closer = false)
    (hs : s.mode = .code) :
    Passes tracked stop p s (d.opener :: (cs ++ [d.closer])) (some d.closer) s := by
  obtain ⟨mode, depths⟩ := s
  obtain rfl : mode = .code := hs
  have hprevious : some d.opener ≠ some '=' := by cases d <;> simp [Delimiter.opener]
  obtain ⟨q, hinner⟩ :
      ∃ q, Passes tracked stop (some d.opener) (({} : Scan).within (depths.modify (· + 1) d)) cs q
      ((Scan.run tracked (some d.opener) {} cs).within (depths.modify (· + 1) d)) :=
    passes_within (h.strayless_of_ne hprevious) (Depths.total_modify_succ depths d)
  rw [h.run_of_ne hprevious, within_top] at hinner
  have hback :
      (⟨.code, depths.modify (· + 1) d⟩ : Scan).step tracked q d.closer = ⟨.code, depths⟩ := by
    rw [Scan.step_closer_of_ne_angle rfl hd hangle, Depths.modify_pred_succ]
  refine .cons (by simp [hopener]) ?_
  rw [Scan.step_opener rfl hd]
  exact hinner.append (.cons (by simp [hcloser]) (hback ▸ .nil))

end Sealed

/-! ### Closers behind such text -/

variable {d : Delimiter}

/-- The walk behind a delimiter that opens a text. -/
def opened (d : Delimiter) : Scan := { depths := ({} : Depths).modify (· + 1) d }

theorem get_run_opened (h : strayless tracked p {} cs) (d : Delimiter) :
    ((opened d).run tracked p cs).depths.get d = (Scan.run tracked p {} cs).depths.get d + 1 := by
  rw [opened, ← within_top, run_within h, Scan.within, Depths.get_add, Depths.get_modify,
    if_pos rfl]
  cases d <;> rfl

theorem closer?_opener (hd : d.opener ∈ tracked) (cs : List Char) :
    closer? (d.opener :: cs) = ((range cs.length).find? fun n =>
      ((opened d).run tracked (some d.opener) (cs.take (n + 1))).depths.get d == 0).map
        (1 + ·) := by
  have hone : (opened d).depths.get d = 0 + 1 := by cases d <;> rfl
  rw [closer?, d.ofOpener?_opener]
  exact closerFrom_eq_find? hd rfl (Nat.le_refl 1) hone

/-- A delimiter before a text without stray closers stays open. -/
theorem closer?_eq_none (hd : d.opener ∈ tracked) (h : strayless tracked none {} cs) :
    closer? (d.opener :: cs) = none := by
  have hopener : some d.opener ≠ some '=' := by cases d <;> simp [Delimiter.opener]
  rw [closer?_opener hd, Option.map_eq_none_iff, find?_range_eq_none]
  intro n _
  rw [strayless_congr (q := some d.opener) (by simp) hopener] at h
  rw [get_run_opened (strayless_of_isPrefix h (List.take_prefix ..))]
  rfl

namespace Sealed

theorem closer?_eq (h : Sealed tracked cs) (hd : d.opener ∈ tracked)
    (hlast : d = .angle → cs.getLast? ≠ some '=') (rest : List Char) :
    closer? (d.opener :: (cs ++ d.closer :: rest)) = some (cs.length + 1) := by
  have hopener : some d.opener ≠ some '=' := by cases d <;> simp [Delimiter.opener]
  have hstrayless := h.strayless_of_ne hopener
  have hcloses : Scan.closes? tracked (cs.getLast?.or (some d.opener)) d.closer = some d := by
    refine Scan.closes?_eq_some_iff.mpr ⟨rfl, hd, fun ⟨hangle, hequals⟩ => ?_⟩
    obtain rfl : d = .angle := by cases d <;> first | rfl | cases hangle
    cases hcs : cs.getLast? with
    | none => rw [hcs] at hequals; cases hequals
    | some c => rw [hcs] at hequals; exact hlast rfl (hcs.trans hequals)
  have hend : (opened d).run tracked (some d.opener) cs = opened d := by
    rw [opened, ← within_top, run_within hstrayless, h.run_of_ne hopener]
  rw [closer?_opener hd, Option.map_eq_some_iff]
  refine ⟨cs.length, find?_range_eq_some.mpr ⟨?_, by simp, fun n hn => ?_⟩, Nat.add_comm ..⟩
  · rw [take_length_add_append, take_succ_cons, take_zero, Scan.run_append, hend,
      Scan.run_singleton,
      Scan.step_closes rfl hcloses, opened]
    cases d <;> rfl
  · rw [take_append_of_le_length hn,
        get_run_opened (strayless_of_isPrefix hstrayless (List.take_prefix ..))]
    rfl

theorem enclosed?_eq (h : Sealed tracked cs) (hb : '{' ∈ tracked) :
    enclosed? '{' ('{' :: (cs ++ ['}'])) = some cs := by
  have hcloser : closer? ('{' :: (cs ++ ['}'])) = some (cs.length + 1) :=
    h.closer?_eq (d := .brace) hb nofun []
  rw [enclosed?, hcloser]
  simp

end Sealed

end Walk

/-! ### Balanced text -/

section Balanced

variable {tracked : List Char} {ok : Char → Bool} {p q : Option Char} {s t : Scan} {d : Delimiter}
    {c : Char}
  {as bs cs : List Char}

theorem isStray_plain (hc : isPlain c) : s.isStray tracked p c = false := by
  simp only [isPlain, Bool.and_eq_true, Option.isNone_iff_eq_none] at hc
  simp [Scan.isStray, Scan.closes?, hc.1.2]

theorem lenient_isStray (tracked : List Char) : Lenient fun p s c => s.isStray tracked p c where
  literal := fun p s c hs => by simp [Scan.isStray, hs]
  inner := fun p s c _ hc => isStray_plain hc
  special := fun p s c _ _ hopen => by
    cases hd : Scan.closes? tracked p c with
    | none => simp [Scan.isStray, hd]
    | some d => simp [Scan.isStray, hd, hopen d (Scan.closes?_eq_some_iff.mp hd).1]

theorem Walks.strayless (h : Walks tracked (fun p s c => s.isStray tracked p c) p s cs q t) :
    strayless tracked p s cs := by
  induction h with
  | nil => rfl
  | cons hc _ ih => rw [Crosswalk.strayless, hc, ih]; rfl

theorem Nested.balanced (h : Nested tracked ok cs) : Balanced ok cs := by
  induction h with
  | nil => exact .nil
  | plain hp hc _ ih => exact .plain hp hc ih
  | literal hb _ ih => exact .literal hb ih
  | group d _ _ _ ihi ih => exact .group d d.opener_mem ihi ih

/-- Balanced text closes what it opens, and no arrow starts at its end. -/
theorem Nested.isSealed (h : Nested tracked ok cs) :
    Sealed tracked cs ∧ cs.getLast? ≠ some '=' := by
  obtain ⟨q, hq, hwalks⟩ := h.walks (lenient_isStray tracked) (s := {}) (p := none) rfl
    (.inr fun p c _ hc => isStray_plain hc) (by simp)
  rw [hwalks.previous_eq, Option.or_none] at hq
  exact ⟨⟨hwalks.strayless, hwalks.run_eq⟩, hq⟩

/-- A group that opens a text is closed by its own closer. -/
theorem Nested.closer?_group (h : Nested tracked ok cs) (d : Delimiter) (rest : List Char) :
    closer? (d.opener :: (cs ++ d.closer :: rest)) = some (cs.length + 1) :=
  h.balanced.isSealed.1.closer?_eq d.opener_mem (fun _ => h.isSealed.2) rest

theorem Nested.enclosed?_group (h : Nested tracked ok cs) (d : Delimiter) :
    enclosed? d.opener (d.opener :: (cs ++ [d.closer])) = some cs := by
  rw [enclosed?, h.closer?_group d []]
  simp

theorem enclosed?_of_head (hc : cs.head? ≠ some c) : enclosed? c cs = none := by
  have hne : (cs.head? == some c) = false := by simpa using hc
  simp [enclosed?, hne]

/-- A group at the start encloses no more than itself. -/
theorem Nested.enclosed?_append (h : Nested tracked ok as) (ha : as ≠ []) (hb : bs ≠ [])
    (d : Delimiter) : enclosed? d.opener (as ++ bs) = none := by
  cases h with
  | nil => exact absurd rfl ha
  | @plain ok c cs hp _ _ =>
    refine enclosed?_of_head ?_
    rintro ⟨⟩
    exact absurd hp (by simp [d.isPlain_opener])
  | literal _ _ =>
    refine enclosed?_of_head ?_
    cases d <;> simp [Delimiter.opener]
  | @group ok x _ inner cs hi _ =>
    by_cases hx : x = d
    · subst hx
      rw [cons_append, append_assoc, cons_append, enclosed?, hi.closer?_group]
      have hlength : 0 < bs.length := length_pos_iff.mpr hb
      simp only [head?_cons, BEq.rfl, Bool.true_and, length_cons, length_append]
      rw [if_neg]
      simp only [beq_iff_eq, Option.some.injEq]
      omega
    · refine enclosed?_of_head ?_
      revert hx
      cases x <;> cases d <;> simp [Delimiter.opener]

end Balanced

end Crosswalk
