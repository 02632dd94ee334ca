import Crosswalk.Source.Literal

/-!
Text with balanced delimiters and closed literals. A walk over such a text comes back to the state
it started in, so that separators count exactly where they stand outside every group and literal.
-/

namespace Crosswalk

open List

variable {c : Char} {d : Delimiter}

theorem forall_mem_of_all {p : Char → Prop} [DecidablePred p] {cs : List Char}
    (h : (cs.all fun c => p c)) : ∀ c ∈ cs, p c := by
  simpa using h

/-- A character of another class than the members of a list is none of them. -/
theorem contains_eq_false {p : Char → Bool} {l : List Char} (h : ∀ d ∈ l, p d ≠ p c) :
    l.contains c = false := by
  rw [contains_eq_mem, decide_eq_false_iff_not]
  exact fun hc => h c hc rfl

/-- Characters without a meaning for the walk. -/
def isPlain (c : Char) : Bool :=
  !isQuote c && (Delimiter.ofOpener? c).isNone && (Delimiter.ofCloser? c).isNone && c != '='

/-- The inside of a literal between double quotes, on one line. -/
inductive Quoted : List Char → Prop
  | nil : Quoted []
  | char {c : Char} {cs : List Char} (hq : c ≠ '"') (hb : c ≠ '\\') (hn : c ≠ '\n')
      (h : Quoted cs) : Quoted (c :: cs)
  | escape {c : Char} {cs : List Char} (hn : c ≠ '\n') (h : Quoted cs) : Quoted ('\\' :: c :: cs)

/-- Text with balanced delimiters of the kinds that `tracked` opens, whose plain characters outside
of them are `ok`. -/
inductive Nested (tracked : List Char) : (Char → Bool) → List Char → Prop
  | nil {ok : Char → Bool} : Nested tracked ok []
  | plain {ok : Char → Bool} {c : Char} {cs : List Char} (hp : isPlain c = true)
      (hc : ok c = true) (h : Nested tracked ok cs) : Nested tracked ok (c :: cs)
  | literal {ok : Char → Bool} {body cs : List Char} (hb : Quoted body) (h : Nested tracked ok cs) :
      Nested tracked ok ('"' :: (body ++ '"' :: cs))
  | group {ok : Char → Bool} (d : Delimiter) (hd : d.opener ∈ tracked) {inner cs : List Char}
      (hi : Nested tracked (fun _ => true) inner) (h : Nested tracked ok cs) :
      Nested tracked ok (d.opener :: (inner ++ d.closer :: cs))

/-- Text with balanced delimiters of every kind. -/
abbrev Balanced : (Char → Bool) → List Char → Prop := Nested everyOpener

namespace Nested

variable {tracked : List Char} {ok ok' : Char → Bool} {as bs cs : List Char}

theorem mono (h : Nested tracked ok cs) (hok : ∀ c, ok c → ok' c) :
    Nested tracked ok' cs := by
  induction h with
  | nil => exact .nil
  | plain hp hc _ ih => exact .plain hp (hok _ hc) (ih hok)
  | literal hb _ ih => exact .literal hb (ih hok)
  | group d hd hi _ _ ih => exact .group d hd hi (ih hok)

theorem append (ha : Nested tracked ok as) (hb : Nested tracked ok bs) :
    Nested tracked ok (as ++ bs) := by
  induction ha with
  | nil => exact hb
  | plain hp hc _ ih => exact .plain hp hc (ih hb)
  | literal hq _ ih =>
    rw [cons_append, append_assoc, cons_append]
    exact .literal hq (ih hb)
  | group d hd hi _ _ ih =>
    rw [cons_append, append_assoc, cons_append]
    exact .group d hd hi (ih hb)

theorem of_all (h : ∀ c ∈ cs, isPlain c ∧ ok c) : Nested tracked ok cs := by
  induction cs with
  | nil => exact .nil
  | cons c cs ih =>
    obtain ⟨hc, hcs⟩ := forall_mem_cons.mp h
    exact .plain hc.1 hc.2 (ih hcs)

end Nested

/-! ### Steps of the walk -/

namespace Depths

theorem get_modify (f : Nat → Nat) (d : Depths) (x y : Delimiter) :
    (d.modify f x).get y = if y = x then f (d.get x) else d.get y := by
  cases x <;> cases y <;> rfl

theorem modify_pred_succ (d : Depths) (x : Delimiter) :
    (d.modify (· + 1) x).modify (· - 1) x = d := by
  cases x <;> simp [modify]

theorem total_modify_succ (d : Depths) (x : Delimiter) : (d.modify (· + 1) x).total ≠ 0 := by
  cases x <;> simp only [modify, total] <;> omega

end Depths

namespace Delimiter

theorem ofOpener?_opener (d : Delimiter) : ofOpener? d.opener = some d := by cases d <;> rfl

theorem ofOpener?_eq_some_iff : ofOpener? c = some d ↔ c = d.opener := by
  constructor
  · intro h
    have hd := find?_some h
    exact (beq_iff_eq.mp hd).symm
  · rintro rfl
    exact d.ofOpener?_opener

theorem ofCloser?_eq_some_iff : ofCloser? c = some d ↔ c = d.closer := by
  constructor
  · intro h
    have hd := find?_some h
    exact (beq_iff_eq.mp hd).symm
  · rintro rfl
    cases d <;> rfl

theorem opener_mem (d : Delimiter) : d.opener ∈ everyOpener := by cases d <;> decide

theorem isPlain_opener (d : Delimiter) : isPlain d.opener = false := by cases d <;> rfl

theorem isPlain_closer (d : Delimiter) : isPlain d.closer = false := by cases d <;> rfl

end Delimiter

namespace Scan

variable {s : Scan} {tracked : List Char} {previous : Option Char}

theorem closes?_eq_some_iff :
    closes? tracked previous c = some d ↔
    c = d.closer ∧ d.opener ∈ tracked ∧ ¬(d.closer = '>' ∧ previous = some '=') := by
  rw [closes?]
  cases h : Delimiter.ofCloser? c with
  | none =>
    refine iff_of_false (by simp) fun hd => ?_
    rw [Delimiter.ofCloser?_eq_some_iff.mpr hd.1] at h
    cases h
  | some e =>
    have hc := Delimiter.ofCloser?_eq_some_iff.mp h
    have hinj : e.closer = d.closer ↔ e = d := by cases e <;> cases d <;> decide
    subst hc
    rw [hinj]
    dsimp only
    split
    case isTrue ht =>
      simp only [Bool.and_eq_true, contains_iff_mem, Bool.not_eq_true', Bool.and_eq_false_iff,
        beq_eq_false_iff_ne] at ht
      constructor
      · rintro ⟨⟩
        exact ⟨rfl, ht.1, fun h => ht.2.elim (fun h' => h' h.1) fun h' => h' h.2⟩
      · rintro ⟨rfl, -⟩
        rfl
    case isFalse hf =>
      refine iff_of_false (by simp) ?_
      rintro ⟨rfl, ht, hp⟩
      refine hf ?_
      simp only [Bool.and_eq_true, contains_iff_mem, Bool.not_eq_true', Bool.and_eq_false_iff,
        beq_eq_false_iff_ne]
      exact ⟨ht, Classical.not_and_iff_not_or_not.mp hp⟩

section Code

variable (hs : s.mode = .code)
include hs

theorem step_plain (hc : isPlain c) : s.step tracked previous c = s := by
  simp only [isPlain, Bool.and_eq_true, Bool.not_eq_true', Option.isNone_iff_eq_none] at hc
  obtain ⟨⟨⟨hq, ho⟩, hcl⟩, -⟩ := hc
  simp [step, hs, hq, ho, closes?, hcl]

theorem step_quote : s.step tracked previous '"' = { s with mode := .literal '"' } := by
  simp [step, hs, isQuote]

theorem step_opener (hd : d.opener ∈ tracked) :
    s.step tracked previous d.opener = { s with depths := s.depths.modify (· + 1) d } := by
  have hquote : isQuote d.opener = false := by cases d <;> rfl
  simp [step, hs, hquote, d.ofOpener?_opener, hd]

theorem step_closes (hc : closes? tracked previous c = some d) :
    s.step tracked previous c = { s with depths := s.depths.modify (· - 1) d } := by
  obtain ⟨rfl, -⟩ := closes?_eq_some_iff.mp hc
  have hquote : isQuote d.closer = false := by cases d <;> rfl
  have hopener : Delimiter.ofOpener? d.closer = none := by cases d <;> rfl
  simp [step, hs, hquote, hopener, hc]

theorem step_closer (hp : previous ≠ some '=') (hd : d.opener ∈ tracked) :
    s.step tracked previous d.closer = { s with depths := s.depths.modify (· - 1) d } :=
  step_closes hs (closes?_eq_some_iff.mpr ⟨rfl, hd, fun h => hp h.2⟩)

end Code

theorem atTop_eq_false (h : s.depths.total ≠ 0) : s.atTop = false := by
  simp [atTop, h]

theorem eq_of_atTop (h : s.atTop) : s = {} := by
  obtain ⟨mode, brace, paren, bracket, angle⟩ := s
  simp only [atTop, inLiteral, Depths.total, Bool.and_eq_true, Bool.not_eq_true',
    bne_eq_false_iff_eq, beq_iff_eq, Nat.add_eq_zero_iff] at h
  obtain ⟨rfl, ⟨⟨rfl, rfl⟩, rfl⟩, rfl⟩ := h
  rfl

theorem atTop_literal (h : s.mode ≠ .code) : s.atTop = false := by
  simp [atTop, inLiteral, h]

end Scan

/-! ### Passing over text -/

/-- The walk goes over a text in which no character is `bad` where it stands. -/
inductive Walks (tracked : List Char) (bad : Option Char → Scan → Char → Bool) :
    Option Char → Scan → List Char → Option Char → Scan → Prop
  | nil {p : Option Char} {s : Scan} : Walks tracked bad p s [] p s
  | cons {p q : Option Char} {s t : Scan} {c : Char} {cs : List Char} (hc : bad p s c = false)
      (h : Walks tracked bad (some c) (s.step tracked p c) cs q t) :
        Walks tracked bad p s (c :: cs) q t

/-- The walk passes over a text without a character that is `stop` at the top level. -/
abbrev Passes (tracked : List Char) (stop : Char → Bool) :
    Option Char → Scan → List Char → Option Char → Scan → Prop :=
  Walks tracked fun _ s c => s.atTop && stop c

variable {tracked : List Char} {ok stop : Char → Bool} {bad bad' : Option Char → Scan → Char → Bool}
  {p q r : Option Char} {s t u : Scan} {as bs cs : List Char}

namespace Walks

theorem append (ha : Walks tracked bad p s as q t) (hb : Walks tracked bad q t bs r u) :
    Walks tracked bad p s (as ++ bs) r u := by
  induction ha with
  | nil => exact hb
  | cons hc _ ih => exact .cons hc (ih hb)

theorem mono (h : Walks tracked bad p s cs q t) (hbad : ∀ p s c, bad' p s c → bad p s c) :
    Walks tracked bad' p s cs q t := by
  induction h with
  | nil => exact .nil
  | cons hc _ ih =>
    exact .cons (Bool.eq_false_iff.mpr fun hc' => Bool.eq_false_iff.mp hc (hbad _ _ _ hc')) ih

theorem run_eq (h : Walks tracked bad p s cs q t) : s.run tracked p cs = t := by
  induction h with
  | nil => rfl
  | cons _ _ ih => exact ih

theorem previous_eq (h : Walks tracked bad p s cs q t) : q = cs.getLast?.or p := by
  induction h with
  | nil => rfl
  | @cons p q s t c cs _ _ ih => rw [ih, getLast?_cons, Option.some_or]; cases cs.getLast? <;> rfl

end Walks

/-- What is bad stands in code, and is a plain character at the top level or a closer without its
opener. -/
structure Lenient (bad : Option Char → Scan → Char → Bool) : Prop where
  literal : ∀ p s c, s.mode ≠ .code → bad p s c = false
  inner : ∀ p s c, s.depths.total ≠ 0 → isPlain c = true → bad p s c = false
  special : ∀ p s c, isPlain c = false → c ≠ '=' →
    (∀ d : Delimiter, c = d.closer → s.depths.get d ≠ 0) → bad p s c = false

theorem lenient_stop (hspecial : ∀ c, isPlain c = false → c ≠ '=' → stop c = false) :
    Lenient fun _ s c => s.atTop && stop c where
  literal := fun _ s _ hs => by rw [Scan.atTop_literal hs, Bool.false_and]
  inner := fun _ s _ hs _ => by rw [Scan.atTop_eq_false hs, Bool.false_and]
  special := fun _ _ c hc hne _ => by rw [hspecial c hc hne, Bool.and_false]

theorem Lenient.or (h : Lenient bad) (h' : Lenient bad') :
    Lenient fun p s c => bad p s c || bad' p s c where
  literal := fun p s c hs => by rw [h.literal p s c hs, h'.literal p s c hs, Bool.or_false]
  inner := fun p s c hs hc => by rw [h.inner p s c hs hc, h'.inner p s c hs hc, Bool.or_false]
  special := fun p s c hc hne hd =>
    by rw [h.special p s c hc hne hd, h'.special p s c hc hne hd, Bool.or_false]

theorem Quoted.walks (h : Quoted cs) (hbad : Lenient bad) (hs : s.mode = .literal '"')
    (p : Option Char) :
    ∃ q, Walks tracked bad p s cs q s := by
  have hliteral (t : Scan) (ht : t.mode ≠ .code) (p : Option Char) (c : Char) : bad p t c = false :=
    hbad.literal p t c ht
  induction h generalizing p with
  | nil => exact ⟨p, .nil⟩
  | @char c cs hq hb _ _ ih =>
    obtain ⟨q, hpass⟩ := ih (some c)
    refine ⟨q, .cons (hliteral s (by simp [hs]) p c) ?_⟩
    rwa [show s.step tracked p c = s by simp [Scan.step, hs, hq, hb]]
  | @escape c cs _ _ ih =>
    obtain ⟨q, hpass⟩ := ih (some c)
    refine ⟨q, .cons (hliteral s (by simp [hs]) p _) (.cons (hliteral _ ?_ _ c) ?_)⟩
    · simp [Scan.step, hs]
    · have hback : (s.step tracked p '\\').step tracked (some '\\') c = s := by
        cases s
        cases hs
        simp [Scan.step]
      rwa [hback]

/-- A literal is passed over as a whole. -/
theorem walks_literal (h : Quoted cs) (hbad : Lenient bad) (hs : s.mode = .code) (p : Option Char) :
    Walks tracked bad p s ('"' :: (cs ++ ['"'])) (some '"') s := by
  obtain ⟨q, hpass⟩ : ∃ q, Walks tracked bad (some '"') { s with mode := .literal '"' } cs q
      { s with mode := .literal '"' } := h.walks hbad rfl (some '"')
  refine .cons (hbad.special _ _ _ rfl (by decide) fun d hd => by cases d <;> cases hd) ?_
  rw [Scan.step_quote hs]
  refine hpass.append (.cons (hbad.literal _ _ _ (by simp)) ?_)
  have hback : ({ s with mode := .literal '"' } : Scan).step tracked q '"' = s := by
    cases s
    cases hs
    simp [Scan.step]
  rw [hback]
  exact .nil

/-- Balanced text is gone over if it stands in a group, or has nothing bad at its own top level. -/
theorem Nested.walks (h : Nested tracked ok cs) (hbad : Lenient bad) (hs : s.mode = .code)
    (hok : s.depths.total ≠ 0 ∨ ∀ p c, ok c → isPlain c → bad p s c = false) (hp : p ≠ some '=') :
    ∃ q, q ≠ some '=' ∧ Walks tracked bad p s cs q s := by
  induction h generalizing s p with
  | nil => exact ⟨p, hp, .nil⟩
  | @plain ok c cs hpc hc _ ih =>
    have hne : some c ≠ some '=' := by
      rintro ⟨⟩
      simp [isPlain] at hpc
    obtain ⟨q, hq, hpass⟩ := ih hs hok hne
    refine ⟨q, hq,
      .cons (hok.elim (fun htop => hbad.inner p s c htop hpc) fun hok => hok p c hc hpc) ?_⟩
    rwa [Scan.step_plain hs hpc]
  | @literal ok body cs hb _ ih =>
    obtain ⟨q, hq, hpass⟩ := ih hs hok (p := some '"') (by simp)
    refine ⟨q, hq, ?_⟩
    have hall := (walks_literal hb hbad hs p).append hpass
    simpa using hall
  | @group ok d hd inner cs _ _ ihi ih =>
    have hopener : d.opener ≠ '=' := by cases d <;> decide
    have hcloser : d.closer ≠ '=' := by cases d <;> decide
    have hdepth := Depths.total_modify_succ s.depths d
    obtain ⟨q, hq, hinner⟩ := ihi (s := { s with depths := s.depths.modify (· + 1) d })
      (p := some d.opener) hs (.inl hdepth) (by simpa using hopener)
    obtain ⟨q', hq', hpass⟩ := ih hs hok (p := some d.closer) (by simpa using hcloser)
    refine ⟨q', hq', .cons (hbad.special _ _ _ d.isPlain_opener hopener fun x hx => ?_) ?_⟩
    · cases d <;> cases x <;> cases hx
    rw [Scan.step_opener hs hd]
    refine hinner.append (.cons (hbad.special _ _ _ d.isPlain_closer hcloser fun x hx => ?_) ?_)
    · obtain rfl : d = x := by cases d <;> cases x <;> first | rfl | cases hx
      simp [Depths.get_modify]
    have hback : ({ s with depths := s.depths.modify (· + 1) d } : Scan).step tracked q
        d.closer = s := by
      rw [Scan.step_closer (s := { s with depths := s.depths.modify (· + 1) d }) hs hq hd]
      simp only [Depths.modify_pred_succ]
    rwa [hback]

theorem Nested.passes (h : Nested tracked ok cs)
    (hspecial : ∀ c, isPlain c = false → c ≠ '=' → stop c = false) (hs : s.mode = .code)
    (hstop : s.depths.total ≠ 0 ∨ ∀ c, ok c → stop c = false) (hp : p ≠ some '=') :
    ∃ q, q ≠ some '=' ∧ Passes tracked stop p s cs q s :=
  h.walks (lenient_stop hspecial) hs
    (hstop.imp_right fun hstop _ c hc _ => by rw [hstop c hc, Bool.and_false]) hp

theorem splitFrom_passes {separators : List Char}
    (h : Passes tracked separators.contains p s cs q t) (part rest : List Char) :
    splitFrom tracked separators part p s (cs ++ rest) =
      splitFrom tracked separators (cs.reverse ++ part) q t rest := by
  induction h generalizing part with
  | nil => rfl
  | cons hc _ ih =>
    rw [cons_append, splitFrom, if_neg (by simpa using hc), ih]
    simp

theorem findTopFrom_passes {mark : Char} (h : Passes tracked (· == mark) p s cs q t) (i : Nat)
    (rest : List Char) :
    findTopFrom tracked [mark] p s i (cs ++ rest) =
      findTopFrom tracked [mark] q t (i + cs.length) rest := by
  induction h generalizing i with
  | nil => rfl
  | @cons p q s t c cs hc _ ih =>
    have hstart : Text.startsWith [mark] (c :: (cs ++ rest)) = (c == mark) := by
      by_cases heq : mark = c
      · simp [Text.startsWith, Text.after?, heq]
      · have hne : (c == mark) = false := by simpa using fun h' => heq h'.symm
        simp [Text.startsWith, Text.after?, heq, hne]
    rw [cons_append, findTopFrom, hstart, hc, if_neg (by simp), ih, length_cons]
    congr 1
    omega

end Crosswalk
