import Crosswalk.Proofs.MatchingClosers
import Crosswalk.Source.GraphQL
import Crosswalk.Source.Sql

/-!
Removal of comments as a law of texts. A comment leaves a space, a newline or the end of the text
behind, and no mark holds one of these, so that no mark comes about by the removal. Main statement:
removal is stable, keeps a text with no mark outside literals, and goes line by line where a line
ends in code.
-/

namespace Crosswalk

open List

variable {m : List Char × List Char}

namespace Text

variable {mark y : List Char}

/-- A mark that fits into the start of a text is looked for there only. -/
theorem after?_append_of_le (h : mark.length ≤ y.length) (t : List Char) :
    after? mark (y ++ t) = (after? mark y).map (· ++ t) := by
  induction mark generalizing y with
  | nil => rfl
  | cons m mark ih =>
    cases y with
    | nil => simp at h
    | cons c y =>
      rw [cons_append, after?, after?]
      split
      · exact ih (Nat.le_of_succ_le_succ h)
      · rfl

/-- A mark that is found is found at the same place if more text follows. -/
theorem breakAfter_append {passed before rest : List Char} (hmark : mark ≠ [])
    (h : breakAfter mark passed y = some (before, rest)) (t : List Char) :
    breakAfter mark passed (y ++ t) = some (before, rest ++ t) := by
  induction y generalizing passed with
  | nil =>
    rw [breakAfter, if_neg (by simpa using hmark)] at h
    cases h
  | cons c y ih =>
    have hle : mark.length ≤ (c :: y).length := by
      obtain ⟨x, -, hcs⟩ := exists_of_breakAfter h
      simp only [hcs, length_append]
      omega
    rw [breakAfter] at h
    rw [cons_append, breakAfter, ← cons_append, after?_append_of_le hle]
    split at h
    case h_1 rest' hafter =>
      cases h
      rw [hafter]
      rfl
    case h_2 hafter =>
      rw [hafter]
      exact ih h

end Text

namespace CommentMarks

open Text

variable {marks : CommentMarks} {s : Scan} {c : Char} {cs us x : List Char}

/-! ### Marks -/

/-- A mark starts the text. -/
def startsAt (marks : CommentMarks) (cs : List Char) : Bool :=
  (marks.line.any fun m => startsWith m cs) || marks.block.any fun m => startsWith m.1 cs

/-- Marks are words: they are not empty and hold no space and no newline. -/
structure AreWords (marks : CommentMarks) : Prop where
  line : ∀ m ∈ marks.line, m ≠ [] ∧ ' ' ∉ m ∧ '\n' ∉ m
  block : ∀ m ∈ marks.block, m.1 ≠ [] ∧ ' ' ∉ m.1 ∧ '\n' ∉ m.1
  ending : ∀ m ∈ marks.block, m.2 ≠ []

theorem startsAt_iff : marks.startsAt cs = true ↔
    (∃ m ∈ marks.line, m <+: cs) ∨ ∃ m ∈ marks.block, m.1 <+: cs := by
  simp [startsAt, startsWith_iff]

/-- A mark does not reach over a newline. -/
theorem startsWith_append_newline {m : List Char} (hm : '\n' ∉ m) (y : List Char) :
    startsWith m (x ++ '\n' :: y) = startsWith m x := by
  rw [Bool.eq_iff_iff, startsWith_iff, startsWith_iff]
  refine ⟨fun h => ?_, fun h => h.trans (prefix_append ..)⟩
  rcases prefix_or_prefix_of_prefix h (prefix_append x _) with hpre | ⟨t, rfl⟩
  · exact hpre
  · rw [prefix_append_right_inj] at h
    cases t with
    | nil => simp
    | cons d t =>
      obtain ⟨rfl, -⟩ := cons_prefix_cons.mp h
      simp at hm

theorem startsAt_of_line (h : (marks.line.any fun m => startsWith m cs) = true) :
    marks.startsAt cs = true := by
  rw [startsAt, h, Bool.true_or]

theorem startsAt_of_block (h : (marks.block.find? fun m => startsWith m.1 cs) = some m) :
    marks.startsAt cs = true := by
  rw [startsAt, any_eq_true.mpr ⟨m, mem_of_find?_eq_some h, find?_some h⟩, Bool.or_true]

theorem step_blank (hs : s.inLiteral = false) (hc : c = ' ' ∨ c = '\n') : s.step [] none c = s := by
  have hmode : s.mode = .code := by simpa [Scan.inLiteral] using hs
  rcases hc with rfl | rfl <;> exact Scan.step_plain hmode rfl

theorem find?_isSome_eq_any {α : Type} (p : α → Bool) (as : List α) :
    (as.find? p).isSome = as.any p := by
  rw [Bool.eq_iff_iff, find?_isSome, any_eq_true]

theorem stripFrom_drop (skip : Nat) (out : List Char) :
    stripFrom marks out skip s cs = stripFrom marks out 0 s (cs.drop skip) := by
  induction cs generalizing skip with
  | nil => cases skip <;> rfl
  | cons c cs ih =>
    cases skip with
    | zero => rfl
    | succ skip => exact ih skip

theorem drop_length_takeWhile (p : Char → Bool) :
    cs.drop (cs.takeWhile p).length = cs.dropWhile p := by
  have h : (cs.takeWhile p ++ cs.dropWhile p).drop (cs.takeWhile p).length = cs.dropWhile p :=
    drop_left
  rwa [takeWhile_append_dropWhile] at h

theorem drop_pred {k : Nat} (hk : 1 ≤ k) : cs.drop (k - 1) = (c :: cs).drop k := by
  obtain ⟨k, rfl⟩ := Nat.exists_eq_add_of_le' hk
  rfl

section Words

variable (hmarks : marks.AreWords)
include hmarks

theorem not_startsAt_cons (hc : c = ' ' ∨ c = '\n') : marks.startsAt (c :: cs) = false := by
  have hword {m : List Char} (hm : m ≠ [] ∧ ' ' ∉ m ∧ '\n' ∉ m) : ¬m <+: c :: cs := by
    intro h
    obtain ⟨d, m, rfl⟩ := exists_cons_of_ne_nil hm.1
    obtain ⟨rfl, -⟩ := cons_prefix_cons.mp h
    rcases hc with rfl | rfl <;> simp at hm
  rw [← Bool.not_eq_true, startsAt_iff]
  rintro (⟨m, hm, h⟩ | ⟨m, hm, h⟩)
  · exact hword (hmarks.line m hm) h
  · exact hword (hmarks.block m hm) h

theorem ne_newline (h : marks.startsAt (c :: cs) = true) : c ≠ '\n' := by
  rintro rfl
  rw [not_startsAt_cons hmarks (.inr rfl)] at h
  cases h

/-! ### What is left of a text -/

/-- The text behind a comment up to the end of the line. -/
def behindLine (cs : List Char) : List Char := cs.dropWhile (· != '\n')

def behindBlock (m : List Char × List Char) (cs : List Char) : List Char :=
  cs.drop (blockLength m cs)

/-- From the state `s` on, `us` is left of the text. -/
inductive StripsTo (marks : CommentMarks) : Scan → List Char → List Char → Prop
  | nil {s : Scan} : StripsTo marks s [] []
  | keep {s : Scan} {c : Char} {cs us : List Char}
      (hc : s.inLiteral = true ∨ marks.startsAt (c :: cs) = false)
      (h : StripsTo marks (s.step [] none c) cs us) : StripsTo marks s (c :: cs) (c :: us)
  | line {s : Scan} {c : Char} {cs us : List Char} (hs : s.inLiteral = false)
      (hm : (marks.line.any fun m => startsWith m (c :: cs)) = true)
      (h : StripsTo marks s (behindLine (c :: cs)) us) : StripsTo marks s (c :: cs) us
  | block {s : Scan} {c : Char} {cs us : List Char} {m : List Char × List Char}
      (hs : s.inLiteral = false)
      (hline : (marks.line.any fun m => startsWith m (c :: cs)) = false)
      (hm : (marks.block.find? fun m => startsWith m.1 (c :: cs)) = some m)
      (h : StripsTo marks s (behindBlock m (c :: cs)) us) : StripsTo marks s (c :: cs) (' ' :: us)

theorem length_line_pos (h : (marks.line.any fun m => startsWith m (c :: cs)) = true) :
    1 ≤ ((c :: cs).takeWhile (· != '\n')).length := by
  simp [ne_newline hmarks (startsAt_of_line h)]

theorem length_block_pos (h : (marks.block.find? fun m => startsWith m.1 (c :: cs)) = some m) :
    1 ≤ blockLength m (c :: cs) := by
  have hne := length_pos_iff.mpr (hmarks.block m (mem_of_find?_eq_some h)).1
  rw [blockLength]
  split
  · omega
  · simp

/-- The relation says what the removal returns. -/
theorem StripsTo.stripFrom_eq (h : StripsTo marks s cs us) (out : List Char) :
    stripFrom marks out 0 s cs = out.reverse ++ us := by
  induction h generalizing out with
  | nil => simp [stripFrom]
  | @keep s c cs us hc _ ih =>
    have hkeep :
        stripFrom marks out 0 s (c :: cs) = stripFrom marks (c :: out) 0 (s.step [] none c) cs := by
      rw [stripFrom]
      rcases hc with hs | hstart
      · rw [if_pos hs]
      · rw [startsAt, Bool.or_eq_false_iff] at hstart
        have hnone : (marks.block.find? fun m => startsWith m.1 (c :: cs)) = none := by
          simpa [find?_eq_none] using hstart.2
        rw [hstart.1, hnone]
        split <;> rfl
    rw [hkeep, ih]
    simp
  | line hs hm _ ih =>
    rw [stripFrom, hs, hm, if_neg Bool.false_ne_true, if_pos rfl, stripFrom_drop,
      drop_pred (length_line_pos hmarks hm), drop_length_takeWhile]
    exact ih out
  | block hs hline hm _ ih =>
    rw [stripFrom, hs, hline, hm]
    dsimp only
    rw [if_neg Bool.false_ne_true, if_neg Bool.false_ne_true, stripFrom_drop,
      drop_pred (length_block_pos hmarks hm)]
    exact (ih (' ' :: out)).trans (by simp)

theorem StripsTo.strip_eq (h : StripsTo marks {} cs us) : marks.strip cs = us :=
  h.stripFrom_eq hmarks []

/-- Every text is stripped to one; a comment makes the rest shorter. -/
theorem exists_stripsTo (s : Scan) (cs : List Char) : ∃ us, StripsTo marks s cs us := by
  induction hlength : cs.length using Nat.strong_induction_on generalizing s cs with
  | _ length ih =>
    cases cs with
    | nil => exact ⟨[], .nil⟩
    | cons c cs =>
      have hshorter {k : Nat} (hk : 1 ≤ k) : ((c :: cs).drop k).length < length := by
        rw [length_drop, ← hlength, length_cons]
        omega
      by_cases hkeep : s.inLiteral = true ∨ marks.startsAt (c :: cs) = false
      · obtain ⟨us, h⟩ := ih cs.length (by simp [← hlength]) (s.step [] none c) cs rfl
        exact ⟨_, .keep hkeep h⟩
      · simp only [not_or, Bool.not_eq_true, Bool.not_eq_false] at hkeep
        cases hline : marks.line.any fun m => startsWith m (c :: cs) with
        | true =>
          have hrest := hshorter (length_line_pos hmarks hline)
          rw [drop_length_takeWhile] at hrest
          obtain ⟨us, h⟩ := ih _ hrest s _ rfl
          exact ⟨us, .line hkeep.1 hline h⟩
        | false =>
          have hblock := hkeep.2
          rw [startsAt, hline, Bool.false_or] at hblock
          obtain ⟨m, hm⟩ := Option.isSome_iff_exists.mp ((find?_isSome_eq_any ..).trans hblock)
          obtain ⟨us, h⟩ := ih _ (hshorter (length_block_pos hmarks hm)) s _ rfl
          exact ⟨_, .block hkeep.1 hline hm h⟩

/-! ### Removal twice -/

/-- What is left behind a line comment starts with a newline or is empty. -/
theorem StripsTo.of_behindLine (h : StripsTo marks s (behindLine cs) us) :
    ∀ d ∈ us.head?, d = '\n' := by
  have hhead : ∀ d ∈ (behindLine cs).head?, d = '\n' := by
    intro d hd
    rw [behindLine] at hd
    have hnot := head?_dropWhile_not (· != '\n') cs
    rw [Option.mem_def.mp hd] at hnot
    simpa using hnot
  generalize behindLine cs = rest at h hhead
  cases h with
  | nil => simp
  | keep _ _ => exact fun d hd => hhead d hd
  | line _ hm _ => exact absurd (hhead _ rfl) (ne_newline hmarks (startsAt_of_line hm))
  | block _ _ hm _ => exact absurd (hhead _ rfl) (ne_newline hmarks (startsAt_of_block hm))

/-- A word at the start of what is left stands at the start of the text. -/
theorem StripsTo.word_prefix (h : StripsTo marks s cs us) {w : List Char} (hw : ' ' ∉ w ∧ '\n' ∉ w)
    (hpre : w <+: us) :
    w <+: cs := by
  induction h generalizing w with
  | nil => exact hpre
  | keep _ _ ih =>
    cases w with
    | nil => exact nil_prefix
    | cons d w =>
      obtain ⟨rfl, hrest⟩ := cons_prefix_cons.mp hpre
      exact cons_prefix_cons.mpr ⟨rfl, ih (by simp_all) hrest⟩
  | line _ _ h _ =>
    cases w with
    | nil => exact nil_prefix
    | cons d w =>
      obtain ⟨t, rfl⟩ := hpre
      exact absurd (h.of_behindLine hmarks d rfl) (by rintro rfl; simp at hw)
  | block _ _ _ _ _ =>
    cases w with
    | nil => exact nil_prefix
    | cons d w =>
      obtain ⟨rfl, -⟩ := cons_prefix_cons.mp hpre
      simp at hw

/-- What is left is kept as it is. -/
theorem StripsTo.again (h : StripsTo marks s cs us) : StripsTo marks s us us := by
  induction h with
  | nil => exact .nil
  | @keep s c cs us hc h ih =>
    refine .keep (hc.imp_right fun hstart => ?_) ih
    -- A mark in front of what is left would stand in front of the text.
    have hword {m : List Char} (hm : ' ' ∉ m ∧ '\n' ∉ m) (hpre : m <+: c :: us) :
        m <+: c :: cs := by
      cases m with
      | nil => exact nil_prefix
      | cons d m =>
        obtain ⟨rfl, hrest⟩ := cons_prefix_cons.mp hpre
        exact cons_prefix_cons.mpr ⟨rfl, h.word_prefix hmarks (by simp_all) hrest⟩
    rw [← Bool.not_eq_true, startsAt_iff] at hstart ⊢
    refine fun hnew => hstart (hnew.imp ?_ ?_)
    · rintro ⟨m, hm, hpre⟩
      exact ⟨m, hm, hword (hmarks.line m hm).2 hpre⟩
    · rintro ⟨m, hm, hpre⟩
      exact ⟨m, hm, hword (hmarks.block m hm).2 hpre⟩
  | line _ _ _ ih => exact ih
  | block hs _ _ _ ih =>
    refine .keep (.inr (not_startsAt_cons hmarks (.inl rfl))) ?_
    rwa [step_blank hs (.inl rfl)]

/-! ### Texts without comments -/

/-- A text that is kept is kept character by character. -/
theorem StripsTo.kept_cons (h : StripsTo marks s (c :: cs) (c :: cs)) :
    (s.inLiteral = true ∨ marks.startsAt (c :: cs) = false) ∧
      StripsTo marks (s.step [] none c) cs cs := by
  cases h with
  | keep hc h => exact ⟨hc, h⟩
  | line _ hm h =>
    exact absurd (h.of_behindLine hmarks c rfl) (ne_newline hmarks (startsAt_of_line hm))
  | block _ _ hm _ =>
    have hstart := startsAt_of_block hm
    rw [not_startsAt_cons hmarks (.inl rfl)] at hstart
    cases hstart

end Words

theorem areWords_default : ({} : CommentMarks).AreWords := ⟨by decide, by decide, by decide⟩

/-- No comment starts where two texts meet, unless the first ends and the second begins as a
mark. -/
theorem StripsTo.append (hx : StripsTo {} s x x) {y : List Char}
    (hy : StripsTo {} (s.run [] none x) y y)
    (hmeet : x.getLast? = some '/' → ∀ c ∈ y.head?, c ≠ '/' ∧ c ≠ '*') :
    StripsTo {} s (x ++ y) (x ++ y) := by
  induction x generalizing s with
  | nil => exact hy
  | cons c x ih =>
    obtain ⟨hc, hx⟩ := hx.kept_cons areWords_default
    have hrun : s.run [] none (c :: x) = (s.step [] none c).run [] none x := by
      rw [Scan.run, Scan.run_untracked (some c) none]
    have hlast (h : x.getLast? = some '/') : (c :: x).getLast? = some '/' := by
      rw [getLast?_cons, h]
      rfl
    refine .keep (hc.imp_right fun hstart => ?_) (ih hx (hrun ▸ hy) fun h => hmeet (hlast h))
    have hmark {m : Char} (hm : m = '/' ∨ m = '*') (hpre : ['/', m] <+: c :: (x ++ y)) :
        ['/', m] <+: c :: x := by
      cases x with
      | cons d x => simpa using hpre
      | nil =>
        cases y with
        | nil => simp at hpre
        | cons d y =>
          simp only [nil_append, cons_prefix_cons, nil_prefix, and_true] at hpre
          have hd := hmeet (by rw [← hpre.1]; rfl) d rfl
          rcases hm with rfl | rfl
          · exact absurd hpre.2.symm hd.1
          · exact absurd hpre.2.symm hd.2
    rw [← Bool.not_eq_true, startsAt_iff] at hstart ⊢
    simp only [mem_singleton, exists_eq_left] at hstart ⊢
    exact fun h => hstart (h.imp (hmark (.inl rfl)) (hmark (.inr rfl)))

/-- Text without slashes and quotes holds no comment and leaves the remover where it is. -/
theorem stripsTo_of_forall (h : ∀ c ∈ cs, c ≠ '/' ∧ isQuote c = false) (hs : s.mode = .code) :
    StripsTo {} s cs cs ∧ s.run [] none cs = s := by
  induction cs with
  | nil => exact ⟨.nil, rfl⟩
  | cons c cs ih =>
    obtain ⟨⟨hslash, hquote⟩, hcs⟩ := forall_mem_cons.mp h
    obtain ⟨hrest, hrun⟩ := ih hcs
    have hstep : s.step [] none c = s := Scan.step_untracked hs hquote
    refine ⟨.keep (.inr ?_) (hstep.symm ▸ hrest), ?_⟩
    · simp [startsAt, startsWith, Text.after?, Ne.symm hslash]
    · rw [Scan.run, hstep, Scan.run_untracked _ none, hrun]

/-- No comment starts behind text without slashes and quotes, nor where code goes on. -/
theorem stripsTo_surrounded {left right : List Char} (hstrip : strip {} cs = cs)
    (hcode : (Scan.run [] none {} cs).mode = .code)
    (hleft : ∀ c ∈ left, c ≠ '/' ∧ isQuote c = false) (hright : StripsTo {} {} right right)
    (hmeet : ∀ c ∈ right.head?, c ≠ '/' ∧ c ≠ '*') :
    StripsTo {} {} (left ++ (cs ++ right)) (left ++ (cs ++ right)) := by
  obtain ⟨us, hus⟩ := exists_stripsTo areWords_default {} cs
  obtain rfl := (hus.strip_eq areWords_default).symm.trans hstrip
  obtain ⟨hfirst, hrun⟩ := stripsTo_of_forall (s := {}) hleft rfl
  have hback : Scan.run [] none {} us = {} := by
    rw [← Scan.mk_mode_run_untracked, hcode]
  have hrest : StripsTo {} {} (us ++ right) (us ++ right) :=
    hus.append (hback.symm ▸ hright) fun _ => hmeet
  exact hfirst.append (hrun.symm ▸ hrest) fun h => absurd rfl (hleft '/' (mem_of_getLast? h)).1

/-- Removal of comments leaves text without comments as it is, also between texts without slashes
and quotes. -/
theorem strip_surrounded {left right : List Char} (hstrip : strip {} cs = cs)
    (hcode : (Scan.run [] none {} cs).mode = .code)
    (hleft : ∀ c ∈ left, c ≠ '/' ∧ isQuote c = false)
    (hright : ∀ c ∈ right, c ≠ '/' ∧ isQuote c = false) (hmeet : right.head? ≠ some '*') :
    strip {} (left ++ (cs ++ right)) = left ++ (cs ++ right) := by
  refine (stripsTo_surrounded hstrip hcode hleft (stripsTo_of_forall hright rfl).1 ?_).strip_eq
    areWords_default
  refine fun c hc => ⟨(hright c (mem_of_mem_head? hc)).1, ?_⟩
  rintro rfl
  exact hmeet hc

/-! ### Texts without marks in code -/

/-- No mark stands where the walk over the text is in code. -/
def Unmarked (marks : CommentMarks) (cs : List Char) : Prop :=
  ∀ i, (scanTo [] cs i).inLiteral = false → marks.startsAt (cs.drop i) = false

theorem stripsTo_self {p : Option Char} (h : ∀ i, (s.run [] p (cs.take i)).inLiteral = false →
    marks.startsAt (cs.drop i) = false) : StripsTo marks s cs cs := by
  induction cs generalizing s p with
  | nil => exact .nil
  | cons c cs ih =>
    have hstep : s.step [] p c = s.step [] none c := @Scan.run_untracked s [c] ..
    refine .keep ?_ (ih (p := some c) fun i hi => ?_)
    · cases hs : s.inLiteral with
      | true => exact .inl rfl
      | false => exact .inr (h 0 hs)
    · refine h (i + 1) ?_
      rwa [take_succ_cons, Scan.run, hstep]

/-! ### Lines -/

/-- The text ends outside literals and comments: what a comment covers ends within the text. -/
inductive EndsOutside (marks : CommentMarks) : Scan → List Char → Prop
  | nil : EndsOutside marks {} []
  | keep {s : Scan} {c : Char} {cs : List Char}
      (hc : s.inLiteral = true ∨ marks.startsAt (c :: cs) = false)
      (h : EndsOutside marks (s.step [] none c) cs) : EndsOutside marks s (c :: cs)
  | line {s : Scan} {c : Char} {cs : List Char} (hs : s.inLiteral = false)
      (hm : (marks.line.any fun m => startsWith m (c :: cs)) = true) (hclosed : '\n' ∈ cs)
      (h : EndsOutside marks s (behindLine (c :: cs))) : EndsOutside marks s (c :: cs)
  | block {s : Scan} {c : Char} {cs : List Char} {m : List Char × List Char}
      (hs : s.inLiteral = false)
      (hline : (marks.line.any fun m => startsWith m (c :: cs)) = false)
      (hm : (marks.block.find? fun m => startsWith m.1 (c :: cs)) = some m)
      (hclosed : isInfix m.2 ((c :: cs).drop m.1.length) = true)
      (h : EndsOutside marks s (behindBlock m (c :: cs))) : EndsOutside marks s (c :: cs)

section Newline

variable (hmarks : marks.AreWords) (y : List Char)

include hmarks

theorem any_line_append :
    (marks.line.any fun m => startsWith m (x ++ '\n' :: y)) =
      marks.line.any fun m => startsWith m x := by
  rw [Bool.eq_iff_iff, any_eq_true, any_eq_true]
  exact exists_congr fun m => and_congr_right fun hm => by
    rw [startsWith_append_newline (hmarks.line m hm).2.2]

theorem find?_block_append : (marks.block.find? fun m => startsWith m.1 (x ++ '\n' :: y)) =
    marks.block.find? fun m => startsWith m.1 x := by
  have hblock := hmarks.block
  generalize marks.block = ms at hblock ⊢
  induction ms with
  | nil => rfl
  | cons m ms ih =>
    obtain ⟨hm, hms⟩ := forall_mem_cons.mp hblock
    rw [find?_cons, find?_cons, startsWith_append_newline hm.2.2, ih hms]

theorem startsAt_append : marks.startsAt (x ++ '\n' :: y) = marks.startsAt x := by
  have hblock : (marks.block.any fun m => startsWith m.1 (x ++ '\n' :: y)) =
      marks.block.any fun m => startsWith m.1 x := by
    rw [← find?_isSome_eq_any, find?_block_append hmarks, find?_isSome_eq_any]
  rw [startsAt, startsAt, any_line_append hmarks, hblock]

end Newline

theorem behindLine_append (h : '\n' ∈ x) (y : List Char) :
    behindLine (x ++ y) = behindLine x ++ y := by
  have hne : x.dropWhile (· != '\n') ≠ [] := by
    rw [Ne, dropWhile_eq_nil_iff]
    exact fun hall => by simpa using hall _ h
  rw [behindLine, behindLine, dropWhile_append, if_neg (by simpa using hne)]

theorem behindBlock_append (hm : m.1 <+: x) (hend : m.2 ≠ [])
    (h : isInfix m.2 (x.drop m.1.length) = true) (y : List Char) :
    behindBlock m (x ++ y) = behindBlock m x ++ y := by
  obtain ⟨⟨inside, rest⟩, hbreak⟩ := Option.isSome_iff_exists.mp h
  have hmore : breakOn? m.2 (x.drop m.1.length ++ y) = some (inside, rest ++ y) :=
    breakAfter_append hend hbreak y
  have hdrop : (x ++ y).drop m.1.length = x.drop m.1.length ++ y :=
    drop_append_of_le_length hm.length_le
  have hlength : blockLength m (x ++ y) = blockLength m x := by
    rw [blockLength, blockLength, hdrop, hmore, hbreak]
  have hle : blockLength m x ≤ x.length := by
    obtain ⟨inside, rfl, hparts⟩ := exists_of_breakAfter hbreak
    have hlength := congrArg List.length hparts
    simp only [length_append, length_drop] at hlength
    have hle := hm.length_le
    rw [blockLength, hbreak]
    dsimp only
    omega
  rw [behindBlock, behindBlock, hlength, drop_append_of_le_length hle]

/-- Where a text ends outside, a newline and more text behind it are taken for themselves. -/
theorem EndsOutside.exists_append (hmarks : marks.AreWords) {b vs : List Char}
    (h : EndsOutside marks s cs) (hb : StripsTo marks {} b vs) :
    ∃ us, StripsTo marks s cs us ∧ StripsTo marks s (cs ++ '\n' :: b) (us ++ '\n' :: vs) := by
  induction h with
  | nil =>
    refine ⟨[], .nil, .keep (.inr (not_startsAt_cons hmarks (.inr rfl))) ?_⟩
    rwa [step_blank rfl (.inr rfl)]
  | @keep s c cs hc _ ih =>
    obtain ⟨us, hleft, hall⟩ := ih
    refine ⟨c :: us, .keep hc hleft, .keep (hc.imp_right fun hstart => ?_) hall⟩
    exact (startsAt_append (x := c :: cs) hmarks b).trans hstart
  | @line s c cs hs hm hclosed _ ih =>
    obtain ⟨us, hleft, hall⟩ := ih
    refine ⟨us, .line hs hm hleft, .line hs ?_ ?_⟩
    · exact (any_line_append (x := c :: cs) hmarks b).trans hm
    · rwa [← behindLine_append (mem_cons_of_mem c hclosed)] at hall
  | @block s c cs m hs hline hm hclosed _ ih =>
    obtain ⟨us, hleft, hall⟩ := ih
    have hmem := mem_of_find?_eq_some hm
    refine ⟨' ' :: us, .block hs hline hm hleft, .block hs ?_ (m := m) ?_ ?_⟩
    · exact (any_line_append (x := c :: cs) hmarks b).trans hline
    · exact (find?_block_append (x := c :: cs) hmarks b).trans hm
    · have hstart : m.1 <+: c :: cs := by
        have hfound := find?_some hm
        exact startsWith_iff.mp hfound
      rwa [← behindBlock_append hstart (hmarks.ending m hmem) hclosed] at hall

/-! ### Styles of comments -/

/-- The marks of the notations that have comments. -/
def commentStyles : List CommentMarks := [{}, Sql.commentMarks, GraphQL.commentMarks]

theorem areWords_of_mem (h : marks ∈ commentStyles) : marks.AreWords := by
  simp only [commentStyles, mem_cons, not_mem_nil, or_false] at h
  rcases h with rfl | rfl | rfl <;> exact ⟨by decide, by decide, by decide⟩

/-- Removal of comments is stable and keeps literals. Removing twice is removing once; a text with
no mark outside its literals is kept; and behind a text that ends outside literals and comments, a
newline and what follows are taken for themselves. -/
theorem strip_stable {marks : CommentMarks} (hmarks : marks ∈ commentStyles) :
    (∀ cs, marks.strip (marks.strip cs) = marks.strip cs) ∧
    (∀ cs, Unmarked marks cs → marks.strip cs = cs) ∧
    ∀ a b, EndsOutside marks {} a →
      marks.strip (a ++ '\n' :: b) = marks.strip a ++ '\n' :: marks.strip b := by
  have hwords := areWords_of_mem hmarks
  refine ⟨fun cs => ?_, fun cs h => (stripsTo_self h).strip_eq hwords, fun a b ha => ?_⟩
  · obtain ⟨us, h⟩ := exists_stripsTo hwords {} cs
    rw [h.strip_eq hwords, (h.again hwords).strip_eq hwords]
  · obtain ⟨vs, hb⟩ := exists_stripsTo hwords {} b
    obtain ⟨us, hleft, hall⟩ := ha.exists_append hwords hb
    rw [hall.strip_eq hwords, hleft.strip_eq hwords, hb.strip_eq hwords]

/-- A literal that holds a mark, and a block of three quotes right behind its closing quote. -/
theorem strip_quotedMark :
    GraphQL.commentMarks ∈ commentStyles ∧
      EndsOutside GraphQL.commentMarks {} "\"#\"\"\"\"b\"\"\"".toList ∧
      ∀ b, GraphQL.commentMarks.strip ("\"#\"\"\"\"b\"\"\"".toList ++ '\n' :: b) =
        "\"#\" ".toList ++ '\n' :: GraphQL.commentMarks.strip b := by
  have hmem : GraphQL.commentMarks ∈ commentStyles := by simp [commentStyles]
  have hends : EndsOutside GraphQL.commentMarks {} "\"#\"\"\"\"b\"\"\"".toList :=
    .keep (.inr (by decide)) (.keep (.inl rfl) (.keep (.inl rfl)
      (.block rfl (by decide) (m := (['"', '"', '"'], ['"', '"', '"'])) rfl (by decide) .nil)))
  exact ⟨hmem, hends, fun b => (strip_stable hmem).2.2 _ b hends⟩

end CommentMarks

end Crosswalk
