import Crosswalk.Proofs.SealedText
import Crosswalk.Source.Member
import Crosswalk.Target.TypeScript

/-!
Fragments of type expressions: balanced text with edges at which it can be cut out again. Joined
fragments are split where they were joined, whatever the indentation of their lines.
-/

namespace Crosswalk

open List
open Identifier (isPart)

variable {c sep : Char} {us : List (List Char)} {closing cs : List Char}

/-- What holds of texts and is kept when they are joined holds of all of them joined. -/
theorem forall_intercalate {P : List Char → Prop} {mark : List Char}
    (hjoin : ∀ {u v : List Char}, P u → P v → P (u ++ (mark ++ v))) (hus : ∀ u ∈ us, P u)
    (hne : us ≠ []) :
    P (mark.intercalate us) := by
  induction us with
  | nil => exact absurd rfl hne
  | cons u us ih =>
    obtain ⟨hu, hus⟩ := forall_mem_cons.mp hus
    cases us with
    | nil => rwa [intercalate_singleton]
    | cons v us =>
      rw [intercalate_cons_cons, append_assoc]
      exact hjoin hu (ih hus (by simp))

/-! ### Blanks -/

namespace Text

theorem trimStart_eq_self (h : ∀ c, cs.head? = some c → isBlank c = false) : trimStart cs = cs := by
  cases cs with
  | nil => rfl
  | cons c cs => exact trimStart_cons_of_not_isBlank (h c rfl) cs

theorem trimStart_append {as : List Char} (h : ∀ c ∈ as, isBlank c) :
    trimStart (as ++ cs) = trimStart cs := by
  induction as with
  | nil => rfl
  | cons a as ih =>
    obtain ⟨ha, has⟩ := forall_mem_cons.mp h
    rw [cons_append, trimStart_cons_of_isBlank ha, ih has]

theorem trimEnd_eq (cs : List Char) : trimEnd cs = (trimStart cs.reverse).reverse := rfl

/-- Blanks around a text with other characters at its ends. -/
theorem trim_append {as bs : List Char} (ha : ∀ c ∈ as, isBlank c) (hb : ∀ c ∈ bs, isBlank c)
    (hfirst : ∃ c, cs.head? = some c ∧ isBlank c = false)
    (hlast : ∃ c, cs.getLast? = some c ∧ isBlank c = false) :
    trim (as ++ cs ++ bs) = cs := by
  obtain ⟨c, hc, hfirst⟩ := hfirst
  obtain ⟨d, hd, hlast⟩ := hlast
  have hstart : trimStart (cs ++ bs) = cs ++ bs := by
    refine trimStart_eq_self fun x hx => ?_
    rw [head?_append, hc] at hx
    cases hx
    exact hfirst
  have hend : trimStart cs.reverse = cs.reverse := by
    refine trimStart_eq_self fun x hx => ?_
    rw [head?_reverse, hd] at hx
    cases hx
    exact hlast
  rw [trim, append_assoc, trimStart_append ha, hstart, trimEnd_eq, reverse_append,
    trimStart_append (fun x hx => hb x (mem_reverse.mp hx)), hend, reverse_reverse]

theorem trim_eq_self (hfirst : ∃ c, cs.head? = some c ∧ isBlank c = false)
    (hlast : ∃ c, cs.getLast? = some c ∧ isBlank c = false) : trim cs = cs := by
  simpa using trim_append (forall_mem_nil _) (forall_mem_nil _) hfirst hlast

theorem trim_between {d : Char} (hc : isBlank c = false) (hd : isBlank d = false) (cs : List Char) :
    trim (c :: (cs ++ [d])) = c :: (cs ++ [d]) :=
  trim_eq_self ⟨c, rfl, hc⟩ ⟨d, by rw [← cons_append, getLast?_concat], hd⟩

theorem trim_eq_nil (h : ∀ c ∈ cs, isBlank c) : trim cs = [] := by
  have hstart : trimStart (cs ++ []) = trimStart [] := trimStart_append h
  rw [append_nil] at hstart
  rw [trim, hstart]
  rfl

section Parts

variable {mark : Char}

theorem startsWith_singleton (c : Char) (cs : List Char) :
    startsWith [mark] (c :: cs) = (c == mark) := by
  rw [startsWith, after?]
  by_cases hc : mark = c
  · rw [if_pos hc, ← hc, beq_self_eq_true]
    rfl
  · rw [if_neg hc, beq_eq_false_iff_ne.mpr (Ne.symm hc)]
    rfl

theorem parts_of_not_mem {x : List Char} (h : mark ∉ x) : parts [mark] x = [x] := by
  induction x with
  | nil => rfl
  | cons c x ih =>
    rw [mem_cons, not_or] at h
    have hc : (c == mark) = false := beq_eq_false_iff_ne.mpr (Ne.symm h.1)
    have hx := ih h.2
    rw [parts] at hx ⊢
    rw [partsFrom, startsWith_singleton, hc, hx]
    rfl

theorem parts_ne_nil (cs : List Char) : parts [mark] cs ≠ [] := by
  cases cs with
  | nil => simp [parts, partsFrom]
  | cons c cs =>
    rw [parts, partsFrom]
    split
    · simp
    · split <;> simp

theorem parts_append (x y : List Char) :
    parts [mark] (x ++ mark :: y) = parts [mark] x ++ parts [mark] y := by
  induction x with
  | nil =>
    rw [nil_append, parts, partsFrom, startsWith_singleton, beq_self_eq_true, if_pos rfl]
    rfl
  | cons c x ih =>
    obtain ⟨p, ps, hp⟩ := exists_cons_of_ne_nil (parts_ne_nil x)
    rw [cons_append, parts, partsFrom, parts, partsFrom, startsWith_singleton, startsWith_singleton]
    rw [parts, parts, parts] at ih
    rw [parts] at hp ⊢
    split
    · exact congrArg _ ih
    · rw [ih, hp]
      rfl

end Parts

theorem dropWhile_append_cons {p : Char → Bool} (hc : p c = false) (x y : List Char) :
    (x ++ c :: y).dropWhile p = x.dropWhile p ++ c :: y := by
  rw [dropWhile_append, dropWhile_cons, hc]
  cases x.dropWhile p <;> rfl

theorem trimEnd_cons_of_not_isBlank (hc : isBlank c = false) (cs : List Char) :
    trimEnd (c :: cs) = c :: trimEnd cs := by
  rw [trimEnd, reverse_cons, dropWhile_append_cons hc]
  simp [trimEnd]

/-- What is not blank in the middle of a text stops its trimming. -/
theorem trim_append_cons (hc : isBlank c = false) (x y : List Char) :
    trim (x ++ c :: y) = trimStart x ++ c :: trimEnd y := by
  rw [trim, trimStart, dropWhile_append_cons hc, trimEnd, reverse_append, reverse_cons,
    append_assoc, singleton_append, dropWhile_append_cons hc]
  simp [trimStart, trimEnd]

theorem dropWhile_reverse_isPrefix (p : Char → Bool) (x : List Char) :
    (x.reverse.dropWhile p).reverse <+: x := by
  rw [← reverse_suffix, reverse_reverse]
  exact dropWhile_suffix p

theorem trimEnd_isPrefix (x : List Char) : trimEnd x <+: x := dropWhile_reverse_isPrefix isBlank x

end Text

/-! ### Joining -/

theorem intercalate_append {mark : List Char} {vs : List (List Char)} (hus : us ≠ [])
    (hvs : vs ≠ []) :
    mark.intercalate (us ++ vs) = mark.intercalate us ++ (mark ++ mark.intercalate vs) := by
  induction us with
  | nil => exact absurd rfl hus
  | cons u us ih =>
    cases us with
    | nil =>
      obtain ⟨v, vs, rfl⟩ := exists_cons_of_ne_nil hvs
      simp [intercalate_cons_cons]
    | cons w us =>
      rw [cons_append, cons_append, intercalate_cons_cons, ← cons_append,
        ih (by simp), intercalate_cons_cons]
      simp

theorem intercalate_ofList (mark : String) (us : List (List Char)) :
    mark.intercalate (us.map String.ofList) = String.ofList (mark.toList.intercalate us) :=
  String.toList_inj.mp (by simp [Function.comp_def])

/-! ### Indentation -/

/-- Indent every line but the first. -/
def reindent (pad : List Char) (cs : List Char) : List Char :=
  cs.flatMap fun c => if c = '\n' then '\n' :: pad else [c]

variable {pad : List Char} {as bs : List Char}

@[simp] theorem reindent_nil : reindent pad [] = [] := rfl

@[simp] theorem reindent_append : reindent pad (as ++ bs) = reindent pad as ++ reindent pad bs :=
  flatMap_append

theorem reindent_cons (hc : c ≠ '\n') : reindent pad (c :: cs) = c :: reindent pad cs := by
  simp [reindent, hc]

theorem reindent_newline : reindent pad ('\n' :: cs) = '\n' :: (pad ++ reindent pad cs) := by
  simp [reindent]

theorem nil_reindent (cs : List Char) : reindent [] cs = cs := by
  have hself : (fun c : Char => if c = '\n' then ['\n'] else [c]) = fun c => [c] := by
    funext c
    split
    · rename_i hc
      rw [hc]
    · rfl
  rw [reindent, hself, flatMap_singleton']

theorem reindent_eq_self (h : '\n' ∉ cs) : reindent pad cs = cs := by
  induction cs with
  | nil => rfl
  | cons c cs ih =>
    rw [mem_cons, not_or] at h
    rw [reindent_cons fun heq => h.1 heq.symm, ih h.2]

theorem mem_reindent_of_mem (h : c ∈ cs) : c ∈ reindent pad cs := by
  refine mem_flatMap.mpr ⟨c, h, ?_⟩
  split <;> simp_all

theorem reindent_eq_nil : reindent pad cs = [] ↔ cs = [] := by
  constructor
  · intro h
    cases cs with
    | nil => rfl
    | cons c cs =>
      have hmem : c ∈ reindent pad (c :: cs) := mem_reindent_of_mem (mem_cons_self ..)
      rw [h] at hmem
      cases hmem
  · rintro rfl
    rfl

/-- Text on one line comes from the same text. -/
theorem eq_of_reindent_eq (h : reindent pad cs = as) (ha : '\n' ∉ as) : cs = as := by
  have hcs : '\n' ∉ cs := fun hmem => ha (h ▸ mem_reindent_of_mem hmem)
  rw [← h, reindent_eq_self hcs]

theorem reindent_reindent (hpad : '\n' ∉ bs) :
    reindent as (reindent bs cs) = reindent (as ++ bs) cs := by
  induction cs with
  | nil => rfl
  | cons c cs ih =>
    by_cases hc : c = '\n'
    · subst hc
      rw [reindent_newline, reindent_newline, reindent_newline, reindent_append,
        reindent_eq_self hpad, ih, append_assoc]
    · rw [reindent_cons hc, reindent_cons hc, reindent_cons hc, ih]

theorem takeWhile_reindent (cs : List Char) :
    (reindent pad cs).takeWhile isPart = cs.takeWhile isPart := by
  induction cs with
  | nil => rfl
  | cons c cs ih =>
    by_cases hc : c = '\n'
    · subst hc
      rw [reindent_newline, takeWhile_cons, takeWhile_cons,
        show isPart '\n' = false from rfl]
      rfl
    · rw [reindent_cons hc, takeWhile_cons, takeWhile_cons, ih]

theorem indentRest_eq (pad s : String) :
    Target.TypeScript.indentRest pad s = String.ofList (reindent pad.toList s.toList) := by
  rw [Target.TypeScript.indentRest, Text.replaceAll]
  congr 1
  induction s.toList with
  | nil => rfl
  | cons c cs ih =>
    rw [Text.replaceFrom]
    by_cases hc : c = '\n'
    · subst hc
      simp [Text.startsWith, Text.after?, reindent_newline, ih]
    · simp [Text.startsWith, Text.after?, Ne.symm hc, reindent_cons hc, ih]

theorem reindent_intercalate {mark : List Char} (hm : '\n' ∉ mark) (us : List (List Char)) :
    reindent pad (mark.intercalate us) = mark.intercalate (us.map (reindent pad)) := by
  induction us with
  | nil => rfl
  | cons u us ih =>
    cases us with
    | nil => simp [intercalate_singleton]
    | cons v us =>
      rw [intercalate_cons_cons, reindent_append, reindent_append, reindent_eq_self hm, ih]
      simp [intercalate_cons_cons]

theorem Quoted.newline_notMem (h : Quoted cs) : '\n' ∉ cs := by
  induction h with
  | nil => simp
  | char _ _ hn _ ih => simp [ih, Ne.symm hn]
  | escape hn _ ih => simp [ih, Ne.symm hn]

theorem balanced_spaces {tracked : List Char} {ok : Char → Bool} (hok : ok ' ')
    (h : ∀ c ∈ cs, c = ' ') : Nested tracked ok cs :=
  .of_all fun c hc => by rw [h c hc]; exact ⟨rfl, hok⟩

theorem isBlank_of_spaces (h : ∀ c ∈ cs, c = ' ') : ∀ c ∈ cs, Text.isBlank c :=
  fun c hc => by rw [h c hc]; rfl

theorem Nested.reindent {tracked : List Char} {ok : Char → Bool} (h : Nested tracked ok cs)
    (hpad : ∀ c ∈ pad, c = ' ') (hok : ok '\n' → ok ' ') :
    Nested tracked ok (reindent pad cs) := by
  induction h with
  | nil => exact .nil
  | @plain ok c cs hp hc _ ih =>
    by_cases hn : c = '\n'
    · subst hn
      rw [reindent_newline]
      exact .plain hp hc ((balanced_spaces (hok hc) hpad).append (ih hok))
    · rw [reindent_cons hn]
      exact .plain hp hc (ih hok)
  | @literal ok body cs hb _ ih =>
    rw [reindent_cons (by decide), reindent_append, reindent_eq_self hb.newline_notMem,
      reindent_cons (by decide)]
    exact .literal hb (ih hok)
  | @group ok d hd inner cs _ _ ihi ih =>
    rw [reindent_cons (by cases d <;> decide), reindent_append,
      reindent_cons (by cases d <;> decide)]
    exact .group d hd (ihi fun _ => rfl) (ih hok)

/-! ### Fragments -/

/-- Characters with which a type can begin. -/
def isFirst (c : Char) : Bool := !Text.isBlank c && !(['|', '&', '.'].contains c)

/-- Characters with which a type can end. -/
def isLast (c : Char) : Bool := !Text.isBlank c && !([':', '|', '&', '?', '['].contains c)

/-- Balanced text that begins and ends as types do. -/
structure Piece (tracked : List Char) (ok : Char → Bool) (cs : List Char) : Prop where
  balanced : Nested tracked ok cs
  first : ∃ c, cs.head? = some c ∧ isFirst c = true
  last : ∃ c, cs.getLast? = some c ∧ isLast c = true

abbrev Segment : (Char → Bool) → List Char → Prop := Piece everyOpener

/-- A segment whose first word is no modifier. -/
structure Fragment (ok : Char → Bool) (cs : List Char) :
    Prop extends toSegment : Segment ok cs where
  word : cs.takeWhile isPart ≠ "readonly".toList

namespace Piece

variable {tracked : List Char} {ok : Char → Bool}

theorem ne_nil (h : Piece tracked ok cs) : cs ≠ [] := by
  rintro rfl
  obtain ⟨c, hc, -⟩ := h.first
  cases hc

theorem trim_append (h : Piece tracked ok cs) (ha : ∀ c ∈ as, Text.isBlank c)
    (hb : ∀ c ∈ bs, Text.isBlank c) : Text.trim (as ++ cs ++ bs) = cs := by
  obtain ⟨c, hc, hfirst⟩ := h.first
  obtain ⟨d, hd, hlast⟩ := h.last
  simp only [isFirst, isLast, Bool.and_eq_true, Bool.not_eq_true'] at hfirst hlast
  exact Text.trim_append ha hb ⟨c, hc, hfirst.1⟩ ⟨d, hd, hlast.1⟩

theorem trim_eq (h : Piece tracked ok cs) : Text.trim cs = cs := by
  simpa using h.trim_append (forall_mem_nil _) (forall_mem_nil _)

theorem mono {ok' : Char → Bool} (h : Piece tracked ok cs) (hok : ∀ c, ok c → ok' c) :
    Piece tracked ok' cs :=
  { h with balanced := h.balanced.mono hok }

theorem append (ha : Piece tracked ok as) (hb : Nested tracked ok bs)
    (hlast : ∃ c, bs.getLast? = some c ∧ isLast c) : Piece tracked ok (as ++ bs) where
  balanced := ha.balanced.append hb
  first := by
    obtain ⟨c, hc, hfirst⟩ := ha.first
    exact ⟨c, by rw [head?_append, hc]; rfl, hfirst⟩
  last := by
    obtain ⟨c, hc, hlast⟩ := hlast
    exact ⟨c, by rw [getLast?_append, hc]; rfl, hlast⟩

theorem intercalate {mark : List Char} (hm : Nested tracked ok mark)
    (hus : ∀ u ∈ us, Piece tracked ok u) (hne : us ≠ []) :
    Piece tracked ok (mark.intercalate us) := by
  refine forall_intercalate (fun hu hv => hu.append (hm.append hv.balanced) ?_) hus hne
  obtain ⟨c, hc, hlast⟩ := hv.last
  exact ⟨c, by rw [getLast?_append, hc]; rfl, hlast⟩

end Piece

namespace Fragment

variable {ok ok' : Char → Bool}

theorem mono (h : Fragment ok cs) (hok : ∀ c, ok c → ok' c) : Fragment ok' cs :=
  { h with balanced := h.balanced.mono hok }

theorem reindent (h : Fragment ok cs) (hpad : ∀ c ∈ pad, c = ' ')
    (hok : ok '\n' → ok ' ') : Fragment ok (reindent pad cs) where
  balanced := h.balanced.reindent hpad hok
  first := by
    obtain ⟨c, hc, hfirst⟩ := h.first
    obtain ⟨rest, rfl⟩ := head?_eq_some_iff.mp hc
    have hne : c ≠ '\n' := by
      rintro rfl
      cases hfirst
    exact ⟨c, by rw [reindent_cons hne]; rfl, hfirst⟩
  last := by
    obtain ⟨c, hc, hlast⟩ := h.last
    obtain ⟨rest, rfl⟩ := getLast?_eq_some_iff.mp hc
    have hne : c ≠ '\n' := by
      rintro rfl
      cases hlast
    refine ⟨c, ?_, hlast⟩
    rw [reindent_append, reindent_cons hne]
    simp
  word := by
    rw [takeWhile_reindent]
    exact h.word

theorem append (ha : Fragment ok as) (hb : Balanced ok bs)
    (hfirst : ∃ c, bs.head? = some c ∧ isPart c = false)
    (hlast : ∃ c, bs.getLast? = some c ∧ isLast c) : Fragment ok (as ++ bs) where
  toSegment := ha.toSegment.append hb hlast
  word := by
    obtain ⟨c, hc, hpart⟩ := hfirst
    obtain ⟨rest, rfl⟩ := head?_eq_some_iff.mp hc
    have htake : (c :: rest).takeWhile isPart = [] := by rw [takeWhile_cons, hpart]; rfl
    rw [takeWhile_append, htake]
    split
    · rename_i hlength
      rw [append_nil, ← (List.takeWhile_prefix isPart).eq_of_length hlength]
      exact ha.word
    · exact ha.word

/-- Delimiters around balanced text. -/
theorem group (d : Delimiter) (h : Balanced (fun _ => true) cs) :
    Fragment ok (d.opener :: (cs ++ [d.closer])) where
  balanced := .group d d.opener_mem h .nil
  first := ⟨d.opener, rfl, by cases d <;> rfl⟩
  last := by
    refine ⟨d.closer, ?_, by cases d <;> rfl⟩
    rw [← cons_append, getLast?_append]
    rfl
  word := by
    rw [takeWhile_cons_of_neg (by cases d <;> decide)]
    decide

/-- Fragments joined by a mark that is no part of a word. -/
theorem intercalate {mark : List Char} (hm : Balanced ok mark)
    (hfirst : ∃ c, mark.head? = some c ∧ isPart c = false) (hus : ∀ u ∈ us, Fragment ok u)
    (hne : us ≠ []) : Fragment ok (mark.intercalate us) := by
  refine forall_intercalate (fun hu hv => hu.append (hm.append hv.balanced) ?_ ?_) hus hne
  · obtain ⟨c, hc, hpart⟩ := hfirst
    exact ⟨c, by rw [head?_append, hc]; rfl, hpart⟩
  · obtain ⟨c, hc, hlast⟩ := hv.last
    exact ⟨c, by rw [getLast?_append, hc]; rfl, hlast⟩

end Fragment

/-! ### Splitting -/

section Split

variable {tracked : List Char} {ok : Char → Bool} {separators : List Char} {p : Option Char}

variable {ls : List (List Char)}

/-- Plain characters other than the space that do not stand at the top level. -/
def Separates (ok : Char → Bool) (separators : List Char) : Prop :=
  (separators.all fun c => isPlain c && !ok c && c != ' ') = true

theorem separates_singleton (h : (isPlain c && c != ' ')) (hok : ok c = false) :
    Separates ok [c] := by
  simp_all [Separates]

theorem Separates.of_mem (h : Separates ok separators) (hc : c ∈ separators) :
    isPlain c ∧ ok c = false ∧ c ≠ ' ' := by
  simpa [and_assoc] using all_eq_true.mp h c hc

variable (hs : Separates ok separators)
include hs

theorem splitFrom_balanced (h : Nested tracked ok cs) (hp : p ≠ some '=') :
    ∃ q, q ≠ some '=' ∧ ∀ part rest, splitFrom tracked separators part p {} (cs ++ rest) =
      splitFrom tracked separators (cs.reverse ++ part) q {} rest := by
  have hstop (c : Char) (hc : ok c) : separators.contains c = false :=
    contains_eq_false (p := ok) fun d hd => by simp [hc, hs.of_mem hd]
  have hspecial (c : Char) (hc : isPlain c = false) (_ : c ≠ '=') : separators.contains c = false :=
    contains_eq_false (p := isPlain) fun d hd => by simp [hc, hs.of_mem hd]
  obtain ⟨q, hq, hpass⟩ : ∃ q, q ≠ some '=' ∧ Passes tracked separators.contains p {} cs q {} :=
    h.passes hspecial rfl (.inr hstop) hp
  exact ⟨q, hq, splitFrom_passes hpass⟩

omit hs in
theorem splitFrom_separator (hsep : sep ∈ separators) (part rest : List Char) :
    splitFrom tracked separators part p {} (sep :: rest) =
      Text.trim part.reverse :: splitFrom tracked separators [] (some sep) {} rest := by
  have htop : (({} : Scan).atTop && separators.contains sep) := by
    simpa [Scan.atTop, Scan.inLiteral, Depths.total] using hsep
  rw [splitFrom, if_pos htop]

/-- Spaces are passed if they are no separators. -/
theorem splitFrom_spaces (h : ∀ c ∈ cs, c = ' ') (hp : p ≠ some '=') :
    ∃ q, q ≠ some '=' ∧ ∀ part rest, splitFrom tracked separators part p {} (cs ++ rest) =
      splitFrom tracked separators (cs.reverse ++ part) q {} rest := by
  have hspaces : Separates (· == ' ') separators :=
    all_eq_true.mpr fun c hc => by simp [hs.of_mem hc]
  exact splitFrom_balanced hspaces (balanced_spaces rfl h) hp

omit hs

theorem ne_equals_of_isPlain (h : isPlain c) : some c ≠ some '=' := by
  rintro ⟨⟩
  cases h

/-- Pieces with separators between them, which may stand between spaces. -/
inductive Row (tracked : List Char) (ok : Char → Bool) (separators : List Char) :
    List (List Char) → List Char → Prop
  | single {u : List Char} (hu : Piece tracked ok u) : Row tracked ok separators [u] u
  | cons {u before after cs : List Char} {sep : Char} {us : List (List Char)}
      (hu : Piece tracked ok u) (hbefore : ∀ c ∈ before, c = ' ') (hafter : ∀ c ∈ after, c = ' ')
      (hsep : sep ∈ separators) (h : Row tracked ok separators us cs) :
      Row tracked ok separators (u :: us) (u ++ ((before ++ sep :: after) ++ cs))

abbrev Joined : (Char → Bool) → List Char → List (List Char) → List Char → Prop := Row everyOpener

namespace Row

theorem append {vs : List (List Char)} (ha : Row tracked ok separators us as)
    (hb : Row tracked ok separators vs bs) {before after : List Char}
    (hbefore : ∀ c ∈ before, c = ' ') (hafter : ∀ c ∈ after, c = ' ') (hsep : sep ∈ separators) :
    Row tracked ok separators (us ++ vs) (as ++ ((before ++ sep :: after) ++ bs)) := by
  induction ha with
  | single hu => exact .cons hu hbefore hafter hsep hb
  | cons hu hbefore' hafter' hsep' _ ih =>
    rw [append_assoc, append_assoc _ _ (_ ++ bs)]
    exact .cons hu hbefore' hafter' hsep' ih

theorem intercalate {before after : List Char} (hbefore : ∀ c ∈ before, c = ' ')
    (hafter : ∀ c ∈ after, c = ' ') (hsep : sep ∈ separators) (hus : ∀ u ∈ us, Piece tracked ok u)
    (hne : us ≠ []) :
    Row tracked ok separators us ((before ++ sep :: after).intercalate us) := by
  induction us with
  | nil => exact absurd rfl hne
  | cons u us ih =>
    obtain ⟨hu, hus⟩ := forall_mem_cons.mp hus
    cases us with
    | nil =>
      rw [intercalate_singleton]
      exact .single hu
    | cons v us =>
      rw [intercalate_cons_cons, append_assoc]
      exact .cons hu hbefore hafter hsep (ih hus (by simp))

variable (h : Row tracked ok separators us cs)
include h

/-- Joined pieces are split where they were joined, also between spaces. -/
theorem splitFrom_eq (hs : Separates ok separators) {part : List Char} (hpart : ∀ c ∈ part, c = ' ')
    (hclosing : ∀ c ∈ closing, c = ' ') (hp : p ≠ some '=') :
    splitFrom tracked separators part p {} (cs ++ closing) = us := by
  induction h generalizing part p with
  | @single u hu =>
    obtain ⟨q, hq, hpass⟩ := splitFrom_balanced hs hu.balanced hp
    obtain ⟨r, -, hend⟩ := splitFrom_spaces hs hclosing hq
    have htrim := hu.trim_append (isBlank_of_spaces (by simpa using hpart : ∀ c ∈ part.reverse, _))
      (isBlank_of_spaces hclosing)
    rw [hpass, ← append_nil closing, hend, splitFrom]
    simpa using htrim
  | @cons u before after cs sep us hu hbefore hafter hsep _ ih =>
    obtain ⟨q, hq, hpass⟩ := splitFrom_balanced hs hu.balanced hp
    obtain ⟨r, hr, hbeforePass⟩ := splitFrom_spaces hs hbefore hq
    obtain ⟨q', hq', hafterPass⟩ :=
      splitFrom_spaces hs hafter (ne_equals_of_isPlain (hs.of_mem hsep).1)
    have htrim := hu.trim_append (isBlank_of_spaces (by simpa using hpart : ∀ c ∈ part.reverse, _))
      (isBlank_of_spaces hbefore)
    have hrest := ih (show ∀ c ∈ after.reverse, _ by simpa using hafter) hq'
    simp only [append_assoc, cons_append]
    rw [hpass, hbeforePass, splitFrom_separator hsep, hafterPass, append_nil, hrest]
    simp only [reverse_append, reverse_reverse]
    rw [htrim]

theorem pieces : ∀ u ∈ us, Piece tracked ok u := by
  induction h with
  | single hu => simpa using hu
  | cons hu _ _ _ _ ih => exact forall_mem_cons.mpr ⟨hu, ih⟩

theorem splitTopNonempty_spaced (hs : Separates ok separators) {opening : List Char}
    (hopening : ∀ c ∈ opening, c = ' ') (hclosing : ∀ c ∈ closing, c = ' ') :
    splitTopNonempty tracked separators (opening ++ (cs ++ closing)) = us := by
  obtain ⟨q, hq, hpass⟩ := splitFrom_spaces (p := none) hs hopening (by simp)
  have hpart : ∀ c ∈ opening.reverse ++ [], c = ' ' := by simpa using hopening
  rw [splitTopNonempty, hpass, h.splitFrom_eq hs hpart hclosing hq]
  exact filter_eq_self.mpr fun u hu => by simpa using (h.pieces u hu).ne_nil

theorem splitTopNonempty_eq (hs : Separates ok separators) :
    splitTopNonempty tracked separators cs = us := by
  have hnone : ∀ c ∈ [], c = ' ' := by simp
  have hsplit := h.splitTopNonempty_spaced hs hnone hnone
  rwa [nil_append, append_nil] at hsplit

end Row

/-- A piece without separators at its top level is one part. -/
theorem Piece.splitTopNonempty_eq (h : Piece tracked ok cs) (hs : Separates ok separators) :
    splitTopNonempty tracked separators cs = [cs] :=
  (Row.single h).splitTopNonempty_eq hs

theorem splitTopNonempty_intercalate (before after : List Char) (hs : Separates ok separators)
    (hbefore : ∀ c ∈ before, c = ' ') (hafter : ∀ c ∈ after, c = ' ') (hsep : sep ∈ separators)
    (hus : ∀ u ∈ us, Piece tracked ok u) :
    splitTopNonempty tracked separators ((before ++ sep :: after).intercalate us) = us := by
  by_cases hne : us = []
  · subst hne
    rfl
  · exact (Row.intercalate hbefore hafter hsep hus hne).splitTopNonempty_eq hs

/-- Lines that end with a separator, each after a newline and some indentation. -/
def lineBlock (pad : List Char) (sep : Char) (ls : List (List Char)) : List Char :=
  ls.flatMap fun l => '\n' :: (pad ++ (l ++ [sep]))

theorem splitTopNonempty_lineBlock (hs : Separates ok separators) (hpad : ∀ c ∈ pad, c = ' ')
    (hclosing : ∀ c ∈ closing, c = ' ') (hnewline : '\n' ∈ separators) (hsep : sep ∈ separators)
    (hls : ∀ l ∈ ls, Piece tracked ok l) :
    splitTopNonempty tracked separators (lineBlock pad sep ls ++ '\n' :: closing) = ls := by
  have hprevious : some '\n' ≠ some '=' := by simp
  rw [splitTopNonempty]
  have hall {p : Option Char} (hp : p ≠ some '=') :
      (splitFrom tracked separators [] p {} (lineBlock pad sep ls ++ '\n' :: closing)).filter
        (fun l => !l.isEmpty) = ls := by
    induction ls generalizing p with
    | nil =>
      obtain ⟨q, -, hpass⟩ := splitFrom_spaces hs hclosing hprevious
      have hend := hpass [] []
      rw [append_nil, append_nil] at hend
      rw [lineBlock, flatMap_nil, nil_append, splitFrom_separator hnewline, hend, splitFrom,
        reverse_reverse, Text.trim_eq_nil (isBlank_of_spaces hclosing)]
      rfl
    | cons l ls ih =>
      obtain ⟨hl, hls⟩ := forall_mem_cons.mp hls
      obtain ⟨q, hq, hpadPass⟩ := splitFrom_spaces hs hpad hprevious
      obtain ⟨r, -, hlinePass⟩ := splitFrom_balanced hs hl.balanced hq
      have hrest := ih hls (ne_equals_of_isPlain (hs.of_mem hsep).1)
      have htrim := hl.trim_append (isBlank_of_spaces hpad) (show ∀ c ∈ [], _ by simp)
      have hne : l.isEmpty = false := by simpa using hl.ne_nil
      have htext : lineBlock pad sep (l :: ls) ++ '\n' :: closing =
          '\n' :: (pad ++ (l ++ (sep :: (lineBlock pad sep ls ++ '\n' :: closing)))) := by
        simp [lineBlock]
      rw [htext, splitFrom_separator hnewline, hpadPass, hlinePass, splitFrom_separator hsep]
      simp only [append_nil, reverse_append, reverse_reverse] at htrim ⊢
      rw [htrim, filter_cons_of_neg (by simp [Text.trim, Text.trimStart, Text.trimEnd]),
        filter_cons_of_pos (by simp [hne]), hrest]
  exact hall (by simp)

/-- A text is split at the first mark at its top level. -/
theorem splitFirstTop_append {mark : Char} (hmark : isPlain mark ∨ mark = '=') {left : List Char}
    (hl : Nested tracked ok left) (hok : ok mark = false) (rest : List Char) :
    splitFirstTop tracked [mark] (left ++ mark :: rest) =
      (Text.trim left, some (Text.trim rest)) := by
  have hstop (c : Char) (hc : ok c) : (c == mark) = false := by
    rw [beq_eq_false_iff_ne]
    rintro rfl
    rw [hok] at hc
    cases hc
  have hspecial (c : Char) (hc : isPlain c = false) (hne : c ≠ '=') : (c == mark) = false := by
    rw [beq_eq_false_iff_ne]
    rintro rfl
    simp [hc, hne] at hmark
  obtain ⟨q, -, hpass⟩ : ∃ q, q ≠ some '=' ∧ Passes tracked (· == mark) none {} left q {} :=
    hl.passes hspecial rfl (.inr hstop) (by simp)
  have hfind : findTop? tracked [mark] (left ++ mark :: rest) = some left.length := by
    rw [findTop?]
    simp only [if_true, drop_zero]
    rw [findTopFrom_passes hpass, findTopFrom,
      if_pos (by simp [Scan.atTop, Scan.inLiteral, Depths.total,
      Text.startsWith, Text.after?]), Nat.zero_add]
  simp only [splitFirstTop, hfind, take_left, length_singleton]
  rw [← drop_drop, drop_left, drop_one, tail_cons]

/-- The first colon at the top level stands between a key and its type. -/
theorem splitFirstTop_colon {left : List Char} (hl : Nested tracked ok left) (hok : ok ':' = false)
    (ht : Text.trim left = left) {ok' : Char → Bool} {type : List Char}
    (htype : Piece tracked ok' type) :
    splitFirstTop tracked [':'] (left ++ ':' :: ' ' :: type) = (left, some type) := by
  have htrim : Text.trim ([' '] ++ type ++ []) = type := htype.trim_append (by decide) (by simp)
  rw [append_nil, singleton_append] at htrim
  rw [splitFirstTop_append (.inl rfl) hl hok, ht, htrim]

/-! ### Lines of members -/

theorem foldl_eq_reverse {P : List Char → Prop}
    {step : List (List Char) → List Char → List (List Char)}
    (hstep : ∀ acc l, (∀ x ∈ acc, P x) → P l → step acc l = l :: acc) {acc : List (List Char)}
    (hacc : ∀ x ∈ acc, P x) (hls : ∀ l ∈ ls, P l) : ls.foldl step acc = ls.reverse ++ acc := by
  induction ls generalizing acc with
  | nil => rfl
  | cons l ls ih =>
    obtain ⟨hl, hls⟩ := forall_mem_cons.mp hls
    rw [foldl_cons, hstep acc l hacc hl, ih (forall_mem_cons.mpr ⟨hl, hacc⟩) hls]
    simp

/-- No line is taken for the continuation of another. -/
theorem joinContinuations_eq (h : ∀ l ∈ ls, Piece tracked ok l) :
    Member.joinContinuations ls = ls := by
  rw [Member.joinContinuations, foldl_eq_reverse ?_ (by simp) h, append_nil,
    reverse_reverse]
  intro acc l hacc hl
  cases acc with
  | nil => rfl
  | cons last before =>
    obtain ⟨c, hc, hfirst⟩ := hl.first
    obtain ⟨d, hd, hlast⟩ := (hacc last (mem_cons_self ..)).last
    have hhead : (c == '|' || c == '&') = false := by
      rw [Bool.eq_false_iff]
      intro hop
      simp only [Bool.or_eq_true, beq_iff_eq] at hop
      rcases hop with rfl | rfl <;> cases hfirst
    have hend : (d == ':' || d == '|' || d == '&') = false := by
      rw [Bool.eq_false_iff]
      intro hop
      simp only [Bool.or_eq_true, beq_iff_eq] at hop
      rcases hop with (rfl | rfl) | rfl <;> cases hlast
    simp [hc, hd, hhead, hend]

end Split

end Crosswalk
