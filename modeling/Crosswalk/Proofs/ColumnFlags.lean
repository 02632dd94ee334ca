import Crosswalk.Proofs.PatternSpans
import Crosswalk.Proofs.ScriptLiterals
import Crosswalk.Proofs.TextSize
import Crosswalk.Source.Sql

/-!
The flags of a column. They are looked up in what follows the type, in upper case: two as phrases
with one space, one as a whole word, and one as a word or as words on one line. Main statement: what
becomes of each flag when a run of blanks, or a quoted text, takes the place of another. The phrases
depend on the blanks, and every flag depends on what the quotes hold.
-/

namespace Crosswalk

open List Text

variable {ws : List (List Char)} {cs g : List Char}

/-! ### Letters in upper case -/

namespace Text

theorem isInfix_iff {mark : List Char} : isInfix mark cs ↔ mark <:+: cs := by
  have hbreak (passed : List Char) : (breakAfter mark passed cs).isSome ↔ mark <:+: cs := by
    induction cs generalizing passed with
    | nil => cases mark <;> simp [breakAfter]
    | cons c cs ih =>
      rw [breakAfter, infix_cons_iff, ← startsWith_iff, startsWith]
      split
      case h_1 hafter => simp [hafter]
      case h_2 hafter => simpa [hafter] using ih _
  exact hbreak []

theorem upper_append (x y : List Char) : upper (x ++ y) = upper x ++ upper y := flatMap_append

theorem upper_of_isBlank (hg : ∀ c ∈ g, isBlank c) : upper g = g := by
  have hall : ∀ n ∈ blanks, upperChar (Char.ofNat n) = [Char.ofNat n] := by decide +kernel
  induction g with
  | nil => rfl
  | cons c g ih =>
    obtain ⟨hc, hg⟩ := forall_mem_cons.mp hg
    have hc := hall c.toNat (toNat_mem_blanks hc)
    rw [Char.ofNat_toNat] at hc
    rw [upper, flatMap_cons, hc]
    exact congrArg (c :: ·) (ih hg)

/-! ### Whole words -/

/-- No word reaches up to the start of a text, or goes on at its end. -/
def StartsClear (cs : List Char) : Prop := cs.head?.any isWord = false

def EndsClear (cs : List Char) : Prop := cs.getLast?.any isWord = false

/-- A word stands in a text as a whole. -/
def HasWord (w cs : List Char) : Prop :=
  ∃ before after, cs = before ++ (w ++ after) ∧ EndsClear before ∧ StartsClear after

section Clear

variable {x y : List Char}

theorem StartsClear.left (h : StartsClear (x ++ y)) : StartsClear x := by
  cases x with
  | nil => rfl
  | cons c x => exact h

theorem EndsClear.right (h : EndsClear (x ++ y)) : EndsClear y := by
  cases hy : y.getLast? with
  | none => simp [EndsClear, hy]
  | some c => simpa [EndsClear, getLast?_append, hy] using h

end Clear

/-- Something between two texts that ends the word before it and starts no word, so that a word of
`ws` in the whole stands in one of the two. -/
structure Parting (ws : List (List Char)) (g : List Char) : Prop where
  ne_nil : g ≠ []
  starts : StartsClear g
  ends : EndsClear g
  apart : ∀ w ∈ ws, ∀ {x y before after : List Char}, x ++ (g ++ y) = before ++ (w ++ after) →
    EndsClear before → StartsClear after →
    (∃ x', x = before ++ (w ++ x') ∧ after = x' ++ (g ++ y)) ∨
      ∃ y', y = y' ++ (w ++ after) ∧ before = x ++ (g ++ y')

/-- Text without characters of a word keeps it on one side. -/
theorem apart_of_notMem {w x y before after : List Char} (hw : w ≠ []) (hne : g ≠ [])
    (hg : ∀ c ∈ g, c ∉ w) (h : x ++ (g ++ y) = before ++ (w ++ after)) :
    (∃ x', x = before ++ (w ++ x') ∧ after = x' ++ (g ++ y)) ∨
      ∃ y', y = y' ++ (w ++ after) ∧ before = x ++ (g ++ y') := by
  induction g generalizing x before with
  | nil => exact absurd rfl hne
  | cons c g ih =>
    obtain ⟨hc, hg⟩ := forall_mem_cons.mp hg
    rcases eq_append_or hc h with hleft | ⟨y', hy, rfl⟩
    · exact .inl hleft
    cases g with
    | nil => exact .inr ⟨y', hy, rfl⟩
    | cons d g =>
      rcases ih (x := []) (by simp) hg hy with ⟨x', hnil, -⟩ | ⟨y'', rfl, rfl⟩
      · simp [hw] at hnil
      · exact .inr ⟨y'', rfl, rfl⟩

theorem parting_of_notMem (hws : [] ∉ ws) (hne : g ≠ [])
    (hg : ∀ c ∈ g, isWord c = false ∧ ∀ w ∈ ws, c ∉ w) :
    Parting ws g where
  ne_nil := hne
  starts := by
    obtain ⟨c, g, rfl⟩ := exists_cons_of_ne_nil hne
    exact (hg c mem_cons_self).1
  ends := by
    rw [EndsClear, getLast?_eq_some_getLast hne]
    exact (hg _ (getLast_mem hne)).1
  apart w hw _ _ _ _ h _ _ :=
    apart_of_notMem (ne_of_mem_of_not_mem hw hws) hne (fun c hc => (hg c hc).2 w hw) h

section Parting

variable {w g' x y : List Char}

theorem Parting.startsClear (hg : Parting ws g) (h : StartsClear x) :
    StartsClear (x ++ (g ++ y)) := by
  obtain ⟨c, g, rfl⟩ := exists_cons_of_ne_nil hg.ne_nil
  cases x with
  | nil => exact hg.starts
  | cons d x => exact h

theorem Parting.endsClear (hg : Parting ws g) (h : EndsClear y) : EndsClear (x ++ (g ++ y)) := by
  cases hy : y.getLast? with
  | some c => simpa [EndsClear, getLast?_append, hy] using h
  | none =>
    obtain rfl := getLast?_eq_none_iff.mp hy
    simpa [EndsClear, getLast?_append, getLast?_eq_some_getLast hg.ne_nil] using hg.ends

/-- A word stands before or after what parts it. -/
theorem Parting.hasWord_iff (hg : Parting ws g) (hw : w ∈ ws) :
    HasWord w (x ++ (g ++ y)) ↔ HasWord w x ∨ HasWord w y := by
  constructor
  · rintro ⟨before, after, h, hbefore, hafter⟩
    rcases hg.apart w hw h hbefore hafter with ⟨x', rfl, rfl⟩ | ⟨y', rfl, rfl⟩
    · exact .inl ⟨before, x', rfl, hbefore, hafter.left⟩
    · exact .inr ⟨y', after, rfl, hbefore.right.right, hafter⟩
  · rintro (⟨before, after, rfl, hbefore, hafter⟩ | ⟨before, after, rfl, hbefore, hafter⟩)
    · exact ⟨before, after ++ (g ++ y), by simp, hbefore, hg.startsClear hafter⟩
    · exact ⟨x ++ (g ++ before), after, by simp, hg.endsClear hbefore, hafter⟩

/-- Quoted text. -/
def inQuotes (cs : List Char) : List Char := '\x27' :: (cs ++ ['\x27'])

theorem parting_quote (hws : [] ∉ ws) (hquote : ∀ w ∈ ws, '\x27' ∉ w) : Parting ws ['\x27'] :=
  parting_of_notMem hws (by simp) (by simpa using ⟨by decide, hquote⟩)

theorem inQuotes_append (cs y : List Char) :
    inQuotes cs ++ y = ['\x27'] ++ (cs ++ (['\x27'] ++ y)) := by
  simp [inQuotes]

/-- Quoted text parts words that it does not hold. -/
theorem parting_inQuotes (hws : [] ∉ ws) (hquote : ∀ w ∈ ws, '\x27' ∉ w)
    (hcs : ∀ w ∈ ws, ¬HasWord w cs) :
    Parting ws (inQuotes cs) where
  ne_nil := by simp [inQuotes]
  starts := by
    have hquote : isWord '\x27' = false := by decide
    simpa [StartsClear, inQuotes] using hquote
  ends := by
    have hquote : isWord '\x27' = false := by decide
    simpa [EndsClear, inQuotes, getLast?_cons] using hquote
  apart w hw x y before after h hbefore hafter := by
    have hq := parting_quote hws hquote
    rw [inQuotes_append] at h ⊢
    rcases hq.apart w hw h hbefore hafter with hleft | ⟨r, hr, rfl⟩
    · exact .inl hleft
    -- Behind the first quote, the word would stand in the quotes or behind the second.
    rcases hq.apart w hw hr hbefore.right.right hafter with ⟨x', rfl, rfl⟩ | ⟨y', rfl, rfl⟩
    · exact absurd ⟨r, x', rfl, hbefore.right.right, hafter.left⟩ (hcs w hw)
    · exact .inr ⟨y', rfl, by simp [inQuotes]⟩

theorem hasWord_inQuotes_iff (hne : w ≠ []) (hquote : '\x27' ∉ w) :
    HasWord w (x ++ (inQuotes cs ++ y)) ↔ HasWord w x ∨ HasWord w cs ∨ HasWord w y := by
  have hq : Parting [w] ['\x27'] := parting_quote (by simpa using hne.symm) (by simpa using hquote)
  rw [inQuotes_append, hq.hasWord_iff (mem_singleton_self w), hq.hasWord_iff (mem_singleton_self w)]

end Parting

/-! ### Phrases -/

/-- Two words with one space between them stand on one side of a run of blanks, unless the run is
that space. -/
theorem isInfix_blanks_iff {u v x y : List Char} (hu : u ≠ []) (hv : v ≠ [])
    (hblank : ∀ c ∈ u ++ v, isBlank c = false) (hne : g ≠ []) (hg : ∀ c ∈ g, isBlank c) :
    u ++ ' ' :: v <:+: x ++ (g ++ y) ↔
      u ++ ' ' :: v <:+: x ∨ u ++ ' ' :: v <:+: y ∨ g = [' '] ∧ u <:+ x ∧ v <+: y := by
  have hapart {w : List Char} (hw : w ⊆ u ++ v) : ∀ c ∈ g, c ∉ w :=
    fun c hc hmem => by simpa [hg c hc] using hblank c (hw hmem)
  constructor
  · rintro ⟨before, after, h⟩
    have hfirst : x ++ (g ++ y) = before ++ (u ++ (' ' :: v ++ after)) := by simpa using h.symm
    rcases apart_of_notMem hu hne (hapart (by simp)) hfirst with ⟨x', rfl, hx'⟩ | ⟨y', rfl, -⟩
    · have hsecond : x' ++ (g ++ y) = [' '] ++ (v ++ after) := by simpa using hx'.symm
      rcases apart_of_notMem hv hne (hapart (by simp)) hsecond with ⟨x'', rfl, -⟩ |
        ⟨y', rfl, hspace⟩
      · exact .inl ⟨before, x'', by simp⟩
      · -- The space is all there is between the words.
        have hlength := congrArg length hspace
        have hpos := length_pos_iff.mpr hne
        simp only [length_append, length_singleton] at hlength
        obtain rfl : x' = [] := length_eq_zero_iff.mp (by omega)
        obtain rfl : y' = [] := length_eq_zero_iff.mp (by omega)
        exact .inr (.inr ⟨by simpa using hspace.symm, ⟨before, by simp⟩, ⟨after, rfl⟩⟩)
    · exact .inr (.inl ⟨y', after, by simp⟩)
  · rintro (⟨before, after, rfl⟩ | ⟨before, after, rfl⟩ | ⟨rfl, ⟨before, rfl⟩, ⟨after, rfl⟩⟩)
    · exact ⟨before, after ++ (g ++ y), by simp⟩
    · exact ⟨x ++ (g ++ before), after, by simp⟩
    · exact ⟨before, after, by simp⟩

theorem isInfix_inQuotes_iff {p x y : List Char} (hquote : '\x27' ∉ p) :
    p <:+: x ++ (inQuotes cs ++ y) ↔ p <:+: x ∨ p <:+: cs ∨ p <:+: y := by
  have hone {x y : List Char} : p <:+: x ++ (['\x27'] ++ y) ↔ p <:+: x ∨ p <:+: y := by
    refine ⟨isInfix_or_isInfix hquote, ?_⟩
    rintro (⟨before, after, rfl⟩ | ⟨before, after, rfl⟩)
    · exact ⟨before, after ++ (['\x27'] ++ y), by simp⟩
    · exact ⟨x ++ (['\x27'] ++ before), after, by simp⟩
  rw [inQuotes_append, hone, hone]

/-! ### Generated columns -/

/-- `GENERATED` with `AS IDENTITY` behind it on the line. -/
def Generated (cs : List Char) : Prop :=
  ∃ before line gap after,
    cs = before ++
      ("GENERATED".toList ++ (line ++ ("AS".toList ++ (gap ++ ("IDENTITY".toList ++ after))))) ∧
    EndsClear before ∧ StartsClear line ∧ line ≠ [] ∧ EndsClear line ∧ '\n' ∉ line ∧
    (gap ≠ [] ∧ ∀ c ∈ gap, isBlank c) ∧ StartsClear after

def generatedWords : List (List Char) := ["GENERATED".toList, "AS".toList, "IDENTITY".toList]

/-- Blanks for blanks, or quoted text for quoted text. -/
structure Exchange (g g' : List Char) : Prop where
  left : Parting generatedWords g
  right : Parting generatedWords g'
  line : '\n' ∉ g'
  blank : (∀ c ∈ g, isBlank c) → ∀ c ∈ g', isBlank c

theorem isBlank_clear (hne : g ≠ []) (hg : ∀ c ∈ g, isBlank c) : StartsClear g ∧ EndsClear g := by
  have hparting : Parting [] g := parting_of_notMem (by simp) hne
    fun c hc => ⟨isWord_eq_false_of_isBlank (hg c hc), by simp⟩
  exact ⟨hparting.starts, hparting.ends⟩

theorem Exchange.generated {g' x y : List Char} (he : Exchange g g')
    (h : Generated (x ++ (g ++ y))) :
    Generated (x ++ (g' ++ y)) := by
  obtain ⟨before, line, gap, after, h, hbefore, hstart, hline, hend, hnewline, ⟨hgap, hblank⟩,
    hafter⟩ := h
  obtain ⟨hgapStart, hgapEnd⟩ := isBlank_clear hgap hblank
  have hstarts {u v : List Char} (hu : u ≠ []) (h : StartsClear u) : StartsClear (u ++ v) := by
    obtain ⟨c, u, rfl⟩ := exists_cons_of_ne_nil hu
    exact h
  -- One word after the other is found before or behind what is exchanged.
  rcases he.left.apart _ (by decide) h hbefore (hstarts hline hstart) with ⟨x₁, rfl, h₁⟩ |
    ⟨y', rfl, rfl⟩
  · rcases he.left.apart _ (by decide) h₁.symm hend (hstarts hgap hgapStart) with
      ⟨x₂, rfl, h₂⟩ | ⟨y', rfl, rfl⟩
    · rcases he.left.apart _ (by decide) h₂.symm hgapEnd hafter with ⟨x₃, rfl, rfl⟩ | ⟨y', rfl, rfl⟩
      · exact ⟨before, line, gap, x₃ ++ (g' ++ y), by simp, hbefore, hstart, hline, hend, hnewline,
          ⟨hgap, hblank⟩, he.right.startsClear hafter.left⟩
      · have hparts := forall_mem_append.mp hblank
        have hrest := forall_mem_append.mp hparts.2
        refine ⟨before, line, x₂ ++ (g' ++ y'), after, by simp, hbefore, hstart, hline, hend,
          hnewline, ⟨by simp [he.right.ne_nil], ?_⟩, hafter⟩
        exact forall_mem_append.mpr ⟨hparts.1, forall_mem_append.mpr ⟨he.blank hrest.1, hrest.2⟩⟩
    · refine ⟨before, x₁ ++ (g' ++ y'), gap, after, by simp, hbefore,
        he.right.startsClear hstart.left,
        by simp [he.right.ne_nil], he.right.endsClear hend.right.right, ?_, ⟨hgap, hblank⟩, hafter⟩
      simp only [mem_append, not_or] at hnewline ⊢
      exact ⟨hnewline.1, he.line, hnewline.2.2⟩
  · exact ⟨x ++ (g' ++ y'), line, gap, after, by simp, he.right.endsClear hbefore.right.right,
      hstart, hline,
      hend, hnewline, ⟨hgap, hblank⟩, hafter⟩

end Text

/-! ### Flags of columns -/

namespace Sql

open Text.Pattern

variable {x y : List Char}

theorem occurs_iff {p : Pattern} :
    occurs p cs ↔ ∃ x y z, cs = x ++ (y ++ z) ∧ p.Spans x.getLast? y z := by
  simp [occurs, search?_isSome_iff, Occurs, Place.start]

/-- The pattern spans certain words, and nothing goes on before or after them. -/
def SpansWhole (p : Pattern) (ws : List (List Char)) : Prop :=
  ∀ prev x rest, p.Spans prev x rest ↔ x ∈ ws ∧ prev.any isWord ≠ (x ++ rest).head?.any isWord ∧
    (x.getLast?.or prev).any isWord ≠ rest.head?.any isWord

theorem SpansWhole.occurs_iff {p : Pattern} (hp : SpansWhole p ws)
    (hws : ∀ w ∈ ws, w.head?.any isWord ∧ w.getLast?.any isWord) :
    (∃ x y z, cs = x ++ (y ++ z) ∧ p.Spans x.getLast? y z) ↔ ∃ w ∈ ws, HasWord w cs := by
  have hfirst {w rest : List Char} (hw : w ∈ ws) : (w ++ rest).head?.any isWord := by
    have hword := (hws w hw).1
    cases w with
    | nil => cases hword
    | cons c w => exact hword
  have hlast {w : List Char} {prev : Option Char} (hw : w ∈ ws) :
      (w.getLast?.or prev).any isWord := by
    have hword := (hws w hw).2
    cases hc : w.getLast? with
    | none => simp [hc] at hword
    | some c => simpa [hc] using hword
  constructor
  · rintro ⟨x, w, z, rfl, hspans⟩
    obtain ⟨hw, hstart, hend⟩ := (hp ..).mp hspans
    rw [hfirst hw, ne_eq, Bool.not_eq_true] at hstart
    rw [hlast hw, ne_comm, ne_eq, Bool.not_eq_true] at hend
    exact ⟨w, hw, x, z, rfl, hstart, hend⟩
  · rintro ⟨w, hw, x, z, rfl, hx, hz⟩
    refine ⟨x, w, z, rfl, (hp ..).mpr ⟨hw, ?_, ?_⟩⟩
    · rw [hfirst hw, hx]
      decide
    · rw [hlast hw, hz]
      decide

theorem occurs_uniqueForm : occurs uniqueForm cs ↔ HasWord "UNIQUE".toList cs := by
  have hspans : SpansWhole uniqueForm ["UNIQUE".toList] := by
    intro prev x rest
    constructor
    · rintro ⟨_, _, rfl, ⟨_, _, rfl, ⟨rfl, hstart⟩, hx⟩, rfl, hend⟩
      cases spans_text.mp hx
      exact ⟨mem_singleton_self _, hstart, hend⟩
    · rintro ⟨hx, hstart, hend⟩
      cases mem_singleton.mp hx
      exact ⟨_, [], rfl, ⟨[], _, rfl, ⟨rfl, hstart⟩, spans_text.mpr rfl⟩, rfl, hend⟩
  rw [occurs_iff, hspans.occurs_iff (by decide)]
  simp

/-- The words for numbers that are counted up. -/
def countedWords : List (List Char) := ["AUTOINCREMENT".toList, "AUTO_INCREMENT".toList]

def countedWord : Pattern :=
  .wordEdge ++ text "AUTO" ++ maybe (char '_') ++ text "INCREMENT" ++ .wordEdge

theorem spansWhole_countedWord : SpansWhole countedWord countedWords := by
  intro prev x rest
  constructor
  · rintro ⟨_, _, rfl, ⟨_, _, rfl, ⟨_, _, rfl, ⟨_, _, rfl, ⟨rfl, hstart⟩, hauto⟩, hmark | hmark⟩,
      hincrement⟩,
      rfl, hend⟩
    all_goals cases spans_text.mp hauto
    all_goals cases spans_text.mp hincrement
    · cases spans_char.mp hmark
      exact ⟨by decide, hstart, hend⟩
    · cases hmark
      exact ⟨by decide, hstart, hend⟩
  · rintro ⟨hx, hstart, hend⟩
    rcases mem_pair.mp hx with rfl | rfl
    · exact ⟨_, [], rfl, ⟨"AUTO".toList, _, rfl,
        ⟨_, [], rfl, ⟨[], _, rfl, ⟨rfl, hstart⟩, spans_text.mpr rfl⟩,
        .inr rfl⟩, spans_text.mpr rfl⟩, rfl, hend⟩
    · exact ⟨_, [], rfl, ⟨"AUTO_".toList, _, rfl,
        ⟨_, ['_'], rfl, ⟨[], _, rfl, ⟨rfl, hstart⟩, spans_text.mpr rfl⟩,
        .inl (spans_char.mpr rfl)⟩, spans_text.mpr rfl⟩, rfl, hend⟩

def generatedForm : Pattern :=
  .wordEdge ++ text "GENERATED" ++ .wordEdge ++ .run (· != '\n') ++ .wordEdge ++ text "AS" ++
    blanks1 ++ text "IDENTITY" ++ .wordEdge

theorem occurs_generatedForm :
    (∃ x y z, cs = x ++ (y ++ z) ∧ generatedForm.Spans x.getLast? y z) ↔ Generated cs := by
  constructor
  · rintro ⟨x, _, z, rfl, _, _, rfl,
      ⟨_, _, rfl, ⟨_, gap, rfl, ⟨_, _, rfl, ⟨_, _, rfl, ⟨_, line, rfl, ⟨_, _, rfl,
      ⟨_, _, rfl, ⟨rfl, hbefore⟩, hgenerated⟩, rfl, hstart⟩, hline⟩, rfl, hend⟩, has⟩, hgap⟩,
        hidentity⟩, rfl, hafter⟩
    cases spans_text.mp hgenerated
    cases spans_text.mp has
    cases spans_text.mp hidentity
    obtain ⟨hgap, hblank⟩ := spans_run1.mp hgap
    have hletters : isWord 'G' ∧ isWord 'D' ∧ isWord 'A' ∧ isWord 'Y' := by decide
    obtain ⟨hG, hD, hA, hY⟩ := hletters
    have hclear : StartsClear (line ++ ("AS".toList ++ (gap ++ ("IDENTITY".toList ++ z)))) := by
      simpa [StartsClear, hD] using hstart
    have hne : line ≠ [] := by
      rintro rfl
      simp [StartsClear, hA] at hclear
    refine ⟨x, line, gap, z, by simp, ?_, hclear.left, hne, ?_, ?_, ⟨hgap, hblank⟩, ?_⟩
    · simpa [EndsClear, hG] using hbefore
    · rw [append_nil, getLast?_append, getLast?_eq_some_getLast hne] at hend
      simpa [EndsClear, getLast?_eq_some_getLast hne, hA] using hend
    · intro hmem
      simpa using hline _ hmem
    · have hlast : "IDENTITY".toList.getLast? = some 'Y' := rfl
      rw [append_nil, nil_append, getLast?_append, hlast] at hafter
      simpa [StartsClear, hY] using hafter
  · rintro ⟨x, line, gap, z, rfl, hbefore, hstart, hne, hend, hnewline, ⟨hgap, hblank⟩, hafter⟩
    have hletters : isWord 'G' ∧ isWord 'D' ∧ isWord 'A' ∧ isWord 'Y' := by decide
    obtain ⟨hG, hD, hA, hY⟩ := hletters
    refine ⟨x, "GENERATED".toList ++ line ++ "AS".toList ++ gap ++ "IDENTITY".toList, z, by simp,
      _, [], (append_nil _).symm, ⟨_, _, rfl,
        ⟨_, gap, rfl, ⟨_, _, rfl, ⟨_, [], (append_nil _).symm, ⟨_, line, rfl,
      ⟨_, [], (append_nil _).symm, ⟨[], _, rfl, ⟨rfl, ?_⟩, spans_text.mpr rfl⟩, rfl, ?_⟩, ?_⟩,
      rfl, ?_⟩, spans_text.mpr rfl⟩, spans_run1.mpr ⟨hgap, hblank⟩⟩, spans_text.mpr rfl⟩, rfl, ?_⟩
    · change x.getLast?.any isWord ≠ isWord 'G'
      rw [hG, hbefore]
      decide
    · obtain ⟨c, line, rfl⟩ := exists_cons_of_ne_nil hne
      simpa [StartsClear, hD] using hstart
    · intro c hc
      simpa using ne_of_mem_of_not_mem hc hnewline
    · rw [getLast?_append, getLast?_eq_some_getLast hne]
      simpa [EndsClear, getLast?_eq_some_getLast hne, hA] using hend
    · have hlast : "IDENTITY".toList.getLast? = some 'Y' := rfl
      rw [getLast?_append, hlast]
      simpa [StartsClear, hY] using hafter

/-- The flag of columns that are counted up is set by a word, or by words on one line. -/
def Counted (cs : List Char) : Prop := (∃ w ∈ countedWords, HasWord w cs) ∨ Generated cs

theorem occurs_countedForm : occurs countedForm cs ↔ Counted cs := by
  rw [occurs_iff, Counted, ← spansWhole_countedWord.occurs_iff (by decide), ← occurs_generatedForm]
  change (∃ x y z, cs = x ++ (y ++ z) ∧
    (countedWord.Spans x.getLast? y z ∨ generatedForm.Spans x.getLast? y z)) ↔ _
  simp only [and_or_left, exists_or]

/-- The type of a column definition, and what follows it. -/
def typeAndRest? (cs : List Char) : Option (List Char × List Char) := do
  let (_, rest) ← columnName? (Text.trim cs)
  let (type, rest) := splitType (Text.trimStart rest)
  if type.isEmpty then none else some (type, rest)

def isSerial (type : List Char) : Bool :=
  ["serial", "smallserial", "bigserial"].contains
    (String.ofList (lower (Text.trim (type.takeWhile (· != '(')))))

/-- The flags of a column, looked up in what follows its type. -/
structure HasFlags (c : Column) (type rest : List Char) : Prop where
  notNull : c.notNull ↔ "NOT NULL".toList <:+: upper rest
  primaryKey : c.primaryKey ↔ "PRIMARY KEY".toList <:+: upper rest
  unique : c.unique ↔ HasWord "UNIQUE".toList (upper rest)
  autoIncrement : c.autoIncrement ↔ isSerial type ∨ Counted (upper rest)

theorem exists_column? {type rest : List Char} (h : typeAndRest? cs = some (type, rest)) :
    ∃ c, column? cs = some c ∧ HasFlags c type rest := by
  obtain ⟨⟨name, r⟩, hname, h⟩ := Option.bind_eq_some_iff.mp h
  dsimp only at h
  split at h
  case isTrue => cases h
  case isFalse hne =>
    obtain ⟨rfl, rfl⟩ := Prod.mk.inj (Option.some.inj h)
    refine ⟨_, Option.bind_eq_some_iff.mpr ⟨(name, r), hname, if_neg hne⟩, ?_, ?_, ?_, ?_⟩
    · exact isInfix_iff
    · exact isInfix_iff
    · exact occurs_uniqueForm
    · rw [Bool.or_eq_true, occurs_countedForm]
      rfl

/-! ### Blanks and quoted text -/

/-- A run of blanks. -/
def BlankRun (g : List Char) : Prop := g ≠ [] ∧ ∀ c ∈ g, isBlank c

/-- The words of columns that are counted up are found before what is exchanged, in it or after it,
or generated around it. -/
def CountsUp (c : Column) (type x g y : List Char) (inside : List Char → Prop) : Prop :=
  c.autoIncrement ↔ isSerial type ∨
    (∃ v ∈ countedWords, HasWord v (upper x) ∨ inside v ∨ HasWord v (upper y)) ∨
    Generated (upper (x ++ (g ++ y)))

/-- A phrase is found before or after a run of blanks, or around it if the run is one space. -/
structure LaidOut (c : Column) (type x g y : List Char) : Prop where
  notNull : c.notNull ↔ "NOT NULL".toList <:+: upper x ∨ "NOT NULL".toList <:+: upper y ∨
    g = [' '] ∧ "NOT".toList <:+ upper x ∧ "NULL".toList <+: upper y
  primaryKey :
    c.primaryKey ↔ "PRIMARY KEY".toList <:+: upper x ∨ "PRIMARY KEY".toList <:+: upper y ∨
    g = [' '] ∧ "PRIMARY".toList <:+ upper x ∧ "KEY".toList <+: upper y
  unique : c.unique ↔ HasWord "UNIQUE".toList (upper x) ∨ HasWord "UNIQUE".toList (upper y)
  countsUp : CountsUp c type x g y fun _ => False

/-- A phrase or word is found before quotes, in them or after them. -/
structure Quoting (c : Column) (type x w y : List Char) : Prop where
  notNull : c.notNull ↔ "NOT NULL".toList <:+: upper x ∨ "NOT NULL".toList <:+: upper w ∨
    "NOT NULL".toList <:+: upper y
  primaryKey :
    c.primaryKey ↔ "PRIMARY KEY".toList <:+: upper x ∨ "PRIMARY KEY".toList <:+: upper w ∨
    "PRIMARY KEY".toList <:+: upper y
  unique : c.unique ↔ HasWord "UNIQUE".toList (upper x) ∨ HasWord "UNIQUE".toList (upper w) ∨
    HasWord "UNIQUE".toList (upper y)
  countsUp : CountsUp c type x (inQuotes w) y fun v => HasWord v (upper w)

/-- One line without the words of columns that are counted up. -/
def Harmless (w : List Char) : Prop :=
  '\n' ∉ upper w ∧ ∀ v ∈ generatedWords ++ countedWords, ¬HasWord v (upper w)

section Exchange

variable {c : Column} {type g' w w' : List Char}

theorem upper_run (hg : BlankRun g) : upper (x ++ (g ++ y)) = upper x ++ (g ++ upper y) := by
  rw [upper_append, upper_append, upper_of_isBlank hg.2]

theorem upper_inQuotes :
    upper (x ++ (inQuotes w ++ y)) = upper x ++ (inQuotes (upper w) ++ upper y) := by
  have hquote : upper ['\x27'] = ['\x27'] := by decide
  simp only [upper_append, inQuotes_append, hquote]

/-- Words of upper case letters and underlines: no blank, no quote. -/
theorem parting_run (hws : [] ∉ ws) (hblank : ∀ w ∈ ws, ∀ c ∈ w, isBlank c = false)
    (hg : BlankRun g) : Parting ws g := by
  refine parting_of_notMem hws hg.1 fun c hc =>
    ⟨isWord_eq_false_of_isBlank (hg.2 c hc), fun w hw hmem => ?_⟩
  simpa [hg.2 c hc] using hblank w hw c hmem

theorem HasFlags.laidOut (h : HasFlags c type (x ++ (g ++ y))) (hg : BlankRun g) :
    LaidOut c type x g y := by
  have hphrase (u v : List Char) (hu : u ≠ []) (hv : v ≠ [])
      (hblank : ∀ c ∈ u ++ v, isBlank c = false) :=
    isInfix_blanks_iff (x := upper x) (y := upper y) hu hv hblank hg.1 hg.2
  have hwords : Parting ("UNIQUE".toList :: countedWords) g :=
    parting_run (by decide) (by decide) hg
  constructor
  · rw [h.notNull, upper_run hg]
    exact hphrase "NOT".toList "NULL".toList (by decide) (by decide) (by decide)
  · rw [h.primaryKey, upper_run hg]
    exact hphrase "PRIMARY".toList "KEY".toList (by decide) (by decide) (by decide)
  · rw [h.unique, upper_run hg, hwords.hasWord_iff mem_cons_self]
  · rw [CountsUp, h.autoIncrement, Counted]
    refine or_congr_right (or_congr_left (exists_congr fun v => and_congr_right fun hv => ?_))
    rw [upper_run hg, hwords.hasWord_iff (mem_cons_of_mem _ hv), false_or]

theorem HasFlags.quoting (h : HasFlags c type (x ++ (inQuotes w ++ y))) :
    Quoting c type x w y where
  notNull := by rw [h.notNull, upper_inQuotes, isInfix_inQuotes_iff (by decide)]
  primaryKey := by rw [h.primaryKey, upper_inQuotes, isInfix_inQuotes_iff (by decide)]
  unique := by rw [h.unique, upper_inQuotes, hasWord_inQuotes_iff (by decide) (by decide)]
  countsUp := by
    have hplain : ∀ v ∈ countedWords, v ≠ [] ∧ '\x27' ∉ v := by decide
    rw [CountsUp, h.autoIncrement, Counted]
    refine or_congr_right (or_congr_left (exists_congr fun v => and_congr_right fun hv => ?_))
    rw [upper_inQuotes, hasWord_inQuotes_iff (hplain v hv).1 (hplain v hv).2]

theorem parting_harmless (hw : Harmless w) :
    Parting (generatedWords ++ countedWords) (inQuotes (upper w)) :=
  parting_inQuotes (by decide) (by decide) hw.2

/-- What is exchanged holds none of the words, so it makes no difference to columns that are counted
up. -/
theorem counted_exchange (hg : Parting (generatedWords ++ countedWords) g)
    (hg' : Parting (generatedWords ++ countedWords) g') (hline : '\n' ∉ g')
    (hblank : (∀ c ∈ g, isBlank c) → ∀ c ∈ g', isBlank c) (h : Counted (x ++ (g ++ y))) :
    Counted (x ++ (g' ++ y)) := by
  rcases h with ⟨v, hv, h⟩ | h
  · have hmem := mem_append_right generatedWords hv
    exact .inl ⟨v, hv, (hg'.hasWord_iff hmem).mpr ((hg.hasWord_iff hmem).mp h)⟩
  · refine .inr (Exchange.generated ⟨?_, ?_, hline, hblank⟩ h)
    · exact { hg with apart := fun w hw => hg.apart w (mem_append_left _ hw) }
    · exact { hg' with apart := fun w hw => hg'.apart w (mem_append_left _ hw) }

end Exchange

/-- What becomes of the flags of a column when a run of blanks or a quoted text behind its type
takes the place of another. Before and inside the type, only whether it is counted up makes a
difference. -/
theorem flags_exchanged {cs cs' type type' x g g' y : List Char}
    (h : typeAndRest? cs = some (type, x ++ (g ++ y)))
    (h' : typeAndRest? cs' = some (type', x ++ (g' ++ y))) :
    ∃ c c', column? cs = some c ∧ column? cs' = some c' ∧
      (g = g' → c.notNull = c'.notNull ∧ c.primaryKey = c'.primaryKey ∧ c.unique = c'.unique ∧
        (isSerial type = isSerial type' → c.autoIncrement = c'.autoIncrement)) ∧
      (BlankRun g → BlankRun g' → LaidOut c type x g y ∧ LaidOut c' type' x g' y ∧
        c.unique = c'.unique ∧ (isSerial type = isSerial type' → '\n' ∉ g → '\n' ∉ g' →
          c.autoIncrement = c'.autoIncrement)) ∧
      ∀ w w', g = inQuotes w → g' = inQuotes w' → Quoting c type x w y ∧ Quoting c' type' x w' y ∧
        (isSerial type = isSerial type' → Harmless w → Harmless w' →
          c.autoIncrement = c'.autoIncrement) := by
  obtain ⟨c, hc, hflags⟩ := exists_column? h
  obtain ⟨c', hc', hflags'⟩ := exists_column? h'
  have hcounted (htype : isSerial type = isSerial type')
      (hiff : Counted (upper (x ++ (g ++ y))) ↔ Counted (upper (x ++ (g' ++ y)))) :
      c.autoIncrement = c'.autoIncrement := by
    rw [Bool.eq_iff_iff, hflags.autoIncrement, hflags'.autoIncrement, htype, hiff]
  refine ⟨c, c', hc, hc', ?_, fun hg hg' => ?_, ?_⟩
  · rintro rfl
    refine ⟨?_, ?_, ?_, fun htype => hcounted htype .rfl⟩
    · rw [Bool.eq_iff_iff, hflags.notNull, hflags'.notNull]
    · rw [Bool.eq_iff_iff, hflags.primaryKey, hflags'.primaryKey]
    · rw [Bool.eq_iff_iff, hflags.unique, hflags'.unique]
  · have hlaid := hflags.laidOut hg
    have hlaid' := hflags'.laidOut hg'
    refine ⟨hlaid, hlaid', ?_, fun htype hn hn' => hcounted htype ?_⟩
    · rw [Bool.eq_iff_iff, hlaid.unique, hlaid'.unique]
    · have hparting {g : List Char} (hg : BlankRun g) :
          Parting (generatedWords ++ countedWords) g :=
        parting_run (by decide) (by decide) hg
      rw [upper_run hg, upper_run hg']
      exact ⟨counted_exchange (hparting hg) (hparting hg') hn' fun _ => hg'.2,
        counted_exchange (hparting hg') (hparting hg) hn fun _ => hg.2⟩
  · rintro w w' rfl rfl
    refine ⟨hflags.quoting, hflags'.quoting, fun htype hw hw' => hcounted htype ?_⟩
    rw [upper_inQuotes, upper_inQuotes]
    have hblank {u v : List Char} (h : ∀ c ∈ inQuotes u, isBlank c) : ∀ c ∈ inQuotes v, isBlank c :=
      absurd (h '\x27' mem_cons_self) (by decide)
    have hline {u : List Char} (hu : Harmless u) : '\n' ∉ inQuotes (upper u) := by
      simpa [inQuotes] using hu.1
    exact ⟨counted_exchange (parting_harmless hw) (parting_harmless hw') (hline hw') hblank,
      counted_exchange (parting_harmless hw') (parting_harmless hw) (hline hw) hblank⟩

/-- With two spaces a column is no longer required, and a default that says so makes it required. -/
theorem flags_exchanged_notNull :
    (∃ c c', column? "a INT NOT NULL".toList = some c ∧ column? "a INT NOT  NULL".toList = some c' ∧
      c.notNull = true ∧ c'.notNull = false) ∧
    ∃ c c', column? "a INT DEFAULT \x27x\x27".toList = some c ∧
      column? "a INT DEFAULT \x27NOT NULL\x27".toList = some c' ∧ c.notNull = false ∧
        c'.notNull = true := by
  constructor
  · have h : typeAndRest? "a INT NOT NULL".toList =
        some ("INT".toList, "NOT".toList ++ ([' '] ++ "NULL".toList)) := by decide +kernel
    have h' : typeAndRest? "a INT NOT  NULL".toList =
        some ("INT".toList, "NOT".toList ++ ([' ', ' '] ++ "NULL".toList)) := by decide +kernel
    obtain ⟨c, c', hc, hc', -, hrun, -⟩ := flags_exchanged h h'
    obtain ⟨hlaid, hlaid', -⟩ := hrun ⟨by decide, by decide⟩ ⟨by decide, by decide⟩
    refine ⟨c, c', hc, hc', hlaid.notNull.mpr (by decide +kernel), ?_⟩
    rw [← Bool.not_eq_true, hlaid'.notNull]
    decide +kernel
  · have h : typeAndRest? "a INT DEFAULT \x27x\x27".toList =
        some ("INT".toList, "DEFAULT ".toList ++ (inQuotes "x".toList ++ [])) := by decide +kernel
    have h' : typeAndRest? "a INT DEFAULT \x27NOT NULL\x27".toList =
        some ("INT".toList, "DEFAULT ".toList ++ (inQuotes "NOT NULL".toList ++ [])) := by
          decide +kernel
    obtain ⟨c, c', hc, hc', -, -, hquoted⟩ := flags_exchanged h h'
    obtain ⟨hquoting, hquoting', -⟩ := hquoted _ _ rfl rfl
    refine ⟨c, c', hc, hc', ?_, hquoting'.notNull.mpr (by decide +kernel)⟩
    rw [← Bool.not_eq_true, hquoting.notNull]
    decide +kernel

end Sql

end Crosswalk
