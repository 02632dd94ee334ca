import Crosswalk.Source.Literal
import Mathlib.Algebra.Ring.Parity
import Mathlib.Data.List.Basic
import Mathlib.Data.List.Induction

/-!
Texts that are taken for one string literal. A quote inside a literal ends it unless an odd number
of backslashes stands in front of it. Main statement: a text is taken for a literal if the quote
that opens it is also its last character and no quote between them ends it. Whether the last quote
ends it is not asked, so that a literal which is left open is taken for a complete one exactly if
its last quote is escaped.
-/

namespace Crosswalk

open List

variable {quote : Char} {quotes body before cs : List Char}

/-- How many backslashes stand at the end of a text. -/
def trailingBackslashes (cs : List Char) : Nat := (cs.reverse.takeWhile (· == '\\')).length

theorem trailingBackslashes_backslash (cs : List Char) :
    trailingBackslashes (cs ++ ['\\']) = trailingBackslashes cs + 1 := by
  simp [trailingBackslashes]

theorem trailingBackslashes_concat {c : Char} (hc : c ≠ '\\') (cs : List Char) :
    trailingBackslashes (cs ++ [c]) = 0 := by
  simp [trailingBackslashes, hc]

/-- No quote in the inside of a literal ends it: each is escaped. -/
def Unended (quote : Char) (body : List Char) : Prop :=
  ∀ before after, body = before ++ quote :: after → Odd (trailingBackslashes before)

theorem Unended.nil : Unended quote [] := fun before after h => by simp at h

theorem Unended.of_concat {c : Char} (h : Unended quote (body ++ [c])) : Unended quote body := by
  rintro before after rfl
  exact h before (after ++ [c]) (by simp)

/-- The first quote that ends a literal. -/
theorem exists_end (h : ¬Unended quote body) :
    ∃ before after, body = before ++ quote :: after ∧ Unended quote before ∧
      Even (trailingBackslashes before) := by
  induction body using reverseRecOn with
  | nil => exact absurd .nil h
  | append_singleton body c ih =>
    by_cases hbody : Unended quote body
    · -- Nothing before the last character ends the literal, so that the last one does.
      simp only [Unended, not_forall, Nat.not_odd_iff_even] at h
      obtain ⟨before, after, heq, heven⟩ := h
      rcases eq_nil_or_concat' after with rfl | ⟨after, d, rfl⟩
      · obtain ⟨rfl, hc⟩ := append_inj' heq rfl
        exact ⟨body, [], by rw [hc], hbody, heven⟩
      · rw [← cons_append, ← append_assoc] at heq
        obtain ⟨rfl, -⟩ := append_inj' heq rfl
        exact absurd (hbody before after rfl) (Nat.not_odd_iff_even.mpr heven)
    · obtain ⟨before, after, rfl, hbefore, heven⟩ := ih hbody
      exact ⟨before, after ++ [c], by simp, hbefore, heven⟩

/-! ### The walk inside a literal -/

/-- Behind the inside of a literal the next character is escaped if an odd number of backslashes is
at its end. -/
def modeAfter (quote : Char) (body : List Char) : Mode :=
  if Even (trailingBackslashes body) then .literal quote else .escape quote

/-- The walk goes through what does not end the literal. The induction is on the last character,
before which the number of backslashes is counted. -/
theorem literalCloseFrom_unended (h : Unended quote body) (i : Nat) (rest : List Char) :
    literalCloseFrom { mode := .literal quote } i (body ++ rest) =
      literalCloseFrom { mode := modeAfter quote body } (i + body.length) rest := by
  induction body using reverseRecOn generalizing rest with
  | nil => simp [modeAfter, trailingBackslashes]
  | append_singleton body c ih =>
    have hstep : ({ mode := modeAfter quote body } : Scan).step [] none c =
        { mode := modeAfter quote (body ++ [c]) } := by
      by_cases heven : Even (trailingBackslashes body)
      · by_cases hc : c = '\\'
        · subst hc
          simp [modeAfter, trailingBackslashes_backslash, Scan.step, heven, Nat.even_add_one]
        · have hquote : c ≠ quote := by
            rintro rfl
            exact Nat.not_odd_iff_even.mpr heven (h body [] rfl)
          simp [modeAfter, trailingBackslashes_concat hc, Scan.step, heven, hc, hquote]
      · by_cases hc : c = '\\'
        · subst hc
          simp [modeAfter, trailingBackslashes_backslash, Scan.step, heven, Nat.even_add_one]
        · simp [modeAfter, trailingBackslashes_concat hc, Scan.step, heven]
    have hliteral : ({ mode := modeAfter quote (body ++ [c]) } : Scan).inLiteral := by
      rw [modeAfter]
      split <;> rfl
    rw [append_assoc, singleton_append, ih h.of_concat, literalCloseFrom, hstep, if_pos hliteral,
      length_append, length_singleton, Nat.add_assoc]

/-- A quote that is not escaped ends the literal. -/
theorem literalCloseFrom_end (hquote : isQuote quote) (h : Unended quote before)
    (heven : Even (trailingBackslashes before)) (i : Nat) (after : List Char) :
    literalCloseFrom { mode := .literal quote } i (before ++ quote :: after) =
      i + before.length := by
  have hbackslash : quote ≠ '\\' := by
    rintro rfl
    cases hquote
  rw [literalCloseFrom_unended h, modeAfter, if_pos heven, literalCloseFrom]
  simp [Scan.step, Scan.inLiteral, hbackslash]

/-- An escaped quote at the end leaves the literal open, and the last character is taken for its
end. -/
theorem literalCloseFrom_last (hquote : isQuote quote) (h : Unended quote body) (i : Nat) :
    literalCloseFrom { mode := .literal quote } i (body ++ [quote]) = i + body.length := by
  by_cases heven : Even (trailingBackslashes body)
  · exact literalCloseFrom_end hquote h heven i []
  · rw [literalCloseFrom_unended h, modeAfter, if_neg heven, literalCloseFrom]
    simp [Scan.step, Scan.inLiteral, literalCloseFrom]

/-! ### Literals -/

/-- A text between two quotes of the same kind, with nothing in it that ends the literal. -/
structure Enquoted (quotes : List Char) (quote : Char) (body cs : List Char) : Prop where
  opens : isQuote quote = true
  mem : quote ∈ quotes
  text : cs = quote :: (body ++ [quote])
  unended : Unended quote body

theorem Enquoted.inj {quote' : Char} {body' : List Char} (h : Enquoted quotes quote body cs)
    (h' : Enquoted quotes quote' body' cs) : body = body' := by
  obtain ⟨-, htail⟩ := cons.inj (h.text.symm.trans h'.text)
  exact (append_inj' htail rfl).1

theorem Enquoted.isStringLiteral (h : Enquoted quotes quote body cs) :
    isStringLiteral quotes cs := by
  have hclose : literalClose? cs = some (cs.length - 1) := by
    rw [h.text, literalClose?, if_pos h.opens, literalCloseFrom_last h.opens h.unended]
    simp [Nat.add_comm]
  have hlast : cs.getLast? = some quote := by
    rw [h.text, ← cons_append, getLast?_concat]
  obtain ⟨d, rest, hrest⟩ := exists_cons_of_ne_nil (concat_ne_nil quote body)
  obtain rfl : cs = quote :: d :: rest := h.text.trans (congrArg _ hrest)
  rw [Crosswalk.isStringLiteral, hclose, hlast]
  simpa using h.mem

theorem exists_enquoted (h : isStringLiteral quotes cs) :
    ∃ quote body, Enquoted quotes quote body cs := by
  unfold isStringLiteral at h
  split at h
  case h_2 => cases h
  case h_1 quote d rest =>
    simp only [Bool.and_eq_true, beq_iff_eq, contains_iff_mem] at h
    obtain ⟨⟨hmem, hclose⟩, hlast⟩ := h
    obtain ⟨body, hbody⟩ : ∃ body, d :: rest = body ++ [quote] := by
      rw [← getLast?_eq_some_iff, ← hlast, getLast?_cons_cons]
    rw [hbody, literalClose?] at hclose
    split at hclose
    case isFalse => cases hclose
    case isTrue hquote =>
      refine ⟨quote, body, hquote, hmem, by rw [hbody], ?_⟩
      by_contra hended
      obtain ⟨before, after, rfl, hbefore, heven⟩ := exists_end hended
      rw [append_assoc, cons_append, literalCloseFrom_end hquote hbefore heven] at hclose
      simp only [length_cons, length_append, Option.some.injEq] at hclose
      omega

/-- A text is taken for a string literal exactly if a quote opens it, the same quote is its last
character and no quote between them ends it. So it is one complete literal, unless its last quote is
escaped. -/
theorem isStringLiteral_exact (quotes cs : List Char) :
    (isStringLiteral quotes cs = true ↔ ∃ quote body, Enquoted quotes quote body cs) ∧
    ((isStringLiteral quotes cs = true ↔
        ∃ quote body, Enquoted quotes quote body cs ∧ Even (trailingBackslashes body)) ↔
      ¬∃ quote body, Enquoted quotes quote body cs ∧ Odd (trailingBackslashes body)) := by
  refine ⟨⟨exists_enquoted, fun ⟨_, _, h⟩ => h.isStringLiteral⟩, ?_, ?_⟩
  · rintro hcomplete ⟨quote, body, h, hodd⟩
    obtain ⟨quote', body', h', heven⟩ := hcomplete.mp h.isStringLiteral
    rw [h.inj h'] at hodd
    exact Nat.not_even_iff_odd.mpr hodd heven
  · intro hclosed
    refine ⟨fun hliteral => ?_, fun ⟨_, _, h, _⟩ => h.isStringLiteral⟩
    obtain ⟨quote, body, h⟩ := exists_enquoted hliteral
    refine ⟨quote, body, h, Nat.not_odd_iff_even.mp fun hodd => hclosed ⟨quote, body, h, hodd⟩⟩

/-- The only quote behind the first one is escaped, so that the literal is never ended. -/
theorem isStringLiteral_escapedQuote :
    isStringLiteral Literal.quotes "\"\\\"".toList = true ∧
      ¬∃ quote body, Enquoted Literal.quotes quote body "\"\\\"".toList ∧
        Even (trailingBackslashes body) := by
  have hopen : Enquoted Literal.quotes '"' ['\\'] "\"\\\"".toList := by
    refine ⟨rfl, by decide, by decide, fun before after h => ?_⟩
    have hmem : '"' ∈ ['\\'] := h ▸ mem_append_right before mem_cons_self
    cases mem_singleton.mp hmem
  refine ⟨hopen.isStringLiteral, fun hcomplete => ?_⟩
  have hiff := (isStringLiteral_exact Literal.quotes "\"\\\"".toList).2.mp
    ⟨fun _ => hcomplete, fun _ => hopen.isStringLiteral⟩
  exact hiff ⟨'"', ['\\'], hopen, by decide⟩

end Crosswalk
