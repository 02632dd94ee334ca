import Crosswalk.Proofs.Fragment
import Crosswalk.Source.TypeScript
import Mathlib.Data.List.TakeWhile
import Mathlib.Data.Nat.Digits.Defs

/-!
Literals and keys are read as they were written: quoted text, whole numbers, and the keys of
objects. What holds a character that no literal has is not read as one.
-/

namespace Crosswalk

open List
open Identifier (isPart isStart)
open Text (after? digitValue? isDecimal replaceAll replaceFrom startsWith trim trim_eq_self)

variable {c : Char} {cs bs : List Char}

/-! ### Characters -/

namespace Text

def blanks : List Nat :=
  [0x9, 0xA, 0xB, 0xC, 0xD, 0x1C, 0x1D, 0x1E, 0x1F, 0x20, 0x85, 0xA0, 0x1680, 0x2000, 0x2001,
    0x2002, 0x2003, 0x2004, 0x2005, 0x2006, 0x2007, 0x2008, 0x2009, 0x200A, 0x2028, 0x2029,
    0x202F, 0x205F, 0x3000]

theorem toNat_mem_blanks (h : isBlank c) : c.toNat ∈ blanks := by
  simp only [isBlank, Bool.or_eq_true, Bool.and_eq_true, decide_eq_true_eq, beq_iff_eq] at h
  simp only [blanks, mem_cons, not_mem_nil, or_false]
  omega

theorem isWord_eq_false_of_isBlank (h : isBlank c) : isWord c = false := by
  have hall : ∀ n ∈ blanks, isWord (Char.ofNat n) = false := by decide +kernel
  have hc := hall c.toNat (toNat_mem_blanks h)
  rwa [Char.ofNat_toNat] at hc

end Text

theorem isBlank_eq_false_of_isPart (h : isPart c) : Text.isBlank c = false := by
  rw [Bool.eq_false_iff]
  intro hblank
  rw [isPart, Text.isWord_eq_false_of_isBlank hblank, Bool.false_or, beq_iff_eq] at h
  subst h
  cases hblank

theorem isPlain_of_isPart (h : isPart c) : isPlain c := by
  have hquote : isQuote c = false := by
    rw [Bool.eq_false_iff]
    intro hq
    simp only [isQuote, Bool.or_eq_true, beq_iff_eq] at hq
    rcases hq with (rfl | rfl) | rfl <;> cases h
  have hopener : Delimiter.ofOpener? c = none := by
    refine find?_eq_none.mpr fun d _ hd => ?_
    rw [← beq_iff_eq.mp hd] at h
    cases d <;> cases h
  have hcloser : Delimiter.ofCloser? c = none := by
    refine find?_eq_none.mpr fun d _ hd => ?_
    rw [← beq_iff_eq.mp hd] at h
    cases d <;> cases h
  have hequals : (c != '=') := by
    rw [bne_iff_ne]
    rintro rfl
    cases h
  simp [isPlain, hquote, hopener, hcloser, hequals]

theorem isFirst_of_isPart (h : isPart c) : isFirst c := by
  have hne : ['|', '&', '.'].contains c = false :=
    contains_eq_false (p := isPart) (by rw [h]; decide)
  rw [isFirst, isBlank_eq_false_of_isPart h, hne]
  rfl

theorem isLast_of_isPart (h : isPart c) : isLast c := by
  have hne : [':', '|', '&', '?', '['].contains c = false :=
    contains_eq_false (p := isPart) (by rw [h]; decide)
  rw [isLast, isBlank_eq_false_of_isPart h, hne]
  rfl

theorem toNat_of_isStart (h : isStart c) :
    (97 ≤ c.toNat ∧ c.toNat ≤ 122) ∨ (65 ≤ c.toNat ∧ c.toNat ≤ 90) ∨ c = '_' ∨ c = '$' := by
  simp only [isStart, Bool.or_eq_true, Bool.and_eq_true, decide_eq_true_eq, beq_iff_eq] at h
  rcases h with ((⟨h₁, h₂⟩ | ⟨h₁, h₂⟩) | h) | h
  · exact .inl ⟨h₁, h₂⟩
  · exact .inr (.inl ⟨h₁, h₂⟩)
  · exact .inr (.inr (.inl h))
  · exact .inr (.inr (.inr h))

theorem isPart_of_isStart (h : isStart c) : isPart c := by
  have hn : c.toNat < 128 := by
    rcases toNat_of_isStart h with h | h | rfl | rfl
    · omega
    · omega
    · decide
    · decide
  rw [isPart, Text.isWord_of_ascii hn]
  simp only [isStart, Bool.or_eq_true, beq_iff_eq] at h
  simp only [Text.isAsciiWord, Bool.or_eq_true, beq_iff_eq]
  tauto

theorem isDecimal_of_isStart (h : isStart c) : isDecimal c = false := by
  rcases toNat_of_isStart h with h | h | rfl | rfl
  · have hdigit : ¬(c ≤ '9') := fun hle => by
      have : c.toNat ≤ 57 := hle
      omega
    rw [isDecimal, digitValue?]
    simp [hdigit, show c.toNat < 128 by omega]
  · have hdigit : ¬(c ≤ '9') := fun hle => by
      have : c.toNat ≤ 57 := hle
      omega
    rw [isDecimal, digitValue?]
    simp [hdigit, show c.toNat < 128 by omega]
  · rfl
  · rfl

/-- Characters of a type without operators at its top level. -/
def isAtomChar (c : Char) : Bool := isPart c || c == '-'

theorem Piece.of_word {tracked : List Char} {ok : Char → Bool} (hne : cs ≠ [])
    (hcs : ∀ c ∈ cs, isPart c) (hok : ∀ c, isPart c → ok c) : Piece tracked ok cs where
  balanced := .of_all fun c hc => ⟨isPlain_of_isPart (hcs c hc), hok c (hcs c hc)⟩
  first := by
    obtain ⟨c, rest, rfl⟩ := exists_cons_of_ne_nil hne
    exact ⟨c, rfl, isFirst_of_isPart (hcs c (mem_cons_self ..))⟩
  last := by
    refine ⟨cs.getLast hne, getLast?_eq_some_getLast hne, ?_⟩
    exact isLast_of_isPart (hcs _ (getLast_mem hne))

/-- A word that is no modifier. -/
theorem Fragment.of_word (hne : cs ≠ []) (hcs : ∀ c ∈ cs, isPart c)
    (hword : cs ≠ "readonly".toList) : Fragment isAtomChar cs where
  toSegment := .of_word hne hcs fun c hc => by simp [isAtomChar, hc]
  word := by
    rwa [takeWhile_eq_self_iff.mpr hcs]

/-! ### What is no literal -/

theorem TypeScript.isAlpha_of_keyword? {s : String} {p : Primitive} (h : keyword? s = some p) :
    s.toList.all Char.isAlpha := by
  unfold keyword? at h
  split at h <;> first | rfl | cases h

theorem TypeScript.keyword?_eq_none (hc : c ∈ cs) (ha : c.isAlpha = false) :
    keyword? (String.ofList cs) = none := by
  rw [Option.eq_none_iff_forall_ne_some]
  intro p hp
  have hall := isAlpha_of_keyword? hp
  rw [String.toList_ofList, all_eq_true] at hall
  rw [hall c hc] at ha
  cases ha

theorem isStringLiteral_of_head (hc : c ≠ '"' ∧ c ≠ '\x27') (cs : List Char) :
    isStringLiteral Literal.quotes (c :: cs) = false := by
  have hquote : Literal.quotes.contains c = false := by simp [Literal.quotes, hc]
  cases cs with
  | nil => rfl
  | cons d cs => simp only [isStringLiteral, hquote, Bool.false_and]

namespace Literal

/-- Characters of numbers and truth values. -/
def isNumeral (c : Char) : Bool := isDecimal c || c.isAlpha || ['-', '+', '.'].contains c

theorem isNumeral_of_isDigits (h : isDigits cs) : ∀ c ∈ cs, isNumeral c := by
  simp only [isDigits, Bool.and_eq_true, all_eq_true] at h
  intro c hc
  simp [isNumeral, h.2 c hc]

theorem isNumeral_of_isExponent (h : isExponent cs) : ∀ c ∈ cs, isNumeral c := by
  unfold isExponent at h
  split at h
  · exact forall_mem_cons.mpr ⟨rfl, isNumeral_of_isDigits h⟩
  · exact forall_mem_cons.mpr ⟨rfl, isNumeral_of_isDigits h⟩
  · exact isNumeral_of_isDigits h

theorem isNumeral_of_isNumberEnd (h : isNumberEnd cs) : ∀ c ∈ cs, isNumeral c := by
  cases cs with
  | nil => simp
  | cons c cs =>
    simp only [isNumberEnd, Bool.and_eq_true, Bool.or_eq_true, beq_iff_eq] at h
    refine forall_mem_cons.mpr ⟨?_, isNumeral_of_isExponent h.2⟩
    rcases h.1 with rfl | rfl <;> rfl

theorem isNumeral_of_unsigned (h : ∀ c ∈ unsigned cs, isNumeral c) :
    ∀ c ∈ cs, isNumeral c := by
  unfold unsigned at h
  split at h
  · exact forall_mem_cons.mpr ⟨rfl, h⟩
  · exact h

theorem isNumeral_takeWhile (cs : List Char) :
    ∀ c ∈ cs.takeWhile isDecimal, isNumeral c := by
  intro c hc
  simp [isNumeral, mem_takeWhile_imp hc]

theorem isNumeral_of_isNumber (h : isNumber cs) : ∀ c ∈ cs, isNumeral c := by
  refine isNumeral_of_unsigned ?_
  rw [← takeWhile_append_dropWhile (p := isDecimal) (l := unsigned cs),
    forall_mem_append]
  refine ⟨isNumeral_takeWhile _, ?_⟩
  unfold isNumber at h
  dsimp only at h
  split at h
  · rename_i rest hrest
    rw [hrest, forall_mem_cons, ← takeWhile_append_dropWhile (p := isDecimal) (l := rest),
      forall_mem_append]
    simp only [Bool.and_eq_true] at h
    exact ⟨rfl, isNumeral_takeWhile _, isNumeral_of_isNumberEnd h.2⟩
  · simp only [Bool.and_eq_true] at h
    exact isNumeral_of_isNumberEnd h.2

theorem isNumeral_of_isBigInteger (h : isBigInteger cs) : ∀ c ∈ cs, isNumeral c := by
  simp only [isBigInteger, Bool.and_eq_true, beq_iff_eq] at h
  obtain ⟨rest, rfl⟩ := getLast?_eq_some_iff.mp h.1
  rw [dropLast_concat] at h
  rw [forall_mem_append]
  exact ⟨isNumeral_of_unsigned (isNumeral_of_isDigits h.2), by simp; rfl⟩

/-- What is no quoted text and has a character that no number has. -/
theorem read?_eq_none (htrim : trim cs = cs) (hs : isStringLiteral quotes cs = false) (hc : c ∈ cs)
    (hn : isNumeral c = false) : read? cs = .ok none := by
  have hnumber : isNumber cs = false := by
    rw [Bool.eq_false_iff]
    intro h
    rw [isNumeral_of_isNumber h c hc] at hn
    cases hn
  have hbig : isBigInteger cs = false := by
    rw [Bool.eq_false_iff]
    intro h
    rw [isNumeral_of_isBigInteger h c hc] at hn
    cases hn
  have hword {w : List Char} (hw : ∀ c ∈ w, isNumeral c) : (cs == w) = false := by
    rw [beq_eq_false_iff_ne]
    rintro rfl
    rw [hw c hc] at hn
    cases hn
  simp only [read?, htrim, hs, hnumber, hbig, hword (w := "true".toList) (forall_mem_of_all rfl),
    hword (w := "false".toList) (forall_mem_of_all rfl), Bool.false_eq_true, if_false]

/-- A word that is no truth value. -/
theorem read?_word (hc : isStart c) (hcs : ∀ x ∈ c :: cs, isPart x)
    (htrue : c :: cs ≠ "true".toList) (hfalse : c :: cs ≠ "false".toList) :
    read? (c :: cs) = .ok none := by
  have hblank {x : Char} (hx : x ∈ c :: cs) : Text.isBlank x = false :=
    isBlank_eq_false_of_isPart (hcs x hx)
  have htrim : trim (c :: cs) = c :: cs := trim_eq_self ⟨c, rfl, hblank (mem_cons_self ..)⟩
    ⟨_, getLast?_eq_some_getLast (by simp), hblank (getLast_mem _)⟩
  have hdecimal := isDecimal_of_isStart hc
  have hstring : isStringLiteral quotes (c :: cs) = false :=
    isStringLiteral_of_head (by constructor <;> rintro rfl <;> cases hc) cs
  have hunsigned {cs : List Char} : unsigned (c :: cs) = c :: cs := by
    unfold unsigned
    split
    · rename_i heq
      cases heq
      cases hc
    · rfl
  have hnumber : isNumber (c :: cs) = false := by
    unfold isNumber
    simp only [hunsigned, takeWhile_cons, dropWhile_cons, hdecimal, Bool.false_eq_true,
      if_false]
    split
    · rename_i heq
      cases heq
      cases hc
    · rfl
  have hbig : isBigInteger (c :: cs) = false := by
    have hinteger : isInteger (c :: cs).dropLast = false := by
      cases cs with
      | nil => rfl
      | cons d cs => simp [isInteger, List.dropLast, hunsigned, isDigits, hdecimal]
    rw [isBigInteger, hinteger, Bool.and_false]
  have htrue : (c :: cs == "true".toList) = false := beq_eq_false_iff_ne.mpr htrue
  have hfalse : (c :: cs == "false".toList) = false := beq_eq_false_iff_ne.mpr hfalse
  simp only [read?, htrim, hstring, hnumber, hbig, htrue, hfalse, Bool.false_eq_true, if_false]

end Literal

/-! ### Quoted text -/

theorem Quoted.literalCloseFrom_append (h : Quoted cs) (i : Nat) (rest : List Char) :
    literalCloseFrom { mode := .literal '"' } i (cs ++ rest) =
      literalCloseFrom { mode := .literal '"' } (i + cs.length) rest := by
  induction h generalizing i with
  | nil => rfl
  | @char c cs hq hb _ _ ih =>
    have hstep : ({ mode := .literal '"' } : Scan).step [] none c = { mode := .literal '"' } := by
      simp [Scan.step, hq, hb]
    rw [cons_append, literalCloseFrom, hstep, if_pos (by decide), ih, length_cons,
      Nat.add_right_comm, Nat.add_assoc]
  | @escape c cs _ _ ih =>
    have hstep : ({ mode := .literal '"' } : Scan).step [] none '\\' = { mode := .escape '"' } := by
      simp [Scan.step]
    have hback : ({ mode := .escape '"' } : Scan).step [] none c = { mode := .literal '"' } := by
      simp [Scan.step]
    rw [cons_append, cons_append, literalCloseFrom, hstep, if_pos (by decide), literalCloseFrom,
      hback, if_pos (by decide), ih, length_cons, length_cons]
    congr 1
    omega

theorem Quoted.literalClose? (h : Quoted cs) (rest : List Char) :
    literalClose? ('"' :: (cs ++ '"' :: rest)) = some (cs.length + 1) := by
  have hstep : ({ mode := .literal '"' } : Scan).step [] none '"' = {} := by simp [Scan.step]
  rw [Crosswalk.literalClose?, if_pos (by decide), h.literalCloseFrom_append, literalCloseFrom,
    hstep, if_neg (by decide), Nat.add_comm]

theorem isStringLiteral_of_close {q : Char} (hq : Literal.quotes.contains q)
    (hclose : literalClose? (q :: (cs ++ [q])) = some (cs.length + 1)) :
    isStringLiteral Literal.quotes (q :: (cs ++ [q])) := by
  have hlast : (q :: (cs ++ [q])).getLast? = some q := by
    rw [← cons_append, getLast?_append]
    rfl
  obtain ⟨d, ds, hds⟩ : ∃ d ds, cs ++ [q] = d :: ds := exists_cons_of_ne_nil (by simp)
  have hlength : ds.length = cs.length := by
    have hcongr := congrArg List.length hds
    simp only [length_append, length_cons, length_nil] at hcongr
    omega
  rw [hds] at hlast hclose ⊢
  rw [isStringLiteral, hlast, hclose, hq]
  simp [hlength]

theorem Quoted.isStringLiteral (h : Quoted cs) :
    isStringLiteral Literal.quotes ('"' :: (cs ++ ['"'])) :=
  isStringLiteral_of_close rfl (h.literalClose? [])

/-- Text that goes on after a balanced beginning is no quoted text. -/
theorem Nested.isStringLiteral_append {tracked : List Char} {ok : Char → Bool} {as : List Char}
    (h : Nested tracked ok as) (ha : as ≠ []) (hb : bs ≠ []) :
    isStringLiteral Literal.quotes (as ++ bs) = false := by
  cases h with
  | nil => exact absurd rfl ha
  | plain hp _ _ =>
    refine isStringLiteral_of_head ?_ _
    constructor <;> rintro rfl <;> cases hp
  | @literal ok body cs hq _ =>
    rw [cons_append, append_assoc, cons_append]
    have hclose := hq.literalClose? (cs ++ bs)
    have hpos : 0 < bs.length := length_pos_iff.mpr hb
    obtain ⟨d, ds, hds⟩ : ∃ d ds, body ++ '"' :: (cs ++ bs) = d :: ds :=
      exists_cons_of_ne_nil (by simp)
    have hlength : ds.length = body.length + cs.length + bs.length := by
      have hcongr := congrArg List.length hds
      simp only [length_append, length_cons] at hcongr
      omega
    have hne : (some (body.length + 1) == some (('"' :: d :: ds).length - 1)) = false := by
      rw [beq_eq_false_iff_ne, Ne, Option.some.injEq]
      simp only [length_cons]
      omega
    rw [hds] at hclose ⊢
    rw [isStringLiteral, hclose, hne, Bool.and_false, Bool.false_and]
  | group d _ _ _ => exact isStringLiteral_of_head (by cases d <;> decide) _

namespace Literal

open Json (escapeChar stringChars)

/-- Characters that stand in a string as they are, or after a backslash. -/
def isWritable (c : Char) : Bool := 0x20 ≤ c.toNat

theorem escapeChar_eq (h : isWritable c) :
    escapeChar false c = if c = '"' ∨ c = '\\' then ['\\', c] else [c] := by
  have hn : 0x20 ≤ c.toNat := by simpa [isWritable] using h
  have hne {d : Char} (hd : d.toNat < 0x20) : (c == d) = false := by
    rw [beq_eq_false_iff_ne]
    rintro rfl
    omega
  rw [escapeChar, hne (d := '\n') (by decide), hne (d := '\r') (by decide),
    hne (d := '\t') (by decide), hne (d := '\x0c') (by decide), hne (d := '\x08') (by decide)]
  by_cases hq : c = '"'
  · simp [hq]
  · by_cases hb : c = '\\'
    · simp [hb]
    · simp [hq, hb, show ¬c.toNat < 0x20 by omega]

/-- A backslash is written twice. -/
def doubled (cs : List Char) : List Char :=
  cs.flatMap fun c => if c = '\\' then ['\\', '\\'] else [c]

theorem replaceAll_backslashes (cs : List Char) :
    replaceAll ['\\', '\\'] ['\\'] (doubled cs) = cs := by
  rw [replaceAll, doubled]
  induction cs with
  | nil => rfl
  | cons c cs ih =>
    rw [flatMap_cons]
    by_cases hb : c = '\\'
    · subst hb
      simp [replaceFrom, startsWith, after?, ih]
    · simp [replaceFrom, startsWith, after?, hb, Ne.symm hb, ih]

section Writable

variable (h : ∀ c ∈ cs, isWritable c)
include h

theorem quoted_escaped : Quoted (cs.flatMap (escapeChar false)) := by
  induction cs with
  | nil => exact .nil
  | cons c cs ih =>
    obtain ⟨hc, hcs⟩ := forall_mem_cons.mp h
    have hn : c ≠ '\n' := by
      rintro rfl
      cases hc
    rw [flatMap_cons, escapeChar_eq hc]
    split
    · exact .escape hn (ih hcs)
    · rename_i hne
      rw [not_or] at hne
      exact .char hne.1 hne.2 hn (ih hcs)

theorem head?_escaped : (cs.flatMap (escapeChar false)).head? ≠ some '"' := by
  cases cs with
  | nil => simp
  | cons c cs =>
    rw [flatMap_cons, escapeChar_eq (h c (mem_cons_self ..))]
    split
    · simp
    · rename_i hne
      rw [not_or] at hne
      simpa using hne.1

/-- Resolving the quotes leaves the backslashes. A backslash before the end of an escape never meets
a quote that is not its own. -/
theorem replaceAll_quotes :
    replaceAll ['\\', '"'] ['"'] (cs.flatMap (escapeChar false)) = doubled cs := by
  rw [replaceAll, doubled]
  induction cs with
  | nil => rfl
  | cons c cs ih =>
    obtain ⟨hc, hcs⟩ := forall_mem_cons.mp h
    rw [flatMap_cons, flatMap_cons, escapeChar_eq hc, ← ih hcs]
    by_cases hq : c = '"'
    · subst hq
      simp [replaceFrom, startsWith, after?]
    · by_cases hb : c = '\\'
      · subst hb
        have hhead := head?_escaped hcs
        cases hrest : cs.flatMap (escapeChar false) with
        | nil => simp [replaceFrom, startsWith, after?]
        | cons d ds =>
          rw [hrest, head?_cons, Ne, Option.some.injEq] at hhead
          simp [replaceFrom, startsWith, after?, Ne.symm hhead]
      · simp [replaceFrom, startsWith, after?, hq, hb, Ne.symm hb]

theorem unquote_stringChars : unquote (stringChars false cs) = .ok cs := by
  rw [stringChars, unquote, dropLast_concat, replaceAll_quotes h, replaceAll_backslashes]

theorem read?_stringChars :
    read? (stringChars false cs) = .ok (some (.text (String.ofList cs))) := by
  have htrim : trim (stringChars false cs) = stringChars false cs := Text.trim_between rfl rfl _
  have hliteral : isStringLiteral quotes (stringChars false cs) :=
    (quoted_escaped h).isStringLiteral
  simp only [read?, htrim, hliteral, if_true, unquote_stringChars h]
  rfl

end Writable

end Literal

/-! ### Keys -/

namespace Member

variable {k : String}

theorem quotedRest?_eq (h : Quoted cs) (passed rest : List Char) :
    quotedRest? '"' passed (cs ++ '"' :: rest) = some (passed.reverse ++ cs, rest) := by
  induction h generalizing passed with
  | nil => simp [quotedRest?]
  | @char c cs hq hb _ _ ih =>
    rw [cons_append, quotedRest?.eq_3, if_neg (by simpa using hq), if_neg (by simpa using hb), ih]
    · simp
    · exact fun _ _ hd _ => hb hd
  | @escape c cs hn _ ih =>
    rw [cons_append, cons_append, quotedRest?, if_neg (by simpa using hn), ih]
    simp

/-- Keys that are written so that they can be read again. -/
def isReadableKey (k : String) : Bool :=
  k.toList.all fun c => Literal.isWritable c && c != '\\'

/-- A key as it is written. -/
def keyChars (k : String) : List Char :=
  if Identifier.isValid k then k.toList else Json.stringChars false k.toList

theorem key_eq (k : String) : Literal.key (.text k) = .ok (String.ofList (keyChars k)) := by
  rw [Literal.key, keyChars]
  simp only [Scalar.asText, Except.map]
  split <;> simp [Json.stringText]

theorem replaceAll_eq_self {old new : List Char} (hc : c ∉ cs) :
    replaceAll (c :: old) new cs = cs := by
  rw [replaceAll]
  induction cs with
  | nil => rfl
  | cons d ds ih =>
    rw [mem_cons, not_or] at hc
    rw [replaceFrom, if_neg (by simp [startsWith, after?, hc.1]), ih hc.2]

theorem unescape_escaped (h : ∀ c ∈ cs, Literal.isWritable c) (hb : '\\' ∉ cs) :
    keyStart?.unescape (cs.flatMap (Json.escapeChar false)) = cs := by
  have hdoubled : Literal.doubled cs = cs := by
    clear h
    rw [Literal.doubled]
    induction cs with
    | nil => rfl
    | cons c cs ih =>
      rw [mem_cons, not_or] at hb
      rw [flatMap_cons, ih hb.2, if_neg fun heq => hb.1 heq.symm]
      rfl
  rw [keyStart?.unescape, Literal.replaceAll_quotes h, hdoubled, replaceAll_eq_self hb]

theorem isName_of_isValid (hk : isReadableKey k) (hv : Identifier.isValid k) :
    Identifier.isName k.toList := by
  rw [Identifier.isValid, Identifier.isNameLine, Text.dropFinalNewline] at hv
  split at hv
  · rename_i rest heq
    have hmem : '\n' ∈ k.toList := by
      rw [← mem_reverse, heq]
      exact mem_cons_self ..
    have hnewline := all_eq_true.mp hk _ hmem
    cases hnewline
  · exact hv

theorem exists_of_isName (h : Identifier.isName cs) :
    ∃ c rest, cs = c :: rest ∧ isStart c ∧ ∀ x ∈ c :: rest, isPart x := by
  cases cs with
  | nil => cases h
  | cons c rest =>
    simp only [Identifier.isName, Bool.and_eq_true, all_eq_true] at h
    exact ⟨c, rest, rfl, h.1, forall_mem_cons.mpr ⟨isPart_of_isStart h.1, h.2⟩⟩

theorem isPart_of_isName (h : Identifier.isName cs) : ∀ c ∈ cs, isPart c := by
  obtain ⟨c, rest, rfl, -, hpart⟩ := exists_of_isName h
  exact hpart

/-- The mark of a field that may be missing. -/
def optionalMark (optional : Bool) : List Char := if optional then ['?'] else []

section Key

variable (hk : isReadableKey k)
include hk

theorem keyStart?_keyChars (optional : Bool) :
    keyStart? (keyChars k ++ optionalMark optional) = some (k.toList, optionalMark optional) := by
  rw [keyChars]
  split
  · rename_i hv
    obtain ⟨c, rest, hcs, hc, hpart⟩ := exists_of_isName (isName_of_isValid hk hv)
    rw [hcs, cons_append]
    have hquote : c ≠ '"' ∧ c ≠ '\x27' := by
      constructor <;> rintro rfl <;> cases hc
    have hrest : ∀ x ∈ rest, (isPart x || x == '-') := by
      intro x hx
      simp [hpart x (mem_cons_of_mem _ hx)]
    have htake :
        (rest ++ optionalMark optional).takeWhile (fun x => isPart x || x == '-') = rest := by
      rw [takeWhile_append_of_pos hrest]
      cases optional <;> simp [optionalMark, show isPart '?' = false from rfl]
    have hdrop : (rest ++ optionalMark optional).dropWhile (fun x => isPart x || x == '-') =
        optionalMark optional := by
      rw [dropWhile_append_of_pos hrest]
      cases optional <;> simp [optionalMark, show isPart '?' = false from rfl]
    rw [keyStart?]
    · rw [Identifier.leading?, if_pos hc, htake, hdrop]
    · exact fun _ heq => hquote.1 (cons.inj heq).1
    · exact fun _ heq => hquote.2 (cons.inj heq).1
  · have hall : ∀ c ∈ k.toList, Literal.isWritable c ∧ c ≠ '\\' := by
      simpa [isReadableKey] using hk
    have hwritable : ∀ c ∈ k.toList, Literal.isWritable c := fun c hc => (hall c hc).1
    rw [Json.stringChars, cons_append, append_assoc, singleton_append, keyStart?,
      quotedRest?_eq (Literal.quoted_escaped hwritable)]
    simp only [reverse_nil, nil_append, Option.map_some]
    rw [unescape_escaped hwritable fun hmem => (hall _ hmem).2 rfl]

theorem wholeKey?_keyChars (optional : Bool) :
    wholeKey? (keyChars k ++ optionalMark optional) = some (k.toList, optional) := by
  rw [wholeKey?, keyStart?_keyChars hk]
  cases optional <;> rfl

/-- A key is written as a name or between quotes. -/
theorem keyChars_cases :
    (∃ c rest, keyChars k = c :: rest ∧ isStart c ∧ ∀ x ∈ c :: rest, isPart x) ∨
      ∃ body, keyChars k = '"' :: (body ++ ['"']) ∧ Quoted body := by
  rw [keyChars]
  split
  · rename_i hv
    exact .inl (exists_of_isName (isName_of_isValid hk hv))
  · have hwritable : ∀ c ∈ k.toList, Literal.isWritable c := by
      simp only [isReadableKey, all_eq_true, Bool.and_eq_true] at hk
      exact fun c hc => (hk c hc).1
    exact .inr ⟨_, rfl, Literal.quoted_escaped hwritable⟩

theorem keyChars_ends :
    ∃ c d, (keyChars k).head? = some c ∧ (keyChars k).getLast? = some d ∧ (isStart c ∨ c = '"') ∧
      Text.isBlank d = false := by
  rcases keyChars_cases hk with ⟨c, rest, hcs, hc, hpart⟩ | ⟨body, hcs, -⟩
  · rw [hcs]
    exact ⟨c, _, rfl, getLast?_eq_some_getLast (by simp), .inl hc,
      isBlank_eq_false_of_isPart (hpart _ (getLast_mem _))⟩
  · refine ⟨'"', '"', by rw [hcs]; rfl, ?_, .inr rfl, rfl⟩
    rw [hcs, ← cons_append, getLast?_append]
    rfl

theorem balanced_keyChars {tracked : List Char} : Nested tracked isPart (keyChars k) := by
  rcases keyChars_cases hk with ⟨c, rest, hcs, -, hpart⟩ | ⟨body, hcs, hbody⟩
  · rw [hcs]
    exact .of_all fun x hx => ⟨isPlain_of_isPart (hpart x hx), hpart x hx⟩
  · rw [hcs]
    exact .literal hbody .nil

theorem trim_key (optional : Bool) :
    trim (keyChars k ++ optionalMark optional) = keyChars k ++ optionalMark optional := by
  obtain ⟨c, d, hc, hd, hfirst, hlast⟩ := keyChars_ends hk
  have hblank : Text.isBlank c = false := by
    rcases hfirst with hstart | rfl
    · exact isBlank_eq_false_of_isPart (isPart_of_isStart hstart)
    · rfl
  refine trim_eq_self ⟨c, by rw [head?_append, hc]; rfl, hblank⟩ ?_
  cases optional with
  | true => exact ⟨'?', by rw [getLast?_append]; rfl, rfl⟩
  | false => exact ⟨d, by rw [optionalMark, if_neg (by simp), append_nil, hd], hlast⟩

/-- A key does not look like a modifier before another key. -/
theorem key?_keyChars (optional : Bool) :
    key? (keyChars k ++ optionalMark optional) = some (k.toList, optional) := by
  rw [key?]
  split
  · rename_i c rest heq
    have hcs := Text.eq_append_of_after? heq
    have hblank : Text.isBlank c = false := by
      rw [keyChars] at hcs
      split at hcs
      · rename_i hv
        obtain ⟨d, ds, hds, -, hpart⟩ := exists_of_isName (isName_of_isValid hk hv)
        have hmem : c ∈ k.toList ++ optionalMark optional := by
          rw [hcs]
          simp
        rcases mem_append.mp hmem with hmem | hmem
        · exact isBlank_eq_false_of_isPart (hpart c (hds ▸ hmem))
        · cases optional with
          | true => rw [mem_singleton.mp hmem]; rfl
          | false => cases hmem
      · rw [Json.stringChars] at hcs
        cases hcs
    rw [if_neg (by simp [hblank]), wholeKey?_keyChars hk]
  · exact wholeKey?_keyChars hk optional

end Key

end Member

/-! ### Whole numbers -/

theorem toNat_of_isDigit (h : c.isDigit) : 48 ≤ c.toNat ∧ c.toNat ≤ 57 := by
  simp only [Char.isDigit, Bool.and_eq_true, decide_eq_true_eq] at h
  exact h

theorem digitValue?_of_isDigit (h : c.isDigit) :
    digitValue? c = some (c.toNat - 48) := by
  obtain ⟨hlow, hhigh⟩ := toNat_of_isDigit h
  have hle : '0' ≤ c := hlow
  have hge : c ≤ '9' := hhigh
  simp [digitValue?, hle, hge, show c.toNat < 128 by omega]

theorem isAlpha_of_isDigit (h : c.isDigit) : c.isAlpha = false := by
  obtain ⟨hlow, hhigh⟩ := toNat_of_isDigit h
  have hall : ∀ n ∈ List.range' 48 10, (Char.ofNat n).isAlpha = false := by decide
  have hc := hall c.toNat (by rw [mem_range'_1]; omega)
  rwa [Char.ofNat_toNat] at hc

theorem isPart_of_isDigit (h : c.isDigit) : isPart c := by
  obtain ⟨hlow, hhigh⟩ := toNat_of_isDigit h
  have hle : '0' ≤ c := hlow
  have hge : c ≤ '9' := hhigh
  rw [isPart, Text.isWord_of_ascii (by omega)]
  simp [Text.isAsciiWord, hle, hge]

namespace Number

theorem baseDigit?_ten (h : c.isDigit) : baseDigit? 10 c = some (c.toNat - 48) := by
  obtain ⟨hlow, hhigh⟩ := toNat_of_isDigit h
  simp [baseDigit?, digitValue?_of_isDigit h, show c.toNat - 48 < 10 by omega]

theorem digitsAfter_eq (h : ∀ c ∈ cs, c.isDigit) (passed : List Nat) :
    digitsAfter 10 passed true cs = some (passed.reverse ++ cs.map fun c => c.toNat - 48) := by
  induction cs generalizing passed with
  | nil => simp [digitsAfter]
  | cons c cs ih =>
    obtain ⟨hc, hcs⟩ := forall_mem_cons.mp h
    rw [digitsAfter.eq_3, baseDigit?_ten hc]
    · simp only [ih hcs]
      simp
    · rintro rfl
      cases hc

theorem digits?_eq (h : ∀ c ∈ cs, c.isDigit) (hne : cs ≠ []) :
    digits? 10 cs = some (cs.map fun c => c.toNat - 48) := by
  obtain ⟨c, cs, rfl⟩ := exists_cons_of_ne_nil hne
  obtain ⟨hc, hcs⟩ := forall_mem_cons.mp h
  rw [digits?, digitsAfter.eq_3, baseDigit?_ten hc]
  · simp only [digitsAfter_eq hcs]
    rfl
  · rintro rfl
    cases hc

theorem ofDigits_decimalDigits (n : Nat) :
    ofDigits 10 ((decimalDigits n).map fun c => c.toNat - 48) = n := by
  have hn := Nat.ofDigitChars_ten_toDigits (n := n)
  rw [Nat.ofDigitChars_eq_foldl] at hn
  simp only [Nat.mul_comm 10] at hn
  rw [ofDigits, foldl_map, decimalDigits]
  exact hn

theorem dropBaseMark_ten (cs : List Char) : dropBaseMark 10 cs = cs := by
  unfold dropBaseMark
  split <;> simp [baseMark]

end Number

section Integer

variable (i : Int)

/-- A whole number as it is written. -/
def intChars : List Char := (if i < 0 then ['-'] else []) ++ decimalDigits i.natAbs

theorem isDigit_decimalDigits {n : Nat} : ∀ c ∈ decimalDigits n, c.isDigit :=
  fun _ hc => Nat.isDigit_of_mem_toDigits (by decide) (by decide) hc

theorem trim_intChars (bs : List Char) (hb : ∀ c ∈ bs, isPart c) :
    trim (intChars i ++ bs) = intChars i ++ bs := by
  have hall : ∀ c ∈ intChars i ++ bs, Text.isBlank c = false := by
    intro c hc
    simp only [intChars, mem_append] at hc
    rcases hc with (hc | hc) | hc
    · split at hc
      · rw [mem_singleton.mp hc]; rfl
      · cases hc
    · exact isBlank_eq_false_of_isPart (isPart_of_isDigit (isDigit_decimalDigits c hc))
    · exact isBlank_eq_false_of_isPart (hb c hc)
  have hne : intChars i ++ bs ≠ [] := by
    simp [intChars, decimalDigits, Nat.toDigits_ne_nil]
  obtain ⟨c, cs, hcs⟩ := exists_cons_of_ne_nil hne
  exact trim_eq_self ⟨c, by rw [hcs]; rfl, hall c (by rw [hcs]; simp)⟩
    ⟨_, getLast?_eq_some_getLast hne, hall _ (getLast_mem hne)⟩

theorem exists_decimalDigits (n : Nat) :
    ∃ d ds, decimalDigits n = d :: ds ∧ d.isDigit := by
  obtain ⟨d, ds, hds⟩ := exists_cons_of_ne_nil (Nat.toDigits_ne_nil (n := n) (b := 10))
  exact ⟨d, ds, hds, isDigit_decimalDigits d (by rw [decimalDigits, hds]; simp)⟩

theorem unsigned_intChars (bs : List Char) :
    Literal.unsigned (intChars i ++ bs) = decimalDigits i.natAbs ++ bs := by
  obtain ⟨d, ds, hds, hd⟩ := exists_decimalDigits i.natAbs
  rw [intChars]
  split
  · rfl
  · rw [nil_append, hds, cons_append, Literal.unsigned]
    rintro rest heq
    rw [(cons.inj heq).1] at hd
    cases hd

namespace Literal

theorem isDecimal_decimalDigits {n : Nat} : ∀ c ∈ decimalDigits n, isDecimal c := by
  intro c hc
  rw [isDecimal, digitValue?_of_isDigit (isDigit_decimalDigits c hc)]
  rfl

theorem isInteger_intChars : isInteger (intChars i) := by
  have hunsigned := unsigned_intChars i []
  rw [append_nil, append_nil] at hunsigned
  obtain ⟨d, ds, hds, -⟩ := exists_decimalDigits i.natAbs
  rw [isInteger, hunsigned, isDigits, Bool.and_eq_true, all_eq_true]
  exact ⟨by rw [hds]; rfl, isDecimal_decimalDigits⟩

theorem isNumber_intChars (bs : List Char)
    (hb : ∀ c, bs.head? = some c → isDecimal c = false ∧ c ≠ '.') :
    isNumber (intChars i ++ bs) = isNumberEnd bs := by
  obtain ⟨d, ds, hds, -⟩ := exists_decimalDigits i.natAbs
  have htake : (decimalDigits i.natAbs ++ bs).takeWhile isDecimal = decimalDigits i.natAbs := by
    rw [takeWhile_append_of_pos isDecimal_decimalDigits]
    cases bs with
    | nil => simp
    | cons b bs => simp [(hb b rfl).1]
  have hdrop : (decimalDigits i.natAbs ++ bs).dropWhile isDecimal = bs := by
    rw [dropWhile_append_of_pos isDecimal_decimalDigits]
    cases bs with
    | nil => rfl
    | cons b bs => simp [(hb b rfl).1]
  unfold isNumber
  simp only [unsigned_intChars, htake, hdrop]
  split
  · exact absurd rfl (hb '.' rfl).2
  · simp [hds]

/-- A whole number is read back if it does not have too many digits. -/
theorem integer_intChars :
    integer (intChars i) =
      if (decimalDigits i.natAbs).length ≤ digitLimit then .ok (.int i)
      else .error .unreadableNumber := by
  have htrim := trim_intChars i [] (by simp)
  rw [append_nil] at htrim
  obtain ⟨d, ds, hds, hd⟩ := exists_decimalDigits i.natAbs
  have hsign : Number.splitSign (intChars i) = (decide (i < 0), decimalDigits i.natAbs) := by
    rw [intChars]
    split
    · rename_i hneg
      simp [Number.splitSign, hneg]
    · rename_i hneg
      have hminus : d ≠ '-' := by
        rintro rfl
        cases hd
      have hplus : d ≠ '+' := by
        rintro rfl
        cases hd
      rw [nil_append, hds, Number.splitSign]
      · simp [hneg]
      · exact fun _ heq => hminus (cons.inj heq).1
      · exact fun _ heq => hplus (cons.inj heq).1
  have hdigits := Number.digits?_eq (isDigit_decimalDigits (n := i.natAbs)) (by rw [hds]; simp)
  have hread : Number.integer? 10 (intChars i) =
      if (decimalDigits i.natAbs).length ≤ digitLimit then some i else none := by
    rw [Number.integer?, htrim, hsign]
    simp only [Number.dropBaseMark_ten, hdigits, length_map, BEq.rfl, Bool.true_and,
      Number.ofDigits_decimalDigits, decide_eq_true_eq, Int.ofNat_eq_natCast, ← Nat.not_le, ite_not]
    split
    · split <;> congr 1 <;> omega
    · rfl
  by_cases h : (decimalDigits i.natAbs).length ≤ digitLimit <;>
    simp only [integer, hread, h, if_true, if_false]

theorem isStringLiteral_intChars (bs : List Char) :
    isStringLiteral quotes (intChars i ++ bs) = false := by
  obtain ⟨d, ds, hds, hd⟩ := exists_decimalDigits i.natAbs
  rw [intChars, hds]
  split
  · exact isStringLiteral_of_head (by decide) _
  · refine isStringLiteral_of_head ?_ _
    constructor <;> rintro rfl <;> cases hd

theorem isAtomChar_intChars (hbs : ∀ c ∈ bs, isPart c) : ∀ c ∈ intChars i ++ bs, isAtomChar c := by
  intro c hc
  rw [intChars, append_assoc] at hc
  rcases mem_append.mp hc with hc | hc
  · split at hc
    · rw [mem_singleton.mp hc]
      rfl
    · cases hc
  · have hpart : isPart c := (mem_append.mp hc).elim
      (fun hc => isPart_of_isDigit (isDigit_decimalDigits c hc)) (hbs c)
    simp [isAtomChar, hpart]

theorem fragment_intChars (hbs : ∀ c ∈ bs, isPart c) : Fragment isAtomChar (intChars i ++ bs) := by
  have hpart : ∀ c ∈ decimalDigits i.natAbs ++ bs, isPart c :=
    forall_mem_append.mpr ⟨fun c hc => isPart_of_isDigit (isDigit_decimalDigits c hc), hbs⟩
  obtain ⟨d, ds, hds, hd⟩ := exists_decimalDigits i.natAbs
  have hword : decimalDigits i.natAbs ++ bs ≠ "readonly".toList := by
    rw [hds]
    intro heq
    cases (cons.inj heq).1
    cases hd
  have hdigits : Fragment isAtomChar (decimalDigits i.natAbs ++ bs) :=
    .of_word (by simp [hds]) hpart hword
  rw [intChars]
  split
  · have hsign : (['-'] ++ decimalDigits i.natAbs ++ bs) =
        '-' :: (decimalDigits i.natAbs ++ bs) := rfl
    rw [hsign]
    refine ⟨⟨.plain rfl rfl hdigits.balanced, ⟨'-', rfl, rfl⟩, ?_⟩, ?_⟩
    · obtain ⟨c, hc, hlast⟩ := hdigits.last
      exact ⟨c, by rw [getLast?_cons, hc]; rfl, hlast⟩
    · rw [takeWhile_cons_of_neg (by decide)]
      decide
  · exact hdigits

theorem read?_intChars : read? (intChars i) = (integer (intChars i)).map some := by
  have htrim := trim_intChars i [] (by simp)
  have hnumber := isNumber_intChars i [] (by simp)
  have hstring := isStringLiteral_intChars i []
  rw [append_nil] at htrim hnumber hstring
  simp only [read?, htrim, hstring, hnumber, isNumberEnd, isInteger_intChars, Bool.false_eq_true,
    if_false, if_true]

theorem read?_bigIntChars {i : Int} (h : (decimalDigits i.natAbs).length ≤ digitLimit) :
    read? (intChars i ++ ['n']) = .ok (some (.int i)) := by
  have htrim := trim_intChars i ['n'] (by simp; rfl)
  have hnumber : isNumber (intChars i ++ ['n']) = false :=
    isNumber_intChars i ['n'] (by rintro c ⟨⟩; decide)
  have hbig : isBigInteger (intChars i ++ ['n']) := by
    rw [isBigInteger, dropLast_concat, isInteger_intChars, getLast?_append]
    rfl
  have hstring := isStringLiteral_intChars i ['n']
  simp only [read?, htrim, hstring, hnumber, hbig, dropLast_concat, integer_intChars, h,
    Bool.false_eq_true, if_false, if_true]
  rfl

/-- The mark of an integer that a number may not hold. -/
def exactMark : List Char := if isUnsafeInteger (.int i) then ['n'] else []

theorem isPart_exactMark : ∀ c ∈ exactMark i, isPart c := by
  rw [exactMark]
  split
  · exact forall_mem_of_all rfl
  · simp

theorem exactScript_int {i : Int} (h : (decimalDigits i.natAbs).length ≤ digitLimit) :
    exactScript (.int i) = .ok (String.ofList (intChars i ++ exactMark i)) := by
  rw [exactScript, exactMark]
  split
  · rw [Value.printed_int h, String.ofList_append]
    rfl
  · rw [append_nil]
    exact Value.printed_int h

theorem read?_exact {i : Int} (h : (decimalDigits i.natAbs).length ≤ digitLimit) :
    read? (intChars i ++ exactMark i) = .ok (some (.int i)) := by
  rw [exactMark]
  split
  · exact read?_bigIntChars h
  · rw [append_nil, read?_intChars, integer_intChars, if_pos h]
    rfl

/-- Texts that are read one by one are an enumeration of them. -/
theorem enumeration?_texts {us : List (List Char)} {ss : List String} (hne : ss ≠ [])
    (hread : us.mapM read? = .ok (ss.map fun s => some (.text s))) :
    enumeration? us = .ok (some (ss.map .text)) := by
  have hpresent : ((ss.map fun s => some (Value.text s)).isEmpty ||
      (ss.map fun s => some (Value.text s)).any Option.isNone) = false := by
    simp [hne]
  have hvalues : (ss.map fun s => some (Value.text s)).filterMap id = ss.map .text := by
    simp [filterMap_map]
  have hall : (ss.map .text).all isTextValue := by simp [isTextValue]
  simp only [enumeration?, hread, Bind.bind, Except.bind, hpresent, hvalues, hall]
  rfl

end Literal

end Integer

/-- Names are kept as they are. -/
theorem Identifier.sanitize_eq {name : String} (h : isName name.toList) : sanitize name = name := by
  have hline : Text.dropFinalNewline name.toList = name.toList := by
    obtain ⟨c, rest, hname, -, hpart⟩ := Member.exists_of_isName h
    unfold Text.dropFinalNewline
    split
    · rename_i rest heq
      have hmem : '\n' ∈ name.toList := by
        rw [← mem_reverse, heq]
        exact mem_cons_self ..
      rw [hname] at hmem
      cases hpart _ hmem
    · rfl
  rw [sanitize, isValid, isNameLine, hline, if_pos h]

end Crosswalk
