import Crosswalk.Proofs.ScriptLiterals
import Crosswalk.Proofs.TargetDemands

/-!
The texts of values. A string is a closed literal whatever it holds, a number has no character with
a meaning for the walk, and so the text of a value is balanced.
-/

namespace Crosswalk

open List

variable {c : Char} {cs : List Char} {n : Nat}

/-! ### Characters -/

/-- The characters that have a meaning for the walk. -/
def marks : List Char := ['"', '\x27', '\x60', '{', '(', '[', '<', '}', ')', ']', '>', '=']

theorem mem_marks_of_isPlain (h : isPlain c = false) : c ∈ marks := by
  rw [isPlain, Bool.and_eq_false_iff, Bool.and_eq_false_iff, Bool.and_eq_false_iff] at h
  rcases h with ((hquote | hopener) | hcloser) | hequals
  · simp only [isQuote, Bool.not_eq_false', Bool.or_eq_true, beq_iff_eq] at hquote
    rcases hquote with (rfl | rfl) | rfl <;> decide
  · obtain ⟨d, hd⟩ : ∃ d, Delimiter.ofOpener? c = some d := by
      simpa [Option.isSome_iff_exists] using hopener
    have heq : d.opener = c := by simpa using find?_some hd
    rw [← heq]
    cases d <;> decide
  · obtain ⟨d, hd⟩ : ∃ d, Delimiter.ofCloser? c = some d := by
      simpa [Option.isSome_iff_exists] using hcloser
    have heq : d.closer = c := by simpa using find?_some hd
    rw [← heq]
    cases d <;> decide
  · rw [bne_eq_false_iff_eq.mp hequals]
    decide

/-- A class of characters without a mark is plain. -/
theorem isPlain_of_class {p : Char → Bool} (hp : ∀ d ∈ marks, p d = false) (hc : p c) :
    isPlain c := by
  by_contra hne
  have hmark := hp c (mem_marks_of_isPlain (by simpa using hne))
  rw [hc] at hmark
  cases hmark

theorem isPlain_of_isNumeral (h : Literal.isNumeral c) : isPlain c :=
  isPlain_of_class (forall_mem_of_all rfl) h

namespace Text

theorem isAlphanum_of_mem_toDigits : ∀ c ∈ Nat.toDigits 16 n, c.isAlphanum := by
  have hdigit (k : Nat) (hk : k < 16) : (Nat.digitChar k).isAlphanum := by
    revert k
    decide
  induction n using Nat.strong_induction_on with
  | _ n ih =>
    rw [Nat.toDigits_eq_if (by decide)]
    split
    · rename_i hlt
      simpa using hdigit n hlt
    · rename_i hge
      intro c hc
      rcases mem_append.mp hc with hc | hc
      · exact ih (n / 16) (by omega) c hc
      · rw [mem_singleton.mp hc]
        exact hdigit (n % 16) (Nat.mod_lt _ (by decide))

theorem isAlphanum_of_mem_hexDigits {width : Nat} : ∀ c ∈ hexDigits width n, c.isAlphanum := by
  intro c hc
  rcases mem_append.mp hc with hc | hc
  · rw [eq_of_mem_replicate hc]
    rfl
  · exact isAlphanum_of_mem_toDigits c hc

end Text

/-! ### Strings -/

namespace Json

theorem quoted_append {as : List Char} (ha : ∀ c ∈ as, c.isAlphanum) (h : Quoted cs) :
    Quoted (as ++ cs) := by
  induction as with
  | nil => exact h
  | cons c as ih =>
    rw [forall_mem_cons] at ha
    refine .char ?_ ?_ ?_ (ih ha.2) <;> rintro rfl <;> cases ha.1

theorem quoted_unitEscape (n : Nat) (h : Quoted cs) : Quoted (unitEscape n ++ cs) :=
  .escape (by decide) (quoted_append Text.isAlphanum_of_mem_hexDigits h)

/-- A character of a string never ends it: quotes and backslashes are escaped, and so are
newlines. -/
theorem quoted_escapeChar (ascii : Bool) (c : Char) (h : Quoted cs) :
    Quoted (escapeChar ascii c ++ cs) := by
  have hshort (d : Char) (hd : d ≠ '\n') : Quoted (['\\', d] ++ cs) := .escape hd h
  have hchoice {p : Prop} [Decidable p] {as bs : List Char} (ha : p → Quoted (as ++ cs))
      (hb : ¬p → Quoted (bs ++ cs)) : Quoted ((if p then as else bs) ++ cs) := by
    split
    · exact ha ‹_›
    · exact hb ‹_›
  unfold escapeChar
  refine hchoice (fun _ => hshort '"' (by decide)) fun hquote => ?_
  refine hchoice (fun _ => hshort '\\' (by decide)) fun hslash => ?_
  refine hchoice (fun _ => hshort 'n' (by decide)) fun hnewline => ?_
  refine hchoice (fun _ => hshort 'r' (by decide)) fun _ => ?_
  refine hchoice (fun _ => hshort 't' (by decide)) fun _ => ?_
  refine hchoice (fun _ => hshort 'f' (by decide)) fun _ => ?_
  refine hchoice (fun _ => hshort 'b' (by decide)) fun _ => ?_
  refine hchoice (fun _ => quoted_unitEscape _ h) fun _ => ?_
  refine hchoice (fun _ => hchoice (fun _ => quoted_unitEscape _ h) fun _ => ?_) fun _ => ?_
  · -- beyond the first plane a character is two units
    rw [append_assoc]
    exact quoted_unitEscape _ (quoted_unitEscape _ h)
  · exact .char (by simpa using hquote) (by simpa using hslash) (by simpa using hnewline) h

theorem quoted_string (ascii : Bool) (cs : List Char) : Quoted (cs.flatMap (escapeChar ascii)) := by
  induction cs with
  | nil => exact .nil
  | cons c cs ih => exact quoted_escapeChar ascii c ih

end Json

/-! ### Numbers -/

namespace NumberLayout

open Literal (isNumeral isDecimal_decimalDigits)

theorem isNumeral_of_mem_zeros : ∀ c ∈ zeros n, isNumeral c := by
  intro c hc
  rw [eq_of_mem_replicate hc]
  rfl

theorem isNumeral_of_mem_decimalDigits : ∀ c ∈ decimalDigits n, isNumeral c := by
  intro c hc
  simp [isNumeral, isDecimal_decimalDigits c hc]

variable {l : NumberLayout} {ds : List Char}

theorem isNumeral_exponentText (e : Int) : ∀ c ∈ l.exponentText e, isNumeral c := by
  have hsign : isNumeral (if e < 0 then '-' else '+') := by split <;> rfl
  rw [exponentText, forall_mem_cons, forall_mem_cons, forall_mem_append]
  exact ⟨rfl, hsign, isNumeral_of_mem_zeros, isNumeral_of_mem_decimalDigits⟩

theorem isNumeral_digitsText (h : ∀ c ∈ ds, isNumeral c) (lead : Int) :
    ∀ c ∈ l.digitsText ds lead, isNumeral c := by
  have htake (n : Nat) : ∀ c ∈ ds.take n, isNumeral c :=
    fun c hc => h c (mem_of_mem_take hc)
  have hdrop (n : Nat) : ∀ c ∈ ds.drop n, isNumeral c :=
    fun c hc => h c (mem_of_mem_drop hc)
  have hpoint {cs : List Char} (hcs : ∀ c ∈ cs, isNumeral c) :
      ∀ c ∈ '.' :: cs, isNumeral c := forall_mem_cons.mpr ⟨rfl, hcs⟩
  unfold digitsText
  dsimp only
  split
  · split
    · exact forall_mem_cons.mpr
        ⟨rfl, hpoint (forall_mem_append.mpr ⟨isNumeral_of_mem_zeros, h⟩)⟩
    · refine forall_mem_append.mpr
        ⟨forall_mem_append.mpr ⟨htake _, isNumeral_of_mem_zeros⟩, ?_⟩
      split
      · split
        · exact forall_mem_of_all rfl
        · simp
      · exact hpoint (hdrop _)
  · refine forall_mem_append.mpr
      ⟨forall_mem_append.mpr ⟨htake 1, ?_⟩, isNumeral_exponentText lead⟩
    split
    · simp
    · exact hpoint (hdrop 1)

/-- The text of a number has digits, letters, signs and points only. -/
theorem isNumeral_write (hnan : ∀ c ∈ l.nan.toList, isNumeral c)
    (hinfinity : ∀ c ∈ l.infinity.toList, isNumeral c) (x : Binary64) :
    ∀ c ∈ (l.write x).toList, isNumeral c := by
  have hsign (negative : Bool) : ∀ c ∈ (if negative then "-" else "").toList, isNumeral c := by
    cases negative <;> exact forall_mem_of_all rfl
  cases x with
  | nan => exact hnan
  | infinity negative =>
    rw [write, String.toList_append]
    exact forall_mem_append.mpr ⟨hsign negative, hinfinity⟩
  | finite negative m e =>
    rw [write, String.toList_append, String.toList_ofList]
    refine forall_mem_append.mpr ⟨hsign negative, ?_⟩
    split
    · exact isNumeral_digitsText (forall_mem_of_all rfl) 0
    · refine isNumeral_digitsText ?_ _
      intro c hc
      rw [mem_reverse] at hc
      exact isNumeral_of_mem_decimalDigits c
        (mem_reverse.mp ((dropWhile_sublist _).subset hc))

end NumberLayout

theorem isNumeral_intText (i : Int) : ∀ c ∈ (intText i).toList, Literal.isNumeral c := by
  rw [intText, String.toList_ofList]
  refine forall_mem_append.mpr ⟨?_, NumberLayout.isNumeral_of_mem_decimalDigits⟩
  split <;> exact forall_mem_of_all rfl

/-! ### Values -/

namespace Json

variable {tracked : List Char} {ok : Char → Bool} {ascii : Bool}

variable {ts : List String}

theorem nested_stringText (s : String) : Nested tracked ok (stringText s ascii).toList := by
  rw [stringText, String.toList_ofList, stringChars]
  exact .literal (quoted_string ascii s.toList) .nil

/-- What is no string has digits, letters, signs and points only. -/
theorem isNumeral_scalarText? {s : Scalar} {t : String} (hs : s.text? = none)
    (h : scalarText? ascii s = some t) : ∀ c ∈ t.toList, Literal.isNumeral c := by
  cases s with
  | null =>
    cases h
    exact forall_mem_of_all rfl
  | bool b =>
    cases h
    cases b <;> exact forall_mem_of_all rfl
  | int i =>
    simp only [scalarText?] at h
    split at h
    · cases h
      exact isNumeral_intText i
    · cases h
  | float x =>
    cases h
    exact NumberLayout.isNumeral_write (forall_mem_of_all rfl) (forall_mem_of_all rfl) x
  | text s => cases hs
  | date | moment | bytes => cases h

theorem nested_scalarText? (hok : ∀ c, Literal.isNumeral c → ok c) {s : Scalar}
    {t : String} (h : scalarText? ascii s = some t) : Nested tracked ok t.toList := by
  cases hs : s.text? with
  | some text =>
    obtain rfl : s = .text text := by
      cases s <;> cases hs
      rfl
    cases h
    exact nested_stringText text
  | none =>
    have hnumeral := isNumeral_scalarText? hs h
    exact .of_all fun c hc => ⟨isPlain_of_isNumeral (hnumeral c hc), hok c (hnumeral c hc)⟩

/-- On one line the members of a collection have a comma between them. -/
theorem toList_enclose_line (level : Nat) (opening closing : String) (members : List String) :
    (({ ascii : Layout }).enclose level opening closing members).toList =
      opening.toList ++ (", ".intercalate members).toList ++ closing.toList := by
  rw [← String.toList_append, ← String.toList_append]
  cases members with
  | nil => simp [Layout.enclose]
  | cons t ts => simp [Layout.enclose, Layout.lineBreak, Layout.separator]

theorem writeItems?_cons {l : Layout} {level : Nat} {v : Value} {vs : List Value}
    (h : l.writeItems? level (v :: vs) = some ts) :
    ∃ t us, l.write? level v = some t ∧ l.writeItems? level vs = some us ∧ ts = t :: us := by
  rw [Layout.writeItems?] at h
  split at h
  case h_1 t us ht hus =>
    cases h
    exact ⟨t, us, ht, hus, rfl⟩
  case h_2 => cases h

theorem writeEntries?_cons {l : Layout} {level : Nat} {k : Scalar} {v : Value}
    {es : List (Scalar × Value)} (h : l.writeEntries? level ((k, v) :: es) = some ts) :
    ∃ key t us, keyText? k = some key ∧ l.write? level v = some t ∧
      l.writeEntries? level es = some us ∧ ts = (stringText key l.ascii ++ ": " ++ t) :: us := by
  rw [Layout.writeEntries?] at h
  split at h
  case h_1 key t us hkey ht hus =>
    cases h
    exact ⟨key, t, us, hkey, ht, hus, rfl⟩
  case h_2 => cases h

/-- Members with commas between them, none of which is a mark. -/
theorem nested_members (hok : ok ',' ∧ ok ' ')
    (h : ∀ t ∈ ts, Nested tracked ok t.toList) :
    Nested tracked ok (", ".intercalate ts).toList := by
  rw [String.toList_intercalate]
  by_cases hne : ts = []
  · subst hne
    exact .nil
  · exact forall_intercalate (fun hu hv => hu.append (.plain rfl hok.1 (.plain rfl hok.2 hv)))
      (forall_mem_map.mpr h) (by simpa using hne)

theorem nested_group (d : Delimiter) (hd : d.opener ∈ tracked)
    (h : Nested tracked (fun _ => true) cs) :
    Nested tracked ok (d.opener :: (cs ++ [d.closer])) :=
  .group d hd h .nil

mutual

/-- The text of a value is balanced. -/
theorem nested_write? (hbrace : '{' ∈ tracked) (hbracket : '[' ∈ tracked) {level : Nat} :
    ∀ {v : Value} {t : String}, ({ ascii : Layout }).write? level v = some t →
      Nested tracked (fun _ => true) t.toList
  | .scalar _, _, h => nested_scalarText? (fun _ _ => rfl) h
  | .list vs, _, h => by
    obtain ⟨ts, hts, rfl⟩ := Option.map_eq_some_iff.mp h
    rw [toList_enclose_line]
    exact nested_group .bracket hbracket
      (nested_members ⟨rfl, rfl⟩ (nested_writeItems? hbrace hbracket hts))
  | .map es, _, h => by
    obtain ⟨ts, hts, rfl⟩ := Option.map_eq_some_iff.mp h
    rw [toList_enclose_line]
    exact nested_group .brace hbrace
      (nested_members ⟨rfl, rfl⟩ (nested_writeEntries? hbrace hbracket hts))

theorem nested_writeItems? (hbrace : '{' ∈ tracked) (hbracket : '[' ∈ tracked) {level : Nat} :
    ∀ {vs : List Value} {ts : List String}, ({ ascii : Layout }).writeItems? level vs = some ts →
      ∀ t ∈ ts, Nested tracked (fun _ => true) t.toList
  | [], _, h => by
    cases h
    simp
  | v :: vs, _, h => by
    obtain ⟨t, us, ht, hus, rfl⟩ := writeItems?_cons h
    exact forall_mem_cons.mpr
      ⟨nested_write? hbrace hbracket ht, nested_writeItems? hbrace hbracket hus⟩

theorem nested_writeEntries? (hbrace : '{' ∈ tracked) (hbracket : '[' ∈ tracked) {level : Nat} :
    ∀ {es : List (Scalar × Value)} {ts : List String},
      ({ ascii : Layout }).writeEntries? level es = some ts →
        ∀ t ∈ ts, Nested tracked (fun _ => true) t.toList
  | [], _, h => by
    cases h
    simp
  | (k, v) :: es, _, h => by
    obtain ⟨key, t, us, _, ht, hus, rfl⟩ := writeEntries?_cons h
    refine forall_mem_cons.mpr ⟨?_, nested_writeEntries? hbrace hbracket hus⟩
    rw [String.toList_append, String.toList_append]
    exact ((nested_stringText key).append (.plain rfl rfl (.plain rfl rfl .nil))).append
      (nested_write? hbrace hbracket ht)

end

end Json

end Crosswalk
