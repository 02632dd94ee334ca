import Crosswalk.Proofs.CrossedText
import Crosswalk.Proofs.ErasedText
import Crosswalk.Proofs.GraphTypes

/-!
Definitions of GraphQL fields. Directives are taken away before a default is told from its type,
also where they stand in a text. Main statement: a definition that is written out is read back, but
for what looks like a directive in the texts of its defaults.
-/

namespace Crosswalk.GraphQL

open List Text.Pattern
open Text (Pattern isBlank isWord trim)

/-! ### Directives -/

/-- Text that is part of no directive in front of it. -/
def IsInert (cs : List Char) : Prop :=
  ∀ c ∈ cs, isWord c = false ∧ c ≠ '@' ∧ c ≠ ')'

/-- A directive stands in the text: a mark with a word behind it. -/
def HoldsDirective (cs : List Char) : Prop :=
  ∃ before c after, cs = before ++ '@' :: c :: after ∧ isWord c = true

variable {prev : Option Char} {cs rest : List Char} {c : Char}

theorem spans_directive {gap : Pattern} (h : (directive gap).Spans prev cs rest) :
    ∃ c after, cs = '@' :: c :: after ∧ isWord c := by
  obtain ⟨y, z, rfl, ⟨u, v, rfl, hu, hv⟩, -⟩ := h
  obtain ⟨hne, hword⟩ := spans_run1.mp hv
  obtain ⟨c, w, rfl⟩ := exists_cons_of_ne_nil hne
  rw [spans_char.mp hu]
  exact ⟨c, w ++ z, rfl, hword c (mem_cons_self ..)⟩

theorem fails_directive {gap : Pattern}
    (h : ∀ c after, cs = '@' :: c :: after → isWord c = false) : (directive gap).Fails prev cs := by
  rintro x rest rfl hx
  obtain ⟨c, after, rfl, hc⟩ := spans_directive hx
  rw [h c (after ++ rest) rfl] at hc
  cases hc

theorem occurs_directive_iff {gap : Pattern} :
    (directive gap).Occurs prev cs ↔ HoldsDirective cs := by
  constructor
  · rintro ⟨x, y, z, rfl, hy⟩
    obtain ⟨c, after, rfl, hc⟩ := spans_directive hy
    exact ⟨x, c, after ++ z, rfl, hc⟩
  · rintro ⟨before, c, after, rfl, hc⟩
    refine ⟨before, ['@', c], after, rfl, ['@', c], [], rfl,
      ⟨['@'], [c], rfl, spans_char.mpr rfl, ?_⟩, .inr rfl⟩
    exact spans_run1.mpr ⟨by simp, by simpa using hc⟩

/-- What may stand behind the word of a directive. -/
abbrev call : Pattern := blanks ++ char '(' ++ .run (· != ')') ++ char ')'

theorem spans_call (h : call.Spans prev cs rest) :
    ∃ gap inner, cs = gap ++ '(' :: (inner ++ [')']) ∧ ∀ c ∈ gap, isBlank c := by
  obtain ⟨_, _, rfl, ⟨_, inner, rfl, ⟨gap, _, rfl, hgap, hopen⟩, -⟩, hclose⟩ := h
  rw [spans_char.mp hopen, spans_char.mp hclose]
  exact ⟨gap, inner, by simp, hgap⟩

/-- Whether a call follows is settled within the text. -/
theorem call_or_fails (cs : List Char) :
    (∃ gap inner after, cs = gap ++ '(' :: (inner ++ ')' :: after) ∧ (∀ c ∈ gap, isBlank c) ∧
        ')' ∉ inner) ∨
      ∀ prev suffix, IsInert suffix → call.Fails prev (cs ++ suffix) := by
  by_cases hcall : ∃ gap inner, gap ++ '(' :: inner = cs ∧ (∀ c ∈ gap, isBlank c) ∧ ')' ∈ inner
  · obtain ⟨gap, inner, rfl, hgap, hinner⟩ := hcall
    obtain ⟨before, after, rfl, hbefore⟩ := eq_append_cons_of_mem hinner
    exact .inl ⟨gap, before, after, rfl, hgap, hbefore⟩
  · refine .inr fun prev suffix hsuffix x rest hx hspans => hcall ?_
    obtain ⟨gap, inner, rfl, hgap⟩ := spans_call hspans
    rcases append_eq_append_iff.mp hx with ⟨more, hmore, rfl⟩ | ⟨after, rfl, -⟩
    · -- The closer would stand in the suffix, unless the call ends where the text does.
      have hlast : (cs ++ more).getLast? = some ')' := by
        rw [← hmore, ← cons_append, ← append_assoc, getLast?_concat]
      have hnil : more = [] := by
        by_contra hne
        rw [getLast?_append_of_ne_nil _ hne] at hlast
        exact (hsuffix _ (mem_append_left _ (mem_of_getLast? hlast))).2.2 rfl
      rw [hnil, append_nil] at hmore
      exact ⟨gap, inner ++ [')'], hmore, hgap, by simp⟩
    · exact ⟨gap, inner ++ ')' :: after, by simp, hgap, by simp⟩

/-- The directive at the start of a text, whatever follows the text. -/
theorem exists_directive (hc : isWord c) (cs : List Char) :
    ∃ x rest, '@' :: c :: cs = x ++ rest ∧ x ≠ [] ∧ ∀ prev suffix, IsInert suffix →
      Offers (directive blanks) prev x (rest ++ suffix) [] [] := by
  obtain ⟨more, behind, hcs, hmore, hbehind⟩ : ∃ more behind, cs = more ++ behind ∧
      (∀ d ∈ more, isWord d) ∧ ∀ d ∈ behind.head?, isWord d = false :=
    ⟨cs.takeWhile isWord, cs.dropWhile isWord, takeWhile_append_dropWhile.symm,
      fun d hd => all_eq_true.mp all_takeWhile d hd, fun d hd => by
        have hhead := head?_dropWhile_not isWord cs
        rwa [Option.mem_def.mp hd] at hhead⟩
  have hword (prev : Option Char) {suffix : List Char}
      (hsuffix : ∀ d ∈ suffix.head?, isWord d = false) :
      Offers (char '@' ++ run1 isWord) prev (['@'] ++ c :: more) suffix [] [] :=
    Offers.char.seq (.run1 (forall_mem_cons.mpr ⟨hc, hmore⟩) hsuffix)
  subst hcs
  rcases call_or_fails behind with ⟨gap, inner, after, rfl, hgap, hinner⟩ | hfails
  · refine ⟨(['@'] ++ c :: more) ++ (gap ++ ['('] ++ inner ++ [')']), after, by simp, by simp,
      fun prev suffix _ => ?_⟩
    refine (hword prev ?_).seq
      (.alt_left (.seq (.seq (.seq (.run hgap ?_) .char) (.run ?_ ?_)) .char))
    · intro d hd
      refine hbehind d ?_
      cases gap <;> simpa using hd
    · intro d hd
      cases hd
      rfl
    · intro d hd
      simpa using fun heq : d = ')' => hinner (heq ▸ hd)
    · simp
  · refine ⟨['@'] ++ c :: more, behind, by simp, by simp, fun prev suffix hsuffix => ?_⟩
    have hempty :
        Offers (maybe call) ((['@'] ++ c :: more).getLast?.or prev) [] (behind ++ suffix) [] [] :=
      .maybe (hfails _ suffix hsuffix)
    have hend : ∀ d ∈ ([] ++ (behind ++ suffix)).head?, isWord d = false := by
      intro d hd
      cases behind with
      | nil => exact (hsuffix d (mem_of_mem_head? hd)).1
      | cons e behind => exact hbehind d hd
    have hall := (hword prev hend).seq hempty
    rwa [append_nil] at hall

/-! ### Texts without directives -/

theorem fails_of_ne_at (hc : c ≠ '@') (prev : Option Char) (cs : List Char) :
    (directive blanks).Fails prev (c :: cs) :=
  fails_directive fun _ _ heq => absurd (cons.inj heq).1 hc

theorem erased_append {out : List Char} (h : '@' ∉ cs)
    (hrest : ∀ prev, Erased (directive blanks) prev rest out) (prev : Option Char) :
    Erased (directive blanks) prev (cs ++ rest) (cs ++ out) :=
  .append_left (fun _ hd => fails_of_ne_at fun heq => h (heq ▸ hd)) hrest prev

/-- Directives are taken away from a text in the same way whatever follows it. -/
theorem exists_erased (cs : List Char) :
    ∃ out, ∀ prev suffix, IsInert suffix →
      Erased (directive blanks) prev (cs ++ suffix) (out ++ suffix) := by
  induction hn : cs.length using Nat.strong_induction_on generalizing cs with
  | h n ih =>
    subst hn
    cases cs with
    | nil =>
      refine ⟨[], fun prev suffix hsuffix => ?_⟩
      have hat : '@' ∉ suffix := fun hmem => (hsuffix _ hmem).2.1 rfl
      have hnil (prev : Option Char) : Erased (directive blanks) prev [] [] :=
        .nil (fails_directive fun _ _ heq => by cases heq)
      simpa using erased_append hat hnil prev
    | cons c cs =>
      by_cases hat : ∃ d after, c = '@' ∧ cs = d :: after ∧ isWord d
      · obtain ⟨d, after, rfl, rfl, hd⟩ := hat
        obtain ⟨x, rest, hx, hne, hoffers⟩ := exists_directive hd after
        have hlength : rest.length < ('@' :: d :: after).length := by
          rw [hx, length_append]
          exact Nat.lt_add_of_pos_left (length_pos_iff.mpr hne)
        obtain ⟨out, hout⟩ := ih rest.length hlength rest rfl
        refine ⟨out, fun prev suffix hsuffix => ?_⟩
        rw [hx, append_assoc]
        exact .drop hne (hoffers prev suffix hsuffix) (hout _ suffix hsuffix)
      · obtain ⟨out, hout⟩ := ih cs.length (Nat.lt_succ_self _) cs rfl
        refine ⟨c :: out,
          fun prev suffix hsuffix => .keep (fails_directive ?_) (hout _ suffix hsuffix)⟩
        intro d after heq
        obtain ⟨rfl, htail⟩ := cons.inj heq
        cases cs with
        | nil =>
          have hmem : d ∈ suffix := by
            rw [show suffix = d :: after from htail]
            exact mem_cons_self ..
          exact (hsuffix d hmem).1
        | cons e cs =>
          obtain ⟨rfl, -⟩ := cons.inj htail
          exact Bool.eq_false_iff.mpr fun hd => hat ⟨e, cs, rfl, rfl, hd⟩

theorem erased_dropDirectives (cs : List Char) (prev : Option Char) {suffix : List Char}
    (hsuffix : IsInert suffix) :
    Erased (directive blanks) prev (cs ++ suffix) (dropDirectives cs ++ suffix) := by
  obtain ⟨out, hout⟩ := exists_erased cs
  have herased := hout none [] (forall_mem_nil _)
  rw [append_nil, append_nil] at herased
  rw [dropDirectives, herased.substitute_eq]
  exact hout prev suffix hsuffix

/-- Directives are taken away within a text, whatever stands around it. -/
theorem dropDirectives_append {before after : List Char} (hbefore : '@' ∉ before)
    (hafter : IsInert after) (cs : List Char) :
    dropDirectives (before ++ (cs ++ after)) = before ++ (dropDirectives cs ++ after) :=
  (erased_append hbefore (fun prev => erased_dropDirectives cs prev hafter) none).substitute_eq

theorem erased_self (cs : List Char) : Erased (directive blanks) none cs (dropDirectives cs) := by
  simpa using erased_dropDirectives cs none (forall_mem_nil _)

theorem dropDirectives_eq_self_iff : dropDirectives cs = cs ↔ ¬HoldsDirective cs :=
  (erased_self cs).eq_self_iff.trans (not_congr occurs_directive_iff)

theorem dropDirectives_subset (cs : List Char) : dropDirectives cs ⊆ cs := (erased_self cs).subset

theorem dropDirectives_of_notMem (h : '@' ∉ cs) : dropDirectives cs = cs := by
  rw [dropDirectives_eq_self_iff]
  rintro ⟨before, c, after, rfl, -⟩
  exact h (by simp)

/-! ### Defaults -/

/-- The value of an argument that is not given. -/
inductive DefaultText where
  | number (i : Int)
  | text (content : String)
deriving Repr, DecidableEq

namespace DefaultText

def print : DefaultText → List Char
  | number i => intChars i
  | text s => '"' :: (s.toList ++ ['"'])

def value : DefaultText → Value
  | number i => .int i
  | text s => .text s

/-- A text needs no escapes. -/
def IsPlain : DefaultText → Prop
  | number _ => True
  | text s => ∀ c ∈ s.toList, c ≠ '"' ∧ c ≠ '\\' ∧ Literal.isWritable c = true

/-- A number has no more digits than are read. -/
def isReadable : DefaultText → Bool
  | number i => (decimalDigits i.natAbs).length ≤ digitLimit
  | text _ => true

/-- The default that is read: a text loses its directives. -/
def kept : DefaultText → DefaultText
  | number i => number i
  | text s => text (String.ofList (dropDirectives s.toList))

def HasDirective : DefaultText → Prop
  | number _ => False
  | text s => HoldsDirective s.toList

variable {v : DefaultText}

theorem kept_eq_self (h : ¬v.HasDirective) : v.kept = v := by
  cases v with
  | number i => rfl
  | text s => rw [kept, dropDirectives_eq_self_iff.mpr h, String.ofList_toList]

theorem print_kept_iff : v.kept.print = v.print ↔ ¬v.HasDirective := by
  cases v with
  | number i => exact iff_of_true rfl id
  | text s =>
    rw [HasDirective, ← dropDirectives_eq_self_iff, kept, print, print, String.toList_ofList,
      cons_inj_right, append_left_inj]

theorem isReadable_kept (v : DefaultText) : v.kept.isReadable = v.isReadable := by cases v <;> rfl

theorem IsPlain.kept (h : v.IsPlain) : v.kept.IsPlain := by
  cases v with
  | number i => trivial
  | text s =>
    intro c hc
    rw [String.toList_ofList] at hc
    exact h c (dropDirectives_subset _ hc)

theorem print_text {s : String} (h : (text s).IsPlain) :
    (text s).print = Json.stringChars false s.toList := by
  have hchars : s.toList.flatMap (Json.escapeChar false) = s.toList := by
    have hself (cs : List Char) (hcs : ∀ c ∈ cs, c ≠ '"' ∧ c ≠ '\\' ∧ Literal.isWritable c = true) :
        cs.flatMap (Json.escapeChar false) = cs := by
      induction cs with
      | nil => rfl
      | cons c cs ih =>
        obtain ⟨⟨hq, hb, hc⟩, hcs⟩ := forall_mem_cons.mp hcs
        rw [flatMap_cons, Literal.escapeChar_eq hc, if_neg (by simp [hq, hb]), ih hcs]
        rfl
    exact hself s.toList h
  rw [print, Json.stringChars, hchars]

theorem read?_print (h : v.IsPlain) : Literal.read? v.print =
    if v.isReadable then .ok (some v.value) else .error .unreadableNumber := by
  cases v with
  | number i =>
    rw [print, Literal.read?_intChars, Literal.integer_intChars, isReadable]
    simp only [decide_eq_true_eq]
    split <;> rfl
  | text s =>
    rw [print_text h, Literal.read?_stringChars fun c hc => (h c hc).2.2, String.ofList_toList]
    rfl

theorem piece_print (h : v.IsPlain) : Piece tracked isAtomChar v.print := by
  cases v with
  | number i =>
    have hchars := Literal.isAtomChar_intChars i (forall_mem_nil _)
    have hfragment := Literal.fragment_intChars i (forall_mem_nil _)
    rw [append_nil] at hchars hfragment
    have hplain (c : Char) (hc : isAtomChar c) : Crosswalk.isPlain c := by
      rw [isAtomChar, Bool.or_eq_true] at hc
      rcases hc with hc | hc
      · exact isPlain_of_isPart hc
      · rw [beq_iff_eq.mp hc]
        rfl
    exact ⟨.of_all fun c hc => ⟨hplain c (hchars c hc), hchars c hc⟩, hfragment.first,
      hfragment.last⟩
  | text s =>
    have hquoted := Literal.quoted_escaped fun c hc => (h c hc).2.2
    rw [print_text h]
    refine ⟨.literal hquoted .nil, ⟨'"', rfl, rfl⟩, ⟨'"', ?_, rfl⟩⟩
    rw [Json.stringChars, ← cons_append, getLast?_concat]

end DefaultText

theorem isBlank_of_isFirst (h : isFirst c) : isBlank c = false := by
  simp only [isFirst, Bool.and_eq_true, Bool.not_eq_true'] at h
  exact h.1

theorem isBlank_of_isLast (h : isLast c) : isBlank c = false := by
  simp only [isLast, Bool.and_eq_true, Bool.not_eq_true'] at h
  exact h.1

/-- How a default is written behind its type. -/
def clause : Option DefaultText → List Char
  | none => []
  | some v => ' ' :: '=' :: ' ' :: v.print

section Typed

variable {t : TypeText} (ht : isName t.name.toList) {v? : Option DefaultText}
  (hv : ∀ v ∈ v?, v.IsPlain)
include ht hv

/-- Only the text of a default loses directives. -/
theorem dropDirectives_typed :
    dropDirectives (t.print ++ clause v?) = t.print ++ clause (v?.map DefaultText.kept) := by
  have htype : '@' ∉ t.print := TypeText.notMem_print ht rfl (by decide) (by decide)
  cases v? with
  | none => exact dropDirectives_of_notMem (by simpa [clause] using htype)
  | some v =>
    cases v with
    | number i =>
      refine dropDirectives_of_notMem ?_
      have hchars := Literal.isAtomChar_intChars i (forall_mem_nil _)
      have hnumber : '@' ∉ intChars i :=
        fun hmem => absurd (hchars '@' (by simpa using hmem)) (by decide)
      simp [clause, DefaultText.print, htype, hnumber]
    | text s =>
      have hbefore : '@' ∉ t.print ++ [' ', '=', ' ', '"'] := by simp [htype]
      have hafter : IsInert ['"'] := by simp [IsInert, show isWord '"' = false by rfl]
      have hdrop := dropDirectives_append hbefore hafter s.toList
      simpa [clause, DefaultText.print, DefaultText.kept] using hdrop

theorem splitFirstTop_typed : splitFirstTop tracked ['='] (t.print ++ clause v?) =
    (t.print, v?.map DefaultText.print) := by
  have hpiece := TypeText.piece_print (t := t) ht
  cases v? with
  | none =>
    have hcrossed : Crossed tracked (· == '=') t.print := hpiece.balanced.crossed
      (fun c _ hc => beq_eq_false_iff_ne.mpr hc) fun c hc => beq_eq_false_iff_ne.mpr fun heq => by
        rw [heq] at hc
        cases hc
    rw [clause, append_nil, hcrossed.splitFirstTop_eq_none, hpiece.trim_eq]
    rfl
  | some v =>
    have hleft : Nested tracked (fun c => TypeText.isOutside c || c == ' ') (t.print ++ [' ']) :=
      (hpiece.balanced.mono fun c hc => by simp [hc]).append (.plain rfl rfl .nil)
    have htrim : trim ([] ++ t.print ++ [' ']) = t.print :=
      hpiece.trim_append (forall_mem_nil _) (by decide)
    have hvalue : trim ([' '] ++ v.print ++ []) = v.print :=
      (DefaultText.piece_print (hv v rfl)).trim_append (by decide) (forall_mem_nil _)
    rw [nil_append] at htrim
    rw [append_nil] at hvalue
    have hsplit := splitFirstTop_append (.inr rfl) hleft rfl ([' '] ++ v.print)
    rw [htrim, hvalue] at hsplit
    simpa [clause] using hsplit

theorem typed_ends : (∃ c, (t.print ++ clause v?).head? = some c ∧ isBlank c = false) ∧
    ∃ c, (t.print ++ clause v?).getLast? = some c ∧ isBlank c = false := by
  have hpiece := TypeText.piece_print (t := t) ht
  constructor
  · obtain ⟨c, hc, hfirst⟩ := hpiece.first
    exact ⟨c, by rw [head?_append, hc]; rfl, isBlank_of_isFirst hfirst⟩
  · cases v? with
    | none =>
      obtain ⟨c, hc, hlast⟩ := hpiece.last
      exact ⟨c, by rwa [clause, append_nil], isBlank_of_isLast hlast⟩
    | some v =>
      obtain ⟨c, hc, hlast⟩ := (DefaultText.piece_print (hv v rfl)).last
      refine ⟨c, ?_, isBlank_of_isLast hlast⟩
      have hclause : (clause (some v)).getLast? = some c := by
        change ([' ', '=', ' '] ++ v.print).getLast? = some c
        rw [getLast?_append, hc]
        rfl
      rw [getLast?_append, hclause]
      rfl

end Typed

/-! ### Definitions -/

/-- An argument with its type and its default. -/
structure ArgumentText where
  name : String
  type : TypeText
  default? : Option DefaultText := none
deriving Repr

/-- A field with its type and its arguments, if it has parentheses. -/
structure FieldText where
  name : String
  arguments? : Option (List ArgumentText) := none
  type : TypeText
deriving Repr

/-- What is read of a name, a type, a default and arguments. -/
def fieldOf (name : String) (type : TypeText) (default? : Option DefaultText)
    (arguments : List Field) : Field where
  key := .text name
  type := .text type.print
  defaultText := default?.map fun v => String.ofList v.print
  attributes := (default?.map fun v => FieldAttribute.default v.value).toList
  arguments := arguments

namespace ArgumentText

def print (a : ArgumentText) : List Char :=
  a.name.toList ++ ':' :: ' ' :: (a.type.print ++ clause a.default?)

def field (a : ArgumentText) : Field := fieldOf a.name a.type a.default? []

/-- The argument that is read. -/
def kept (a : ArgumentText) : ArgumentText := { a with default? := a.default?.map DefaultText.kept }

structure IsPlain (a : ArgumentText) : Prop where
  name : isName a.name.toList = true
  type : isName a.type.name.toList = true
  default : ∀ v ∈ a.default?, v.IsPlain

def isReadable (a : ArgumentText) : Bool := a.default?.all DefaultText.isReadable

end ArgumentText

/-- The arguments between the parentheses. -/
def argumentList (as : List ArgumentText) : List Char :=
  [',', ' '].intercalate (as.map ArgumentText.print)

namespace FieldText

def arguments (f : FieldText) : List ArgumentText := f.arguments?.getD []

def print (f : FieldText) : List Char :=
  f.name.toList ++ (match f.arguments? with
    | none => []
    | some as => '(' :: (argumentList as ++ [')'])) ++
  ':' :: ' ' :: f.type.print

def field (f : FieldText) : Field := fieldOf f.name f.type none (f.arguments.map ArgumentText.field)

/-- The definition that is read. -/
def kept (f : FieldText) : FieldText :=
  { f with arguments? := f.arguments?.map (map ArgumentText.kept) }

structure IsPlain (f : FieldText) : Prop where
  name : isName f.name.toList = true
  type : isName f.type.name.toList = true
  arguments : ∀ a ∈ f.arguments, a.IsPlain

def isReadable (f : FieldText) : Bool := f.arguments.all ArgumentText.isReadable

end FieldText

section Within

variable {name : String} {t : TypeText} {v? : Option DefaultText} (hname : isName name.toList)
  (ht : isName t.name.toList) (hv : ∀ v ∈ v?, v.IsPlain)
include hname ht hv

/-- A line without its arguments is read from its name to its default. -/
theorem fieldWithin_eq {fuel : Nat} {line : List Char} {inner : Option (List Char)}
    (hsplit : splitArguments? (trim line) =
      some (name.toList ++ ':' :: ' ' :: (t.print ++ clause v?), inner)) :
    fieldWithin (fuel + 1) line = (do
      let arguments ← match inner with
        | none => pure []
        | some inner => do
          let found ← (splitTopNonempty tracked [',', '\n'] inner).mapM (fieldWithin fuel)
          pure (found.filterMap id)
      if v?.all DefaultText.isReadable then
        return some (fieldOf name t (v?.map DefaultText.kept) arguments)
      else throw .unreadableNumber) := by
  have hkey : splitFirstTop tracked [':'] (name.toList ++ ':' :: ' ' :: (t.print ++ clause v?)) =
      (name.toList, some (t.print ++ clause v?)) := by
    have hpiece : Piece tracked TypeText.isOutside name.toList := TypeText.piece_name hname
    obtain ⟨hfirst, hlast⟩ := typed_ends ht hv
    have htrim : trim ([' '] ++ (t.print ++ clause v?) ++ []) = t.print ++ clause v? :=
      Text.trim_append (by decide) (forall_mem_nil _) hfirst hlast
    rw [append_nil] at htrim
    have hsplit := splitFirstTop_append (.inl rfl) hpiece.balanced
      (show TypeText.isOutside ':' = false from rfl) ([' '] ++ (t.print ++ clause v?))
    rwa [hpiece.trim_eq, htrim] at hsplit
  have hne : (t.print ++ clause v?).isEmpty = false := by
    simp [(TypeText.piece_print ht).ne_nil]
  have hkept : ∀ v ∈ v?.map DefaultText.kept, v.IsPlain := by
    intro v hmem
    obtain ⟨w, hw, rfl⟩ := Option.mem_map.mp hmem
    exact (hv w hw).kept
  simp only [fieldWithin, hsplit, hkey, hne, hname, dropDirectives_typed ht hv,
    splitFirstTop_typed ht hkept, (TypeText.piece_print ht).trim_eq, String.ofList_toList]
  cases v? with
  | none => cases inner <;> rfl
  | some v =>
    have hread := DefaultText.read?_print (hv v rfl).kept
    have hvalue : v.kept.print.isEmpty = false := by
      simp [(DefaultText.piece_print (hv v rfl).kept).ne_nil]
    simp only [Option.map_some, hvalue, hread, DefaultText.isReadable_kept, Option.all_some]
    cases v.isReadable <;> cases inner <;> rfl

omit ht hv in
/-- The name ends where the arguments or the type begin. -/
theorem takeWhile_name {mark : Char} (hmark : mark = '(' ∨ mark = ':') (rest : List Char) :
    (name.toList ++ mark :: rest).takeWhile (fun c => c != '(' && c != ':') = name.toList := by
  rw [takeWhile_append_of_pos, takeWhile_cons_of_neg, append_nil]
  · rcases hmark with rfl | rfl <;> decide
  · intro c hc
    have hpart := forall_isPart_of_isName hname c hc
    have hne (d : Char) (hd : Identifier.isPart d = false) : c ≠ d := by
      rintro rfl
      rw [hpart] at hd
      cases hd
    simp [hne '(' rfl, hne ':' rfl]

omit ht hv in
theorem splitArguments?_colon (rest : List Char) :
    splitArguments? (name.toList ++ ':' :: rest) = some (name.toList ++ ':' :: rest, none) := by
  rw [splitArguments?, takeWhile_name hname (.inr rfl)]
  simp only [drop_left]
  rfl

omit ht hv in
theorem splitArguments?_group {stop : Char → Bool} {inner : List Char}
    (hinner : Crossed tracked stop inner) (rest : List Char) :
    splitArguments? (name.toList ++ '(' :: (inner ++ ')' :: rest)) =
      some (name.toList ++ rest, some inner) := by
  have hgroup : group? ('(' :: (inner ++ ')' :: rest)) = some (inner, rest) :=
    hinner.group?_eq (d := .paren) (by decide)
  rw [splitArguments?, takeWhile_name hname (.inl rfl)]
  simp only [drop_left, hgroup]
  rfl

theorem trim_definition (middle : List Char) :
    trim (name.toList ++ (middle ++ (t.print ++ clause v?))) =
      name.toList ++ (middle ++ (t.print ++ clause v?)) := by
  have hpiece : Piece tracked TypeText.isOutside name.toList := TypeText.piece_name hname
  obtain ⟨c, hc, hfirst⟩ := hpiece.first
  obtain ⟨d, hd, hlast⟩ := (typed_ends ht hv).2
  refine Text.trim_eq_self ⟨c, ?_, isBlank_of_isFirst hfirst⟩ ⟨d, ?_, hlast⟩
  · rw [head?_append, hc]
    rfl
  · rw [getLast?_append, getLast?_append, hd]
    rfl

end Within

namespace ArgumentText

variable {a : ArgumentText} (ha : a.IsPlain)
include ha

theorem trim_print : trim a.print = a.print := trim_definition ha.name ha.type ha.default [':', ' ']

/-- Nothing in an argument divides a list of arguments or closes it. -/
theorem crossed_print : Crossed tracked [',', '\n'].contains a.print := by
  have hname : Crossed tracked [',', '\n'].contains a.name.toList :=
    (TypeText.piece_name ha.name).balanced.crossed_of_separates rfl
  have hcolon : Crossed tracked [',', '\n'].contains [':', ' '] :=
    (show Nested tracked [':', ' '].contains [':', ' '] from
      .plain rfl rfl (.plain rfl rfl .nil)).crossed_of_separates rfl
  have htype : Crossed tracked [',', '\n'].contains a.type.print :=
    (TypeText.piece_print ha.type).balanced.crossed_of_separates rfl
  have hclause : Crossed tracked [',', '\n'].contains (clause a.default?) := by
    cases hv : a.default? with
    | none => exact .nil
    | some v =>
      have hspace : Crossed tracked [',', '\n'].contains [' '] :=
        (show Nested tracked [' '].contains [' '] from .plain rfl rfl .nil).crossed_of_separates rfl
      have hvalue : Crossed tracked [',', '\n'].contains v.print :=
        (DefaultText.piece_print (ha.default v hv)).balanced.crossed_of_separates rfl
      exact hspace.append ((Crossed.equals rfl rfl).append hvalue)
  exact hname.append (hcolon.append (htype.append hclause))

theorem fieldWithin_print (fuel : Nat) : fieldWithin (fuel + 1) a.print =
    if a.isReadable then .ok (some a.kept.field) else .error .unreadableNumber := by
  have hsplit : splitArguments? (trim a.print) = some (a.print, none) := by
    rw [trim_print ha]
    exact splitArguments?_colon ha.name _
  exact fieldWithin_eq ha.name ha.type ha.default hsplit

end ArgumentText

section Arguments

variable {as : List ArgumentText} (has : ∀ a ∈ as, a.IsPlain)
include has

theorem crossed_argumentList : Crossed tracked (fun _ => false) (argumentList as) := by
  refine .intercalate ?_ (forall_mem_map.mpr fun a ha => (a.crossed_print (has a ha)).mono nofun)
  have hcomma : Nested tracked (fun _ => true) [',', ' '] := .plain rfl rfl (.plain rfl rfl .nil)
  exact hcomma.crossed (fun _ _ _ => rfl) fun _ _ => rfl

theorem splitTopNonempty_argumentList :
    splitTopNonempty tracked [',', '\n'] (argumentList as) = as.map ArgumentText.print := by
  have htexts :
      ∀ u ∈ as.map ArgumentText.print, Crossed tracked [',', '\n'].contains u ∧ trim u ≠ [] := by
    refine forall_mem_map.mpr fun a ha => ⟨a.crossed_print (has a ha), ?_⟩
    rw [a.trim_print (has a ha), ArgumentText.print]
    simp
  have hjoined : splitTopNonempty tracked [',', '\n'] (argumentList as) = _ :=
    Crossed.splitTopNonempty_joined (by decide) (by decide) (by decide) htexts
  rw [hjoined, map_map]
  exact map_congr_left fun a ha => a.trim_print (has a ha)

theorem mapM_fieldWithin (fuel : Nat) : (as.map ArgumentText.print).mapM (fieldWithin (fuel + 1)) =
    if as.all ArgumentText.isReadable then .ok (as.map fun a => some a.kept.field)
    else .error .unreadableNumber := by
  induction as with
  | nil => rfl
  | cons a as ih =>
    obtain ⟨ha, has⟩ := forall_mem_cons.mp has
    rw [map_cons, mapM_cons, a.fieldWithin_print ha, ih has, all_cons]
    cases a.isReadable with
    | false => rfl
    | true => cases as.all ArgumentText.isReadable <;> rfl

end Arguments

namespace FieldText

variable {f : FieldText}

/-- A definition is read but for the directives in the texts of its defaults, unless a number among
them has too many digits. -/
theorem read_print (h : f.IsPlain) : GraphQL.field f.print =
    if f.isReadable then .ok (some f.kept.field) else .error .unreadableNumber := by
  obtain ⟨name, arguments?, type⟩ := f
  obtain ⟨hname, htype, has⟩ := h
  dsimp only at hname htype
  have hnone : ∀ v ∈ (none : Option DefaultText), v.IsPlain := nofun
  have htrim (middle : List Char) := trim_definition hname htype hnone middle
  cases arguments? with
  | none =>
    have hprint :
        print ⟨name, none, type⟩ = name.toList ++ ([':', ' '] ++ (type.print ++ clause none)) := by
      simp [print, clause]
    have hsplit : splitArguments? (trim (print ⟨name, none, type⟩)) =
        some (name.toList ++ ':' :: ' ' :: (type.print ++ clause none), none) := by
      rw [hprint, htrim]
      exact splitArguments?_colon hname _
    exact fieldWithin_eq hname htype hnone hsplit
  | some as =>
    change ∀ a ∈ as, a.IsPlain at has
    have hprint : print ⟨name, some as, type⟩ =
        name.toList ++
          (('(' :: (argumentList as ++ [')', ':', ' '])) ++ (type.print ++ clause none)) := by
      simp [print, clause]
    have hsplit : splitArguments? (trim (print ⟨name, some as, type⟩)) =
        some (name.toList ++ ':' :: ' ' :: (type.print ++ clause none),
          some (argumentList as)) := by
      rw [hprint, htrim]
      simpa using splitArguments?_group hname (crossed_argumentList has)
        (':' :: ' ' :: (type.print ++ clause none))
    obtain ⟨n, hn⟩ := Nat.exists_eq_add_one_of_ne_zero
      (show (print ⟨name, some as, type⟩).length ≠ 0 by simp [hprint])
    rw [GraphQL.field, hn, fieldWithin_eq hname htype hnone hsplit]
    dsimp only
    rw [splitTopNonempty_argumentList has, mapM_fieldWithin has]
    change _ = if as.all ArgumentText.isReadable then
      Except.ok (some (fieldOf name type none ((as.map ArgumentText.kept).map ArgumentText.field)))
    else _
    cases as.all ArgumentText.isReadable with
    | false => rfl
    | true =>
      have hfound : (as.map fun a => some a.kept.field).filterMap id =
          (as.map ArgumentText.kept).map ArgumentText.field := by
        rw [filterMap_map, map_map]
        exact congrFun filterMap_eq_map as
      rw [if_pos rfl, if_pos rfl, ← hfound]
      rfl

/-- Only what looks like a directive in a default makes a difference. -/
theorem field_kept_iff : f.kept.field = f.field ↔
    ∀ a ∈ f.arguments, ∀ v ∈ a.default?, ¬v.HasDirective := by
  have hargument (a : ArgumentText) :
      a.kept.field = a.field ↔ ∀ v ∈ a.default?, ¬v.HasDirective := by
    constructor
    · intro heq v hv
      have htext := congrArg Field.defaultText heq
      rw [ArgumentText.field, ArgumentText.field, ArgumentText.kept, hv] at htext
      exact DefaultText.print_kept_iff.mp (String.ofList_injective (Option.some.inj htext))
    · intro h
      have hsame : a.default?.map DefaultText.kept = a.default? := by
        cases hv : a.default? with
        | none => rfl
        | some v => rw [Option.map_some, DefaultText.kept_eq_self (h v hv)]
      rw [ArgumentText.kept, hsame]
  have harguments : f.kept.arguments = f.arguments.map ArgumentText.kept := by
    obtain ⟨_, arguments?, _⟩ := f
    cases arguments? <;> rfl
  have hfield : f.kept.field = fieldOf f.name f.type none ((f.arguments.map ArgumentText.kept).map
      ArgumentText.field) := by
    rw [field, harguments]
    rfl
  rw [hfield, field]
  constructor
  · intro heq a ha
    have hmap : (f.arguments.map ArgumentText.kept).map ArgumentText.field =
        f.arguments.map ArgumentText.field := congrArg Field.arguments heq
    rw [map_map] at hmap
    exact (hargument a).mp (map_inj_left.mp hmap a ha)
  · intro h
    rw [map_map]
    exact congrArg _ (map_congr_left fun a ha => (hargument a).mpr (h a ha))

end FieldText

/-- A definition is read back if no number among its defaults has too many digits, but the texts of
its defaults lose what looks like a directive. So it is read as it is meant exactly if nothing in
them does. -/
theorem field_reads_back {f : FieldText} (h : f.IsPlain) :
    field f.print = (if f.isReadable then .ok (some f.kept.field) else .error .unreadableNumber) ∧
      (field f.print = .ok (some f.field) ↔
        f.isReadable = true ∧ ∀ a ∈ f.arguments, ∀ v ∈ a.default?, ¬v.HasDirective) := by
  refine ⟨FieldText.read_print h, ?_⟩
  rw [FieldText.read_print h, ← FieldText.field_kept_iff]
  cases f.isReadable <;> simp

/-- A field with an argument that is an address by default. -/
def addressField : FieldText where
  name := "f"
  arguments? :=
    some [{ name := "a", type := .named "String" false, default? := some (.text "x@y.z") }]
  type := .named "Int" false

/-- A part of the address is lost. -/
theorem addressField_changed :
    addressField.print = "f(a: String = \"x@y.z\"): Int".toList ∧
    field addressField.print = .ok (some addressField.kept.field) ∧
    addressField.kept.arguments = [⟨"a", .named "String" false, some (.text "x.z")⟩] ∧
    field addressField.print ≠ .ok (some addressField.field) := by
  have hplain : addressField.IsPlain := by
    refine ⟨by decide, by decide, ?_⟩
    intro a ha
    cases mem_singleton.mp ha
    refine ⟨by decide, by decide, ?_⟩
    intro v hv
    cases hv
    exact (by decide : ∀ c ∈ "x@y.z".toList, c ≠ '"' ∧ c ≠ '\\' ∧ Literal.isWritable c = true)
  have hread := field_reads_back hplain
  have hreadable : addressField.isReadable = true := rfl
  have hdrop : String.ofList (dropDirectives "x@y.z".toList) = "x.z" := by decide
  refine ⟨by decide, by rw [hread.1, if_pos hreadable], ?_, ?_⟩
  · rw [← hdrop]
    rfl
  · rw [Ne, hread.2]
    intro ⟨_, hdirective⟩
    exact hdirective _ (mem_singleton_self _) _ rfl ⟨['x'], 'y', ['.', 'z'], rfl, by decide⟩

end Crosswalk.GraphQL
