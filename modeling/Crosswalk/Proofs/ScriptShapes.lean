import Crosswalk.Proofs.ScriptLiterals

/-!
The shapes of type expressions that are joined from fragments. Each expression is taken by the rule
that it was written for, although the rules before it are tried first.
-/

namespace Crosswalk

open List
open Identifier (isPart isStart isName isQualified leading?)
open Text (after? before? trimStart)
open Literal (enumeration? isNumeral quotes read?)

variable {c : Char} {us : List (List Char)}

/-- Characters of a type without a choice at its top level. -/
def isMeetChar (c : Char) : Bool := isAtomChar c || c == ' ' || c == '&'

/-- Characters at the top level of a type. -/
def isChoiceChar (c : Char) : Bool := isMeetChar c || c == '|'

theorem isMeetChar_of_isAtomChar (c : Char) (h : isAtomChar c) : isMeetChar c := by
  simp [isMeetChar, h]

theorem isChoiceChar_of_isMeetChar (c : Char) (h : isMeetChar c) :
    isChoiceChar c := by
  simp [isChoiceChar, h]

/-- A fragment that parentheses do not enclose as a whole. -/
structure Bare (ok : Char → Bool) (cs : List Char) : Prop extends Fragment ok cs where
  alone : cs.head? = some '(' →
    ∃ as bs, as ≠ [] ∧ bs ≠ [] ∧ Balanced (fun _ => true) as ∧ cs = as ++ bs

namespace Bare

variable {ok ok' : Char → Bool} {as bs cs pad : List Char}

theorem of_head (h : Fragment ok cs) (hhead : cs.head? ≠ some '(') : Bare ok cs :=
  { h with alone := fun heq => absurd heq hhead }

theorem of_append (h : Fragment ok (as ++ bs)) (ha : Fragment ok as) (hb : bs ≠ []) :
    Bare ok (as ++ bs) :=
  { h with alone := fun _ => ⟨as, bs, ha.ne_nil, hb, ha.balanced.mono fun _ _ => rfl, rfl⟩ }

theorem mono (h : Bare ok cs) (hok : ∀ c, ok c → ok' c) : Bare ok' cs :=
  { h.toFragment.mono hok with alone := h.alone }

theorem reindent (h : Bare ok cs) (hpad : ∀ c ∈ pad, c = ' ')
    (hok : ok '\n' → ok ' ') : Bare ok (reindent pad cs) where
  toFragment := h.toFragment.reindent hpad hok
  alone hhead := by
    obtain ⟨c, hc, hfirst⟩ := h.first
    obtain ⟨rest, rfl⟩ := head?_eq_some_iff.mp hc
    have hne : c ≠ '\n' := by
      rintro rfl
      cases hfirst
    rw [reindent_cons hne] at hhead
    obtain ⟨as, bs, ha, hb, hbalanced, heq⟩ := h.alone hhead
    refine ⟨Crosswalk.reindent pad as, Crosswalk.reindent pad bs, by rwa [Ne, reindent_eq_nil],
      by rwa [Ne, reindent_eq_nil], hbalanced.reindent hpad fun _ => rfl, ?_⟩
    rw [heq, reindent_append]

theorem enclosed?_eq_none (h : Bare ok cs) : enclosed? '(' cs = none := by
  by_cases hhead : cs.head? = some '('
  · obtain ⟨as, bs, ha, hb, hbalanced, rfl⟩ := h.alone hhead
    exact hbalanced.enclosed?_append ha hb .paren
  · exact enclosed?_of_head hhead

end Bare

theorem unwrapFrom_eq_self {cs : List Char} (h : enclosed? '(' cs = none) (n : Nat) :
    unwrapFrom n cs = cs := by
  cases n with
  | zero => rfl
  | succ n =>
    rw [unwrapFrom, if_neg]
    intro hcond
    rw [enclosed?, if_pos hcond] at h
    cases h

namespace TypeScript

variable {ok : Char → Bool} {as bs cs : List Char} {s : Shape}

/-! ### Normal forms -/

theorem normalize_of_unwrap (h : Fragment ok cs) {raw : List Char} (hraw : unwrapParens raw = cs) :
    normalize raw = cs := by
  obtain ⟨c, hc, hfirst⟩ := h.first
  obtain ⟨rest, rfl⟩ := head?_eq_some_iff.mp hc
  have hoperator : (c == '|' || c == '&') = false := by
    rw [Bool.eq_false_iff]
    intro hop
    simp only [Bool.or_eq_true, beq_iff_eq] at hop
    rcases hop with rfl | rfl <;> cases hfirst
  have hmodifier : after? "readonly ".toList (c :: rest) = none := by
    rw [Option.eq_none_iff_forall_ne_some]
    intro tail htail
    refine h.word ?_
    rw [Text.eq_append_of_after? htail]
    rfl
  simp only [normalize, hraw, dropLeadingOperators, hoperator, Bool.false_eq_true, if_false]
  rw [hmodifier]

theorem normalize_bare (h : Bare ok cs) : normalize cs = cs := by
  refine normalize_of_unwrap h.toFragment ?_
  rw [unwrapParens, h.trim_eq, unwrapFrom_eq_self h.enclosed?_eq_none]

theorem normalize_parens (h : Bare ok cs) : normalize ('(' :: (cs ++ [')'])) = cs := by
  refine normalize_of_unwrap h.toFragment ?_
  have henclosed : enclosed? '(' ('(' :: (cs ++ [')'])) = some cs :=
    h.balanced.enclosed?_group .paren
  have hcond : (('(' :: (cs ++ [')'])).head? == some '(' &&
      closer? ('(' :: (cs ++ [')'])) == some (('(' :: (cs ++ [')'])).length - 1)) := by
    rw [← Bool.not_eq_false]
    intro hcond
    rw [enclosed?, hcond] at henclosed
    cases henclosed
  rw [unwrapParens, Text.trim_between rfl rfl]
  simp only [length_cons]
  rw [unwrapFrom, if_pos hcond, drop_one, tail_cons, dropLast_concat, h.trim_eq,
    unwrapFrom_eq_self h.enclosed?_eq_none]

/-- Parentheses around a type do not change its shape. -/
theorem classify_parens (h : Bare ok cs) : classify ('(' :: (cs ++ [')'])) = classify cs := by
  rw [classify, normalize_parens h, classify, normalize_bare h]

/-! ### The order of the rules -/

/-- Text that is no keyword and no literal. -/
structure Compound (cs : List Char) : Prop where
  normal : normalize cs = cs
  keyword : keyword? (String.ofList cs) = none
  literal : read? cs = .ok none

theorem Compound.of_bare (h : Bare ok cs) (hs : isStringLiteral quotes cs = false) (hc : c ∈ cs)
    (hn : isNumeral c = false) : Compound cs where
  normal := normalize_bare h
  keyword := by
    simp only [isNumeral, Bool.or_eq_false_iff] at hn
    exact keyword?_eq_none hc hn.1.2
  literal := Literal.read?_eq_none h.trim_eq hs hc hn

theorem Compound.of_append (h : Bare ok (as ++ bs)) (ha : Fragment ok as) (hb : bs ≠ [])
    (hc : c ∈ as ++ bs) (hn : isNumeral c = false) : Compound (as ++ bs) :=
  .of_bare h (ha.balanced.isStringLiteral_append ha.ne_nil hb) hc hn

theorem union?_eq_none (h : Fragment ok cs) (hok : ok '|' = false) : union? cs = .ok none := by
  have hsplit : splitTypes '|' cs = [cs] :=
    h.splitTopNonempty_eq (separates_singleton rfl hok)
  rw [union?, hsplit]
  rfl

theorem intersection?_eq_none (h : Fragment ok cs) (hok : ok '&' = false) :
    intersection? cs = none := by
  have hsplit : splitTypes '&' cs = [cs] :=
    h.splitTopNonempty_eq (separates_singleton rfl hok)
  rw [intersection?, hsplit]
  rfl

theorem classify_union (h : Compound cs) (hs : union? cs = .ok (some s)) : classify cs = .ok s := by
  simp only [classify, h.normal, h.keyword, h.literal, hs]
  rfl

theorem classify_intersection (h : Compound cs) (hf : Fragment isMeetChar cs)
    (hs : intersection? cs = some s) : classify cs = .ok s := by
  simp only [classify, h.normal, h.keyword, h.literal, union?_eq_none hf rfl, hs]
  rfl

section Atoms

variable (h : Compound cs) (hf : Fragment isAtomChar cs)
include h hf

theorem classify_array (hs : array? cs = some s) : classify cs = .ok s := by
  simp only [classify, h.normal, h.keyword, h.literal, union?_eq_none hf rfl,
    intersection?_eq_none hf rfl, hs]
  rfl

theorem classify_tuple (ha : array? cs = none) (hs : tuple? cs = some s) : classify cs = .ok s := by
  simp only [classify, h.normal, h.keyword, h.literal, union?_eq_none hf rfl,
    intersection?_eq_none hf rfl, ha, hs]
  rfl

theorem classify_generic (ha : array? cs = none) (ht : tuple? cs = none)
    (hs : genericShape? cs = .ok (some s)) : classify cs = .ok s := by
  simp only [classify, h.normal, h.keyword, h.literal, union?_eq_none hf rfl,
    intersection?_eq_none hf rfl, ha, ht, hs]
  rfl

theorem classify_object (ha : array? cs = none) (ht : tuple? cs = none)
    (hg : genericShape? cs = .ok none) (hs : object? cs = .ok (some s)) : classify cs = .ok s := by
  simp only [classify, h.normal, h.keyword, h.literal, union?_eq_none hf rfl,
    intersection?_eq_none hf rfl, ha, ht, hg, hs]
  rfl

theorem classify_reference (ha : array? cs = none) (ht : tuple? cs = none)
    (hg : genericShape? cs = .ok none) (ho : object? cs = .ok none) (hs : reference? cs = some s) :
    classify cs = .ok s := by
  simp only [classify, h.normal, h.keyword, h.literal, union?_eq_none hf rfl,
    intersection?_eq_none hf rfl, ha, ht, hg, ho, hs]
  rfl

end Atoms

/-! ### Arrays and tuples -/

theorem array?_append (h : Fragment ok as) :
    array? (as ++ ['[', ']']) = some (.array (.text as) []) := by
  have hbefore : before? ['[', ']'] (as ++ ['[', ']']) = some as := by
    simp [before?, after?]
  have hne : as.isEmpty = false := by simpa using h.ne_nil
  simp only [array?, hbefore, hne, Bool.false_eq_true, if_false, h.trim_eq]

section ArrayOf

variable (h : Fragment isAtomChar as)
include h

theorem bare_array : Bare isAtomChar (as ++ ['[', ']']) := by
  have hbrackets : Balanced isAtomChar ['[', ']'] := .group .bracket (by decide) .nil .nil
  exact .of_append (h.append hbrackets ⟨'[', rfl, rfl⟩ ⟨']', rfl, rfl⟩) h (by simp)

theorem compound_array : Compound (as ++ ['[', ']']) :=
  .of_append (bare_array h) h (by simp) (c := '[') (by simp) rfl

theorem classify_arrayOf : classify (as ++ ['[', ']']) = .ok (.array (.text as) []) :=
  classify_array (compound_array h) (bare_array h).toFragment (array?_append h)

end ArrayOf

theorem array?_of_last (hc : cs.getLast? = some c) (hne : c ≠ ']') : array? cs = none := by
  obtain ⟨rest, rfl⟩ := getLast?_eq_some_iff.mp hc
  simp [array?, before?, after?, Ne.symm hne]

/-- Brackets around something are no brackets after something. -/
theorem array?_brackets (h : ∀ c, cs.getLast? = some c → c ≠ '[') :
    array? ('[' :: (cs ++ [']'])) = none := by
  cases hlast : cs.getLast? with
  | none =>
    rw [getLast?_eq_none_iff.mp hlast]
    rfl
  | some c =>
    obtain ⟨rest, rfl⟩ := getLast?_eq_some_iff.mp hlast
    simp [array?, before?, after?, Ne.symm (h c hlast)]

end TypeScript

theorem Text.isPlain_of_isBlank (h : isBlank c) : isPlain c := by
  have hall : ∀ n ∈ blanks, isPlain (Char.ofNat n) := by decide
  have hc := hall c.toNat (toNat_mem_blanks h)
  rwa [Char.ofNat_toNat] at hc

namespace Nested

variable {tracked : List Char} {ok : Char → Bool} {cs : List Char}

theorem dropWhile (h : Nested tracked ok cs) {p : Char → Bool}
    (hp : ∀ c, p c → isPlain c) : Nested tracked ok (cs.dropWhile p) := by
  have hspecial {c : Char} (hc : isPlain c = false) : p c = false := by
    rw [Bool.eq_false_iff]
    intro hpc
    rw [hp c hpc] at hc
    cases hc
  induction h with
  | nil => exact .nil
  | @plain ok c cs hpc hc h ih =>
    rw [dropWhile_cons]
    split
    · exact ih
    · exact .plain hpc hc h
  | @literal ok body cs hb h _ =>
    rw [dropWhile_cons, hspecial rfl]
    exact .literal hb h
  | @group ok d hd inner cs hi h _ _ =>
    rw [dropWhile_cons, hspecial d.isPlain_opener]
    exact .group d hd hi h

theorem head?_ne (h : Nested tracked ok cs) (hp : isPlain c) (hc : ok c = false) :
    cs.head? ≠ some c := by
  cases h with
  | nil => simp
  | @plain ok x xs hpx hx _ =>
    rintro ⟨⟩
    rw [hx] at hc
    cases hc
  | literal _ _ =>
    rintro ⟨⟩
    cases hp
  | group d _ _ _ =>
    rintro ⟨⟩
    rw [d.isPlain_opener] at hp
    cases hp

end Nested

namespace TypeScript

variable {ok : Char → Bool} {as bs cs : List Char} {s : Shape}

/-- The elements of a tuple are written without labels and marks, and are not taken for such. -/
theorem tupleElement_eq (h : Fragment isChoiceChar cs) : tupleElement cs = cs := by
  have hdots : after? ['.', '.', '.'] cs = none := by
    obtain ⟨c, hc, hfirst⟩ := h.first
    obtain ⟨rest, rfl⟩ := head?_eq_some_iff.mp hc
    have hne : '.' ≠ c := by
      rintro rfl
      cases hfirst
    rw [after?, if_neg hne]
  have hlabel : dropLabel cs = cs := by
    simp only [dropLabel, hdots, Option.getD_none]
    split
    · rfl
    · rename_i name rest hleading
      have hrest : Balanced isChoiceChar rest := by
        obtain ⟨c, hc, -⟩ := h.first
        obtain ⟨tail, rfl⟩ := head?_eq_some_iff.mp hc
        rw [leading?] at hleading
        split at hleading
        · rename_i hstart
          cases hleading
          have hdrop : (c :: tail).dropWhile isPart = tail.dropWhile isPart := by
            rw [dropWhile_cons, if_pos (isPart_of_isStart hstart)]
          rw [← hdrop]
          exact h.balanced.dropWhile fun _ => isPlain_of_isPart
        · cases hleading
      have hmark : after? ['?'] rest = none := by
        have hhead := hrest.head?_ne (c := '?') rfl rfl
        cases rest with
        | nil => rfl
        | cons c rest =>
          have hne : '?' ≠ c := fun heq => hhead (by rw [heq]; rfl)
          rw [after?, if_neg hne]
      have hcolon : (trimStart rest).head? ≠ some ':' :=
        (hrest.dropWhile fun _ => Text.isPlain_of_isBlank).head?_ne rfl rfl
      rw [hmark, Option.getD_none]
      split
      · rename_i type heq
        exact absurd (by rw [heq]; rfl) hcolon
      · rfl
  obtain ⟨c, hc, hlast⟩ := h.last
  obtain ⟨rest, rfl⟩ := getLast?_eq_some_iff.mp hc
  have hne : '?' ≠ c := by
    rintro rfl
    cases hlast
  rw [tupleElement, hlabel]
  simp [before?, after?, hne]

/-- Types joined by commas. -/
theorem splitTypes_comma (hus : ∀ u ∈ us, Fragment isChoiceChar u) :
    splitTypes ',' ([',', ' '].intercalate us) = us :=
  splitTopNonempty_intercalate [] [' '] (by rfl) (by simp) (by simp) (mem_singleton_self _)
    fun u hu => (hus u hu).toSegment

theorem fragment_comma (hus : ∀ u ∈ us, Fragment isChoiceChar u) (hne : us ≠ []) :
    Fragment (fun _ => true) ([',', ' '].intercalate us) :=
  .intercalate (.of_all (forall_mem_of_all rfl)) ⟨',', rfl, rfl⟩
    (fun u hu => (hus u hu).mono fun _ _ => rfl) hne

theorem balanced_comma (hus : ∀ u ∈ us, Fragment isChoiceChar u) :
    Balanced (fun _ => true) ([',', ' '].intercalate us) := by
  by_cases hne : us = []
  · subst hne
    exact .nil
  · exact (fragment_comma hus hne).balanced

theorem tuple?_eq (hus : ∀ u ∈ us, Fragment isChoiceChar u) :
    tuple? ('[' :: ([',', ' '].intercalate us ++ [']'])) = some (.tuple (us.map .text)) := by
  have henclosed : enclosed? '[' ('[' :: ([',', ' '].intercalate us ++ [']'])) =
      some ([',', ' '].intercalate us) := (balanced_comma hus).enclosed?_group .bracket
  have helements : us.map (fun u => Raw.text (tupleElement u)) = us.map .text :=
    map_congr_left fun u hu => by rw [tupleElement_eq (hus u hu)]
  simp only [tuple?, henclosed, Option.map_some, splitTypes_comma hus, helements]

section TupleOf

variable (hus : ∀ u ∈ us, Fragment isChoiceChar u)
include hus

theorem bare_tuple : Bare isAtomChar ('[' :: ([',', ' '].intercalate us ++ [']'])) :=
  .of_head (.group .bracket (balanced_comma hus)) (by simp)

theorem compound_tuple : Compound ('[' :: ([',', ' '].intercalate us ++ [']'])) :=
  .of_bare (bare_tuple hus) (isStringLiteral_of_head (by decide) _) (mem_cons_self ..) rfl

theorem classify_tupleOf :
    classify ('[' :: ([',', ' '].intercalate us ++ [']'])) = .ok (.tuple (us.map .text)) := by
  refine classify_tuple (compound_tuple hus) (bare_tuple hus).toFragment (array?_brackets ?_)
    (tuple?_eq hus)
  rintro c hc rfl
  by_cases hne : us = []
  · subst hne
    cases hc
  · obtain ⟨l, hl, hlast⟩ := (fragment_comma hus hne).last
    rw [hc] at hl
    cases hl
    cases hlast

end TupleOf

theorem tuple?_of_head (hc : cs.head? = some c) (hne : c ≠ '[') : tuple? cs = none := by
  rw [tuple?, enclosed?_of_head (by rw [hc]; simpa using hne)]
  rfl

/-! ### Generic types and names -/

theorem generic?_eq {name inner : List Char} (hn : isName name)
    (hi : Balanced ok inner) :
    generic? (name ++ '<' :: (inner ++ ['>'])) = some (name, inner) := by
  obtain ⟨c, rest, rfl, hc, hpart⟩ := Member.exists_of_isName hn
  have hall : ∀ x ∈ rest, (isPart x || x == '.') := by
    intro x hx
    simp [hpart x (mem_cons_of_mem _ hx)]
  have htake :
      (rest ++ '<' :: (inner ++ ['>'])).takeWhile (fun x => isPart x || x == '.') = rest := by
    rw [takeWhile_append_of_pos hall, takeWhile_cons_of_neg (by decide), append_nil]
  have hdrop : (rest ++ '<' :: (inner ++ ['>'])).dropWhile (fun x => isPart x || x == '.') =
      '<' :: (inner ++ ['>']) := by
    rw [dropWhile_append_of_pos hall, dropWhile_cons_of_neg (by decide)]
  have htrim : trimStart ('<' :: (inner ++ ['>'])) = '<' :: (inner ++ ['>']) :=
    Text.trimStart_cons_of_not_isBlank rfl _
  have henclosed : enclosed? '<' ('<' :: (inner ++ ['>'])) = some inner := hi.enclosed?_group .angle
  simp [generic?, leading?, hc, htake, hdrop, htrim, henclosed]

/-- The name that a container is written with. -/
def containerName? : Container → Option String
  | .set => some "Set"
  | .map => some "Map"
  | .record => some "Record"
  | .promise => some "Promise"
  | _ => none

theorem genericShape?_eq {kind : Container} {name : String} (hk : containerName? kind = some name)
    {u : List Char} (hus : ∀ v ∈ u :: us, Fragment isChoiceChar v) :
    genericShape? (name.toList ++ '<' :: ([',', ' '].intercalate (u :: us) ++ ['>'])) =
      .ok (some (.container kind ((u :: us).map .text) [])) := by
  have hinner := balanced_comma hus
  have hsplit := splitTypes_comma hus
  cases kind <;> cases hk
  all_goals
    rw [genericShape?, generic?_eq (by decide) hinner]
    simp only [hsplit]
    rfl

theorem generic?_of_head (hc : cs.head? = some c) (hs : isStart c = false) :
    generic? cs = none := by
  obtain ⟨rest, rfl⟩ := head?_eq_some_iff.mp hc
  simp [generic?, leading?, hs]

theorem genericShape?_of_none (h : generic? cs = none) : genericShape? cs = .ok none := by
  rw [genericShape?, h]
  rfl

theorem object?_of_head (hc : cs.head? = some c) (hne : c ≠ '{') : object? cs = .ok none := by
  rw [object?, enclosed?_of_head (by rw [hc]; simpa using hne)]
  rfl

theorem isQualified_of_isName (h : isName cs) :
    isQualified cs := by
  obtain ⟨c, rest, rfl, -, hpart⟩ := Member.exists_of_isName h
  have hparts : Text.parts ['.'] (c :: rest) = [c :: rest] := by
    refine Text.parts_of_not_mem fun hmem => ?_
    cases hpart '.' hmem
  rw [isQualified, hparts]
  simpa using h

/-- A name that is no truth value and no modifier. -/
structure IsWord (cs : List Char) : Prop where
  name : isName cs = true
  word : cs ∉ ["true".toList, "false".toList, "readonly".toList]

namespace IsWord

variable (h : IsWord cs)
include h

theorem fragment : Fragment isAtomChar cs := by
  obtain ⟨c, rest, rfl, -, hpart⟩ := Member.exists_of_isName h.name
  refine Fragment.of_word (by simp) hpart fun heq => h.word ?_
  rw [heq]
  decide

theorem bare : Bare isAtomChar cs := by
  refine .of_head h.fragment ?_
  obtain ⟨c, rest, rfl, hc, -⟩ := Member.exists_of_isName h.name
  rintro ⟨⟩
  cases hc

theorem read?_eq : read? cs = .ok none := by
  obtain ⟨c, rest, rfl, hc, hpart⟩ := Member.exists_of_isName h.name
  refine Literal.read?_word hc hpart ?_ ?_
  · exact fun heq => h.word (by rw [heq]; decide)
  · exact fun heq => h.word (by rw [heq]; decide)

theorem newline_notMem : '\n' ∉ cs := by
  obtain ⟨c, rest, rfl, -, hpart⟩ := Member.exists_of_isName h.name
  intro hmem
  cases hpart _ hmem

end IsWord

theorem classify_keyword (h : IsWord cs) {p : Primitive}
    (hp : keyword? (String.ofList cs) = some p) :
    classify cs = .ok (.primitive p []) := by
  simp only [classify, normalize_bare h.bare, hp]
  rfl

theorem classify_literal (h : Bare ok cs) (hk : keyword? (String.ofList cs) = none) {v : Value}
    (hv : read? cs = .ok (some v)) : classify cs = .ok (.literal v) := by
  simp only [classify, normalize_bare h, hk, hv]
  rfl

/-- A declared name is no keyword of the notation. -/
structure IsReference (cs : List Char) : Prop extends IsWord cs where
  keyword : keyword? (String.ofList cs) = none

theorem IsReference.compound (h : IsReference cs) : Compound cs :=
  ⟨normalize_bare h.bare, h.keyword, h.read?_eq⟩

theorem IsReference.classify_eq (h : IsReference cs) :
    classify cs = .ok (.reference (String.ofList cs)) := by
  obtain ⟨c, rest, rfl, hc, hpart⟩ := Member.exists_of_isName h.name
  have hlast : ∃ l, (c :: rest).getLast? = some l ∧ isPart l :=
    ⟨_, getLast?_eq_some_getLast (by simp), hpart _ (getLast_mem _)⟩
  obtain ⟨l, hl, hlpart⟩ := hlast
  have hbracket : l ≠ ']' := by
    rintro rfl
    cases hlpart
  have hgeneric : generic? (c :: rest) = none := by
    have hall : ∀ x ∈ rest, (isPart x || x == '.') := by
      intro x hx
      simp [hpart x (mem_cons_of_mem _ hx)]
    have hdrop : rest.dropWhile (fun x => isPart x || x == '.') = [] :=
      dropWhile_eq_nil_iff.mpr hall
    simp [generic?, leading?, hc, hdrop, trimStart, enclosed?]
  refine classify_reference h.compound h.fragment (array?_of_last hl hbracket)
    (tuple?_of_head rfl ?_) (genericShape?_of_none hgeneric) (object?_of_head rfl ?_) ?_
  · rintro rfl
    cases hc
  · rintro rfl
    cases hc
  · rw [reference?, if_pos (isQualified_of_isName h.name)]

theorem fragment_stringChars {cs : List Char} (h : ∀ c ∈ cs, Literal.isWritable c) :
    Fragment isAtomChar (Json.stringChars false cs) := by
  have hlast : (Json.stringChars false cs).getLast? = some '"' := by
    rw [Json.stringChars, ← cons_append, getLast?_append]
    rfl
  have hword : (Json.stringChars false cs).takeWhile isPart = [] :=
    takeWhile_cons_of_neg (by decide)
  exact ⟨⟨.literal (Literal.quoted_escaped h) .nil, ⟨'"', rfl, rfl⟩, ⟨'"', hlast, rfl⟩⟩,
    by rw [hword]; decide⟩

section GenericOf

variable {name : String} (hname : IsWord name.toList) {u : List Char}
  (hus : ∀ v ∈ u :: us, Fragment isChoiceChar v)
include hname hus

theorem bare_generic :
    Bare isAtomChar (name.toList ++ '<' :: ([',', ' '].intercalate (u :: us) ++ ['>'])) := by
  refine .of_append (hname.fragment.append ?_ ⟨'<', rfl, rfl⟩ ⟨'>', ?_, rfl⟩) hname.fragment
    (by simp)
  · exact .group .angle (by decide) (balanced_comma hus) .nil
  · rw [← cons_append, getLast?_append]
    rfl

theorem compound_generic :
    Compound (name.toList ++ '<' :: ([',', ' '].intercalate (u :: us) ++ ['>'])) :=
  .of_append (bare_generic hname hus) hname.fragment (by simp) (c := '<') (by simp) rfl

theorem classify_genericOf
    (hs : genericShape? (name.toList ++ '<' :: ([',', ' '].intercalate (u :: us) ++ ['>'])) =
      .ok (some s)) :
    classify (name.toList ++ '<' :: ([',', ' '].intercalate (u :: us) ++ ['>'])) = .ok s := by
  obtain ⟨c, rest, hc, hstart, -⟩ := Member.exists_of_isName hname.name
  refine classify_generic (compound_generic hname hus) (bare_generic hname hus).toFragment
    (array?_of_last (c := '>') ?_ (by decide)) (tuple?_of_head (c := c) ?_ ?_) hs
  · rw [← cons_append, ← append_assoc, getLast?_append]
    rfl
  · rw [hc]
    rfl
  · rintro rfl
    cases hstart

end GenericOf

section ContainerOf

variable {kind : Container} {name : String} (hk : containerName? kind = some name) {u : List Char}
  (hus : ∀ v ∈ u :: us, Fragment isChoiceChar v)
include hk

theorem isWord_containerName : IsWord name.toList := by
  cases kind <;> cases hk <;> exact ⟨by decide, by decide⟩

include hus

theorem bare_container :
    Bare isAtomChar (name.toList ++ '<' :: ([',', ' '].intercalate (u :: us) ++ ['>'])) :=
  bare_generic (isWord_containerName hk) hus

theorem compound_container :
    Compound (name.toList ++ '<' :: ([',', ' '].intercalate (u :: us) ++ ['>'])) :=
  compound_generic (isWord_containerName hk) hus

theorem classify_containerOf :
    classify (name.toList ++ '<' :: ([',', ' '].intercalate (u :: us) ++ ['>'])) =
      .ok (.container kind ((u :: us).map .text) []) :=
  classify_genericOf (isWord_containerName hk) hus (genericShape?_eq hk hus)

end ContainerOf

/-! ### Choices and intersections -/

section Joined

variable {mark : List Char}

theorem bare_intercalate (hmark : Balanced ok mark)
    (hfirst : ∃ c, mark.head? = some c ∧ isPart c = false) (hus : ∀ u ∈ us, Fragment ok u)
    (hlength : 2 ≤ us.length) : Bare ok (mark.intercalate us) := by
  have hfragment := Fragment.intercalate hmark hfirst hus (by rintro rfl; simp at hlength)
  match us, hlength with
  | u :: v :: rest, _ =>
    obtain ⟨d, hd, -⟩ := hfirst
    have hne : mark ≠ [] := by
      rintro rfl
      cases hd
    rw [intercalate_cons_cons, append_assoc] at hfragment ⊢
    exact .of_append hfragment (hus u (mem_cons_self ..)) (by simp [hne])

theorem compound_intercalate (hmark : Balanced ok mark)
    (hfirst : ∃ c, mark.head? = some c ∧ isPart c = false) (hus : ∀ u ∈ us, Fragment ok u)
    (hlength : 2 ≤ us.length) (hc : c ∈ mark) (hn : isNumeral c = false) :
    Compound (mark.intercalate us) := by
  have hbare := bare_intercalate hmark hfirst hus hlength
  match us, hlength with
  | u :: v :: rest, _ =>
    rw [intercalate_cons_cons, append_assoc] at hbare ⊢
    exact .of_append hbare (hus u (mem_cons_self ..)) (by simp [ne_nil_of_mem hc])
      (by simp [hc]) hn

end Joined

theorem splitTypes_choice (hus : ∀ u ∈ us, Fragment isMeetChar u) :
    splitTypes '|' ([' ', '|', ' '].intercalate us) = us :=
  splitTopNonempty_intercalate [' '] [' '] (by rfl) (by simp) (by simp) (mem_singleton_self _)
    fun u hu => (hus u hu).toSegment

theorem splitTypes_meet (hus : ∀ u ∈ us, Fragment isAtomChar u) :
    splitTypes '&' ([' ', '&', ' '].intercalate us) = us :=
  splitTopNonempty_intercalate [' '] [' '] (by rfl) (by simp) (by simp) (mem_singleton_self _)
    fun u hu => (hus u hu).toSegment

theorem intersection?_eq (hus : ∀ u ∈ us, Fragment isAtomChar u) (hlength : 2 ≤ us.length) :
    intersection? ([' ', '&', ' '].intercalate us) = some (.intersection (us.map .text)) := by
  rw [intersection?, splitTypes_meet hus]
  exact if_neg (by omega)

section MeetOf

variable (hus : ∀ u ∈ us, Fragment isAtomChar u)
include hus

theorem fragment_meet (hne : us ≠ []) : Fragment isMeetChar ([' ', '&', ' '].intercalate us) :=
  .intercalate (.of_all (forall_mem_of_all rfl)) ⟨' ', rfl, rfl⟩
    (fun u hu => (hus u hu).mono isMeetChar_of_isAtomChar) hne

variable (hlength : 2 ≤ us.length)
include hlength

theorem bare_meet : Bare isMeetChar ([' ', '&', ' '].intercalate us) :=
  bare_intercalate (.of_all (forall_mem_of_all rfl)) ⟨' ', rfl, rfl⟩
    (fun u hu => (hus u hu).mono isMeetChar_of_isAtomChar) hlength

theorem compound_meet : Compound ([' ', '&', ' '].intercalate us) := by
  have hmark : Balanced isMeetChar [' ', '&', ' '] := .of_all (forall_mem_of_all rfl)
  exact compound_intercalate hmark ⟨' ', rfl, rfl⟩
    (fun u hu => (hus u hu).mono isMeetChar_of_isAtomChar) hlength (c := '&') (by simp) rfl

theorem classify_meet :
    classify ([' ', '&', ' '].intercalate us) = .ok (.intersection (us.map .text)) :=
  classify_intersection (compound_meet hus hlength) (bare_meet hus hlength).toFragment
    (intersection?_eq hus hlength)

end MeetOf

section ChoiceOf

variable (hus : ∀ u ∈ us, Fragment isMeetChar u)
include hus

theorem fragment_choice (hne : us ≠ []) : Fragment isChoiceChar ([' ', '|', ' '].intercalate us) :=
  .intercalate (.of_all (forall_mem_of_all rfl)) ⟨' ', rfl, rfl⟩
    (fun u hu => (hus u hu).mono isChoiceChar_of_isMeetChar) hne

variable (hlength : 2 ≤ us.length)
include hlength

theorem bare_choice : Bare isChoiceChar ([' ', '|', ' '].intercalate us) :=
  bare_intercalate (.of_all (forall_mem_of_all rfl)) ⟨' ', rfl, rfl⟩
    (fun u hu => (hus u hu).mono isChoiceChar_of_isMeetChar) hlength

theorem compound_choice : Compound ([' ', '|', ' '].intercalate us) := by
  have hmark : Balanced isChoiceChar [' ', '|', ' '] := .of_all (forall_mem_of_all rfl)
  exact compound_intercalate hmark ⟨' ', rfl, rfl⟩
    (fun u hu => (hus u hu).mono isChoiceChar_of_isMeetChar) hlength (c := '|') (by simp) rfl

end ChoiceOf

/-- Values that are taken for an enumeration are all there. -/
theorem enumeration?_eq {os : List (Option Value)} (hread : us.mapM read? = .ok os) :
    ∃ values, enumeration? us = .ok values ∧ ∀ vs, values = some vs → os = vs.map some := by
  rw [enumeration?, hread]
  by_cases hnone : (os.isEmpty || os.any Option.isNone)
  · refine ⟨none, ?_, by simp⟩
    simp only [Bind.bind, Except.bind, hnone, if_true]
    rfl
  · have hsome : os = (os.filterMap id).map some := by
      simp only [Bool.or_eq_true, any_eq_true, not_or, not_exists, not_and] at hnone
      have hall := hnone.2
      clear hread hnone
      induction os with
      | nil => rfl
      | cons o os ih =>
        cases o with
        | none => exact absurd rfl (hall none (mem_cons_self ..))
        | some v =>
          exact congrArg (some v :: ·) (ih fun x hx => hall x (mem_cons_of_mem _ hx))
    simp only [Bind.bind, Except.bind]
    rw [if_neg hnone]
    split
    · exact ⟨some (os.filterMap id), rfl, by rintro vs ⟨⟩; exact hsome⟩
    · exact ⟨none, rfl, by simp⟩

/-- A choice is an enumeration of texts, a type or null, or a union. -/
theorem union?_eq (hsplit : splitTypes '|' cs = us) (hlength : 2 ≤ us.length)
    {os : List (Option Value)} (hread : us.mapM read? = .ok os) :
    (∃ vs, os = vs.map some ∧ union? cs = .ok (some (.enumeration vs))) ∨
      (∃ a, us = ["null".toList, a] ∧ union? cs = .ok (some (.nullable (.text a)))) ∨
      (∃ a, us = [a, "null".toList] ∧ union? cs = .ok (some (.nullable (.text a)))) ∨
      union? cs = .ok (some (.union (us.map .text))) := by
  obtain ⟨values, hvalues, hall⟩ := enumeration?_eq hread
  rw [union?, hsplit]
  simp only [show ¬us.length < 2 by omega, if_false, hvalues, Bind.bind, Except.bind]
  cases hfilter : values.filter fun vs => vs.all Literal.isTextValue with
  | some vs =>
    have hvs := hall vs (Option.filter_eq_some_iff.mp hfilter).1
    exact .inl ⟨vs, hvs, rfl⟩
  | none =>
    refine .inr ?_
    dsimp only
    split
    · rename_i a b
      by_cases ha : a = "null".toList
      · exact .inl ⟨b, by rw [ha], by rw [if_pos (beq_iff_eq.mpr ha)]; rfl⟩
      · by_cases hb : b = "null".toList
        · refine .inr (.inl ⟨a, by rw [hb], ?_⟩)
          rw [if_neg (mt beq_iff_eq.mp ha), if_pos (beq_iff_eq.mpr hb)]
          rfl
        · refine .inr (.inr ?_)
          rw [if_neg (mt beq_iff_eq.mp ha), if_neg (mt beq_iff_eq.mp hb)]
          rfl
    · exact .inr (.inr rfl)

end TypeScript

end Crosswalk
