import Crosswalk.Proofs.ChainNormalForms
import Crosswalk.Source.Sql

/-!
Lists of SQL literals. A quote inside a value is written twice, and a list is read by taking two
quotes, from the left, for an escaped one. The quote that opens a literal may be the first of such a
pair. Main statement: of values without backslashes those are read whose first character is no
quote, and the others are lost.
-/

namespace Crosswalk.Sql

open List

variable {c : Char} {v mark : List Char}

/-- A value whose quotes are written as `mark`. -/
def spell (mark v : List Char) : List Char := v.flatMap fun c => if c = '\x27' then mark else [c]

theorem spell_quote : spell mark ('\x27' :: v) = mark ++ spell mark v := rfl

theorem spell_cons (hc : c ≠ '\x27') : spell mark (c :: v) = c :: spell mark v := by
  simp [spell, hc]

/-- The literal of a value. -/
def literal (v : List Char) : List Char := '\x27' :: (spell ['\x27', '\x27'] v ++ ['\x27'])

/-- There is a first character, and it is no quote. -/
def startsPlain (v : List Char) : Bool := v.head?.any (· != '\x27')

/-! ### Splitting -/

theorem step_literal (hb : '\\' ≠ c) (hc : c ≠ '\x27') (tracked : List Char) (p : Option Char) :
    Scan.step tracked p c { mode := .literal '\x27' } = { mode := .literal '\x27' } := by
  simp [Scan.step, hb.symm, hc]

theorem passes_spell (hv : '\\' ∉ v) (p : Option Char) :
    Passes tracked [','].contains p { mode := .literal '\x27' }
      (spell ['\x27', '\x27'] v ++ ['\x27'])
      (some '\x27') {} := by
  induction v generalizing p with
  | nil => exact .cons rfl .nil
  | cons c v ih =>
    rw [mem_cons, not_or] at hv
    by_cases hc : c = '\x27'
    · subst hc
      exact .cons rfl (.cons rfl (ih hv.2 _))
    · rw [spell_cons hc]
      refine .cons rfl ?_
      rw [step_literal hv.1 hc]
      exact ih hv.2 _

theorem splitFrom_literals {vs : List (List Char)} (hvs : ∀ v ∈ vs, '\\' ∉ v) (hne : vs ≠ [])
    {part : List Char} (hpart : ∀ c ∈ part, c = ' ') (p : Option Char) :
    splitFrom tracked [','] part p {} ([',', ' '].intercalate (vs.map literal)) =
      vs.map literal := by
  induction vs generalizing part p with
  | nil => exact absurd rfl hne
  | cons v vs ih =>
    obtain ⟨hv, hvs⟩ := forall_mem_cons.mp hvs
    have hpass : Passes tracked [','].contains p {} (literal v) (some '\x27') {} :=
      .cons rfl (passes_spell hv _)
    have htrim : Text.trim ((literal v).reverse ++ part).reverse = literal v := by
      have hlast : (literal v).getLast? = some '\x27' := getLast?_concat (l := '\x27' :: _)
      have hblank : ∀ c ∈ part.reverse, Text.isBlank c := by simpa using isBlank_of_spaces hpart
      simpa using Text.trim_append hblank (forall_mem_nil _) ⟨_, rfl, rfl⟩ ⟨_, hlast, rfl⟩
    cases vs with
    | nil =>
      have hsplit := splitFrom_passes hpass part []
      rw [append_nil] at hsplit
      rw [map_singleton, intercalate_singleton, hsplit, splitFrom, htrim]
    | cons w vs =>
      rw [map_cons, map_cons, intercalate_cons_cons, append_assoc, splitFrom_passes hpass,
        cons_append, splitFrom_separator (mem_singleton_self _), htrim]
      exact congrArg _ (ih hvs (by simp) (forall_mem_singleton.mpr rfl) (some ' '))

/-! ### Reading one literal -/

theorem unescapeQuotes_pair (cs : List Char) :
    unescapeQuotes ('\x27' :: '\x27' :: cs) = '\\' :: '\x27' :: unescapeQuotes cs :=
  Zod.replaceAll_mark ..

theorem unescapeQuotes_cons {d : Char} (h : ¬(c = '\x27' ∧ d = '\x27')) (cs : List Char) :
    unescapeQuotes (c :: d :: cs) = c :: unescapeQuotes (d :: cs) := by
  rw [unescapeQuotes, Text.replaceAll, Text.replaceFrom, if_neg]
  · rfl
  · simpa [Text.startsWith, Text.after?, @eq_comm _ '\x27'] using h

theorem unescapeQuotes_spell (v : List Char) :
    unescapeQuotes (spell ['\x27', '\x27'] v ++ ['\x27']) = spell ['\\', '\x27'] v ++ ['\x27'] := by
  induction v with
  | nil => rfl
  | cons c v ih =>
    by_cases hc : c = '\x27'
    · subst hc
      exact (unescapeQuotes_pair _).trans (congrArg (['\\', '\x27'] ++ ·) ih)
    · obtain ⟨d, ds, hds⟩ : ∃ d ds, spell ['\x27', '\x27'] v ++ ['\x27'] = d :: ds :=
        exists_cons_of_ne_nil (by simp)
      rw [spell_cons hc, spell_cons hc, cons_append, hds, unescapeQuotes_cons (by simp [hc]), ← hds,
        ih, cons_append]

theorem unescapeQuotes_literal (h : startsPlain v) :
    unescapeQuotes (literal v) = '\x27' :: (spell ['\\', '\x27'] v ++ ['\x27']) := by
  cases v with
  | nil => cases h
  | cons c v =>
    have hc : c ≠ '\x27' := by simpa [startsPlain] using h
    rw [← unescapeQuotes_spell, literal, spell_cons hc]
    exact unescapeQuotes_cons (by simp [hc]) _

/-- The quote that opens the literal is taken for the first of a pair. -/
theorem exists_unescapeQuotes_literal (h : startsPlain v = false) :
    ∃ w, unescapeQuotes (literal v) = '\\' :: (w ++ ['\x27']) := by
  induction v with
  | nil => exact ⟨[], rfl⟩
  | cons c v ih =>
    obtain rfl : c = '\x27' := by simpa [startsPlain] using h
    have hpair :
        unescapeQuotes (literal ('\x27' :: v)) = '\\' :: '\x27' :: unescapeQuotes (literal v) :=
      unescapeQuotes_pair _
    cases hv : startsPlain v with
    | true => exact ⟨'\x27' :: '\x27' :: spell ['\\', '\x27'] v,
      by rw [hpair, unescapeQuotes_literal hv]; rfl⟩
    | false =>
      obtain ⟨w, hw⟩ := ih hv
      exact ⟨'\x27' :: '\\' :: w, by rw [hpair, hw]; rfl⟩

theorem literalCloseFrom_spell (hv : '\\' ∉ v) (i : Nat) :
    literalCloseFrom { mode := .literal '\x27' } i (spell ['\\', '\x27'] v ++ ['\x27']) =
      (spell ['\\', '\x27'] v).length + i := by
  induction v generalizing i with
  | nil => exact (Nat.zero_add i).symm
  | cons c v ih =>
    rw [mem_cons, not_or] at hv
    by_cases hc : c = '\x27'
    · subst hc
      exact (ih hv.2 (i + 1 + 1)).trans (by simp [spell_quote]; omega)
    · rw [spell_cons hc, cons_append, literalCloseFrom, step_literal hv.1 hc]
      exact (ih hv.2 (i + 1)).trans (by simp; omega)

theorem unquote_spell (hv : '\\' ∉ v) :
    Literal.unquote ('\x27' :: (spell ['\\', '\x27'] v ++ ['\x27'])) = .ok v := by
  have hquotes : Text.replaceAll ['\\', '\x27'] ['\x27'] (spell ['\\', '\x27'] v) = v := by
    induction v with
    | nil => rfl
    | cons c v ih =>
      rw [mem_cons, not_or] at hv
      by_cases hc : c = '\x27'
      · subst hc
        exact (Zod.replaceAll_mark ..).trans (congrArg _ (ih hv.2))
      · rw [spell_cons hc, Text.replaceAll, Text.replaceFrom,
            if_neg (by simp [Text.startsWith, Text.after?, hv.1])]
        exact congrArg _ (ih hv.2)
  rw [Literal.unquote, dropLast_concat, hquotes, Member.replaceAll_eq_self hv]

/-- What reading finds in a literal. -/
theorem read?_literal (hv : '\\' ∉ v) :
    Literal.read? (unescapeQuotes (literal v)) =
      .ok (if startsPlain v then some (.text (String.ofList v)) else none) := by
  cases h : startsPlain v with
  | false =>
    obtain ⟨w, hw⟩ := exists_unescapeQuotes_literal h
    rw [hw]
    exact Literal.read?_eq_none (Text.trim_between rfl rfl w)
      (isStringLiteral_of_head (by decide) _) (mem_cons_self ..) rfl
  | true =>
    have hliteral :=
      isStringLiteral_of_close (q := '\x27') rfl (congrArg some (literalCloseFrom_spell hv 1))
    have htrim := Text.trim_between (c := '\x27') (d := '\x27') rfl rfl (spell ['\\', '\x27'] v)
    simp only [unescapeQuotes_literal h, Literal.read?, htrim, hliteral, if_true, unquote_spell hv]
    rfl

/-- A list of the literals of values. -/
def literalList (vs : List (List Char)) : List Char := [',', ' '].intercalate (vs.map literal)

/-- Of the values in a list those are read that start with a character other than a quote, so that
the list comes back if all do. -/
theorem literals_literalList {vs : List (List Char)} (hvs : ∀ v ∈ vs, '\\' ∉ v) :
    literals (literalList vs) = .ok ((vs.filter startsPlain).map fun v => .text (String.ofList v)) ∧
      (literals (literalList vs) = .ok (vs.map fun v => .text (String.ofList v)) ↔
        ∀ v ∈ vs, startsPlain v = true) := by
  have hsplit : splitTopNonempty tracked [','] (literalList vs) = vs.map literal := by
    cases vs with
    | nil => rfl
    | cons v vs =>
      rw [splitTopNonempty, literalList, splitFrom_literals hvs (by simp) (by simp), filter_eq_self]
      simp [literal]
  have hread : (vs.map literal).mapM (fun p => Literal.read? (unescapeQuotes p)) =
      .ok (vs.map fun v => if startsPlain v then some (.text (String.ofList v)) else none) :=
    mapM_map.trans (mapM_eq_map fun v hv => read?_literal (hvs v hv))
  have hkept : literals (literalList vs) =
      .ok ((vs.filter startsPlain).map fun v => .text (String.ofList v)) := by
    rw [literals, hsplit, hread]
    refine congrArg Except.ok ?_
    rw [filterMap_map, ← filterMap_eq_map, ← filterMap_eq_filter, filterMap_filterMap]
    congr 1
    funext v
    cases h : startsPlain v <;> simp [Option.guard, h]
  refine ⟨hkept, ?_⟩
  rw [hkept, Except.ok.injEq]
  constructor
  · intro h
    simpa using congrArg List.length h
  · intro h
    rw [filter_eq_self.mpr h]

theorem literals_quotes :
    literals "'a', '', '''b', 'c''d'".toList = .ok [.text "a", .text "c'd"] :=
  (@literals_literalList ["a".toList, [], "'b".toList, "c'd".toList] (by decide)).1

end Crosswalk.Sql
