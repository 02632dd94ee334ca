import Crosswalk.Conversion
import Crosswalk.Proofs.ReadBack
import Crosswalk.Proofs.ScriptFields
import Crosswalk.Proofs.ScriptGroups

/-!
Type expressions are mapped to themselves: what is written for a term is read as the same term, up
to the nesting of choices and intersections, which the notation does not show.
-/

namespace Crosswalk.TypeScript

open List
open Crosswalk.Language
open Mapping (Yields)
open Member (isReadableKey)
open String (ofList ofList_toList toList_inj)

variable {word : String} {p : Primitive} {pad : List Char} {vs : List Value}

/-- Terms whose expressions are read back. -/
inductive Readable (known : List Scalar) : Term → Prop
  | primitive (word : String) {p : Primitive} {cs : List Constraint}
      (hword : keyword? word = some p)
      (hnull : p ≠ .null) : Readable known (.primitive p cs)
  | truth (b : Bool) : Readable known (.literal (.bool b))
  | integer {i : Int} (hi : (decimalDigits i.natAbs).length ≤ 4300) :
    Readable known (.literal (.int i))
  | text {s : String} (hs : ∀ c ∈ s.toList, Literal.isWritable c = true) :
      Readable known (.literal (.text s))
  | reference {name : String} (hknown : .text name ∈ known) (hname : IsReference name.toList) :
      Readable known (.reference name)
  | array {t : Term} {cs : List Constraint} (ht : Readable known t) : Readable known (.array t cs)
  | tuple {ts : List Term} (hts : ∀ t ∈ ts, Readable known t) : Readable known (.tuple ts)
  | union {ts : List Term} (hts : ∀ t ∈ ts, Readable known t) (hlength : 2 ≤ ts.length) :
      Readable known (.union ts)
  | intersection {ts : List Term} (hts : ∀ t ∈ ts, Readable known t) (hlength : 2 ≤ ts.length) :
      Readable known (.intersection ts)
  | nullable {t : Term} (ht : Readable known t) : Readable known (.nullable t)
  | container {kind : Container} {ts : List Term} (hkind : (containerName? kind).isSome = true)
      (hts : ∀ t ∈ ts, Readable known t) (hne : ts ≠ []) : Readable known (.container kind ts)
  | object {fs : List (Term.Member × Term)} {a : Option (Additional Term)}
      (hkeys : ∀ f ∈ fs, isReadableKey f.1.key = true) (hfs : ∀ f ∈ fs, Readable known f.2)
      (ha : ∀ t, a = some (.typed t) → Readable known t) : Readable known (.object fs a)

/-- Type expressions that a mapping reads, at any indentation. -/
abbrev language (m : Mapping String) (known : List Scalar) : Language String (List Char) where
  mapping := m
  known := known
  scale := .plain
  expression := ofList
  raws := fun e raw => ∃ pad, (∀ c ∈ pad, c = ' ') ∧ raw = .text (reindent pad e)
  under := fun _ => True

/-- Text that is mapped to `e` within any budget from `k` on. -/
abbrev Reads (m : Mapping String) (known : List Scalar) (k : Nat) (raw e : List Char) : Prop :=
  (language m known).Reads k raw e

/-- Expressions are read and written by the same mapping, with lines indented by `unit`. -/
structure Mirrors (m : Mapping String) (unit : List Char) : Prop where
  grammar : m.grammar = .typeScript
  renderer : m.renderer = Target.TypeScript.renderer ⟨.text (ofList unit)⟩
  inline : m.inline = false
  spaces : ∀ c ∈ unit, c = ' '

variable {m : Mapping String} {unit : List Char} {known : List Scalar} {k k' : Nat}
  {raw e : List Char}

theorem Mirrors.reads (hm : Mirrors m unit)
    (hs : ∀ pad, (∀ c ∈ pad, c = ' ') → ∃ s, classify (reindent pad raw) = .ok s ∧
      ∀ site budget ancestors, k ≤ budget →
        Yields (m.shape site known (m.mapType site known budget)
          (m.mapReference site known (budget + 1) ancestors) ancestors s) (ofList e)) :
    Reads m known (k + 1) raw e := by
  refine reads_of_shape fun _ hraw => ?_
  obtain ⟨pad, hpad, rfl⟩ := hraw
  obtain ⟨s, hclassify, hyields⟩ := hs pad hpad
  refine ⟨s, ?_, fun site budget ancestors _ hb => hyields site budget ancestors hb⟩
  rw [hm.grammar]
  exact hclassify

/-- Parentheses around a type do not change what it is mapped to. -/
theorem Mirrors.reads_parens (hm : Mirrors m unit) {ok : Char → Bool}
    (hok : ok '\n' → ok ' ') (hb : Bare ok raw) (hr : Reads m known (k + 1) raw e) :
    Reads m known (k + 1) ('(' :: (raw ++ [')'])) e := by
  rintro _ ⟨pad, hpad, rfl⟩ site budget ancestors - hbudget
  obtain ⟨budget, rfl⟩ := Nat.exists_eq_add_of_le' (show 1 ≤ budget by omega)
  have hparens : reindent pad ('(' :: (raw ++ [')'])) = '(' :: (reindent pad raw ++ [')']) := by
    rw [reindent_cons (by decide), reindent_append]
    rfl
  have hclassify : m.grammar.classify m.scope (.text (reindent pad ('(' :: (raw ++ [')'])))) =
      m.grammar.classify m.scope (.text (reindent pad raw)) := by
    rw [hm.grammar, hparens]
    exact classify_parens (hb.reindent hpad hok)
  have hyields := hr _ ⟨pad, hpad, rfl⟩ site (budget + 1) ancestors trivial hbudget
  rw [Mapping.mapType_succ] at hyields ⊢
  rwa [hclassify]

/-- The parts of an expression are read at its indentation. -/
theorem yields_reindented {es : List (List Char)} (hpad : ∀ c ∈ pad, c = ' ') {budget : Nat}
    (hle : k ≤ budget) (site : Site) (ancestors : List Scalar) (h : ∀ e ∈ es, Reads m known k e e) :
    Yields (((es.map (reindent pad)).map .text).mapM (m.mapType site known budget ancestors))
      (es.map ofList) := by
  rw [map_map]
  exact yields_members (L := language m known) _ (fun _ => ⟨pad, hpad, rfl⟩) site ancestors trivial
    hle h

/-! ### Choices -/

/-- The literal that a text is, if any, at each indentation; it is written as the text. -/
structure Spells (u : List Char) (o : Option Value) : Prop where
  read : ∀ pad, (∀ c ∈ pad, c = ' ') → Literal.read? (reindent pad u) = .ok o
  write : ∀ v ∈ o, Target.TypeScript.literal v = .ok (ofList u)
  shown : ∀ v ∈ o, v.hasText

/-- One branch of a choice: an expression without a choice at its top level. -/
structure Branch (m : Mapping String) (known : List Scalar) (h : Nat) (u : List Char) : Prop where
  bare : Bare isMeetChar u
  reads : Reads m known h u u
  literal : ∃ o, Spells u o
  members : ∃ vs, Meets u vs ∧ ∀ v ∈ vs, Reads m known h (grouped v) v

structure Branches (m : Mapping String) (known : List Scalar) (h : Nat) (us : List (List Char))
    (e : List Char) : Prop where
  nonempty : us ≠ []
  -- Null before another branch would be written behind it.
  first : us.head? ≠ some "null".toList
  text : e = [' ', '|', ' '].intercalate us
  each : ∀ u ∈ us, Branch m known h u

variable {u : List Char} {us : List (List Char)}

theorem Branch.mono (hu : Branch m known k u) (hle : k ≤ k') : Branch m known k' u where
  bare := hu.bare
  reads := hu.reads.mono hle
  literal := hu.literal
  members := by
    obtain ⟨vs, hvs, hreads⟩ := hu.members
    exact ⟨vs, hvs, fun v hv => (hreads v hv).mono hle⟩

theorem Branch.of_atom (hb : Bare isAtomChar u) (hr : Reads m known k u u) (hl : ∃ o, Spells u o) :
    Branch m known k u where
  bare := hb.mono isMeetChar_of_isAtomChar
  reads := hr
  literal := hl
  members := by
    have hgrouped : grouped u = u := grouped_eq_self (hb.toFragment.mono isMeetChar_of_isAtomChar)
    refine ⟨[u], ⟨by simp, by simp, ?_⟩, ?_⟩
    · rw [forall_mem_singleton, hgrouped]
      exact hb.toFragment
    · rwa [forall_mem_singleton, hgrouped]

namespace Branches

variable (hb : Branches m known k us e)
include hb

theorem fragments : ∀ u ∈ us, Fragment isMeetChar u := fun u hu => (hb.each u hu).bare.toFragment

theorem fragment : Fragment isChoiceChar e := by
  rw [hb.text]
  exact fragment_choice hb.fragments hb.nonempty

theorem mono (hle : k ≤ k') : Branches m known k' us e :=
  { hb with each := fun u hu => (hb.each u hu).mono hle }

theorem bare : Bare isChoiceChar e := by
  rw [hb.text]
  by_cases hlength : 2 ≤ us.length
  · exact bare_choice hb.fragments hlength
  · obtain ⟨u, rest, rfl⟩ := exists_cons_of_ne_nil hb.nonempty
    obtain rfl : rest = [] := by simpa using hlength
    rw [intercalate_singleton]
    exact (hb.each u (mem_cons_self ..)).bare.mono isChoiceChar_of_isMeetChar

theorem joined : ∃ vs, Joined isAtomChar ['|', '&'] vs e := by
  rw [hb.text]
  refine exists_joined_choice (fun u hu => ?_) hb.nonempty
  obtain ⟨vs, hvs, -⟩ := (hb.each u hu).members
  refine ⟨vs.map grouped, ?_⟩
  have hself := hvs.grouped_eq
  rw [grouped_eq_self (hb.fragments u hu)] at hself
  rw [hself]
  exact joined_meet (forall_mem_map.mpr hvs.atoms) hvs.intercalate_ne

end Branches

/-- The members that a choice, or an expression without one, adds to an intersection. -/
theorem Mirrors.exists_meets (hm : Mirrors m unit) (hb : Branches m known (k + 1) us e)
    (hr : Reads m known (k + 1) e e) :
    ∃ vs, Meets e vs ∧ ∀ v ∈ vs, Reads m known (k + 1) (grouped v) v := by
  obtain ⟨u, rest, rfl⟩ := exists_cons_of_ne_nil hb.nonempty
  cases rest with
  | nil =>
    rw [hb.text, intercalate_singleton]
    exact (hb.each u (mem_cons_self ..)).members
  | cons v rest =>
    have hgrouped : grouped e = '(' :: (e ++ [')']) := by
      rw [hb.text]
      exact grouped_choice hb.fragments (by simp)
    refine ⟨[e], ⟨by simp, by simp, ?_⟩, ?_⟩
    · rw [forall_mem_singleton, hgrouped]
      exact fragment_parens hb.fragment.balanced
    · rw [forall_mem_singleton, hgrouped]
      exact hm.reads_parens (fun _ => rfl) hb.bare hr

theorem mapM_read? {os : List (Option Value)} (h : Forall₂ Spells us os)
    (hpad : ∀ c ∈ pad, c = ' ') :
    (us.map (reindent pad)).mapM Literal.read? = .ok os := by
  induction h with
  | nil => rfl
  | cons ho _ ih =>
    rw [map_cons, mapM_cons, ho.read pad hpad, ih]
    rfl

theorem mapM_literal (h : Forall₂ (fun u v => Spells u (some v)) us vs) :
    vs.mapM Target.TypeScript.literal = .ok (us.map ofList) := by
  induction h with
  | nil => rfl
  | cons hv _ ih =>
    rw [mapM_cons, hv.write _ rfl, ih]
    rfl

theorem enumeration_eq (h : Forall₂ (fun u v => Spells u (some v)) us vs) (hne : us ≠ []) :
    Target.TypeScript.enumeration vs = .ok (ofList ([' ', '|', ' '].intercalate us)) := by
  have hmap := mapM_literal h
  cases h with
  | nil => exact absurd rfl hne
  | cons _ _ =>
    rw [Target.TypeScript.enumeration, hmap]
    · exact congrArg Except.ok (intercalate_ofList " | " _)
    · simp

namespace Mirrors

variable (hm : Mirrors m unit)
include hm

theorem union_eq (es : List (List Char)) : m.renderer.union (es.map ofList) =
    .ok (ofList ([' ', '|', ' '].intercalate es)) := by
  rw [hm.renderer]
  exact congrArg Except.ok (intercalate_ofList " | " es)

theorem nullable_eq (e : List Char) : m.renderer.nullable (ofList e) =
    .ok (ofList ([' ', '|', ' '].intercalate [e, "null".toList])) := by
  rw [hm.renderer]
  refine congrArg Except.ok ?_
  rw [← toList_inj]
  simp

theorem yields_enumeration (h : Forall₂ (fun u v => Spells u (some v)) us vs) (hne : us ≠ [])
    (site : Site) :
    Yields (m.enumeration site vs) (ofList ([' ', '|', ' '].intercalate us)) := by
  have hrender : m.renderer.enumeration site vs =
      .ok (ofList ([' ', '|', ' '].intercalate us), []) := by
    rw [hm.renderer]
    simp only [Target.TypeScript.renderer, enumeration_eq h hne]
    rfl
  exact (Yields.lift hrender).bind ((Yields.forM (by simp)).bind (Yields.pure _))

end Mirrors

/-- A choice is mapped to itself, whichever of the rules for choices takes it. -/
theorem Mirrors.reads_branches (hm : Mirrors m unit) (hb : Branches m known k us e)
    (hlength : 2 ≤ us.length) : Reads m known (k + 1) e e := by
  refine hm.reads fun pad hpad => ?_
  have htext : reindent pad e = [' ', '|', ' '].intercalate (us.map (reindent pad)) := by
    rw [hb.text, reindent_intercalate (by decide)]
  have hfragments : ∀ w ∈ us.map (reindent pad), Fragment isMeetChar w :=
    forall_mem_map.mpr fun u hu => (hb.fragments u hu).reindent hpad fun _ => rfl
  have hsplit : splitTypes '|' (reindent pad e) = us.map (reindent pad) := by
    rw [htext]
    exact splitTypes_choice hfragments
  have hcompound : Compound (reindent pad e) := by
    rw [htext]
    exact compound_choice hfragments (by simpa using hlength)
  obtain ⟨os, hos⟩ := exists_forall₂ fun u hu => (hb.each u hu).literal
  have hreads {budget : Nat} (hle : k ≤ budget) (site : Site) (ancestors : List Scalar) :
      Yields (((us.map (reindent pad)).map .text).mapM (m.mapType site known budget ancestors))
        (us.map ofList) :=
    yields_reindented hpad hle site ancestors fun u hu => (hb.each u hu).reads
  rw [hb.text]
  rw [hb.text] at hsplit hcompound
  rcases union?_eq hsplit (by simpa using hlength) (mapM_read? hos hpad) with
    ⟨vs, rfl, hunion⟩ | ⟨a, heq, -⟩ | ⟨a, heq, hunion⟩ | hunion
  · refine ⟨_, classify_union hcompound hunion, fun site budget ancestors _ => ?_⟩
    have hshown : Mapping.rangeShown vs := Mapping.rangeShown_of_hasText fun v hv => by
      obtain ⟨u, -, hu⟩ := exists_mem_of_forall₂ (forall₂_map_right_iff.mp hos) hv
      exact hu.shown v rfl
    exact (Mapping.yields_checkRange hshown site).bind
      (hm.yields_enumeration (forall₂_map_right_iff.mp hos) hb.nonempty site)
  · -- A choice does not begin with null, whatever its indentation.
    obtain ⟨u, rest, rfl, hu, -⟩ := map_eq_cons_iff.mp heq
    have hnull := eq_of_reindent_eq hu (by decide)
    exact absurd (congrArg some hnull) hb.first
  · obtain ⟨u, rest, rfl, hu, hrest⟩ := map_eq_cons_iff.mp heq
    obtain ⟨v, rfl, hv⟩ := map_eq_singleton_iff.mp hrest
    have hnull := eq_of_reindent_eq hv (by decide)
    refine ⟨_, classify_union hcompound hunion, fun site budget ancestors hle => ?_⟩
    rw [← hu, hnull]
    exact ((hb.each u (mem_cons_self ..)).reads _ ⟨pad, hpad, rfl⟩ site budget ancestors trivial
      hle).bind (Yields.lift (hm.nullable_eq u))
  · refine ⟨_, classify_union hcompound hunion, fun site budget ancestors hle => ?_⟩
    refine (hreads hle site ancestors).bind ?_
    match us, hlength with
    | u :: v :: rest, _ => exact Yields.lift (hm.union_eq (u :: v :: rest))

/-! ### Written terms -/

/-- The expression of a term. Nested choices are written in one row, so that the branches of a part
are branches of the whole. -/
structure Written (m : Mapping String) (known : List Scalar) (t : Term) (e : List Char) : Prop
    extends (language m known).Writes t e where
  branches : ∃ us, Branches m known (t.depth .plain + 1) us e

variable {t : Term} {ts : List Term} {es vs : List (List Char)} {vss : List (List (List Char))}

theorem Written.of_branch (hrender : t.render m.renderer = .ok (ofList e))
    (he : Branch m known (t.depth .plain + 1) e) (hnull : e ≠ "null".toList) :
    Written m known t e where
  render := hrender
  reads := he.reads
  branches := ⟨[e], by simp, by simpa using hnull, by simp, by simpa using he⟩

theorem Written.of_compound (hrender : t.render m.renderer = .ok (ofList e))
    (hb : Bare isAtomChar e) (hr : Reads m known (t.depth .plain + 1) e e)
    (hc : ∀ pad, (∀ c ∈ pad, c = ' ') → Compound (reindent pad e)) : Written m known t e := by
  refine .of_branch hrender
    (.of_atom hb hr ⟨none, fun pad hpad => (hc pad hpad).literal, by simp, by simp⟩) ?_
  rintro rfl
  cases (hc [] (by simp)).keyword

theorem isWord_of_keyword? (hword : keyword? word = some p) :
    IsWord word.toList ∧ Target.TypeScript.primitive p = word := by
  unfold keyword? at hword
  split at hword
  all_goals first
    | exact ⟨⟨by decide, by decide⟩, by cases hword; rfl⟩
    | cases hword

theorem Branches.append (ha : Branches m known k us e) (hvs : ∀ v ∈ vs, Branch m known k v) :
    Branches m known k (us ++ vs) ([' ', '|', ' '].intercalate (us ++ vs)) where
  nonempty := by simp [ha.nonempty]
  first := by
    obtain ⟨u, rest, rfl⟩ := exists_cons_of_ne_nil ha.nonempty
    exact ha.first
  text := rfl
  each := forall_mem_append.mpr ⟨ha.each, hvs⟩

theorem length_flatten_meets (h : Forall₂ Meets es vss) : es.length ≤ vss.flatten.length := by
  induction h with
  | nil => simp
  | cons hv _ ih =>
    have hpos := length_pos_iff.mpr hv.nonempty
    simp only [flatten_cons, length_append, length_cons]
    omega

theorem atoms_flatten_meets (h : Forall₂ Meets es vss) :
    ∀ v ∈ vss.flatten, Fragment isAtomChar (grouped v) := by
  intro v hv
  obtain ⟨vs, hvs, hv⟩ := mem_flatten.mp hv
  obtain ⟨e, -, hmeets⟩ := exists_mem_of_forall₂ h hvs
  exact hmeets.atoms v hv

theorem meets_self (hatoms : ∀ v ∈ vs, Fragment isAtomChar (grouped v)) :
    Forall₂ Meets vs (vs.map fun v => [v]) := by
  refine forall₂_map_right_iff.mpr (forall₂_same.mpr fun v hv => ⟨by simp, by simp, ?_⟩)
  rw [forall_mem_singleton]
  exact hatoms v hv

section Parts

variable (h : Forall₂ (Written m known) ts es)
include h

theorem fragments_written : ∀ e ∈ es, Fragment isChoiceChar e := by
  intro e he
  obtain ⟨t, -, ht⟩ := exists_mem_of_forall₂ h he
  obtain ⟨us, hb⟩ := ht.branches
  exact hb.fragment

theorem reindent_fragments (hpad : ∀ c ∈ pad, c = ' ') :
    ∀ e ∈ es.map (reindent pad), Fragment isChoiceChar e :=
  forall_mem_map.mpr fun e he => (fragments_written h e he).reindent hpad fun _ => rfl

theorem exists_branches (hne : ts ≠ []) :
    ∃ us, ts.length ≤ us.length ∧
      Branches m known (Term.depthBelow .plain ts) us ([' ', '|', ' '].intercalate es) := by
  induction h with
  | nil => exact absurd rfl hne
  | @cons t e ts es ht hts ih =>
    obtain ⟨us, hus⟩ := ht.branches
    have hfirst := hus.mono (show t.depth .plain + 1 ≤ Term.depthBelow .plain (t :: ts) by
      rw [Term.depthBelow]
      omega)
    have hlength := length_pos_iff.mpr hus.nonempty
    cases hts with
    | nil => exact ⟨us, hlength, by rwa [intercalate_singleton]⟩
    | @cons t' e' ts es ht' hts =>
      obtain ⟨vs, hvs, hrest⟩ := ih (by simp)
      have hrest' := hrest.mono (show _ ≤ Term.depthBelow .plain (t :: t' :: ts) by
        rw [Term.depthBelow.eq_2 _ t]
        omega)
      refine ⟨us ++ vs, by simp only [length_cons, length_append] at hvs ⊢; omega, ?_⟩
      have hboth := hfirst.append hrest'.each
      rw [intercalate_append hus.nonempty hrest.nonempty, ← hus.text, ← hrest.text] at hboth
      rw [intercalate_cons_cons, append_assoc]
      exact hboth

end Parts

section Terms

variable (hm : Mirrors m unit)
include hm

theorem branch_keyword (hword : keyword? word = some p) : Branch m known 1 word.toList := by
  obtain ⟨hw, hprimitive⟩ := isWord_of_keyword? hword
  refine .of_atom hw.bare (hm.reads fun pad _ => ⟨.primitive p [], ?_, ?_⟩)
    ⟨none, fun pad _ => ?_, by simp, by simp⟩
  · rw [reindent_eq_self hw.newline_notMem]
    exact classify_keyword hw (by rwa [ofList_toList])
  · intro site budget ancestors _
    refine Yields.lift ?_
    rw [hm.renderer, ofList_toList]
    exact congrArg Except.ok hprimitive
  · rw [reindent_eq_self hw.newline_notMem]
    exact hw.read?_eq

theorem written_primitive (hword : keyword? word = some p) (hnull : p ≠ .null)
    (cs : List Constraint) :
    Written m known (.primitive p cs) word.toList := by
  refine .of_branch ?_ (branch_keyword hm hword) ?_
  · rw [Term.render, hm.renderer, ofList_toList]
    exact congrArg Except.ok (isWord_of_keyword? hword).2
  · intro heq
    rw [toList_inj.mp heq] at hword
    cases hword
    exact hnull rfl

theorem written_literal {v : Value} (hbare : Bare isAtomChar e) (hn : '\n' ∉ e)
    (hk : keyword? (ofList e) = none) (hread : Literal.read? e = .ok (some v))
    (hwrite : Target.TypeScript.literal v = .ok (ofList e)) (htext : v.hasText) :
    Written m known (.literal v) e := by
  have hreads : Reads m known 1 e e := by
    refine hm.reads fun pad _ => ⟨.literal v, ?_, fun site budget ancestors _ => ?_⟩
    · rw [reindent_eq_self hn]
      exact classify_literal hbare hk hread
    · have hshown : Mapping.rangeShown [v] := Mapping.rangeShown_of_hasText (by simpa)
      refine (Mapping.yields_checkRange hshown site).bind (Yields.lift ?_)
      rw [hm.renderer]
      exact hwrite
  refine .of_branch ?_ (.of_atom hbare hreads ⟨some v, fun pad _ => ?_, ?_, by simpa⟩) ?_
  · rw [Term.render, hm.renderer]
    exact hwrite
  · rwa [reindent_eq_self hn]
  · rintro v' ⟨⟩
    exact hwrite
  · rintro rfl
    cases hk

theorem written_truth (b : Bool) :
    Written m known (.literal (.bool b)) (if b then "true" else "false").toList := by
  cases b
  all_goals
    exact written_literal hm
      (.of_head (Fragment.of_word (by decide) (forall_mem_of_all rfl) (by decide)) (by decide))
      (by decide) (by decide) rfl rfl rfl

/-- Integers are written in decimal, with a mark if a number may not hold them. -/
theorem written_integer {i : Int} (hi : (decimalDigits i.natAbs).length ≤ 4300) :
    Written m known (.literal (.int i)) (intChars i ++ Literal.exactMark i) := by
  have hmark := Literal.isPart_exactMark i
  have hatom := Literal.isAtomChar_intChars i hmark
  have hkeyword : keyword? (ofList (intChars i ++ Literal.exactMark i)) = none := by
    obtain ⟨d, ds, hds, hd⟩ := exists_decimalDigits i.natAbs
    exact keyword?_eq_none (c := d) (by simp [intChars, hds]) (isAlpha_of_isDigit hd)
  refine written_literal hm (.of_head (Literal.fragment_intChars i hmark) ?_) ?_ hkeyword
    (Literal.read?_exact hi) (Literal.exactScript_int hi) (Value.hasText_int hi)
  · intro hhead
    cases hatom _ (mem_of_mem_head? hhead)
  · intro hmem
    cases hatom _ hmem

theorem written_text {s : String} (hs : ∀ c ∈ s.toList, Literal.isWritable c) :
    Written m known (.literal (.text s)) (Json.stringChars false s.toList) := by
  have hquoted := Literal.quoted_escaped hs
  refine written_literal hm (.of_head (fragment_stringChars hs) (by simp [Json.stringChars])) ?_ ?_
    ?_ ?_ rfl
  · simpa [Json.stringChars] using hquoted.newline_notMem
  · exact keyword?_eq_none (c := '"') (by simp [Json.stringChars]) rfl
  · rw [Literal.read?_stringChars hs, ofList_toList]
  · rfl

theorem written_reference {name : String} (hknown : .text name ∈ known)
    (hname : IsReference name.toList) :
    Written m known (.reference name) name.toList := by
  have hself : m.renderer.reference name = ofList name.toList := by
    rw [hm.renderer, ofList_toList]
    exact Identifier.sanitize_eq hname.name
  have hreads : Reads m known 1 name.toList name.toList := by
    refine hm.reads fun pad _ => ⟨.reference name, ?_, fun site budget ancestors _ => ?_⟩
    · rw [reindent_eq_self hname.newline_notMem, hname.classify_eq, ofList_toList]
    · have hdeferred : m.renderer.deferred name = m.renderer.reference name := by
        rw [hm.renderer]
        rfl
      rw [← hself]
      exact Mapping.yields_reference hknown hm.inline hdeferred
  refine .of_compound (congrArg Except.ok hself) hname.bare hreads fun pad _ => ?_
  rw [reindent_eq_self hname.newline_notMem]
  exact hname.compound

theorem written_array (h : Written m known t e) (cs : List Constraint) :
    ∃ e', Written m known (.array t cs) e' := by
  obtain ⟨us, hb⟩ := h.branches
  obtain ⟨vs, hjoined⟩ := hb.joined
  obtain ⟨x, harray, hx, hcases⟩ := exists_element hjoined hb.fragment
  -- Before the brackets stands the element, with or without parentheses.
  have hreads : Reads m known (t.depth .plain + 1) x e := by
    rcases hcases with rfl | rfl
    · exact h.reads
    · exact hm.reads_parens (fun _ => rfl) hb.bare h.reads
  have htext (pad : List Char) : reindent pad (x ++ ['[', ']']) = reindent pad x ++ ['[', ']'] := by
    rw [reindent_append]
    rfl
  have hrender (cs : List Constraint) :
      m.renderer.array (ofList e) cs = .ok (ofList (x ++ ['[', ']'])) := by
    rw [hm.renderer, ← harray]
    rfl
  refine ⟨x ++ ['[', ']'], .of_compound ?_ (bare_array hx) ?_ fun pad hpad => ?_⟩
  · rw [Term.render, h.render]
    exact hrender cs
  · refine hm.reads fun pad hpad => ⟨.array (.text (reindent pad x)) [], ?_, ?_⟩
    · rw [htext]
      exact classify_arrayOf (hx.reindent hpad (by decide))
    · intro site budget ancestors hle
      exact (hreads _ ⟨pad, hpad, rfl⟩ site budget ancestors trivial hle).bind
        (Yields.lift (hrender []))
  · rw [htext]
    exact compound_array (hx.reindent hpad (by decide))

theorem written_nullable (h : Written m known t e) :
    Written m known (.nullable t) ([' ', '|', ' '].intercalate [e, "null".toList]) := by
  obtain ⟨us, hb⟩ := h.branches
  have hnull : Branch m known 1 "null".toList := branch_keyword hm rfl
  have hboth := hb.append (forall_mem_singleton.mpr (hnull.mono (Nat.le_add_left 1 _)))
  have htext : [' ', '|', ' '].intercalate (us ++ ["null".toList]) =
      [' ', '|', ' '].intercalate [e, "null".toList] := by
    rw [intercalate_append hb.nonempty (by simp), ← hb.text, intercalate_cons_cons,
      append_assoc]
  rw [htext] at hboth
  have hlength := length_pos_iff.mpr hb.nonempty
  refine ⟨⟨?_, hm.reads_branches hboth (by simp; omega)⟩, _, hboth.mono (Nat.le_succ _)⟩
  rw [Term.render, h.render]
  exact hm.nullable_eq e

theorem intersectAll_eq (h : Forall₂ Meets es vss) (hlength : 2 ≤ es.length) :
    m.intersectAll (es.map ofList) = .ok
      (ofList ([' ', '&', ' '].intercalate (vss.flatten.map grouped))) := by
  cases h with
  | nil => simp at hlength
  | @cons a vs es vss ha hes =>
    cases hes with
    | nil => simp at hlength
    | @cons b ws es vss hb hes =>
      have hfold := foldl_intersect ha hb hes
      rw [flatten_cons, flatten_cons, ← append_assoc, ← hfold, map_cons]
      rw [Mapping.intersectAll, hm.renderer]
      exact foldlM_pure

theorem reads_meet (hatoms : ∀ v ∈ vs, Fragment isAtomChar (grouped v)) (hlength : 2 ≤ vs.length)
    (hreads : ∀ v ∈ vs, Reads m known k (grouped v) v) :
    Reads m known (k + 1) ([' ', '&', ' '].intercalate (vs.map grouped))
      ([' ', '&', ' '].intercalate (vs.map grouped)) := by
  refine hm.reads fun pad hpad =>
    ⟨.intersection (((vs.map grouped).map (reindent pad)).map .text), ?_, ?_⟩
  · rw [reindent_intercalate (by decide)]
    refine classify_meet ?_ (by simpa using hlength)
    exact forall_mem_map.mpr (forall_mem_map.mpr fun v hv =>
      (hatoms v hv).reindent hpad (by decide))
  · intro site budget ancestors hle
    have hmembers : Yields ((((vs.map grouped).map (reindent pad)).map .text).mapM
        (m.mapType site known budget ancestors)) (vs.map ofList) :=
      Mapping.yields_mapM_text (forall₂_map_left_iff.mpr (forall₂_map_left_iff.mpr (forall₂_same.mpr
        fun v hv => hreads v hv _ ⟨pad, hpad, rfl⟩ site budget ancestors trivial hle)))
    have hall := intersectAll_eq hm (meets_self hatoms) hlength
    rw [← flatMap_def, flatMap_singleton'] at hall
    exact hmembers.bind (Yields.lift hall)

variable (h : Forall₂ (Written m known) ts es)
include h

theorem written_tuple :
    Written m known (.tuple ts) ('[' :: ([',', ' '].intercalate es ++ [']'])) := by
  have htext (pad : List Char) : reindent pad ('[' :: ([',', ' '].intercalate es ++ [']'])) =
      '[' :: ([',', ' '].intercalate (es.map (reindent pad)) ++ [']']) := by
    rw [reindent_cons (by decide), reindent_append, reindent_intercalate (by decide)]
    rfl
  have hrender : m.renderer.tuple (es.map ofList) =
      .ok (ofList ('[' :: ([',', ' '].intercalate es ++ [']']))) := by
    rw [hm.renderer]
    refine congrArg Except.ok ?_
    rw [intercalate_ofList, ← toList_inj]
    simp
  refine .of_compound ?_ (bare_tuple (fragments_written h)) ?_ fun pad hpad => ?_
  · rw [Term.render, renderAll_written Written.toWrites h]
    exact hrender
  · refine hm.reads fun pad hpad => ⟨.tuple ((es.map (reindent pad)).map .text), ?_, ?_⟩
    · rw [htext]
      exact classify_tupleOf (reindent_fragments h hpad)
    · intro site budget ancestors hle
      exact (yields_reindented hpad hle site ancestors (reads_written Written.toWrites h)).bind
        (Yields.lift hrender)
  · rw [htext]
    exact compound_tuple (reindent_fragments h hpad)

theorem written_container {kind : Container} {name : String} (hk : containerName? kind = some name)
    (hne : ts ≠ []) :
    Written m known (.container kind ts)
      (name.toList ++ '<' :: ([',', ' '].intercalate es ++ ['>'])) := by
  obtain ⟨u, us, rfl⟩ : ∃ u us, es = u :: us := by
    cases h with
    | nil => exact absurd rfl hne
    | cons _ _ => exact ⟨_, _, rfl⟩
  have htext (pad : List Char) :
      reindent pad (name.toList ++ '<' :: ([',', ' '].intercalate (u :: us) ++ ['>'])) =
        name.toList ++ '<' :: ([',', ' '].intercalate ((u :: us).map (reindent pad)) ++ ['>']) := by
    rw [reindent_append, reindent_eq_self (isWord_containerName hk).newline_notMem,
      reindent_cons (by decide), reindent_append, reindent_intercalate (by decide)]
    rfl
  have hrender : m.renderer.container kind ((u :: us).map ofList) =
      .ok (ofList (name.toList ++ '<' :: ([',', ' '].intercalate (u :: us) ++ ['>']))) := by
    have hname : Target.TypeScript.container kind ((u :: us).map ofList) =
        .ok (name ++ "<" ++ ", ".intercalate ((u :: us).map ofList) ++ ">") := by
      cases kind <;> cases hk <;> rfl
    rw [hm.renderer]
    refine hname.trans (congrArg Except.ok ?_)
    rw [intercalate_ofList, ← toList_inj]
    simp
  refine .of_compound ?_ (bare_container hk (fragments_written h)) ?_ fun pad hpad => ?_
  · rw [Term.render, renderAll_written Written.toWrites h]
    exact hrender
  · refine hm.reads fun pad hpad =>
      ⟨.container kind (((u :: us).map (reindent pad)).map .text) [], ?_, ?_⟩
    · rw [htext]
      exact classify_containerOf hk (reindent_fragments h hpad)
    · intro site budget ancestors hle
      have hargs : Yields (do
          let args ← (((u :: us).map (reindent pad)).map .text).mapM
            (m.mapType site known budget ancestors)
          Logged.lift (m.renderer.container kind args)) _ :=
        (yields_reindented hpad hle site ancestors (reads_written Written.toWrites h)).bind
          (Yields.lift hrender)
      cases kind <;> cases hk <;> exact hargs
  · rw [htext]
    exact compound_container hk (reindent_fragments h hpad)

theorem written_union (hlength : 2 ≤ ts.length) :
    Written m known (.union ts) ([' ', '|', ' '].intercalate es) := by
  obtain ⟨us, hus, hb⟩ := exists_branches h (by rintro rfl; simp at hlength)
  refine ⟨⟨?_, hm.reads_branches hb (by omega)⟩, us, hb.mono (Nat.le_succ _)⟩
  rw [Term.render, renderAll_written Written.toWrites h]
  exact hm.union_eq es

theorem exists_members : ∃ vss, Forall₂ Meets es vss ∧
    ∀ v ∈ vss.flatten, Reads m known (Term.depthBelow .plain ts) (grouped v) v := by
  have hmembers : ∀ e ∈ es, ∃ vs, Meets e vs ∧
      ∀ v ∈ vs, Reads m known (Term.depthBelow .plain ts) (grouped v) v := by
    intro e he
    obtain ⟨t, ht, hwritten⟩ := exists_mem_of_forall₂ h he
    obtain ⟨us, hb⟩ := hwritten.branches
    obtain ⟨vs, hvs, hreads⟩ := hm.exists_meets hb hwritten.reads
    exact ⟨vs, hvs, fun v hv => (hreads v hv).mono (Term.depth_lt_depthBelow ht)⟩
  obtain ⟨vss, hvss⟩ := exists_forall₂ hmembers
  refine ⟨vss, hvss.imp fun _ _ hvs => hvs.1, fun v hv => ?_⟩
  obtain ⟨vs, hvs, hv⟩ := mem_flatten.mp hv
  obtain ⟨e, -, -, hreads⟩ := exists_mem_of_forall₂ hvss hvs
  exact hreads v hv

theorem written_intersection (hlength : 2 ≤ ts.length) :
    ∃ e, Written m known (.intersection ts) e := by
  obtain ⟨vss, hvss, hreads⟩ := exists_members hm h
  have hes : 2 ≤ es.length := by rwa [← h.length_eq]
  have hcount : 2 ≤ vss.flatten.length := Nat.le_trans hes (length_flatten_meets hvss)
  have hatoms := atoms_flatten_meets hvss
  have hgrouped : ∀ v ∈ vss.flatten.map grouped, Fragment isAtomChar v := forall_mem_map.mpr hatoms
  have hbare := bare_meet hgrouped (by rwa [length_map])
  have hcompound (pad : List Char) (hpad : ∀ c ∈ pad, c = ' ') :
      Compound (reindent pad ([' ', '&', ' '].intercalate (vss.flatten.map grouped))) := by
    rw [reindent_intercalate (by decide)]
    refine compound_meet (forall_mem_map.mpr fun v hv => ?_) (by rwa [length_map, length_map])
    exact (hgrouped v hv).reindent hpad (by decide)
  have hrender : (Term.intersection ts).render m.renderer =
      .ok (ofList ([' ', '&', ' '].intercalate (vss.flatten.map grouped))) := by
    rw [Term.render, renderAll_written Written.toWrites h, ← intersectAll_eq hm hvss hes]
    cases es <;> rfl
  refine ⟨_, .of_branch hrender ⟨hbare, reads_meet hm hatoms hcount hreads, ?_, ?_⟩ fun hnull => ?_⟩
  · exact ⟨none, fun pad hpad => (hcompound pad hpad).literal, by simp, by simp⟩
  · have hne : vss.flatten ≠ [] := ne_nil_of_length_pos (by omega)
    exact ⟨vss.flatten, ⟨hne, grouped_eq_self hbare.toFragment, hatoms⟩,
      fun v hv => (hreads v hv).mono (Nat.le_succ _)⟩
  · have hkeyword := (hcompound [] (by simp)).keyword
    rw [hnull] at hkeyword
    cases hkeyword

end Terms

/-! ### Objects -/

section Fields

variable {fs : List (Term.Member × Term)} {ps : List (Term.Member × List Char)}
  {a : Option (Additional Term)} (h : Forall₂ (Term.Paired (Written m known)) fs ps)

/-- What stands for the keys that an object has no field for. -/
theorem exists_index (hm : Mirrors m unit)
    (ha : ∀ t, a = some (.typed t) → ∃ e, Written m known t e) :
    ∃ b, Term.renderAdditional m.renderer a = .ok b ∧ ∀ t ∈ indexOf b,
      Fragment isChoiceChar t ∧ Reads m known (Term.depthOfAdditional .plain a) t t := by
  match a with
  | none => exact ⟨none, rfl, by simp [indexOf]⟩
  | some .nothing => exact ⟨some .nothing, rfl, by simp [indexOf]⟩
  | some .anything =>
    have hunknown : Branch m known 1 "unknown".toList := branch_keyword hm rfl
    refine ⟨some .anything, rfl, ?_⟩
    rintro t ⟨⟩
    exact ⟨hunknown.bare.toFragment.mono isChoiceChar_of_isMeetChar, hunknown.reads⟩
  | some (.typed t) =>
    obtain ⟨e, he⟩ := ha t rfl
    obtain ⟨us, hb⟩ := he.branches
    refine ⟨some (.typed (ofList e)), ?_, ?_⟩
    · rw [Term.renderAdditional, he.render]
      rfl
    · rintro t' ⟨⟩
      rw [String.toList_ofList]
      exact ⟨hb.fragment, he.reads⟩

include h

theorem keys_written (hkeys : ∀ f ∈ fs, isReadableKey f.1.key) :
    ∀ p ∈ ps, isReadableKey p.1.key := by
  intro p hp
  obtain ⟨f, hf, hmember, -⟩ := exists_mem_of_forall₂ h hp
  rw [hmember]
  exact hkeys f hf

theorem types_written : ∀ p ∈ ps, Fragment isChoiceChar p.2 := by
  intro p hp
  obtain ⟨f, -, -, ht⟩ := exists_mem_of_forall₂ h hp
  obtain ⟨us, hb⟩ := ht.branches
  exact hb.fragment

theorem written_object (hm : Mirrors m unit) (hkeys : ∀ f ∈ fs, isReadableKey f.1.key)
    (ha : ∀ t, a = some (.typed t) → ∃ e, Written m known t e) :
    ∃ e, Written m known (.object fs a) e := by
  obtain ⟨b, hadditional, hindex⟩ := exists_index hm ha
  have hlegible : Legible ps (indexOf b) :=
    ⟨keys_written h hkeys, types_written h, fun t ht => (hindex t ht).1⟩
  have hobject {ms : List (MappedField String)} (hms : Forall₂ Handed ps ms)
      {c : Option (Additional String)} (hc : indexOf c = indexOf b) :
      m.renderer.object ms c false = .ok (ofList (objectText unit ps (indexOf b))) := by
    rw [hm.renderer, ← hc]
    exact object_eq rfl hms c
  have hhanded (raw : List Char → Raw) : Forall₂ Handed ps
      (ps.map fun p => ⟨p.1.field (raw p.2), ofList p.2, []⟩) :=
    forall₂_map_right_iff.mpr (forall₂_same.mpr fun p _ => ⟨⟨_, rfl⟩, rfl⟩)
  refine ⟨objectText unit ps (indexOf b), .of_compound ?_ ?_ ?_ fun pad hpad => ?_⟩
  · rw [Term.render, renderFields_written Written.toWrites h, hadditional]
    exact hobject (hhanded fun _ => .text []) rfl
  · obtain ⟨body, htext, hbody, -⟩ :=
        exists_body hlegible (show ∀ c ∈ [], c = ' ' by simp) hm.spaces
    rw [nil_reindent] at htext
    rw [htext]
    exact bare_braces hbody
  · -- The types of the fields are indented by the lines around them and by those of the object.
    refine hm.reads fun pad hpad => ?_
    obtain ⟨body, htext, hbody, hread⟩ := exists_body hlegible hpad hm.spaces
    have hboth : ∀ c ∈ pad ++ unit, c = ' ' := forall_mem_append.mpr ⟨hpad, hm.spaces⟩
    refine ⟨_, by rw [htext]; exact classify_braces hbody hread,
      fun site budget ancestors hle => ?_⟩
    have hle' : max (Term.depthOfFields .plain fs) (Term.depthOfAdditional .plain a) ≤ budget := hle
    have hmapped :=
      yields_fields (L := language m known) (fun e => .text (reindent (pad ++ unit) e))
      (fun _ => ⟨_, hboth, rfl⟩) site ancestors trivial
      (show Term.depthOfFields .plain fs ≤ budget by omega) Prod.snd
      (reads_writtenFields Written.toWrites h)
    have hextra : Yields (Mapping.mapAdditional (m.mapType site known budget ancestors)
        (((indexOf b).map (reindent (pad ++ unit))).map fun t => .typed (.text t)))
        ((indexOf b).map fun t => .typed (ofList t)) := by
      cases hb : indexOf b with
      | none => exact Yields.pure _
      | some t =>
        have ht := (hindex t hb).2 _ ⟨_, hboth, rfl⟩ site budget ancestors trivial (by omega)
        exact ht.bind (Yields.pure _)
    have hsame : indexOf ((indexOf b).map fun t => .typed (ofList t)) = indexOf b := by
      cases indexOf b <;> simp [indexOf]
    exact hmapped.bind (hextra.bind (Yields.lift
      (hobject (hhanded fun t => .text (reindent (pad ++ unit) t)) hsame)))
  · obtain ⟨body, htext, hbody, -⟩ := exists_body hlegible hpad hm.spaces
    rw [htext]
    exact compound_braces hbody

end Fields

theorem exists_written (hm : Mirrors m unit) (h : Readable known t) : ∃ e, Written m known t e := by
  induction h with
  | primitive _ hword hnull => exact ⟨_, written_primitive hm hword hnull _⟩
  | truth b => exact ⟨_, written_truth hm b⟩
  | integer hi => exact ⟨_, written_integer hm hi⟩
  | text hs => exact ⟨_, written_text hm hs⟩
  | reference hknown hname => exact ⟨_, written_reference hm hknown hname⟩
  | array _ ih =>
    obtain ⟨e, he⟩ := ih
    exact written_array hm he _
  | tuple _ ih =>
    obtain ⟨es, hes⟩ := exists_forall₂ ih
    exact ⟨_, written_tuple hm hes⟩
  | union _ hlength ih =>
    obtain ⟨es, hes⟩ := exists_forall₂ ih
    exact ⟨_, written_union hm hes hlength⟩
  | intersection _ hlength ih =>
    obtain ⟨es, hes⟩ := exists_forall₂ ih
    exact written_intersection hm hes hlength
  | nullable _ ih =>
    obtain ⟨e, he⟩ := ih
    exact ⟨_, written_nullable hm he⟩
  | container hkind _ hne ih =>
    obtain ⟨es, hes⟩ := exists_forall₂ ih
    obtain ⟨name, hname⟩ := Option.isSome_iff_exists.mp hkind
    exact ⟨_, written_container hm hes hname hne⟩
  | @object fs a hkeys _ _ ihfs iha =>
    obtain ⟨ps, hps⟩ := Term.exists_paired ihfs
    exact written_object hps hm hkeys iha

end Crosswalk.TypeScript

namespace Crosswalk.Conversion

open List
open TypeScript (Readable)

/-- From type expressions to type expressions, with references by name. -/
def ofScripts (settings : Settings) : Conversion :=
  { grammar := .typeScript, target := .typeScript, settings }

/-- The expression of a term is mapped to itself. -/
theorem script_readBack (settings : Settings) (scope : Scope) (catalogue : Catalogue)
    (root : Scalar) (site : Site) (known ancestors : List Scalar) {t : Term} (ht : Readable known t)
    (width : Nat) (hindent : settings.indent = ⟨.text (String.ofList (List.replicate width ' '))⟩)
    {limit : Int} (hlimit : settings.maxDepth.floor? = .ok (some limit))
    (hheight : t.height ≤ limit) :
    let m : Mapping String := (ofScripts settings).mapping scope catalogue root
    ∃ e, t.render m.renderer = .ok e ∧
      let mapped := m.mapType site known (settings.budgetAt 0) ancestors (.text e.toList)
      mapped.result = .ok e ∧
        ∀ p : Progress, ∀ d ∈ (p.afterAll mapped.log).2, d.problem = .numericRange := by
  intro m
  have hm : TypeScript.Mirrors m (List.replicate width ' ') := by
    refine ⟨rfl, ?_, rfl, fun c hc => eq_of_mem_replicate hc⟩
    rw [← hindent]
    rfl
  obtain ⟨e, he⟩ := TypeScript.exists_written hm ht
  have hyields := he.reads _ ⟨[], by simp, by rw [nil_reindent]⟩ site (settings.budgetAt 0)
    ancestors trivial (Settings.lt_budgetAt hlimit hheight)
  refine ⟨_, he.render, ?_⟩
  rw [String.toList_ofList]
  exact ⟨hyields.result, Progress.numericRange_of_quiet hyields.quiet⟩

/-- An object whose types need parentheses, quotes and further lines. -/
def groupedTerm : Term :=
  .object
    [(⟨"id", false⟩, .union [.primitive .string [],
      .array (.union [.literal (.int 12345678901234567890), .literal (.bool true)]) []]),
      (⟨"full name", true⟩, .intersection [.reference "A",
        .nullable (.container .map [.primitive .string [],
          .tuple [.literal (.text "a | \"b\"")]])]),
      (⟨"inner", false⟩, .object [(⟨"next", true⟩,
        .array (.array (.nullable (.reference "A")) []) [])] (some .anything))]
    (some (.typed (.nullable (.primitive .unknown []))))

theorem readable_groupedTerm : Readable [.text "A"] groupedTerm := by
  have hreference : Readable [.text "A"] (.reference "A") :=
    .reference (by simp) ⟨⟨by decide, by decide⟩, by decide⟩
  have hstring : Readable [.text "A"] (.primitive .string []) := .primitive "string" rfl (by simp)
  refine .object (by decide) ?_ ?_
  · simp only [forall_mem_cons]
    refine ⟨.union ?_ (by decide), .intersection ?_ (by decide), .object (by decide) ?_ (by simp),
      by simp⟩
    · simp only [forall_mem_cons]
      refine ⟨hstring, .array (.union ?_ (by decide)), by simp⟩
      simp only [forall_mem_cons]
      exact ⟨.integer (by decide), .truth true, by simp⟩
    · simp only [forall_mem_cons]
      refine ⟨hreference, .nullable (.container rfl ?_ (by simp)), by simp⟩
      simp only [forall_mem_cons]
      refine ⟨hstring, .tuple ?_, by simp⟩
      simp only [forall_mem_cons]
      exact ⟨.text (forall_mem_of_all rfl), by simp⟩
    · simp only [forall_mem_cons]
      exact ⟨.array (.array (.nullable hreference)), by simp⟩
  · rintro t ⟨⟩
    exact .nullable (.primitive "unknown" rfl (by simp))

theorem groupedTerm_readBack :
    Readable [.text "A"] groupedTerm ∧ groupedTerm.height ≤ (5 : Int) ∧
      let m : Mapping String :=
        (ofScripts { maxDepth := .int 5 }).mapping {} (.ofList []) (.text "")
      ∃ e, groupedTerm.render m.renderer = .ok e ∧
        let mapped := m.mapType {} [.text "A"] 6 [] (.text e.toList)
        mapped.result = .ok e ∧
          ∀ p : Progress, ∀ d ∈ (p.afterAll mapped.log).2, d.problem = .numericRange :=
  ⟨readable_groupedTerm, by decide,
    script_readBack { maxDepth := .int 5 } {} (.ofList []) (.text "") {} _ []
    readable_groupedTerm 2 rfl rfl (by decide)⟩

end Crosswalk.Conversion
