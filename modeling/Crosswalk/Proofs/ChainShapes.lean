import Crosswalk.Proofs.ChainRules

/-!
Shapes of written schemas. The last call of a chain decides if it makes a choice of its own;
otherwise the factory at its beginning does.
-/

namespace Crosswalk.Zod

open List
open Text (trim)

variable {base after calls : List Call} {us : List (List Char)} {cs u : List Char} {s : Shape}

variable {name : String} {ok : Char → Bool} {args : List Char}

/-! ### Arguments -/

theorem Fit.group (d : Delimiter) (hd : d.opener ∈ tracked) (h : Fit cs) :
    Fit (d.opener :: (cs ++ [d.closer])) where
  nested := .group d hd h.nested .nil
  clear := by
    have hopener : d.opener ∉ coercion := by cases d <;> decide
    have hcloser : d.closer ∉ coercion := by cases d <;> decide
    exact clear_cons hopener (h.clear.append_cons hcloser fit_nil.clear)

/-- Arguments with commas between them. -/
def commas (us : List (List Char)) : List Char := [',', ' '].intercalate us

theorem fit_commas (h : ∀ u ∈ us, Fit u) : Fit (commas us) := by
  by_cases hne : us = []
  · subst hne
    exact fit_nil
  refine forall_intercalate (fun hu hv => ⟨?_, ?_⟩) h hne
  · exact hu.nested.append (.plain rfl rfl (.plain rfl rfl hv.nested))
  · exact hu.clear.append_cons (by decide) (clear_cons (by decide) hv.clear)

theorem fit_quoted (hw : ∀ c ∈ cs, Literal.isWritable c) (h : Clear cs) :
    Fit (Json.stringChars false cs) where
  nested := .literal (Literal.quoted_escaped hw) .nil
  clear := by
    have hend := (clear_escaped hw h).append_cons (c := '"') (by decide) fit_nil.clear
    exact clear_cons (by decide) hend

theorem piece_quoted (hw : ∀ c ∈ cs, Literal.isWritable c) :
    Piece tracked ok (Json.stringChars false cs) where
  balanced := .literal (Literal.quoted_escaped hw) .nil
  first := ⟨'"', rfl, rfl⟩
  last := by
    refine ⟨'"', ?_, rfl⟩
    rw [Json.stringChars, ← cons_append, getLast?_append]
    rfl

theorem arguments_commas (hok : ok ',' = false) (h : ∀ u ∈ us, Piece tracked ok u) :
    arguments (commas us) = us :=
  splitTopNonempty_intercalate [] [' '] (separates_singleton rfl hok) (by simp) (by simp)
    (by simp) h

/-- Arguments in brackets. -/
def brackets (us : List (List Char)) : List Char := '[' :: (commas us ++ [']'])

theorem fit_brackets (h : ∀ u ∈ us, Fit u) : Fit (brackets us) :=
  Fit.group .bracket (by decide) (fit_commas h)

theorem trim_group (d : Delimiter) (cs : List Char) :
    trim (d.opener :: (cs ++ [d.closer])) = d.opener :: (cs ++ [d.closer]) :=
  Text.trim_between (by cases d <;> rfl) (by cases d <;> rfl) cs

theorem trim_brackets (us : List (List Char)) : trim (brackets us) = brackets us :=
  trim_group .bracket (commas us)

theorem listItems_brackets (hok : ok ',' = false) (h : ∀ u ∈ us, Piece tracked ok u) :
    listItems (brackets us) = us := by
  have hlast : (brackets us).getLast? = some ']' := by
    rw [brackets, ← cons_append, getLast?_concat]
  have hinner : ((brackets us).drop 1).dropLast = commas us := by
    rw [brackets, drop_one, tail_cons, dropLast_concat]
  simp only [listItems, trim_brackets, hlast, hinner]
  exact arguments_commas hok h

/-! ### Expressions -/

/-- The text of a schema. -/
def Expression (e : List Char) : Prop :=
  ∃ base after, Chained methods base after ∧ e = joinChain (base ++ after)

theorem Chained.expression (h : Chained methods base after) :
    Expression (joinChain (base ++ after)) :=
  ⟨base, after, h, rfl⟩

theorem Chained.relax (h : Chained methods base after) :
    Chained ("optional" :: methods) base after :=
  h.mono (subset_cons_self "optional" methods)

theorem Chained.fit (h : Chained ("optional" :: methods) base after) :
    Fit (joinChain (base ++ after)) :=
  ⟨h.piece.balanced.mono fun _ _ => rfl, h.clear⟩

theorem Expression.piece (h : Expression u) : Piece tracked isChainChar u := by
  obtain ⟨base, after, h, rfl⟩ := h
  exact h.relax.piece

theorem Expression.fit (h : Expression u) : Fit u := by
  obtain ⟨base, after, h, rfl⟩ := h
  exact h.relax.fit

/-! ### Last calls -/

theorem classify_of_lastCall? (h : Chained ("optional" :: methods) base after)
    (hs : lastCall? (base ++ after) = some s) : classify (joinChain (base ++ after)) = .ok s := by
  simp only [classify, h.normalize_eq, h.chain_eq, hs]
  rfl

/-- The last two calls of a chain. -/
theorem exists_reverse (hne : calls ≠ []) : ∃ previous before, calls.reverse = previous :: before ∧
    (previous :: before).reverse = calls := by
  obtain ⟨previous, before, heq⟩ := exists_cons_of_ne_nil (reverse_ne_nil_iff.mpr hne)
  exact ⟨previous, before, heq, by rw [← heq, reverse_reverse]⟩

theorem lastCall?_optional (hne : calls ≠ []) :
    lastCall? (calls ++ [optionalCall]) = some (.optional (.text (joinChain calls))) := by
  obtain ⟨previous, before, hrev, hcalls⟩ := exists_reverse hne
  rw [lastCall?, reverse_concat, hrev]
  simp only [hcalls]
  rfl

theorem lastCall?_nullable (hne : calls ≠ []) :
    lastCall? (calls ++ [⟨"nullable", some []⟩]) = some (.nullable (.text (joinChain calls))) := by
  obtain ⟨previous, before, hrev, hcalls⟩ := exists_reverse hne
  rw [lastCall?, reverse_concat, hrev]
  simp only [hcalls]

theorem lastCall?_and (h : Base base) (hu : u ≠ []) :
    lastCall? (base ++ after ++ [⟨"and", some u⟩]) =
      some (.intersection [.text (joinChain (base ++ after)), .text u]) := by
  have hne : base ++ after ≠ [] := by simp [h.ne_nil]
  obtain ⟨previous, before, hrev, hcalls⟩ := exists_reverse hne
  have hfirst : (before.isEmpty && previous.name == "z") = false := by
    cases before with
    | cons _ _ => rfl
    | nil =>
      -- A chain of one call is the name of a schema.
      have hsingle : base ++ after = [previous] := by rw [← hcalls, reverse_singleton]
      cases h with
      | @reference name _ =>
        cases hsingle
        simpa using schema_ne (by decide)
      | factory _ _ => simp at hsingle
  have hgiven : (⟨"and", some u⟩ : Call).given? = some u := by simp [Call.given?, hu]
  rw [lastCall?, reverse_concat, hrev]
  simp only [hcalls, hfirst, hgiven]
  rfl

section Last

variable (h : Chained methods base after)
include h

theorem Chained.optional : Chained ("optional" :: methods) base (after ++ [optionalCall]) :=
  h.relax.concat ⟨by decide, [], rfl, fit_nil⟩

theorem Chained.nullable : Chained methods base (after ++ [⟨"nullable", some []⟩]) :=
  h.concat ⟨by decide, [], rfl, fit_nil⟩

theorem Chained.and (hu : Fit u) : Chained methods base (after ++ [⟨"and", some u⟩]) :=
  h.concat ⟨show "and" ∈ methods by decide, u, rfl, hu⟩

theorem classify_optional : classify (joinChain (base ++ (after ++ [optionalCall]))) =
    .ok (.optional (.text (joinChain (base ++ after)))) := by
  apply classify_of_lastCall? h.optional
  rw [← append_assoc]
  exact lastCall?_optional h.ne_nil

theorem classify_nullable : classify (joinChain (base ++ (after ++ [⟨"nullable", some []⟩]))) =
    .ok (.nullable (.text (joinChain (base ++ after)))) := by
  apply classify_of_lastCall? h.nullable.relax
  rw [← append_assoc]
  exact lastCall?_nullable h.ne_nil

theorem classify_and (hu : Fit u) (hne : u ≠ []) :
    classify (joinChain (base ++ (after ++ [⟨"and", some u⟩]))) =
      .ok (.intersection [.text (joinChain (base ++ after)), .text u]) := by
  apply classify_of_lastCall? (h.and hu).relax
  rw [← append_assoc]
  exact lastCall?_and h.base hne

end Last

theorem lastCall?_limiting {c : Call} (hc : c.name ∈ limiting) :
    lastCall? (calls ++ [c]) = none := by
  rw [lastCall?, reverse_concat]
  cases calls.reverse with
  | nil => rfl
  | cons previous before =>
    obtain ⟨name, args⟩ := c
    simp only [limiting, mem_cons, not_mem_nil, or_false] at hc
    rcases hc with rfl | rfl | rfl | rfl | rfl | rfl | rfl | rfl | rfl | rfl | rfl | rfl | rfl <;>
      exact ite_self none

theorem lastCall?_made (hname : name ∈ factories) (args : List Char) :
    lastCall? (made name args) = none := by
  simp only [factories, mem_cons, not_mem_nil, or_false] at hname
  rcases hname with rfl | rfl | rfl | rfl | rfl | rfl | rfl | rfl | rfl | rfl | rfl | rfl | rfl |
    rfl | rfl | rfl | rfl | rfl | rfl | rfl | rfl | rfl <;> rfl

/-! ### Factories -/

theorem chained_made (hname : name ∈ factories) (hargs : Fit args)
    (hafter : ∀ c ∈ after, Method limiting c) : Chained methods (made name args) after :=
  ⟨.factory hname hargs, fun c hc => (hafter c hc).mono (subset_append_left ..)⟩

theorem classify_factory (hname : name ∈ factories) (hargs : Fit args)
    (hafter : ∀ c ∈ after, Method limiting c)
    (hs : factoryShape? (made name args ++ after) = .ok (some s)) :
    classify (joinChain (made name args ++ after)) = .ok s := by
  have h := (chained_made hname hargs hafter).relax
  have hlast : lastCall? (made name args ++ after) = none := by
    rcases eq_nil_or_concat after with rfl | ⟨before, c, rfl⟩
    · rw [append_nil]
      exact lastCall?_made hname args
    · rw [concat_eq_append, ← append_assoc]
      exact lastCall?_limiting (hafter c (by simp)).name
  have hname : Identifier.isName (joinChain (made name args ++ after)) = false := by
    have htext : joinChain (made name args ++ after) =
        "z".toList ++ '.' :: joinChain (⟨name, some args⟩ :: after) :=
      joinChain_append (show [(⟨"z", none⟩ : Call)] ≠ [] by simp) (by simp)
    rw [htext]
    rfl
  simp only [classify, h.normalize_eq, h.chain_eq, hlast, hname, hs]
  rfl

theorem classify_made (hname : name ∈ factories) (hargs : Fit args)
    (hs : factoryShape? (made name args) = .ok (some s)) :
    classify (joinChain (made name args)) = .ok s := by
  rw [← append_nil (made name args)] at hs ⊢
  exact classify_factory hname hargs (by simp) hs

theorem classify_reference (hname : Identifier.isName name.toList) :
    classify (name ++ "Schema").toList = .ok (.reference name) := by
  have h : Chained ("optional" :: methods) [⟨name ++ "Schema", none⟩] [] :=
    ⟨.reference hname, by simp⟩
  have htext : joinChain ([⟨name ++ "Schema", none⟩] ++ []) = (name ++ "Schema").toList := by
    simp [joinChain]
  have hz : ((name ++ "Schema").toList != ['z']) := by
    rw [bne_iff_ne]
    intro heq
    have hlast := congrArg List.getLast? heq
    rw [String.toList_append, getLast?_append] at hlast
    cases hlast
  have hbase : baseName (name ++ "Schema").toList = name.toList := by
    obtain ⟨x, xs, hcons, -⟩ := Member.exists_of_isName hname
    rw [baseName, String.toList_append, Text.before?_append, hcons]
    rfl
  rw [← htext, classify]
  simp only [h.normalize_eq, h.chain_eq]
  rw [htext, isName_schema hname, hz, hbase, String.ofList_toList]
  rfl

theorem factoryShape?_primitive {word : String} {p : Primitive} (hword : factory? word = some p)
    (after : List Call) : factoryShape? (made word [] ++ after) = (primitive p after).map some := by
  simp only [factoryShape?, made, cons_append, nil_append, hword]
  cases primitive p after <;> rfl

theorem classify_primitive {word : String} {p : Primitive} (hword : factory? word = some p) :
    classify (joinChain (made word [])) = .ok (.primitive p []) := by
  have hname : word ∈ factories := by
    unfold factory? at hword
    split at hword <;> first | decide | cases hword
  exact classify_made hname fit_nil (factoryShape?_primitive hword [])

section Rules

variable {rs : List Rule}

theorem method_limiting {limits : List Limit} {checks : List String} (hlimits : limits ⊆ everyLimit)
    (hchecks : checks ⊆ formats) (h : ∀ r ∈ rs, r.Allowed limits checks) :
    ∀ c ∈ rs.map Rule.call, Method limiting c := by
  refine forall_mem_map.mpr fun r hr => ?_
  exact Rule.method_call ((h r hr).mono hlimits hchecks)

theorem classify_string (h : ∀ r ∈ rs, r.Allowed lengthLimits formats) :
    classify (joinChain (stringCalls ++ rs.map Rule.call)) =
      .ok (.primitive .string (rs.map Rule.constraint)) := by
  have hmethods := method_limiting (by decide) (Subset.refl _) h
  refine classify_factory (by decide) fit_nil hmethods ?_
  rw [factoryShape?_primitive rfl, primitive_eq h fun r hr => refine_string (h r hr)]
  rfl

theorem classify_number (h : ∀ r ∈ rs, r.Allowed rangeLimits []) :
    classify (joinChain (made "number" [] ++ rs.map Rule.call)) =
      .ok (.primitive .number (rs.map Rule.constraint)) := by
  have hmethods := method_limiting (by decide) (nil_subset _) h
  refine classify_factory (by decide) fit_nil hmethods ?_
  rw [factoryShape?_primitive rfl, primitive_eq h fun r hr => refine_number (.inl rfl) (h r hr)]
  rfl

def intCall : Call := ⟨"int", some []⟩

theorem classify_integer (h : ∀ r ∈ rs, r.Allowed rangeLimits []) :
    classify (joinChain (made "number" [] ++ intCall :: rs.map Rule.call)) =
      .ok (.primitive .integer (rs.map Rule.constraint)) := by
  have hmethods := method_limiting (by decide) (nil_subset _) h
  have hint : Method limiting intCall := ⟨by decide, [], rfl, fit_nil⟩
  refine classify_factory (by decide) fit_nil (forall_mem_cons.mpr ⟨hint, hmethods⟩) ?_
  rw [factoryShape?_primitive rfl, intCall, primitive_int,
    primitive_eq h fun r hr => refine_number (.inr rfl) (h r hr)]
  rfl

theorem classify_array (he : Expression u) (h : ∀ r ∈ rs, r.Allowed sizeLimits []) :
    classify (joinChain (made "array" u ++ rs.map Rule.call)) =
      .ok (.array (.text u) (rs.map Rule.constraint)) := by
  have hmethods := method_limiting (by decide) (nil_subset _) h
  refine classify_factory (by decide) he.fit hmethods ?_
  have hshape : factoryShape? (made "array" u ++ rs.map Rule.call) = (do
      return some (.array (.text (trim u)) (← arrayConstraints (rs.map Rule.call)))) := rfl
  rw [hshape, he.piece.trim_eq, arrayConstraints_eq h]
  rfl

end Rules

theorem classify_literal {v : Value} (hu : Fit u) (htrim : trim u = u)
    (hread : Literal.read? u = .ok (some v)) :
    classify (joinChain (made "literal" u)) = .ok (.literal v) := by
  refine classify_made (by decide) hu ?_
  have hshape : factoryShape? (made "literal" u) = (do
      return (← Literal.read? (trim u)).map .literal) := rfl
  rw [hshape, htrim, hread]
  rfl

theorem classify_enumeration {vs : List Value} (hfit : ∀ u ∈ us, Fit u) (hok : ok ',' = false)
    (h : ∀ u ∈ us, Piece tracked ok u) (hread : Literal.enumeration? us = .ok (some vs)) :
    classify (joinChain (made "enum" (brackets us))) = .ok (.enumeration vs) := by
  refine classify_made (by decide) (fit_brackets hfit) ?_
  have hshape : factoryShape? (made "enum" (brackets us)) = (do
      return some (.enumeration
        ((← Literal.enumeration? (listItems (trim (brackets us)))).getD []))) := rfl
  rw [hshape, trim_brackets, listItems_brackets hok h, hread]
  rfl

section Lists

variable (h : ∀ u ∈ us, Expression u)
include h

theorem listItems_expressions : listItems (brackets us) = us := by
  have hpieces : ∀ u ∈ us, Piece tracked isChainChar u := fun u hu => (h u hu).piece
  exact listItems_brackets rfl hpieces

theorem classify_tuple :
    classify (joinChain (made "tuple" (brackets us))) = .ok (.tuple (us.map .text)) := by
  refine classify_made (by decide) (fit_brackets fun u hu => (h u hu).fit) ?_
  have hshape : factoryShape? (made "tuple" (brackets us)) =
      .ok (some (.tuple ((listItems (trim (brackets us))).map .text))) := rfl
  rw [hshape, trim_brackets, listItems_expressions h]

theorem classify_union :
    classify (joinChain (made "union" (brackets us))) = .ok (.union (us.map .text)) := by
  refine classify_made (by decide) (fit_brackets fun u hu => (h u hu).fit) ?_
  have hshape : factoryShape? (made "union" (brackets us)) =
      .ok (some (.union ((listItems (if (trim (brackets us)).contains '[' then
        (trim (brackets us)).dropWhile (· != '[') else trim (brackets us))).map .text))) := rfl
  have hdrop : (brackets us).dropWhile (· != '[') = brackets us := rfl
  rw [hshape, trim_brackets, hdrop, ite_self, listItems_expressions h]

end Lists

section Containers

variable {v w : List Char} (hv : Expression v)
include hv

/-- Keys are text if nothing else is said. -/
theorem classify_record : classify (joinChain (made "record" v)) =
    .ok (.container .record [.text "z.string()".toList, .text v] []) := by
  refine classify_made (by decide) hv.fit ?_
  have hshape : factoryShape? (made "record" v) =
      .ok (some (.container .record (factoryShape?.keyed (trim v)) [])) := rfl
  have harguments : arguments v = [v] := hv.piece.splitTopNonempty_eq rfl
  rw [hshape, hv.piece.trim_eq, factoryShape?.keyed, harguments]

theorem classify_map (hw : Expression w) : classify (joinChain (made "map" (commas [v, w]))) =
    .ok (.container .map [.text v, .text w] []) := by
  have hboth : ∀ u ∈ [v, w], Expression u := by simp [hv, hw]
  have hpieces : ∀ u ∈ [v, w], Piece tracked isChainChar u := fun u hu => (hboth u hu).piece
  have htrim : trim (commas [v, w]) = commas [v, w] := by
    have hmark : Nested tracked (fun _ => true) [',', ' '] := .plain rfl rfl (.plain rfl rfl .nil)
    exact (Piece.intercalate hmark (fun u hu => (hpieces u hu).mono fun _ _ => rfl)
      (by simp)).trim_eq
  refine classify_made (by decide) (fit_commas fun u hu => (hboth u hu).fit) ?_
  have hshape : factoryShape? (made "map" (commas [v, w])) =
      .ok (some (.container .map (factoryShape?.keyed (trim (commas [v, w]))) [])) := rfl
  rw [hshape, htrim, factoryShape?.keyed, arguments_commas rfl hpieces]
  rfl

theorem classify_set :
    classify (joinChain (made "set" v)) = .ok (.container .set [.text v] []) := by
  refine classify_made (by decide) hv.fit ?_
  have hshape : factoryShape? (made "set" v) =
      .ok (some (.container .set [.text (trim v)] [])) := rfl
  rw [hshape, hv.piece.trim_eq]

theorem classify_promise : classify (joinChain (made "promise" v)) =
    .ok (.container .promise [.text v] []) := by
  refine classify_made (by decide) hv.fit ?_
  have hshape : factoryShape? (made "promise" v) =
      .ok (some (.container .promise [.text (trim v)] [])) := rfl
  rw [hshape, hv.piece.trim_eq]

end Containers

end Crosswalk.Zod
