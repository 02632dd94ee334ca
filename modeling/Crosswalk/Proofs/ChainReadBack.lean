import Crosswalk.Conversion
import Crosswalk.Proofs.ChainFields

/-!
Schemas are mapped to themselves: what is written for a term is read as the same term. The call that
marks an optional field is a level of its own when it is read.
-/

namespace Crosswalk

open List
open String (ofList)
open Term (depthBelow depthOfFields render)

namespace Zod

open Crosswalk.Language
open Mapping (Yields)
open Member (isReadableKey)

variable {name : String} {ss : List String}

/-- Text without control characters that does not ask for coercion. -/
def Writable (s : String) : Prop := (∀ c ∈ s.toList, Literal.isWritable c = true) ∧ Clear s.toList

instance : DecidablePred Writable := fun s =>
  decidable_of_iff (s.toList.all Literal.isWritable = true ∧ Clear s.toList)
    (and_congr_left' all_eq_true)

/-- Terms whose schemas are read back. -/
inductive Readable (known ancestors : List Scalar) : Term → Prop
  | primitive (word : String) {p : Primitive} (hword : factory? word = some p) :
      Readable known ancestors (.primitive p [])
  | string {rs : List Rule} (hrs : ∀ r ∈ rs, r.Allowed lengthLimits formats) :
      Readable known ancestors (.primitive .string (rs.map Rule.constraint))
  | number {rs : List Rule} (hrs : ∀ r ∈ rs, r.Allowed rangeLimits []) :
      Readable known ancestors (.primitive .number (rs.map Rule.constraint))
  | integer {rs : List Rule} (hrs : ∀ r ∈ rs, r.Allowed rangeLimits []) :
      Readable known ancestors (.primitive .integer (rs.map Rule.constraint))
  | truth (b : Bool) : Readable known ancestors (.literal (.bool b))
  | whole {i : Int} (hi : (decimalDigits i.natAbs).length ≤ digitLimit) :
      Readable known ancestors (.literal (.int i))
  | text {s : String} (hs : Writable s) : Readable known ancestors (.literal (.text s))
  | enumeration {ss : List String} (hss : ∀ s ∈ ss, Writable s) (hne : ss ≠ []) :
      Readable known ancestors (.enumeration (ss.map .text))
  | reference {name : String} (hknown : .text name ∈ known) (hopen : .text name ∉ ancestors)
      (hname : Identifier.isName name.toList = true) : Readable known ancestors (.reference name)
  | array {t : Term} {rs : List Rule} (ht : Readable known ancestors t)
      (hrs : ∀ r ∈ rs, r.Allowed sizeLimits []) :
      Readable known ancestors (.array t (rs.map Rule.constraint))
  | tuple {ts : List Term} (hts : ∀ t ∈ ts, Readable known ancestors t) :
      Readable known ancestors (.tuple ts)
  | union {ts : List Term} (hts : ∀ t ∈ ts, Readable known ancestors t) (hlength : 2 ≤ ts.length) :
      Readable known ancestors (.union ts)
  | intersection {s t : Term} (hs : Readable known ancestors s) (ht : Readable known ancestors t) :
      Readable known ancestors (.intersection [s, t])
  | nullable {t : Term} (ht : Readable known ancestors t) : Readable known ancestors (.nullable t)
  | container {kind : Container} {ts : List Term} (hkind : kind ∈ [.record, .map, .set, .promise])
      (hts : ∀ t ∈ ts, Readable known ancestors t) (hne : ts ≠ []) :
      Readable known ancestors (.container kind ts)
  | object {fs : List (Term.Member × Term)} {a : Option (Additional Term)}
      (hkeys : ∀ f ∈ fs, isReadableKey f.1.key = true ∧ Clear f.1.key.toList)
      (hfs : ∀ f ∈ fs, Readable known ancestors f.2)
      (ha : ∀ t, a = some (.typed t) → Readable known ancestors t) :
      Readable known ancestors (.object fs a)

/-- Schemas that a mapping reads below the given ancestors. -/
abbrev language (m : Mapping String) (known ancestors : List Scalar) :
    Language String (List Char) where
  mapping := m
  known := known
  scale := .marked
  expression := ofList
  raws := fun e raw => raw = .text e
  under := fun as => as = ancestors

/-- Text that is mapped to itself within any budget from `k` on. -/
abbrev Reads (m : Mapping String) (known ancestors : List Scalar) (k : Nat) (e : List Char) :
    Prop :=
  (language m known ancestors).Reads k e e

/-- Schemas are read and written by the same mapping. -/
structure Mirrors (m : Mapping String) (indent : Indent) : Prop where
  grammar : m.grammar = .zod
  renderer : m.renderer = Target.Zod.renderer false indent
  inline : m.inline = false

variable {m : Mapping String} {indent : Indent} {known ancestors : List Scalar} {k : Nat}
  {e u : List Char} {s : Shape} {t : Term} {rs : List Rule}

theorem Mirrors.reads (hm : Mirrors m indent) (hclassify : classify e = .ok s)
    (hs : ∀ site budget, k ≤ budget →
      Yields (m.shape site known (m.mapType site known budget)
        (m.mapReference site known (budget + 1) ancestors) ancestors s) (ofList e)) :
    Reads m known ancestors (k + 1) e := by
  refine reads_of_shape fun raw hraw => ⟨s, ?_, ?_⟩
  · cases hraw
    rw [hm.grammar]
    exact hclassify
  · rintro site budget _ rfl hb
    exact hs site budget hb

/-- The schema of a term. -/
structure Written (m : Mapping String) (known ancestors : List Scalar) (t : Term) (e : List Char) :
    Prop extends (language m known ancestors).Writes t e where
  expression : Expression e

/-! ### Calls -/

theorem expression_made {args : List Char} (hname : name ∈ factories) (hargs : Fit args) :
    Expression (joinChain (made name args)) := by
  have hchained : Chained methods (made name args) [] := chained_made hname hargs (by simp)
  simpa using hchained.expression

/-- A factory with a list of arguments. -/
theorem listCall_eq {f word : String} (hf : f.toList = 'z' :: '.' :: word.toList)
    (us : List (List Char)) : Target.Zod.listCall f (us.map ofList) =
      ofList (joinChain (made word (brackets us))) := by
  rw [Target.Zod.listCall, intercalate_ofList]
  apply String.toList_inj.mp
  simp [joinChain, made, brackets, commas, hf]

theorem call_eq {f word : String} (hf : f.toList = 'z' :: '.' :: word.toList)
    (us : List (List Char)) : Target.Zod.call f (us.map ofList) =
      ofList (joinChain (made word (commas us))) := by
  rw [Target.Zod.call, intercalate_ofList]
  apply String.toList_inj.mp
  simp [joinChain, made, commas, hf]

theorem unaryCall_eq {f word : String} (hf : f.toList = 'z' :: '.' :: word.toList) (u : List Char) :
    Target.Zod.call f [ofList u] = ofList (joinChain (made word u)) := by
  have hcall := call_eq hf [u]
  rwa [commas, intercalate_singleton] at hcall

/-- The quoted members of an enumeration. -/
def quotedTexts (ss : List String) : List (List Char) :=
  ss.map fun s => Json.stringChars false s.toList

theorem enumeration_eq (hne : ss ≠ []) :
    Target.Zod.enumeration (ss.map .text) =
      .ok (ofList (joinChain (made "enum" (brackets (quotedTexts ss))))) := by
  have hjson : (ss.map .text).mapM Literal.json = .ok ((quotedTexts ss).map ofList) := by
    rw [mapM_map, quotedTexts, map_map]
    exact mapM_eq_map fun s _ => rfl
  have hall : (ss.map .text).all Literal.isTextValue := by
    simp [Literal.isTextValue]
  obtain ⟨s, rest, rfl⟩ := exists_cons_of_ne_nil hne
  simp only [map_cons] at hjson hall ⊢
  simp only [Target.Zod.enumeration, hall, hjson, if_true]
  exact congrArg Except.ok (listCall_eq rfl (quotedTexts (s :: rest)))

theorem enumeration?_eq (hss : ∀ s ∈ ss, Writable s) (hne : ss ≠ []) :
    Literal.enumeration? (quotedTexts ss) = .ok (some (ss.map .text)) := by
  refine Literal.enumeration?_texts hne ?_
  rw [quotedTexts, mapM_map]
  refine mapM_eq_map fun s hs => ?_
  rw [Function.comp_apply, Literal.read?_stringChars (hss s hs).1, String.ofList_toList]

theorem expression_key : Expression "z.string()".toList :=
  expression_made (show "string" ∈ factories by decide) fit_nil

section Parts

variable {ts : List Term} {es : List (List Char)} (h : Forall₂ (Written m known ancestors) ts es)
include h

theorem expressions_written : ∀ e ∈ es, Expression e := by
  intro e he
  obtain ⟨t, -, ht⟩ := exists_mem_of_forall₂ h he
  exact ht.expression

end Parts

theorem yields_texts {us : List (List Char)} (h : ∀ u ∈ us, Reads m known ancestors k u)
    {budget : Nat} (hle : k ≤ budget) (site : Site) :
    Yields ((us.map .text).mapM (m.mapType site known budget ancestors)) (us.map ofList) :=
  yields_members (L := language m known ancestors) .text (fun _ => rfl) site ancestors rfl hle h

/-! ### Terms without parts -/

section Terms

variable (hm : Mirrors m indent)
include hm

theorem written_primitive {word : String} {p : Primitive} (hword : factory? word = some p) :
    Written m known ancestors (.primitive p []) (joinChain (made word [])) := by
  have hname : word ∈ factories := by
    unfold factory? at hword
    split at hword <;> first | decide | cases hword
  have hrender : m.renderer.primitive p [] = .ok (ofList (joinChain (made word []))) := by
    rw [hm.renderer]
    unfold factory? at hword
    split at hword <;> cases hword <;> rfl
  exact ⟨⟨hrender, hm.reads (classify_primitive hword) fun site budget _ => Yields.lift hrender⟩,
    expression_made hname fit_nil⟩

/-- A primitive whose rules are written behind other calls. -/
theorem written_rules {p : Primitive} {before : List Call} (hname : name ∈ factories)
    (hbefore : ∀ c ∈ before, Method limiting c) {limits : List Limit} {checks : List String}
    (hlimits : limits ⊆ everyLimit)
    (hchecks : ∀ check ∈ checks, check ∈ formats ∧ made name [] ++ before = stringCalls)
    (hstart : Target.Zod.primitive false p = ofList (joinChain (made name [] ++ before)))
    (hclassify : ∀ {rs : List Rule}, (∀ r ∈ rs, r.Allowed limits checks) →
      classify (joinChain (made name [] ++ before ++ rs.map Rule.call)) =
        .ok (.primitive p (rs.map Rule.constraint)))
    (hrs : ∀ r ∈ rs, r.Allowed limits checks) :
    ∃ e, Written m known ancestors (.primitive p (rs.map Rule.constraint)) e := by
  have hsettled : ∀ r ∈ Rule.settle rs, r.Allowed limits checks :=
    fun r hr => hrs r (Rule.mem_of_mem_settle hr)
  have hexpression :
      Expression (joinChain (made name [] ++ before ++ (Rule.settle rs).map Rule.call)) := by
    have hmethods := method_limiting hlimits (fun check h => (hchecks check h).1) hsettled
    rw [append_assoc]
    exact (chained_made hname fit_nil (forall_mem_append.mpr ⟨hbefore, hmethods⟩)).expression
  have hrender {rs : List Rule} (hrs : ∀ r ∈ rs, r.Allowed limits checks) :
      m.renderer.primitive p (rs.map Rule.constraint) = .ok (ofList
        (joinChain (made name [] ++ before ++ (Rule.settle rs).map Rule.call))) := by
    have hne : made name [] ++ before ≠ [] := by simp [made]
    rw [hm.renderer]
    change Target.Zod.constrainAll (Target.Zod.primitive false p) _ = _
    rw [hstart, constrainAll_eq hne hlimits hchecks hrs]
  refine ⟨_, ⟨hrender hrs, hm.reads (hclassify hsettled) fun site budget _ => ?_⟩, hexpression⟩
  -- What is read is settled already, so that it is written as before.
  refine Yields.lift ?_
  rw [hrender hsettled, Rule.settle_settle]

theorem written_string (hrs : ∀ r ∈ rs, r.Allowed lengthLimits formats) :
    ∃ e, Written m known ancestors (.primitive .string (rs.map Rule.constraint)) e :=
  written_rules hm (show "string" ∈ factories by decide) (show ∀ c ∈ [], _ by simp) (by decide)
    (fun _ hcheck => ⟨hcheck, rfl⟩) rfl classify_string hrs

theorem written_number (hrs : ∀ r ∈ rs, r.Allowed rangeLimits []) :
    ∃ e, Written m known ancestors (.primitive .number (rs.map Rule.constraint)) e :=
  written_rules hm (show "number" ∈ factories by decide) (show ∀ c ∈ [], _ by simp) (by decide)
    (by simp) rfl classify_number hrs

theorem written_integer (hrs : ∀ r ∈ rs, r.Allowed rangeLimits []) :
    ∃ e, Written m known ancestors (.primitive .integer (rs.map Rule.constraint)) e := by
  have hint : ∀ c ∈ [intCall], Method limiting c := by
    simpa using ⟨by decide, [], rfl, fit_nil⟩
  exact written_rules hm (show "number" ∈ factories by decide) hint (by decide) (by simp) rfl
    classify_integer hrs

theorem written_literal {v : Value} (hu : Fit u) (htrim : Text.trim u = u)
    (hread : Literal.read? u = .ok (some v)) (hwrite : Literal.exactScript v = .ok (ofList u))
    (hnull : v ≠ .null) (htext : v.hasText) :
    Written m known ancestors (.literal v) (joinChain (made "literal" u)) := by
  have hrender : m.renderer.literal v = .ok (ofList (joinChain (made "literal" u))) := by
    rw [hm.renderer]
    change Target.Zod.literal v = _
    rw [Target.Zod.literal, hwrite]
    · refine congrArg Except.ok (String.toList_inj.mp ?_)
      simp [joinChain, made]
    · exact hnull
  refine ⟨⟨hrender, hm.reads (classify_literal hu htrim hread) fun site budget _ => ?_⟩,
    expression_made (by decide) hu⟩
  exact (Mapping.yields_checkRange (Mapping.rangeShown_of_hasText (by simpa)) site).bind
    (Yields.lift hrender)

theorem written_truth (b : Bool) : ∃ e, Written m known ancestors (.literal (.bool b)) e := by
  cases b
  all_goals
    exact ⟨_, written_literal hm (fit_of_atoms (forall_mem_of_all rfl)) rfl rfl rfl (by simp) rfl⟩

theorem written_whole {i : Int} (hi : (decimalDigits i.natAbs).length ≤ digitLimit) :
    ∃ e, Written m known ancestors (.literal (.int i)) e := by
  have hmark := Literal.isPart_exactMark i
  exact ⟨_, written_literal hm (fit_of_atoms (Literal.isAtomChar_intChars i hmark))
    (trim_intChars i _ hmark) (Literal.read?_exact hi) (Literal.exactScript_int hi) (by simp)
    (Value.hasText_int hi)⟩

theorem written_text {s : String} (hs : Writable s) :
    ∃ e, Written m known ancestors (.literal (.text s)) e := by
  have hpiece : Piece tracked isChainChar (Json.stringChars false s.toList) := piece_quoted hs.1
  refine ⟨_, written_literal hm (fit_quoted hs.1 hs.2) hpiece.trim_eq ?_ rfl (by simp) rfl⟩
  rw [Literal.read?_stringChars hs.1, String.ofList_toList]

theorem written_enumeration (hss : ∀ s ∈ ss, Writable s) (hne : ss ≠ []) :
    ∃ e, Written m known ancestors (.enumeration (ss.map .text)) e := by
  have hfit : ∀ u ∈ quotedTexts ss, Fit u :=
    forall_mem_map.mpr fun s hs => fit_quoted (hss s hs).1 (hss s hs).2
  have hpieces : ∀ u ∈ quotedTexts ss, Piece tracked isChainChar u :=
    forall_mem_map.mpr fun s hs => piece_quoted (hss s hs).1
  have hrender (site : Site) : m.renderer.enumeration site (ss.map .text) =
      .ok (ofList (joinChain (made "enum" (brackets (quotedTexts ss)))), []) := by
    rw [hm.renderer]
    simp only [Target.Zod.renderer, enumeration_eq hne]
    rfl
  have hshown : Mapping.rangeShown (ss.map .text) :=
    Mapping.rangeShown_of_hasText (forall_mem_map.mpr fun _ _ => rfl)
  refine ⟨_, ⟨?_, hm.reads (classify_enumeration hfit rfl hpieces (enumeration?_eq hss hne))
    fun site budget _ => ?_⟩, expression_made (by decide) (fit_brackets hfit)⟩
  · rw [render, hrender]
    rfl
  · exact (Mapping.yields_checkRange hshown site).bind
      ((Yields.lift (hrender site)).bind ((Yields.forM (by simp)).bind (Yields.pure _)))

theorem written_reference (hknown : .text name ∈ known) (hopen : .text name ∉ ancestors)
    (hname : Identifier.isName name.toList) :
    Written m known ancestors (.reference name) (name ++ "Schema").toList := by
  have hself : m.renderer.reference name = ofList (name ++ "Schema").toList := by
    rw [hm.renderer, String.ofList_toList]
    change Target.Zod.schemaName name = _
    rw [Target.Zod.schemaName, Identifier.sanitize_eq hname]
  have hchained : Chained methods [⟨name ++ "Schema", none⟩] [] := ⟨.reference hname, by simp⟩
  refine ⟨⟨congrArg Except.ok hself, hm.reads (classify_reference hname) fun site budget _ => ?_⟩,
    by simpa [joinChain] using hchained.expression⟩
  · change Yields (m.mapReference site known (budget + 1) ancestors name) _
    rw [Mapping.mapReference_succ, Mapping.resolve_named hknown hopen hm.inline, ← hself]
    exact (Yields.record rfl).bind (Yields.pure _)

/-! ### Terms with parts -/

theorem written_array (h : Written m known ancestors t e)
    (hrs : ∀ r ∈ rs, r.Allowed sizeLimits []) :
    ∃ e', Written m known ancestors (.array t (rs.map Rule.constraint)) e' := by
  have hsettled : ∀ r ∈ Rule.settle rs, r.Allowed sizeLimits [] :=
    fun r hr => hrs r (Rule.mem_of_mem_settle hr)
  have hrender {rs : List Rule} (hrs : ∀ r ∈ rs, r.Allowed sizeLimits []) :
      m.renderer.array (ofList e) (rs.map Rule.constraint) =
        .ok (ofList (joinChain (made "array" e ++ (Rule.settle rs).map Rule.call))) := by
    have hcall : Target.Zod.call "z.array" [ofList e] =
        ofList (joinChain (made "array" e)) := unaryCall_eq rfl e
    rw [hm.renderer]
    change Target.Zod.constrainAll (Target.Zod.call "z.array" [ofList e]) _ = _
    rw [hcall, constrainAll_eq (by simp [made]) (by decide) (by simp) hrs]
  have hmethods := method_limiting (by decide) (nil_subset _) hsettled
  refine ⟨_, ⟨?_, hm.reads (classify_array h.expression hsettled) fun site budget hle => ?_⟩,
    (chained_made (by decide) h.expression.fit hmethods).expression⟩
  · rw [render, h.render]
    exact hrender hrs
  · refine (h.reads _ rfl site budget _ rfl hle).bind (Yields.lift ?_)
    rw [hrender hsettled, Rule.settle_settle]

theorem written_nullable (h : Written m known ancestors t e) :
    ∃ e', Written m known ancestors (.nullable t) e' := by
  obtain ⟨base, after, hchained, rfl⟩ := h.expression
  have hrender : m.renderer.nullable (ofList (joinChain (base ++ after))) =
      .ok (ofList (joinChain (base ++ (after ++ [⟨"nullable", some []⟩])))) := by
    rw [hm.renderer, ← append_assoc, joinChain_concat hchained.ne_nil, String.ofList_append]
    rfl
  refine ⟨_, ⟨?_, hm.reads (classify_nullable hchained) fun site budget hle => ?_⟩,
    hchained.nullable.expression⟩
  · rw [render, h.render]
    exact hrender
  · exact (h.reads _ rfl site budget _ rfl hle).bind (Yields.lift hrender)

theorem written_intersection {s : Term} (hs : Written m known ancestors s e)
    (ht : Written m known ancestors t u) :
    ∃ e', Written m known ancestors (.intersection [s, t]) e' := by
  obtain ⟨base, after, hchained, rfl⟩ := hs.expression
  have hrender : m.renderer.intersect (ofList (joinChain (base ++ after))) (ofList u) =
      .ok (ofList (joinChain (base ++ (after ++ [⟨"and", some u⟩])))) := by
    rw [hm.renderer, ← append_assoc, joinChain_concat hchained.ne_nil]
    refine congrArg Except.ok (String.toList_inj.mp ?_)
    simp
  have hclassify := classify_and hchained ht.expression.fit ht.expression.piece.ne_nil
  refine ⟨_, ⟨?_, hm.reads hclassify fun site budget hle => ?_⟩,
    (hchained.and ht.expression.fit).expression⟩
  · rw [render, renderAll_written Written.toWrites (.cons hs (.cons ht .nil))]
    exact (bind_pure _).trans hrender
  · have hboth : ∀ v ∈ [joinChain (base ++ after), u],
        Reads m known ancestors (depthBelow .marked [s, t]) v :=
      reads_written Written.toWrites (.cons hs (.cons ht .nil))
    refine (yields_texts hboth hle site).bind (Yields.lift ?_)
    exact (bind_pure _).trans hrender

/-- The type of keys that was not written. -/
theorem reads_key {ts : List Term} (hne : ts ≠ []) :
    Reads m known ancestors (depthBelow .marked ts) "z.string()".toList := by
  have hstring : Written m known ancestors (.primitive .string []) "z.string()".toList :=
    written_primitive hm (show factory? "string" = some .string from rfl)
  refine hstring.reads.mono ?_
  obtain ⟨t, ts, rfl⟩ := exists_cons_of_ne_nil hne
  rw [Term.depth, depthBelow]
  omega

section Parts

variable {ts : List Term} {es : List (List Char)} {kind : Container}
  (h : Forall₂ (Written m known ancestors) ts es)
include h

theorem written_tuple :
    Written m known ancestors (.tuple ts) (joinChain (made "tuple" (brackets es))) := by
  have hexpressions := expressions_written h
  have hrender : m.renderer.tuple (es.map ofList) =
      .ok (ofList (joinChain (made "tuple" (brackets es)))) := by
    rw [hm.renderer]
    exact congrArg Except.ok (listCall_eq rfl es)
  refine ⟨⟨?_, hm.reads (classify_tuple hexpressions) fun site budget hle => ?_⟩,
    expression_made (by decide) (fit_brackets fun e he => (hexpressions e he).fit)⟩
  · rw [render, renderAll_written Written.toWrites h]
    exact hrender
  · exact (yields_texts (reads_written Written.toWrites h) hle site).bind (Yields.lift hrender)

theorem written_union (hlength : 2 ≤ ts.length) :
    Written m known ancestors (.union ts) (joinChain (made "union" (brackets es))) := by
  have hexpressions := expressions_written h
  have hrender : m.renderer.union (es.map ofList) =
      .ok (ofList (joinChain (made "union" (brackets es)))) := by
    rw [hm.renderer]
    exact congrArg Except.ok (listCall_eq rfl es)
  refine ⟨⟨?_, hm.reads (classify_union hexpressions) fun site budget hle => ?_⟩,
    expression_made (by decide) (fit_brackets fun e he => (hexpressions e he).fit)⟩
  · rw [render, renderAll_written Written.toWrites h]
    exact hrender
  · refine (yields_texts (reads_written Written.toWrites h) hle site).bind ?_
    rw [h.length_eq] at hlength
    match es, hlength with
    | e :: e' :: es, _ => exact Yields.lift hrender

/-! ### Containers -/

/-- The arguments that a container is read with may differ from those that it was written with. -/
theorem written_args (hkind : kind ∈ [.record, .map, .set, .promise]) (us : List (List Char))
    (he : Expression e) (hclassify : classify e = .ok (.container kind (us.map .text) []))
    (hreads : ∀ u ∈ us, Reads m known ancestors (depthBelow .marked ts) u)
    (hterm : Target.Zod.container kind (es.map ofList) = .ok (ofList e))
    (hread : Target.Zod.container kind (us.map ofList) = .ok (ofList e)) :
    Written m known ancestors (.container kind ts) e := by
  have hcontainer : m.renderer.container = Target.Zod.container := by
    rw [hm.renderer]
    rfl
  refine ⟨⟨?_, hm.reads hclassify fun site budget hle => ?_⟩, he⟩
  · rw [render, renderAll_written Written.toWrites h, hcontainer]
    exact hterm
  · have hargs : Yields (do
        let args ← (us.map .text).mapM (m.mapType site known budget ancestors)
        Logged.lift (m.renderer.container kind args)) (ofList e) := by
      rw [hcontainer]
      exact (yields_texts hreads hle site).bind (Yields.lift hread)
    simp only [mem_cons, not_mem_nil, or_false] at hkind
    rcases hkind with rfl | rfl | rfl | rfl <;> exact hargs

theorem written_record (hne : ts ≠ []) :
    ∃ e, Written m known ancestors (.container .record ts) e := by
  obtain ⟨v, hlast, ht⟩ := exists_getLast?_of_forall₂ h (getLast?_eq_some_getLast hne)
  have hreads := reads_written Written.toWrites h v (mem_of_getLast? hlast)
  have hterm : Target.Zod.container .record (es.map ofList) =
      .ok (ofList (joinChain (made "record" v))) := by
    simp only [Target.Zod.container, getLast?_map, hlast, Option.map_some]
    exact congrArg Except.ok (unaryCall_eq rfl v)
  have hboth :
      ∀ u ∈ ["z.string()".toList, v], Reads m known ancestors (depthBelow .marked ts) u := by
    simpa using ⟨reads_key hm hne, hreads⟩
  exact ⟨_, written_args hm h (by simp) _ (expression_made (by decide) ht.expression.fit)
    (classify_record ht.expression) hboth hterm (congrArg Except.ok (unaryCall_eq rfl v))⟩

/-- A map with one argument has text for its keys. -/
theorem written_map (hne : ts ≠ []) : ∃ e, Written m known ancestors (.container .map ts) e := by
  have hexpressions := expressions_written h
  have hreads := reads_written Written.toWrites h
  have hpair {k v : List Char} (hk : Expression k) (hv : Expression v)
      (hboth : ∀ u ∈ [k, v], Reads m known ancestors (depthBelow .marked ts) u)
      (hterm : Target.Zod.container .map (es.map ofList) =
        .ok (Target.Zod.call "z.map" ([k, v].map ofList))) :
      ∃ e, Written m known ancestors (.container .map ts) e := by
    have hfit : Fit (commas [k, v]) := fit_commas (by simpa using ⟨hk.fit, hv.fit⟩)
    have hcall : Target.Zod.call "z.map" ([k, v].map ofList) =
        ofList (joinChain (made "map" (commas [k, v]))) := call_eq rfl [k, v]
    rw [hcall] at hterm
    exact ⟨_, written_args hm h (by simp) [k, v] (expression_made (by decide) hfit)
      (classify_map hk hv) hboth hterm (congrArg Except.ok hcall)⟩
  match es with
  | [] =>
    cases h
    exact absurd rfl hne
  | [v] =>
    refine hpair expression_key (hexpressions v (by simp)) ?_ rfl
    simpa using ⟨reads_key hm hne, hreads v (by simp)⟩
  | k :: v :: _ =>
    refine hpair (hexpressions k (by simp)) (hexpressions v (by simp)) ?_ rfl
    simpa using ⟨hreads k (by simp), hreads v (by simp)⟩

/-- Containers of their first argument. -/
theorem written_first (hkind : kind ∈ [.set, .promise]) (hne : ts ≠ []) :
    ∃ e, Written m known ancestors (.container kind ts) e := by
  match es with
  | [] =>
    cases h
    exact absurd rfl hne
  | v :: es =>
    have hv := expressions_written h v (mem_cons_self ..)
    have hreads : ∀ u ∈ [v], Reads m known ancestors (depthBelow .marked ts) u := by
      simpa using reads_written Written.toWrites h v (mem_cons_self ..)
    simp only [mem_cons, not_mem_nil, or_false] at hkind
    rcases hkind with rfl | rfl
    · have hcall : Target.Zod.call "z.set" [ofList v] =
          ofList (joinChain (made "set" v)) := unaryCall_eq rfl v
      exact ⟨_, written_args hm h (by simp) [v] (expression_made (by decide) hv.fit)
        (classify_set hv) hreads (congrArg Except.ok hcall) (congrArg Except.ok hcall)⟩
    · have hcall : Target.Zod.call "z.promise" [ofList v] =
          ofList (joinChain (made "promise" v)) := unaryCall_eq rfl v
      exact ⟨_, written_args hm h (by simp) [v] (expression_made (by decide) hv.fit)
        (classify_promise hv) hreads (congrArg Except.ok hcall) (congrArg Except.ok hcall)⟩

theorem written_container (hkind : kind ∈ [.record, .map, .set, .promise]) (hne : ts ≠ []) :
    ∃ e, Written m known ancestors (.container kind ts) e := by
  simp only [mem_cons, not_mem_nil, or_false] at hkind
  rcases hkind with rfl | rfl | rfl | rfl
  · exact written_record hm h hne
  · exact written_map hm h hne
  · exact written_first hm h (mem_cons_self ..) hne
  · exact written_first hm h (mem_cons_of_mem _ (mem_cons_self ..)) hne

end Parts

/-! ### Objects -/

/-- The call that marks an optional field is read as a type of its own. -/
theorem Written.reads_fieldType (h : Written m known ancestors t e) (optional : Bool) :
    Reads m known ancestors (t.depth .marked + 1 + optional.toNat) (fieldType optional e) := by
  cases optional with
  | false => exact h.reads
  | true =>
    have hreads := h.reads
    obtain ⟨base, after, hchained, rfl⟩ := h.expression
    rw [hchained.fieldType_true, append_assoc]
    refine hm.reads (classify_optional hchained) fun site budget hle => ?_
    refine (hreads _ rfl site budget _ rfl hle).bind (Yields.lift ?_)
    rw [hm.renderer, ← append_assoc]
    exact congrArg Except.ok (optional_eq hchained)

end Terms

section Fields

variable {fs : List (Term.Member × Term)} {ps : List (Term.Member × List Char)}
  {a : Option (Additional Term)} {o : Option (Additional (List Char))}

variable (hm : Mirrors m indent) (h : Forall₂ (Term.Paired (Written m known ancestors)) fs ps)
include h

theorem legible_written (hkeys : ∀ f ∈ fs, isReadableKey f.1.key ∧ Clear f.1.key.toList) :
    Legible ps := by
  have hfield : ∀ p ∈ ps, (isReadableKey p.1.key ∧ Clear p.1.key.toList) ∧ Expression p.2 := by
    intro p hp
    obtain ⟨f, hf, hmember, ht⟩ := exists_mem_of_forall₂ h hp
    rw [hmember]
    exact ⟨hkeys f hf, ht.expression⟩
  exact ⟨fun p hp => (hfield p hp).1.1, fun p hp => (hfield p hp).1.2, fun p hp => (hfield p hp).2⟩

include hm

theorem reads_fields : ∀ p ∈ ps,
    Reads m known ancestors (depthOfFields .marked fs) (fieldType p.1.optional p.2) := by
  intro p hp
  obtain ⟨f, hf, hmember, ht⟩ := exists_mem_of_forall₂ h hp
  refine (ht.reads_fieldType hm p.1.optional).mono ?_
  have hdepth : _ + f.1.optional.toNat < _ := Term.depth_lt_depthOfFields (s := .marked) hf
  rw [hmember]
  omega

theorem written_object (hkeys : ∀ f ∈ fs, isReadableKey f.1.key ∧ Clear f.1.key.toList)
    (ho : (language m known ancestors).WritesAdditional a o)
    (htyped : ∀ e, o = some (.typed e) → Expression e) :
    Written m known ancestors (.object fs a) (joinChain (objectCalls ps o)) := by
  have hlegible := legible_written h hkeys
  have hobject {ms : List (MappedField String)} (hms : Forall₂ Handed ps ms) :
      m.renderer.object ms (o.map (Additional.map ofList)) false =
        .ok (ofList (joinChain (objectCalls ps o))) := by
    rw [hm.renderer]
    exact object_eq indent hlegible.types hms o
  refine ⟨⟨?_, hm.reads (classify_object hlegible htyped) fun site budget hle => ?_⟩,
    (chained_object hlegible htyped).expression⟩
  · rw [render, renderFields_written Written.toWrites h, ho.render]
    refine hobject (forall₂_map_right_iff.mpr (forall₂_same.mpr fun p _ => ?_))
    exact ⟨⟨_, rfl⟩, .inl rfl⟩
  · have hle' : max (depthOfFields .marked fs) (Term.depthOfAdditional .marked a) ≤ budget := hle
    -- The types of the fields were marked before, so that the second mark is not written.
    have hhanded : Forall₂ Handed ps
        (ps.map fun p => ⟨readField p, ofList (fieldType p.1.optional p.2), []⟩) :=
      forall₂_map_right_iff.mpr (forall₂_same.mpr fun p _ => ⟨⟨_, rfl⟩, .inr rfl⟩)
    have hfields := yields_fields (L := language m known ancestors) .text (fun _ => rfl) site
      ancestors rfl (show depthOfFields .marked fs ≤ budget by omega)
      (fun p => fieldType p.1.optional p.2) (reads_fields hm h)
    have hextra := yields_additional (L := language m known ancestors) .text (fun _ => rfl) site
      ancestors rfl (show Term.depthOfAdditional .marked a ≤ budget by omega) ho.reads
    exact hfields.bind (hextra.bind (Yields.lift (hobject hhanded)))

end Fields

theorem exists_written (hm : Mirrors m indent) (h : Readable known ancestors t) :
    ∃ e, Written m known ancestors t e := by
  induction h with
  | primitive _ hword => exact ⟨_, written_primitive hm hword⟩
  | string hrs => exact written_string hm hrs
  | number hrs => exact written_number hm hrs
  | integer hrs => exact written_integer hm hrs
  | truth b => exact written_truth hm b
  | whole hi => exact written_whole hm hi
  | text hs => exact written_text hm hs
  | enumeration hss hne => exact written_enumeration hm hss hne
  | reference hknown hopen hname => exact ⟨_, written_reference hm hknown hopen hname⟩
  | array _ hrs ih =>
    obtain ⟨e, he⟩ := ih
    exact written_array hm he hrs
  | tuple _ ih =>
    obtain ⟨es, hes⟩ := exists_forall₂ ih
    exact ⟨_, written_tuple hm hes⟩
  | union _ hlength ih =>
    obtain ⟨es, hes⟩ := exists_forall₂ ih
    exact ⟨_, written_union hm hes hlength⟩
  | intersection _ _ ihs iht =>
    obtain ⟨e, he⟩ := ihs
    obtain ⟨u, hu⟩ := iht
    exact written_intersection hm he hu
  | nullable _ ih =>
    obtain ⟨e, he⟩ := ih
    exact written_nullable hm he
  | container hkind _ hne ih =>
    obtain ⟨es, hes⟩ := exists_forall₂ ih
    exact written_container hm hes hkind hne
  | @object fs a hkeys _ _ ihfs iha =>
    obtain ⟨ps, hps⟩ := Term.exists_paired ihfs
    obtain ⟨o, ho, htyped⟩ := exists_writesAdditional Written.toWrites iha
    refine ⟨_, written_object hm hps hkeys ho fun e he => ?_⟩
    obtain ⟨t, -, ht⟩ := htyped e he
    exact ht.expression

end Zod

namespace Conversion

open Zod (Readable)

/-- From schemas to schemas, with references by name. -/
def ofChains (settings : Settings) : Conversion :=
  { grammar := .zod, target := .zod, settings }

/-- The schema of a term is mapped to itself. -/
theorem chain_readBack (settings : Settings) (scope : Scope) (catalogue : Catalogue) (root : Scalar)
    (site : Site) (known ancestors : List Scalar) {t : Term} (ht : Readable known ancestors t)
    {limit : Int} (hlimit : settings.maxDepth.floor? = .ok (some limit))
    (hlevels : t.levels ≤ limit) :
    let m : Mapping String := (ofChains settings).mapping scope catalogue root
    ∃ e, t.render m.renderer = .ok e ∧
      let mapped := m.mapType site known (settings.budgetAt 0) ancestors (.text e.toList)
      mapped.result = .ok e ∧
        ∀ p : Progress, ∀ d ∈ (p.afterAll mapped.log).2, d.problem = .numericRange := by
  intro m
  have hm : Zod.Mirrors m settings.indent := ⟨rfl, rfl, rfl⟩
  obtain ⟨e, he⟩ := Zod.exists_written hm ht
  have hyields :=
    he.reads _ rfl site (settings.budgetAt 0) _ rfl (Settings.lt_budgetAt hlimit hlevels)
  refine ⟨_, he.render, ?_⟩
  rw [String.toList_ofList]
  exact ⟨hyields.result, Progress.numericRange_of_quiet hyields.quiet⟩

/-- An object with rules, references and further fields, some of which may be missing. -/
def chainedTerm : Term :=
  .object
    [(⟨"id", false⟩, .primitive .string [⟨.format, .text "email"⟩, ⟨.minLength, .int 3⟩]),
      (⟨"full name", true⟩, .nullable (.array
        (.union [.primitive .integer [⟨.exclusiveMinimum, .int (-7)⟩],
          .literal (.int 12345678901234567890), .literal (.text "a.b, (\"c")])
        [⟨.maxItems, .int 5⟩])),
      (⟨"inner", true⟩, .intersection [.reference "A",
        .object [(⟨"next", true⟩, .container .map [.primitive .boolean []])] (some .nothing)]),
      (⟨"kinds", false⟩, .container .record [.enumeration [.text "x", .text "y"]])]
    (some (.typed (.tuple [.container .promise [.primitive .unknown []]])))

theorem readable_chainedTerm : Readable [.text "A"] [] chainedTerm := by
  have hstring : Readable [.text "A"] [] (.primitive .string
      ([.format "email", .bound .minLength 3].map Zod.Rule.constraint)) := .string (by decide)
  have hinteger : Readable [.text "A"] [] (.primitive .integer
      ([.bound .exclusiveMinimum (-7)].map Zod.Rule.constraint)) := .integer (by decide)
  have hunion : Readable [.text "A"] []
      (.union [.primitive .integer [⟨.exclusiveMinimum, .int (-7)⟩],
      .literal (.int 12345678901234567890), .literal (.text "a.b, (\"c")]) := by
    refine .union ?_ (by decide)
    simp only [forall_mem_cons]
    exact ⟨hinteger, .whole (by decide +kernel), .text (by decide +kernel), by simp⟩
  have hsize : ∀ r ∈ [Zod.Rule.bound .maxItems 5], r.Allowed Zod.sizeLimits [] := by decide
  have hmap : Readable [.text "A"] [] (.container .map [.primitive .boolean []]) :=
    .container (by decide) (by simpa using .primitive "boolean" rfl) (by simp)
  have hkinds : Readable [.text "A"] [] (.enumeration (["x", "y"].map .text)) :=
    .enumeration (by decide +kernel) (by simp)
  have hpromise : Readable [.text "A"] [] (.container .promise [.primitive .unknown []]) :=
    .container (by decide) (by simpa using .primitive "unknown" rfl) (by simp)
  refine .object (by decide +kernel) ?_ ?_
  · simp only [forall_mem_cons]
    refine ⟨hstring, .nullable (.array hunion hsize), .intersection ?_ ?_,
      .container (by decide) ?_ (by simp), by simp⟩
    · exact .reference (by simp) (by simp) (by decide)
    · exact .object (by decide +kernel) (by simpa using hmap) (by simp)
    · simpa using hkinds
  · rintro t ⟨⟩
    exact .tuple (by simpa using hpromise)

theorem chainedTerm_readBack :
    Readable [.text "A"] [] chainedTerm ∧ chainedTerm.levels ≤ (6 : Int) ∧
      let m : Mapping String := (ofChains { maxDepth := .int 6 }).mapping {} (.ofList []) (.text "")
      ∃ e, chainedTerm.render m.renderer = .ok e ∧
        let mapped := m.mapType {} [.text "A"] 7 [] (.text e.toList)
        mapped.result = .ok e ∧
          ∀ p : Progress, ∀ d ∈ (p.afterAll mapped.log).2, d.problem = .numericRange :=
  ⟨readable_chainedTerm, by decide, chain_readBack { maxDepth := .int 6 } {} (.ofList []) (.text "")
    {} _ [] readable_chainedTerm rfl (by decide)⟩

/-- An object with one field that may be missing. -/
def optionalField : Term := .object [(⟨"a", true⟩, .primitive .string [])] none

/-- A depth that is enough for the term need not be enough for its schema. -/
theorem optionalField_cutOff :
    Readable [] [] optionalField ∧ optionalField.height ≤ (1 : Int) ∧
      let settings : Settings := { maxDepth := .int 1 }
      let m : Mapping String := (ofChains settings).mapping {} (.ofList []) (.text "")
      ∃ e e', optionalField.render m.renderer = .ok e ∧
        (m.mapType {} [] (settings.budgetAt 0) [] (.text e.toList)).result = .ok e' ∧ e' ≠ e := by
  have hstring : Readable [] [] (.primitive .string []) := .primitive "string" rfl
  have hobject : Readable [] [] optionalField :=
    .object (by decide +kernel) (by simpa using hstring) (by simp)
  exact ⟨hobject, by decide, "z.object(\x7b a: z.string().optional() \x7d)",
    "z.object(\x7b a: z.unknown().optional() \x7d)", by decide +kernel,
    by decide +kernel, by decide⟩

end Conversion

end Crosswalk
