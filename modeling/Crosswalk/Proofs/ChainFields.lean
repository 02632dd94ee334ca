import Crosswalk.Proofs.ChainShapes
import Crosswalk.Proofs.MemberLines

/-!
Objects on one line. A field may be missing if the last call of its type says so, and what the
object allows besides its fields is said by a call behind it.
-/

namespace Crosswalk.Zod

open List
open Member (fieldLine isReadableKey keyChars)
open Target.Zod (entry fieldExpression inlineObject)
open String (ofList)

variable {base after calls : List Call} {e : List Char} {m : Term.Member}

/-! ### Types of fields -/

theorem mem_of_mem_tailOfArray {c : Call} (h : c ∈ tailOfArray calls) : c ∈ calls := by
  simp only [tailOfArray] at h
  split at h
  · exact h
  · exact mem_of_mem_drop h

theorem last_mem_tailOfArray (calls : List Call) (c : Call) : c ∈ tailOfArray (calls ++ [c]) := by
  simp only [tailOfArray]
  generalize ((calls ++ [c]).reverse.takeWhile fun c => c.name != "array").reverse.length = n
  split
  · simp
  · have hle : (calls ++ [c]).length - n - 1 ≤ calls.length := by
      rw [length_append, length_singleton]
      omega
    rw [drop_append_of_le_length hle]
    simp

theorem Chained.name_ne {names : List String} (h : Chained names base after) {word : String}
    (hword : word ∉ "z" :: (factories ++ names)) (hlast : word.toList.getLast? ≠ some 'a') :
    ∀ c ∈ base ++ after, c.name ≠ word := by
  have hne {n : String} (hn : n ∈ "z" :: (factories ++ names)) : n ≠ word := by
    rintro rfl
    exact hword hn
  refine forall_mem_append.mpr ⟨?_, fun c hc => hne ?_⟩
  · cases h.base with
    | reference _ => simpa using schema_ne hlast
    | factory hname _ =>
      have hfactory := hne (mem_cons_of_mem _ (mem_append_left names hname))
      simpa using ⟨hne (mem_cons_self ..), hfactory⟩
  · exact mem_cons_of_mem _ (mem_append_right _ (h.after c hc).name)

/-- The type of a field that may be missing is marked by a call. -/
def fieldType (optional : Bool) (e : List Char) : List Char :=
  if optional then e ++ '.' :: optionalCall.text else e

theorem Chained.fieldType_true (h : Chained methods base after) :
    fieldType true (joinChain (base ++ after)) = joinChain (base ++ after ++ [optionalCall]) :=
  (joinChain_concat h.ne_nil _).symm

/-- Whether a field may be missing, as its type says. -/
def isMissing (calls : List Call) : Bool :=
  (tailOfArray calls).any fun c => c.name == "optional" || c.name == "nullish"

theorem Expression.exists_chained (he : Expression e) (optional : Bool) :
    ∃ base after, Chained ("optional" :: methods) base after ∧
      fieldType optional e = joinChain (base ++ after) ∧ isMissing (base ++ after) = optional := by
  obtain ⟨base, after, h, rfl⟩ := he
  cases optional with
  | true =>
    refine ⟨base, after ++ [optionalCall], h.optional, ?_, ?_⟩
    · rw [← append_assoc, h.fieldType_true]
    · rw [isMissing, any_eq_true, ← append_assoc]
      exact ⟨optionalCall, last_mem_tailOfArray _ _, rfl⟩
  | false =>
    refine ⟨base, after, h.relax, rfl, ?_⟩
    have hoptional : ∀ c ∈ base ++ after, c.name ≠ "optional" := h.name_ne (by decide) (by decide)
    have hnullish : ∀ c ∈ base ++ after, c.name ≠ "nullish" := h.name_ne (by decide) (by decide)
    rw [isMissing, any_eq_false]
    intro c hc
    have hmem := mem_of_mem_tailOfArray hc
    simp [hoptional c hmem, hnullish c hmem]

theorem Expression.piece_fieldType (he : Expression e) (optional : Bool) :
    Piece tracked isChainChar (fieldType optional e) := by
  obtain ⟨base, after, h, heq, -⟩ := he.exists_chained optional
  rw [heq]
  exact h.piece

theorem Expression.fit_fieldType (he : Expression e) (optional : Bool) :
    Fit (fieldType optional e) := by
  obtain ⟨base, after, h, heq, -⟩ := he.exists_chained optional
  rw [heq]
  exact h.fit

/-! ### Lines -/

/-- The line of a field. -/
def memberLine (m : Term.Member) (e : List Char) : List Char :=
  fieldLine ⟨m.key, false⟩ (fieldType m.optional e)

/-- A field as it is read from its line. -/
def readField (p : Term.Member × List Char) : Field :=
  p.1.field (.text (fieldType p.1.optional p.2))

theorem defaultValue_eq_none (h : ∀ c ∈ calls, c.name ≠ "default") :
    defaultValue calls = .ok none := by
  induction calls with
  | nil => rfl
  | cons c calls ih =>
    obtain ⟨hc, hcalls⟩ := forall_mem_cons.mp h
    rw [defaultValue, if_neg (by simpa using hc)]
    exact ih hcalls

theorem field_memberLine (hk : isReadableKey m.key) (he : Expression e) :
    field (memberLine m e) = .ok (some (m.field (.text (fieldType m.optional e)))) := by
  have hfield := Member.field?_fieldLine (m := ⟨m.key, false⟩) hk (he.piece_fieldType m.optional)
  obtain ⟨base, after, h, heq, hmissing⟩ := he.exists_chained m.optional
  have hchain : chain (fieldType m.optional e) = base ++ after := by rw [heq, h.chain_eq]
  have hdescribe : (base ++ after).findSome? (fun c =>
      if c.name == "describe" then describeText c.args else none) = none := by
    rw [findSome?_eq_none_iff]
    intro c hc
    rw [if_neg (by simpa using h.name_ne (by decide) (by decide) c hc)]
  have hdefault : defaultValue (base ++ after) = .ok none :=
    defaultValue_eq_none (h.name_ne (by decide) (by decide))
  rw [field, memberLine, hfield]
  simp only [Term.Member.field, Raw.asText, hchain, hdescribe, hdefault, Bool.false_or]
  rw [← isMissing, hmissing]
  rfl

/-- Characters at the top level of a line. -/
def isLineChar (c : Char) : Bool := isChainChar c || c == '?' || c == ':' || c == ' '

theorem piece_memberLine (hk : isReadableKey m.key) (he : Expression e) :
    Piece tracked isLineChar (memberLine m e) := by
  refine Member.piece_fieldLine hk (fun c hc => ?_) rfl rfl
    ((he.piece_fieldType m.optional).mono fun c hc => by simp [isLineChar, hc])
  simp only [Member.isKeyChar, Bool.or_eq_true] at hc
  rcases hc with hc | hc <;> simp [isLineChar, isChainChar, hc]

theorem clear_keyChars {k : String} (hk : isReadableKey k) (h : Clear k.toList) :
    Clear (keyChars k) := by
  have hwritable : ∀ c ∈ k.toList, Literal.isWritable c := by
    simp only [isReadableKey, all_eq_true, Bool.and_eq_true] at hk
    exact fun c hc => (hk c hc).1
  rw [keyChars]
  split
  · exact h
  · exact (fit_quoted hwritable h).clear

theorem fit_memberLine (hk : isReadableKey m.key) (hclear : Clear m.key.toList)
    (he : Expression e) :
    Fit (memberLine m e) where
  nested := (piece_memberLine hk he).balanced.mono fun _ _ => rfl
  clear := by
    have htype := clear_cons (c := ' ') (by decide) (he.fit_fieldType m.optional).clear
    have hline := (clear_keyChars hk hclear).append_cons (c := ':') (by decide) htype
    simpa [memberLine, fieldLine, Member.optionalMark] using hline

/-- Lines between the braces of an object. -/
def objectBody (ls : List (List Char)) : List Char :=
  if ls.isEmpty then [] else ' ' :: (commas ls ++ [' '])

/-- The lines of an object in its braces. -/
def braces (ls : List (List Char)) : List Char := '{' :: (objectBody ls ++ ['}'])

/-- Keys and types that can be read back from their lines. -/
structure Legible (ps : List (Term.Member × List Char)) : Prop where
  keys : ∀ p ∈ ps, isReadableKey p.1.key = true
  clear : ∀ p ∈ ps, Clear p.1.key.toList
  types : ∀ p ∈ ps, Expression p.2

def objectLines (ps : List (Term.Member × List Char)) : List (List Char) :=
  ps.map fun p => memberLine p.1 p.2

section Body

variable {ps : List (Term.Member × List Char)} (h : Legible ps)
include h

theorem pieces_objectLines : ∀ l ∈ objectLines ps, Piece tracked isLineChar l :=
  forall_mem_map.mpr fun p hp => piece_memberLine (h.keys p hp) (h.types p hp)

theorem lines_objectBody :
    Member.lines tracked separators (objectBody (objectLines ps)) = objectLines ps := by
  have hpieces := pieces_objectLines h
  have hsplit :
      splitTopNonempty tracked separators (objectBody (objectLines ps)) = objectLines ps := by
    by_cases hne : objectLines ps = []
    · rw [hne]
      rfl
    · have hnone : ∀ c ∈ [], c = ' ' := by simp
      have hspace : ∀ c ∈ [' '], c = ' ' := by simp
      have hrow : Row tracked isLineChar separators (objectLines ps) (commas (objectLines ps)) :=
        .intercalate hnone hspace (by decide) hpieces hne
      rw [objectBody, if_neg (by simpa using hne)]
      exact hrow.splitTopNonempty_spaced rfl hspace hspace
  rw [Member.lines, hsplit, joinContinuations_eq hpieces]

theorem fields_objectBody : fields (objectBody (objectLines ps)) = .ok (ps.map readField) := by
  rw [fields, Member.readBody, lines_objectBody h, objectLines, Member.foldlM_eq readField ?_]
  · simp [Bind.bind, Except.bind, Pure.pure, Except.pure]
  · intro p hp acc
    have hk := h.keys p hp
    have hhead : (memberLine p.1 p.2).head? ≠ some '[' := Member.head?_fieldLine hk
    rw [if_neg (by simpa using hhead), field_memberLine hk (h.types p hp)]
    rfl

end Body

/-! ### Objects -/

/-- The call that says what an object allows besides its fields. -/
def furtherCalls : Option (Additional (List Char)) → List Call
  | none => []
  | some .anything => [⟨"passthrough", some []⟩]
  | some .nothing => [⟨"strict", some []⟩]
  | some (.typed t) => [⟨"catchall", some t⟩]

/-- The calls of an object. -/
def objectCalls (ps : List (Term.Member × List Char)) (a : Option (Additional (List Char))) :
    List Call :=
  made "object" (braces (objectLines ps)) ++ furtherCalls a

section Object

variable {ps : List (Term.Member × List Char)} {a : Option (Additional (List Char))}

theorem method_furtherCalls (ha : ∀ t, a = some (.typed t) → Expression t) :
    ∀ c ∈ furtherCalls a, Method limiting c := by
  match a with
  | none => simp [furtherCalls]
  | some .anything => simpa [furtherCalls] using ⟨by decide, [], rfl, fit_nil⟩
  | some .nothing => simpa [furtherCalls] using ⟨by decide, [], rfl, fit_nil⟩
  | some (.typed t) =>
    have hname : "catchall" ∈ limiting := by decide
    simpa [furtherCalls] using ⟨hname, t, rfl, (ha t rfl).fit⟩

theorem additional_furtherCalls (ha : ∀ t, a = some (.typed t) → Expression t) :
    additional (furtherCalls a) = a.map (Additional.map .text) := by
  match a with
  | none => rfl
  | some .anything => rfl
  | some .nothing => rfl
  | some (.typed t) =>
    have hgiven : (⟨"catchall", some t⟩ : Call).given? = some t := by
      simp [Call.given?, (ha t rfl).piece.ne_nil]
    simp only [furtherCalls, additional, foldl_cons, foldl_nil, hgiven]
    rfl

variable (h : Legible ps)
include h

theorem fit_objectBody : Fit (objectBody (objectLines ps)) := by
  have hlines : ∀ l ∈ objectLines ps, Fit l :=
    forall_mem_map.mpr fun p hp => fit_memberLine (h.keys p hp) (h.clear p hp) (h.types p hp)
  have hcommas := fit_commas hlines
  rw [objectBody]
  split
  · exact fit_nil
  · constructor
    · exact .plain rfl rfl (hcommas.nested.append (.plain rfl rfl .nil))
    · exact clear_cons (by decide) (hcommas.clear.append_cons (by decide) fit_nil.clear)

theorem fit_braces : Fit (braces (objectLines ps)) :=
  Fit.group .brace (by decide) (fit_objectBody h)

theorem chained_object (ha : ∀ t, a = some (.typed t) → Expression t) :
    Chained methods (made "object" (braces (objectLines ps))) (furtherCalls a) :=
  chained_made (by decide) (fit_braces h) (method_furtherCalls ha)

theorem classify_object (ha : ∀ t, a = some (.typed t) → Expression t) :
    classify (joinChain (objectCalls ps a)) =
      .ok (.object (ps.map readField) (a.map (Additional.map .text))) := by
  refine classify_factory (by decide) (fit_braces h) (method_furtherCalls ha) ?_
  have hshape {args : List Char} (after : List Call) :
      factoryShape? (made "object" args ++ after) =
        (do return some (← object (Text.trim args) after)) := rfl
  have htrim : Text.trim (braces (objectLines ps)) = braces (objectLines ps) := trim_group .brace _
  have henclosed : enclosed? '{' (braces (objectLines ps)) = some (objectBody (objectLines ps)) :=
    (fit_objectBody h).nested.enclosed?_group .brace
  rw [hshape, htrim, object, henclosed]
  simp only [fields_objectBody h, additional_furtherCalls ha]
  rfl

end Object

/-! ### Writing objects -/

/-- What is handed over for a field: its type as it was written before, or as it was read. -/
def Handed (p : Term.Member × List Char) (m : MappedField String) : Prop :=
  (∃ raw, m.field = p.1.field raw) ∧
    (m.expression = ofList p.2 ∨ m.expression = ofList (fieldType p.1.optional p.2))

section Writing

variable {p : Term.Member × List Char} {m : MappedField String}

theorem fieldExpression_eq (he : Expression p.2) (h : Handed p m) :
    fieldExpression m = .ok (ofList (fieldType p.1.optional p.2)) := by
  obtain ⟨⟨raw, hfield⟩, hexpression⟩ := h
  obtain ⟨⟨key, optional⟩, e⟩ := p
  obtain ⟨base, after, hchained, rfl⟩ := he
  have hmarked : (if optional then Target.Zod.optional m.expression else m.expression) =
      ofList (fieldType optional (joinChain (base ++ after))) := by
    cases optional with
    | false => simpa [fieldType] using hexpression
    | true =>
      simp only [if_true, hchained.fieldType_true] at hexpression ⊢
      rcases hexpression with hexpression | hexpression
      · rw [hexpression, optional_eq hchained]
      · rw [hexpression, optional_optional hchained]
  rw [fieldExpression]
  simp only [hfield, Term.Member.field]
  rw [hmarked]
  rfl

theorem entry_eq (he : Expression p.2) (h : Handed p m) :
    entry m = .ok (ofList (memberLine p.1 p.2)) := by
  obtain ⟨raw, hfield⟩ := h.1
  have hkey : Literal.key m.field.key = .ok (ofList (keyChars p.1.key)) := by
    rw [hfield]
    exact Member.key_eq p.1.key
  rw [entry, fieldExpression_eq he h, hkey]
  refine congrArg Except.ok (String.toList_inj.mp ?_)
  simp [memberLine, fieldLine, Member.optionalMark]

variable {ps : List (Term.Member × List Char)} {ms : List (MappedField String)}

theorem mapM_entry (hps : ∀ p ∈ ps, Expression p.2) (h : Forall₂ Handed ps ms) :
    ms.mapM entry = .ok ((objectLines ps).map ofList) := by
  induction h with
  | nil => rfl
  | cons hm _ ih =>
    obtain ⟨hp, hps⟩ := forall_mem_cons.mp hps
    rw [mapM_cons, entry_eq hp hm, ih hps]
    rfl

theorem inlineObject_eq (hps : ∀ p ∈ ps, Expression p.2) (h : Forall₂ Handed ps ms) :
    inlineObject ms = .ok (ofList (joinChain
      (made "object" (braces (objectLines ps))))) := by
  rw [inlineObject, mapM_entry hps h]
  cases hlines : objectLines ps with
  | nil => rfl
  | cons l ls =>
    refine congrArg Except.ok ?_
    rw [intercalate_ofList]
    apply String.toList_inj.mp
    simp [joinChain, made, braces, objectBody, commas]

theorem object_eq (indent : Indent) (hps : ∀ p ∈ ps, Expression p.2) (h : Forall₂ Handed ps ms)
    (a : Option (Additional (List Char))) :
    Target.Zod.object indent ms (a.map (Additional.map ofList)) false =
      .ok (ofList (joinChain (objectCalls ps a))) := by
  have hne : made "object" (braces (objectLines ps)) ≠ [] := by simp [made]
  rw [Target.Zod.object, if_neg (by simp), inlineObject_eq hps h]
  cases a with
  | none =>
    rw [objectCalls, furtherCalls, append_nil]
    rfl
  | some a =>
    cases a with
    | anything | nothing =>
      rw [objectCalls, furtherCalls, joinChain_concat hne, String.ofList_append]
      rfl
    | typed t =>
      refine congrArg Except.ok (String.toList_inj.mp ?_)
      rw [objectCalls, furtherCalls, joinChain_concat hne]
      simp

end Writing

end Crosswalk.Zod
