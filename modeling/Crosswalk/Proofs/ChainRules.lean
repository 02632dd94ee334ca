import Crosswalk.Proofs.ChainTexts
import Crosswalk.Target.Zod

/-!
Calls that limit a schema. The constraints of strings, numbers and arrays are written as calls and
read from them; a check that the last call makes is not written again.
-/

namespace Crosswalk.Zod

open List
open Identifier (isPart)
open Target.Zod (boundCall? constrain constrainAll isOptional)
open String (ofList)

variable {name : String} {rs : List Rule}

/-! ### The last call -/

variable {calls : List Call} {as bs cs : List Char}

theorem getLast?_ne_paren {tracked : List Char} {ok : Char → Bool} (h : Nested tracked ok cs) :
    cs.getLast? ≠ some '(' := by
  have hend {xs ys : List Char} {x : Char} (hx : x ≠ '(') (hys : ys.getLast? ≠ some '(') :
      (xs ++ x :: ys).getLast? ≠ some '(' := by
    rw [getLast?_append, getLast?_cons, Option.some_or]
    cases hlast : ys.getLast? with
    | none => simpa using hx
    | some y => rwa [Option.getD_some, ← hlast]
  induction h with
  | nil => simp
  | plain hc _ _ ih =>
    rw [← nil_append (_ :: _)]
    refine hend ?_ ih
    rintro rfl
    cases hc
  | literal _ _ ih =>
    rw [← cons_append]
    exact hend (by decide) ih
  | group d _ _ _ _ ih =>
    rw [← cons_append]
    exact hend (by cases d <;> decide) ih

/-- What follows the last point is found by its end. -/
theorem point_suffix_iff (ha : '.' ∉ as) (hb : '.' ∉ bs) :
    '.' :: as <:+ cs ++ '.' :: bs ↔ as = bs := by
  constructor
  · intro h
    have hpoint {xs ys : List Char} (hys : '.' ∉ ys) (h : '.' :: xs <:+ '.' :: ys) : xs = ys := by
      rcases suffix_cons_iff.mp h with heq | h
      · exact (cons.inj heq).2
      · exact absurd (h.subset (mem_cons_self ..)) hys
    rcases suffix_or_suffix_of_suffix h (suffix_append cs ('.' :: bs)) with h | h
    · exact hpoint hb h
    · exact (hpoint ha h).symm
  · rintro rfl
    exact suffix_append ..

theorem endsWith_concat (hne : calls ≠ []) {c : Call} (hc : c.Sound) {word : String}
    (hword : ∀ x ∈ word.toList, isPart x) :
    Text.endsWith ('.' :: (⟨word, some []⟩ : Call).text) (joinChain (calls ++ [c])) ↔
      c = ⟨word, some []⟩ := by
  have hpoint {x : List Char} (hx : ∀ y ∈ x, isPart y) : '.' ∉ x := fun h => by cases hx _ h
  have hname := hc.isPart_name
  have hargs := hc.args
  obtain ⟨name, args⟩ := c
  rw [Text.endsWith_iff, joinChain_concat hne, Call.text_call]
  constructor
  · intro h
    match args with
    | none =>
      rw [Call.text_name, point_suffix_iff (by simp [hpoint hword]) (hpoint hname)] at h
      cases hname ')' (by simp [← h])
    | some [] =>
      rw [Call.text_call, point_suffix_iff (by simp [hpoint hword]) (by simp [hpoint hname])] at h
      rw [String.toList_inj.mp (append_cancel_right h)]
    | some (a :: rest) =>
      -- Arguments do not end with an opening parenthesis.
      obtain ⟨before, h⟩ := h
      have hlast : (before ++ '.' :: word.toList ++ ['(']) ++ [')'] =
          (joinChain calls ++ '.' :: (name.toList ++ ['(']) ++ a :: rest) ++ [')'] := by
        simpa using h
      have hparen := congrArg List.getLast? (append_cancel_right hlast)
      rw [getLast?_concat, getLast?_append, getLast?_cons, Option.some_or,
        ← getLast?_cons] at hparen
      exact absurd hparen.symm (getLast?_ne_paren (hargs _ rfl))
  · rintro ⟨⟩
    exact suffix_append ..

theorem isOptional_ofList (cs : List Char) :
    isOptional (ofList cs) = Text.endsWith ('.' :: optionalCall.text) cs := by
  simp only [isOptional, String.toList_ofList]
  rfl

section Optional

variable {base after : List Call} (h : Chained methods base after)
include h

theorem isOptional_eq_false : isOptional (ofList (joinChain (base ++ after))) = false := by
  have hsound := (h.mono (subset_cons_self "optional" methods)).sound
  have hlast {calls : List Call} {c : Call} (hne : calls ≠ []) (heq : base ++ after = calls ++ [c])
      (hc : c ≠ optionalCall) : isOptional (ofList (joinChain (base ++ after))) = false := by
    rw [Bool.eq_false_iff, isOptional_ofList, heq]
    exact fun hend => hc ((endsWith_concat hne (hsound c (by simp [heq]))
      (forall_mem_of_all rfl)).mp hend)
  rcases eq_nil_or_concat after with rfl | ⟨before, c, rfl⟩
  · rw [append_nil] at hlast ⊢
    cases h.base with
    | @reference name hname =>
      have hpart := (h.base.sound ⟨name ++ "Schema", none⟩ (by simp)).isPart_name
      rw [Bool.eq_false_iff, isOptional_ofList, Ne, Text.endsWith_iff]
      intro hend
      cases hpart '.' (by simpa [joinChain] using hend.subset (mem_cons_self ..))
    | @factory name args hname _ =>
      refine hlast (show [(⟨"z", none⟩ : Call)] ≠ [] by simp) rfl ?_
      rintro ⟨⟩
      exact absurd hname (by decide)
  · rw [concat_eq_append, ← append_assoc] at hlast ⊢
    refine hlast (by simp [h.base.ne_nil]) rfl ?_
    rintro rfl
    have hmem := (h.after optionalCall (by simp)).name
    exact absurd hmem (by decide)

theorem optional_eq : Target.Zod.optional (ofList (joinChain (base ++ after))) =
    ofList (joinChain (base ++ after ++ [optionalCall])) := by
  rw [Target.Zod.optional, isOptional_eq_false h, joinChain_concat h.ne_nil, String.ofList_append]
  rfl

/-- A schema that is optional already stays as it is. -/
theorem optional_optional :
    Target.Zod.optional (ofList (joinChain (base ++ after ++ [optionalCall]))) =
      ofList (joinChain (base ++ after ++ [optionalCall])) := by
  have hend : isOptional (ofList (joinChain (base ++ after ++ [optionalCall]))) := by
    rw [isOptional_ofList, Text.endsWith_iff, joinChain_concat h.ne_nil]
    exact suffix_append ..
  rw [Target.Zod.optional, if_pos hend]

end Optional

/-! ### Rules -/

theorem fit_of_atoms (h : ∀ c ∈ cs, isAtomChar c) : Fit cs := by
  constructor
  · refine .of_all fun c hc => ⟨?_, rfl⟩
    rcases Bool.or_eq_true_iff.mp (h c hc) with hpart | hminus
    · exact isPlain_of_isPart hpart
    · rw [beq_iff_eq.mp hminus]
      rfl
  · refine clear_of_count ?_
    rw [count_eq_zero.mpr fun hpoint => by cases h _ hpoint]
    omega

theorem isAtomChar_bound (i : Int) : ∀ c ∈ intChars i, isAtomChar c := by
  simpa using Literal.isAtomChar_intChars i (show ∀ c ∈ [], isPart c by simp)

/-- A constraint with a call of its own. -/
inductive Rule
  | bound (limit : Limit) (value : Int)
  | format (name : String)
deriving DecidableEq

/-- Formats of text that can be checked. -/
def formats : List String := ["email", "uuid", "uri", "date-time", "ipv4"]

/-- The name of the call that checks a format. -/
def formatWord (name : String) : String :=
  match name with
  | "uri" => "url"
  | "date-time" => "datetime"
  | "ipv4" => "ip"
  | name => name

namespace Rule

def constraint : Rule → Constraint
  | bound limit i => ⟨limit, .int i⟩
  | format name => ⟨.format, .text name⟩

def call : Rule → Call
  | bound limit i => ⟨(boundCall? limit).getD "", some (intChars i)⟩
  | format name => ⟨formatWord name, some []⟩

/-- Bounds have as many digits as a number may have that is read. -/
def Allowed (limits : List Limit) (formats : List String) : Rule → Prop
  | bound limit i => limit ∈ limits ∧ (decimalDigits i.natAbs).length ≤ digitLimit
  | format name => name ∈ formats

instance (limits : List Limit) (formats : List String) : DecidablePred (Allowed limits formats)
  | bound _ _ => inferInstanceAs (Decidable (_ ∧ _))
  | format _ => inferInstanceAs (Decidable (_ ∈ _))

/-- Add a rule, unless it is the check of a format that was added last. -/
def merge (rs : List Rule) : Rule → List Rule
  | bound limit i => rs ++ [bound limit i]
  | format name => if rs.getLast? = some (format name) then rs else rs ++ [format name]

def settle (rs : List Rule) : List Rule := rs.foldl merge []

end Rule

def lengthLimits : List Limit := [.minLength, .maxLength]

def rangeLimits : List Limit := [.minimum, .maximum, .exclusiveMinimum, .exclusiveMaximum]

def sizeLimits : List Limit := [.minItems, .maxItems]

def everyLimit : List Limit := lengthLimits ++ rangeLimits ++ sizeLimits

namespace Rule

variable {limits : List Limit} {checks : List String} {r : Rule}

theorem Allowed.mono {limits' : List Limit} {checks' : List String} (h : r.Allowed limits checks)
    (hlimits : limits ⊆ limits') (hchecks : checks ⊆ checks') : r.Allowed limits' checks' := by
  cases r with
  | bound limit i => exact ⟨hlimits h.1, h.2⟩
  | format name => exact hchecks h

theorem settle_concat (rs : List Rule) (r : Rule) : settle (rs ++ [r]) = merge (settle rs) r := by
  simp [settle]

theorem mem_of_mem_settle (h : r ∈ settle rs) : r ∈ rs := by
  induction rs using reverseRecOn with
  | nil => exact h
  | append_singleton rs s ih =>
    rw [settle_concat] at h
    have hmerge : r ∈ settle rs ++ [s] := by
      cases s with
      | bound => exact h
      | format name =>
        rw [merge] at h
        split at h
        · exact mem_append_left _ h
        · exact h
    rcases mem_append.mp hmerge with h | h
    · exact mem_append_left _ (ih h)
    · exact mem_append_right _ h

theorem settle_settle (rs : List Rule) : settle (settle rs) = settle rs := by
  induction rs using reverseRecOn with
  | nil => rfl
  | append_singleton rs r ih =>
    rw [settle_concat]
    cases r with
    | bound limit i => rw [merge, settle_concat, ih, merge]
    | format name =>
      by_cases h : (settle rs).getLast? = some (format name)
      · rw [merge, if_pos h, ih]
      · rw [merge, if_neg h, settle_concat, ih, merge, if_neg h]

theorem method_call (h : r.Allowed everyLimit formats) : Method limiting r.call := by
  cases r with
  | bound limit i =>
    have hall : ∀ l ∈ everyLimit, (boundCall? l).getD "" ∈ limiting := by decide
    exact ⟨hall limit h.1, _, rfl, fit_of_atoms (isAtomChar_bound i)⟩
  | format name =>
    have hall : ∀ n ∈ formats, formatWord n ∈ limiting := by decide
    exact ⟨hall name h, _, rfl, fit_nil⟩

theorem eq_format {name : String} (hname : name ∈ formats) (h : r.Allowed everyLimit formats)
    (hcall : r.call = (format name).call) : r = format name := by
  cases r with
  | bound limit i =>
    obtain ⟨d, ds, hds, -⟩ := exists_decimalDigits i.natAbs
    simp [call, intChars, hds] at hcall
  | format other =>
    have hall : ∀ a ∈ formats, ∀ b ∈ formats, formatWord a = formatWord b → a = b := by decide
    rw [hall other h name hname (congrArg Call.name hcall)]

end Rule

/-! ### Writing rules -/

theorem joinChain_append {others : List Call} (hcalls : calls ≠ []) (hothers : others ≠ []) :
    joinChain (calls ++ others) = joinChain calls ++ '.' :: joinChain others := by
  rw [joinChain, map_append, intercalate_append (by simpa using hcalls) (by simpa using hothers)]
  simp [joinChain]

theorem constrain_bound {limit : Limit} (hlimit : limit ∈ everyLimit)
    (hne : calls ≠ []) {i : Int} (hi : (decimalDigits i.natAbs).length ≤ digitLimit) :
    constrain (ofList (joinChain calls)) ⟨limit, .int i⟩ =
      .ok (ofList (joinChain (calls ++ [(Rule.bound limit i).call]))) := by
  have hnumber : Literal.number (.int i) = .ok (ofList (intChars i)) := Value.printed_int hi
  have htext (word : String) : (do
      return ofList (joinChain calls) ++ "." ++ word ++ "(" ++
        (← Literal.number (.int i)) ++ ")") = (.ok (ofList
          (joinChain (calls ++ [⟨word, some (intChars i)⟩]))) : Except Fault String) := by
    rw [hnumber, joinChain_concat hne]
    exact congrArg Except.ok (String.toList_inj.mp (by simp))
  simp only [everyLimit, lengthLimits, rangeLimits, sizeLimits, cons_append, nil_append, mem_cons,
    not_mem_nil, or_false] at hlimit
  rcases hlimit with rfl | rfl | rfl | rfl | rfl | rfl | rfl | rfl <;>
    exact htext _

/-- The call of a factory. -/
def made (name : String) (args : List Char) : List Call := [⟨"z", none⟩, ⟨name, some args⟩]

def stringCalls : List Call := made "string" []

theorem startsWith_string (others : List Call) :
    (ofList (joinChain (stringCalls ++ others))).startsWith "z.string()" := by
  simp only [String.startsWith_string_iff, String.toList_ofList]
  by_cases hne : others = []
  · subst hne
    exact prefix_rfl
  · rw [joinChain_append (by simp [stringCalls, made]) hne]
    exact prefix_append ..

theorem formatCall?_eq (h : name ∈ formats) :
    Target.Zod.formatCall? (.text name) =
      .ok (some (ofList ('.' :: (Rule.format name).call.text))) := by
  simp only [formats, mem_cons, not_mem_nil, or_false] at h
  rcases h with rfl | rfl | rfl | rfl | rfl <;> rfl

theorem endsWith_format (hname : name ∈ formats) (hrs : ∀ r ∈ rs, r.Allowed everyLimit formats) :
    Text.endsWith ('.' :: (Rule.format name).call.text)
      (joinChain (stringCalls ++ rs.map Rule.call)) =
      true ↔ rs.getLast? = some (Rule.format name) := by
  have hword : ∀ x ∈ (formatWord name).toList, isPart x := by
    have hall : ∀ n ∈ formats, (formatWord n).toList.all isPart := by decide
    exact all_eq_true.mp (hall name hname)
  rcases eq_nil_or_concat rs with rfl | ⟨before, r, rfl⟩
  · have hsound : (⟨"string", some []⟩ : Call).Sound := ⟨by decide, by simpa using .nil⟩
    have hne : ∀ n ∈ formats, "string" ≠ formatWord n := by decide
    have hz : [(⟨"z", none⟩ : Call)] ≠ [] := by simp
    exact (endsWith_concat hz hsound hword).trans (by simpa using hne name hname)
  · have hr := hrs r (by simp)
    have hsound := ((Rule.method_call hr).mono (by decide)).sound
    have hne : stringCalls ++ before.map Rule.call ≠ [] := by simp [stringCalls, made]
    rw [concat_eq_append, map_append, ← append_assoc, getLast?_concat,
      Option.some.injEq]
    refine (endsWith_concat hne hsound hword).trans ⟨Rule.eq_format hname hr, ?_⟩
    rintro rfl
    rfl

theorem constrain_format (hname : name ∈ formats) (hrs : ∀ r ∈ rs, r.Allowed everyLimit formats) :
    constrain (ofList (joinChain (stringCalls ++ rs.map Rule.call))) ⟨.format, .text name⟩ =
      .ok (ofList (joinChain (stringCalls ++ (Rule.merge rs (.format name)).map Rule.call))) := by
  have hconcat : ofList (joinChain (stringCalls ++ rs.map Rule.call)) ++
      ofList ('.' :: (Rule.format name).call.text) =
        ofList (joinChain (stringCalls ++ (rs ++ [Rule.format name]).map Rule.call)) := by
    have hne : stringCalls ++ rs.map Rule.call ≠ [] := by simp [stringCalls, made]
    rw [map_append, ← append_assoc, ← String.ofList_append]
    exact congrArg ofList (joinChain_concat hne _).symm
  have hrun {expr call : String} (hcall : Target.Zod.formatCall? (.text name) = .ok (some call)) :
      constrain expr ⟨.format, .text name⟩ =
        if expr.startsWith "z.string()" &&
          !Text.endsWith call.toList expr.toList then .ok (expr ++ call)
        else .ok expr := by
    simp only [constrain, hcall]
    rfl
  rw [hrun (formatCall?_eq hname), startsWith_string, Bool.true_and, String.toList_ofList,
    String.toList_ofList, Rule.merge]
  by_cases hlast : rs.getLast? = some (Rule.format name)
  · rw [if_pos hlast, (endsWith_format hname hrs).mpr hlast]
    rfl
  · rw [if_neg hlast, ← hconcat,
      Bool.eq_false_iff.mpr fun h => hlast ((endsWith_format hname hrs).mp h)]
    rfl

/-- Rules are written behind one another. Formats are checked of strings only. -/
theorem constrainAll_eq {start : List Call} (hne : start ≠ []) {limits : List Limit}
    {checks : List String} (hlimits : limits ⊆ everyLimit)
    (hchecks : ∀ name ∈ checks, name ∈ formats ∧ start = stringCalls)
    (h : ∀ r ∈ rs, r.Allowed limits checks) :
    constrainAll (ofList (joinChain start)) (rs.map Rule.constraint) =
      .ok (ofList (joinChain (start ++ (Rule.settle rs).map Rule.call))) := by
  induction rs using reverseRecOn with
  | nil => simp only [Rule.settle, foldl_nil, map_nil, append_nil]; rfl
  | append_singleton rs r ih =>
    obtain ⟨hrs, hr⟩ := forall_mem_append.mp h
    have hr := hr r (mem_singleton_self r)
    have hstep : constrain (ofList (joinChain (start ++ (Rule.settle rs).map Rule.call)))
        r.constraint =
          .ok (ofList (joinChain (start ++ (Rule.merge (Rule.settle rs) r).map Rule.call))) := by
      cases r with
      | bound limit i =>
        rw [Rule.merge, map_append, ← append_assoc]
        exact constrain_bound (hlimits hr.1) (by simp [hne]) hr.2
      | format name =>
        obtain ⟨hname, rfl⟩ := hchecks name hr
        refine constrain_format hname fun r hr => ?_
        exact (hrs r (Rule.mem_of_mem_settle hr)).mono hlimits fun n hn => (hchecks n hn).1
    rw [Rule.settle_concat, ← hstep, constrainAll, map_append, foldlM_append]
    rw [← constrainAll, ih hrs, map_singleton]
    exact bind_pure (constrain _ r.constraint)

/-! ### Reading rules -/

/-- The number that a rule has as its argument. -/
def Rule.number? : Rule → Option Value
  | bound _ i => some (.int i)
  | format _ => none

section Reading

variable {limits : List Limit} {checks : List String} {r : Rule} {p : Primitive}

theorem numberArgument_call (h : r.Allowed limits checks) :
    numberArgument r.call.args = .ok r.number? := by
  cases r with
  | bound limit i =>
    have htake : (intChars i).takeWhile (· != ',') = intChars i := by
      refine takeWhile_eq_self_iff.mpr fun c hc => bne_iff_ne.mpr ?_
      rintro rfl
      cases isAtomChar_bound i _ hc
    simp only [Rule.call, numberArgument, Option.getD_some, htake, Literal.read?_intChars,
      Literal.integer_intChars, if_pos h.2]
    rfl
  | format name => rfl

theorem refine_string (h : r.Allowed lengthLimits formats) :
    refine .string r.call r.number? = (.string, [r.constraint]) := by
  cases r with
  | bound limit i =>
    have hlimit := h.1
    simp only [lengthLimits, mem_cons, not_mem_nil, or_false] at hlimit
    rcases hlimit with rfl | rfl <;> rfl
  | format name =>
    simp only [Rule.Allowed, formats, mem_cons, not_mem_nil, or_false] at h
    rcases h with rfl | rfl | rfl | rfl | rfl <;> rfl

theorem refine_number (hp : p = .number ∨ p = .integer) (h : r.Allowed rangeLimits []) :
    refine p r.call r.number? = (p, [r.constraint]) := by
  cases r with
  | bound limit i =>
    have hlimit := h.1
    simp only [rangeLimits, mem_cons, not_mem_nil, or_false] at hlimit
    rcases hp with rfl | rfl <;> rcases hlimit with rfl | rfl | rfl | rfl <;> rfl
  | format name => cases h

theorem primitive_eq (h : ∀ r ∈ rs, r.Allowed limits checks)
    (hrefine : ∀ r ∈ rs, refine p r.call r.number? = (p, [r.constraint])) :
    primitive p (rs.map Rule.call) = .ok (.primitive p (rs.map Rule.constraint)) := by
  have hfold
      {step : Primitive × List Constraint → Call → Except Fault (Primitive × List Constraint)}
      (hstep : ∀ r ∈ rs, ∀ cs, step (p, cs) r.call = .ok (p, cs ++ [r.constraint]))
      (cs : List Constraint) :
      (rs.map Rule.call).foldlM step (p, cs) = .ok (p, cs ++ rs.map Rule.constraint) := by
    clear h hrefine
    induction rs generalizing cs with
    | nil =>
      rw [map_nil, map_nil, append_nil]
      rfl
    | cons r rs ih =>
      obtain ⟨hr, hrs⟩ := forall_mem_cons.mp hstep
      rw [map_cons, foldlM_cons, hr cs]
      exact (ih hrs _).trans (by simp)
  rw [primitive, hfold fun r hr cs => ?_]
  · rfl
  · rw [numberArgument_call (h r hr)]
    change Except.ok ((refine p r.call r.number?).1, cs ++ (refine p r.call r.number?).2) = _
    rw [hrefine r hr]

/-- A number that has to be whole is an integer. -/
theorem primitive_int (calls : List Call) :
    primitive .number (⟨"int", some []⟩ :: calls) = primitive .integer calls := rfl

theorem arrayConstraints_eq (h : ∀ r ∈ rs, r.Allowed sizeLimits []) :
    arrayConstraints (rs.map Rule.call) = .ok (rs.map Rule.constraint) := by
  rw [arrayConstraints, mapM_map, mapM_eq_map (g := fun r => [r.constraint]) fun r hr => ?_]
  · exact congrArg Except.ok (flatMap_pure_eq_map Rule.constraint rs)
  · rw [Function.comp_apply, numberArgument_call (h r hr)]
    cases r with
    | bound limit i =>
      have hlimit := (h _ hr).1
      simp only [sizeLimits, mem_cons, not_mem_nil, or_false] at hlimit
      rcases hlimit with rfl | rfl <;> rfl
    | format name => cases h _ hr

end Reading

end Crosswalk.Zod
