import Crosswalk.Proofs.ReadBack
import Crosswalk.Proofs.ScriptLiterals
import Mathlib.Data.List.DropRight
import Mathlib.Data.List.Induction

/-!
Texts of schemas as chains of calls. A chain that is joined from its calls is split into the same
calls, and a chain as schemas are written is normal: nothing at its end is dropped, and no part of
it asks for coercion.
-/

namespace Crosswalk.Zod

open List
open Identifier (isPart isStart isName leading?)

variable {c : Call}

/-! ### Splitting chains -/

/-- A call whose arguments leave no delimiter open. -/
structure Call.Sound (c : Call) : Prop where
  name : isName c.name.toList = true
  args : ∀ a ∈ c.args, Nested tracked (fun _ => true) a

/-- Characters at the top level of a chain. -/
def isChainChar (c : Char) : Bool := isPart c || c == '.'

@[simp] theorem Call.text_name (n : String) : (⟨n, none⟩ : Call).text = n.toList := by simp [text]

@[simp] theorem Call.text_call (n : String) (args : List Char) :
    (⟨n, some args⟩ : Call).text = n.toList ++ '(' :: (args ++ [')']) := rfl

/-- Nothing is dropped behind a part that is not empty. -/
theorem dropTrailingEmpty_eq_self {ps : List (List Char)} (h : ∀ p ∈ ps.getLast?, p ≠ []) :
    dropTrailingEmpty ps = ps :=
  rdropWhile_eq_self_iff.mpr fun hne hempty =>
    h _ (getLast?_eq_some_getLast hne) (isEmpty_iff.mp hempty)

/-- A name with a parenthesis behind it, perhaps after blanks, is a call if the text ends with
one. -/
theorem call?_blanks {name b : List Char} (hname : isName name) (hb : ∀ c ∈ b, Text.isBlank c)
    (args : List Char) :
    call? (name ++ (b ++ '(' :: args)) =
      if args.getLast? == some ')' then some ⟨String.ofList name, some args.dropLast⟩
      else none := by
  obtain ⟨x, xs, rfl, hx, hpart⟩ := Member.exists_of_isName hname
  obtain ⟨-, hxs⟩ := forall_mem_cons.mp hpart
  obtain ⟨d, rest, hrest, hd⟩ : ∃ d rest, b ++ '(' :: args = d :: rest ∧ isPart d = false := by
    cases b with
    | nil => exact ⟨'(', _, rfl, rfl⟩
    | cons d b =>
      refine ⟨d, _, rfl, Bool.eq_false_iff.mpr fun hd => ?_⟩
      have hblank := hb d mem_cons_self
      rw [isBlank_eq_false_of_isPart hd] at hblank
      cases hblank
  have htrim : Text.trimStart (b ++ '(' :: args) = '(' :: args := by
    rw [Text.trimStart, dropWhile_append_of_pos hb]
    exact Text.trimStart_cons_of_not_isBlank rfl _
  rw [cons_append, call?, leading?, if_pos hx, takeWhile_append_of_pos hxs,
    dropWhile_append_of_pos hxs, hrest, takeWhile_cons, dropWhile_cons, hd, ← hrest]
  simp [htrim]

theorem call?_paren {name : List Char} (hname : isName name) (args : List Char) :
    call? (name ++ '(' :: args) =
      if args.getLast? == some ')' then some ⟨String.ofList name, some args.dropLast⟩
      else none := by
  simpa using call?_blanks hname (b := []) (by simp) args

/-- What a link is written as is read as the link, whatever its arguments are. -/
theorem Call.call?_text (h : isName c.name.toList) : call? c.text = some c := by
  obtain ⟨name, args⟩ := c
  cases args with
  | some args => simpa using call?_paren h (args ++ [')'])
  | none =>
    obtain ⟨x, xs, hname, hx, hpart⟩ := Member.exists_of_isName h
    obtain ⟨-, hxs⟩ := forall_mem_cons.mp hpart
    have htake : xs.takeWhile isPart = xs := takeWhile_eq_self_iff.mpr hxs
    have hdrop : xs.dropWhile isPart = [] := dropWhile_eq_nil_iff.mpr hxs
    have hself : String.ofList (x :: xs) = name := by rw [← hname, String.ofList_toList]
    rw [Call.text_name, hname]
    simp only [call?, leading?, hx, if_true, htake, hdrop, Option.bind_eq_bind,
      Option.bind_some, hself]
    rfl

namespace Call.Sound

theorem exists_name (h : c.Sound) : ∃ x xs, c.name.toList = x :: xs ∧ isStart x ∧
    ∀ y ∈ x :: xs, isPart y := Member.exists_of_isName h.name

theorem isPart_name (h : c.Sound) : ∀ y ∈ c.name.toList, isPart y := Member.isPart_of_isName h.name

theorem piece (h : c.Sound) : Piece tracked isPart c.text := by
  obtain ⟨x, xs, hname, hx, hpart⟩ := h.exists_name
  have hword : Nested tracked isPart c.name.toList :=
    .of_all fun y hy => ⟨isPlain_of_isPart (h.isPart_name y hy), h.isPart_name y hy⟩
  have hfirst := isFirst_of_isPart (isPart_of_isStart hx)
  obtain ⟨name, args⟩ := c
  cases args with
  | none =>
    rw [Call.text_name]
    refine ⟨hword, ⟨x, by rw [hname]; rfl, hfirst⟩, ?_⟩
    rw [hname]
    exact ⟨_, getLast?_eq_some_getLast (by simp),
      isLast_of_isPart (hpart _ (getLast_mem _))⟩
  | some args =>
    rw [Call.text_call]
    refine ⟨hword.append (.group .paren (by decide) (h.args args rfl) .nil),
      ⟨x, by rw [hname]; rfl, hfirst⟩, ⟨')', ?_, rfl⟩⟩
    rw [getLast?_append, ← cons_append, getLast?_append]
    rfl

end Call.Sound

variable {calls : List Call}

theorem joinChain_concat (hne : calls ≠ []) (c : Call) :
    joinChain (calls ++ [c]) = joinChain calls ++ '.' :: c.text := by
  rw [joinChain, map_append, intercalate_append (by simpa using hne) (by simp)]
  simp [joinChain]

theorem pieces_of_sound (h : ∀ c ∈ calls, c.Sound) :
    ∀ u ∈ calls.map Call.text, Piece tracked isPart u := by
  intro u hu
  obtain ⟨c, hc, rfl⟩ := mem_map.mp hu
  exact (h c hc).piece

theorem splitTop_joinChain (h : ∀ c ∈ calls, c.Sound) :
    splitTop tracked ['.'] (joinChain calls) = calls.map Call.text := by
  by_cases hne : calls = []
  · subst hne
    rfl
  have hpieces := pieces_of_sound h
  have hnone : ∀ c ∈ [], c = ' ' := by simp
  have hrow : Row tracked isPart ['.'] (calls.map Call.text) (joinChain calls) :=
    .intercalate hnone hnone (by simp) hpieces (by simpa using hne)
  have hsplit := hrow.splitFrom_eq (p := none) rfl hnone hnone (by simp)
  rw [append_nil] at hsplit
  rw [splitTop, hsplit,
    dropTrailingEmpty_eq_self fun u hu => (hpieces u (mem_of_getLast? hu)).ne_nil]

theorem chain_joinChain (h : ∀ c ∈ calls, c.Sound) : chain (joinChain calls) = calls := by
  have hread : (calls.map Call.text).mapM call? = some calls :=
    mapM_eq_some_iff.mpr (forall₂_map_left_iff.mpr
      (forall₂_same.mpr fun c hc => Call.call?_text (h c hc).name))
  rw [chain, splitTop_joinChain h, hread, Option.getD_some]

/-! ### Coercion -/

/-- The mark of a factory that coerces. -/
def coercion : List Char := "z.coerce.".toList

/-- No part of the text asks for coercion. -/
def Clear (cs : List Char) : Prop := ¬coercion <:+: cs

instance : DecidablePred Clear := fun _ => inferInstanceAs (Decidable (¬_))

variable {as bs cs : List Char}

theorem Clear.of_part (h : Clear bs) (hpart : as <:+: bs) : Clear as :=
  fun hmark => h (hmark.trans hpart)

/-- The mark does not reach over a character that it does not have. -/
theorem Clear.append_cons (ha : Clear as) {c : Char} (hc : c ∉ coercion) (hb : Clear bs) :
    Clear (as ++ c :: bs) := by
  rintro ⟨before, after, heq⟩
  rw [append_assoc, append_eq_append_iff] at heq
  rcases heq with ⟨rest, rfl, heq⟩ | ⟨rest, rfl, heq⟩
  · -- It starts within the first part.
    rw [append_eq_append_iff] at heq
    rcases heq with ⟨rest', rfl, _⟩ | ⟨rest', hmark, heq⟩
    · exact ha ⟨before, rest', by simp⟩
    · cases rest' with
      | nil => exact ha ⟨before, [], by simpa using hmark⟩
      | cons x xs =>
        cases heq
        exact hc (by simp [hmark])
  · -- It starts behind the first part.
    cases rest with
    | nil =>
      have hhead : c ∈ (coercion ++ after).head? := by
        rw [← nil_append (coercion ++ after), ← heq]
        rfl
      exact hc (by cases hhead; decide)
    | cons x xs =>
      cases heq
      exact hb ⟨xs, after, by simp⟩

/-- The mark has two points. -/
theorem clear_of_count (h : cs.count '.' ≤ 1) : Clear cs := by
  intro hmark
  have hcount := hmark.sublist.count_le '.'
  have htwo : coercion.count '.' = 2 := by decide
  omega

theorem clear_cons {c : Char} (hc : c ∉ coercion) (h : Clear cs) : Clear (c :: cs) :=
  (clear_of_count (show [].count '.' ≤ 1 by simp)).append_cons hc h

theorem replaceAll_of_clear {new : List Char} (h : Clear cs) :
    Text.replaceAll coercion new cs = cs := by
  rw [Text.replaceAll]
  induction cs with
  | nil => rfl
  | cons c cs ih =>
    have hstart : Text.startsWith coercion (c :: cs) = false := by
      rw [Bool.eq_false_iff]
      intro hstart
      obtain ⟨rest, hrest⟩ := Option.isSome_iff_exists.mp hstart
      exact h ⟨[], rest, (Text.eq_append_of_after? hrest).symm⟩
    rw [Text.replaceFrom, if_neg (by simp [hstart]), ih]
    exact h.of_part ⟨[c], [], by simp⟩

/-- Escapes add no mark, for it has no backslash. -/
theorem clear_escaped (hw : ∀ c ∈ cs, Literal.isWritable c) (h : Clear cs) :
    Clear (cs.flatMap (Json.escapeChar false)) := by
  have hstart {mark cs : List Char} (hw : ∀ c ∈ cs, Literal.isWritable c)
      (hmark : '\\' ∉ mark) (h : mark <+: cs.flatMap (Json.escapeChar false)) : mark <+: cs := by
    induction cs generalizing mark with
    | nil => exact h
    | cons c cs ih =>
      obtain ⟨hc, hcs⟩ := forall_mem_cons.mp hw
      rw [flatMap_cons, Literal.escapeChar_eq hc] at h
      cases mark with
      | nil => exact nil_prefix
      | cons m ms =>
        rw [mem_cons, not_or] at hmark
        split at h
        · exact absurd (cons_prefix_cons.mp h).1.symm hmark.1
        · obtain ⟨rfl, hms⟩ := cons_prefix_cons.mp h
          exact cons_prefix_cons.mpr ⟨rfl, ih hcs hmark.2 hms⟩
  induction cs with
  | nil => exact h
  | cons c cs ih =>
    have htail : Clear cs := h.of_part ⟨[c], [], by simp⟩
    have hrest := ih (forall_mem_cons.mp hw).2 htail
    intro hmark
    rw [flatMap_cons, Literal.escapeChar_eq (hw c (mem_cons_self ..))] at hmark
    split at hmark
    · rename_i hspecial
      have hc : c ∉ coercion := by rcases hspecial with rfl | rfl <;> decide
      exact clear_cons (by decide) (clear_cons hc hrest) hmark
    · rename_i hplain
      rcases infix_cons_iff.mp hmark with hmark | hmark
      · refine h (hstart hw (by decide) ?_).isInfix
        rwa [flatMap_cons, Literal.escapeChar_eq (hw c (mem_cons_self ..)), if_neg hplain]
      · exact hrest hmark

/-! ### Written chains -/

/-- Arguments of a call. -/
structure Fit (args : List Char) : Prop where
  nested : Nested tracked (fun _ => true) args
  clear : Clear args

theorem fit_nil : Fit [] := ⟨.nil, clear_of_count (by simp)⟩

/-- The factories of schemas. -/
def factories : List String :=
  ["string", "number", "bigint", "boolean", "date", "symbol", "null", "undefined", "void", "any",
    "unknown", "never", "literal", "enum", "array", "tuple", "union", "object", "record", "map",
    "set",
    "promise"]

/-- Calls that leave the kind of a schema to its factory. -/
def limiting : List String :=
  ["int", "min", "max", "gt", "lt", "email", "uuid", "url", "datetime", "ip", "passthrough",
    "strict", "catchall"]

/-- The calls that a schema is changed by. -/
def methods : List String := limiting ++ ["and", "nullable"]

def optionalCall : Call := ⟨"optional", some []⟩

/-- The beginning of a schema: the name of another one, or a call of a factory. -/
inductive Base : List Call → Prop
  | reference {name : String} (hname : isName name.toList = true) :
      Base [⟨name ++ "Schema", none⟩]
  | factory {name : String} {args : List Char} (hname : name ∈ factories) (hargs : Fit args) :
      Base [⟨"z", none⟩, ⟨name, some args⟩]

/-- A call after the beginning of a schema. -/
structure Method (names : List String) (c : Call) : Prop where
  name : c.name ∈ names
  args : ∃ args, c.args = some args ∧ Fit args

/-- A schema as it is written. -/
structure Chained (names : List String) (base after : List Call) : Prop where
  base : Base base
  after : ∀ c ∈ after, Method names c

theorem isName_of_mem {name : String} (h : name ∈ "z" :: "optional" :: (factories ++ methods)) :
    isName name.toList := by
  have hall : ∀ n ∈ "z" :: "optional" :: (factories ++ methods),
      isName n.toList := by decide
  exact hall name h

theorem isName_schema {name : String} (h : isName name.toList) :
    isName (name ++ "Schema").toList := by
  obtain ⟨x, xs, hname, hx, hpart⟩ := Member.exists_of_isName h
  rw [String.toList_append, hname]
  simp only [cons_append, isName, hx, Bool.true_and, all_append,
    Bool.and_eq_true, all_eq_true]
  exact ⟨(forall_mem_cons.mp hpart).2, forall_mem_of_all rfl⟩

/-- The name of a schema ends with `a`, and none of the words at hand does. -/
theorem schema_ne {name word : String} (h : word.toList.getLast? ≠ some 'a') :
    name ++ "Schema" ≠ word := by
  rintro rfl
  apply h
  rw [String.toList_append, getLast?_append]
  rfl

theorem Base.ne_nil {base : List Call} (h : Base base) : base ≠ [] := by
  cases h <;> simp

theorem Base.sound {base : List Call} (h : Base base) : ∀ c ∈ base, c.Sound := by
  cases h with
  | reference hname => simpa using ⟨isName_schema hname, by simp⟩
  | factory hname hargs =>
    have hfactory := isName_of_mem (mem_cons_of_mem _ (mem_cons_of_mem _
      (mem_append_left _ hname)))
    simp only [forall_mem_cons]
    exact ⟨⟨by decide, by simp⟩, ⟨hfactory, by simpa using hargs.nested⟩, by simp⟩

theorem Method.mono {names names' : List String} (h : Method names c) (hnames : names ⊆ names') :
    Method names' c := ⟨hnames h.name, h.args⟩

theorem Method.sound (h : Method ("optional" :: methods) c) : c.Sound := by
  obtain ⟨args, hargs, hfit⟩ := h.args
  refine ⟨isName_of_mem (mem_cons_of_mem _ ?_), by simpa [hargs] using hfit.nested⟩
  rcases mem_cons.mp h.name with hname | hname
  · exact mem_cons.mpr (Or.inl hname)
  · exact mem_cons_of_mem _ (mem_append_right _ hname)

namespace Chained

variable {names : List String} {base after : List Call}

theorem ne_nil (h : Chained names base after) : base ++ after ≠ [] := by simp [h.base.ne_nil]

theorem concat (h : Chained names base after) (hc : Method names c) :
    Chained names base (after ++ [c]) :=
  ⟨h.base, forall_mem_append.mpr ⟨h.after, forall_mem_singleton.mpr hc⟩⟩

theorem mono (h : Chained names base after) {names' : List String} (hnames : names ⊆ names') :
    Chained names' base after :=
  ⟨h.base, fun c hc => (h.after c hc).mono hnames⟩

/-- Where a schema ends, another call can follow. -/
theorem ends (h : Chained names base after) :
    (∃ init, joinChain (base ++ after) = init ++ [')']) ∨
      ∀ c ∈ joinChain (base ++ after), isPart c := by
  rcases eq_nil_or_concat after with rfl | ⟨before, c, rfl⟩
  · rw [append_nil]
    cases h.base with
    | @reference name hname =>
      have hpart := (h.base.sound ⟨name ++ "Schema", none⟩ (by simp)).isPart_name
      right
      simpa [joinChain] using hpart
    | @factory name args _ _ =>
      left
      exact ⟨"z.".toList ++ (name.toList ++ '(' :: args), by simp [joinChain]⟩
  · left
    obtain ⟨args, hargs, _⟩ := (h.after c (by simp)).args
    obtain ⟨name, _⟩ := c
    cases hargs
    rw [concat_eq_append, ← append_assoc, joinChain_concat (by simp [h.base.ne_nil])]
    exact ⟨joinChain (base ++ before) ++ '.' :: (name.toList ++ '(' :: args), by simp⟩

end Chained

theorem count_point (h : ∀ c ∈ cs, isPart c) : cs.count '.' = 0 := by
  rw [count_eq_zero]
  intro hpoint
  cases h _ hpoint

/-- A call behind a closing parenthesis, or behind a name. -/
theorem clear_call {name args : List Char} (hcs : Clear cs)
    (hends : (∃ init, cs = init ++ [')']) ∨ ∀ c ∈ cs, isPart c)
    (hname : ∀ c ∈ name, isPart c) (hargs : Clear args) :
    Clear (cs ++ '.' :: (name ++ '(' :: (args ++ [')']))) := by
  have hnone : Clear [] := clear_of_count (by simp)
  have harguments : Clear (args ++ [')']) := hargs.append_cons (by decide) hnone
  rcases hends with ⟨init, rfl⟩ | hpart
  · have hcall : Clear ('.' :: name) := clear_of_count (by simp [count_point hname])
    have hinit : Clear init := hcs.of_part ⟨[], [')'], by simp⟩
    have hall := hinit.append_cons (c := ')') (by decide) (hcall.append_cons (c := '(') (by decide)
      harguments)
    simpa using hall
  · have hcall : Clear (cs ++ '.' :: name) :=
      clear_of_count (by simp [count_point hname, count_point hpart])
    have hall := hcall.append_cons (c := '(') (by decide) harguments
    simpa using hall

section Normal

variable {base after : List Call} (h : Chained ("optional" :: methods) base after)
include h

theorem Chained.sound : ∀ c ∈ base ++ after, c.Sound :=
  forall_mem_append.mpr ⟨h.base.sound, fun c hc => (h.after c hc).sound⟩

theorem Chained.chain_eq : chain (joinChain (base ++ after)) = base ++ after :=
  chain_joinChain h.sound

theorem Chained.piece : Piece tracked isChainChar (joinChain (base ++ after)) := by
  apply Piece.intercalate (.plain rfl rfl .nil) _ (by simp [h.base.ne_nil])
  intro u hu
  exact (pieces_of_sound h.sound u hu).mono fun c hc => by simp [isChainChar, hc]

theorem Chained.clear : Clear (joinChain (base ++ after)) := by
  induction after using reverseRecOn with
  | nil =>
    rw [append_nil]
    cases h.base with
    | @reference name hname =>
      have hpart := (h.base.sound ⟨name ++ "Schema", none⟩ (by simp)).isPart_name
      have htext : joinChain [⟨name ++ "Schema", none⟩] = (name ++ "Schema").toList := by
        simp [joinChain]
      rw [htext]
      exact clear_of_count (by rw [count_point hpart]; omega)
    | @factory name args hname hargs =>
      have hpart := (h.base.sound ⟨name, some args⟩ (by simp)).isPart_name
      have hz : Clear ['z'] := clear_of_count (by simp)
      have hcall := clear_call hz (Or.inr (forall_mem_of_all rfl)) hpart hargs.clear
      simpa [joinChain] using hcall
  | append_singleton before c ih =>
    have hbefore : Chained ("optional" :: methods) base before :=
      ⟨h.base, fun x hx => h.after x (mem_append_left _ hx)⟩
    have hpart := (h.sound c (by simp)).isPart_name
    obtain ⟨args, hargs, hfit⟩ := (h.after c (by simp)).args
    obtain ⟨name, _⟩ := c
    cases hargs
    rw [← append_assoc, joinChain_concat hbefore.ne_nil, Call.text_call]
    exact clear_call (ih hbefore) hbefore.ends hpart hfit.clear

theorem Chained.deferred?_eq : deferred? (base ++ after) = none := by
  cases h.base with
  | @reference name _ =>
    have hne : (name ++ "Schema" == "z") = false := by simpa using schema_ne (by decide)
    unfold deferred?
    split
    · rename_i heq
      cases heq
      simp [hne]
    · rfl
  | @factory name args hname _ =>
    have hne : (name == "lazy") = false := by
      rw [beq_eq_false_iff_ne]
      rintro rfl
      exact absurd hname (by decide)
    unfold deferred?
    split
    · rename_i heq
      cases heq
      simp [hne]
    · rfl

/-- No call of a written schema is dropped. -/
theorem Chained.dropTransparent_eq :
    dropTransparent base.length (base ++ after) = base ++ after := by
  have hkeep : after.reverse.dropWhile (fun c => isTransparent c.name) = after.reverse := by
    cases hrev : after.reverse with
    | nil => rfl
    | cons c cs =>
      have hc : c ∈ after := by
        rw [← mem_reverse, hrev]
        exact mem_cons_self ..
      have hall : ∀ n ∈ "optional" :: methods, isTransparent n = false := by decide
      rw [dropWhile_cons_of_neg]
      simp [hall _ (h.after c hc).name]
  rw [dropTransparent, take_left, drop_left, hkeep, reverse_reverse]

theorem Chained.simplify_eq (fuel : Nat) :
    simplify (fuel + 1) (joinChain (base ++ after)) = joinChain (base ++ after) := by
  have hdeferred := h.deferred?_eq
  have hdrop := h.dropTransparent_eq
  rw [simplify, h.chain_eq]
  cases h.base with
  | @reference name _ =>
    have hne : (name ++ "Schema" == "z") = false := by simpa using schema_ne (by decide)
    simp only [singleton_append, hne, Bool.false_eq_true, if_false] at hdeferred hdrop ⊢
    rw [length_singleton] at hdrop
    rw [hdrop, hdeferred]
  | factory _ _ =>
    simp only [cons_append, nil_append, BEq.rfl, if_true] at hdeferred hdrop ⊢
    rw [length_cons, length_singleton] at hdrop
    rw [hdrop, hdeferred]

theorem Chained.normalize_eq :
    normalize (joinChain (base ++ after)) = joinChain (base ++ after) := by
  have htrim := h.piece.trim_eq
  have hstrip : Text.stripEnd [','] (joinChain (base ++ after)) = joinChain (base ++ after) := by
    rw [Text.stripEnd]
    cases hrev : (joinChain (base ++ after)).reverse with
    | nil => rw [dropWhile_nil, ← hrev, reverse_reverse]
    | cons c cs =>
      have hc : c ≠ ',' := by
        rintro rfl
        rcases h.ends with ⟨init, hinit⟩ | hpart
        · rw [hinit, reverse_append] at hrev
          cases hrev
        · cases hpart ',' (by rw [← mem_reverse, hrev]; exact mem_cons_self ..)
      rw [dropWhile_cons_of_neg (by simpa using hc), ← hrev, reverse_reverse]
  have hreplace : Text.replaceAll "z.coerce.".toList "z.".toList (joinChain (base ++ after)) =
      joinChain (base ++ after) := replaceAll_of_clear h.clear
  rw [normalize]
  simp only [htrim, hstrip, hreplace]
  exact h.simplify_eq _

end Normal

end Crosswalk.Zod
