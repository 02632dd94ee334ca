import Crosswalk.Proofs.Totality
import Crosswalk.Proofs.TypeSize

/-!
What the types of TypeScript, SQL and Zod are classified as. Only a number that cannot be read is in
the way of a classification. Values in a type are literals, so they are plain, and what describes a
type is text. A reference of a Zod schema is an identifier. Whatever rule applies, the types that it
hands on weigh less than the expression; those of TypeScript are also shorter, and the word of a
selection stands in the text.
-/

namespace Crosswalk

open List Text Measure

variable {α β : Type} {cs : List Char} {s : Shape}

/-! ### Computations that end in certain faults -/

/-- What the computation gives satisfies `P`, and the fault that it ends with satisfies `E`. -/
inductive Ensures (E : Fault → Prop) (P : α → Prop) : Except Fault α → Prop
  | ok {a : α} (h : P a) : Ensures E P (.ok a)
  | error {f : Fault} (h : E f) : Ensures E P (.error f)

namespace Ensures

variable {E : Fault → Prop} {P : α → Prop} {Q : β → Prop} {x : Except Fault α}

theorem holds (h : Ensures E P x) {a : α} (ha : x = .ok a) : P a := by
  cases h with
  | error _ => cases ha
  | ok h =>
    cases ha
    exact h

theorem fails (h : Ensures E P x) {f : Fault} (hf : x = .error f) : E f := by
  cases h with
  | ok _ => cases hf
  | error h =>
    cases hf
    exact h

theorem of_ok (h : Ensures E (fun _ => True) x) (hP : ∀ a, x = .ok a → P a) : Ensures E P x := by
  cases h with
  | error h => exact .error h
  | ok _ => exact .ok (hP _ rfl)

theorem bind {g : α → Except Fault β} (hx : Ensures E P x) (hg : ∀ a, P a → Ensures E Q (g a)) :
    Ensures E Q (x >>= g) := by
  cases hx with
  | error h => exact .error h
  | ok h => exact hg _ h

theorem map {g : α → β} (hx : Ensures E P x) (hg : ∀ a, P a → Q (g a)) : Ensures E Q (x.map g) := by
  cases hx with
  | error h => exact .error h
  | ok h => exact .ok (hg _ h)

theorem mono {F : Fault → Prop} {R : α → Prop} (hx : Ensures E P x) (hE : ∀ f, E f → F f)
    (hP : ∀ a, P a → R a) : Ensures F R x := by
  cases hx with
  | error h => exact .error (hE _ h)
  | ok h => exact .ok (hP _ h)

theorem mapM {f : α → Except Fault β} {as : List α} (h : ∀ a ∈ as, Ensures E Q (f a)) :
    Ensures E (fun bs => ∀ b ∈ bs, Q b) (as.mapM f) := by
  induction as with
  | nil => exact .ok (forall_mem_nil _)
  | cons a as ih =>
    obtain ⟨ha, has⟩ := forall_mem_cons.mp h
    rw [mapM_cons]
    exact ha.bind fun b hb => (ih has).bind fun bs hbs => .ok (forall_mem_cons.mpr ⟨hb, hbs⟩)

theorem foldlM {f : β → α → Except Fault β} {as : List α}
    (h : ∀ b a, a ∈ as → Q b → Ensures E Q (f b a)) {b : β} (hb : Q b) :
    Ensures E Q (as.foldlM f b) := by
  induction as generalizing b with
  | nil => exact .ok hb
  | cons a as ih =>
    rw [foldlM_cons]
    exact (h b a mem_cons_self hb).bind fun b' hb' =>
      ih (fun b a ha => h b a (mem_cons_of_mem _ ha)) hb'

end Ensures

/-- A number that cannot be read. -/
def Fault.IsUnreadable (f : Fault) : Prop := f = .unreadableNumber

/-! ### Sound shapes -/

/-- A constraint with a plain value, which is text if it describes the type. -/
def Constraint.Sound (c : Constraint) : Prop :=
  c.value.isPlain = true ∧ (c.limit = .description → Literal.isTextValue c.value = true)

theorem Constraint.sound_of_ne {l : Limit} (hl : l ≠ .description) {v : Value} (hv : v.isPlain) :
    Constraint.Sound ⟨l, v⟩ := ⟨hv, fun h => absurd h hl⟩

/-- The values of a shape are plain, what describes it is text, it selects fields only if that is
`allowed`, and `part` holds of the types in it. -/
structure Shape.Sound (written : String → Prop) (allowed : Prop) (part : Raw → Prop) (s : Shape) :
    Prop where
  plain : s.Plain written
  described : s.Described
  selection : s.isSelection → allowed
  parts : ∀ p ∈ s.parts, part p

/-- What has been classified, if anything, is sound. -/
def SoundSome (written : String → Prop) (allowed : Prop) (part : Raw → Prop) (s? : Option Shape) :
    Prop :=
  ∀ s, s? = some s → s.Sound written allowed part

section Shapes

variable {written : String → Prop} {allowed : Prop} {part : Raw → Prop} {cs : List Constraint}

theorem Shape.sound_primitive {p : Primitive} (h : ∀ c ∈ cs, c.Sound) :
    (Shape.primitive p cs).Sound written allowed part :=
  ⟨fun c hc => (h c hc).1, fun c hc => (h c hc).2, nofun, forall_mem_nil _⟩

theorem Shape.sound_array {e : Raw} (h : ∀ c ∈ cs, c.Sound) (he : part e) :
    (Shape.array e cs).Sound written allowed part :=
  ⟨fun c hc => (h c hc).1, fun c hc => (h c hc).2, nofun, forall_mem_singleton.mpr he⟩

theorem soundSome_none : SoundSome written allowed part none := nofun

theorem soundSome_some (h : s.Sound written allowed part) :
    SoundSome written allowed part (some s) := by
  intro _ hs
  cases hs
  exact h

end Shapes

/-- The notation does not restrict the names of references. -/
def anyName : String → Prop := fun _ => True

/-! ### Literals -/

namespace Literal

theorem ensures_integer (cs : List Char) :
    Ensures Fault.IsUnreadable (fun v => v.isPlain) (integer cs) := by
  unfold integer
  split
  · exact .ok rfl
  · exact .error rfl

theorem ensures_read? (cs : List Char) :
    Ensures Fault.IsUnreadable (fun v? => ∀ v, v? = some v → v.isPlain) (read? cs) := by
  have hsome {v : Value} (hv : v.isPlain) : ∀ w, some v = some w → w.isPlain := by
    rintro w ⟨⟩
    exact hv
  unfold read?
  dsimp only
  split
  · rename_i hquoted
    -- Quoted text has its quotes at least.
    cases hcs : Text.trim cs with
    | nil =>
      rw [hcs] at hquoted
      cases hquoted
    | cons q cs => exact .ok (hsome rfl)
  split
  · split
    · exact (ensures_integer _).map fun _ => hsome
    · split
      · exact .ok (hsome rfl)
      · exact .error rfl
  split
  · exact (ensures_integer _).map fun _ => hsome
  split
  · exact .ok (hsome rfl)
  split
  · exact .ok (hsome rfl)
  · exact .ok nofun

theorem ensures_enumeration? (parts : List (List Char)) :
    Ensures Fault.IsUnreadable (fun vs? => ∀ vs, vs? = some vs → ∀ v ∈ vs, v.isPlain)
      (enumeration? parts) := by
  refine (Ensures.mapM fun p _ => ensures_read? p).bind fun values hvalues => ?_
  dsimp only
  split
  · exact .ok nofun
  · split
    · refine .ok ?_
      rintro vs ⟨⟩ v hv
      obtain ⟨v?, hmem, hv?⟩ := mem_filterMap.mp hv
      exact hvalues v? hmem v hv?
    · exact .ok nofun

end Literal

/-! ### Fields -/

theorem Field.plain_of_attributes {f : Field}
    (h : ∀ v, .default v ∈ f.attributes → v.isPlain) : f.Plain := by
  intro v hv
  obtain ⟨a, ha, hav⟩ := exists_of_findSome?_eq_some hv
  cases a with
  | default w =>
    cases hav
    exact h v ha
  | primaryKey | unique | autoIncrement | generated | relation => cases hav

/-- A field with plain values, whose types are taken from a text. -/
structure Field.Sound (cs : List Char) (f : Field) : Prop where
  plain : f.Plain
  types : ∀ p ∈ f.types, TakenFrom cs p.asText

theorem Field.taken_typesAll {fs : List Field} (h : ∀ f ∈ fs, f.Sound cs) :
    ∀ p ∈ Field.typesAll fs, TakenFrom cs p.asText := by
  intro p hp
  obtain ⟨f, hf, hp⟩ := Field.mem_typesAll.mp hp
  exact (h f hf).types p hp

namespace Member

theorem attributes_field? {tracked line : List Char} {f : Field}
    (h : field? tracked line = some f) : f.attributes = [] := by
  unfold field? at h
  split at h
  · cases h
  · split at h
    · cases h
    · obtain ⟨_, _, rfl⟩ := Option.map_eq_some_iff.mp h
      rfl

theorem ensures_readBody {tracked separators : List Char} {E : Fault → Prop}
    {readField : List Char → Except Fault (Option Field)}
    (h : ∀ line, Ensures E (fun f? => ∀ f, f? = some f → f.Sound line) (readField line))
    (body : List Char) :
    Ensures E (fun found => (∀ f ∈ found.1, f.Sound body) ∧
      ∀ type, found.2 = some type → TakenFrom body type)
      (readBody tracked separators readField body) := by
  refine Ensures.bind (P := fun acc : List Field × Option (List Char) =>
      (∀ f ∈ acc.1, f.Sound body) ∧ ∀ type, acc.2 = some type → TakenFrom body type)
    (Ensures.foldlM (fun acc line hline hacc => ?_) ⟨forall_mem_nil _, nofun⟩)
    fun found hfound => .ok ⟨fun f hf => hfound.1 f (mem_reverse.mp hf), hfound.2⟩
  have hle := taken_of_mem_lines hline
  split
  · refine .ok ⟨hacc.1, fun type htype => ?_⟩
    cases hindex : indexType? tracked line with
    | none => exact hacc.2 type (by simpa [hindex] using htype)
    | some t =>
      obtain rfl : t = type := by simpa [hindex] using htype
      exact hle.trans (taken_of_indexType? hindex)
  · refine (h line).bind fun f? hf? => ?_
    cases f? with
    | none => exact .ok hacc
    | some f =>
      obtain ⟨hplain, htypes⟩ := hf? f rfl
      have hf : f.Sound body := ⟨hplain, fun p hp => hle.trans (htypes p hp)⟩
      exact .ok ⟨forall_mem_cons.mpr ⟨hf, hacc.1⟩, hacc.2⟩

end Member

/-! ### TypeScript -/

namespace TypeScript

/-- What selects fields of another type. -/
def selectionWords : List (List Char) :=
  ["Pick".toList, "Omit".toList, "Partial".toList, "Required".toList]

/-- The word of a selection stands in a text. -/
def HasSelection (cs : List Char) : Prop := ∃ w ∈ selectionWords, w <:+: cs

/-- A shape whose types stand inside a text, and the word of a selection is among its words. -/
abbrev StandsIn (cs : List Char) : Shape → Prop :=
  Shape.Sound anyName (HasSelection cs) fun p => Inside cs p.asText

abbrev FoundIn (cs : List Char) : Option Shape → Prop :=
  SoundSome anyName (HasSelection cs) fun p => Inside cs p.asText

theorem ensures_fields {E : Fault → Prop} (body : List Char) :
    Ensures E (fun found => (∀ f ∈ found.1, f.Sound body) ∧
      ∀ type, found.2 = some type → TakenFrom body type) (fields body) := by
  refine Member.ensures_readBody (fun line => .ok fun f hf => ⟨?_, fun p hp => ?_⟩) body
  · exact Field.plain_of_attributes (by simp [Member.attributes_field? hf])
  · exact Member.taken_of_field? hf hp

theorem ensures_union? (cs : List Char) : Ensures Fault.IsUnreadable (FoundIn cs) (union? cs) := by
  unfold union?
  dsimp only
  split
  · exact .ok soundSome_none
  rename_i hlength
  have hpart {p} (hp : p ∈ splitTypes '|' cs) : Inside cs p :=
    inside_of_mem_splitTopNonempty hp hlength
  refine (Literal.ensures_enumeration? _).bind fun values hvalues => ?_
  split
  · rename_i vs hvs
    exact .ok (soundSome_some
      ⟨hvalues vs (Option.filter_eq_some_iff.mp hvs).1, trivial, nofun, forall_mem_nil _⟩)
  have hunion : ∀ p ∈ (splitTypes '|' cs).map Raw.text, Inside cs p.asText :=
    forall_mem_map.mpr fun _ => hpart
  split
  · rename_i a b hparts
    rw [hparts] at hpart
    split
    · exact .ok (soundSome_some
        ⟨trivial, trivial, nofun, forall_mem_singleton.mpr (hpart (p := b) (by simp))⟩)
    split
    · exact .ok (soundSome_some
        ⟨trivial, trivial, nofun, forall_mem_singleton.mpr (hpart (p := a) (by simp))⟩)
    · exact .ok (soundSome_some ⟨trivial, trivial, nofun, hunion⟩)
  · exact .ok (soundSome_some ⟨trivial, trivial, nofun, hunion⟩)

theorem standsIn_structural
    (h : ((intersection? cs).orElse fun _ => (array? cs).orElse fun _ => tuple? cs) = some s) :
    StandsIn cs s := by
  simp only [Option.orElse_eq_or, Option.or_eq_some_iff] at h
  rcases h with h | ⟨_, h | ⟨_, h⟩⟩
  · simp only [intersection?] at h
    split at h <;> cases h
    rename_i hlength
    exact ⟨trivial, trivial, nofun,
      forall_mem_map.mpr fun _ hp => inside_of_mem_splitTopNonempty hp hlength⟩
  · simp only [array?] at h
    split at h
    case h_1 element helement =>
      split at h <;> cases h
      obtain rfl := eq_append_of_before? helement
      have helement : Inside (element ++ ['[', ']']) element :=
        ⟨.of_isInfix (prefix_append _ _).isInfix, fun μ => by have := μ.pos '['; simp; omega⟩
      exact Shape.sound_array (forall_mem_nil _) (helement.trans (.trim element))
    case h_2 => cases h
  · obtain ⟨inner, hinner, rfl⟩ := Option.map_eq_some_iff.mp h
    refine ⟨trivial, trivial, nofun, forall_mem_map.mpr fun e he => ?_⟩
    have helement := (taken_of_mem_splitTopNonempty he).trans (tupleElement_taken e)
    exact (Inside.of_enclosed? hinner).trans helement

theorem ensures_selectedKeys (cs : List Char) :
    Ensures Fault.IsUnreadable (fun _ => True) (selectedKeys cs) :=
  (Ensures.mapM fun p _ => Literal.ensures_read? p).bind fun _ _ => .ok trivial

/-- Only the words of selections name one. -/
theorem mem_selectionWords {name : List Char} {kind : Container}
    (h : container? (String.ofList name) = some kind) (hk : kind.isSelection) :
    name ∈ selectionWords := by
  rw [← String.toList_ofList (l := name)]
  unfold container? at h
  split at h
  case h_7 hname | h_8 hname | h_10 hname | h_11 hname => simp [hname, selectionWords]
  all_goals cases h
  all_goals cases hk

theorem ensures_genericShape? (cs : List Char) :
    Ensures Fault.IsUnreadable (FoundIn cs) (genericShape? cs) := by
  unfold genericShape?
  split
  · exact .ok soundSome_none
  rename_i name inner hgeneric
  obtain ⟨hinner, hname⟩ := inside_of_generic? hgeneric
  dsimp only
  split
  · exact .ok soundSome_none
  rename_i first others hparts
  have hpart {p} (hp : p ∈ first :: others) : Inside cs p :=
    hinner.trans (taken_of_mem_splitTopNonempty (hparts ▸ hp))
  have hfirst := hpart mem_cons_self
  split
  · exact .ok (soundSome_some (Shape.sound_array (forall_mem_nil _) hfirst))
  split
  · split
    · exact .ok (soundSome_some (Shape.sound_primitive (forall_mem_nil _)))
    · refine .ok (soundSome_some ⟨trivial, trivial, nofun, forall_mem_map.mpr fun p hp => ?_⟩)
      exact hfirst.trans ((TakenFrom.unwrapParens first).trans
        (taken_of_mem_splitTopNonempty (mem_filter.mp hp).1))
  have hcontainer {kind : Container} {args : List (List Char)} {keys : List String}
      (hkind : container? (String.ofList name) = some kind) (hargs : args ⊆ first :: others) :
      FoundIn cs (some (.container kind (args.map .text) keys)) :=
    soundSome_some ⟨trivial, trivial, fun hk => ⟨name, mem_selectionWords hkind hk, hname⟩,
      forall_mem_map.mpr fun p hp => hpart (hargs hp)⟩
  have hone : [first] ⊆ first :: others := by simp
  split
  · rename_i hkind
    exact (ensures_selectedKeys _).bind fun _ _ => .ok (hcontainer hkind hone)
  · rename_i hkind
    exact (ensures_selectedKeys _).bind fun _ _ => .ok (hcontainer hkind hone)
  · rename_i hkind
    exact .ok (hcontainer hkind (Subset.refl _))
  · exact .ok (soundSome_some ⟨trivial, trivial, nofun, forall_mem_nil _⟩)

theorem ensures_object? (cs : List Char) :
    Ensures Fault.IsUnreadable (FoundIn cs) (object? cs) := by
  unfold object?
  split
  · exact .ok soundSome_none
  rename_i inner hinner
  have hinside := Inside.of_enclosed? hinner
  refine (ensures_fields _).bind fun found ⟨hfields, hindex⟩ =>
    .ok (soundSome_some ⟨fun f hf => (hfields f hf).plain, trivial, nofun, ?_⟩)
  refine forall_mem_append.mpr
    ⟨fun p hp => hinside.trans (Field.taken_typesAll hfields p hp), fun p hp => ?_⟩
  cases htype : found.2 with
  | none => simp [htype, Additional.types] at hp
  | some type =>
    obtain rfl : p = .text type := by simpa [htype, Additional.types] using hp
    exact hinside.trans (hindex type htype)

theorem ensures_classify (raw : List Char) :
    Ensures Fault.IsUnreadable (StandsIn (normalize raw)) (classify raw) := by
  unfold classify
  dsimp only
  split
  · exact .ok (Shape.sound_primitive (forall_mem_nil _))
  refine (Literal.ensures_read? _).bind fun literal hliteral => ?_
  split
  · exact .ok ⟨hliteral _ rfl, trivial, nofun, forall_mem_nil _⟩
  refine (ensures_union? _).bind fun union hunion => ?_
  split
  · exact .ok (hunion _ rfl)
  split
  · rename_i hstructural
    exact .ok (standsIn_structural hstructural)
  refine (ensures_genericShape? _).bind fun generic hgeneric => ?_
  split
  · exact .ok (hgeneric _ rfl)
  refine (ensures_object? _).bind fun object hobject => ?_
  split
  · exact .ok (hobject _ rfl)
  · unfold reference?
    split <;> exact .ok ⟨trivial, trivial, nofun, forall_mem_nil _⟩

/-- The types that stand in a type expression stand inside of it. -/
theorem inside_of_classify {raw : List Char} {p : Raw} (h : classify raw = .ok s)
    (hp : p ∈ s.parts) :
    Inside raw p.asText :=
  .of_taken (normalize_taken raw) (((ensures_classify raw).holds h).parts p hp)

theorem ensures_enumValues (body : List Char) :
    Ensures Fault.IsUnreadable (fun vs => ∀ v ∈ vs, v.isPlain) (enumValues body) := by
  refine Ensures.mapM fun member _ => ?_
  split
  dsimp only
  -- Whatever the initializer is, the value is a text.
  split
  · split
    · exact .ok rfl
    · refine (Literal.ensures_read? _).bind fun value _ => ?_
      split <;> exact .ok rfl
  · exact .ok rfl

end TypeScript

/-! ### SQL -/

namespace Sql

theorem ensures_literals (cs : List Char) :
    Ensures Fault.IsUnreadable (fun vs => ∀ v ∈ vs, v.isPlain) (literals cs) := by
  refine (Ensures.mapM fun p _ => Literal.ensures_read? (unescapeQuotes p)).bind
    fun found hfound => ?_
  refine .ok fun v hv => ?_
  obtain ⟨v?, hmem, hv?⟩ := mem_filterMap.mp hv
  exact hfound v? hmem v hv?

theorem sound_baseType? {s : String} {p : Primitive} {cs : List Constraint}
    (h : baseType? s = some (p, cs)) : ∀ c ∈ cs, c.Sound := by
  unfold baseType? at h
  split at h <;> cases h <;> simp [Constraint.Sound, Value.isPlain]

theorem ensures_primitive? (cs : List Char) :
    Ensures Fault.IsUnreadable (SoundSome anyName False fun _ => True) (primitive? cs) := by
  unfold primitive?
  dsimp only
  split
  · exact .ok soundSome_none
  split
  · exact .ok soundSome_none
  rename_i p constraints hbase
  have hsound := sound_baseType? hbase
  -- A length or a note is added to the constraints of the base type.
  have hadded (c : Constraint) (hc : c.Sound) : ∀ c' ∈ constraints ++ [c], c'.Sound :=
    forall_mem_append.mpr ⟨hsound, forall_mem_singleton.mpr hc⟩
  split
  · split
    · split
      · exact .ok
          (soundSome_some (Shape.sound_primitive (hadded _ (Constraint.sound_of_ne (by simp) rfl))))
      · exact .error rfl
    · exact .ok (soundSome_some (Shape.sound_primitive hsound))
  · exact .ok (soundSome_some (Shape.sound_primitive (hadded _ ⟨rfl, fun _ => rfl⟩)))
  · exact .ok (soundSome_some (Shape.sound_primitive hsound))

theorem ensures_classify (raw : List Char) :
    Ensures Fault.IsUnreadable (Shape.Sound anyName False fun _ => True) (classify raw) := by
  unfold classify
  dsimp only
  split
  · exact (ensures_literals _).bind fun _ hvs => .ok ⟨hvs, trivial, nofun, nofun⟩
  split
  · exact .ok (Shape.sound_array (forall_mem_nil _) trivial)
  split
  · exact .ok (Shape.sound_primitive (forall_mem_nil _))
  refine (ensures_primitive? _).bind fun found hfound => ?_
  split
  · exact .ok (hfound _ rfl)
  · split <;> exact .ok ⟨trivial, trivial, nofun, nofun⟩

end Sql

/-! ### Zod -/

namespace Zod

/-- References are identifiers. -/
def isGiven (name : String) : Prop := name ≠ ""

theorem ensures_numberArgument (args : Option (List Char)) :
    Ensures Fault.IsUnreadable (fun v? => ∀ v, v? = some v → v.isPlain) (numberArgument args) := by
  refine (Literal.ensures_read? _).bind fun value hvalue => .ok fun v hv => ?_
  exact hvalue v (Option.filter_eq_some_iff.mp hv).1

theorem sound_sizeConstraints {least greatest : Limit} (hl : least ≠ .description)
    (hg : greatest ≠ .description) (name : String) {v : Value} (hv : v.isPlain) :
    ∀ c ∈ sizeConstraints least greatest name v, c.Sound := by
  have hone (b : Bool) {l : Limit} (hl : l ≠ .description) :
      ∀ c ∈ (if b then [⟨l, v⟩] else [] : List Constraint), c.Sound := by
    split
    · exact forall_mem_singleton.mpr (Constraint.sound_of_ne hl hv)
    · exact forall_mem_nil _
  exact forall_mem_append.mpr ⟨hone _ hl, hone _ hg⟩

theorem sound_sign (name : String) : ∀ c ∈ refine.sign name, c.Sound := by
  unfold refine.sign
  split
  · exact forall_mem_singleton.mpr (Constraint.sound_of_ne (by simp) rfl)
  split
  · exact forall_mem_singleton.mpr (Constraint.sound_of_ne (by simp) rfl)
  · exact forall_mem_nil _

theorem sound_refine (p : Primitive) (c : Call) {number : Option Value}
    (h : ∀ v, number = some v → v.isPlain) : ∀ k ∈ (refine p c number).2, k.Sound := by
  unfold refine
  split
  · exact forall_mem_nil _
  split
  · exact forall_mem_singleton.mpr (Constraint.sound_of_ne (by simp) rfl)
  split
  · exact forall_mem_singleton.mpr (Constraint.sound_of_ne (by simp) rfl)
  cases number with
  | none => exact sound_sign _
  | some v =>
    have hv := h v rfl
    have hsizes :
        ∀ k ∈ (if p == .string then sizeConstraints .minLength .maxLength c.name v else []),
        k.Sound := by
      split
      · exact sound_sizeConstraints (by simp) (by simp) _ hv
      · exact forall_mem_nil _
    dsimp only
    by_cases hempty : (!(if p == .string then
        sizeConstraints .minLength .maxLength c.name v else []).isEmpty)
    · rw [if_pos hempty]
      exact hsizes
    · rw [if_neg hempty]
      cases hl : numberLimit? c.name with
      | none => exact sound_sign _
      | some l =>
        refine forall_mem_singleton.mpr (Constraint.sound_of_ne ?_ hv)
        rintro rfl
        unfold numberLimit? at hl
        split at hl <;> cases hl

theorem ensures_primitive {part : Raw → Prop} (p : Primitive) (methods : List Call) :
    Ensures Fault.IsUnreadable (Shape.Sound isGiven True part) (primitive p methods) := by
  refine Ensures.bind (P := fun acc : Primitive × List Constraint => ∀ c ∈ acc.2, c.Sound)
    (Ensures.foldlM (fun acc c _ hacc => ?_) (forall_mem_nil _)) fun _ hacc =>
      .ok (Shape.sound_primitive hacc)
  exact (ensures_numberArgument c.args).bind fun number hnumber =>
    .ok (forall_mem_append.mpr ⟨hacc, sound_refine acc.1 c hnumber⟩)

theorem ensures_arrayConstraints (methods : List Call) :
    Ensures Fault.IsUnreadable (fun cs => ∀ c ∈ cs, c.Sound) (arrayConstraints methods) := by
  refine Ensures.bind (P := fun found => ∀ cs ∈ found, ∀ c ∈ cs, c.Sound)
    (Ensures.mapM fun c _ => (ensures_numberArgument c.args).bind fun number hnumber => ?_)
    fun found hfound => ?_
  · cases number with
    | none => exact .ok (forall_mem_nil _)
    | some v => exact .ok (sound_sizeConstraints (by simp) (by simp) _ (hnumber v rfl))
  · refine .ok fun c hc => ?_
    obtain ⟨cs, hcs, hc⟩ := mem_flatten.mp hc
    exact hfound cs hcs c hc

theorem ensures_defaultValue (calls : List Call) :
    Ensures Fault.IsUnreadable (fun v? => ∀ v, v? = some v → v.isPlain) (defaultValue calls) := by
  induction calls with
  | nil => exact .ok nofun
  | cons c cs ih =>
    rw [defaultValue]
    split
    · exact ih
    · refine (Literal.ensures_read? _).bind fun value hvalue => ?_
      cases value with
      | none => exact ih
      | some v => exact .ok hvalue

theorem ensures_field (line : List Char) :
    Ensures Fault.IsUnreadable (fun f? => ∀ f, f? = some f → f.Sound line) (field line) := by
  unfold field
  split
  · exact .ok nofun
  · rename_i g hg
    refine (ensures_defaultValue _).bind fun value hvalue => .ok ?_
    rintro f ⟨⟩
    refine ⟨Field.plain_of_attributes fun v hv => hvalue v ?_, fun p hp => ?_⟩
    · simpa only [Option.mem_toList, Option.map_eq_some_iff, FieldAttribute.default.injEq,
        exists_eq_right] using hv
    · rw [Field.types_eq] at hp
      exact Member.taken_of_field? hg (Field.types_eq g ▸ hp)

theorem ensures_fields (body : List Char) :
    Ensures Fault.IsUnreadable (fun fs => ∀ f ∈ fs, f.Sound body) (fields body) :=
  (Member.ensures_readBody ensures_field body).bind fun _ hfound => .ok hfound.1

theorem ensures_object {made : Call} {methods : List Call} {n : Nat}
    (hn : heavy.weight made.text + 2 + heavy.weights (methods.map Call.text) ≤ n) :
    Ensures Fault.IsUnreadable (Shape.Sound isGiven True (·.weight < n))
      (object (trim (made.args.getD [])) methods) := by
  have hargs := weight_args_le made
  have hadditional : ∀ p ∈ Additional.types (additional methods), p.weight < n := by
    intro p hp
    obtain ⟨c, hc, a, ha, rfl⟩ := additional_types hp
    have hcall := heavy.weight_le_weights (mem_map_of_mem (f := Call.text) hc)
    have hgiven := weight_given? ha
    rw [Raw.weight_text]
    omega
  unfold object
  split
  · rename_i inner hinner
    have hlt := (Inside.of_enclosed? hinner).2 heavy
    refine (ensures_fields _).bind fun fs hfs =>
      .ok ⟨fun f hf => (hfs f hf).plain, trivial, fun _ => trivial, ?_⟩
    refine forall_mem_append.mpr ⟨fun p hp => ?_, hadditional⟩
    exact Nat.lt_of_le_of_lt ((Field.taken_typesAll hfs p hp).weight_le heavy) (by omega)
  · exact .ok ⟨forall_mem_nil _, trivial, fun _ => trivial, hadditional⟩

theorem sound_lastCall? (h : lastCall? (chain cs) = some s) :
    s.Sound isGiven True (·.weight < heavy.weight cs) := by
  unfold lastCall? at h
  split at h
  case h_2 => cases h
  case h_1 last previous before hchain =>
    have hweight := weight_lastCall hchain
    have hrest : (Raw.text (joinChain (previous :: before).reverse)).weight < heavy.weight cs := by
      rw [Raw.weight_text]
      omega
    have hgiven {a : List Char} (ha : last.given? = some a) :
        (Raw.text a).weight < heavy.weight cs := by
      have := weight_given? ha
      rw [Raw.weight_text]
      omega
    have hone :
        ∀ p ∈ [Raw.text (joinChain (previous :: before).reverse)], p.weight < heavy.weight cs :=
      forall_mem_singleton.mpr hrest
    dsimp only at h
    split at h
    case h_1 | h_2 =>
      cases h
      exact ⟨trivial, trivial, fun _ => trivial, hone⟩
    case h_3 hname =>
      cases h
      refine ⟨trivial, trivial, fun _ => trivial, forall_mem_singleton.mpr ?_⟩
      have hlast := weight_text last
      have hold : heavy.weight "nullish".toList = 14 := by decide
      have hnew : heavy.weight ".nullable()".toList = 11 := by decide
      rw [hname] at hlast
      simp only [Raw.weight_text, Raw.asText, weight_append]
      omega
    case h_4 =>
      split at h
      · cases h
      split at h
      case h_1 | h_2 | h_3 =>
        obtain ⟨a, ha, rfl⟩ := Option.map_eq_some_iff.mp h
        exact ⟨trivial, trivial, fun _ => trivial,
          forall_mem_cons.mpr ⟨hrest, forall_mem_singleton.mpr (hgiven ha)⟩⟩
      case h_4 hname =>
        obtain ⟨a, ha, rfl⟩ := Option.map_eq_some_iff.mp h
        refine ⟨trivial, trivial, fun _ => trivial,
          forall_mem_cons.mpr ⟨hrest, forall_mem_singleton.mpr ?_⟩⟩
        have hlast := weight_given? ha
        have hold : heavy.weight "extend".toList = 13 := by decide
        have hnew : heavy.weight "z.object(".toList = 9 := by decide
        have hclose : heavy.weight [')'] = 1 := by decide
        rw [hname] at hlast
        simp only [Raw.weight_text, weight_append]
        omega
      case h_5 | h_8 | h_9 =>
        split at h <;> cases h
        first
          | exact Shape.sound_array (forall_mem_nil _) hrest
          | exact ⟨trivial, trivial, fun _ => trivial, hone⟩
      case h_6 | h_7 =>
        obtain ⟨_, _, rfl⟩ := Option.map_eq_some_iff.mp h
        exact ⟨trivial, trivial, fun _ => trivial, hone⟩
      case h_10 => cases h

theorem ensures_factoryShape? (cs : List Char) :
    Ensures Fault.IsUnreadable (SoundSome isGiven True (·.weight < heavy.weight cs))
      (factoryShape? (chain cs)) := by
  unfold factoryShape?
  split
  case h_2 => exact .ok soundSome_none
  rename_i z made methods hchain
  split
  · exact .ok soundSome_none
  rename_i hz
  have hcalls := weight_factory hchain (by simpa using hz)
  have hargs := weight_args_le made
  have hwhole : (Raw.text (trim (made.args.getD []))).weight < heavy.weight cs := by
    rw [Raw.weight_text]
    omega
  have hitems {cs' : List Char} (hle : heavy.weight cs' ≤ heavy.weight (trim (made.args.getD []))) :
      ∀ p ∈ (listItems cs').map Raw.text, p.weight < heavy.weight cs := by
    refine forall_mem_map.mpr fun item hitem => ?_
    have := weight_listItems_le hitem
    rw [Raw.weight_text]
    omega
  dsimp only
  split
  · exact (ensures_primitive _ _).bind fun _ hs => .ok (soundSome_some hs)
  split
  case h_1 =>
    refine (Literal.ensures_read? _).bind fun value hvalue => ?_
    cases value with
    | none => exact .ok soundSome_none
    | some v => exact .ok (soundSome_some ⟨hvalue v rfl, trivial, nofun, forall_mem_nil _⟩)
  case h_2 =>
    refine (Literal.ensures_enumeration? _).bind fun values hvalues => ?_
    cases values with
    | none => exact .ok (soundSome_some ⟨forall_mem_nil _, trivial, nofun, forall_mem_nil _⟩)
    | some vs => exact .ok (soundSome_some ⟨hvalues vs rfl, trivial, nofun, forall_mem_nil _⟩)
  case h_3 =>
    exact (ensures_arrayConstraints _).bind fun _ hcs =>
      .ok (soundSome_some (Shape.sound_array hcs hwhole))
  case h_4 =>
    exact .ok (soundSome_some ⟨trivial, trivial, fun _ => trivial, hitems (Nat.le_refl _)⟩)
  case h_5 | h_6 =>
    refine .ok (soundSome_some ⟨trivial, trivial, fun _ => trivial, hitems ?_⟩)
    split
    · exact heavy.weight_le_of_sublist (dropWhile_sublist _)
    · exact Nat.le_refl _
  case h_7 =>
    refine .ok
      (soundSome_some ⟨trivial, trivial, fun _ => trivial, forall_mem_map.mpr fun a ha => ?_⟩)
    exact Nat.lt_of_le_of_lt ((taken_of_mem_splitTopNonempty ha).weight_le heavy) hwhole
  case h_8 => exact (ensures_object hcalls).bind fun _ hs => .ok (soundSome_some hs)
  case h_9 hname | h_10 hname =>
    refine .ok (soundSome_some
      ⟨trivial, trivial, fun _ => trivial, fun p hp => keyed_shrinks (fun hne => ?_) hp⟩)
    have hlt := weight_args_lt hne
    have hkind : 6 ≤ heavy.weight made.name.toList := by
      rw [hname]
      decide
    omega
  case h_11 | h_12 =>
    exact .ok (soundSome_some ⟨trivial, trivial, fun _ => trivial, forall_mem_singleton.mpr hwhole⟩)
  case h_13 => exact .ok soundSome_none

theorem baseName_ne_nil (h : cs ≠ []) : baseName cs ≠ [] := by
  unfold baseName
  split
  · split
    · exact h
    · rename_i hbase
      simpa using hbase
  · exact h

theorem ensures_classify (raw : List Char) :
    Ensures Fault.IsUnreadable (Shape.Sound isGiven True (·.weight < heavy.weight (normalize raw)))
      (classify raw) := by
  unfold classify
  -- What the expression is simplified to does not matter to any of the rules.
  generalize normalize raw = cs
  dsimp only
  split
  · rename_i hlast
    exact .ok (sound_lastCall? hlast)
  split
  · rename_i hname
    rw [Bool.and_eq_true] at hname
    have hne : cs ≠ [] := by
      rintro rfl
      cases hname.1
    refine .ok ⟨?_, trivial, nofun, forall_mem_nil _⟩
    simpa [Shape.Plain, isGiven] using baseName_ne_nil hne
  refine (ensures_factoryShape? _).bind fun made hmade => ?_
  cases made with
  | none => exact .ok ⟨trivial, trivial, fun _ => trivial, forall_mem_nil _⟩
  | some s => exact .ok (hmade s rfl)

/-- The types that stand in a schema expression are smaller than it is. -/
theorem classify_shrinks {raw : List Char} {p : Raw} (h : classify raw = .ok s) (hp : p ∈ s.parts) :
    p.weight < heavy.weight raw :=
  Nat.lt_of_lt_of_le (((ensures_classify raw).holds h).parts p hp) (weight_normalize_le raw)

theorem ensures_enumValues (body : List Char) :
    Ensures Fault.IsUnreadable (fun vs => ∀ v ∈ vs, v.isPlain) (enumValues body) := by
  have hclassify := ensures_classify body
  unfold enumValues
  generalize classify body = shape at hclassify ⊢
  refine hclassify.bind fun s hs => ?_
  split
  · exact .ok hs.plain
  · exact .ok (forall_mem_nil _)

end Zod

end Crosswalk
