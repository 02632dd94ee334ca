import Crosswalk.Proofs.MappingFaults
import Crosswalk.Proofs.SchemaDocuments
import Crosswalk.Proofs.ScriptShapes
import Mathlib.Logic.Relation

/-!
Selections from interfaces that extend others. A target that cannot write a selection by name gets
an object with the fields of the interface itself. Main statement: these are all that is taken, so
the object has every property that the selection asks for exactly if no interface that is extended
has another one of them.
-/

namespace Crosswalk

open List

variable {fs : List Field}

/-! ### Fields of interfaces -/

namespace Member

theorem forall_readBody {tracked separators : List Char}
    {readField : List Char → Except Fault (Option Field)} {P : Field → Prop}
    (hread : ∀ line f, readField line = .ok (some f) → P f) {body : List Char}
    {index : Option (List Char)}
    (h : readBody tracked separators readField body = .ok (fs, index)) :
    ∀ f ∈ fs, P f := by
  obtain ⟨found, hfound, h⟩ := bind_eq_ok.mp h
  have hall : ∀ f ∈ found.1, P f := by
    refine foldlM_invariant (P := fun acc : List Field × Option (List Char) => ∀ f ∈ acc.1, P f)
      (fun line _ acc next hacc hnext => ?_) (forall_mem_nil _) hfound
    split at hnext
    · cases hnext
      exact hacc
    · obtain ⟨f?, hf?, hnext⟩ := bind_eq_ok.mp hnext
      cases f? with
      | none =>
        cases hnext
        exact hacc
      | some f =>
        cases hnext
        exact forall_mem_cons.mpr ⟨hread line f hf?, hacc⟩
  cases h
  intro f hf
  exact hall f (mem_reverse.mp hf)

end Member

/-- A field that has nothing but a textual key and a type. -/
def Field.IsProperty (f : Field) : Prop :=
  ∃ k type optional, f = { key := .text k, type := .text type, optional }

section Properties

variable (h : ∀ f ∈ fs, f.IsProperty)
include h

theorem Field.exists_keys : ∃ names : List String, fs.map Field.key = names.map .text := by
  induction fs with
  | nil => exact ⟨[], rfl⟩
  | cons f fs ih =>
    rw [forall_mem_cons] at h
    obtain ⟨⟨k, _, _, rfl⟩, hfs⟩ := h
    obtain ⟨names, hnames⟩ := ih hfs
    exact ⟨k :: names, by rw [map_cons, map_cons, hnames]⟩

theorem Field.typesAll_properties : Field.typesAll fs = fs.map Field.type := by
  induction fs with
  | nil => rfl
  | cons f fs ih =>
    rw [forall_mem_cons] at h
    obtain ⟨⟨_, _, _, rfl⟩, hfs⟩ := h
    rw [Field.typesAll_cons, ih hfs, map_cons]
    rfl

/-- Nothing in such fields is left to check. -/
theorem Target.JsonSchema.admits_properties (extra : Option (Additional Unit)) :
    demands.object fs extra = true := by
  refine all_eq_true.mpr fun f hf => ?_
  obtain ⟨_, _, _, rfl⟩ := h f hf
  rfl

end Properties

namespace TypeScript

theorem isProperty_fields {body : List Char} {index : Option (List Char)}
    (h : fields body = .ok (fs, index)) :
    ∀ f ∈ fs, f.IsProperty := by
  refine Member.forall_readBody (fun line f hf => ?_) h
  have hf := Except.ok.inj hf
  unfold Member.field? at hf
  split at hf
  · cases hf
  · split at hf
    · cases hf
    · obtain ⟨⟨key, optional⟩, _, rfl⟩ := Option.map_eq_some_iff.mp hf
      exact ⟨_, _, _, rfl⟩

theorem isProperty_extract {source : List Char} {doc : Document}
    (h : (extract source).result = .ok doc) {d : Declaration} (hd : d ∈ doc.declarations) :
    ∀ f ∈ d.fields, f.IsProperty := by
  cases announced_extract h d hd with
  | object name bases hfields => exact isProperty_fields hfields
  | synonym | enumeration => exact forall_mem_nil _

/-! ### Selections as they are written -/

/-- A type that takes properties from another type. -/
inductive Selector where
  | partially
  | required
  | pick (keys : List String)
  | without (keys : List String)

namespace Selector

def kind : Selector → Container
  | partially => .partially
  | required => .required
  | pick _ => .pick
  | without _ => .without

/-- The keys that are named. -/
def keys : Selector → List String
  | partially | required => []
  | pick ks | without ks => ks

def word : Selector → String
  | partially => "Partial"
  | required => "Required"
  | pick _ => "Pick"
  | without _ => "Omit"

/-- Named keys, as a choice of literals. -/
def choice (ks : List String) : List Char :=
  [' ', '|', ' '].intercalate (ks.map fun k => Json.stringChars false k.toList)

def arguments : Selector → List (List Char)
  | partially | required => []
  | pick ks | without ks => [choice ks]

/-- The selection from a type. -/
def text (sel : Selector) (base : List Char) : List Char :=
  sel.word.toList ++ '<' :: ([',', ' '].intercalate (base :: sel.arguments) ++ ['>'])

/-- The selection asks for a property. -/
def takes (sel : Selector) (key : Scalar) : Bool :=
  match sel with
  | partially | required => true
  | pick ks => key.text?.any ks.contains
  | without ks => !key.text?.any ks.contains

/-- Where keys are named, there is one, and all can be written as literals. -/
def Legible : Selector → Prop
  | partially | required => True
  | pick ks | without ks => ks ≠ [] ∧ ∀ k ∈ ks, ∀ c ∈ k.toList, Literal.isWritable c

/-- But for what is optional, a selection gives the fields that it takes as they are. -/
theorem map_selectFields {α : Type} {g : Field → α} (hg : ∀ f o, g { f with optional := o } = g f)
    (sel : Selector) (fs : List Field) :
    (selectFields sel.kind sel.keys fs).map g = (fs.filter fun f => sel.takes f.key).map g := by
  cases sel with
  | partially | required =>
    have hall : fs.filter (fun _ => true) = fs := filter_true _
    change (fs.map _).map g = (fs.filter fun _ => true).map g
    rw [hall, map_map]
    exact map_congr_left fun f _ => hg f _
  | pick ks | without ks => rfl

theorem isProperty_selectFields (sel : Selector) (h : ∀ f ∈ fs, f.IsProperty) :
    ∀ f ∈ selectFields sel.kind sel.keys fs, f.IsProperty := by
  intro f hf
  cases sel with
  | partially | required =>
    obtain ⟨g, hg, rfl⟩ := mem_map.mp hf
    obtain ⟨k, type, _, rfl⟩ := h g hg
    exact ⟨k, type, _, rfl⟩
  | pick ks | without ks => exact h f (mem_of_mem_filter hf)

section Choice

variable {ks : List String} (hne : ks ≠ []) (hks : ∀ k ∈ ks, ∀ c ∈ k.toList, Literal.isWritable c)
include hks

theorem fragments_choice : ∀ u ∈ ks.map (fun k => Json.stringChars false k.toList),
    Fragment isAtomChar u :=
  forall_mem_map.mpr fun k hk => fragment_stringChars (hks k hk)

include hne

theorem fragment_choice : Fragment isChoiceChar (choice ks) := by
  refine .intercalate (.of_all (forall_mem_of_all rfl)) ⟨' ', rfl, rfl⟩ ?_ (by simpa using hne)
  intro u hu
  refine (fragments_choice hks u hu).mono fun c hc => ?_
  exact isChoiceChar_of_isMeetChar c (isMeetChar_of_isAtomChar c hc)

theorem unwrapParens_choice : unwrapParens (choice ks) = choice ks := by
  have hhead : (choice ks).head? ≠ some '(' := by
    obtain ⟨k, rest, rfl⟩ := exists_cons_of_ne_nil hne
    cases rest with
    | nil => simp [choice, Json.stringChars]
    | cons => simp [choice, Json.stringChars, intercalate_cons_cons]
  rw [unwrapParens, (fragment_choice hne hks).trim_eq, unwrapFrom_eq_self (enclosed?_of_head hhead)]

/-- The keys that are named are read back. -/
theorem selectedKeys_choice : selectedKeys (choice ks) = .ok ks := by
  have hsplit : splitTypes '|' (choice ks) = ks.map fun k => Json.stringChars false k.toList := by
    refine splitTypes_choice fun u hu => ?_
    exact (fragments_choice hks u hu).mono isMeetChar_of_isAtomChar
  have hread : (ks.map fun k => Json.stringChars false k.toList).mapM Literal.read? =
      .ok (ks.map fun k => some (.text k)) := by
    clear hne hsplit
    induction ks with
    | nil => rfl
    | cons k ks ih =>
      rw [forall_mem_cons] at hks
      rw [map_cons, mapM_cons, Literal.read?_stringChars hks.1, ih hks.2, String.ofList_toList]
      rfl
  rw [selectedKeys, unwrapParens_choice hne hks, hsplit, hread]
  refine congrArg Except.ok ?_
  rw [filterMap_map]
  exact filterMap_some

end Choice

theorem isWord_word (sel : Selector) : IsWord sel.word.toList := by
  have hword : ∀ w ∈ ["Partial", "Required", "Pick", "Omit"], Identifier.isName w.toList = true ∧
      w.toList ∉ ["true".toList, "false".toList, "readonly".toList] := by decide
  have hmem : sel.word ∈ ["Partial", "Required", "Pick", "Omit"] := by cases sel <;> simp [word]
  exact ⟨(hword _ hmem).1, (hword _ hmem).2⟩

/-- A selection from a named type is read as it is meant. -/
theorem classify_text {sel : Selector} (h : sel.Legible) {base : List Char}
    (hb : IsReference base) :
    classify (sel.text base) = .ok (.container sel.kind [.text base] sel.keys) := by
  have hbase : Fragment isChoiceChar base := hb.fragment.mono fun c hc =>
    isChoiceChar_of_isMeetChar c (isMeetChar_of_isAtomChar c hc)
  have harguments : ∀ v ∈ base :: sel.arguments, Fragment isChoiceChar v := by
    refine forall_mem_cons.mpr ⟨hbase, ?_⟩
    cases sel with
    | partially | required => exact forall_mem_nil _
    | pick ks | without ks => exact forall_mem_singleton.mpr (fragment_choice h.1 h.2)
  have hcontainer : container? sel.word = some sel.kind := by cases sel <;> rfl
  have harray : (sel.word == "Array" || sel.word == "ReadonlyArray") = false := by cases sel <;> rfl
  have hnull : (sel.word == "NonNullable") = false := by cases sel <;> rfl
  refine classify_genericOf (isWord_word sel) harguments ?_
  rw [genericShape?, generic?_eq (isWord_word sel).name (balanced_comma harguments)]
  dsimp only
  rw [splitTypes_comma harguments, String.ofList_toList, harray, hnull, hcontainer]
  cases sel with
  | partially | required => rfl
  | pick ks | without ks =>
    have hkeys : genericShape?.keys [choice ks] = .ok ks := selectedKeys_choice h.1 h.2
    dsimp only [arguments, kind]
    rw [if_neg Bool.false_ne_true, if_neg Bool.false_ne_true, hkeys]
    rfl

end Selector

end TypeScript

/-! ### Bases -/

namespace Catalogue

/-- One interface extends another. -/
def Extends (c : Catalogue) (a b : String) : Prop := ∃ d, c.find? (.text a) = some d ∧ b ∈ d.bases

/-- A declaration has a field of its own. -/
def HasKey (c : Catalogue) (a : String) (key : Scalar) : Prop :=
  ∃ d, c.find? (.text a) = some d ∧ key ∈ d.fields.map Field.key

/-- A declaration has a field of its own or from what it extends. -/
def HasProperty (c : Catalogue) (a : String) (key : Scalar) : Prop :=
  ∃ b, Relation.ReflTransGen c.Extends a b ∧ c.HasKey b key

theorem hasProperty_iff {c : Catalogue} {a : String} {key : Scalar} :
    c.HasProperty a key ↔
      c.HasKey a key ∨ ∃ b, Relation.TransGen c.Extends a b ∧ c.HasKey b key := by
  constructor
  · intro ⟨b, hab, hb⟩
    rcases Relation.reflTransGen_iff_eq_or_transGen.mp hab with rfl | hab
    · exact .inl hb
    · exact .inr ⟨b, hab, hb⟩
  · intro h
    rcases h with ha | ⟨b, hab, hb⟩
    · exact ⟨a, .refl, ha⟩
    · exact ⟨b, hab.to_reflTransGen, hb⟩

end Catalogue

/-! ### Mapped selections -/

namespace Target.JsonSchema

/-- The properties of an object are its fields, if their keys are different texts. -/
theorem keysAt_object {ms : List (MappedField Value)} {v : Value} {keys : List String}
    (hkeys : ms.map (fun m => m.field.key) = keys.map .text) (hnodup : keys.Nodup)
    (h : object ms none = .ok v) : v.keysAt ["properties"] = ms.map fun m => m.field.key := by
  obtain ⟨properties, hproperties, hv⟩ := bind_eq_ok.mp h
  have hnames : properties.map Prod.fst = ms.map fun m => m.field.key := by
    have hall := forall₂_of_mapM hproperties
    clear hproperties hkeys hv h
    induction hall with
    | nil => rfl
    | cons hm _ ih =>
      obtain ⟨_, _, hm⟩ := bind_eq_ok.mp hm
      cases hm
      rw [map_cons, map_cons, ih]
  have hentries := Value.ofEntries_eq_self (hnames.trans hkeys) hnodup
  cases hv
  rw [hentries, ← hnames]
  rfl

/-- Fields of an interface always make an object. -/
theorem decides_properties {ms : List (MappedField Value)} (hfs : ∀ f ∈ fs, f.IsProperty)
    (hnodup : (fs.map Field.key).Nodup) (hms : ms.map MappedField.field = fs)
    (hnodes : ∀ m ∈ ms, IsNode m.expression) :
    Decides True (fun v => v.keysAt ["properties"] = fs.map Field.key) (object ms none) := by
  have hobject := decides_object hnodes none
  rw [hms, admits_properties hfs] at hobject
  cases hv : object ms none with
  | error f =>
    rw [hv] at hobject
    exact absurd rfl hobject
  | ok v =>
    refine ⟨trivial, ?_⟩
    obtain ⟨names, hnames⟩ := Field.exists_keys hfs
    have hkeys : ms.map (fun m => m.field.key) = fs.map Field.key := by
      rw [← hms, map_map]
      rfl
    rw [hnames] at hnodup hkeys ⊢
    rw [keysAt_object hkeys hnodup.of_map hv, hkeys]

end Target.JsonSchema

namespace Conversion

open TypeScript (Selector IsReference)

/-- The schema of a type that stands within other types, if that can be written. -/
def schemaOf (s : Settings) (doc : Document) (site : Site) (budget : Nat) (ancestors : List Scalar)
    (type : Raw) : Except Fault Value :=
  (((scriptNodes s).mappingOf doc).mapType site doc.catalogue.names budget
    ancestors type).result

theorem decides_schemaOf (s : Settings) (doc : Document) (site : Site) (budget : Nat)
    (ancestors : List Scalar) (type : Raw) :
    Decides (∃ v, schemaOf s doc site budget ancestors type = .ok v) Target.JsonSchema.IsNode
      (schemaOf s doc site budget ancestors type) := by
  have hrenderer := Target.JsonSchema.decided Target.JsonSchema.definitionsStart
    ((scriptNodes s).rootName doc.catalogue)
  have hlevel : ∀ a p, Decides _ _ (schemaOf s doc site budget a p) :=
    (Mapping.decides_level (m := (scriptNodes s).mappingOf doc) hrenderer
      (describesByText_mappingOf _ doc) (fun _ h => h) budget).1
  exact (hlevel ancestors type).of_exists

section Selections

variable {s : Settings} {doc : Document} {b : String} {d : Declaration} {sel : Selector}
  (hb : IsReference b.toList) (hd : doc.catalogue.find? (.text b) = some d)
  (hobject : d.isObject = true) (hsel : sel.Legible)
include hb hd hobject hsel

/-- A selection from an interface becomes an object with fields of the interface itself. -/
theorem mapType_selection (site : Site) (budget : Nat) (ancestors : List Scalar) :
    ((scriptNodes s).mappingOf doc).mapType site doc.catalogue.names
        (budget + 1) ancestors (.text (sel.text b.toList)) = (do
      let mapped ← Mapping.mapFields (fun f => ((scriptNodes s).mappingOf doc).mapType site
        doc.catalogue.names budget (.text b :: ancestors) f.type)
        (selectFields sel.kind sel.keys d.fields)
      Logged.lift (Target.JsonSchema.object mapped none)) := by
  have hselection : sel.kind.isSelection = true := by cases sel <;> rfl
  have hgrammar (cs : List Char) : ((scriptNodes s).mappingOf doc).grammar.classify
      ((scriptNodes s).mappingOf doc).scope (.text cs) = TypeScript.classify cs := rfl
  have hclassify := (hgrammar _).trans (Selector.classify_text hsel hb)
  have hbase := (hgrammar _).trans hb.classify_eq
  rw [String.ofList_toList] at hbase
  have hknown : .text b ∈ doc.catalogue.names :=
    mem_map.mpr ⟨d, mem_of_find?_eq_some hd, by simpa using find?_some hd⟩
  have hdeclared : ((scriptNodes s).mappingOf doc).catalogue.isObject (.text b) = true := by
    change (doc.catalogue.find? (.text b)).any Declaration.isObject = true
    rw [hd]
    exact hobject
  have hfields : ((((scriptNodes s).mappingOf doc).catalogue.find? (.text b)).map
      Declaration.fields).getD [] = d.fields := by
    change ((doc.catalogue.find? (.text b)).map Declaration.fields).getD [] = _
    rw [hd]
    rfl
  rw [Mapping.mapType_succ, hclassify, Logged.lift_ok, pure_bind,
    Mapping.shape_selection hselection,
    Mapping.selection_expanded hbase hknown (.inr (.inr rfl)), hdeclared, hfields]
  rfl

/-- The selection can be written exactly if the types of all fields that are taken can, and then has
these fields. -/
theorem schemaOf_selection (hproperties : ∀ f ∈ d.fields, f.IsProperty)
    (hnodup : (d.fields.map Field.key).Nodup) (site : Site) (budget : Nat)
    (ancestors : List Scalar) :
    ((∃ v, schemaOf s doc site (budget + 1) ancestors (.text (sel.text b.toList)) = .ok v) ↔
      ∀ f ∈ d.fields, sel.takes f.key = true →
        ∃ v, schemaOf s doc site budget (.text b :: ancestors) f.type = .ok v) ∧
    ∀ v, schemaOf s doc site (budget + 1) ancestors (.text (sel.text b.toList)) = .ok v →
      v.keysAt ["properties"] = (d.fields.map Field.key).filter sel.takes := by
  have hkeys : (selectFields sel.kind sel.keys d.fields).map Field.key =
      (d.fields.map Field.key).filter sel.takes := by
    rw [Selector.map_selectFields (fun _ _ => rfl), filter_map]
    rfl
  have hselected := Selector.isProperty_selectFields sel hproperties
  have hfields := Mapping.decides_mapFields
    (decides_schemaOf s doc site budget (.text b :: ancestors))
    (selectFields sel.kind sel.keys d.fields)
  have hdecides := hfields.bindLogged (q := True) (g := fun ms => Logged.lift
      (Target.JsonSchema.object ms none)) fun ms hms => by
    refine Target.JsonSchema.decides_properties hselected ?_ hms.1 fun m hm => (hms.2 m hm).1
    rw [hkeys]
    exact hnodup.filter _
  rw [hkeys] at hdecides
  rw [schemaOf, mapType_selection hb hd hobject hsel]
  refine ⟨hdecides.exists_iff.trans ((and_iff_left trivial).trans ?_),
    fun v hv => hdecides.of_ok hv⟩
  rw [Field.typesAll_properties hselected, Selector.map_selectFields (fun _ _ => rfl)]
  simp only [forall_mem_map, mem_filter, and_imp]

end Selections

end Conversion

namespace Converter

open Conversion
open TypeScript (Selector IsReference)

/-- A selection from an interface takes from the fields of the interface itself, and can be written
if their types can. So its properties are those of the interface and of all that it extends exactly
if none that is asked for is only in one that is extended. -/
theorem selected_properties_iff {c : Converter} (hc : find? "ts-to-json-schema" = some c)
    (s : Settings) {source : List Char} {doc : Document}
    (hdoc : (TypeScript.extract source).result = .ok doc) {b : String} (hb : IsReference b.toList)
    {d : Declaration} (hd : doc.catalogue.find? (.text b) = some d)
    (hobject : d.isObject = true) (hnodup : (d.fields.map Field.key).Nodup) {sel : Selector}
    (hsel : sel.Legible) (site : Site) (budget : Nat) (ancestors : List Scalar) :
    (c.withSettings s).conversion = scriptNodes s ∧
    ((∃ v, schemaOf s doc site (budget + 1) ancestors (.text (sel.text b.toList)) = .ok v) ↔
      ∀ f ∈ d.fields, sel.takes f.key = true →
        ∃ v, schemaOf s doc site budget (.text b :: ancestors) f.type = .ok v) ∧
    ∀ v, schemaOf s doc site (budget + 1) ancestors (.text (sel.text b.toList)) = .ok v →
      v.keysAt ["properties"] = (d.fields.map Field.key).filter sel.takes ∧
      ((∀ k, k ∈ v.keysAt ["properties"] ↔
          doc.catalogue.HasProperty b k ∧ sel.takes k = true) ↔
        ∀ a k, Relation.TransGen doc.catalogue.Extends b a →
          doc.catalogue.HasKey a k → sel.takes k = true →
          k ∈ d.fields.map Field.key) := by
  have hmem : d ∈ doc.catalogue.declarations := mem_of_find?_eq_some hd
  have hproperties := TypeScript.isProperty_extract hdoc (Catalogue.mem_of_mem_ofList hmem)
  have hown (k : Scalar) : doc.catalogue.HasKey b k ↔
      k ∈ d.fields.map Field.key := by
    simp only [Catalogue.HasKey, hd, Option.some.injEq, exists_eq_left']
  have hselection := schemaOf_selection (s := s) hb hd hobject hsel hproperties hnodup site budget
    ancestors
  refine ⟨?_, hselection.1, fun v hv => ?_⟩
  · simp only [find?, all, find?_cons, String.reduceBEq] at hc
    cases hc
    rfl
  · have hkeys := hselection.2 v hv
    refine ⟨hkeys, ?_⟩
    simp only [hkeys, mem_filter, Catalogue.hasProperty_iff, hown]
    constructor
    · intro h a k hba ha hk
      exact ((h k).mpr ⟨.inr ⟨a, hba, ha⟩, hk⟩).1
    · intro h k
      refine and_congr_left fun hk => ⟨.inl, fun hor => hor.elim id ?_⟩
      rintro ⟨a, hba, ha⟩
      exact h a k hba ha hk

/-- An interface that extends another. -/
def extendedInterface : List Char :=
  "interface A \x7b a: string \x7d interface B extends A \x7b b: number \x7d".toList

def extendedInterfaceDocument : Document :=
  { declarations := [
      { name := .text "A", body := .object [{ key := .text "a", type := .text "string".toList }] },
      { name := .text "B", body := .object [{ key := .text "b", type := .text "number".toList }],
        bases := ["A"] }] }

theorem extract_extendedInterface :
    (TypeScript.extract extendedInterface).result = .ok extendedInterfaceDocument := by
  with_unfolding_all rfl

/-- The property of the interface that is extended is missing. -/
theorem extendedInterface_property_missing :
    ∃ c doc d v, find? "ts-to-json-schema" = some c ∧
      (TypeScript.extract extendedInterface).result = .ok doc ∧
      doc.catalogue.find? (.text "B") = some d ∧
      schemaOf {} doc {} 2 [] (.text "Partial<B>".toList) = .ok v ∧
      v.keysAt ["properties"] = [.text "b"] ∧
      doc.catalogue.HasProperty "B" (.text "a") := by
  have hc : find? "ts-to-json-schema" = some all[1] := rfl
  have hd : extendedInterfaceDocument.catalogue.find? (.text "B") =
      extendedInterfaceDocument.declarations[1]? := rfl
  have hb : IsReference "B".toList := ⟨⟨by decide, by decide⟩, by decide⟩
  have hall := selected_properties_iff hc {} extract_extendedInterface hb hd rfl (by decide)
    (show Selector.partially.Legible from trivial) {} 1 []
  have htypes (f : Field) (hf : f ∈ [{ key := .text "b", type := .text "number".toList }]) :
      ∃ v, schemaOf {} extendedInterfaceDocument {} 1 [.text "B"] f.type = .ok v := by
    cases mem_singleton.mp hf
    exact exists_eq_ok (by decide +kernel)
  obtain ⟨v, hv⟩ := hall.2.1.mpr fun f hf _ => htypes f hf
  have htext : Selector.partially.text "B".toList = "Partial<B>".toList := by decide
  have hkeys : v.keysAt ["properties"] = [.text "b"] := (hall.2.2 v hv).1.trans (by decide)
  rw [htext] at hv
  refine ⟨_, _, _, v, hc, extract_extendedInterface, hd, hv, hkeys, "A", ?_, ?_⟩
  · exact .single ⟨_, hd, mem_singleton_self _⟩
  · exact ⟨_, rfl, mem_singleton_self _⟩

end Converter

end Crosswalk
