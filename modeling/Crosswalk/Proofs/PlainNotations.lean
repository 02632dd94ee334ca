import Crosswalk.Proofs.ClassifiedShapes

/-!
What is declared in TypeScript, SQL and Zod sources. Values in them are literals, so they are plain,
and declarations have textual names.
-/

namespace Crosswalk

open List

variable {α β : Type} {d : Declaration} {doc : Document} {body : List Char}

theorem foldlM_invariant {f : β → α → Except Fault β} {P : β → Prop} {as : List α}
    (step : ∀ a ∈ as, ∀ b b', P b → f b a = .ok b' → P b') {b b' : β} (hb : P b)
    (h : as.foldlM f b = .ok b') : P b' := by
  induction as generalizing b with
  | nil =>
    cases h
    exact hb
  | cons a as ih =>
    rw [forall_mem_cons] at step
    obtain ⟨middle, hmiddle, h⟩ := bind_eq_ok.mp h
    exact ih step.2 (step.1 b middle hb hmiddle) h

theorem forall_mem_of_mapM {f : α → Except Fault β} {P : β → Prop} {as : List α} {bs : List β}
    (h : as.mapM f = .ok bs) (hf : ∀ a ∈ as, ∀ b, f a = .ok b → P b) : ∀ b ∈ bs, P b := by
  intro b hb
  obtain ⟨a, ha, hab⟩ := exists_mem_of_forall₂ (forall₂_of_mapM h) hb
  exact hf a ha b hab

/-- A declaration with a textual name whose values are plain. -/
structure Declaration.Regular (written : String → Prop) (d : Declaration) : Prop where
  named : ∃ n, d.name = .text n
  plain : d.Plain written

/-! ### TypeScript -/

namespace TypeScript

theorem plain_fields {fs : List Field} {index : Option (List Char)}
    (h : fields body = .ok (fs, index)) :
    ∀ f ∈ fs, f.Plain :=
  fun f hf => (((ensures_fields (E := fun _ => False) body).holds h).1 f hf).plain

theorem regular_object {name : String} {fs : List Field} {bases : List String}
    (index : Option (List Char)) (hfs : ∀ f ∈ fs, f.Plain) :
    Declaration.Regular anyName
      { name := .text name, body := .object fs, bases, attributes := additional index } := by
  refine ⟨⟨name, rfl⟩, hfs, fun _ _ => trivial, ?_⟩
  intro v hv
  cases index <;> simp [Declaration.description?, additional] at hv

/-- What is read at a head: an object with the fields of a body, an alias or an enumeration. -/
inductive Announced : Declaration → Prop
  | object {body : List Char} {fs : List Field} {index : Option (List Char)}
      (name : String) (bases : List String) (h : fields body = .ok (fs, index)) :
      Announced { name := .text name, body := .object fs, bases, attributes := additional index }
  | synonym (name : String) (body : List Char) :
      Announced { name := .text name, body := .synonym (.text body) }
  | enumeration (name : String) (body : List Char) :
      Announced { name := .text name, body := .enumeration (.text body) }

theorem Announced.regular (h : Announced d) : d.Regular anyName := by
  cases h with
  | object name bases h => exact regular_object _ (plain_fields h)
  | synonym | enumeration =>
    exact ⟨⟨_, rfl⟩, by simp [Declaration.fields], by simp, by simp [Declaration.description?]⟩

theorem announced_braced {name : List Char} {p next : Text.Place}
    {make : List Char → Except Fault Declaration}
    (hmake : ∀ body d, make body = .ok d → Announced d)
    (h : braced name p make = .ok (some (.ok d), next)) : Announced d := by
  unfold braced at h
  split at h
  · cases h
  · obtain ⟨d', hd', h⟩ := bind_eq_ok.mp h
    cases h
    exact hmake _ _ hd'

theorem announced_aliasDeclaration {name : List Char} {p next : Text.Place}
    (h : aliasDeclaration name p = .ok (some (.ok d), next)) : Announced d := by
  simp only [aliasDeclaration] at h
  split at h
  · cases h
  split at h
  · cases h
  split at h
  · obtain ⟨⟨fs, index⟩, hfields, h⟩ := bind_eq_ok.mp h
    cases h
    exact .object _ _ hfields
  · cases h
    exact .synonym _ _

theorem announced_declaration {m : Text.Pattern.Found} {next : Text.Place}
    (h : declaration m = .ok (some (.ok d), next)) : Announced d := by
  unfold declaration at h
  split at h
  · apply announced_braced _ h
    intro body d' hd'
    obtain ⟨⟨fs, index⟩, hfields, hd'⟩ := bind_eq_ok.mp hd'
    cases hd'
    exact .object _ _ hfields
  split at h
  · exact announced_aliasDeclaration h
  · apply announced_braced _ h
    intro body d' hd'
    cases hd'
    exact .enumeration _ _

theorem announced_findingsFrom {fuel : Nat} {p : Text.Place} {found all : List Finding}
    (hfound : ∀ f ∈ found, ∀ d, f = .ok d → Announced d)
    (h : findingsFrom found fuel p = .ok all) : ∀ f ∈ all, ∀ d, f = .ok d → Announced d := by
  induction fuel generalizing found p with
  | zero =>
    cases h
    intro f hf
    exact hfound f (mem_reverse.mp hf)
  | succ fuel ih =>
    rw [findingsFrom] at h
    split at h
    · cases h
      intro f hf
      exact hfound f (mem_reverse.mp hf)
    · split at h
      · cases h
      · rename_i finding next hnext
        apply ih _ h
        intro f hf d hd
        rcases mem_append.mp hf with hf | hf
        · rw [Option.mem_toList.mp hf, hd] at hnext
          exact announced_declaration hnext
        · exact hfound f hf d hd

theorem announced_extract {source : List Char} (h : (extract source).result = .ok doc) :
    ∀ d ∈ doc.declarations, Announced d := by
  obtain ⟨found, hfound, h⟩ := result_bind_eq_ok.mp h
  obtain ⟨ds, hds, h⟩ := result_bind_eq_ok.mp h
  cases h
  cases hds
  intro d hd
  obtain ⟨f, hf, hfd⟩ := mem_filterMap.mp hd
  have hok : f = .ok d := by
    cases f with
    | error e => cases hfd
    | ok d' =>
      cases hfd
      rfl
  exact announced_findingsFrom (by simp) hfound f hf d hok

theorem regular_extract {source : List Char} (h : (extract source).result = .ok doc) :
    ∀ d ∈ doc.declarations, d.Regular anyName :=
  fun d hd => (announced_extract h d hd).regular

end TypeScript

/-! ### SQL -/

namespace Sql

theorem isPlain_defaultOf {c : Column} {text : Option String} {attributes : List FieldAttribute}
    (h : defaultOf c = .ok (text, attributes)) {v : Value} (hv : .default v ∈ attributes) :
    v.isPlain := by
  unfold defaultOf at h
  split at h
  · cases h
    simp at hv
  · split at h
    · cases h
      simp at hv
    · obtain ⟨known, hknown, h⟩ := bind_eq_ok.mp h
      cases h
      simp only [Option.mem_toList, Option.map_eq_some_iff, FieldAttribute.default.injEq,
        exists_eq_right] at hv
      split at hv
      · cases hv
        rfl
      · split at hv
        · cases hv
          rfl
        · exact (Literal.ensures_read? _).holds hknown v hv

theorem plain_field {primary unique : Bool} {c : Column} {f : Field}
    (h : c.field primary unique = .ok f) : f.Plain := by
  obtain ⟨⟨text, attributes⟩, hdefault, h⟩ := bind_eq_ok.mp h
  cases h
  apply Field.plain_of_attributes
  intro v hv
  have hflag {b : Bool} {a : FieldAttribute} (ha : a ≠ .default v) :
      .default v ∉ if b then [a] else [] := by
    split <;> simp [ha.symm]
  simp only [mem_append] at hv
  rcases hv with ((hv | hv) | hv) | hv
  · exact absurd hv (hflag (by simp))
  · exact absurd hv (hflag (by simp))
  · exact absurd hv (hflag (by simp))
  · exact isPlain_defaultOf hdefault hv

theorem regular_table {name : List Char} (h : table name body = .ok d) : d.Regular anyName := by
  obtain ⟨fields, hfields, h⟩ := bind_eq_ok.mp h
  cases h
  refine ⟨⟨_, rfl⟩, ?_, fun _ _ => trivial, by simp [Declaration.description?]⟩
  exact forall_mem_of_mapM hfields fun c _ f hf => plain_field hf

theorem regular_enumeration {name : List Char} (h : enumeration name body = .ok d) :
    d.Regular anyName := by
  cases h
  exact ⟨⟨_, rfl⟩, by simp [Declaration.fields], by simp, by simp [Declaration.description?]⟩

/-- What is read comes from a head and the parentheses after it. -/
theorem exists_of_mem_readAll {heads : List Text.Pattern.Found}
    {make : List Char → List Char → Except Fault Declaration} {found : List (Nat × Declaration)}
    (h : (Document.readAll heads fun m => parenthesized m make).result = .ok found)
    {e : Nat × Declaration} (he : e ∈ found) :
    ∃ m ∈ heads, ∃ body rest, group? ('(' :: m.stop.rest) = some (body, rest) ∧
      make (m.getD 1) body = .ok e.2 := by
  obtain ⟨parts, hparts, h⟩ := result_bind_eq_ok.mp h
  cases h
  rw [Logged.result_mapM] at hparts
  obtain ⟨part, hpart, he⟩ := mem_flatten.mp he
  obtain ⟨m, hmem, hm⟩ := exists_mem_of_forall₂ (forall₂_of_mapM hparts) hpart
  obtain ⟨⟨place, finding⟩, hfinding, hm⟩ := result_bind_eq_ok.mp hm
  obtain ⟨kept, hkept, hm⟩ := result_bind_eq_ok.mp hm
  cases hm
  cases hkept
  cases finding with
  | error diagnostic => simp [Except.toOption] at he
  | ok d =>
    cases mem_singleton.mp he
    simp only [Logged.result_lift, parenthesized] at hfinding
    split at hfinding
    case h_1 => cases hfinding
    case h_2 body rest hgroup =>
      obtain ⟨d', hd', hfinding⟩ := bind_eq_ok.mp hfinding
      cases hfinding
      exact ⟨m, hmem, body, rest, hgroup, hd'⟩

/-- What a source declares: an enumeration or a table, with its head and the parentheses after
it. -/
theorem exists_of_mem_extract {source : List Char} (h : (extract source).result = .ok doc)
    (hd : d ∈ doc.declarations) :
    (∃ name body, enumeration name body = .ok d) ∨
      ∃ m ∈ tableHead.all (commentMarks.strip source), ∃ body rest,
        group? ('(' :: m.stop.rest) = some (body, rest) ∧ table (m.getD 1) body = .ok d := by
  obtain ⟨enums, henums, h⟩ := result_bind_eq_ok.mp h
  obtain ⟨tables, htables, h⟩ := result_bind_eq_ok.mp h
  cases h
  obtain ⟨e, he, rfl⟩ := mem_map.mp hd
  rcases mem_append.mp (mem_mergeSort.mp he) with he | he
  · obtain ⟨m, _, body, _, _, hd⟩ := exists_of_mem_readAll henums he
    exact Or.inl ⟨_, body, hd⟩
  · exact Or.inr (exists_of_mem_readAll htables he)

/-- Everything that is declared is an enumeration or a table. -/
theorem forall_extract {P : Declaration → Prop}
    (henumeration : ∀ name body d, enumeration name body = .ok d → P d)
    (htable : ∀ name body d, table name body = .ok d → P d) {source : List Char}
    (h : (extract source).result = .ok doc) : ∀ d ∈ doc.declarations, P d := by
  intro d hd
  obtain ⟨name, body, henum⟩ | ⟨m, _, body, _, _, hbody⟩ := exists_of_mem_extract h hd
  · exact henumeration name body d henum
  · exact htable (m.getD 1) body d hbody

theorem regular_extract {source : List Char} (h : (extract source).result = .ok doc) :
    ∀ d ∈ doc.declarations, d.Regular anyName :=
  forall_extract (fun _ _ _ => regular_enumeration) (fun _ _ _ => regular_table) h

end Sql

/-! ### Zod -/

namespace Zod

theorem regular_constant {m : Text.Pattern.Found} (h : constant m = .ok d) : d.Regular isGiven := by
  simp only [constant] at h
  split at h
  · obtain ⟨fs, hfs, h⟩ := bind_eq_ok.mp h
    cases h
    exact ⟨⟨_, rfl⟩, fun f hf => ((ensures_fields _).holds hfs f hf).plain, by simp,
      by simp [Declaration.description?]⟩
  · cases h
    exact ⟨⟨_, rfl⟩, by simp [Declaration.fields], by simp, by simp [Declaration.description?]⟩

theorem regular_procedure? {chunk : List Char} (h : procedure? chunk = some d) :
    d.Regular isGiven := by
  obtain ⟨⟨name, rest⟩, _, h⟩ := Option.bind_eq_some_iff.mp h
  dsimp only at h
  split at h
  · obtain ⟨kind, _, h⟩ := Option.bind_eq_some_iff.mp h
    cases h
    exact ⟨⟨_, rfl⟩, by simp [Declaration.fields], by simp, by simp [Declaration.description?]⟩
  · cases h

theorem regular_procedures {cs : List Char} {ds : List Declaration}
    (h : (procedures cs).result = .ok ds) : ∀ d ∈ ds, d.Regular isGiven := by
  unfold procedures at h
  split at h
  · cases h
    simp
  · split at h
    · cases h
      simp
    · cases h
      intro d hd
      obtain ⟨chunk, _, hchunk⟩ := mem_filterMap.mp hd
      exact regular_procedure? hchunk

theorem regular_extract {source : List Char} (h : (extract source).result = .ok doc) :
    ∀ d ∈ doc.declarations, d.Regular isGiven := by
  obtain ⟨constants, hconstants, h⟩ := result_bind_eq_ok.mp h
  obtain ⟨found, hfound, h⟩ := result_bind_eq_ok.mp h
  cases h
  refine forall_mem_append.mpr ⟨?_, regular_procedures hfound⟩
  exact forall_mem_of_mapM hconstants fun _ _ _ => regular_constant

end Zod

end Crosswalk
