import Crosswalk.Proofs.MemberLines
import Crosswalk.Proofs.ScriptShapes

/-!
The lines of an object type: a field is read from the line that was written for it, whatever its
key, its type and the indentation of its lines.
-/

namespace Crosswalk

open List
open String (ofList)
open Target.TypeScript (fieldLines indexLines)
open Member (keyChars optionalMark isReadableKey keyChars_cases isKeyChar fieldLine
  field?_fieldLine piece_line piece_fieldLine head?_fieldLine foldlM_eq)

namespace TypeScript

/-- Characters at the top level of a line. -/
def isLineChar (c : Char) : Bool := isChoiceChar c || c == '?' || c == ':'

theorem isLineChar_of_isKeyChar (c : Char) (h : isKeyChar c) : isLineChar c := by
  simp only [isKeyChar, Bool.or_eq_true] at h
  rcases h with h | h
  · simp [isLineChar, isChoiceChar, isMeetChar, isAtomChar, h]
  · simp [isLineChar, h]

theorem isLineChar_of_isChoiceChar (c : Char) (h : isChoiceChar c) : isLineChar c := by
  simp [isLineChar, h]

/-- What stands for the keys of an index signature. -/
def indexKey : List Char := '[' :: ("key: string".toList ++ [']'])

def indexLine (type : List Char) : List Char := indexKey ++ ':' :: ' ' :: type

variable {ok : Char → Bool} {k : String} {type pad closing : List Char}

theorem balanced_indexKey : Balanced ok indexKey :=
  .group .bracket (by decide) (.of_all (forall_mem_of_all rfl)) .nil

theorem indexType?_indexLine (htype : Fragment isChoiceChar type) :
    Member.indexType? everyOpener (indexLine type) = some type := by
  have hne : type.isEmpty = false := by simpa using htype.ne_nil
  have hkey : Balanced isAtomChar indexKey := balanced_indexKey
  rw [Member.indexType?, indexLine, splitFirstTop_colon hkey rfl (by decide) htype.toSegment]
  simp [hne]

theorem segment_fieldLine {m : Term.Member} (hk : isReadableKey m.key)
    (htype : Fragment isChoiceChar type) : Segment isLineChar (fieldLine m type) :=
  piece_fieldLine hk isLineChar_of_isKeyChar rfl rfl
    (htype.toSegment.mono isLineChar_of_isChoiceChar)

theorem segment_indexLine (htype : Fragment isChoiceChar type) :
    Segment isLineChar (indexLine type) :=
  piece_line balanced_indexKey ⟨'[', rfl, rfl⟩ rfl rfl
    (htype.toSegment.mono isLineChar_of_isChoiceChar)

/-! ### Bodies -/

/-- The lines of an object whose types are indented by `pad`. -/
def objectLines (pad : List Char) (ps : List (Term.Member × List Char))
    (index : Option (List Char)) : List (List Char) :=
  ps.map (fun p => fieldLine p.1 (reindent pad p.2)) ++
    (index.map fun t => indexLine (reindent pad t)).toList

/-- An object over several lines, closed behind the indentation `outer`. -/
def objectChars (outer pad : List Char) (ps : List (Term.Member × List Char))
    (index : Option (List Char)) : List Char :=
  '{' :: ((lineBlock pad ';' (objectLines pad ps index) ++ '\n' :: outer) ++ ['}'])

/-- Keys and types that can be read back from their lines. -/
structure Legible (ps : List (Term.Member × List Char)) (index : Option (List Char)) : Prop where
  keys : ∀ p ∈ ps, isReadableKey p.1.key = true
  types : ∀ p ∈ ps, Fragment isChoiceChar p.2
  index : ∀ t ∈ index, Fragment isChoiceChar t

variable {ps : List (Term.Member × List Char)} {index : Option (List Char)}

section Lines

variable (h : Legible ps index) (hpad : ∀ c ∈ pad, c = ' ')
include h hpad

theorem segment_objectLines : ∀ l ∈ objectLines pad ps index, Segment isLineChar l := by
  intro l hl
  rcases mem_append.mp hl with hl | hl
  · obtain ⟨p, hp, rfl⟩ := mem_map.mp hl
    exact segment_fieldLine (h.keys p hp) ((h.types p hp).reindent hpad fun _ => rfl)
  · obtain ⟨t, ht, rfl⟩ := Option.mem_map.mp (Option.mem_toList.mp hl)
    exact segment_indexLine ((h.index t ht).reindent hpad fun _ => rfl)

theorem lines_eq (hclosing : ∀ c ∈ closing, c = ' ') :
    Member.lines everyOpener separators
      (lineBlock pad ';' (objectLines pad ps index) ++ '\n' :: closing) =
      objectLines pad ps index := by
  have hlines := segment_objectLines h hpad
  rw [Member.lines, splitTopNonempty_lineBlock (by rfl) hpad hclosing (by decide)
    (by decide) hlines, joinContinuations_eq hlines]

/-- The fields of a body are those it was written from. -/
theorem fields_eq (hclosing : ∀ c ∈ closing, c = ' ') :
    fields (lineBlock pad ';' (objectLines pad ps index) ++ '\n' :: closing) = .ok
      (ps.map (fun p => p.1.field (.text (reindent pad p.2))), index.map (reindent pad)) := by
  rw [fields, Member.readBody, lines_eq h hpad hclosing, objectLines, foldlM_append]
  rw [foldlM_eq (fun p => p.1.field (.text (reindent pad p.2))) ?_]
  · cases index with
    | none => simp [Bind.bind, Except.bind, Pure.pure, Except.pure]
    | some t =>
      have hindex := indexType?_indexLine ((h.index t rfl).reindent hpad fun _ => rfl)
      simp only [Option.map_some, Option.toList_some, foldlM_cons, foldlM_nil, hindex,
        Bind.bind, Except.bind]
      simp [indexLine, indexKey, Pure.pure, Except.pure]
  · intro p hp acc
    have hfield :=
      field?_fieldLine (h.keys p hp) ((h.types p hp).reindent hpad fun _ => rfl).toSegment
    rw [if_neg (by simpa using head?_fieldLine (h.keys p hp)), hfield]
    rfl

end Lines

theorem balanced_lineBlock {ls : List (List Char)} (hls : ∀ l ∈ ls, Segment ok l)
    (hpad : ∀ c ∈ pad, c = ' ') : Balanced (fun _ => true) (lineBlock pad ';' ls) := by
  induction ls with
  | nil => exact .nil
  | cons l ls ih =>
    obtain ⟨hl, hls⟩ := forall_mem_cons.mp hls
    have hline : Balanced (fun _ => true) l := hl.balanced.mono fun _ _ => rfl
    refine .append (.plain rfl rfl ?_) (ih hls)
    exact (balanced_spaces rfl hpad).append (hline.append (.plain rfl rfl .nil))

theorem reindent_lineBlock (outer : List Char) {ls : List (List Char)} (hpad : ∀ c ∈ pad, c = ' ') :
    reindent outer (lineBlock pad ';' ls) =
      lineBlock (outer ++ pad) ';' (ls.map (reindent outer)) := by
  have hnewline : '\n' ∉ pad := fun hmem => absurd (hpad _ hmem) (by decide)
  induction ls with
  | nil => rfl
  | cons l ls ih =>
    have hsep : reindent outer [';'] = [';'] := rfl
    rw [lineBlock, flatMap_cons, reindent_append, reindent_newline, reindent_append,
      reindent_eq_self hnewline, reindent_append, hsep]
    simp only [lineBlock, map_cons, flatMap_cons] at ih ⊢
    rw [ih, append_assoc]

theorem newline_notMem_key (hk : isReadableKey k) (optional : Bool) :
    '\n' ∉ keyChars k ++ optionalMark optional := by
  rw [mem_append, not_or]
  refine ⟨?_, by cases optional <;> decide⟩
  rcases keyChars_cases hk with ⟨c, rest, hcs, -, hpart⟩ | ⟨body, hcs, hbody⟩
  · rw [hcs]
    intro hmem
    cases hpart '\n' hmem
  · rw [hcs]
    simpa using hbody.newline_notMem

theorem reindent_fieldLine {m : Term.Member} (hk : isReadableKey m.key) :
    reindent pad (fieldLine m type) = fieldLine m (reindent pad type) := by
  rw [fieldLine, reindent_append, reindent_eq_self (newline_notMem_key hk _),
    reindent_cons (by decide), reindent_cons (by decide), fieldLine]

theorem reindent_indexLine : reindent pad (indexLine type) = indexLine (reindent pad type) := by
  rw [indexLine, reindent_append, reindent_eq_self (by decide), reindent_cons (by decide),
    reindent_cons (by decide), indexLine]

/-- Indenting an object indents its lines, those of its types and its end. -/
theorem reindent_objectChars (h : Legible ps index) (outer : List Char)
    (hpad : ∀ c ∈ pad, c = ' ') :
    reindent outer (objectChars [] pad ps index) = objectChars outer (outer ++ pad) ps index := by
  have hnewline : '\n' ∉ pad := fun hmem => absurd (hpad _ hmem) (by decide)
  have hlines : (objectLines pad ps index).map (reindent outer) =
      objectLines (outer ++ pad) ps index := by
    rw [objectLines, map_append, map_map, ← Option.toList_map, Option.map_map, objectLines]
    congr 1
    · refine map_congr_left fun p hp => ?_
      rw [Function.comp_apply, reindent_fieldLine (h.keys p hp), reindent_reindent hnewline]
    · congr 2
      funext t
      rw [Function.comp_apply, reindent_indexLine, reindent_reindent hnewline]
  rw [objectChars, reindent_cons (by decide), reindent_append, reindent_append,
    reindent_lineBlock outer hpad, hlines, reindent_newline, objectChars]
  simp [reindent]

theorem balanced_body (h : Legible ps index) {outer : List Char} (houter : ∀ c ∈ outer, c = ' ')
    (hpad : ∀ c ∈ pad, c = ' ') :
    Balanced (fun _ => true) (lineBlock pad ';' (objectLines pad ps index) ++ '\n' :: outer) :=
  (balanced_lineBlock (segment_objectLines h hpad) hpad).append
    (.plain rfl rfl (balanced_spaces rfl houter))

section Braces

variable {body : List Char} (hbody : Balanced (fun _ => true) body)
include hbody

theorem bare_braces : Bare isAtomChar ('{' :: (body ++ ['}'])) :=
  .of_head (.group .brace hbody) (by simp)

theorem compound_braces : Compound ('{' :: (body ++ ['}'])) :=
  .of_bare (bare_braces hbody) (isStringLiteral_of_head (by decide) _) (mem_cons_self ..) rfl

/-- Braces are taken by the rule for objects. -/
theorem classify_braces {fs : List Field} {index : Option (List Char)}
    (hfields : fields body = .ok (fs, index)) :
    classify ('{' :: (body ++ ['}'])) =
      .ok (.object fs (index.map fun t => .typed (.text t))) := by
  have hlast : ('{' :: (body ++ ['}'])).getLast? = some '}' := by
    rw [← cons_append, getLast?_append]
    rfl
  have henclosed : enclosed? '{' ('{' :: (body ++ ['}'])) = some body :=
    hbody.enclosed?_group .brace
  have hobject : object? ('{' :: (body ++ ['}'])) =
      .ok (some (.object fs (index.map fun t => .typed (.text t)))) := by
    rw [object?, henclosed]
    simp only [hfields, Bind.bind, Except.bind, Pure.pure, Except.pure]
  exact classify_object (compound_braces hbody) (bare_braces hbody).toFragment
    (array?_of_last hlast (by decide)) (tuple?_of_head rfl (by decide))
    (genericShape?_of_none (generic?_of_head rfl (by decide))) hobject

end Braces

/-! ### Written objects -/

/-- A field that the mapper hands over for a key and the text of a type. -/
def Handed (p : Term.Member × List Char) (m : MappedField String) : Prop :=
  (∃ raw, m.field = p.1.field raw) ∧ m.expression = ofList p.2

/-- The type in the index signature of an object. -/
def indexOf : Option (Additional String) → Option (List Char)
  | none | some .nothing => none
  | some .anything => some "unknown".toList
  | some (.typed e) => some e.toList

/-- An object without any line is written in one. -/
def objectText (pad : List Char) (ps : List (Term.Member × List Char))
    (index : Option (List Char)) :
    List Char :=
  if ps.isEmpty && index.isNone then ['{', '}'] else objectChars [] pad ps index

section Written

variable {indent : Indent} (hindent : indent.unit = .text (ofList pad))
include hindent

theorem shown_eq : indent.shown 1 = .ok (ofList pad) := by
  have htimes : indent.times 1 = .ok (.text (ofList pad)) := by simp [Indent.times, hindent]
  rw [Indent.shown, htimes]
  rfl

theorem text_eq : indent.text = .ok (ofList pad) := by
  simp [Indent.text, Indent.times, hindent, Bind.bind, Except.bind, Pure.pure, Except.pure]

theorem fieldLines_eq {p : Term.Member × List Char} {m : MappedField String} (h : Handed p m) :
    fieldLines indent m =
      .ok [ofList (pad ++ (fieldLine p.1 (reindent pad p.2) ++ [';']))] := by
  obtain ⟨⟨raw, hfield⟩, hexpression⟩ := h
  have hquiet : Value.isTruthy (.text "") = false := rfl
  have hmark : (if p.1.optional then "?" else "") =
      ofList (optionalMark p.1.optional) := by
    cases p.1.optional <;> rfl
  have hline : ofList pad ++ ofList (keyChars p.1.key) ++
      ofList (optionalMark p.1.optional) ++ ": " ++ ofList (reindent pad p.2) ++ ";" =
        ofList (pad ++ (fieldLine p.1 (reindent pad p.2) ++ [';'])) := by
    rw [← String.toList_inj]
    simp [fieldLine]
  simp only [fieldLines, shown_eq hindent, text_eq hindent, hfield,
    Term.Member.field, hquiet, hexpression, indentRest_eq, Member.key_eq, hmark, hline,
    String.toList_ofList, Bind.bind, Except.bind, Pure.pure, Except.pure, Bool.false_eq_true,
    if_false,
    nil_append]

theorem indexLines_eq (a : Option (Additional String)) :
    indexLines indent a =
      .ok ((indexOf a).map fun t =>
        ofList (pad ++ (indexLine (reindent pad t) ++ [';']))).toList := by
  have hline (t : List Char) : ofList pad ++ "[key: string]: " ++ ofList t ++ ";" =
      ofList (pad ++ (indexLine t ++ [';'])) := by
    rw [← String.toList_inj]
    simp [indexLine, indexKey]
  match a with
  | none | some .nothing => rfl
  | some .anything =>
    have hunknown := hline "unknown".toList
    have htext : "[key: string]: unknown;" =
        "[key: string]: " ++ ofList "unknown".toList ++ ";" := by
      decide
    rw [indexLines, shown_eq hindent, htext]
    simp only [Bind.bind, Except.bind, Pure.pure, Except.pure, ← String.append_assoc, hunknown]
    rfl
  | some (.typed e) =>
    simp only [indexLines, shown_eq hindent, text_eq hindent, indentRest_eq,
      hline, String.toList_ofList, Bind.bind, Except.bind, Pure.pure, Except.pure]
    rfl

theorem mapM_fieldLines {ms : List (MappedField String)} (h : Forall₂ Handed ps ms) :
    ms.mapM (fieldLines indent) =
      .ok (ps.map fun p => [ofList (pad ++ (fieldLine p.1 (reindent pad p.2) ++ [';']))]) := by
  induction h with
  | nil => rfl
  | cons hm _ ih =>
    rw [mapM_cons, fieldLines_eq hindent hm, ih]
    rfl

omit hindent in
/-- Lines between two marks, joined by newlines. -/
theorem intercalate_newline (ls : List (List Char)) (opener closer : List Char) :
    ['\n'].intercalate (opener :: (ls ++ [closer])) =
      opener ++ (ls.flatMap ('\n' :: ·) ++ '\n' :: closer) := by
  induction ls generalizing opener with
  | nil => simp
  | cons l ls ih =>
    rw [cons_append, intercalate_cons_cons, ih]
    simp

omit hindent in
theorem intercalate_objectLines :
    "\n".intercalate (["\x7b"] ++
      (ps.map fun p => [ofList (pad ++ (fieldLine p.1 (reindent pad p.2) ++ [';']))]).flatten ++
      (index.map fun t => ofList (pad ++ (indexLine (reindent pad t) ++ [';']))).toList ++
      ["\x7d"]) = ofList (objectChars [] pad ps index) := by
  have hchars : objectChars [] pad ps index = ['\n'].intercalate
      (['{'] :: ((objectLines pad ps index).map (fun l => pad ++ (l ++ [';'])) ++ [['}']])) := by
    rw [intercalate_newline, flatMap_map, objectChars, lineBlock, append_assoc]
    rfl
  rw [← String.toList_inj, String.toList_intercalate, String.toList_ofList, hchars,
    ← flatMap_def, ← map_eq_flatMap]
  cases index <;> simp [objectLines, Function.comp_def]

/-- Objects are written as their lines. -/
theorem object_eq {ms : List (MappedField String)} (h : Forall₂ Handed ps ms)
    (a : Option (Additional String)) :
    Target.TypeScript.object indent ms a = .ok (ofList (objectText pad ps (indexOf a))) := by
  have hlines : (do
      let _ ← indent.shown 1
      let lines ← ms.mapM (fieldLines indent)
      let index ← indexLines indent a
      return "\n".intercalate (["\x7b"] ++ lines.flatten ++ index ++
        ["\x7d"]) : Except Fault String) =
      .ok (ofList (objectChars [] pad ps (indexOf a))) := by
    simp only [shown_eq hindent, mapM_fieldLines hindent h, indexLines_eq hindent, Bind.bind,
      Except.bind, Pure.pure, Except.pure, intercalate_objectLines]
  have hempty : ms.isEmpty = ps.isEmpty := by cases h <;> rfl
  have hobject : Target.TypeScript.object indent ms a =
      if ps.isEmpty && (indexOf a).isNone then .ok "\x7b\x7d"
      else .ok (ofList (objectChars [] pad ps (indexOf a))) := by
    rw [← hlines]
    match a with
    | none | some .nothing =>
      rw [Target.TypeScript.object, hempty, indexOf, Option.isNone_none, Bool.and_true]
      rfl
    | some .anything | some (.typed _) =>
      rw [indexOf, Option.isNone_some, Bool.and_false]
      rfl
  rw [hobject, objectText]
  split <;> rfl

end Written

/-- An object at some indentation stands between braces, with its fields in the body. -/
theorem exists_body (h : Legible ps index) {outer : List Char} (houter : ∀ c ∈ outer, c = ' ')
    (hpad : ∀ c ∈ pad, c = ' ') :
    ∃ body, reindent outer (objectText pad ps index) = '{' :: (body ++ ['}']) ∧
      Balanced (fun _ => true) body ∧
      fields body = .ok (ps.map (fun p => p.1.field (.text (reindent (outer ++ pad) p.2))),
        index.map (reindent (outer ++ pad))) := by
  rw [objectText]
  split
  · rename_i hempty
    simp only [Bool.and_eq_true, List.isEmpty_iff, Option.isNone_iff_eq_none] at hempty
    rw [hempty.1, hempty.2]
    exact ⟨[], rfl, .nil, rfl⟩
  · have hboth : ∀ c ∈ outer ++ pad, c = ' ' := forall_mem_append.mpr ⟨houter, hpad⟩
    exact ⟨_, reindent_objectChars h outer hpad, balanced_body h houter hboth,
      fields_eq h hboth houter⟩

end TypeScript

end Crosswalk
