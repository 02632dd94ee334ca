import Crosswalk.Proofs.DefinitionOrder
import Crosswalk.Proofs.ExportedNames
import Crosswalk.Proofs.ScriptFields

/-!
Comments with text of the document. A description is printed as it is, so it can end its own
comment, and so can a title end its line. Main statement: a comment for a description ends where it
should exactly if the description does not hold the end of a comment, and the comments at the head
of a module are one line each exactly if what they show holds no line end.
-/

namespace Crosswalk

open List

variable {ls : List String}

namespace Text

variable {a b cs : List Char}

/-- What ends a comment. -/
def endMark : List Char := ['*', '/']

/-- The end of a comment stands nowhere but at the end. -/
def IsSealed (comment : List Char) : Prop :=
  ∀ before after, comment = before ++ endMark ++ after → after = []

/-- A text without line ends. -/
def IsOneLine (s : String) : Prop := ∀ c ∈ s.toList, isLineEnd c = false

theorem endMark_prefix_cons_iff (c : Char) :
    endMark <+: c :: cs ↔ c = '*' ∧ cs.head? = some '/' := by
  cases cs with
  | nil => simp [endMark]
  | cons d cs => simp [endMark, eq_comm]

theorem endMark_infix_append_iff (h : a.getLast? = some '*' → b.head? ≠ some '/') :
    endMark <:+: a ++ b ↔ endMark <:+: a ∨ endMark <:+: b := by
  induction a with
  | nil => simp [endMark]
  | cons c a ih =>
    rw [cons_append, infix_cons_iff, infix_cons_iff, endMark_prefix_cons_iff,
      endMark_prefix_cons_iff]
    cases a with
    | nil =>
      have hcross : ¬(c = '*' ∧ b.head? = some '/') := by
        intro ⟨hc, hb⟩
        exact h (by rw [hc]; rfl) hb
      simp [hcross, endMark]
    | cons d a =>
      rw [ih (by simpa using h), or_assoc]
      rfl

theorem endMark_infix_cons_iff {c : Char} (h : c ≠ '*') :
    endMark <:+: c :: cs ↔ endMark <:+: cs := by
  rw [infix_cons_iff, endMark_prefix_cons_iff]
  simp [h]

theorem isSealed_append_iff (cs : List Char) : IsSealed (cs ++ endMark) ↔ ¬endMark <:+: cs := by
  constructor
  · intro h ⟨before, after, hcs⟩
    have hafter := h before (after ++ endMark) (by rw [← hcs, append_assoc, append_assoc])
    simp [endMark] at hafter
  · intro h before after hcs
    -- An earlier end lies before the last character.
    rcases eq_nil_or_concat after with rfl | ⟨init, last, rfl⟩
    · rfl
    · have hinit : cs ++ ['*'] = before ++ endMark ++ init := by
        have hdrop := congrArg dropLast hcs
        rw [concat_eq_append, ← append_assoc, dropLast_concat] at hdrop
        rw [← hdrop, endMark, dropLast_append_of_ne_nil (by simp)]
        rfl
      have hmark : endMark <:+: cs ++ ['*'] := ⟨before, init, hinit.symm⟩
      rw [endMark_infix_append_iff (by simp)] at hmark
      rcases hmark with hmark | hmark
      · exact absurd hmark h
      · exact absurd hmark (by decide)

/-- Trimming keeps the ends of comments. -/
theorem endMark_infix_trimEnd_iff (cs : List Char) : endMark <:+: trimEnd cs ↔ endMark <:+: cs := by
  have hcs : cs = trimEnd cs ++ (cs.reverse.takeWhile isBlank).reverse := by
    rw [trimEnd, ← reverse_append, takeWhile_append_dropWhile, reverse_reverse]
  have hblank : ∀ c ∈ (cs.reverse.takeWhile isBlank).reverse, isBlank c = true := by
    intro c hc
    exact all_eq_true.mp all_takeWhile c (mem_reverse.mp hc)
  have hslash : '/' ∉ (cs.reverse.takeWhile isBlank).reverse := by
    intro hmem
    exact absurd (hblank _ hmem) (by decide)
  conv_rhs => rw [hcs]
  rw [endMark_infix_append_iff fun _ hhead => hslash (mem_of_head? hhead)]
  refine (or_iff_left ?_).symm
  intro hmark
  exact hslash (hmark.subset (by simp [endMark]))

/-- No line end is part of the end of a comment. -/
theorem exists_endMark_infix_linesWith_iff (line cs : List Char) :
    (∃ l ∈ linesWith line cs, endMark <:+: l) ↔ endMark <:+: line.reverse ++ cs := by
  fun_induction linesWith line cs with
  | case1 line hempty =>
    rw [isEmpty_iff.mp hempty]
    simp [endMark]
  | case2 line hne => rw [append_nil]; simp
  | case3 line cs ih =>
    rw [endMark_infix_append_iff (by simp), endMark_infix_cons_iff (by decide),
      endMark_infix_cons_iff (by decide), exists_mem_cons_iff, ih]
    rfl
  | case4 line c cs _ hend ih =>
    have hc : c ≠ '*' ∧ c ≠ '/' := by
      constructor <;>
      · rintro rfl
        exact absurd hend (by decide)
    rw [endMark_infix_append_iff (by simp [hc.2]), endMark_infix_cons_iff hc.1, exists_mem_cons_iff,
      ih]
    rfl
  | case5 line c cs _ hend ih =>
    rw [ih, reverse_cons, append_assoc]
    rfl

theorem exists_endMark_infix_lines_iff (cs : List Char) :
    (∃ l ∈ lines cs, endMark <:+: l) ↔ endMark <:+: cs :=
  exists_endMark_infix_linesWith_iff [] cs

theorem head?_joined_ne (ls : List (List Char)) : (ls.flatMap ('\n' :: ·)).head? ≠ some '/' := by
  cases ls with
  | nil => simp
  | cons => simp

/-- Marks in lines that are joined are marks of a line. -/
theorem endMark_infix_flatMap_iff (ls : List (List Char)) :
    endMark <:+: ls.flatMap ('\n' :: ·) ↔ ∃ l ∈ ls, endMark <:+: l := by
  induction ls with
  | nil => simp [endMark]
  | cons l ls ih =>
    rw [flatMap_cons, endMark_infix_append_iff fun _ => head?_joined_ne ls,
      endMark_infix_cons_iff (by decide), ih, exists_mem_cons_iff]

end Text

open Text

/-! ### Descriptions -/

namespace Target

/-- The lines are a comment, which ends where it should exactly if what it shows does not end it. -/
def IsComment (pad : String) (v : Value) (lines : List String) : Prop :=
  ∃ comment, ("\n".intercalate lines).toList = pad.toList ++ comment ∧ "/**".toList <+: comment ∧
    endMark <:+ comment ∧ (IsSealed comment ↔ ¬endMark <:+: v.display.toList)

/-- The lines are the comment for a description, if there is one to show. -/
def Describes (write : Value → Except Fault (List String)) (pad : String) (v : Value)
    (lines : List String) : Prop :=
  if v.isTruthy then write v = .ok lines ∧ IsComment pad v lines else lines = []

theorem isComment_oneLine {pad : String} {v : Value}
    (h : (v.printed.map fun s => [pad ++ "/** " ++ s ++ " */"]) = .ok ls) : IsComment pad v ls := by
  obtain ⟨s, hs, rfl⟩ := map_eq_ok.mp h
  obtain rfl : v.display = s := by
    unfold Value.printed at hs
    split at hs
    · exact Except.ok.inj hs
    · cases hs
  have hopening : "/**".toList <+: "/** ".toList := by decide
  refine ⟨"/** ".toList ++ v.display.toList ++ [' '] ++ endMark, ?_, ?_, suffix_append _ _, ?_⟩
  · simp [endMark]
  · rw [append_assoc, append_assoc]
    exact hopening.trans (prefix_append _ _)
  · rw [isSealed_append_iff, endMark_infix_append_iff (by simp), endMark_infix_append_iff (by simp)]
    have hbefore : ¬endMark <:+: "/** ".toList := by decide
    have hafter : ¬endMark <:+: [' '] := by decide
    simp only [hbefore, hafter, false_or, or_false]

namespace TypeScript

/-- A line of a comment over several lines. -/
def docLine (pad : String) (l : List Char) : List Char := trimEnd (pad.toList ++ " * ".toList ++ l)

section Pad

variable {pad : String} (hpad : '/' ∉ pad.toList)
include hpad

theorem endMark_infix_docLine_iff (l : List Char) :
    endMark <:+: docLine pad l ↔ endMark <:+: l := by
  have hbefore : ¬endMark <:+: pad.toList := by
    intro hmark
    exact hpad (hmark.subset (by simp [endMark]))
  have hstar : ¬endMark <:+: " * ".toList := by decide
  rw [docLine, endMark_infix_trimEnd_iff, endMark_infix_append_iff (by simp),
    endMark_infix_append_iff (by simp)]
  simp only [hbefore, hstar, false_or]

theorem isComment_severalLines (s : String) :
    IsComment pad (.text s)
      ([pad ++ "/**"] ++ (lines s.toList).map (fun l =>
        String.ofList (trimEnd (pad ++ " * " ++ String.ofList l).toList)) ++ [pad ++ " */"]) := by
  have hlines : (lines s.toList).map (fun l =>
      String.ofList (trimEnd (pad ++ " * " ++ String.ofList l).toList)) =
        ((lines s.toList).map (docLine pad)).map String.ofList := by
    simp [docLine, Function.comp_def]
  have hbefore : ¬endMark <:+: "/**".toList := by decide
  have hafter : ¬endMark <:+: '\n' :: pad.toList ++ [' '] := by
    intro hmark
    have hmem : '/' ∈ '\n' :: pad.toList ++ [' '] := hmark.subset (by simp [endMark])
    simp [hpad] at hmem
  refine ⟨"/**".toList ++ ((lines s.toList).map (docLine pad)).flatMap ('\n' :: ·) ++
    ('\n' :: pad.toList ++ [' ']) ++ endMark, ?_, ?_, suffix_append _ _, ?_⟩
  · rw [String.toList_intercalate, hlines, singleton_append, cons_append, map_cons, map_append,
      map_map, map_singleton]
    have hid : String.toList ∘ String.ofList = id := funext fun l => String.toList_ofList
    rw [hid, map_id]
    refine (Crosswalk.TypeScript.intercalate_newline _ _ _).trans ?_
    simp [endMark]
  · rw [append_assoc, append_assoc]
    exact prefix_append _ _
  · have hmark : (∃ l ∈ (lines s.toList).map (docLine pad), endMark <:+: l) ↔
        endMark <:+: s.toList := by
      rw [← exists_endMark_infix_lines_iff]
      simp only [mem_map, exists_exists_and_eq_and, endMark_infix_docLine_iff hpad]
    rw [isSealed_append_iff, endMark_infix_append_iff (by simp),
      endMark_infix_append_iff fun _ => head?_joined_ne _, endMark_infix_flatMap_iff, hmark]
    simp only [hbefore, hafter, false_or, or_false]
    rfl

theorem isComment_docLines {v : Value} (h : docLines pad v = .ok ls) : IsComment pad v ls := by
  unfold docLines at h
  dsimp only at h
  split at h
  · split at h
    · cases h
      exact isComment_severalLines hpad _
    · exact isComment_oneLine h
  · split at h
    · cases h
    · exact isComment_oneLine h
  · split at h
    · cases h
    · exact isComment_oneLine h
  · cases h

theorem describes_of_ite {v : Value}
    (h : (if v.isTruthy then docLines pad v else .ok []) = .ok ls) :
    Describes (docLines pad) pad v ls := by
  rw [Describes]
  split at h
  case isTrue htruthy =>
    rw [if_pos htruthy]
    exact ⟨h, isComment_docLines hpad h⟩
  case isFalse hfalsy =>
    cases h
    rw [if_neg hfalsy]

end Pad

theorem exists_comment_fieldLines {indent : Indent} {pad : String}
    (hindent : indent.shown 1 = .ok pad) (hpad : '/' ∉ pad.toList) {m : MappedField String}
    (h : fieldLines indent m = .ok ls) :
    ∃ comment line, ls = comment ++ [line] ∧
      Describes (docLines pad) pad m.field.description comment := by
  have hline (comment : List String) (h : (do
      let unit ← indent.text
      let key ← Literal.key m.field.key
      return comment ++ [pad ++ key ++ (if m.field.optional then "?" else "") ++ ": " ++
        indentRest unit m.expression ++ ";"]) = Except.ok ls) : ∃ line, ls = comment ++ [line] := by
    obtain ⟨_, _, h⟩ := bind_eq_ok.mp h
    obtain ⟨_, _, h⟩ := bind_eq_ok.mp h
    cases h
    exact ⟨_, rfl⟩
  obtain ⟨shown, hshown, h⟩ := bind_eq_ok.mp h
  obtain rfl : pad = shown := Except.ok.inj (hindent.symm.trans hshown)
  by_cases htruthy : m.field.description.isTruthy
  · rw [if_pos htruthy] at h
    obtain ⟨comment, hcomment, h⟩ := bind_eq_ok.mp h
    obtain ⟨line, hls⟩ := hline comment h
    exact ⟨comment, line, hls, describes_of_ite hpad (by rw [if_pos htruthy, hcomment])⟩
  · rw [if_neg htruthy] at h
    obtain ⟨line, hls⟩ := hline [] h
    exact ⟨[], line, hls, describes_of_ite hpad (if_neg htruthy)⟩

/-- An object is printed with the comments of its fields. -/
theorem exists_comments_object {indent : Indent} {pad : String} (hindent : indent.shown 1 = .ok pad)
    (hpad : '/' ∉ pad.toList) {fields : List (MappedField String)}
    {additional : Option (Additional String)} {text : String} (hfields : fields ≠ [])
    (h : object indent fields additional = .ok text) :
    ∃ parts index, indexLines indent additional = .ok index ∧
      text = "\n".intercalate (["\x7b"] ++ parts.flatten ++ index ++ ["\x7d"]) ∧
      Forall₂ (fun m ls => ∃ comment line, ls = comment ++ [line] ∧
        Describes (docLines pad) pad m.field.description comment) fields parts := by
  have hempty : fields.isEmpty = false := by simpa using hfields
  have hrest (h : (do
      let _ ← indent.shown 1
      let ls ← fields.mapM (fieldLines indent)
      let index ← indexLines indent additional
      return "\n".intercalate (["\x7b"] ++ ls.flatten ++ index ++ ["\x7d"])) = Except.ok text) :
      ∃ parts index, indexLines indent additional = .ok index ∧
        text = "\n".intercalate (["\x7b"] ++ parts.flatten ++ index ++ ["\x7d"]) ∧
        Forall₂ (fun m ls => ∃ comment line, ls = comment ++ [line] ∧
          Describes (docLines pad) pad m.field.description comment) fields parts := by
    obtain ⟨_, _, h⟩ := bind_eq_ok.mp h
    obtain ⟨parts, hparts, h⟩ := bind_eq_ok.mp h
    obtain ⟨index, hindex, h⟩ := bind_eq_ok.mp h
    cases h
    exact ⟨parts, index, hindex, rfl,
      (forall₂_of_mapM hparts).imp fun m ls hm => exists_comment_fieldLines hindent hpad hm⟩
  unfold object at h
  rw [hempty] at h
  cases additional with
  | none => exact hrest h
  | some a => cases a <;> exact hrest h

/-- A declaration is printed after the comment for its description. -/
theorem exists_comment_declarationText {d : MappedDeclaration String} {text : String}
    (h : declarationText d = .ok text) :
    ∃ comment line, text = "\n".intercalate (comment ++ [line]) ∧
      Describes (docLines "") "" (d.declaration.description?.getD (.text "")) comment := by
  have hpad : '/' ∉ "".toList := by simp
  have hline (comment : List String) {lineOf : String → String} (h : (do
      let name ← Identifier.sanitizeName d.name
      return "\n".intercalate (comment ++ [lineOf name])) = Except.ok text) :
      ∃ line, text = "\n".intercalate (comment ++ [line]) := by
    obtain ⟨name, _, h⟩ := bind_eq_ok.mp h
    cases h
    exact ⟨_, rfl⟩
  unfold declarationText at h
  cases hd : d.declaration.description? with
  | none =>
    rw [hd] at h
    obtain ⟨line, htext⟩ := hline [] h
    exact ⟨[], line, htext, describes_of_ite hpad rfl⟩
  | some v =>
    rw [hd] at h
    dsimp only at h
    split at h
    case isTrue htruthy =>
      obtain ⟨comment, hcomment, h⟩ := bind_eq_ok.mp h
      obtain ⟨line, htext⟩ := hline comment h
      exact ⟨comment, line, htext,
        describes_of_ite hpad (by rw [Option.getD_some, if_pos htruthy, hcomment])⟩
    case isFalse hfalsy =>
      obtain ⟨line, htext⟩ := hline [] h
      exact ⟨[], line, htext, describes_of_ite hpad (by rw [Option.getD_some, if_neg hfalsy])⟩

end TypeScript

/-! ### Heads of modules -/

namespace Zod

theorem exists_comment_declarationLines {d : MappedDeclaration String}
    (h : declarationLines d = .ok ls) :
    ∃ comment name, ls = comment ++ schemaLines name d.expression ++ [""] ∧
      Describes Zod.comment "" (d.declaration.description?.getD (.text "")) comment := by
  obtain ⟨name, _, h⟩ := bind_eq_ok.mp h
  obtain ⟨comment, hcomment, h⟩ := bind_eq_ok.mp h
  cases h
  refine ⟨comment, name, rfl, ?_⟩
  unfold commentLines at hcomment
  cases hd : d.declaration.description? with
  | none =>
    rw [hd] at hcomment
    cases hcomment
    rfl
  | some v =>
    rw [hd] at hcomment
    rw [Option.getD_some, Describes]
    dsimp only at hcomment
    split at hcomment
    case isTrue htruthy =>
      rw [if_pos htruthy]
      exact ⟨hcomment, isComment_oneLine (by simpa [Zod.comment] using hcomment)⟩
    case isFalse hfalsy =>
      cases hcomment
      rw [if_neg hfalsy]

/-- What the comments at the head of a module show holds no line end. -/
structure PlainFacts (s : Setting) : Prop where
  source : (s.fact "source").isTruthy = true → IsOneLine (s.fact "source").display
  title : (s.fact "title").isTruthy = true → IsOneLine (s.fact "title").display
  version : (s.fact "title").isTruthy = true → (s.fact "version").isTruthy = true →
    IsOneLine (s.fact "version").display

theorem isOneLine_append_iff (s t : String) : IsOneLine (s ++ t) ↔ IsOneLine s ∧ IsOneLine t := by
  rw [IsOneLine, String.toList_append, forall_mem_append]
  rfl

theorem isOneLine_header_iff (s : Setting) : (∀ l ∈ header s, IsOneLine l) ↔ PlainFacts s := by
  have hfrom : IsOneLine "// Generated from " := by unfold IsOneLine; decide
  have hslashes : IsOneLine "// " := by unfold IsOneLine; decide
  have hmark : IsOneLine " v" := by unfold IsOneLine; decide
  have hempty : IsOneLine "" := by unfold IsOneLine; decide
  have hcomments : (∀ l ∈ header s, IsOneLine l) ↔
      ((s.fact "source").isTruthy = true → IsOneLine (s.fact "source").display) ∧
      ((s.fact "title").isTruthy = true → IsOneLine (s.fact "title").display ∧
        ((s.fact "version").isTruthy = true → IsOneLine (s.fact "version").display)) := by
    unfold header
    by_cases hsource : (s.fact "source").isTruthy = true <;>
    by_cases htitle : (s.fact "title").isTruthy = true <;>
    by_cases hversion : (s.fact "version").isTruthy = true <;>
      simp [hsource, htitle, hversion, isOneLine_append_iff, hfrom, hslashes, hmark, hempty]
  rw [hcomments]
  constructor
  · intro ⟨hsource, htitle⟩
    exact ⟨hsource, fun h => (htitle h).1, fun h => (htitle h).2⟩
  · intro h
    exact ⟨h.source, fun ht => ⟨h.title ht, h.version ht⟩⟩

end Zod

end Target

namespace Conversion

variable {c : Conversion}

/-- What a conversion prints comes from declarations of the document that it has read, in the order
that the target asks for. -/
theorem exists_mapped_of_run {source : List Char} {output : String}
    (h : (c.run source).result = .ok output) :
    ∃ doc mds setting, (c.grammar.extract source).result = .ok doc ∧
      (if c.target.isOrdered then (c.mappingOf doc).inDependencyOrder (c.settings.budgetAt 0)
        else (c.mappingOf doc).inSourceOrder (c.settings.budgetAt 0)).result = .ok mds ∧
      setting.info = doc.info ∧ c.target.emit setting mds = .ok output := by
  rw [run] at h
  split at h
  · cases h
  obtain ⟨doc, hdoc, h⟩ := result_bind_eq_ok.mp h
  split at h
  · cases h
  obtain ⟨mds, hmds, hemit⟩ := bind_eq_ok.mp h
  exact ⟨doc, mds, _, hdoc, hmds, rfl, hemit⟩

theorem map_declaration_of_inSourceOrder {ε : Type} {m : Mapping ε} {budget : Nat}
    {mds : List (MappedDeclaration ε)} (h : (m.inSourceOrder budget).result = .ok mds) :
    mds.map MappedDeclaration.declaration = m.catalogue.declarations := by
  rw [Mapping.inSourceOrder, Logged.result_mapM] at h
  have hall := forall₂_of_mapM h
  clear h
  generalize m.catalogue.declarations = ds at hall
  induction hall with
  | nil => rfl
  | cons hmd _ ih => rw [map_cons, (Mapping.parts_of_mapped hmd).1, ih]

theorem perm_of_mapped {doc : Document} {mds : List (MappedDeclaration c.target.Expression)}
    (h : (if c.target.isOrdered then (c.mappingOf doc).inDependencyOrder (c.settings.budgetAt 0)
      else (c.mappingOf doc).inSourceOrder (c.settings.budgetAt 0)).result = .ok mds) :
    (mds.map MappedDeclaration.declaration).Perm doc.catalogue.declarations := by
  split at h
  · exact Mapping.map_declaration_perm (Catalogue.names_ofList_nodup _) h
  · exact Perm.of_eq (map_declaration_of_inSourceOrder h)

/-- Comments with text of the document. The comment for the description of a declaration or of a
field ends where it should exactly if the description does not hold the end of a comment, and the
comments at the head of a module are one line each exactly if what they show holds no line end. -/
theorem comments_sealed_iff {pad : String} (hindent : c.settings.indent.shown 1 = .ok pad)
    (hpad : '/' ∉ pad.toList) {source : List Char} {output : String}
    (h : (c.run source).result = .ok output) :
    ∃ doc declared, (c.grammar.extract source).result = .ok doc ∧
      declared.Perm doc.catalogue.declarations ∧
      (c.target = .typeScript →
        (∃ texts, output = "\n\n".intercalate texts ++ "\n" ∧
          Forall₂ (fun d text => ∃ comment line, text = "\n".intercalate (comment ++ [line]) ∧
            Target.Describes (Target.TypeScript.docLines "") ""
              (d.description?.getD (.text "")) comment) declared texts) ∧
        ∀ fields additional text, fields ≠ [] →
          Target.TypeScript.object c.settings.indent fields additional = .ok text →
          ∃ parts index, Target.TypeScript.indexLines c.settings.indent additional = .ok index ∧
            text = "\n".intercalate (["\x7b"] ++ parts.flatten ++ index ++ ["\x7d"]) ∧
            Forall₂ (fun m ls => ∃ comment line, ls = comment ++ [line] ∧
              Target.Describes (Target.TypeScript.docLines pad) pad m.field.description comment)
              fields parts) ∧
      (c.target = .zod →
        ∃ setting parts, setting.info = doc.info ∧
          output = Target.Zod.dropEndLines ("\n".intercalate
            (["import \x7b z \x7d from \"zod\";", ""] ++ Target.Zod.header setting ++
              parts.flatten)) ++ "\n" ∧
          Forall₂ (fun d ls => ∃ comment name expression,
            ls = comment ++ Target.Zod.schemaLines name expression ++ [""] ∧
            Target.Describes Target.Zod.comment ""
              (d.description?.getD (.text "")) comment) declared parts ∧
          ((∀ l ∈ Target.Zod.header setting, IsOneLine l) ↔ Target.Zod.PlainFacts setting)) := by
  obtain ⟨doc, mds, setting, hdoc, hmds, hinfo, hemit⟩ := exists_mapped_of_run h
  refine ⟨doc, mds.map MappedDeclaration.declaration, hdoc, perm_of_mapped hmds, ?_, ?_⟩
  · intro ht
    refine ⟨?_, fun fields additional text hfields htext =>
      Target.TypeScript.exists_comments_object hindent hpad hfields htext⟩
    obtain ⟨grammar, target, settings, inline⟩ := c
    dsimp only at ht
    subst ht
    obtain ⟨texts, htexts, hemit⟩ := bind_eq_ok.mp hemit
    cases hemit
    refine ⟨texts, rfl, forall₂_map_left_iff.mpr ?_⟩
    exact (forall₂_of_mapM htexts).imp fun d text hd =>
      Target.TypeScript.exists_comment_declarationText hd
  · intro ht
    obtain ⟨grammar, target, settings, inline⟩ := c
    dsimp only at ht
    subst ht
    obtain ⟨all, hall, rfl⟩ := map_eq_ok.mp hemit
    obtain ⟨_, _, hall⟩ := bind_eq_ok.mp hall
    obtain ⟨parts, hparts, hall⟩ := bind_eq_ok.mp hall
    cases hall
    refine ⟨setting, parts, hinfo, rfl, forall₂_map_left_iff.mpr ?_,
      Target.Zod.isOneLine_header_iff setting⟩
    exact (forall₂_of_mapM hparts).imp fun d ls hd =>
      let ⟨comment, name, hls, hcomment⟩ := Target.Zod.exists_comment_declarationLines hd
      ⟨comment, name, _, hls, hcomment⟩

/-- Schemas of an interface, as a module. -/
def interfaceToSchemas : Conversion :=
  { grammar := .openApi, target := .zod, settings := Converter.schemaSettings, inline := true }

/-- A title over two lines, and a description that ends its comment. -/
def endedComment : List Char :=
  ("\x7b\"openapi\": \"3.0.0\", \"info\": \x7b\"title\": \"a\\nb\"\x7d, " ++
    "\"components\": \x7b\"schemas\": \x7b\"A\": " ++
    "\x7b\"description\": \"x */ y\"\x7d\x7d\x7d\x7d").toList

/-- What the document says: the descriptions of its declarations, and its title. -/
def saidBy (doc : Document) : List (Bool × String) :=
  let title := Setting.fact ⟨{}, doc.info, []⟩ "title"
  (title.isTruthy, title.display) :: doc.catalogue.declarations.map fun d =>
    ((d.description?.getD (.text "")).isTruthy, (d.description?.getD (.text "")).display)

theorem said_endedComment :
    (interfaceToSchemas.grammar.extract endedComment).result.toOption.map saidBy =
      some [(true, "a\nb"), (true, "x */ y")] := by
  decide +kernel

/-- The title leaves its line and the description its comment. -/
theorem endedComment_not_sealed :
    ∃ output setting name expression comment,
      interfaceToSchemas.settings.indent.shown 1 = .ok "  " ∧
      (interfaceToSchemas.run endedComment).result = .ok output ∧
      output = Target.Zod.dropEndLines ("\n".intercalate
        (["import \x7b z \x7d from \"zod\";", ""] ++ Target.Zod.header setting ++
          (comment ++ Target.Zod.schemaLines name expression ++ [""]))) ++ "\n" ∧
      ¬(∀ l ∈ Target.Zod.header setting, IsOneLine l) ∧
        ¬IsSealed ("\n".intercalate comment).toList := by
  have hindent : interfaceToSchemas.settings.indent.shown 1 = .ok "  " := rfl
  obtain ⟨output, hrun⟩ := exists_eq_ok (x := (interfaceToSchemas.run endedComment).result)
    (by decide +kernel)
  obtain ⟨doc, declared, hdoc, hperm, _, hzod⟩ := comments_sealed_iff hindent (by decide) hrun
  obtain ⟨setting, parts, hinfo, houtput, hparts, hheader⟩ := hzod rfl
  have hsaid := said_endedComment
  rw [hdoc] at hsaid
  injection hsaid with hsaid
  obtain ⟨htitle, hdescriptions⟩ := cons.inj hsaid
  obtain ⟨htruthy, hdisplay⟩ := Prod.mk.inj htitle
  obtain ⟨d, hd, hshown⟩ := map_eq_singleton_iff.mp hdescriptions
  obtain ⟨hdescribed, htext⟩ := Prod.mk.inj hshown
  rw [hd, perm_singleton] at hperm
  subst hperm
  obtain ⟨_, _, ⟨comment, name, expression, rfl, hcomment⟩, hnil, rfl⟩ :=
    forall₂_cons_left_iff.mp hparts
  obtain rfl := forall₂_nil_left_iff.mp hnil
  rw [flatten_singleton] at houtput
  refine ⟨output, setting, name, expression, comment, hindent, hrun, houtput, ?_, ?_⟩
  · intro hlines
    have hfact : setting.fact "title" = Setting.fact ⟨{}, doc.info, []⟩ "title" := by
      rw [Setting.fact, hinfo]
      rfl
    have hplain := (hheader.mp hlines).title
    rw [hfact, hdisplay] at hplain
    exact absurd (hplain htruthy '\n' (by decide)) (by decide)
  · rw [Target.Describes, if_pos hdescribed] at hcomment
    obtain ⟨_, shown, hshown, _, _, hsealed⟩ := hcomment
    rw [hshown, String.toList_empty, nil_append, hsealed, htext]
    decide

end Conversion

end Crosswalk
