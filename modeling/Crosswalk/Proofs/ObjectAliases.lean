import Crosswalk.Proofs.MappingFaults
import Crosswalk.Proofs.StatementLines

/-!
Objects that are declared as an interface and as an alias. The body of an interface goes up to the
brace that closes it. The body of an alias goes up to its semicolon, or to a line that starts a
statement, wherever that line stands. Main statement: the two declare the same exactly if no line of
the body starts a statement.
-/

namespace Crosswalk.TypeScript

open List
open Text (Place isBlank isWord)
open Text.Pattern
open Identifier (isName)

variable {name body rest : List Char} {prev : Option Char} {g : Groups} {p : Place} {m : Found}

/-! ### Heads -/

/-- The head of an interface without type parameters and bases. -/
def interfaceText (name : List Char) : List Char :=
  "interface".toList ++ ' ' :: (name ++ [' ', '{'])

/-- The head of an alias without type parameters. -/
def aliasText (name : List Char) : List Char := "type".toList ++ ' ' :: (name ++ [' ', '='])

theorem offers_interfaceHead (hname : isName name) :
    Offers interfaceHead prev (interfaceText name) rest g ((1, name) :: g) := by
  have hbrace : ∀ c ∈ ('{' :: rest).head?, isBlank c = false := by
    intro c hc
    cases hc
    decide
  have hhead : Offers interfaceHead prev
      ("interface".toList ++ [' '] ++ name ++ [' '] ++ [] ++ [] ++ [] ++ ['{'])
      rest g ((1, name) :: g) := by
    unfold interfaceHead
    extract_lets notBrace
    clear_value notBrace
    refine .seq (.seq (.seq (.seq (.seq (.seq (.seq .text (.space ?_)) (offers_name hname ?_))
      (.run ?_ ?_))
      (.maybe (fails_char ?_).seq.seq)) (.run ?_ ?_)) (.maybe (fails_text ?_).seq.seq.seq)) .char
    · exact isBlank_head?_name hname
    · exact isPart_space
    · decide
    · exact hbrace
    · simp
    · simp
    · exact hbrace
    · rfl
  simp only [append_assoc, nil_append, cons_append] at hhead
  exact hhead

theorem offers_aliasHead (hname : isName name) :
    Offers aliasHead prev (aliasText name) rest g ((3, name) :: g) := by
  have hequals : ∀ c ∈ ('=' :: rest).head?, isBlank c = false := by
    intro c hc
    cases hc
    decide
  have hhead :
      Offers aliasHead prev ("type".toList ++ [' '] ++ name ++ [' '] ++ [] ++ [] ++ ['=']) rest g
      ((3, name) :: g) := by
    refine .seq (.seq (.seq (.seq (.seq (.seq .text (.space ?_)) (offers_name hname ?_))
      (.run ?_ ?_)) (.maybe (fails_char ?_).seq.seq)) (.run ?_ ?_)) .char
    · exact isBlank_head?_name hname
    · exact isPart_space
    · decide
    · exact hequals
    · simp
    · simp
    · exact hequals
  simp only [append_assoc, nil_append, cons_append] at hhead
  exact hhead

theorem search?_head {x : List Char} {g' : Groups} (hprev : p.previous.any isWord = false)
    (hrest : p.rest = x ++ rest) (hword : ∃ c, x.head? = some c ∧ isWord c)
    (hexport : Text.startsWith "export".toList (x ++ rest) = false)
    (hdeclare : Text.startsWith "declare".toList (x ++ rest) = false)
    (h : Offers (interfaceHead <|> aliasHead <|> enumHead) p.previous x rest [] g') :
    declarationHead.search? p = some ⟨p, p.behind x rest, g'⟩ := by
  have hedge : p.previous.any isWord ≠ (x ++ rest).head?.any isWord := by
    obtain ⟨c, hc, hword⟩ := hword
    simp [hprev, head?_append, hc, hword]
  have hhead : Offers declarationHead p.previous x rest [] g' :=
    .seq (x := []) (.seq (x := []) (.wordEdge hedge)
      (.seq (x := []) (.maybe (fails_text hexport).seq) (.maybe (fails_text hdeclare).seq))) h
  exact hhead.search? hrest

theorem search?_interface (hname : isName name) (hprev : p.previous.any isWord = false)
    (hrest : p.rest = interfaceText name ++ rest) :
    declarationHead.search? p = some ⟨p, p.behind (interfaceText name) rest, [(1, name)]⟩ :=
  search?_head hprev hrest ⟨'i', rfl, by decide⟩ rfl rfl (offers_interfaceHead hname).alt_left

theorem search?_alias (hname : isName name) :
    declarationHead.search? (.start (aliasText name ++ rest)) = some
      ⟨.start (aliasText name ++ rest),
        (Place.start (aliasText name ++ rest)).behind (aliasText name) rest, [(3, name)]⟩ :=
  search?_head rfl rfl ⟨'t', rfl, by decide⟩ rfl rfl
    (.alt_right (fails_text rfl).seq.seq.seq.seq.seq.seq.seq (offers_aliasHead hname).alt_left)

/-- No declaration starts at the end of a text that does not end in a word. -/
theorem search?_end (hrest : p.rest = []) (hprev : p.previous.any isWord = false) :
    declarationHead.search? p = none := by
  rw [search?_eq_none_iff, hrest]
  rintro ⟨x, y, z, hsplit, hspans⟩
  obtain ⟨rfl, rfl, rfl⟩ : x = [] ∧ y = [] ∧ z = [] := by simpa using hsplit
  obtain ⟨_, x, hy, ⟨_, y, rfl, ⟨rfl, hedge⟩, -⟩, -⟩ := hspans
  obtain ⟨rfl, rfl⟩ : y = [] ∧ x = [] := by simpa using hy
  exact hedge hprev

/-! ### Findings -/

theorem exists_fields (body : List Char) : ∃ fs index, fields body = .ok (fs, index) := by
  have hfields := ensures_fields (E := fun _ => False) body
  cases hbody : fields body with
  | ok r => exact ⟨r.1, r.2, rfl⟩
  | error e =>
    rw [hbody] at hfields
    cases hfields with
    | error h => exact h.elim

theorem findingsFrom_next {finding : Option Finding} {next : Place}
    (hm : declarationHead.search? p = some m) (hd : declaration m = .ok (finding, next))
    (found : List Finding) (fuel : Nat) :
    findingsFrom found (fuel + 1) p = findingsFrom (finding.toList ++ found) fuel next := by
  rw [findingsFrom, hm]
  dsimp only
  rw [hd]

theorem findingsFrom_end (hend : declarationHead.search? p = none) (found : List Finding)
    (fuel : Nat) :
    findingsFrom found fuel p = .ok found.reverse := by
  cases fuel with
  | zero => rfl
  | succ fuel => rw [findingsFrom, hend]

/-- What has been found stays first. -/
theorem prefix_of_findingsFrom {found fs : List Finding} {fuel : Nat}
    (h : findingsFrom found fuel p = .ok fs) :
    found.reverse <+: fs := by
  induction fuel generalizing found p with
  | zero =>
    cases h
    exact prefix_refl _
  | succ fuel ih =>
    rw [findingsFrom] at h
    split at h
    · cases h
      exact prefix_refl _
    · split at h
      · cases h
      · have hnext := ih h
        rw [reverse_append] at hnext
        exact (prefix_append _ _).trans hnext

section Extract

variable {source : List Char} {found : List Finding} {next : Place}

theorem extract_eq (hstrip : CommentMarks.strip {} source = source)
    (h : findingsFrom [] (source.length + 1) (.start source) = .ok found) :
    extract source = ⟨.ok { declarations := found.filterMap fun f => f.toOption },
      (Document.report found).log⟩ := by
  rw [extract, hstrip, h]
  simp only [Bind.bind, Logged.bind, Logged.lift, Document.report, Pure.pure, Logged.pure,
    nil_append, append_nil]

/-- A source whose first declaration is its last. -/
theorem extract_single (hstrip : CommentMarks.strip {} source = source) {d : Declaration}
    (hm : declarationHead.search? (.start source) = some m)
    (hd : declaration m = .ok (some (.ok d), next)) (hend : declarationHead.search? next = none) :
    extract source = ⟨.ok { declarations := [d] }, []⟩ :=
  @extract_eq _ [.ok d] hstrip (by rw [findingsFrom_next hm hd, findingsFrom_end hend]; rfl)

/-- If the first declaration is skipped, there is a warning. -/
theorem extract_ne (hstrip : CommentMarks.strip {} source = source) {e : Diagnostic}
    (hm : declarationHead.search? (.start source) = some m)
    (hd : declaration m = .ok (some (.error e), next)) (doc : Document) :
    extract source ≠ ⟨.ok doc, []⟩ := by
  intro heq
  cases hfound : findingsFrom [] (source.length + 1) (.start source) with
  | error f =>
    rw [extract, hstrip, hfound] at heq
    cases heq
  | ok found =>
    have hfirst : [.error e] <+: found := by
      rw [findingsFrom_next hm hd] at hfound
      exact @prefix_of_findingsFrom _ [.error e] _ _ hfound
    obtain ⟨others, rfl⟩ := hfirst
    rw [extract_eq hstrip hfound] at heq
    cases heq

end Extract

/-! ### Objects -/

/-- Comments are looked for in the body only. -/
theorem strip_object {head : List Char} (hhead : ∀ c ∈ head, c ≠ '/' ∧ isQuote c = false)
    (hrest : ∀ c ∈ rest, c ≠ '/' ∧ isQuote c = false)
    (hfree : CommentMarks.strip {} body = body) (hbody : Sealed everyOpener body) :
    CommentMarks.strip {} (head ++ (body ++ '}' :: rest)) = head ++ (body ++ '}' :: rest) := by
  refine CommentMarks.strip_surrounded hfree ?_ hhead ?_ (by simp)
  · exact (Scan.mode_run {} {} rfl).trans (congrArg Scan.mode hbody.ends)
  · exact forall_mem_cons.mpr ⟨by decide, hrest⟩

/-- The declaration of an object. -/
def objectDeclaration (name : List Char) (fs : List Field) (index : Option (List Char)) :
    Declaration :=
  { name := .text (String.ofList name), body := .object fs, attributes := additional index }

theorem declaration_interface
    (hcloser : closer? ('{' :: (body ++ '}' :: rest)) = some (body.length + 1)) {fs : List Field}
    {index : Option (List Char)} (hfields : fields body = .ok (fs, index))
    (hrest : p.rest = body ++ '}' :: rest) {start : Place} :
    declaration ⟨start, p, [(1, name)]⟩ =
      .ok (some (.ok (objectDeclaration name fs index)), p.behind (body ++ ['}']) rest) := by
  have htake : p.rest.take (body.length + 1 - 1) = body := by simp [hrest]
  have hskip : p.skip (body.length + 1) = p.behind (body ++ ['}']) rest := by
    rw [← Place.skip_length (by simp [hrest]), length_append]
    rfl
  have hgroup : Found.get? ⟨start, p, [(1, name)]⟩ 1 = some name := rfl
  rw [declaration, hgroup]
  dsimp only
  rw [braced, hrest, hcloser, ← hrest]
  dsimp only
  rw [htake, hskip, hfields]
  rfl

theorem not_slash_interfaceText (hname : isName name) :
    ∀ c ∈ interfaceText name, c ≠ '/' ∧ isQuote c = false := by
  refine forall_mem_append.mpr ⟨by decide, forall_mem_cons.mpr ⟨by decide, ?_⟩⟩
  exact forall_mem_append.mpr ⟨not_slash_of_isName hname, by decide⟩

theorem extract_interface (hname : isName name)
    (hfree : CommentMarks.strip {} body = body) (hbody : Sealed everyOpener body)
    {fs : List Field} {index : Option (List Char)} (hfields : fields body = .ok (fs, index)) :
    extract (interfaceText name ++ (body ++ ['}'])) =
      ⟨.ok { declarations := [objectDeclaration name fs index] }, []⟩ := by
  refine extract_single (strip_object (not_slash_interfaceText hname) (by simp) hfree hbody)
    (search?_interface hname rfl rfl)
    (declaration_interface (hbody.closer?_eq (d := .brace) (by decide) nofun []) hfields rfl)
      (search?_end rfl ?_)
  rw [Place.behind, getLast?_append]
  rfl

/-! ### Aliases -/

section Alias

variable {fs : List Field} {index : Option (List Char)}

theorem passes_alias (hbody : Sealed everyOpener body) :
    Passes everyOpener (· == ';') prev {} ([' ', '{'] ++ (body ++ ['}'])) (some '}') {} := by
  refine .cons (by decide) ?_
  exact hbody.passes_group (d := .brace) (by decide) (by decide) (by decide) (by decide) rfl

/-- A brace at the start stays open over text without stray closers. -/
theorem exists_openAtEnd? (h : strayless everyOpener none {} body) :
    ∃ opener, openAtEnd? everyOpener ('{' :: body) = some opener := by
  have hrun : Scan.run everyOpener none {} ('{' :: body) =
      (Scan.run everyOpener (some '{') {} body).within { brace := 1 } := by
    rw [← run_within (by rw [strayless_congr (q := none) (by decide) (by decide), h]), within_top]
    rfl
  rw [openAtEnd?, hrun]
  split
  · exact ⟨_, rfl⟩
  · refine ⟨'{', ?_⟩
    simp [Delimiter.all, Depths.get, Scan.within, Depths.add, Delimiter.opener]

theorem aliasDeclaration_object (hbody : Sealed everyOpener body)
    (hfields : fields body = .ok (fs, index)) (hrest : p.rest = [' ', '{'] ++ (body ++ ['}', ';']))
    (hlines : ¬HoldsStatement statementWords statementKeywords body) :
    aliasDeclaration name p =
      .ok (some (.ok (objectDeclaration name fs index)), p.behind p.rest []) := by
  have hwhole : p.rest = ([' ', '{'] ++ (body ++ ['}'])) ++ [';'] := by simp [hrest]
  have hlength :
      statementLength everyOpener nextStatement p = ([' ', '{'] ++ (body ++ ['}'])).length :=
    (findsStatements_nextStatement.statementLength_surrounded (passes_alias hbody) rfl hrest
      (by decide) (by decide)).1 hlines
  have htext :
      Text.trim (p.rest.take ([' ', '{'] ++ (body ++ ['}'])).length) = '{' :: (body ++ ['}']) := by
    have htrim : Text.trim ([' '] ++ '{' :: (body ++ ['}']) ++ []) = '{' :: (body ++ ['}']) :=
      Text.trim_append (by decide) (by decide) ⟨'{', rfl, by decide⟩
        ⟨'}', by rw [getLast?_cons, getLast?_append]; rfl, by decide⟩
    rw [hwhole, take_left]
    rwa [append_nil] at htrim
  have hopen : openAtEnd? everyOpener ('{' :: (body ++ ['}'])) = none := by
    have hgroup : Passes everyOpener (· == ';') none {} ('{' :: (body ++ ['}'])) (some '}') {} :=
      hbody.passes_group (d := .brace) (by decide) (by decide) (by decide) (by decide) rfl
    rw [openAtEnd?, hgroup.run_eq]
    rfl
  have hskip : p.skip (([' ', '{'] ++ (body ++ ['}'])).length + 1) = p.behind p.rest [] := by
    have hlast : p.rest.length = ([' ', '{'] ++ (body ++ ['}'])).length + 1 := by
      rw [hwhole]
      exact length_append
    rw [← Place.skip_length (append_nil _).symm, hlast]
  rw [aliasDeclaration, hlength]
  dsimp only
  rw [htext, hopen, hskip, hbody.enclosed?_eq (by decide)]
  dsimp only
  rw [hfields]
  rfl

theorem aliasDeclaration_cut (hbody : Sealed everyOpener body)
    (hrest : p.rest = [' ', '{'] ++ (body ++ ['}', ';']))
    (hlines : HoldsStatement statementWords statementKeywords body) :
    ∃ e next, aliasDeclaration name p = .ok (some (.error e), next) := by
  obtain ⟨part, hpart, hlength⟩ := (findsStatements_nextStatement.statementLength_surrounded
    (passes_alias hbody) rfl hrest (by decide) (by decide)).2 hlines
  have htake : p.rest.take ([' ', '{'] ++ part).length = ' ' :: '{' :: part := by
    obtain ⟨others, rfl⟩ := hpart
    rw [hrest, append_assoc, ← append_assoc, take_left]
    rfl
  have htrim : Text.trim (' ' :: '{' :: part) = '{' :: Text.trimEnd part :=
    Text.trimEnd_cons_of_not_isBlank (by decide) part
  have hkept : Text.trimEnd part <+: body := (Text.trimEnd_isPrefix part).trans hpart
  obtain ⟨opener, hopen⟩ := exists_openAtEnd? (strayless_of_isPrefix hbody.strayless hkept)
  rw [aliasDeclaration, hlength, htake, htrim]
  dsimp only
  rw [hopen]
  exact ⟨_, _, rfl⟩

theorem strip_alias (hname : isName name) (hfree : CommentMarks.strip {} body = body)
    (hbody : Sealed everyOpener body) :
    CommentMarks.strip {} (aliasText name ++ ([' ', '{'] ++ (body ++ ['}', ';']))) =
      aliasText name ++ ([' ', '{'] ++ (body ++ ['}', ';'])) := by
  rw [← append_assoc]
  refine strip_object (forall_mem_append.mpr ⟨?_, by decide⟩) (by decide) hfree hbody
  refine forall_mem_append.mpr ⟨by decide, forall_mem_cons.mpr ⟨by decide, ?_⟩⟩
  exact forall_mem_append.mpr ⟨not_slash_of_isName hname, by decide⟩

end Alias

/-- The source `interface N {B}`. -/
def interfaceSource (name body : List Char) : List Char := interfaceText name ++ (body ++ ['}'])

/-- The source `type N = {B};`. -/
def aliasSource (name body : List Char) : List Char :=
  aliasText name ++ ([' ', '{'] ++ (body ++ ['}', ';']))

example : interfaceSource ['N'] "\n  type: string\n".toList =
    "interface N \x7b\n  type: string\n\x7d".toList := by
  decide

example : aliasSource ['N'] "\n  type: string\n".toList =
    "type N = \x7b\n  type: string\n\x7d;".toList := by
  decide

/-- An object is declared by an alias as it is by an interface exactly if no line of its body starts
a statement; the interface declares it in every case, without a warning. -/
theorem extract_alias_eq_interface_iff (name body : List Char) (hname : isName name = true)
    (hfree : CommentMarks.strip {} body = body) (hbody : Sealed everyOpener body) :
    ∃ fs index, fields body = .ok (fs, index) ∧
      extract (interfaceSource name body) =
        ⟨.ok { declarations := [objectDeclaration name fs index] }, []⟩ ∧
      (extract (aliasSource name body) = extract (interfaceSource name body) ↔
        ¬HoldsStatement statementWords statementKeywords body) := by
  obtain ⟨fs, index, hfields⟩ := exists_fields body
  have hinterface := extract_interface hname hfree hbody hfields
  have hstrip := strip_alias hname hfree hbody
  rw [interfaceSource, hinterface, aliasSource]
  refine ⟨fs, index, hfields, rfl, ?_⟩
  let p := (Place.start (aliasSource name body)).behind (aliasText name)
    ([' ', '{'] ++ (body ++ ['}', ';']))
  by_cases hlines : HoldsStatement statementWords statementKeywords body
  · obtain ⟨e, next, hcut⟩ := @aliasDeclaration_cut name body p hbody rfl hlines
    exact iff_of_false (extract_ne hstrip (search?_alias hname) hcut _) (not_not_intro hlines)
  · have hobject := @aliasDeclaration_object name body p _ _ hbody hfields rfl hlines
    refine iff_of_true (extract_single hstrip (search?_alias hname) hobject (search?_end rfl ?_))
      hlines
    have hlast : p.rest.getLast? = some ';' := by
      change ([' ', '{'] ++ (body ++ ['}', ';'])).getLast? = some ';'
      rw [getLast?_append, getLast?_append]
      rfl
    rw [Place.behind, hlast]
    rfl

/-- A field that is named like a keyword cuts the alias short. -/
theorem extract_alias_ne_interface :
    ∃ fs index, fields "\n  type: string\n".toList = .ok (fs, index) ∧
      extract (interfaceSource ['N'] "\n  type: string\n".toList) =
        ⟨.ok { declarations := [objectDeclaration ['N'] fs index] }, []⟩ ∧
      extract (aliasSource ['N'] "\n  type: string\n".toList) ≠
        extract (interfaceSource ['N'] "\n  type: string\n".toList) := by
  obtain ⟨fs, index, hfields, hinterface, hiff⟩ := extract_alias_eq_interface_iff ['N']
    "\n  type: string\n".toList (by decide) (by decide) ⟨by decide, by decide⟩
  have hlines : HoldsStatement statementWords statementKeywords "\n  type: string\n".toList :=
    ⟨[], "  type".toList, ": string\n".toList, by decide,
      ⟨"  ".toList, [], "type", by decide, by decide,
      ⟨[], [], rfl, .inl rfl, [], [], rfl, .inl rfl, rfl⟩, by decide⟩, by decide⟩
  exact ⟨fs, index, hfields, hinterface, fun heq => hiff.mp heq hlines⟩

end Crosswalk.TypeScript
