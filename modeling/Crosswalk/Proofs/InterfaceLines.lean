import Crosswalk.Proofs.ObjectAliases

/-!
Interfaces on lines of their own. The search for a head goes on behind the brace that closes a body,
so that nothing within a body is taken for a head. Main statement: of interfaces on lines, each is
declared with the fields of its body, in order and without a warning, and nothing else is declared.
-/

namespace Crosswalk.TypeScript

open List
open Text (Place isWord)
open Text.Pattern

/-- An interface whose body holds no comment and is closed by the brace behind it. -/
structure Interface where
  name : List Char
  body : List Char
  isName : Identifier.isName name = true
  uncommented : CommentMarks.strip {} body = body
  closed : closer? ('{' :: (body ++ ['}'])) = some (body.length + 1)

/-- A body may hold what looks like a head, and a brace in a literal. -/
def Interface.withHead : Interface where
  name := ['N']
  body := " a: '\x7d'; interface B \x7b\x7d ".toList
  isName := by decide
  uncommented := by decide
  closed := by decide

namespace Interface

variable {i : Interface} {is : List Interface} {rest : List Char} {p : Place}

def text (i : Interface) : List Char := interfaceSource i.name i.body

/-- Interfaces with the end of a line between them. -/
def lines (is : List Interface) : List Char := ['\n'].intercalate (is.map text)

/-- Interfaces, each after the end of a line. -/
def following (is : List Interface) : List Char := is.flatMap fun i => '\n' :: i.text

theorem following_cons (i : Interface) (is : List Interface) :
    following (i :: is) = '\n' :: (i.text ++ following is) := rfl

theorem lines_cons (i : Interface) (is : List Interface) :
    lines (i :: is) = i.text ++ following is := by
  induction is generalizing i with
  | nil => simp [lines, following]
  | cons j is ih =>
    have hlines : lines (i :: j :: is) = i.text ++ '\n' :: lines (j :: is) := by simp [lines]
    rw [hlines, ih, following_cons]

theorem length_le_lines (i : Interface) (is : List Interface) :
    is.length ≤ (lines (i :: is)).length := by
  have hfollowing : is.length ≤ (following is).length := by
    induction is with
    | nil => exact Nat.le_refl 0
    | cons j is ih =>
      rw [following_cons, length_cons, length_cons, length_append]
      exact Nat.succ_le_succ (Nat.le_trans ih (Nat.le_add_left ..))
  rw [lines_cons, length_append]
  exact Nat.le_trans hfollowing (Nat.le_add_left ..)

/-- The interface is declared with what its body holds. -/
def Declares (i : Interface) (d : Declaration) : Prop :=
  ∃ fs index, fields i.body = .ok (fs, index) ∧ d = objectDeclaration i.name fs index

/-! ### Bodies -/

theorem brace_mem_everyOpener : Delimiter.brace.opener ∈ everyOpener := by decide

theorem closerAt?_body (i : Interface) :
    closerAt? ('{' :: (i.body ++ ['}'])) 0 = some (i.body.length + 1) := by
  rw [closerAt?, drop_zero, i.closed]
  rfl

/-- The brace closes the body whatever follows it. -/
theorem closer?_body (i : Interface) (rest : List Char) :
    closer? ('{' :: (i.body ++ '}' :: rest)) = some (i.body.length + 1) := by
  have hmore := closerAt?_append brace_mem_everyOpener rfl rfl i.closerAt?_body rest
  simpa [closerAt?] using hmore

/-- The body ends in code. -/
theorem mode_body (i : Interface) : (Scan.run [] none {} i.body).mode = .code := by
  have hcode := scanTo_closer brace_mem_everyOpener rfl rfl i.closerAt?_body
  rw [scanTo, take_succ_cons, take_left' rfl, Scan.run] at hcode
  exact (Scan.mode_run {} (({} : Scan).step everyOpener none '{') rfl).trans hcode

/-! ### Comments -/

theorem stripsTo_text {left : List Char} (hleft : ∀ c ∈ left, c ≠ '/' ∧ isQuote c = false)
    (i : Interface) (hrest : CommentMarks.StripsTo {} {} rest rest) :
    CommentMarks.StripsTo {} {} (left ++ (i.text ++ rest)) (left ++ (i.text ++ rest)) := by
  have hbrace : CommentMarks.StripsTo {} {} ('}' :: rest) ('}' :: rest) :=
    .keep (.inr rfl) (by rwa [Scan.step_untracked rfl rfl])
  have hsurrounded := CommentMarks.stripsTo_surrounded i.uncommented i.mode_body
    (forall_mem_append.mpr ⟨hleft, not_slash_interfaceText i.isName⟩) hbrace (by simp)
  simpa only [text, interfaceSource, append_assoc, cons_append, nil_append] using hsurrounded

theorem stripsTo_following (is : List Interface) :
    CommentMarks.StripsTo {} {} (following is) (following is) := by
  induction is with
  | nil => exact .nil
  | cons i is ih => exact @stripsTo_text _ ['\n'] (by decide) i ih

/-! ### Findings -/

theorem any_isWord_behind (i : Interface) : (p.behind i.text rest).previous.any isWord = false := by
  rw [Place.behind, text, interfaceSource, getLast?_append, getLast?_append]
  rfl

/-- One interface is found, and the search goes on behind it. -/
theorem findingsFrom_text (i : Interface) (hprev : p.previous.any isWord = false)
    (hrest : p.rest = i.text ++ rest) :
    ∃ d, i.Declares d ∧ ∀ found fuel, findingsFrom found (fuel + 1) p =
      findingsFrom (.ok d :: found) fuel (p.behind i.text rest) := by
  obtain ⟨fs, index, hfields⟩ := exists_fields i.body
  have hhead : p.rest = interfaceText i.name ++ (i.body ++ '}' :: rest) := by
    simpa only [text, interfaceSource, append_assoc, cons_append, nil_append] using hrest
  have hsearch := search?_interface i.isName hprev hhead
  have hnext := @declaration_interface i.name i.body rest (p.behind (interfaceText i.name) _)
    (i.closer?_body rest) _ _ hfields rfl p
  rw [Place.behind_behind] at hnext
  exact ⟨_, ⟨fs, index, hfields, rfl⟩, findingsFrom_next hsearch hnext⟩

/-- No head starts at the end of a line behind a body. -/
theorem search?_newline (hprev : p.previous.any isWord = false) (hrest : p.rest = '\n' :: rest) :
    declarationHead.search? p = declarationHead.search? (p.behind ['\n'] rest) := by
  obtain ⟨n, prev, cs⟩ := p
  obtain rfl : cs = '\n' :: rest := hrest
  have hfails : declarationHead.Fails prev ('\n' :: rest) := by
    refine Fails.seq (Fails.seq ?_)
    rintro x y hxy ⟨rfl, hedge⟩
    obtain rfl : y = '\n' :: rest := hxy.symm
    exact hedge hprev
  have hnone : declarationHead.matchAt? ⟨n, prev, '\n' :: rest⟩ = none := hfails.first_eq_none
  rw [search?_cons, hnone]
  rfl

theorem findingsFrom_following (is : List Interface) (found : List Finding) {fuel : Nat}
    (hfuel : is.length ≤ fuel) (hprev : p.previous.any isWord = false)
    (hrest : p.rest = following is) :
    ∃ ds, Forall₂ Declares is ds ∧
      findingsFrom found fuel p = .ok (found.reverse ++ ds.map .ok) := by
  induction is generalizing found fuel p with
  | nil =>
    refine ⟨[], .nil, ?_⟩
    rw [findingsFrom_end (search?_end hrest hprev), map_nil, append_nil]
  | cons i is ih =>
    obtain ⟨fuel, rfl⟩ := Nat.exists_eq_add_one_of_ne_zero (Nat.ne_zero_of_lt hfuel)
    rw [following_cons] at hrest
    let q := p.behind ['\n'] (i.text ++ following is)
    have hskip : findingsFrom found (fuel + 1) p = findingsFrom found (fuel + 1) q := by
      rw [findingsFrom, findingsFrom, search?_newline hprev hrest]
    obtain ⟨d, hd, hfound⟩ := findingsFrom_text i (p := q) rfl rfl
    obtain ⟨ds, hds, hall⟩ := ih (p := q.behind i.text (following is)) (.ok d :: found)
      (Nat.le_of_succ_le_succ hfuel) i.any_isWord_behind rfl
    refine ⟨d :: ds, .cons hd hds, ?_⟩
    rw [hskip, hfound, hall]
    simp

/-- If nothing is skipped, there is no warning. -/
theorem extract_of_findings {source : List Char} {ds : List Declaration}
    (hstrip : CommentMarks.strip {} source = source)
    (h : findingsFrom [] (source.length + 1) (.start source) = .ok (ds.map .ok)) :
    extract source = ⟨.ok { declarations := ds }, []⟩ := by
  have hkept : (ds.map (.ok : Declaration → Finding)).filterMap (fun f => f.toOption) = ds := by
    rw [filterMap_map]
    exact filterMap_some
  have hlog : (Document.report (ds.map (.ok : Declaration → Finding))).log = [] := by
    simp [Document.report]
  rw [extract_eq hstrip h, hkept, hlog]

/-- Of interfaces on lines each is declared with the fields of its body, in order, and there is no
warning. -/
theorem extract_lines (is : List Interface) :
    ∃ ds, extract (lines is) = ⟨.ok { declarations := ds }, []⟩ ∧ Forall₂ Declares is ds := by
  cases is with
  | nil => exact ⟨[], rfl, .nil⟩
  | cons i is =>
    have hstrip : CommentMarks.strip {} (lines (i :: is)) = lines (i :: is) := by
      rw [lines_cons]
      exact (@stripsTo_text _ [] (by simp) i (stripsTo_following is)).strip_eq
        CommentMarks.areWords_default
    obtain ⟨d, hd, hfound⟩ :=
      findingsFrom_text i (p := .start (lines (i :: is))) rfl (lines_cons i is)
    obtain ⟨ds, hds, hall⟩ := findingsFrom_following is [.ok d] (length_le_lines i is)
      (p := (Place.start (lines (i :: is))).behind i.text (following is)) i.any_isWord_behind rfl
    exact ⟨d :: ds, extract_of_findings hstrip ((hfound [] _).trans hall), .cons hd hds⟩

/-- What looks like a head in a body declares nothing. -/
theorem extract_withHead :
    withHead.text = "interface N \x7b a: '\x7d'; interface B \x7b\x7d \x7d".toList ∧
      ∃ d, extract withHead.text = ⟨.ok { declarations := [d] }, []⟩ ∧ withHead.Declares d := by
  obtain ⟨ds, hextract, hall⟩ := extract_lines [withHead]
  cases hall with
  | cons hd hall =>
    cases hall
    exact ⟨by decide, _, hextract, hd⟩

end Interface

end Crosswalk.TypeScript
