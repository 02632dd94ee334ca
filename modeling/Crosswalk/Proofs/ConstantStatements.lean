import Crosswalk.Proofs.ChainTexts
import Crosswalk.Proofs.StatementLines

/-!
Statements that set a constant to a schema. The constant is found by its head and by the `z.` behind
it, and the statement goes up to its semicolon, or to a line that starts another statement, wherever
that line stands. Main statement: an object schema declares an object with all its fields exactly if
no line of its body starts a statement.
-/

namespace Crosswalk.Zod

open List
open Text (Pattern Place isBlank isWord trim trimEnd trim_between)
open Text.Pattern
open Identifier (isName isPart isStart)

variable {c : Char}

/-! ### Heads of constants and routers -/

/-- A constant up to the end of its name, with the blanks behind it. -/
def ConstantStart (x : List Char) : Prop :=
  ∃ marks b name b', x = marks ++ ("const".toList ++ (b ++ (name ++ b'))) ∧ Lead "export" marks ∧
    b ≠ [] ∧ (∀ c ∈ b, isBlank c = true) ∧ isName name = true ∧ ∀ c ∈ b', isBlank c = true

/-- A constant up to its value; what stands between a colon and the equals sign is its type. -/
def ConstantText (x : List Char) : Prop :=
  ∃ start type b, x = start ++ (type ++ '=' :: b) ∧ ConstantStart start ∧
    (type = [] ∨ ∃ t, t ≠ [] ∧ '=' ∉ t ∧ type = ':' :: t) ∧ ∀ c ∈ b, isBlank c = true

/-- A router up to the brace before its procedures. -/
def RouterText (x : List Char) : Prop :=
  ∃ b b', x = "router".toList ++ (b ++ '(' :: (b' ++ ['{'])) ∧ (∀ c ∈ b, isBlank c = true) ∧
    ∀ c ∈ b', isBlank c = true

section Spans

variable {prev : Option Char} {x rest : List Char}

/-- What a constant's head matches behind the edge of the word. -/
def constantBody : Pattern :=
  maybe (text "export" ++ blanks1) ++ text "const" ++ blanks1 ++
  .group 1 (.one isStart ++ .run isPart) ++ blanks ++
  maybe (char ':' ++ run1 (· != '=')) ++ char '=' ++ blanks

theorem spans_constantBody : constantBody.Spans prev x rest ↔ ConstantText x := by
  constructor
  · rintro ⟨_, b'', rfl, ⟨_, _, rfl, ⟨_, type, rfl, ⟨_, b', rfl, ⟨_, name, rfl, ⟨_, b, rfl,
      ⟨marks, _, rfl, hmarks, hword⟩, hb⟩, hname⟩, hb'⟩, htype⟩, hequals⟩, hb''⟩
    obtain ⟨hne, hb⟩ := spans_run1.mp hb
    rw [spans_text.mp hword, spans_char.mp hequals]
    have hstart : ConstantStart (marks ++ ("const".toList ++ (b ++ (name ++ b')))) :=
      ⟨marks, b, name, b', rfl, spans_lead.mp hmarks, hne, hb, spans_name.mp hname, hb'⟩
    refine ⟨_, type, b'', by simp only [append_assoc]; rfl, hstart, ?_, hb''⟩
    rcases htype with ⟨_, t, rfl, hcolon, ht⟩ | htype
    · obtain ⟨hne, ht⟩ := spans_run1.mp ht
      refine .inr ⟨t, hne, fun h => ?_, by rw [spans_char.mp hcolon]; rfl⟩
      simpa using ht '=' h
    · exact .inl htype
  · rintro ⟨_, type, b'', rfl, ⟨marks, b, name, b', rfl, hmarks, hne, hb, hname, hb'⟩, htype, hb''⟩
    refine ⟨marks ++ "const".toList ++ b ++ name ++ b' ++ type ++ ['='], b'',
      by simp only [append_assoc]; rfl, ⟨_, _, rfl, ⟨_, _, rfl, ⟨_, _, rfl, ⟨_, _, rfl, ⟨_, _, rfl,
        ⟨_, _, rfl, spans_lead.mpr hmarks, spans_text.mpr rfl⟩, spans_run1.mpr ⟨hne, hb⟩⟩,
          spans_name.mpr hname⟩,
        hb'⟩, ?_⟩, spans_char.mpr rfl⟩, hb''⟩
    rcases htype with htype | ⟨t, hne, ht, rfl⟩
    · exact .inr htype
    · refine .inl ⟨[':'], t, rfl, spans_char.mpr rfl, spans_run1.mpr ⟨hne, fun c hc => ?_⟩⟩
      rw [bne_iff_ne]
      rintro rfl
      exact ht hc

/-- A constant starts with one of two words. -/
theorem ConstantText.prefix (h : ConstantText x) :
    "const".toList <+: x ∨ "export".toList <+: x := by
  obtain ⟨_, type, b'', rfl, ⟨marks, b, name, b', rfl, hmarks, -⟩, -⟩ := h
  rcases hmarks with rfl | ⟨_, _, _, rfl⟩
  · rw [nil_append, append_assoc]
    exact .inl (prefix_append _ _)
  · rw [append_assoc, append_assoc]
    exact .inr (prefix_append _ _)

theorem ConstantText.head? (h : ConstantText x) : x.head? = some 'c' ∨ x.head? = some 'e' := by
  rcases h.prefix with ⟨z, rfl⟩ | ⟨z, rfl⟩
  · exact .inl rfl
  · exact .inr rfl

/-- A constant is found behind what is no word and in front of `z.`. -/
theorem spans_constantHead : constantHead.Spans prev x rest ↔
    prev.any isWord = false ∧ ConstantText x ∧ ['z', '.'] <+: rest := by
  have hhead : constantHead.Spans prev x rest ↔
      prev.any isWord ≠ (x ++ rest).head?.any isWord ∧ constantBody.Spans prev x rest ∧
        ['z', '.'] <+: rest := by
    rw [constantHead]
    simp only [spans_assoc]
    have hmark : ['z', '.'] = "z.".toList := by decide
    rw [spans_wordEdge_seq, hmark, ← spans_seq_ahead]
    simp only [constantBody, spans_assoc]
  rw [hhead, spans_constantBody]
  refine and_congr_left fun ⟨hx, _⟩ => ?_
  have hword : (x ++ rest).head?.any isWord := by
    rw [head?_append]
    rcases hx.head? with hx | hx <;> rw [hx, Option.some_or] <;> decide
  rw [hword, ne_eq, Bool.not_eq_true]

theorem spans_routerHead :
    routerHead.Spans prev x rest ↔ prev.any isWord = false ∧ RouterText x := by
  have hhead : routerHead.Spans prev x rest ↔ prev.any isWord ≠ (x ++ rest).head?.any isWord ∧
      (text "router" ++ (blanks ++ (char '(' ++ (blanks ++ char '{')))).Spans prev x rest := by
    rw [routerHead]
    simp only [spans_assoc]
    rw [spans_wordEdge_seq]
  have htext : (text "router" ++ (blanks ++ (char '(' ++ (blanks ++ char '{')))).Spans prev x rest ↔
      RouterText x := by
    constructor
    · rintro ⟨_, _, rfl, hword, b, _, rfl, hb, _, _, rfl, hparen, b', _, rfl, hb', hbrace⟩
      rw [spans_text.mp hword, spans_char.mp hparen, spans_char.mp hbrace]
      exact ⟨b, b', rfl, hb, hb'⟩
    · rintro ⟨b, b', rfl, hb, hb'⟩
      exact ⟨_, _, rfl, spans_text.mpr rfl, b, _, rfl, hb, ['('], _, rfl, spans_char.mpr rfl, b', _,
        rfl, hb', spans_char.mpr rfl⟩
  rw [hhead, htext]
  refine and_congr_left fun hx => ?_
  have hword : (x ++ rest).head?.any isWord := by
    obtain ⟨b, b', rfl, -⟩ := hx
    have hfirst : ("router".toList ++ (b ++ '(' :: (b' ++ ['{'])) ++ rest).head? = some 'r' := rfl
    rw [hfirst]
    decide
  rw [hword, ne_eq, Bool.not_eq_true]

end Spans

/-- A constant is set to a schema in the text. -/
def HoldsConstant (cs : List Char) : Prop :=
  ∃ before x rest, cs = before ++ (x ++ (['z', '.'] ++ rest)) ∧ before.getLast?.any isWord = false ∧
    ConstantText x

/-- A router is made in the text. -/
def HoldsRouter (cs : List Char) : Prop :=
  ∃ before x rest, cs = before ++ (x ++ rest) ∧ before.getLast?.any isWord = false ∧ RouterText x

section Holds

variable {prev : Option Char} {cs : List Char}

theorem any_or_of_not {x : List Char} (hprev : prev.any isWord = false) :
    (x.getLast?.or prev).any isWord = x.getLast?.any isWord := by
  cases x.getLast? with
  | none => exact hprev
  | some c => rfl

theorem occurs_constantHead_iff (hprev : prev.any isWord = false) :
    constantHead.Occurs prev cs ↔ HoldsConstant cs := by
  constructor
  · rintro ⟨before, x, _, rfl, hspans⟩
    obtain ⟨hbefore, hx, rest, rfl⟩ := spans_constantHead.mp hspans
    rw [any_or_of_not hprev] at hbefore
    exact ⟨before, x, rest, rfl, hbefore, hx⟩
  · rintro ⟨before, x, rest, rfl, hbefore, hx⟩
    refine ⟨before, x, _, rfl, spans_constantHead.mpr ⟨?_, hx, rest, rfl⟩⟩
    rw [any_or_of_not hprev, hbefore]

theorem occurs_routerHead_iff (hprev : prev.any isWord = false) :
    routerHead.Occurs prev cs ↔ HoldsRouter cs := by
  constructor
  · rintro ⟨before, x, rest, rfl, hx⟩
    obtain ⟨hbefore, hx⟩ := spans_routerHead.mp hx
    rw [any_or_of_not hprev] at hbefore
    exact ⟨before, x, rest, rfl, hbefore, hx⟩
  · rintro ⟨before, x, rest, rfl, hbefore, hx⟩
    refine ⟨before, x, _, rfl, spans_routerHead.mpr ⟨?_, hx⟩⟩
    rw [any_or_of_not hprev, hbefore]

end Holds

/-! ### Heads in other texts -/

section Context

variable {l b r before x rest : List Char}

theorem any_getLast?_of_append (h : (l ++ before).getLast?.any isWord = false) :
    before.getLast?.any isWord = false := by
  rw [getLast?_append] at h
  cases hlast : before.getLast? with
  | none => rfl
  | some c =>
    rw [hlast] at h
    exact h

theorem holdsConstant_of_between (h : l ++ (b ++ r) = before ++ (x ++ (['z', '.'] ++ rest)))
    (hstart : l.length ≤ before.length) (hr : '.' ∉ r)
    (hbefore : before.getLast?.any isWord = false) (hx : ConstantText x) : HoldsConstant b := by
  rw [← append_assoc x] at h
  have hlast : (x ++ ['z', '.']).getLast? = some '.' := by
    rw [getLast?_append]
    rfl
  obtain ⟨before, rest, rfl, -, rfl⟩ := exists_between h hstart hlast hr
  exact ⟨before, x, rest, by rw [append_assoc], any_getLast?_of_append hbefore, hx⟩

theorem holdsRouter_of_between (h : l ++ (b ++ r) = before ++ (x ++ rest))
    (hstart : l.length ≤ before.length) (hr : '{' ∉ r)
    (hbefore : before.getLast?.any isWord = false) (hx : RouterText x) : HoldsRouter b := by
  have hlast : x.getLast? = some '{' := by
    obtain ⟨b, b', rfl, -⟩ := hx
    generalize "router".toList = word
    rw [getLast?_append, getLast?_append, getLast?_cons, getLast?_append]
    rfl
  obtain ⟨before, rest, rfl, -, rfl⟩ := exists_between h hstart hlast hr
  exact ⟨before, x, rest, rfl, any_getLast?_of_append hbefore, hx⟩

/-- Nothing that starts like `w` starts in `l`. -/
theorem length_le_of_incompatible {w : List Char} (h : l ++ b = x ++ (w ++ rest))
    (hl : ∀ i < l.length, ¬l.drop i <+: w ∧ ¬w <+: l.drop i) : l.length ≤ x.length := by
  by_contra hlt
  obtain ⟨l', rfl⟩ : x <+: l := prefix_of_prefix_length_le ⟨_, h.symm⟩ ⟨_, rfl⟩ (by omega)
  rw [append_assoc, append_cancel_left_eq] at h
  have hdrop := hl x.length (by omega)
  rw [drop_left] at hdrop
  rcases prefix_or_prefix_of_prefix ⟨b, h⟩ ⟨rest, rfl⟩ with hpre | hpre
  · exact hdrop.1 hpre
  · exact hdrop.2 hpre

/-- A word without `c` and the `d` behind it start behind the first `c`. -/
theorem length_lt_of_parted {w : List Char} {d : Char} (h : l ++ c :: b = x ++ (w ++ d :: rest))
    (hc : c ∉ w) (hd : d ∉ l) (hne : c ≠ d) : l.length < x.length := by
  by_contra hlt
  obtain ⟨l', rfl⟩ : x <+: l := prefix_of_prefix_length_le ⟨_, h.symm⟩ ⟨_, rfl⟩ (by omega)
  rw [append_assoc, append_cancel_left_eq, append_eq_append_iff] at h
  rcases h with ⟨u, rfl, hu⟩ | ⟨u, rfl, hu⟩
  · cases u with
    | nil => exact hne (cons.inj hu).1
    | cons e u =>
      obtain ⟨rfl, -⟩ := cons.inj hu
      exact hc (by simp)
  · cases u with
    | nil => exact hne (cons.inj hu).1.symm
    | cons e u =>
      obtain ⟨rfl, -⟩ := cons.inj hu
      exact hd (by simp)

end Context

/-! ### Statements -/

/-- A constant up to its equals sign. -/
def constantName (name : List Char) : List Char := "const".toList ++ ' ' :: (name ++ [' '])

/-- The source `const S = E;`. -/
def constantSource (name e : List Char) : List Char :=
  constantName name ++ '=' :: ' ' :: (e ++ [';'])

example : constantSource ['S'] "z.string()".toList = "const S = z.string();".toList := by decide

section Constant

variable {name e : List Char}

theorem constantSource_eq (name e : List Char) :
    (constantName name ++ ['=', ' ']) ++ (e ++ [';']) = constantSource name e := by
  rw [constantSource, append_assoc]
  rfl

/-- What starts behind the equals sign and not with a space starts in the value. -/
theorem length_le_of_head? {before x rest : List Char}
    (h : constantSource name e = before ++ (x ++ rest))
    (hlt : (constantName name).length < before.length) (hx : x.head? = some c) (hc : c ≠ ' ') :
    (constantName name ++ ['=', ' ']).length ≤ before.length := by
  have hsource : (constantName name ++ ['=']) ++ ' ' :: (e ++ [';']) = before ++ (x ++ rest) := by
    rw [← h, constantSource, append_assoc]
    rfl
  obtain ⟨before, rfl⟩ : constantName name ++ ['='] <+: before :=
    prefix_of_prefix_length_le ⟨_, hsource⟩ ⟨_, rfl⟩ (by simpa using Nat.succ_le_of_lt hlt)
  rw [append_assoc _ before, append_cancel_left_eq] at hsource
  cases before with
  | nil =>
    have hhead := congrArg List.head? hsource
    rw [nil_append, head?_append, hx] at hhead
    cases hhead
    exact absurd rfl hc
  | cons d before =>
    simp only [length_append, length_cons, length_nil]
    omega

/-- A pattern that is found once. -/
theorem all_eq_single {a : Pattern} {cs : List Char} {m : Found}
    (hm : a.search? (.start cs) = some m) (hmoves : m.stop.index ≠ m.start.index)
    (hend : a.search? m.stop = none) : a.all cs = [m] := by
  rw [Pattern.all, allFrom, hm]
  dsimp only
  rw [if_neg hmoves]
  cases cs.length with
  | zero => rfl
  | succ n => rw [allFrom, hend]

/-- The match of the constant that a source sets. -/
def constantFound (name e : List Char) : Found :=
  ⟨.start (constantSource name e),
    (Place.start (constantSource name e)).behind (constantName name ++ ['=', ' ']) (e ++ [';']),
    [(1, name)]⟩

section Named

variable (hname : isName name)
include hname

theorem notMem_constantName (hc : isPart c = false ∧ c ≠ ' ') : c ∉ constantName name := by
  obtain ⟨d, ds, rfl, -, hparts⟩ := Member.exists_of_isName hname
  have hpart {cs : List Char} (hcs : ∀ d ∈ cs, isPart d) : c ∉ cs := fun h => by
    rw [hcs c h] at hc
    cases hc.1
  intro h
  rcases mem_append.mp h with h | h
  · exact hpart (by decide) h
  rcases mem_cons.mp h with h | h
  · exact hc.2 h
  rcases mem_append.mp h with h | h
  · exact hpart hparts h
  · exact hc.2 (mem_singleton.mp h)

theorem holdsRouter_constantSource (h : HoldsRouter (constantSource name e)) : HoldsRouter e := by
  obtain ⟨before, x, rest, hsplit, hbefore, hx⟩ := h
  have hlt : (constantName name).length < before.length := by
    obtain ⟨b, b', rfl, hb, -⟩ := hx
    have hword : '=' ∉ "router".toList ++ b := by
      rw [mem_append, not_or]
      exact ⟨by decide, fun h => absurd (hb _ h) (by decide)⟩
    generalize "router".toList = word at hword hsplit
    rw [constantSource, ← append_assoc word, append_assoc] at hsplit
    exact length_lt_of_parted hsplit hword (notMem_constantName hname (by decide)) (by decide)
  have hhead : x.head? = some 'r' := by
    obtain ⟨b, b', rfl, -⟩ := hx
    rfl
  exact holdsRouter_of_between ((constantSource_eq name e).trans hsplit)
    (length_le_of_head? hsplit hlt hhead (by decide)) (by decide) hbefore hx

/-! ### Extraction -/

/-- The head of a constant whose value starts a chain. -/
theorem offers_constantHead (rest : List Char) :
    Offers constantHead none (constantName name ++ ['=', ' ']) ('z' :: '.' :: rest) []
      [(1, name)] := by
  have hhead : Offers constantHead none
      ([] ++ [] ++ "const".toList ++ [' '] ++ name ++ [' '] ++ [] ++ ['='] ++ [' '] ++ [])
        ('z' :: '.' :: rest) []
      [(1, name)] := by
    refine .seq (.seq (.seq (.seq (.seq (.seq (.seq (.seq (.seq (.wordEdge ?_)
      (.maybe (fails_text ?_).seq)) .text) (.space ?_)) (offers_name hname ?_)) (.run ?_ ?_))
      (.maybe (fails_char ?_).seq)) .char) (.run ?_ ?_))
      (.ahead (x := "z.".toList) .text)
    · change false ≠ (some 'c').any isWord
      decide
    · rfl
    · exact isBlank_head?_name hname
    · exact isPart_space
    · decide
    · intro c hc
      cases hc
      decide
    · simp
    · decide
    · intro c hc
      cases hc
      decide
  rw [constantName]
  generalize "const".toList = word at hhead ⊢
  simpa only [append_assoc, nil_append, cons_append] using hhead

variable {source : List Char}

theorem all_constantSource (hchain : ['z', '.'] <+: e) (hconstant : ¬HoldsConstant e) :
    constantHead.all (constantSource name e) = [constantFound name e] := by
  obtain ⟨rest, rfl⟩ := hchain
  have hm : constantHead.search? (.start (constantSource name (['z', '.'] ++ rest))) =
      some (constantFound name (['z', '.'] ++ rest)) :=
    (offers_constantHead hname (rest ++ [';'])).search? (constantSource_eq name _).symm
  refine all_eq_single hm (by simp [constantFound, Place.behind]) ?_
  rw [search?_eq_none_iff, occurs_constantHead_iff]
  · rintro ⟨before, x, rest', hsplit, hbefore, hx⟩
    exact hconstant
      (holdsConstant_of_between (l := []) hsplit (Nat.zero_le _) (by decide) hbefore hx)
  · rw [constantFound, Place.behind, getLast?_append]
    rfl

/-- What a source declares that sets one constant to a chain. -/
theorem extract_chain (hstrip : CommentMarks.strip {} source = constantSource name e)
    (hchain : ['z', '.'] <+: e)
    (hconstant : ¬HoldsConstant e) : extract source = do
      let d ← Logged.lift (constant (constantFound name e))
      return { declarations := d :: (← procedures (constantSource name e)) } := by
  rw [extract, hstrip, all_constantSource hname hchain hconstant, mapM_cons, mapM_nil]
  cases constant (constantFound name e) <;> rfl

theorem procedures_constantSource (hrouter : ¬HoldsRouter e) :
    procedures (constantSource name e) = pure [] := by
  have hsearch : routerHead.search? (.start (constantSource name e)) = none := by
    rw [search?_eq_none_iff]
    exact fun h => hrouter (holdsRouter_constantSource hname ((occurs_routerHead_iff rfl).mp h))
  rw [procedures, hsearch]

/-- What a source declares that sets one constant and makes no router. -/
theorem extract_constant (hstrip : CommentMarks.strip {} source = constantSource name e)
    (hchain : ['z', '.'] <+: e) (hconstant : ¬HoldsConstant e) (hrouter : ¬HoldsRouter e) :
    extract source =
      ⟨(constant (constantFound name e)).map fun d => { declarations := [d] }, []⟩ := by
  rw [extract_chain hname hstrip hchain hconstant, procedures_constantSource hname hrouter]
  cases constant (constantFound name e) <;> rfl

end Named

/-- What stands between the braces of an object schema. -/
def objectBody? (calls : List Call) : Option (List Char) :=
  match calls with
  | [_, made] =>
    if made.name == "object" then made.args.bind fun args => enclosed? '{' (trim args) else none
  | _ => none

/-- What a constant declares that is set to a value. -/
def declared (name body : List Char) : Except Fault Declaration :=
  match objectBody? (chain body) with
  | some inner => (fields inner).map fun fs =>
    { name := .text (String.ofList (baseName name)), body := .object fs }
  | none => .ok { name := .text (String.ofList (baseName name)), body := .synonym (.text body) }

theorem constant_eq (m : Found) : constant m = declared (m.getD 1)
    (trim (m.stop.rest.take (TypeScript.statementLength tracked nextStatement m.stop))) := by
  unfold constant
  extract_lets n body name inner
  change _ = declared (m.getD 1) body
  clear_value body
  have hinner : objectBody? (chain body) = inner := by
    unfold inner
    generalize chain body = calls
    rfl
  rw [declared, hinner]
  cases inner <;> rfl

end Constant

/-! ### Object schemas -/

section Object

variable {name body : List Char} {stop : Char → Bool} {p : Option Char}

variable {cs : List Char}

/-- The schema `z.object({B})` up to the brace. -/
def objectHead : List Char := 'z' :: '.' :: ("object".toList ++ ['(', '{'])

/-- The schema `z.object({B})`. -/
def objectText (body : List Char) : List Char := objectHead ++ (body ++ ['}', ')'])

example : objectText "a: z.string()".toList = "z.object({a: z.string()})".toList := by decide

theorem objectText_eq (body : List Char) :
    objectText body = 'z' :: '.' :: ("object".toList ++ '(' :: '{' :: (body ++ ['}', ')'])) := by
  rw [objectText, objectHead, cons_append, cons_append, append_assoc]
  rfl

theorem stop_eq_false (hstop : ∀ c, stop c → c = '.' ∨ c = ';') (hdot : c ≠ '.')
    (hsemicolon : c ≠ ';') :
    stop c = false := by
  rw [Bool.eq_false_iff]
  intro hc
  exact (hstop c hc).elim hdot hsemicolon

/-- The walk stays within the braces. -/
theorem passes_object (hstop : ∀ c, stop c → c = '.' ∨ c = ';')
    (hbody : strayless tracked none {} body) :
    ∃ q, Passes tracked stop p {} ("object".toList ++ '(' :: '{' :: body) q
      ((Scan.run tracked none {} body).within { brace := 1, paren := 1 }) := by
  have hnot {c : Char} (hdot : c ≠ '.') (hsemicolon : c ≠ ';') : stop c = false :=
    stop_eq_false hstop hdot hsemicolon
  have hword : ∀ c ∈ "object".toList, isPlain c ∧ c ≠ '.' ∧ c ≠ ';' := by decide
  obtain ⟨q, hfirst⟩ : ∃ q, Passes tracked stop p {} "object".toList q {} :=
    passes_plain rfl fun c hc => ⟨(hword c hc).1, hnot (hword c hc).2.1 (hword c hc).2.2⟩
  have hcongr : strayless tracked (some '{') {} body := by
    rw [strayless_congr (q := none) (by decide) (by decide), hbody]
  obtain ⟨q', hinner⟩ :
      ∃ q', Passes tracked stop (some '{') (({} : Scan).within { brace := 1, paren := 1 }) body q'
        ((Scan.run tracked (some '{') {} body).within { brace := 1, paren := 1 }) :=
    passes_within hcongr (by decide)
  rw [within_top,
    Scan.run_congr (q := none) fun _ => iff_of_false (by decide) (by decide)] at hinner
  have hparen : (({} : Scan).atTop && stop '(') = false := by rw [hnot (by decide) (by decide)]; rfl
  have hbrace : ((({} : Scan).step tracked q '(').atTop && stop '{') = false := by
    rw [hnot (by decide) (by decide), Bool.and_false]
  exact ⟨q', hfirst.append (.cons hparen (.cons hbrace hinner))⟩

theorem passes_objectCall (hstop : ∀ c, stop c → c = '.' ∨ c = ';') (hbody : Sealed tracked body) :
    ∃ q, Passes tracked stop p {} ("object".toList ++ '(' :: '{' :: (body ++ ['}', ')'])) q {} := by
  obtain ⟨q, hinner⟩ := passes_object (p := p) hstop hbody.strayless
  rw [hbody.ends] at hinner
  have hbrace : stop '}' = false := stop_eq_false hstop (by decide) (by decide)
  have hparen : stop ')' = false := stop_eq_false hstop (by decide) (by decide)
  have hclosed := hinner.append (.cons (c := '}') (by rw [hbrace, Bool.and_false])
    (.cons (c := ')') (by rw [hparen, Bool.and_false]) .nil))
  rw [append_assoc] at hclosed
  exact ⟨_, hclosed⟩

theorem trim_objectText (body : List Char) : trim (objectText body) = objectText body := by
  have hends : objectText body =
      'z' :: (('.' :: ("object".toList ++ '(' :: '{' :: (body ++ ['}']))) ++ [')']) := by
    rw [objectText_eq, cons_append, append_assoc, cons_append, cons_append, append_assoc]
    rfl
  rw [hends, trim_between (by decide) (by decide)]

/-- A chain of two links, the first of which is bare. -/
theorem chain_pair {q : Option Char} {t : Scan}
    (h : Passes tracked ['.'].contains (some '.') {} cs q t) (htrim : trim cs = cs)
    (hne : cs ≠ []) :
    chain ('z' :: '.' :: cs) = ((call? cs).map fun c => [⟨"z", none⟩, c]).getD [] := by
  have hsplit : splitFrom tracked ['.'] [] none {} ('z' :: '.' :: cs) = [['z'], cs] := by
    have hrest := splitFrom_passes h [] []
    rw [append_nil, append_nil, splitFrom, reverse_reverse, htrim] at hrest
    change trim ['z'] :: splitFrom tracked ['.'] [] (some '.') {} cs = _
    rw [hrest]
    rfl
  have hkeep : dropTrailingEmpty [['z'], cs] = [['z'], cs] :=
    dropTrailingEmpty_eq_self (by simpa using hne)
  have hfirst : call? ['z'] = some ⟨"z", none⟩ := by decide
  rw [chain, splitTop, hsplit, hkeep, mapM_cons, hfirst, mapM_cons, mapM_nil]
  cases call? cs <;> rfl

theorem objectBody?_call (args : Option (List Char)) (first : Call) :
    objectBody? [first, ⟨"object", args⟩] = args.bind fun args => enclosed? '{' (trim args) := by
  simp [objectBody?]

/-- The fields of an object schema are those of its body. -/
theorem objectBody?_object (hbody : Sealed tracked body) :
    objectBody? (chain (objectText body)) = some body := by
  have hname : isName "object".toList := by decide
  obtain ⟨q, hpasses⟩ : ∃ q, Passes tracked ['.'].contains (some '.') {}
      ("object".toList ++ '(' :: '{' :: (body ++ ['}', ')'])) q {} :=
    passes_objectCall (fun c hc => .inl (by simpa using hc)) hbody
  have htrim : trim ("object".toList ++ '(' :: '{' :: (body ++ ['}', ')'])) =
      "object".toList ++ '(' :: '{' :: (body ++ ['}', ')']) := by
    have hends : "object".toList ++ '(' :: '{' :: (body ++ ['}', ')']) =
        'o' :: (("bject".toList ++ '(' :: '{' :: (body ++ ['}'])) ++ [')']) := by
      rw [append_assoc, cons_append, cons_append, append_assoc]
      rfl
    rw [hends, trim_between (by decide) (by decide)]
  have hargs : '{' :: (body ++ ['}', ')']) = ('{' :: (body ++ ['}'])) ++ [')'] := by simp
  rw [objectText_eq, chain_pair hpasses htrim (by simp), call?_paren hname, hargs, getLast?_concat,
    if_pos (by decide), dropLast_concat, String.ofList_toList, Option.map_some, Option.getD_some,
    objectBody?_call, Option.bind_some, trim_between (by decide) (by decide),
      hbody.enclosed?_eq (by decide)]

theorem trimEnd_trimEnd (cs : List Char) : trimEnd (trimEnd cs) = trimEnd cs := by
  unfold trimEnd
  rw [reverse_reverse, dropWhile_idempotent]

/-- An object schema that is cut short holds no object. -/
theorem objectBody?_cut {part : List Char} (hbody : strayless tracked none {} part) :
    objectBody? (chain (trim (objectHead ++ part))) = none := by
  have hname : isName "object".toList := by decide
  have hidem := trimEnd_trimEnd part
  have htrim :=
    Text.trim_append_cons (c := '{') (by decide) ('z' :: '.' :: ("object".toList ++ ['('])) part
  have hkept := Text.trimEnd_isPrefix part
  generalize trimEnd part = kept at hidem htrim hkept
  have hword (rest : List Char) :
      "object".toList ++ '(' :: '{' :: rest = ("object".toList ++ ['(']) ++ '{' :: rest := by
    rw [append_assoc]
    rfl
  have htext :
      trim (objectHead ++ part) = 'z' :: '.' :: ("object".toList ++ '(' :: '{' :: kept) := by
    rw [Text.trimStart_cons_of_not_isBlank (by decide)] at htrim
    simp only [cons_append] at htrim
    rw [hword, ← htrim, objectHead, cons_append, cons_append, append_assoc, append_assoc]
    rfl
  have hself :
      trim ("object".toList ++ '(' :: '{' :: kept) = "object".toList ++ '(' :: '{' :: kept := by
    rw [hword, Text.trim_append_cons (by decide), hidem]
    rfl
  obtain ⟨q, hpasses⟩ :
      ∃ q, Passes tracked ['.'].contains (some '.') {} ("object".toList ++ '(' :: '{' :: kept) q
      ((Scan.run tracked none {} kept).within { brace := 1, paren := 1 }) :=
    passes_object (fun c hc => .inl (by simpa using hc)) (strayless_of_isPrefix hbody hkept)
  rw [htext, chain_pair hpasses hself (by simp), call?_paren hname]
  split
  case isFalse => rfl
  case isTrue hlast =>
    -- The arguments start with a brace that nothing closes.
    obtain ⟨args, rfl⟩ : ∃ args, kept = args ++ [')'] := by
      rw [beq_iff_eq, getLast?_cons] at hlast
      cases hkept' : kept.getLast? with
      | none =>
        rw [hkept'] at hlast
        cases hlast
      | some c =>
        rw [hkept'] at hlast
        cases hlast
        exact ⟨kept.dropLast, (dropLast_append_getLast? _ hkept').symm⟩
    have hargs : trimEnd args <+: part :=
      ((Text.trimEnd_isPrefix args).trans (prefix_append _ _)).trans hkept
    have hnone : closer? ('{' :: trimEnd args) = none :=
      closer?_eq_none (d := .brace) (by decide) (strayless_of_isPrefix hbody hargs)
    rw [String.ofList_toList, Option.map_some, Option.getD_some, objectBody?_call, Option.bind_some,
      ← cons_append, dropLast_concat, trim, Text.trimStart_cons_of_not_isBlank (by decide),
      Text.trimEnd_cons_of_not_isBlank (by decide), enclosed?, hnone]
    rfl

/-- A constant in an object schema stands in its body. -/
theorem holdsConstant_objectText (h : HoldsConstant (objectText body)) : HoldsConstant body := by
  obtain ⟨before, x, rest, hsplit, hbefore, hx⟩ := h
  refine holdsConstant_of_between hsplit ?_ (by decide) hbefore hx
  rcases hx.prefix with ⟨z, rfl⟩ | ⟨z, rfl⟩
  · rw [append_assoc] at hsplit
    exact length_le_of_incompatible hsplit (by decide)
  · rw [append_assoc] at hsplit
    exact length_le_of_incompatible hsplit (by decide)

theorem holdsRouter_objectText (h : HoldsRouter (objectText body)) : HoldsRouter body := by
  obtain ⟨before, x, rest, hsplit, hbefore, hx⟩ := h
  refine holdsRouter_of_between hsplit ?_ (by decide) hbefore hx
  obtain ⟨b, b', rfl, -⟩ := hx
  rw [append_assoc] at hsplit
  exact length_le_of_incompatible hsplit (by decide)

theorem strip_objectSource (hname : isName name) (hfree : CommentMarks.strip {} body = body)
    (hbody : Sealed tracked body) :
    CommentMarks.strip {} (constantSource name (objectText body)) =
      constantSource name (objectText body) := by
  have hsource : constantSource name (objectText body) =
      (constantName name ++ '=' :: ' ' :: objectHead) ++ (body ++ ['}', ')', ';']) := by
    rw [constantSource, objectText, append_assoc, append_assoc, append_assoc]
    rfl
  rw [hsource]
  refine CommentMarks.strip_surrounded hfree ?_ ?_ (by decide) (by decide)
  · exact (Scan.mode_run {} {} rfl).trans (congrArg Scan.mode hbody.ends)
  · refine forall_mem_append.mpr ⟨?_, by decide⟩
    refine forall_mem_append.mpr ⟨by decide, forall_mem_cons.mpr ⟨by decide, ?_⟩⟩
    exact forall_mem_append.mpr ⟨not_slash_of_isName hname, by decide⟩

/-- How far the statement is read. -/
theorem statementLength_object (hbody : Sealed tracked body) :
    (¬HoldsStatement statementWords statementKeywords body →
      TypeScript.statementLength tracked nextStatement (constantFound name (objectText body)).stop =
        (objectText body).length) ∧
    (HoldsStatement statementWords statementKeywords body → ∃ part, part <+: body ∧
      TypeScript.statementLength tracked nextStatement (constantFound name (objectText body)).stop =
        (objectHead ++ part).length) := by
  obtain ⟨q, hcall⟩ : ∃ q, Passes tracked (· == ';') (some '.') {}
      ("object".toList ++ '(' :: '{' :: (body ++ ['}', ')'])) q {} :=
    passes_objectCall (fun c hc => .inr (by simpa using hc)) hbody
  have hpasses : Passes tracked (· == ';') (constantFound name (objectText body)).stop.previous {}
      (objectHead ++ (body ++ ['}', ')'])) q {} := by
    change Passes _ _ _ _ (objectText body) _ _
    rw [objectText_eq]
    exact .cons (Bool.and_false _) (.cons (Bool.and_false _) hcall)
  have hrest : objectText body ++ [';'] = objectHead ++ (body ++ (['}', ')'] ++ ';' :: [])) := by
    rw [objectText, append_assoc, append_assoc]
  exact findsStatements_nextStatement.statementLength_surrounded hpasses rfl hrest (by decide)
    (by decide)

end Object

/-- An object schema declares an object with the fields of its body exactly if no line of the body
starts a statement. -/
theorem extract_object_iff (name body : List Char) (hname : isName name = true)
    (hfree : CommentMarks.strip {} body = body) (hbody : Sealed tracked body)
    (hconstant : constantHead.search? (.start body) = none)
    (hrouter : routerHead.search? (.start body) = none) :
    extract (constantSource name (objectText body)) =
        ⟨(fields body).map fun fs => { declarations := [
          { name := .text (String.ofList (baseName name)), body := .object fs }] }, []⟩ ↔
      ¬HoldsStatement statementWords statementKeywords body := by
  rw [search?_eq_none_iff, occurs_constantHead_iff rfl] at hconstant
  rw [search?_eq_none_iff, occurs_routerHead_iff rfl] at hrouter
  have hextract :=
    extract_constant hname (strip_objectSource hname hfree hbody) (e := objectText body) ⟨_, rfl⟩
    (fun h => hconstant (holdsConstant_objectText h)) (fun h => hrouter (holdsRouter_objectText h))
  have hrest : (constantFound name (objectText body)).stop.rest = objectText body ++ [';'] := rfl
  have hname' : (constantFound name (objectText body)).getD 1 = name := rfl
  rw [hextract, constant_eq, hrest, hname']
  by_cases hlines : HoldsStatement statementWords statementKeywords body
  · refine iff_of_false ?_ (not_not_intro hlines)
    obtain ⟨part, hpart, hlength⟩ := (statementLength_object hbody).2 hlines
    have htake :
        (objectText body ++ [';']).take (objectHead ++ part).length = objectHead ++ part := by
      obtain ⟨others, rfl⟩ := hpart
      rw [objectText, append_assoc part, ← append_assoc objectHead, append_assoc, take_left]
    rw [hlength, htake, declared, objectBody?_cut (strayless_of_isPrefix hbody.strayless hpart)]
    intro heq
    cases hfields : fields body with
    | error f =>
      rw [hfields] at heq
      cases heq
    | ok fs =>
      rw [hfields] at heq
      cases heq
  · refine iff_of_true ?_ hlines
    rw [(statementLength_object hbody).1 hlines, take_left, trim_objectText, declared,
      objectBody?_object hbody]
    dsimp only
    cases fields body <;> rfl

/-- A key that is named like a keyword cuts the schema short. -/
theorem extract_keyword_ne :
    extract (constantSource ['S'] (objectText "\n  type: z.string()\n".toList)) ≠
      ⟨(fields "\n  type: z.string()\n".toList).map fun fs => { declarations := [
        { name := .text (String.ofList (baseName ['S'])), body := .object fs }] }, []⟩ := by
  have hlines : HoldsStatement statementWords statementKeywords "\n  type: z.string()\n".toList :=
    ⟨[], "  type".toList, ": z.string()\n".toList, by decide,
      ⟨"  ".toList, [], "type", by decide, by decide,
      ⟨[], [], rfl, .inl rfl, rfl⟩, by decide⟩, by decide⟩
  refine fun heq => (extract_object_iff ['S'] "\n  type: z.string()\n".toList (by decide)
    (by decide) ⟨by decide, by decide⟩ ?_ ?_).mp heq hlines
  · exact Option.isNone_iff_eq_none.mp (by decide)
  · exact Option.isNone_iff_eq_none.mp (by decide)

end Crosswalk.Zod
