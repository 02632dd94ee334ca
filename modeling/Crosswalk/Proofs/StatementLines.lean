import Crosswalk.Proofs.PatternSpans
import Crosswalk.Proofs.StableRemoval

/-!
Where a statement ends: at a semicolon at the top level, or in front of a line that starts another
statement. The lines are told by their first words only, so that a statement ends in front of such a
line also within a group or a literal.
-/

namespace Crosswalk

open List
open Text (Pattern Place isWord isBlank)
open Identifier (isName isPart isStart)

/-! ### Lines that start a statement -/

/-- A word with blanks behind it, or nothing. -/
def Lead (w : String) (x : List Char) : Prop :=
  x = [] ∨ ∃ b, b ≠ [] ∧ (∀ c ∈ b, isBlank c = true) ∧ x = w.toList ++ b

/-- The words in turn, any of which may be left out. -/
def Leads : List String → List Char → Prop
  | [], x => x = []
  | w :: ws, x => ∃ y z, x = y ++ z ∧ Lead w y ∧ Leads ws z

/-- Spaces and tabs, leading words and a keyword. -/
def StatementHead (words keywords : List String) (x : List Char) : Prop :=
  ∃ pad marks keyword, x = pad ++ (marks ++ keyword.toList) ∧ (∀ c ∈ pad, c = ' ' ∨ c = '\t') ∧
    Leads words marks ∧ keyword ∈ keywords

/-- A line of the text, other than the first, starts a statement. -/
def HoldsStatement (words keywords : List String) (cs : List Char) : Prop :=
  ∃ before head rest, cs = before ++ ('\n' :: head ++ rest) ∧ StatementHead words keywords head ∧
    rest.head?.any isWord = false

/-- The pattern finds the lines that start a statement. -/
structure FindsStatements (words keywords : List String) (a : Pattern) : Prop where
  spans_iff : ∀ {prev : Option Char} {x rest : List Char}, a.Spans prev x rest ↔
    ∃ head, x = '\n' :: head ∧ StatementHead words keywords head ∧ rest.head?.any isWord = false
  ends_word : ∀ k ∈ keywords, ∃ c, k.toList.getLast? = some c ∧ isWord c = true

section Finds

variable {words keywords : List String} {a lead keys : Pattern} {prev : Option Char}
  {x rest : List Char}

theorem spans_lead {w : String} :
    (Pattern.maybe (Pattern.text w ++ Pattern.blanks1)).Spans prev x rest ↔ Lead w x := by
  constructor
  · rintro (⟨y, b, rfl, hy, hb⟩ | hx)
    · rw [Pattern.spans_text.mp hy]
      obtain ⟨hne, hblank⟩ := Pattern.spans_run1.mp hb
      exact .inr ⟨b, hne, hblank, rfl⟩
    · exact .inl hx
  · rintro (hx | ⟨b, hne, hblank, rfl⟩)
    · exact .inr hx
    · exact .inl
        ⟨w.toList, b, rfl, Pattern.spans_text.mpr rfl, Pattern.spans_run1.mpr ⟨hne, hblank⟩⟩

theorem findsStatements (hlead : ∀ {prev x rest}, lead.Spans prev x rest ↔ Leads words x)
    (hkeys : ∀ {prev x rest}, keys.Spans prev x rest ↔ ∃ k ∈ keywords, x = k.toList)
    (hends : ∀ k ∈ keywords, k.toList.getLast?.any isWord) :
    FindsStatements words keywords (Pattern.char '\n' ++ .run (fun c => c == ' ' || c == '\t') ++
      lead ++ keys ++ .wordEdge) := by
  replace hends (k : String) (hk : k ∈ keywords) := (Option.any_eq_true _ _).mp (hends k hk)
  refine ⟨?_, hends⟩
  intro prev x rest
  constructor
  · rintro ⟨_, _, rfl, ⟨_, _, rfl, ⟨_, marks, rfl, ⟨_, pad, rfl, hnewline, hpad⟩, hmarks⟩, hkey⟩,
        rfl, hedge⟩
    obtain ⟨k, hk, rfl⟩ := hkeys.mp hkey
    obtain ⟨c, hc, hword⟩ := hends k hk
    rw [Pattern.spans_char.mp hnewline] at hedge ⊢
    refine ⟨pad ++ (marks ++ k.toList), by simp, ⟨pad, marks, k, rfl, ?_, hlead.mp hmarks, hk⟩, ?_⟩
    · intro c hc
      simpa using hpad c hc
    · rw [getLast?_append, hc, Option.some_or, Option.some_or, Option.any_some, hword] at hedge
      simpa using hedge.symm
  · rintro ⟨_, rfl, ⟨pad, marks, k, rfl, hpad, hmarks, hk⟩, hrest⟩
    obtain ⟨c, hc, hword⟩ := hends k hk
    refine ⟨['\n'] ++ pad ++ marks ++ k.toList, [], by simp, ⟨_, _, rfl, ⟨_, _, rfl, ⟨_, _, rfl,
      Pattern.spans_char.mpr rfl, ?_⟩, hlead.mpr hmarks⟩, hkeys.mpr ⟨k, hk, rfl⟩⟩, rfl, ?_⟩
    · intro c hc
      simpa using hpad c hc
    · rw [getLast?_append, hc, Option.some_or, Option.some_or, Option.any_some, hword, hrest]
      decide

theorem StatementHead.exists_getLast? {head : List Char} (h : StatementHead words keywords head)
    (hends : ∀ k ∈ keywords, ∃ c, k.toList.getLast? = some c ∧ isWord c) :
    ∃ c, head.getLast? = some c ∧ isWord c := by
  obtain ⟨pad, marks, k, rfl, -, -, hk⟩ := h
  obtain ⟨c, hc, hword⟩ := hends k hk
  exact ⟨c, by rw [getLast?_append, getLast?_append, hc]; rfl, hword⟩

/-- A statement starts in a text exactly if the pattern occurs in it. -/
theorem FindsStatements.occurs_iff (h : FindsStatements words keywords a) {cs : List Char} :
    a.Occurs prev cs ↔ HoldsStatement words keywords cs := by
  constructor
  · rintro ⟨before, _, rest, rfl, hx⟩
    obtain ⟨head, rfl, hhead, hrest⟩ := h.spans_iff.mp hx
    exact ⟨before, head, rest, rfl, hhead, hrest⟩
  · rintro ⟨before, head, rest, rfl, hhead, hrest⟩
    exact ⟨before, '\n' :: head, rest, rfl, h.spans_iff.mpr ⟨head, rfl, hhead, hrest⟩⟩

end Finds

/-! ### Names in heads -/

section Names

variable {name x rest : List Char} {prev : Option Char} {g : Pattern.Groups} {n : Nat}

theorem spans_name : (Pattern.group n (.one isStart ++ .run isPart)).Spans prev x rest ↔
    isName x := by
  constructor
  · rintro ⟨_, cs, rfl, ⟨c, hc, rfl⟩, hcs⟩
    exact Bool.and_eq_true_iff.mpr ⟨hc, all_eq_true.mpr hcs⟩
  · intro hname
    obtain ⟨c, cs, rfl, hc, hparts⟩ := Member.exists_of_isName hname
    exact ⟨[c], cs, rfl, ⟨c, hc, rfl⟩, (forall_mem_cons.mp hparts).2⟩

theorem offers_name (hname : isName name)
    (hrest : ∀ c ∈ rest.head?, isPart c = false) :
    (Pattern.group n (.one isStart ++ .run isPart)).Offers prev name rest g
      ((n, name) :: g) := by
  obtain ⟨c, cs, rfl, hstart, hparts⟩ := Member.exists_of_isName hname
  exact ((Pattern.Offers.one hstart).seq (.run (forall_mem_cons.mp hparts).2 hrest)).group

theorem isPart_space : ∀ c ∈ (' ' :: rest).head?, isPart c = false := by
  intro c hc
  cases hc
  decide

theorem isBlank_head?_name (hname : isName name) :
    ∀ c ∈ (name ++ rest).head?, isBlank c = false := by
  obtain ⟨c, cs, rfl, -, hparts⟩ := Member.exists_of_isName hname
  intro d hd
  cases hd
  exact isBlank_eq_false_of_isPart (hparts c mem_cons_self)

/-- No comment and no literal starts in a name. -/
theorem not_slash_of_isName (hname : isName name) :
    ∀ c ∈ name, c ≠ '/' ∧ isQuote c = false := by
  obtain ⟨c, cs, rfl, -, hparts⟩ := Member.exists_of_isName hname
  intro d hd
  have hpart := hparts d hd
  refine ⟨?_, ?_⟩
  · rintro rfl
    cases hpart
  · have hplain := isPlain_of_isPart hpart
    simp only [isPlain, Bool.and_eq_true, Bool.not_eq_true'] at hplain
    exact hplain.1.1.1

end Names

/-! ### Texts in other texts -/

/-- A part that starts behind `l` and does not end in `r` lies between them. -/
theorem exists_between {l b r x y z : List Char} {c : Char} (h : l ++ (b ++ r) = x ++ (y ++ z))
    (hstart : l.length ≤ x.length) (hlast : y.getLast? = some c) (hr : c ∉ r) :
    ∃ x' z', x = l ++ x' ∧ z = z' ++ r ∧ b = x' ++ (y ++ z') := by
  obtain ⟨x', rfl⟩ : l <+: x := prefix_of_prefix_length_le ⟨_, h⟩ ⟨_, rfl⟩ hstart
  rw [append_assoc, append_cancel_left_eq, ← append_assoc, append_eq_append_iff] at h
  rcases h with ⟨y', hy', rfl⟩ | ⟨z', rfl, rfl⟩
  · -- `y'` would be the part of `y` that lies in `r`.
    cases hlast' : y'.getLast? with
    | none =>
      obtain rfl := getLast?_eq_none_iff.mp hlast'
      rw [append_nil] at hy'
      exact ⟨x', [], rfl, rfl, by rw [← hy', append_nil]⟩
    | some d =>
      have heq := congrArg List.getLast? hy'
      rw [getLast?_append, hlast, getLast?_append, hlast'] at heq
      cases heq
      exact absurd (mem_append_left z (mem_of_getLast? hlast')) hr
  · exact ⟨x', z', rfl, rfl, by rw [append_assoc]⟩

theorem length_le_of_notMem {l b x y : List Char} {c : Char} (h : l ++ b = x ++ c :: y)
    (hl : c ∉ l) :
    l.length ≤ x.length := by
  by_contra hlt
  obtain ⟨l', rfl⟩ : x <+: l := prefix_of_prefix_length_le ⟨_, h.symm⟩ ⟨_, rfl⟩ (by omega)
  rw [append_assoc, append_cancel_left_eq] at h
  cases l' with
  | nil => simp at hlt
  | cons d l' =>
    obtain ⟨rfl, -⟩ := cons.inj h
    exact hl (by simp)

/-- A line that starts a statement lies between texts that hold no newline and no words. -/
theorem StatementHead.exists_between {words keywords : List String} {head : List Char}
    (h : StatementHead words keywords head)
    (hends : ∀ k ∈ keywords, ∃ c, k.toList.getLast? = some c ∧ isWord c) {l b r x z : List Char}
    (heq : l ++ (b ++ r) = x ++ ('\n' :: head ++ z)) (hl : '\n' ∉ l)
    (hr : ∀ c ∈ r, isWord c = false) :
    ∃ x' z', x = l ++ x' ∧ z = z' ++ r ∧ b = x' ++ ('\n' :: head ++ z') := by
  obtain ⟨c, hc, hword⟩ := h.exists_getLast? hends
  refine Crosswalk.exists_between heq (length_le_of_notMem heq hl) (c := c) ?_ fun hmem => ?_
  · rw [getLast?_cons, hc]
    rfl
  · rw [hr c hmem] at hword
    cases hword

/-- A statement starts in a text exactly if one starts in it between two others that hold no newline
and no words. -/
theorem holdsStatement_surrounded {words keywords : List String}
    (hends : ∀ k ∈ keywords, ∃ c, k.toList.getLast? = some c ∧ isWord c) {l b r : List Char}
    (hl : '\n' ∉ l) (hr : ∀ c ∈ r, isWord c = false) :
    HoldsStatement words keywords (l ++ (b ++ r)) ↔ HoldsStatement words keywords b := by
  constructor
  · rintro ⟨before, head, rest, h, hhead, hrest⟩
    obtain ⟨x', z', rfl, rfl, rfl⟩ := hhead.exists_between hends h hl hr
    refine ⟨x', head, z', rfl, hhead, ?_⟩
    cases z' with
    | nil => rfl
    | cons d z' => exact hrest
  · rintro ⟨before, head, rest, rfl, hhead, hrest⟩
    refine ⟨l ++ before, head, rest ++ r, by simp, hhead, ?_⟩
    cases rest with
    | nil =>
      cases r with
      | nil => rfl
      | cons d r => exact hr d mem_cons_self
    | cons d rest => exact hrest

/-! ### The length of a statement -/

section Length

open TypeScript (lengthToSemicolon statementLength)

variable {words keywords : List String} {a : Pattern} {tracked : List Char} {p : Place}
  {prev q : Option Char} {s t : Scan} {x rest : List Char}

/-- The walk passes what holds no semicolon at the top level, up to the limit. -/
theorem lengthToSemicolon_passes (h : Passes tracked (· == ';') prev s x q t) (n limit : Nat) :
    lengthToSemicolon tracked prev s n limit (x ++ rest) =
      if limit ≤ x.length then n + limit
      else lengthToSemicolon tracked q t (n + x.length) (limit - x.length) rest := by
  induction h generalizing n limit with
  | nil =>
    split
    case isTrue hle =>
      obtain rfl := Nat.le_zero.mp hle
      cases rest <;> rfl
    case isFalse => rfl
  | @cons prev q s t c x hc _ ih =>
    cases limit with
    | zero => rfl
    | succ limit =>
      rw [cons_append, lengthToSemicolon, hc, if_neg Bool.false_ne_true, ih, length_cons,
        Nat.add_sub_add_right, Nat.add_right_comm n 1, Nat.add_right_comm n 1, Nat.add_assoc n,
        Nat.add_assoc n]
      simp only [Nat.add_le_add_iff_right]

/-- A statement that holds no line which starts another goes up to its semicolon. -/
theorem statementLength_eq (hpasses : Passes tracked (· == ';') p.previous {} x q t)
    (htop : t.atTop) (hrest : p.rest = x ++ ';' :: rest) (hnext : a.search? p = none) :
    statementLength tracked a p = x.length := by
  have hlength : ¬(x ++ ';' :: rest).length ≤ x.length := by simp
  have hleft : (x ++ ';' :: rest).length - x.length = rest.length + 1 := by simp
  rw [statementLength, hnext, hrest]
  dsimp only
  rw [lengthToSemicolon_passes hpasses, if_neg hlength, hleft, lengthToSemicolon, htop,
    Nat.zero_add]
  rfl

/-- A line that starts another statement ends the statement before it. -/
theorem statementLength_eq_of_search? (hpasses : Passes tracked (· == ';') p.previous {} x q t)
    (hrest : p.rest = x ++ rest) {m : Pattern.Found} (hnext : a.search? p = some m) {y : List Char}
    (hstart : Place.Passes y p m.start) (hle : y.length ≤ x.length) :
    statementLength tracked a p = y.length := by
  have hlimit : m.start.index - p.index = y.length := by rw [hstart.index, Nat.add_sub_cancel_left]
  rw [statementLength, hnext, hrest]
  dsimp only
  rw [hlimit, lengthToSemicolon_passes hpasses, if_pos hle, Nat.zero_add]

/-- The end of a statement whose middle part alone can hold lines that start another. -/
theorem FindsStatements.statementLength_surrounded (h : FindsStatements words keywords a)
    {l b r : List Char} (hpasses : Passes tracked (· == ';') p.previous {} (l ++ (b ++ r)) q t)
    (htop : t.atTop) (hrest : p.rest = l ++ (b ++ (r ++ ';' :: rest))) (hl : '\n' ∉ l)
    (hr : ∀ c ∈ r ++ ';' :: rest, isWord c = false) :
    (¬HoldsStatement words keywords b → statementLength tracked a p = (l ++ (b ++ r)).length) ∧
    (HoldsStatement words keywords b → ∃ b',
      b' <+: b ∧ statementLength tracked a p = (l ++ b').length) := by
  have hrest' : p.rest = (l ++ (b ++ r)) ++ ';' :: rest := by rw [hrest]; simp
  have hoccurs : a.Occurs p.previous p.rest ↔ HoldsStatement words keywords b := by
    rw [h.occurs_iff, hrest, holdsStatement_surrounded h.ends_word hl hr]
  constructor
  · intro hnone
    refine statementLength_eq hpasses htop hrest' ?_
    rw [Pattern.search?_eq_none_iff, hoccurs]
    exact hnone
  · intro hsome
    obtain ⟨m, hm⟩ :=
      Option.isSome_iff_exists.mp (Pattern.search?_isSome_iff.mpr (hoccurs.mpr hsome))
    obtain ⟨x, y, hstart, hstop, hspans⟩ := Pattern.exists_of_search? hm
    obtain ⟨head, rfl, hhead, -⟩ := h.spans_iff.mp hspans
    have hsplit : l ++ (b ++ (r ++ ';' :: rest)) = x ++ ('\n' :: head ++ m.stop.rest) := by
      rw [← hrest, hstart.rest, hstop.rest]
    obtain ⟨b', z', rfl, -, rfl⟩ := hhead.exists_between h.ends_word hsplit hl hr
    refine ⟨b', prefix_append _ _, statementLength_eq_of_search? hpasses hrest' hm hstart ?_⟩
    simp only [length_append]
    omega

end Length

namespace TypeScript

/-- The words that may stand before a keyword. -/
def statementWords : List String := ["export", "declare"]

def statementKeywords : List String :=
  ["interface", "type", "enum", "const", "let", "var", "class", "function", "import"]

theorem findsStatements_nextStatement :
    FindsStatements statementWords statementKeywords nextStatement := by
  refine findsStatements ?_ ?_ ?_
  · intro prev x rest
    constructor
    · rintro ⟨y, z, rfl, hy, hz⟩
      exact ⟨y, z, rfl, spans_lead.mp hy, z, [], (append_nil z).symm, spans_lead.mp hz, rfl⟩
    · rintro ⟨y, _, rfl, hy, z, _, rfl, hz, rfl⟩
      exact ⟨y, z, by rw [append_nil], spans_lead.mpr hy, spans_lead.mpr hz⟩
  · intro prev x rest
    simp only [Pattern.spans_alt, Pattern.spans_text, statementKeywords, mem_cons, not_mem_nil,
      or_false, exists_eq_or_imp, exists_eq_left]
  · decide

end TypeScript

namespace Zod

def statementWords : List String := ["export"]

def statementKeywords : List String :=
  ["const", "let", "var", "type", "interface", "function", "import"]

theorem findsStatements_nextStatement :
    FindsStatements statementWords statementKeywords nextStatement := by
  refine findsStatements ?_ ?_ ?_
  · intro prev x rest
    constructor
    · intro h
      exact ⟨x, [], (append_nil x).symm, spans_lead.mp h, rfl⟩
    · rintro ⟨y, _, rfl, hy, rfl⟩
      rw [append_nil]
      exact spans_lead.mpr hy
  · intro prev x rest
    simp only [Pattern.spans_alt, Pattern.spans_text, statementKeywords, mem_cons, not_mem_nil,
      or_false, exists_eq_or_imp, exists_eq_left]
  · decide

end Zod

end Crosswalk
