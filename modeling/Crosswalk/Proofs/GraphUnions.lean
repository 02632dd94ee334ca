import Crosswalk.Proofs.GraphFields
import Crosswalk.Proofs.StableRemoval

/-!
Definitions of GraphQL unions in every layout. The members are read up to a bar with the next member
on another line. Main statement: all members are kept exactly if each stands on the line of its bar.
-/

namespace Crosswalk.GraphQL

open List Text.Pattern
open unionForm (isMemberPart)
open Text (isBlank Pattern isWord stripEnd trim trimStart)
open String (ofList toList_ofList)

/-! ### Layouts -/

/-- Spaces and newlines. -/
def IsGap (cs : List Char) : Prop := ∀ c ∈ cs, c = ' ' ∨ c = '\n'

instance (cs : List Char) : Decidable (IsGap cs) := inferInstanceAs (Decidable (∀ c ∈ cs, _))

/-- A member with the bar in front of it. -/
structure MemberText where
  before : List Char
  after : List Char
  name : String
deriving Repr

namespace MemberText

def print (m : MemberText) : List Char := m.before ++ '|' :: (m.after ++ m.name.toList)

structure IsPlain (m : MemberText) : Prop where
  before : IsGap m.before
  after : IsGap m.after
  name : isName m.name.toList = true

end MemberText

def followers (ms : List MemberText) : List Char := ms.flatMap MemberText.print

/-- A union in some layout. A bar in front of all members has a gap behind it. -/
structure UnionText where
  name : String
  before : List Char := [' ']
  after : List Char := [' ']
  lead? : Option (List Char) := none
  first : String
  others : List MemberText := []
deriving Repr

namespace UnionText

/-- The members with their bars. -/
def list (u : UnionText) : List Char :=
  u.lead?.elim [] ('|' :: ·) ++ (u.first.toList ++ followers u.others)

def print (u : UnionText) : List Char :=
  "union".toList ++ ' ' :: (u.name.toList ++ (u.before ++ '=' :: (u.after ++ (u.list ++ ['\n']))))

def members (u : UnionText) : List String := u.first :: u.others.map MemberText.name

/-- What stands between a bar and its member. -/
def gaps (u : UnionText) : List (List Char) := u.lead?.toList ++ u.others.map MemberText.after

/-- Every member stands on the line of its bar. -/
def isJoined (u : UnionText) : Bool := u.gaps.all fun gap => !gap.contains '\n'

structure IsPlain (u : UnionText) : Prop where
  name : isName u.name.toList = true
  before : IsGap u.before
  after : IsGap u.after
  lead : ∀ gap ∈ u.lead?, IsGap gap
  first : isName u.first.toList = true
  others : ∀ m ∈ u.others, m.IsPlain

end UnionText

variable {cs gap n x y z rest : List Char} {prev : Option Char} {c : Char}

theorem IsGap.isBlank (h : IsGap cs) : ∀ c ∈ cs, isBlank c := by
  intro c hc
  rcases h c hc with rfl | rfl <;> rfl

theorem isBlank_of_isName (h : isName n) : ∀ c ∈ n, isBlank c = false :=
  fun c hc => isBlank_eq_false_of_isPart (forall_isPart_of_isName h c hc)

theorem bar_notMem_name (h : isName n) : '|' ∉ n :=
  fun hmem => absurd (forall_isPart_of_isName h _ hmem) (by decide)

theorem bar_notMem_gap (h : IsGap gap) : '|' ∉ gap := fun hmem => absurd (h _ hmem) (by decide)

/-! ### Names of members -/

/-- The names between bars. -/
def memberNames (cs : List Char) : List (List Char) :=
  ((Text.parts ['|'] cs).map trim).filter fun p => !p.isEmpty

theorem memberNames_bar (x y : List Char) :
    memberNames (x ++ '|' :: y) = memberNames x ++ memberNames y := by
  rw [memberNames, Text.parts_append, map_append, filter_append]
  rfl

theorem memberNames_bare (h : '|' ∉ cs) :
    memberNames cs = if trim cs = [] then [] else [trim cs] := by
  rw [memberNames, Text.parts_of_not_mem h, map_singleton]
  split <;> simp_all

theorem memberNames_gap (h : IsGap gap) : memberNames gap = [] := by
  rw [memberNames_bare (bar_notMem_gap h), if_pos (Text.trim_eq_nil h.isBlank)]

/-- A text is bare of bars, or divided by one. -/
theorem bar_induction {P : List Char → Prop} (bare : ∀ cs, '|' ∉ cs → P cs)
    (bar : ∀ x y, P x → P y → P (x ++ '|' :: y)) (cs : List Char) : P cs := by
  induction hlength : cs.length using Nat.strong_induction_on generalizing cs with
  | _ length ih =>
    by_cases hbar : '|' ∈ cs
    · obtain ⟨x, y, rfl⟩ := append_of_mem hbar
      simp only [length_append, length_cons] at hlength
      exact bar x y (ih _ (by omega) x rfl) (ih _ (by omega) y rfl)
    · exact bare cs hbar

/-- A part of a text without the mark stands on one side of it. -/
theorem infix_of_notMem (hc : c ∉ x) (h : x <:+: y ++ c :: z) : x <:+: y ∨ x <:+: z := by
  obtain ⟨a, b, h⟩ := h
  rw [append_assoc] at h
  rcases append_eq_append_iff.mp h with ⟨v, rfl, hv⟩ | ⟨_ | ⟨d, v⟩, hy, hv⟩
  · rcases append_eq_append_iff.mp hv with ⟨t, rfl, -⟩ | ⟨_ | ⟨d, t⟩, rfl, ht⟩
    · exact .inl ⟨a, t, by simp⟩
    · exact .inl ⟨a, [], by simp⟩
    · obtain ⟨rfl, -⟩ := cons.inj ht
      exact absurd (by simp) hc
  · cases x with
    | nil => exact .inr (List.nil_infix ..)
    | cons d x =>
      obtain ⟨rfl, -⟩ := cons.inj hv
      exact absurd (mem_cons_self ..) hc
  · obtain ⟨-, rfl⟩ := cons.inj hv
    exact .inr ⟨v, b, by simp⟩

/-- Text that starts and ends with characters that are not blank stands in a name. -/
theorem exists_memberName (hbar : '|' ∉ x ++ [c])
    (hfirst : ∀ d ∈ (x ++ [c]).head?, isBlank d = false) (hlast : isBlank c = false)
    (h : x ++ [c] <:+: cs) : ∃ n ∈ memberNames cs, x ++ [c] <:+: n := by
  induction cs using bar_induction with
  | bare cs hcs =>
    obtain ⟨y, z, rfl⟩ := h
    have hstart : trimStart (y ++ x) ++ [c] = trimStart y ++ (x ++ [c]) := by
      cases x with
      | nil => simp
      | cons d x => simp [trimStart, Text.dropWhile_append_cons (hfirst d rfl)]
    have htrim : trim (y ++ (x ++ [c]) ++ z) = trimStart y ++ (x ++ [c]) ++ Text.trimEnd z := by
      have hsplit : y ++ (x ++ [c]) ++ z = y ++ x ++ c :: z := by simp
      rw [hsplit, Text.trim_append_cons hlast, ← hstart]
      simp
    rw [memberNames_bare hcs, htrim, if_neg (by simp)]
    exact ⟨_, mem_singleton_self _, _, _, rfl⟩
  | bar y z ihy ihz =>
    rw [memberNames_bar]
    rcases infix_of_notMem hbar h with h | h
    · exact (ihy h).imp fun _ hn => ⟨mem_append_left _ hn.1, hn.2⟩
    · exact (ihz h).imp fun _ hn => ⟨mem_append_right _ hn.1, hn.2⟩

theorem memberNames_ne_nil (hc : c ∈ cs) (hblank : isBlank c = false) (hbar : c ≠ '|') :
    memberNames cs ≠ [] := by
  obtain ⟨y, z, rfl⟩ := append_of_mem hc
  have hpart : [] ++ [c] <:+: y ++ c :: z := ⟨y, z, by simp⟩
  obtain ⟨n, hn, -⟩ :=
    exists_memberName (by simpa using hbar.symm) (by simpa using hblank) hblank hpart
  exact ne_nil_of_mem hn

/-- A part of a text has no more names than the text. -/
theorem length_memberNames_le (x a b : List Char) :
    (memberNames x).length ≤ (memberNames (a ++ (x ++ b))).length := by
  induction x using bar_induction generalizing a b with
  | bare x hx =>
    rw [memberNames_bare hx]
    split
    · exact Nat.zero_le _
    case isFalse htrim =>
      have hmem : ∃ c ∈ x, isBlank c = false := by
        by_contra hall
        exact htrim (Text.trim_eq_nil fun c hc => by simpa using fun hc' => hall ⟨c, hc, hc'⟩)
      obtain ⟨c, hc, hblank⟩ := hmem
      have hbar : c ≠ '|' := fun heq => hx (heq ▸ hc)
      exact length_pos_iff.mpr (memberNames_ne_nil (by simp [hc]) hblank hbar)
  | bar x y ihx ihy =>
    have hsplit : a ++ ((x ++ '|' :: y) ++ b) = a ++ (x ++ []) ++ '|' :: ([] ++ (y ++ b)) := by simp
    rw [hsplit, memberNames_bar, memberNames_bar, length_append, length_append]
    exact Nat.add_le_add (ihx a []) (ihy [] b)

theorem memberNames_name (hgap : IsGap gap) (hn : isName n) (hrest : IsGap rest) :
    memberNames (gap ++ (n ++ rest)) = [n] := by
  have hpiece : Piece tracked TypeText.isOutside (ofList n).toList :=
    TypeText.piece_name (by rwa [toList_ofList])
  rw [toList_ofList] at hpiece
  have hbar : '|' ∉ gap ++ (n ++ rest) := by
    simp [bar_notMem_gap hgap, bar_notMem_name hn, bar_notMem_gap hrest]
  rw [memberNames_bare hbar, ← append_assoc, hpiece.trim_append hgap.isBlank hrest.isBlank,
    if_neg hpiece.ne_nil]

theorem memberNames_followers {ms : List MemberText} (hms : ∀ m ∈ ms, m.IsPlain) (hgap : IsGap gap)
    (hn : isName n) (hrest : IsGap rest) :
    memberNames (gap ++ (n ++ (followers ms ++ rest))) = n :: ms.map fun m => m.name.toList := by
  induction ms generalizing gap n with
  | nil => exact memberNames_name hgap hn hrest
  | cons m ms ih =>
    obtain ⟨hm, hms⟩ := forall_mem_cons.mp hms
    have hsplit : gap ++ (n ++ (followers (m :: ms) ++ rest)) =
        gap ++ (n ++ m.before) ++ '|' ::
          (m.after ++ (m.name.toList ++ (followers ms ++ rest))) := by
      simp [followers, MemberText.print]
    rw [hsplit, memberNames_bar, memberNames_name hgap hn hm.before, ih hms hm.after hm.name]
    rfl

theorem UnionText.memberNames_list {u : UnionText} (hu : u.IsPlain) (hy : IsGap y) (hz : IsGap z) :
    memberNames (y ++ (u.list ++ z)) = u.members.map String.toList := by
  have hnames {gap : List Char} (hgap : IsGap gap) :
      memberNames (gap ++ (u.first.toList ++ (followers u.others ++ z))) =
        u.members.map String.toList := by
    rw [memberNames_followers hu.others hgap hu.first hz, members, map_cons, map_map]
    rfl
  rw [list, append_assoc, append_assoc]
  cases hlead : u.lead? with
  | none => exact hnames hy
  | some gap =>
    change memberNames (y ++ '|' :: (gap ++ _)) = _
    rw [memberNames_bar, hnames (hu.lead gap hlead), memberNames_gap hy]
    rfl

/-! ### What is matched if every member stands on the line of its bar -/

/-- A bar and what follows it on its line. -/
abbrev nextMember : Pattern := blanks ++ char '|' ++ run1 isMemberPart

abbrev memberList : Pattern := maybe (char '|') ++ run1 isMemberPart ++ .star nextMember

theorem isMemberPart_of_isName (h : isName n) : ∀ c ∈ n, isMemberPart c := by
  intro c hc
  have hpart := forall_isPart_of_isName h c hc
  have hne (d : Char) (hd : Identifier.isPart d = false) : c ≠ d := by
    rintro rfl
    rw [hpart] at hd
    cases hd
  simp [isMemberPart, hne '\n' rfl, hne '|' rfl]

theorem isMemberPart_of_gap (h : IsGap gap) (hline : '\n' ∉ gap) : ∀ c ∈ gap, isMemberPart c := by
  intro c hc
  rw [(h c hc).resolve_right fun heq => hline (heq ▸ hc)]
  rfl

/-- A line is matched up to its end or the next bar. -/
theorem offers_line {g : Groups} (hne : x ≠ []) (hx : ∀ c ∈ x, isMemberPart c) (cs : List Char) :
    Offers (run1 isMemberPart) prev (x ++ cs.takeWhile isMemberPart)
      (cs.dropWhile isMemberPart ++ ['\n']) g g := by
  obtain ⟨d, x, rfl⟩ := exists_cons_of_ne_nil hne
  refine .run1 (forall_mem_append.mpr ⟨hx, fun c hc => all_eq_true.mp all_takeWhile c hc⟩)
    fun e he => ?_
  rw [head?_append] at he
  rcases Option.or_eq_some_iff.mp he with he | ⟨-, he⟩
  · have hhead := head?_dropWhile_not isMemberPart cs
    rw [he] at hhead
    simpa using hhead
  · cases he
    rfl

theorem repeats_nextMember {ms : List MemberText} (hms : ∀ m ∈ ms, m.IsPlain ∧ '\n' ∉ m.after) :
    Repeats (fun prev x rest => ∀ g, Offers nextMember prev x rest g g) prev
      ((followers ms).dropWhile isMemberPart) ['\n'] := by
  induction ms generalizing prev with
  | nil => exact .nil
  | cons m ms ih =>
    obtain ⟨⟨hm, hline⟩, hms⟩ := forall_mem_cons.mp hms
    have hgap : ∀ c ∈ m.before.dropWhile isMemberPart, isBlank c :=
      fun c hc => hm.before.isBlank c ((dropWhile_sublist _).subset hc)
    have hsplit : (followers (m :: ms)).dropWhile isMemberPart =
        (m.before.dropWhile isMemberPart ++ ['|'] ++ (m.after ++ m.name.toList ++
          (followers ms).takeWhile isMemberPart)) ++ (followers ms).dropWhile isMemberPart := by
      rw [followers, flatMap_cons, MemberText.print, append_assoc, cons_append,
        Text.dropWhile_append_cons rfl]
      simp [followers]
    rw [hsplit]
    refine .cons (by simp) (fun g => ((Offers.run hgap ?_).seq .char).seq (offers_line ?_ ?_ _))
      (ih hms)
    · intro d hd
      cases hd
      rfl
    · simp [ne_nil_of_isName hm.name]
    · exact forall_mem_append.mpr
        ⟨isMemberPart_of_gap hm.after hline, isMemberPart_of_isName hm.name⟩

theorem spans_nextMember (h : nextMember.Spans prev x rest) :
    ∃ gap line, x = gap ++ '|' :: line ∧ (∀ c ∈ gap, isBlank c) ∧ ∀ c ∈ line, isMemberPart c := by
  obtain ⟨_, line, rfl, ⟨gap, _, rfl, hgap, hbar⟩, hline⟩ := h
  rw [spans_char.mp hbar]
  exact ⟨gap, line, by simp, hgap, (spans_run1.mp hline).2⟩

theorem fails_nextMember_end : nextMember.Fails prev ['\n'] := by
  intro x rest hx hspans
  obtain ⟨gap, line, rfl, -, -⟩ := spans_nextMember hspans
  have hmem : '|' ∈ ['\n'] := by simp [hx]
  exact absurd hmem (by decide)

theorem offers_name {k : Nat} {g : Groups} (h : isName n)
    (hrest : ∀ d ∈ rest.head?, isWord d = false) :
    Offers (name k) prev n rest g ((k, n) :: g) := by
  cases n with
  | nil => cases h
  | cons c cs =>
    simp only [isName, Bool.and_eq_true, all_eq_true] at h
    exact .group (.seq (x := [c]) (.one h.1) (.run h.2 hrest))

/-- A union up to its members. -/
abbrev unionHead : Pattern :=
  .wordEdge ++ text "union" ++ blanks1 ++ name 1 ++ blanks ++ directives ++ char '=' ++ blanks

theorem offers_memberList {g : Groups} {b : List Char} {ms : List MemberText}
    (hms : ∀ m ∈ ms, m.IsPlain ∧ '\n' ∉ m.after) (hne : x ≠ []) (hx : ∀ c ∈ x, isMemberPart c)
    (hbar : Offers (maybe (char '|')) prev b (x ++ (followers ms ++ ['\n'])) g g) :
    Offers memberList prev (b ++ (x ++ followers ms)) ['\n'] g g := by
  have hsplit : x ++ followers ms = x ++ (followers ms).takeWhile isMemberPart ++
      (followers ms).dropWhile isMemberPart := by simp
  rw [← append_assoc, hsplit, append_assoc] at hbar
  rw [hsplit, ← append_assoc]
  exact (hbar.seq (offers_line hne hx _)).seq (.star (repeats_nextMember hms) fails_nextMember_end)

namespace UnionText

variable {u : UnionText}

/-- The head of a union is matched up to its members. -/
theorem offers_unionHead (hu : u.IsPlain) (hrest : ∀ d ∈ rest.head?, isBlank d = false) :
    Offers unionHead none
      ([] ++ "union".toList ++ [' '] ++ u.name.toList ++ u.before ++ [] ++ ['='] ++ u.after) rest []
      [(1, u.name.toList)] := by
  refine .seq (.seq (.seq (.seq (.seq (.seq (.seq (.wordEdge ?_) .text) (.space ?_))
    (offers_name hu.name ?_)) (.run hu.before.isBlank ?_))
    (.star .nil (.seq (fails_directive ?_)))) .char)
      (.run hu.after.isBlank hrest)
  · exact (by decide : (none : Option Char).any isWord ≠ (some 'u').any isWord)
  · intro d hd
    rw [head?_append_of_ne_nil _ (ne_nil_of_isName hu.name)] at hd
    exact isBlank_of_isName hu.name d (mem_of_mem_head? hd)
  · intro d hd
    rw [head?_append] at hd
    rcases Option.or_eq_some_iff.mp hd with hd | ⟨-, hd⟩
    · exact Text.isWord_eq_false_of_isBlank (hu.before.isBlank d (mem_of_mem_head? hd))
    · cases hd
      rfl
  · intro d hd
    cases hd
    rfl
  · intro d after heq
    cases (cons.inj heq).1

theorem offers_list {g : Groups} (hu : u.IsPlain) (hjoined : u.isJoined) :
    Offers memberList prev u.list ['\n'] g g := by
  have hgap : ∀ gap ∈ u.gaps, '\n' ∉ gap := by simpa [isJoined] using hjoined
  rw [gaps, forall_mem_append, forall_mem_map] at hgap
  have hothers : ∀ m ∈ u.others, m.IsPlain ∧ '\n' ∉ m.after :=
    fun m hm => ⟨hu.others m hm, hgap.2 m hm⟩
  have hfirst := isMemberPart_of_isName hu.first
  rw [list]
  cases hlead : u.lead? with
  | none =>
    refine offers_memberList (b := []) hothers (ne_nil_of_isName hu.first) hfirst
      (.maybe (fails_char ?_))
    rw [head?_append_of_ne_nil _ (ne_nil_of_isName hu.first)]
    exact fun hhead => bar_notMem_name hu.first (mem_of_mem_head? hhead)
  | some gap =>
    have hspaces := isMemberPart_of_gap (hu.lead gap hlead) (hgap.1 gap (by simp [hlead]))
    have hne : gap ++ u.first.toList ≠ [] := by simp [ne_nil_of_isName hu.first]
    simpa using offers_memberList hothers hne (forall_mem_append.mpr ⟨hspaces, hfirst⟩)
      (.alt_left (.char (d := '|')))

end UnionText

/-! ### A bar that ends its line -/

/-- Every newline stands in front of a bar. -/
def Barred (cs : List Char) : Prop :=
  ∀ after, '\n' :: after <:+ cs →
    ∃ gap more, after = gap ++ '|' :: more ∧ ∀ c ∈ gap, isBlank c = true

theorem Barred.append (hx : ∀ c ∈ x, isMemberPart c) (hy : Barred y) : Barred (x ++ y) := by
  induction x with
  | nil => exact hy
  | cons c x ih =>
    intro after hafter
    rcases suffix_cons_iff.mp hafter with heq | hafter
    · obtain ⟨rfl, -⟩ := cons.inj heq
      cases hx '\n' (mem_cons_self ..)
    · exact ih (forall_mem_cons.mp hx).2 after hafter

theorem Barred.bar (hx : ∀ c ∈ x, isBlank c) (hy : Barred y) : Barred (x ++ '|' :: y) := by
  induction x with
  | nil =>
    intro after hafter
    exact hy after ((suffix_cons_iff.mp hafter).resolve_left (by simp))
  | cons c x ih =>
    obtain ⟨-, hx⟩ := forall_mem_cons.mp hx
    intro after hafter
    rcases suffix_cons_iff.mp hafter with heq | hafter
    · exact ⟨x, y, (cons.inj heq).2, hx⟩
    · exact ih hx after hafter

theorem barred_of_spans (h : memberList.Spans prev x rest) : Barred x := by
  have hrounds {prev : Option Char} {x rest : List Char}
      (h : Repeats nextMember.Spans prev x rest) : Barred x := by
    induction h with
    | nil => exact fun after hafter => by simp at hafter
    | cons _ hround _ ih =>
      obtain ⟨gap, line, rfl, hgap, hline⟩ := spans_nextMember hround
      rw [append_assoc, cons_append]
      exact .bar hgap (.append hline ih)
  obtain ⟨_, rounds, rfl, ⟨bar, line, rfl, hbar, hline⟩, hmore⟩ := h
  have hfront := Barred.append (spans_run1.mp hline).2 (hrounds hmore)
  rcases hbar with hbar | hbar
  · rw [spans_char.mp hbar, append_assoc]
    exact .bar (x := []) (forall_mem_nil _) hfront
  · cases hbar
    exact hfront

/-- What is found is a head and the text of the members. -/
theorem exists_members_of_search? {m : Found} (h : unionForm.search? (.start cs) = some m) :
    ∃ x gap rest, cs = x ++ '=' :: (gap ++ (m.getD 2 ++ rest)) ∧ (∀ c ∈ gap, isBlank c) ∧
      Barred (m.getD 2) := by
  obtain ⟨x, q, hx, hm⟩ := exists_matchAt?_of_search? h
  obtain ⟨y, q', g', hy, ⟨w, gap, rfl, ⟨v, eq, rfl, -, heq⟩, hgap⟩, hm⟩ :=
    exists_spans_of_first (a := unionHead) hm
  obtain ⟨z, q'', g'', hz, hspans, hm⟩ := exists_spans_of_first (a := memberList) hm
  have hmembers : m.getD 2 = z := by
    rw [← Option.some.inj hm]
    change q'.upTo q'' = z
    rw [hz.eq_behind, Text.Place.upTo_behind hz.rest]
  have hcs : cs = _ := hx.rest
  rw [hy.rest, hz.rest, spans_char.mp heq] at hcs
  rw [hmembers]
  exact ⟨x ++ v, gap, q''.rest, by simpa using hcs, hgap, barred_of_spans hspans⟩

/-- The characters of names, gaps and bars. -/
def isUnionPart (c : Char) : Bool := Identifier.isPart c || c == ' ' || c == '\n' || c == '|'

theorem isUnionPart_of_isName (h : isName n) : ∀ c ∈ n, isUnionPart c := by
  intro c hc
  simp [isUnionPart, forall_isPart_of_isName h c hc]

theorem isUnionPart_of_isGap (h : IsGap cs) : ∀ c ∈ cs, isUnionPart c := by
  intro c hc
  rcases h c hc with rfl | rfl <;> rfl

namespace UnionText

variable {u : UnionText}

theorem forall_mem_tail (hu : u.IsPlain) : ∀ c ∈ u.after ++ (u.list ++ ['\n']), isUnionPart c := by
  have hlead : ∀ c ∈ u.lead?.elim [] ('|' :: ·), isUnionPart c := by
    cases hgap : u.lead? with
    | none => exact forall_mem_nil _
    | some gap => exact forall_mem_cons.mpr ⟨rfl, isUnionPart_of_isGap (hu.lead gap hgap)⟩
  have hothers : ∀ c ∈ followers u.others, isUnionPart c := by
    refine forall_mem_flatMap.mpr fun m hm => ?_
    have hplain := hu.others m hm
    exact forall_mem_append.mpr ⟨isUnionPart_of_isGap hplain.before, forall_mem_cons.mpr ⟨rfl,
      forall_mem_append.mpr ⟨isUnionPart_of_isGap hplain.after, isUnionPart_of_isName hplain.name⟩⟩⟩
  simp only [list, forall_mem_append]
  exact ⟨isUnionPart_of_isGap hu.after, ⟨hlead, isUnionPart_of_isName hu.first, hothers⟩, by decide⟩

/-- Up to the equals sign. -/
def head (u : UnionText) : List Char := "union".toList ++ ' ' :: (u.name.toList ++ u.before)

theorem print_eq (u : UnionText) : u.print = u.head ++ '=' :: (u.after ++ (u.list ++ ['\n'])) := by
  simp [print, head]

theorem forall_mem_head (hu : u.IsPlain) : ∀ c ∈ u.head, isUnionPart c :=
  forall_mem_append.mpr ⟨by decide, forall_mem_cons.mpr ⟨rfl, forall_mem_append.mpr
    ⟨isUnionPart_of_isName hu.name, isUnionPart_of_isGap hu.before⟩⟩⟩

theorem equals_notMem (h : ∀ c ∈ cs, isUnionPart c) : '=' ∉ cs :=
  fun hmem => absurd (h _ hmem) (by decide)

/-- A member on another line than its bar. -/
theorem exists_broken (hu : u.IsPlain) (h : u.isJoined = false) :
    ∃ x line below n rest, u.list = x ++ '|' :: (line ++ '\n' :: (below ++ (n ++ rest))) ∧
      IsGap line ∧ IsGap below ∧ isName n = true := by
  have hlist : ∃ gap, '\n' ∈ gap ∧ IsGap gap ∧
      ∃ x n rest, u.list = x ++ '|' :: (gap ++ (n ++ rest)) ∧ isName n := by
    obtain ⟨gap, hgap, hline⟩ : ∃ gap ∈ u.gaps, '\n' ∈ gap := by simpa [isJoined] using h
    refine ⟨gap, hline, ?_⟩
    rcases mem_append.mp hgap with hlead | hgap
    · have hlead := Option.mem_toList.mp hlead
      exact ⟨hu.lead gap hlead, [], u.first.toList, _, by rw [list, Option.mem_def.mp hlead]; rfl,
        hu.first⟩
    · obtain ⟨m, hm, rfl⟩ := mem_map.mp hgap
      obtain ⟨before, after, hothers⟩ := append_of_mem hm
      have hplain := hu.others m hm
      exact ⟨hplain.after, u.lead?.elim [] ('|' :: ·) ++
        (u.first.toList ++ (followers before ++ m.before)),
        m.name.toList, followers after, by simp [list, hothers, followers, MemberText.print],
          hplain.name⟩
  obtain ⟨gap, hline, hgap, x, n, rest, hlist, hn⟩ := hlist
  obtain ⟨line, below, rfl⟩ := append_of_mem hline
  obtain ⟨hline, hbelow⟩ := forall_mem_append.mp hgap
  exact ⟨x, line, below, n, rest, by simpa using hlist, hline, (forall_mem_cons.mp hbelow).2, hn⟩

/-- The members that are found do not go beyond a bar that ends its line. -/
theorem length_memberNames_lt (hu : u.IsPlain) (hjoined : u.isJoined = false) {m : Found}
    (hm : unionForm.search? (.start u.print) = some m) :
    (memberNames (m.getD 2)).length < u.members.length := by
  obtain ⟨x, line, below, n, tail, hlist, hline, hbelow, hn⟩ := exists_broken hu hjoined
  obtain ⟨c, n, rfl⟩ := exists_cons_of_ne_nil (ne_nil_of_isName hn)
  have hpart : Identifier.isPart c := forall_isPart_of_isName hn c (mem_cons_self ..)
  obtain ⟨_, blank, rest, hprint, hblank, hbarred⟩ := exists_members_of_search? hm
  rw [print_eq, append_cons_inj_of_notMem (equals_notMem (forall_mem_head hu))
    (equals_notMem (forall_mem_tail hu))] at hprint
  have hsplit : u.after ++ (x ++ '|' :: line) ++ '\n' :: (below ++ c :: (n ++ (tail ++ ['\n']))) =
      blank ++ m.getD 2 ++ rest := by
    rw [append_assoc blank, ← hprint.2.2, hlist]
    simp
  -- What is found ends in front of the newline.
  have hshort : ∃ y, u.after ++ (x ++ '|' :: line) = blank ++ (m.getD 2 ++ y) := by
    rcases append_eq_append_iff.mp hsplit with ⟨_ | ⟨d, y⟩, hfound, hrest⟩ | ⟨y, hfound, -⟩
    · exact ⟨[], by simpa using hfound.symm⟩
    · exfalso
      obtain ⟨rfl, hbehind⟩ := cons.inj hrest
      change _ = y ++ rest at hbehind
      rcases append_eq_append_iff.mp hfound with ⟨z, -, hz⟩ | ⟨z, hbar, -⟩
      · obtain ⟨gap, more, rfl, hgap⟩ := hbarred y ⟨z, hz.symm⟩
        have hstart := congrArg trimStart hbehind
        rw [append_assoc, Text.trimStart_append hbelow.isBlank, Text.trimStart_append hgap,
          Text.trimStart_cons_of_not_isBlank (isBlank_eq_false_of_isPart hpart), cons_append,
          Text.trimStart_cons_of_not_isBlank rfl] at hstart
        obtain ⟨rfl, -⟩ := cons.inj hstart
        cases hpart
      · exact absurd (hblank '|' (by simp [hbar])) (by decide)
    · exact ⟨y, by simpa using hfound⟩
  obtain ⟨y, hshort⟩ := hshort
  have hle := length_memberNames_le (m.getD 2) blank y
  have hmembers := memberNames_list hu hu.after (z := []) (forall_mem_nil _)
  have hlost : memberNames (line ++ '\n' :: (below ++ (c :: n ++ tail))) ≠ [] :=
    memberNames_ne_nil (c := c) (by simp) (isBlank_eq_false_of_isPart hpart)
      (by rintro rfl; cases hpart)
  rw [← hshort, ← append_assoc, memberNames_bar, memberNames_gap hline, append_nil] at hle
  rw [append_nil, hlist, ← append_assoc, memberNames_bar] at hmembers
  have hlength := congrArg length hmembers
  rw [length_append, length_map] at hlength
  have hpos := length_pos_iff.mpr hlost
  omega

end UnionText

/-! ### What else a source may hold -/

theorem all_blockHead (h : '{' ∉ cs) : blockHead.all cs = [] := by
  refine allFrom_of_not_occurs (not_occurs_of_notMem ?_ h) _
  rintro prev x rest ⟨_, brace, rfl, -, hbrace⟩
  rw [spans_char.mp hbrace]
  simp

theorem all_unionForm (h : cs.count '=' ≤ 1) :
    unionForm.all cs = (unionForm.search? (.start cs)).toList := by
  refine all_eq_toList ?_ h
  rintro prev x rest ⟨_, _, rfl, ⟨_, _, rfl, ⟨_, equals, rfl, -, hequals⟩, -⟩, -⟩
  rw [spans_char.mp hequals]
  simp

/-- A source without quotes and hashes is read as it is. -/
theorem stripComments_eq (hquote : '"' ∉ cs) (hhash : '#' ∉ cs) : stripComments cs = cs := by
  have hunmarked (i : Nat) : commentMarks.startsAt (cs.drop i) = false := by
    rw [← Bool.not_eq_true, CommentMarks.startsAt_iff]
    simp only [commentMarks, mem_singleton, exists_eq_left]
    rintro (h | h)
    · exact hhash (mem_of_mem_drop (h.subset (mem_cons_self ..)))
    · exact hquote (mem_of_mem_drop (h.subset (mem_cons_self ..)))
  have hstrips := CommentMarks.stripsTo_self (s := {}) (p := none) fun i _ => hunmarked i
  rw [stripComments, hstrips.strip_eq ⟨by decide, by decide, by decide⟩]
  refine substitute_of_not_occurs (not_occurs_of_notMem ?_ hquote) _
  rintro prev x rest ⟨_, _, rfl, ⟨_, _, rfl, ⟨_, quote, rfl, -, hmark⟩, -⟩, -⟩
  rw [spans_char.mp hmark]
  simp

section Scalar

variable {b d : Char} (hgap : ∀ e ∈ b :: gap, isBlank e) (hd : isNameStart d)
include hgap hd

theorem notMem_scalar (hc : c ∉ "scalar".toList) (hblank : isBlank c = false)
    (hpart : Identifier.isPart c = false) :
    c ∉ "scalar".toList ++ b :: gap ++ [d] := by
  rw [mem_append, mem_append, mem_singleton]
  rintro ((hmem | hmem) | rfl)
  · exact hc hmem
  · exact absurd (hgap _ hmem) (by simp [hblank])
  · exact absurd (isPart_of_isNameStart hd) (by simp [hpart])

/-- The keyword of a scalar with a name behind it stands in no name. -/
theorem not_infix_scalar (hnames : ∀ n ∈ memberNames cs, isName n = true) :
    ¬"scalar".toList ++ b :: gap ++ [d] <:+: cs := by
  intro h
  obtain ⟨n, hn, hpart⟩ :=
    exists_memberName (notMem_scalar hgap hd (by decide) rfl rfl) (by rintro e ⟨⟩; decide)
    (isBlank_eq_false_of_isPart (isPart_of_isNameStart hd)) h
  have hblank := isBlank_of_isName (hnames n hn) b (hpart.subset (by simp))
  rw [hgap b (mem_cons_self ..)] at hblank
  cases hblank

end Scalar

/-- A source with nothing but a union defines no scalar. -/
theorem all_scalarForm {u : UnionText} (hu : u.IsPlain) : scalarForm.all u.print = [] := by
  refine allFrom_of_not_occurs ?_ _
  rintro ⟨x, _, z, hprint, _, name, rfl, ⟨_, gap, rfl, ⟨_, keyword, rfl, ⟨rfl, -⟩, hkeyword⟩, hgap⟩,
    hname⟩
  obtain ⟨_, more, rfl, ⟨d, hd, rfl⟩, -⟩ := hname
  obtain ⟨hne, hgap⟩ := spans_run1.mp hgap
  obtain ⟨b, gap, rfl⟩ := exists_cons_of_ne_nil hne
  have hpart : "scalar".toList ++ b :: gap ++ [d] <:+: u.print :=
    ⟨x, more ++ z, by rw [show u.print = _ from hprint, spans_text.mp hkeyword]; simp⟩
  rw [UnionText.print_eq] at hpart
  rcases infix_of_notMem (notMem_scalar hgap hd (by decide) rfl rfl) hpart with h | h
  · -- The keyword does not start within the other one.
    have hskip {x y w : List Char} (hx : 's' ∉ x) (h : 's' :: w <:+: x ++ y) : 's' :: w <:+: y := by
      induction x with
      | nil => exact h
      | cons e x ih =>
        rw [mem_cons, not_or] at hx
        exact ih hx.2
          ((infix_cons_iff.mp h).resolve_left fun hstart => hx.1 (cons_prefix_cons.mp hstart).1)
    have hhead : u.head = "union ".toList ++ (u.name.toList ++ u.before) := by simp [UnionText.head]
    rw [hhead] at h
    refine not_infix_scalar hgap hd ?_ (hskip (by decide) h)
    rw [← nil_append (u.name.toList ++ _), memberNames_name (forall_mem_nil _) hu.name hu.before]
    exact forall_mem_singleton.mpr hu.name
  · refine not_infix_scalar hgap hd ?_ h
    rw [UnionText.memberNames_list hu hu.after (by decide)]
    exact forall_mem_map.mpr
      (forall_mem_cons.mpr ⟨hu.first, forall_mem_map.mpr fun m hm => (hu.others m hm).name⟩)

/-! ### Aliases -/

/-- The alias of members that are never absent. -/
def aliasText (ms : List String) : List Char :=
  [' ', '|', ' '].intercalate (ms.map fun n => (TypeText.named n true).print)

def aliasOf (name : String) (ms : List String) : Declaration :=
  { name := .text name, body := .synonym (.text (aliasText ms)) }

theorem union_eq (m : Found) :
    union m = aliasOf (ofList (m.getD 1)) ((memberNames (m.getD 2)).map ofList) := by
  have hbody : Text.join " | " ((memberNames (m.getD 2)).map fun p => ofList (p ++ ['!'])) =
      ofList (aliasText ((memberNames (m.getD 2)).map ofList)) := by
    refine Eq.trans ?_ (intercalate_ofList " | " _)
    rw [map_map, map_map, Text.join]
    simp [TypeText.print, TypeText.mark, Function.comp_def]
  rw [memberNames] at hbody
  rw [union, hbody, toList_ofList]
  rfl

/-- Two or more members make a union of them. -/
theorem classify_aliasText {ms : List String} (hms : ∀ n ∈ ms, isName n.toList = true)
    (hlength : 2 ≤ ms.length) (custom : List String) :
    classify custom (aliasText ms) =
      .union (ms.map fun n => .text (TypeText.named n true).print) := by
  have hpieces :
      ∀ u ∈ ms.map fun n => (TypeText.named n true).print, Piece tracked TypeText.isOutside u :=
    forall_mem_map.mpr fun n hn => TypeText.piece_print (t := .named n true) (hms n hn)
  have htrim : trim (aliasText ms) = aliasText ms := by
    refine Piece.trim_eq (.intercalate ?_ (fun u hu => ?_) ?_ : Piece tracked (fun _ => true) _)
    · exact .plain rfl rfl (.plain rfl rfl (.plain rfl rfl .nil))
    · exact (hpieces u hu).mono fun _ _ => rfl
    · rintro hnil
      simp [map_eq_nil_iff.mp hnil] at hlength
  have hsplit : splitTopNonempty tracked ['|'] (aliasText ms) =
      ms.map fun n => (TypeText.named n true).print :=
    splitTopNonempty_intercalate [' '] [' '] (by rfl) (by simp) (by simp) (mem_singleton_self _)
      hpieces
  have hmark (n : String) (hn : n ∈ ms) :
      stripEnd ['!'] (TypeText.named n true).print ++ ['!'] = (TypeText.named n true).print := by
    have hlast : n.toList.reverse.dropWhile ['!'].contains = n.toList.reverse := by
      refine dropWhile_eq_self_iff.mpr fun hpos hcontains => ?_
      have hmem := mem_reverse.mp (getElem_mem hpos)
      rw [mem_singleton.mp (contains_iff_mem.mp hcontains)] at hmem
      cases forall_isPart_of_isName (hms n hn) _ hmem
    have hprint : (TypeText.named n true).print = n.toList ++ ['!'] := rfl
    rw [hprint, stripEnd, reverse_append, reverse_singleton, singleton_append,
      dropWhile_cons_of_pos (by decide), hlast, reverse_reverse]
  rw [classify, htrim, hsplit]
  dsimp only
  rw [if_pos (by simpa using hlength), map_map]
  exact congrArg _ (map_congr_left fun n hn => congrArg Raw.text (hmark n hn))

/-- The names that a type refers to, in order. -/
def referents (type : List Char) : List String :=
  match classify [] type with
  | .reference n => [n]
  | .union members => members.flatMap fun m =>
    match classify [] m.asText with
    | .reference n => [n]
    | _ => []
  | _ => []

/-- The name of a type that is no scalar. -/
def IsMemberType (n : String) : Prop :=
  isName n.toList = true ∧ scalar? n = none ∧ wellKnownScalar? n = none

theorem IsMemberType.classify_eq {n : String} (h : IsMemberType n) :
    classify [] (TypeText.named n true).print = .reference n := by
  rw [TypeText.classify_named h.1 (.inr ⟨h.2.2, not_mem_nil⟩), h.2.1]

/-- An alias refers to its members. -/
theorem referents_aliasText {ms : List String} (hne : ms ≠ []) (hms : ∀ n ∈ ms, IsMemberType n) :
    referents (aliasText ms) = ms := by
  match ms with
  | [n] =>
    have htext : aliasText [n] = (TypeText.named n true).print := intercalate_singleton ..
    rw [referents, htext, (hms n (mem_singleton_self n)).classify_eq]
  | n :: n' :: ms =>
    rw [referents, classify_aliasText (fun n hn => (hms n hn).1) (by simp)]
    dsimp only
    rw [flatMap_map]
    refine (flatMap_congr fun n hn => ?_).trans (flatMap_singleton' _)
    change (match classify [] (TypeText.named n true).print with
      | .reference n => [n]
      | _ => []) = [n]
    rw [(hms n hn).classify_eq]

namespace UnionText

variable {u : UnionText}

/-- A source with nothing but a union declares what is found of it. -/
theorem result_extract_print (hu : u.IsPlain) : (extract u.print).result =
    .ok { declarations := ((unionForm.search? (.start u.print)).map union).toList } := by
  have hnot {c : Char} (hc : isUnionPart c = false) (hne : c ≠ '=') : c ∉ u.print := by
    rw [print_eq, mem_append, mem_cons]
    rintro (h | rfl | h)
    · exact absurd (forall_mem_head hu c h) (by simp [hc])
    · exact hne rfl
    · exact absurd (forall_mem_tail hu c h) (by simp [hc])
  have hcount : u.print.count '=' ≤ 1 := by
    rw [print_eq, count_append, count_cons_self,
      count_eq_zero.mpr (equals_notMem (forall_mem_head hu)),
      count_eq_zero.mpr (equals_notMem (forall_mem_tail hu))]
  have hstrip : stripComments u.print = u.print :=
    stripComments_eq (hnot rfl (by decide)) (hnot rfl (by decide))
  refine result_bind_eq_ok.mpr ⟨[], ?_, ?_⟩
  · rw [hstrip, all_blockHead (hnot rfl (by decide))]
    rfl
  · rw [hstrip, all_scalarForm hu, all_unionForm hcount]
    cases unionForm.search? (.start u.print) with
    | none =>
      simp only [Option.toList_none, map_nil, append_nil, Document.inOrder, mergeSort_nil]
      rfl
    | some m =>
      simp only [Option.toList_some, map_singleton, nil_append, Document.inOrder,
        mergeSort_singleton]
      rfl

/-- All members are found if each stands on the line of its bar. -/
theorem search?_print (hu : u.IsPlain) (hjoined : u.isJoined) :
    (unionForm.search? (.start u.print)).map union = some (aliasOf u.name u.members) := by
  have hhead : ∀ d ∈ (u.list ++ ['\n']).head?, isBlank d = false := by
    rw [list]
    cases u.lead? with
    | none =>
      intro d hd
      rw [Option.elim_none, nil_append, append_assoc,
        head?_append_of_ne_nil _ (ne_nil_of_isName hu.first)] at hd
      exact isBlank_of_isName hu.first d (mem_of_mem_head? hd)
    | some gap =>
      rintro d ⟨⟩
      rfl
  have hform := (offers_unionHead hu hhead).seq (.group (n := 2) (offers_list hu hjoined))
  have hprint : u.print =
      [] ++ "union".toList ++ [' '] ++ u.name.toList ++ u.before ++ [] ++ ['='] ++ u.after ++
      u.list ++ ['\n'] := by simp [print]
  have hunion : unionForm = unionHead ++ .group 2 memberList := rfl
  have hmembers := memberNames_list hu (y := []) (z := []) (forall_mem_nil _) (forall_mem_nil _)
  rw [nil_append, append_nil] at hmembers
  rw [hunion, hform.search? hprint, Option.map_some, union_eq]
  change some (aliasOf (ofList u.name.toList) ((memberNames u.list).map ofList)) = _
  rw [hmembers, map_map, String.ofList_toList]
  simp [Function.comp_def]

end UnionText

/-- A union declares its members in every layout in which each stands on the line of its bar. In
every other layout members are lost. -/
theorem union_reads_back {u : UnionText} (hu : u.IsPlain) :
    ∃ doc, (extract u.print).result = .ok doc ∧ doc.scope.customScalars = [] ∧
      (u.isJoined = true → doc.declarations = [aliasOf u.name u.members] ∧
        ((∀ n ∈ u.members, IsMemberType n) → referents (aliasText u.members) = u.members)) ∧
      (u.isJoined = false → ∀ d ∈ doc.declarations, ∃ n ms,
        d = aliasOf n ms ∧ ms.length < u.members.length) := by
  refine ⟨_, UnionText.result_extract_print hu, rfl, fun hjoined => ⟨?_, ?_⟩,
    fun hjoined d hd => ?_⟩
  · rw [UnionText.search?_print hu hjoined, Option.toList_some]
  · exact referents_aliasText (by simp [UnionText.members])
  · obtain ⟨m, hm, rfl⟩ := Option.map_eq_some_iff.mp (Option.mem_toList.mp hd)
    refine ⟨_, _, union_eq m, ?_⟩
    rw [length_map]
    exact UnionText.length_memberNames_lt hu hjoined hm

/-- A union with a bar that ends its line. -/
def brokenUnion : UnionText where
  name := "N"
  first := "A"
  others := [{ before := [' '], after := ['\n', ' '], name := "B" }]

/-- The member behind the bar is lost. -/
theorem brokenUnion_member_lost :
    brokenUnion.IsPlain ∧ brokenUnion.print = "union N = A |\n B\n".toList ∧
      ∃ doc, (extract brokenUnion.print).result = .ok doc ∧
        ∀ d ∈ doc.declarations, ∃ n ms, d = aliasOf n ms ∧ ms.length < 2 := by
  have hplain : brokenUnion.IsPlain := by
    refine ⟨by decide, by decide, by decide, nofun, by decide, ?_⟩
    exact forall_mem_singleton.mpr ⟨by decide, by decide, by decide⟩
  obtain ⟨doc, hdoc, -, -, hlost⟩ := union_reads_back hplain
  exact ⟨hplain, by decide, doc, hdoc, hlost (by decide)⟩

end Crosswalk.GraphQL
