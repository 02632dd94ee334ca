import Crosswalk.Proofs.ChainNormalForms
import Crosswalk.Proofs.JoinedChains

/-!
Calls that leave the validated type as it is. Main statement: behind a chain they do not change how
it is classified, however many follow. They are dropped before the chain is looked at, and dropping
coercion does not get in their way: what is left of a link is a link, and a chain of several links
keeps at least two.
-/

namespace Crosswalk.Zod

open List
open Identifier (isPart)
open Text (isBlank trim trimStart trimEnd)
open Scan (proper_step run run_append)

variable {calls : List Call}

/-! ### Links -/

theorem coercion_append (x : List Char) :
    coercion ++ x = 'z' :: (('.' :: (['c', 'o', 'e', 'r', 'c', 'e'] ++ ['.'])) ++ x) := by
  rw [coercion_eq]
  rfl

/-- The text of a link of a chain. -/
def IsLink (t : List Char) : Prop := (call? t).isSome = true

section Links

variable {t a m : List Char}

theorem IsLink.ne_nil (h : IsLink t) : t ≠ [] := by
  rintro rfl
  cases h

theorem IsLink.exists_name (h : IsLink t) :
    ∃ name b rest, t = name ++ (b ++ rest) ∧ Identifier.isName name ∧ (∀ c ∈ b, isBlank c) ∧
      (rest = [] ∨ ∃ inner, rest = '(' :: (inner ++ [')'])) := by
  obtain ⟨call, hcall⟩ := Option.isSome_iff_exists.mp h
  obtain ⟨hname, b, rest, ht, -, hb, hrest⟩ := exists_of_call? hcall
  exact ⟨_, b, rest, ht, hname, hb, hrest⟩

/-- Coercion within a link is asked for in its arguments. -/
theorem IsLink.drop_coercion (h : IsLink (a ++ (coercion ++ m))) :
    IsLink (a ++ ('z' :: '.' :: m)) := by
  obtain ⟨name, b, rest, ht, hname, hb, hrest⟩ := h.exists_name
  rw [← append_assoc name, coercion_append] at ht
  have hpoint : '.' ∉ name ++ b := by
    obtain ⟨c, cs, rfl, -, hpart⟩ := Member.exists_of_isName hname
    intro hmem
    rcases mem_append.mp hmem with hmem | hmem
    · cases hpart _ hmem
    · cases hb _ hmem
  obtain ⟨inner, rfl⟩ : ∃ inner, rest = '(' :: (inner ++ [')']) := by
    refine hrest.resolve_left ?_
    rintro rfl
    rw [append_nil] at ht
    exact hpoint (ht ▸ by simp)
  rcases append_eq_append_iff.mp ht with ⟨d, hd, hmark⟩ | ⟨d, rfl, hmark⟩
  · -- The mark cannot start before the arguments, since its point is no part of a name.
    rcases d with _ | ⟨x, _ | ⟨y, d⟩⟩
    · cases hmark
    · cases hmark
    · obtain ⟨rfl, htail⟩ := cons.inj hmark
      obtain ⟨rfl, -⟩ := cons.inj htail
      exact absurd (hd ▸ by simp) hpoint
  · rcases d with _ | ⟨x, d⟩
    · cases hmark
    obtain ⟨rfl, hinner⟩ := cons.inj hmark
    obtain ⟨m, rfl⟩ : ∃ m', m = m' ++ [')'] := by
      have hlast : (d ++ (coercion ++ m)).getLast? = some ')' := by
        rw [coercion_append]
        exact (congrArg List.getLast? hinner).symm.trans getLast?_concat
      rw [getLast?_append, getLast?_append] at hlast
      rw [← getLast?_eq_some_iff]
      cases hm : m.getLast? with
      | none =>
        rw [hm] at hlast
        cases hlast
      | some c => rwa [hm] at hlast
    have hcalled := call?_blanks hname hb (d ++ ('z' :: '.' :: (m ++ [')'])))
    rw [if_pos (by simp [getLast?_append, getLast?_cons])] at hcalled
    rw [IsLink, append_assoc, append_assoc, cons_append, hcalled]
    rfl

theorem IsLink.trim_drop_coercion (h : IsLink (trim (a ++ (coercion ++ m)))) :
    IsLink (trim (a ++ ('z' :: '.' :: m))) := by
  have htrim (w : List Char) :
      trim (a ++ ('z' :: w ++ '.' :: m)) = trimStart a ++ ('z' :: w ++ '.' :: trimEnd m) := by
    rw [← append_assoc, Text.trim_append_cons rfl, trimStart, Text.dropWhile_append_cons rfl,
      append_assoc]
    rfl
  have hmark (m : List Char) :
      coercion ++ m = 'z' :: ['.', 'c', 'o', 'e', 'r', 'c', 'e'] ++ '.' :: m := by
    rw [coercion_eq]
    rfl
  rw [hmark, htrim, ← hmark] at h
  exact (htrim []).symm ▸ h.drop_coercion

end Links

/-! ### Parts without coercion -/

/-- The parts of a text, and those of the text without coercion: a link stays a link, and behind it
the word that asks for coercion may be dropped. -/
inductive Eased : List (List Char) → List (List Char) → Prop
  | last {p p' : List Char} (h : IsLink p → IsLink p') : Eased [p] [p']
  | keep {p p' : List Char} {ps ps' : List (List Char)} (h : IsLink p → IsLink p')
      (hs : Eased ps ps') :
      Eased (p :: ps) (p' :: ps')
  | drop {p p' q : List Char} {ps ps' : List (List Char)} (h : IsLink p → IsLink p')
      (hs : Eased ps ps') :
      Eased (p :: q :: ps) (p' :: ps')

namespace Eased

variable {ps ps' : List (List Char)}

theorem isLink (h : Eased ps ps') (hps : ∀ p ∈ ps, IsLink p) : ∀ p ∈ ps', IsLink p := by
  induction h with
  | last h => exact forall_mem_singleton.mpr (h (hps _ mem_cons_self))
  | keep h _ ih =>
    obtain ⟨hp, hps⟩ := forall_mem_cons.mp hps
    exact forall_mem_cons.mpr ⟨h hp, ih hps⟩
  | drop h _ ih =>
    obtain ⟨hp, hps⟩ := forall_mem_cons.mp hps
    exact forall_mem_cons.mpr ⟨h hp, ih (forall_mem_cons.mp hps).2⟩

theorem length_pos (h : Eased ps ps') : 0 < ps'.length := by
  cases h <;> simp

theorem two_le_length (h : Eased ps ps') (hps : 2 ≤ ps.length) : 2 ≤ ps'.length := by
  cases h with
  | last => exact hps
  | keep _ hs | drop _ hs => exact Nat.succ_le_succ hs.length_pos

end Eased

section Coercion

variable {s : Scan} {x : List Char}

theorem splitFrom_inert {w : List Char} (hs : s.Proper) (hmode : ∀ q, s.mode ≠ .escape q)
    (htop : s.atTop = false) (hw : ∀ c ∈ w, isPlain c ∧ c ≠ '\\') (part rest : List Char) :
    splitFrom tracked ['.'] part none s (w ++ rest) =
      splitFrom tracked ['.'] (w.reverse ++ part) none s rest := by
  induction w generalizing part with
  | nil => rfl
  | cons c w ih =>
    obtain ⟨hc, hw⟩ := forall_mem_cons.mp hw
    rw [cons_append, splitFrom_cons (by rw [htop]; rfl), Scan.step_inert hs hmode hc.1 hc.2, ih hw,
      reverse_cons, append_assoc]
    rfl

/-- The rest of a mark leaves the walk where it is. -/
theorem run_mark {w : List Char} (hs : s.Proper) (hw : ∀ c ∈ w, isPlain c ∧ c ≠ '\\')
    (x : List Char) :
    run tracked none s ('z' :: (w ++ x)) = run tracked none (s.step tracked none 'z') x := by
  rw [run, run_append,
    Scan.run_inert (proper_step hs 'z') (Scan.step_mode_ne_escape (by decide)) hw]
  exact run_previous _ _

theorem run_uncoerced (hs : s.Proper) :
    run tracked none s (uncoerced x) = run tracked none s x := by
  induction x using coercion_induction generalizing s with
  | nil => rfl
  | mark x ih =>
    have hshort : 'z' :: '.' :: uncoerced x = 'z' :: (['.'] ++ uncoerced x) := rfl
    rw [uncoerced_mark, coercion_append, hshort, run_mark hs (by decide), run_mark hs (by decide),
      ih (proper_step hs 'z')]
  | cons c x hc ih =>
    rw [uncoerced_cons hc, run, run, run_previous _ none, ih (proper_step hs c), run_previous none]

theorem eased_splitFrom (hs : s.Proper) {part part' : List Char}
    (hpart : ∀ more, IsLink (trim (part.reverse ++ more)) → IsLink (trim (part'.reverse ++ more))) :
    Eased (splitFrom tracked ['.'] part none s x)
      (splitFrom tracked ['.'] part' none s (uncoerced x)) := by
  induction x using coercion_induction generalizing s part part' with
  | nil => exact .last (by simpa using hpart [])
  | mark x ih =>
    rw [uncoerced_mark]
    cases htop : s.atTop with
    | true =>
      obtain rfl := Scan.eq_of_atTop htop
      have hmark :
          splitFrom tracked ['.'] part none {} (coercion ++ x) = trim ('z' :: part).reverse ::
          trim ['c', 'o', 'e', 'r', 'c', 'e'] :: splitFrom tracked ['.'] [] (some '.') {} x := by
        rw [coercion_append]
        rfl
      have hshort : splitFrom tracked ['.'] part' none {} ('z' :: '.' :: uncoerced x) =
          trim ('z' :: part').reverse :: splitFrom tracked ['.'] [] (some '.') {} (uncoerced x) :=
            rfl
      rw [hmark, hshort, splitFrom_previous (some '.') none, splitFrom_previous (some '.') none]
      exact .drop (by simpa using hpart ['z']) (ih hs fun _ h => h)
    | false =>
      have hproper : (s.step tracked none 'z').Proper := proper_step hs 'z'
      have hmode (q : Char) : (s.step tracked none 'z').mode ≠ .escape q :=
        Scan.step_mode_ne_escape (by decide) q
      have htop' : (s.step tracked none 'z').atTop = false := by
        rw [Bool.eq_false_iff]
        intro hback
        have hcode := Scan.mode_of_atTop hback
        have hkept : s.step tracked none 'z' = s := by
          refine Scan.step_inert hs (fun q hq => ?_) (by decide) (by decide)
          rw [Scan.step, hq] at hcode
          cases hcode
        rw [hkept, htop] at hback
        cases hback
      have hshort : 'z' :: '.' :: uncoerced x = 'z' :: (['.'] ++ uncoerced x) := rfl
      rw [coercion_append, hshort, splitFrom_cons (by simp), splitFrom_cons (by simp),
        splitFrom_inert hproper hmode htop' (by decide),
        splitFrom_inert hproper hmode htop' (by decide)]
      refine ih hproper fun more hlink => ?_
      have hmore :=
        (hpart (coercion ++ more) (by simpa [coercion_append] using hlink)).trim_drop_coercion
      simpa using hmore
  | cons c x hc ih =>
    rw [uncoerced_cons hc]
    cases hcut : s.atTop && ['.'].contains c with
    | true =>
      rw [splitFrom, splitFrom, if_pos hcut, if_pos hcut, splitFrom_previous (some c) none,
        splitFrom_previous (some c) none]
      exact .keep (by simpa using hpart []) (ih hs fun _ h => h)
    | false =>
      rw [splitFrom_cons hcut, splitFrom_cons hcut]
      refine ih (proper_step hs c) fun more hlink => ?_
      simpa using hpart (c :: more) (by simpa using hlink)

/-- A mark of coercion that does not reach over the end of the first text is dropped in it. -/
theorem uncoerced_append {y : List Char} (hy : Clear y)
    (hmeet : ∀ z, z <:+ x → coercion <+: z ++ y → coercion <+: z) :
    uncoerced (x ++ y) = uncoerced x ++ y := by
  induction x using coercion_induction with
  | nil => exact replaceAll_of_clear hy
  | mark x ih =>
    rw [append_assoc, uncoerced_mark, uncoerced_mark,
      ih fun z hz => hmeet z (hz.trans (suffix_append _ _))]
    rfl
  | cons c x hc ih =>
    have hc' : ¬coercion <+: c :: (x ++ y) := fun h => hc (hmeet _ (suffix_refl _) h)
    rw [cons_append, uncoerced_cons hc', uncoerced_cons hc,
      ih fun z hz => hmeet z (hz.trans (suffix_cons _ _))]
    rfl

end Coercion

/-! ### Chains -/

section Chains

variable {cs : List Char}

/-- If all parts of a text are links, they are the links of its chain. -/
theorem links_chain (h : ∀ p ∈ splitFrom tracked ['.'] [] none {} cs, IsLink p) :
    Forall₂ (fun p c => call? p = some c) (splitFrom tracked ['.'] [] none {} cs) (chain cs) := by
  obtain ⟨links, hlinks⟩ := exists_forall₂ fun p hp => Option.isSome_iff_exists.mp (h p hp)
  have hchain : chain cs = links := by
    rw [chain, splitTop, dropTrailingEmpty_eq_self fun p hp => (h p (mem_of_getLast? hp)).ne_nil,
      mapM_eq_some_iff.mpr hlinks, Option.getD_some]
  rwa [hchain]

theorem getLast?_splitFrom {c : Char} (hc : isBlank c = false) (hpoint : c ≠ '.')
    (x part : List Char) (s : Scan) :
    ∃ p, (splitFrom tracked ['.'] part none s (x ++ [c])).getLast? = some p ∧ p ≠ [] := by
  induction x generalizing part s with
  | nil =>
    rw [nil_append, splitFrom_cons (by simp [hpoint])]
    exact ⟨_, rfl, Text.trim_ne_nil (c := c) (by simp) hc⟩
  | cons d x ih =>
    cases hcut : s.atTop && ['.'].contains d with
    | true =>
      obtain ⟨p, hp, hne⟩ := ih [] s
      rw [cons_append, splitFrom, if_pos hcut, splitFrom_previous (some d) none, getLast?_cons, hp]
      exact ⟨p, rfl, hne⟩
    | false =>
      rw [cons_append, splitFrom_cons hcut]
      exact ih _ _

/-- A text that ends in neither a blank nor a point is parted into links if it is a chain. -/
theorem isLink_of_chain (hne : chain cs ≠ []) {c : Char} (hlast : cs.getLast? = some c)
    (hc : isBlank c = false) (hpoint : c ≠ '.') :
    ∀ p ∈ splitFrom tracked ['.'] [] none {} cs, IsLink p := by
  obtain ⟨x, rfl⟩ := getLast?_eq_some_iff.mp hlast
  obtain ⟨q, hq, hqne⟩ := getLast?_splitFrom hc hpoint x [] {}
  have hkeep := dropTrailingEmpty_eq_self fun p hp => by
    cases hq.symm.trans hp
    exact hqne
  rw [chain, splitTop, hkeep] at hne
  cases hlinks : (splitFrom tracked ['.'] [] none {} (x ++ [c])).mapM call? with
  | none =>
    rw [hlinks] at hne
    exact absurd rfl hne
  | some links =>
    intro p hp
    obtain ⟨c, -, hc⟩ := exists_mem_of_forall₂ (mapM_eq_some_iff.mp hlinks).flip hp
    exact Option.isSome_of_eq_some hc

theorem plainText_eq {b x : List Char} (hb : ∀ c ∈ b, isBlank c)
    (hfirst : ∃ c, x.head? = some c ∧ isBlank c = false) {d : Char} (hlast : x.getLast? = some d)
    (hd : isBlank d = false) (hcomma : d ≠ ',') : plainText (b ++ x) = uncoerced x := by
  have htrim : trim (b ++ x) = x := by
    simpa using Text.trim_append hb (forall_mem_nil _) hfirst ⟨d, hlast, hd⟩
  have hstrip : Text.stripEnd [','] x = x := rdropWhile_eq_self_iff.mpr fun hne hmem => by
    rw [getLast?_eq_some_getLast hne, Option.some.injEq] at hlast
    exact hcomma (by simpa [hlast] using hmem)
  rw [plainText, htrim, hstrip, Text.trim_eq_self hfirst ⟨d, hlast, hd⟩]

/-- Transparent calls behind the links that are kept are dropped. -/
theorem dropTransparent_append {keep : Nat} {links : List Call} (hkeep : keep ≤ links.length)
    (hcalls : ∀ c ∈ calls, isTransparent c.name) :
    dropTransparent keep (links ++ calls) = dropTransparent keep links := by
  rw [dropTransparent, dropTransparent, take_append_of_le_length hkeep,
    drop_append_of_le_length hkeep,
    reverse_append, dropWhile_append_of_pos fun c hc => hcalls c (mem_reverse.mp hc)]

end Chains

/-! ### Trailing calls -/

/-- A call with balanced arguments. -/
structure Call.Whole (c : Call) : Prop where
  name : Identifier.isName c.name.toList = true
  args : ∃ args, c.args = some args ∧ Sealed tracked args

namespace Call.Whole

variable {c : Call} (h : c.Whole)
include h

theorem isPart_name : ∀ y ∈ c.name.toList, isPart y := Member.isPart_of_isName h.name

theorem exists_text : ∃ args, c.args = some args ∧ Sealed tracked args ∧
    c.text = c.name.toList ++ '(' :: (args ++ [')']) := by
  obtain ⟨args, hargs, hsealed⟩ := h.args
  obtain ⟨name, _⟩ := c
  cases hargs
  exact ⟨args, rfl, hsealed, rfl⟩

theorem leads : Leads c.text {} := by
  obtain ⟨args, -, hsealed, htext⟩ := h.exists_text
  have hgroup : Leads ('(' :: (args ++ [')'])) {} :=
    ⟨_, hsealed.passes_group (d := .paren) (by decide) (by decide) rfl rfl rfl⟩
  exact htext ▸ (leads_name h.name).append hgroup

theorem splitFrom_text (p : Option Char) : splitFrom tracked ['.'] [] p {} c.text = [c.text] := by
  have hsplit := (Parted.last h.leads).splitFrom_eq
  rwa [intercalate_singleton, map_singleton, trim_text h.name, splitFrom_previous none p] at hsplit

end Call.Whole

/-- Calls as they are written behind a chain. -/
def trail (calls : List Call) : List Char := calls.flatMap fun c => '.' :: c.text

section Trail

variable {cs : List Char} (hcalls : ∀ c ∈ calls, c.Whole)
include hcalls

theorem getLast?_trail (hne : calls ≠ []) : (trail calls).getLast? = some ')' := by
  obtain ⟨calls, c, rfl⟩ := eq_nil_or_concat calls |>.resolve_left hne
  obtain ⟨args, -, -, htext⟩ := (hcalls c (by simp)).exists_text
  simp [trail, htext, getLast?_append, getLast?_cons]

/-- Behind a closed text, calls are parts of their own, and leave it closed. -/
theorem splitFrom_trail (hrun : run tracked none {} cs = {}) :
    splitFrom tracked ['.'] [] none {} (cs ++ trail calls) =
        splitFrom tracked ['.'] [] none {} cs ++ calls.map Call.text ∧
      run tracked none {} (cs ++ trail calls) = {} := by
  induction calls generalizing cs with
  | nil => simpa [trail] using hrun
  | cons c calls ih =>
    obtain ⟨hc, hcalls⟩ := forall_mem_cons.mp hcalls
    obtain ⟨q, hpass⟩ := hc.leads
    have hsplit : splitFrom tracked ['.'] [] none {} (cs ++ '.' :: c.text) =
        splitFrom tracked ['.'] [] none {} cs ++ [c.text] := by
      rw [splitFrom_append (by decide) (mem_singleton_self '.') [] (by rw [hrun]; rfl), hrun,
        hc.splitFrom_text]
    have hnext : run tracked none {} (cs ++ '.' :: c.text) = {} := by
      rw [run_append, hrun]
      exact (run_previous (some '.') none).trans hpass.run_eq
    have htrail : cs ++ trail (c :: calls) = (cs ++ '.' :: c.text) ++ trail calls := by simp [trail]
    obtain ⟨hparts, hends⟩ := ih hcalls hnext
    rw [htrail, hparts, hsplit]
    exact ⟨by simp, hends⟩

theorem chain_append_trail (hlinks : ∀ p ∈ splitFrom tracked ['.'] [] none {} cs, IsLink p)
    (hrun : run tracked none {} cs = {}) : chain (cs ++ trail calls) = chain cs ++ calls := by
  have htexts : Forall₂ (fun p c => call? p = some c) (calls.map Call.text) calls :=
    forall₂_map_left_iff.mpr (forall₂_same.mpr fun c hc => Call.call?_text (hcalls c hc).name)
  have hsplit := (splitFrom_trail hcalls hrun).1
  have hall : ∀ p ∈ splitFrom tracked ['.'] [] none {} (cs ++ trail calls), IsLink p := by
    rw [hsplit]
    refine forall_mem_append.mpr ⟨hlinks, forall_mem_map.mpr fun c hc => ?_⟩
    exact Option.isSome_of_eq_some (Call.call?_text (hcalls c hc).name)
  have hwhole := links_chain hall
  rw [hsplit] at hwhole
  have happend := rel_append (links_chain hlinks) htexts
  exact Option.some.inj ((mapM_eq_some_iff.mpr hwhole).symm.trans (mapM_eq_some_iff.mpr happend))

end Trail

/-- A call that leaves the validated type as it is, whose arguments are balanced and ask for no
coercion. -/
structure Call.Neutral (c : Call) : Prop where
  transparent : isTransparent c.name = true
  args : ∃ args, c.args = some args ∧ Sealed tracked args ∧ Clear args

theorem Call.Neutral.whole {c : Call} (h : c.Neutral) : c.Whole := by
  have hnames : ∀ name ∈ ["describe", "default", "catch", "refine", "superRefine", "transform",
      "brand", "readonly",
      "trim", "toLowerCase", "toUpperCase"], Identifier.isName name.toList := by decide
  obtain ⟨args, hargs, hsealed, -⟩ := h.args
  exact ⟨hnames c.name (contains_iff_mem.mp h.transparent), args, hargs, hsealed⟩

/-- Coercion is asked for in front of the first argument at most. -/
theorem Call.Neutral.exists_text {c : Call} (h : c.Neutral) :
    ∃ args, c.text = c.name.toList ++ '(' :: (args ++ [')']) ∧ Clear args := by
  obtain ⟨args, hargs, -, hclear⟩ := h.args
  obtain ⟨args', hargs', -, htext⟩ := h.whole.exists_text
  cases hargs.symm.trans hargs'
  exact ⟨args, htext, hclear⟩

theorem clear_trail (hcalls : ∀ c ∈ calls, c.Neutral) : Clear (trail calls) := by
  induction calls with
  | nil => exact clear_of_count (by simp [trail])
  | cons c calls ih =>
    obtain ⟨hc, hcalls⟩ := forall_mem_cons.mp hcalls
    obtain ⟨args, htext, hargs⟩ := hc.exists_text
    have hname : Clear ('.' :: c.name.toList) :=
      clear_of_count (by simp [count_point hc.whole.isPart_name])
    have hcall := hname.append_cons (c := '(') (by decide)
      (hargs.append_cons (c := ')') (by decide) (ih hcalls))
    simpa [trail, htext] using hcall

/-- A chain that is closed, and is a name other than `z` or ends in a call behind other links. -/
structure Extensible (e : List Char) : Prop where
  parsed : chain e ≠ []
  closed : openAtEnd? tracked e = none
  ends : Identifier.isName e = true ∧ e ≠ ['z'] ∨ e.getLast? = some ')' ∧ 2 ≤ (chain e).length

namespace Extensible

variable {e : List Char} (he : Extensible e)
include he

theorem exists_last : ∃ d, e.getLast? = some d ∧ isBlank d = false ∧ d ≠ ',' ∧ d ≠ '.' := by
  rcases he.ends with ⟨hname, -⟩ | ⟨hlast, -⟩
  · obtain ⟨c, cs, rfl, -, hpart⟩ := Member.exists_of_isName hname
    have hd := hpart _ (getLast_mem (cons_ne_nil c cs))
    refine ⟨_, getLast?_eq_some_getLast (cons_ne_nil c cs), isBlank_eq_false_of_isPart hd, ?_, ?_⟩
    all_goals
      intro heq
      rw [heq] at hd
      cases hd
  · exact ⟨')', hlast, by decide⟩

/-- Only blanks stand in front. -/
theorem exists_trimmed : ∃ b x, e = b ++ x ∧ (∀ c ∈ b, isBlank c) ∧
    (∃ c, x.head? = some c ∧ isBlank c = false) ∧ x.getLast? = e.getLast? := by
  obtain ⟨d, hd, hblank, -⟩ := he.exists_last
  have hsplit : e = e.takeWhile isBlank ++ e.dropWhile isBlank := takeWhile_append_dropWhile.symm
  have hne : e.dropWhile isBlank ≠ [] := by
    intro hnil
    have hall := dropWhile_eq_nil_iff.mp hnil d (mem_of_getLast? hd)
    rw [hblank] at hall
    cases hall
  refine ⟨_, _, hsplit, fun c => mem_takeWhile_imp, ⟨_, head?_eq_some_head hne, ?_⟩, ?_⟩
  · exact head_dropWhile_not isBlank hne
  · conv_rhs => rw [hsplit, getLast?_append, getLast?_eq_some_getLast hne, Option.some_or]
    exact getLast?_eq_some_getLast hne

/-- No mark of coercion stands partly in the chain and partly in the calls behind it. -/
theorem meets (hcalls : ∀ c ∈ calls, c.Neutral) {z : List Char} (hz : z <:+ e)
    (h : coercion <+: z ++ trail calls) :
    coercion <+: z := by
  rcases prefix_or_prefix_of_prefix h (prefix_append z _) with hpre | hpre
  · exact hpre
  cases calls with
  | nil => simpa [trail] using h
  | cons c calls =>
    obtain ⟨hc, -⟩ := forall_mem_cons.mp hcalls
    obtain ⟨args, htext, -⟩ := hc.exists_text
    have htrail :
        trail (c :: calls) = '.' :: (c.name.toList ++ '(' :: (args ++ ')' :: trail calls)) := by
      simp [trail, htext]
    rcases z with _ | ⟨a, z⟩
    · rw [nil_append, htrail] at h
      exact absurd h (not_coercion_isPrefix (by decide))
    rcases he.ends with ⟨hname, -⟩ | ⟨hlast, -⟩
    · obtain ⟨x, xs, rfl, -, hpart⟩ := Member.exists_of_isName hname
      rw [coercion_eq] at hpre
      rcases z with _ | ⟨d, z⟩
      · -- A name that ends in `z`: the call behind it is not `coerce`.
        rw [htrail, coercion_eq] at h
        obtain ⟨t, ht⟩ := (cons_prefix_cons.mp (cons_prefix_cons.mp h).2).2
        have hword := congrArg (List.takeWhile isPart) ht
        rw [append_assoc, takeWhile_append_of_pos (by decide), singleton_append,
          takeWhile_cons_of_neg (by decide), takeWhile_append_of_pos hc.whole.isPart_name,
          takeWhile_cons_of_neg (by decide), append_nil, append_nil] at hword
        have hcoerce : c.name = "coerce" := String.toList_injective hword.symm
        have htransparent := hc.transparent
        rw [hcoerce] at htransparent
        cases htransparent
      · obtain ⟨-, htail⟩ := cons_prefix_cons.mp hpre
        obtain ⟨rfl, -⟩ := cons_prefix_cons.mp htail
        cases hpart '.' (hz.subset (by simp))
    · obtain ⟨w, rfl⟩ := hz
      rw [getLast?_append, getLast?_eq_some_getLast (cons_ne_nil a z), Option.some_or] at hlast
      have hmem : ')' ∈ a :: z := Option.some.inj hlast ▸ getLast_mem _
      exact absurd (hpre.subset hmem) (by decide)

theorem plainText_eq_uncoerced {b x : List Char} (hsplit : e = b ++ x) (hb : ∀ c ∈ b, isBlank c)
    (hfirst : ∃ c, x.head? = some c ∧ isBlank c = false) (hlast : x.getLast? = e.getLast?) :
    plainText e = uncoerced x := by
  obtain ⟨d, hd, hblank, hcomma, -⟩ := he.exists_last
  conv_lhs => rw [hsplit]
  exact plainText_eq hb hfirst (hlast.trans hd) hblank hcomma

theorem plainText_append_trail (hcalls : ∀ c ∈ calls, c.Neutral) :
    plainText (e ++ trail calls) = plainText e ++ trail calls := by
  by_cases hnil : calls = []
  · simp [hnil, trail]
  obtain ⟨b, x, hsplit, hb, hfirst, hlast⟩ := he.exists_trimmed
  have hmeets : uncoerced (x ++ trail calls) = uncoerced x ++ trail calls :=
    uncoerced_append (clear_trail hcalls) fun z hz =>
      he.meets hcalls (hz.trans (hsplit ▸ suffix_append b x))
  have hfirst' : ∃ c, (x ++ trail calls).head? = some c ∧ isBlank c = false := by
    obtain ⟨c, hc, hblank⟩ := hfirst
    exact ⟨c, by rw [head?_append, hc]; rfl, hblank⟩
  have hlast' : (x ++ trail calls).getLast? = some ')' := by
    rw [getLast?_append, getLast?_trail (fun c hc => (hcalls c hc).whole) hnil]
    rfl
  rw [he.plainText_eq_uncoerced hsplit hb hfirst hlast, ← hmeets, hsplit, append_assoc]
  exact plainText_eq hb hfirst' hlast' (by decide) (by decide)

theorem run_plainText : run tracked none {} (plainText e) = {} := by
  obtain ⟨b, x, hsplit, hb, hfirst, hlast⟩ := he.exists_trimmed
  have hproper : ({} : Scan).Proper := by rintro q ⟨⟩
  have hclosed := openAtEnd?_eq_none_iff.mp he.closed
  rw [hsplit, run_append, Scan.run_blank hproper (by simp) hb, run_previous _ none] at hclosed
  rw [he.plainText_eq_uncoerced hsplit hb hfirst hlast, run_uncoerced hproper, hclosed]

theorem eased_plainText :
    Eased (splitFrom tracked ['.'] [] none {} e)
      (splitFrom tracked ['.'] [] none {} (plainText e)) := by
  obtain ⟨b, x, hsplit, hb, hfirst, hlast⟩ := he.exists_trimmed
  rw [he.plainText_eq_uncoerced hsplit hb hfirst hlast]
  conv_lhs => rw [hsplit, splitFrom_blanks hb]
  refine eased_splitFrom (by rintro q ⟨⟩) fun more hmore => ?_
  rwa [append_nil, reverse_reverse, trim, Text.trimStart_append hb] at hmore

theorem isLink_parts : ∀ p ∈ splitFrom tracked ['.'] [] none {} e, IsLink p := by
  obtain ⟨d, hd, hblank, -, hpoint⟩ := he.exists_last
  exact isLink_of_chain he.parsed hd hblank hpoint

/-- The links that are kept whatever follows them. -/
theorem exists_first : ∃ first others, chain (plainText e) = first :: others ∧
    (if first.name == "z" then 2 else 1) ≤ (first :: others).length := by
  have hlength := (links_chain (he.eased_plainText.isLink he.isLink_parts)).length_eq
  obtain ⟨first, others, hfirst⟩ :=
    exists_cons_of_length_pos (hlength ▸ he.eased_plainText.length_pos)
  refine ⟨first, others, hfirst, ?_⟩
  rcases he.ends with ⟨hname, hz⟩ | ⟨-, htwo⟩
  · have hself : plainText e = e := by
      obtain ⟨c, cs, rfl, -, hpart⟩ := Member.exists_of_isName hname
      have hc := isBlank_eq_false_of_isPart (hpart c mem_cons_self)
      rw [he.plainText_eq_uncoerced (b := []) rfl (forall_mem_nil _) ⟨c, rfl, hc⟩ rfl]
      exact replaceAll_of_clear (clear_of_count (by rw [count_point hpart]; decide))
    rw [hself, chain_name hname] at hfirst
    cases hfirst
    have hne : (String.ofList e == "z") = false := by
      rw [beq_eq_false_iff_ne]
      intro heq
      exact hz (by rw [← String.toList_ofList (l := e), heq]; rfl)
    simp [hne]
  · rw [(links_chain he.isLink_parts).length_eq.symm] at htwo
    have hkept := he.eased_plainText.two_le_length htwo
    rw [hlength, hfirst] at hkept
    split <;> omega

end Extensible

/-- A deferred schema. -/
def lazyText (args : List Char) : List Char :=
  'z' :: '.' :: ("lazy".toList ++ '(' :: (args ++ [')']))

example : lazyText "() => A".toList = "z.lazy(() => A)".toList := by decide

theorem extensible_lazyText {args : List Char} (hargs : Sealed tracked args) :
    Extensible (lazyText args) := by
  have htext : lazyText args = ['z'] ++ trail [⟨"lazy", some args⟩] := by
    rw [trail, flatMap_singleton, Call.text_call]
    rfl
  have hcalls : ∀ c ∈ [(⟨"lazy", some args⟩ : Call)], c.Whole :=
    forall_mem_singleton.mpr ⟨by dsimp only; decide, args, rfl, hargs⟩
  have hz : ∀ p ∈ splitFrom tracked ['.'] [] none {} ['z'], (call? p).isSome := by decide
  have hchain : chain (lazyText args) = [⟨"z", none⟩, ⟨"lazy", some args⟩] := by
    rw [htext, chain_append_trail hcalls hz (by decide), chain_name (by decide)]
    rfl
  refine ⟨by rw [hchain]; simp, ?_, .inr ⟨?_, by rw [hchain]; simp⟩⟩
  · rw [htext]
    exact openAtEnd?_eq_none_iff.mpr (splitFrom_trail hcalls (by decide)).2
  · rw [htext, getLast?_append, getLast?_trail hcalls (by simp)]
    rfl

/-- Calls that leave the validated type as it is do not change how the chain in front of them is
classified, nor how a deferred schema is, whatever it defers. -/
theorem classify_append_trail {calls : List Call} (hcalls : ∀ c ∈ calls, c.Neutral) :
    (∀ e, Extensible e → classify (e ++ trail calls) = classify e) ∧
      ∀ args, Sealed tracked args →
        classify (lazyText args ++ trail calls) = classify (lazyText args) := by
  have hall (e : List Char) (he : Extensible e) : classify (e ++ trail calls) = classify e := by
    obtain ⟨first, others, hfirst, hkeep⟩ := he.exists_first
    have hlinks := he.eased_plainText.isLink he.isLink_parts
    have hchain := chain_append_trail (fun c hc => (hcalls c hc).whole) hlinks he.run_plainText
    rw [hfirst, ← he.plainText_append_trail hcalls] at hchain
    exact classify_congr hchain hfirst
      (dropTransparent_append hkeep fun c hc => (hcalls c hc).transparent)
  exact ⟨hall, fun args hargs => hall _ (extensible_lazyText hargs)⟩

/-- Calls whose arguments hold a stray parenthesis and a point within quotes, and a group. -/
def describedCalls : List Call :=
  [⟨"describe", some "'a.b(c'".toList⟩, ⟨"default", some "[\x7b a: 1 \x7d]".toList⟩,
    ⟨"readonly", some []⟩]

/-- A list of coerced numbers, deferred and not, followed by such calls. -/
theorem describedCalls_trail :
    (∀ c ∈ describedCalls, c.Neutral) ∧ Extensible " z.array(z.coerce.number()).max(3)".toList ∧
      classify (" z.array(z.coerce.number()).max(3)".toList ++ trail describedCalls) =
        .ok (.array (.text "z.number()".toList) [⟨.maxItems, .int 3⟩]) ∧
      classify (lazyText "() => z.coerce.number().nullable()".toList ++ trail describedCalls) =
        .ok (.nullable (.text "z.number()".toList)) := by
  have hcalls : ∀ c ∈ describedCalls, c.Neutral := by
    refine forall_mem_cons.mpr ⟨?_, forall_mem_cons.mpr ⟨?_, forall_mem_singleton.mpr ?_⟩⟩ <;>
      exact ⟨by decide, _, rfl, ⟨by decide, by decide⟩, clear_of_count (by decide)⟩
  have he : Extensible " z.array(z.coerce.number()).max(3)".toList :=
    ⟨by decide, by decide, .inr (by decide)⟩
  obtain ⟨hall, hlazy⟩ := classify_append_trail hcalls
  refine ⟨hcalls, he, (hall _ he).trans ?_, (hlazy _ ⟨by decide, by decide⟩).trans ?_⟩
  · rfl
  · rfl

end Crosswalk.Zod
