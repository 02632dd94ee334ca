import Crosswalk.Proofs.SealedText
import Crosswalk.Proofs.TopSplits
import Mathlib.Data.List.Infix

/-!
Joining a chain and splitting it again. The walk is at the top behind each part of a text but the
last, and what is left out of a part when its link is written anew, blanks at the ends and behind
the name, does not move the walk. Main statement: a chain that is joined from calls with balanced
arguments is split into them, and every chain that a text is split into is split from its joined
text again.
-/

namespace Crosswalk.Zod

open List
open Text (isBlank trim)
open Scan (run run_append)
open Identifier (isName)

/-! ### Parts -/

/-- The walk goes from the top to `t` without a point at the top. -/
def Leads (cs : List Char) (t : Scan) : Prop := ∃ q, Passes tracked ['.'].contains none {} cs q t

/-- Texts that points at the top can be put between: behind each but the last, the walk is at the
top. -/
inductive Parted : List (List Char) → Prop
  | last {x : List Char} {t : Scan} (h : Leads x t) : Parted [x]
  | cons {x : List Char} {xs : List (List Char)} (h : Leads x {}) (hs : Parted xs) :
    Parted (x :: xs)

section Parts

variable {x y cs : List Char} {xs : List (List Char)} {p q r : Option Char} {s t : Scan}

theorem passes_previous {stop : Char → Bool} (h : Passes tracked stop p s cs q t)
    (r : Option Char) :
    ∃ q', Passes tracked stop r s cs q' t := by
  cases h with
  | nil => exact ⟨r, .nil⟩
  | cons hc h => exact ⟨q, .cons hc (step_previous s p r _ ▸ h)⟩

theorem Leads.append (hx : Leads x {}) (hy : Leads y t) : Leads (x ++ y) t := by
  obtain ⟨q, hx⟩ := hx
  obtain ⟨r, hy⟩ := hy
  obtain ⟨r, hy⟩ := passes_previous hy q
  exact ⟨r, hx.append hy⟩

theorem Leads.concat (hx : Leads x s) {c : Char} (hc : (s.atTop && ['.'].contains c) = false) :
    Leads (x ++ [c]) (s.step tracked none c) := by
  obtain ⟨q, hx⟩ := hx
  rw [step_previous s none q]
  exact ⟨some c, hx.append (.cons hc .nil)⟩

theorem Leads.nil : Leads [] {} := ⟨none, .nil⟩

theorem Parted.ne_nil (h : Parted xs) : xs ≠ [] := by cases h <;> simp

theorem Parted.of_append {ys : List (List Char)} (h : Parted (xs ++ ys)) (hne : xs ≠ []) :
    Parted xs := by
  induction xs with
  | nil => exact absurd rfl hne
  | cons x xs ih =>
    cases xs with
    | nil =>
      cases h with
      | last h | cons h _ => exact .last h
    | cons y xs =>
      cases h with
      | cons h hs => exact .cons h (ih hs (by simp))

/-- Every text has such parts. The invariant is that the part at hand has been passed from the
top. -/
theorem exists_parted (hx : Leads x s) (cs : List Char) :
    ∃ xs, Parted xs ∧ x ++ cs = ['.'].intercalate xs := by
  induction cs generalizing x s with
  | nil => exact ⟨[x], .last hx, by simp⟩
  | cons c cs ih =>
    cases hc : s.atTop && ['.'].contains c with
    | false =>
      obtain ⟨xs, hxs, heq⟩ := ih (hx.concat hc)
      exact ⟨xs, hxs, by simpa using heq⟩
    | true =>
      obtain ⟨htop, hpoint⟩ := Bool.and_eq_true_iff.mp hc
      obtain rfl := Scan.eq_of_atTop htop
      obtain rfl : c = '.' := by simpa using hpoint
      obtain ⟨xs, hxs, heq⟩ := ih .nil
      obtain ⟨y, ys, rfl⟩ := exists_cons_of_ne_nil hxs.ne_nil
      refine ⟨x :: y :: ys, .cons hx hxs, ?_⟩
      rw [intercalate_cons_cons, ← heq, append_assoc]
      rfl

/-- The points between them are where the text is split. -/
theorem Parted.splitFrom_eq (h : Parted xs) :
    splitFrom tracked ['.'] [] none {} (['.'].intercalate xs) = xs.map trim := by
  induction h with
  | @last x t h =>
    obtain ⟨q, h⟩ := h
    have hsplit := splitFrom_passes h [] []
    rw [append_nil, append_nil, splitFrom, reverse_reverse] at hsplit
    simpa using hsplit
  | @cons x xs h hs ih =>
    obtain ⟨q, h⟩ := h
    obtain ⟨y, ys, rfl⟩ := exists_cons_of_ne_nil hs.ne_nil
    rw [intercalate_cons_cons, append_assoc, splitFrom_passes h, singleton_append, splitFrom,
      if_pos (by rfl), splitFrom_previous _ none, ih, append_nil, reverse_reverse]
    rfl

end Parts

/-! ### Links -/

section Links

variable {x y b : List Char} {c : Call} {calls : List Call} {p : Option Char} {s t : Scan}

theorem run_eq_of_blanks (hs : s.mode = .code) (hb : ∀ c ∈ b, isBlank c) :
    run tracked p s b = s := by
  obtain ⟨q, hpasses⟩ : ∃ q, Passes tracked (fun _ => false) p s b q s :=
    passes_plain hs fun c hc => ⟨Text.isPlain_of_isBlank (hb c hc), rfl⟩
  exact hpasses.run_eq

theorem proper_run (hs : s.Proper) (cs : List Char) : (run tracked p s cs).Proper := by
  induction cs generalizing p s with
  | nil => exact hs
  | cons c cs ih => exact ih (Scan.proper_step hs c)

/-- Blanks do not lead back to the top. -/
theorem eq_top_of_blanks (hs : s.Proper) (hb : ∀ c ∈ b, isBlank c) (h : run tracked p s b = {}) :
    s = {} := by
  by_cases hmode : ∀ q, s.mode ≠ .escape q
  · rwa [Scan.run_blank hs hmode hb] at h
  · -- A blank that is escaped is in a literal, and so are those behind it.
    simp only [not_forall, not_not] at hmode
    obtain ⟨q, hq⟩ := hmode
    cases b with
    | nil => exact h
    | cons c b =>
      obtain ⟨hc, hb⟩ := forall_mem_cons.mp hb
      have hne : c ≠ '\\' := by
        rintro rfl
        cases hc
      rw [run, Scan.run_blank (Scan.proper_step hs c) (Scan.step_mode_ne_escape hne) hb, Scan.step,
        hq] at h
      cases congrArg Scan.mode h

theorem leads_name (h : isName x) : Leads x {} := by
  have hpart := Member.isPart_of_isName h
  refine passes_plain rfl fun d hd => ⟨isPlain_of_isPart (hpart d hd), ?_⟩
  rw [Bool.eq_false_iff]
  intro hpoint
  obtain rfl : d = '.' := by simpa using hpoint
  cases hpart _ hd

theorem trim_text (h : isName c.name.toList) : trim c.text = c.text := by
  obtain ⟨d, ds, hname, -, hpart⟩ := Member.exists_of_isName h
  have hfirst : ∃ e, c.text.head? = some e ∧ isBlank e = false :=
    ⟨d, by simp [Call.text, hname], isBlank_eq_false_of_isPart (hpart d mem_cons_self)⟩
  obtain ⟨name, args⟩ := c
  cases args with
  | some args => exact Text.trim_eq_self hfirst ⟨')', by simp [getLast?_append, getLast?_cons], rfl⟩
  | none =>
    refine Text.trim_eq_self hfirst
      ⟨(d :: ds).getLast (by simp), ?_, isBlank_eq_false_of_isPart (hpart _ (getLast_mem _))⟩
    rw [Call.text_name, hname, getLast?_eq_some_getLast]

/-- What is left out when a link is written anew does not move the walk. -/
theorem Leads.text (hx : Leads x t) (hc : call? (trim x) = some c) :
    ∃ t', Leads c.text t' ∧ (t = {} → t' = {}) := by
  obtain ⟨hname, b, rest, htrim, htext, hb, -⟩ := exists_of_call? hc
  obtain ⟨u, v, hsplit, hu, hv⟩ := Text.exists_eq_trim x
  obtain ⟨q, hx⟩ := hx
  have hparts : x = (u ++ c.name.toList ++ b) ++ (rest ++ v) := by
    conv_lhs => rw [hsplit, htrim]
    simp
  rw [hparts] at hx
  obtain ⟨r, s, hfront, hx⟩ := hx.exists_of_append
  obtain ⟨r', t', hrest, hv'⟩ := hx.exists_of_append
  have hs : s = {} := by
    obtain ⟨q, hpasses⟩ := leads_name hname
    have hword (p : Option Char) : run tracked p {} c.name.toList = {} :=
      (run_previous p none).trans hpasses.run_eq
    rw [← hfront.run_eq, append_assoc, run_append, run_append, run_eq_of_blanks rfl hu, hword,
      run_eq_of_blanks rfl hb]
  subst hs
  obtain ⟨r', hrest⟩ := passes_previous hrest none
  refine ⟨t', htext ▸ (leads_name hname).append ⟨r', hrest⟩, ?_⟩
  rintro rfl
  refine eq_top_of_blanks ?_ hv hv'.run_eq
  rw [← hrest.run_eq]
  exact proper_run (by rintro q ⟨⟩) rest

theorem Parted.texts {xs : List (List Char)} (h : Parted xs)
    (hcalls : Forall₂ (fun x c => call? (trim x) = some c) xs calls) :
    Parted (calls.map Call.text) := by
  induction h generalizing calls with
  | last hx =>
    obtain _ | ⟨hc, _ | _⟩ := hcalls
    obtain ⟨t', htext, -⟩ := hx.text hc
    exact .last htext
  | cons hx _ ih =>
    obtain _ | ⟨hc, hcalls⟩ := hcalls
    obtain ⟨t', htext, htop⟩ := hx.text hc
    cases htop rfl
    exact .cons htext (ih hcalls)

/-- Links whose texts are such parts are read from the chain that is joined from them. -/
theorem Parted.chain_eq (h : Parted (calls.map Call.text))
    (hnames : ∀ c ∈ calls, isName c.name.toList) :
    chain (joinChain calls) = calls := by
  have hread : (calls.map Call.text).mapM call? = some calls :=
    mapM_eq_some_iff.mpr (forall₂_map_left_iff.mpr
      (forall₂_same.mpr fun c hc => Call.call?_text (hnames c hc)))
  have htrim : (calls.map Call.text).map trim = calls.map Call.text := by
    rw [map_map]
    exact map_congr_left fun c hc => trim_text (hnames c hc)
  have hkeep : dropTrailingEmpty (calls.map Call.text) = calls.map Call.text := by
    refine dropTrailingEmpty_eq_self fun u hu => ?_
    obtain ⟨c, hc, rfl⟩ := mem_map.mp (mem_of_getLast? hu)
    obtain ⟨d, ds, hname, -⟩ := Member.exists_of_isName (hnames c hc)
    simp [Call.text, hname]
  rw [chain, splitTop, joinChain, h.splitFrom_eq, htrim, hkeep, hread, Option.getD_some]

end Links

/-! ### Balanced arguments -/

/-- In parentheses, the walk comes to the top behind the last one and nowhere before. -/
def Enclosed (args : List Char) : Prop :=
  ∀ w, w <+: '(' :: (args ++ [')']) → w ≠ [] →
    ((run tracked none {} w).atTop = true ↔ w = '(' :: (args ++ [')']))

instance : DecidablePred Enclosed := fun args =>
  decidable_of_iff (∀ w ∈ ('(' :: (args ++ [')'])).inits, w ≠ [] →
    ((run tracked none {} w).atTop = true ↔ w = '(' :: (args ++ [')'])))
      (by simp only [Enclosed, mem_inits])

/-- A name, without arguments or with balanced ones. -/
structure Call.Fitting (c : Call) : Prop where
  name : isName c.name.toList = true
  args : ∀ args ∈ c.args, Enclosed args

theorem passes_of_below {stop : Char → Bool} {p : Option Char} {s : Scan} {cs : List Char}
    (h : ∀ w c rest,
      cs = w ++ c :: rest → w = [] ∧ stop c = false ∨ (run tracked p s w).atTop = false) :
    ∃ q, Passes tracked stop p s cs q (run tracked p s cs) := by
  induction cs using reverseRecOn with
  | nil => exact ⟨p, .nil⟩
  | append_singleton cs c ih =>
    obtain ⟨q, hpasses⟩ := ih fun w d rest heq => h w d (rest ++ [c]) (by rw [heq]; simp)
    have hstop : ((run tracked p s cs).atTop && stop c) = false := by
      rcases h cs c [] rfl with ⟨-, hc⟩ | htop
      · rw [hc, Bool.and_false]
      · rw [htop, Bool.false_and]
    have hstep : run tracked p s (cs ++ [c]) = (run tracked p s cs).step tracked q c := by
      rw [run_append, Scan.run_singleton]
      exact step_previous _ _ _ _
    rw [hstep]
    exact ⟨some c, hpasses.append (.cons hstop .nil)⟩

theorem Enclosed.leads {args : List Char} (h : Enclosed args) :
    Leads ('(' :: (args ++ [')'])) {} := by
  obtain ⟨q, hpasses⟩ : ∃ q, Passes tracked ['.'].contains none {} ('(' :: (args ++ [')'])) q
      (run tracked none {} ('(' :: (args ++ [')']))) := by
    refine passes_of_below fun w c rest heq => ?_
    by_cases hw : w = []
    · subst hw
      cases heq
      exact .inl ⟨rfl, rfl⟩
    · refine .inr (Bool.eq_false_iff.mpr fun htop => ?_)
      rw [(h w (heq ▸ prefix_append w _) hw).mp htop] at heq
      simp at heq
  rw [Scan.eq_of_atTop ((h _ (prefix_refl _) (by simp)).mpr rfl)] at hpasses
  exact ⟨q, hpasses⟩

theorem Call.Fitting.leads {c : Call} (h : c.Fitting) : Leads c.text {} := by
  obtain ⟨name, args⟩ := c
  cases args with
  | none => simpa using leads_name h.name
  | some args => exact (leads_name h.name).append (h.args args rfl).leads

theorem parted_of_fitting {calls : List Call} (h : ∀ c ∈ calls, c.Fitting) (hne : calls ≠ []) :
    Parted (calls.map Call.text) := by
  induction calls with
  | nil => exact absurd rfl hne
  | cons c calls ih =>
    obtain ⟨hc, hcalls⟩ := forall_mem_cons.mp h
    cases calls with
    | nil => exact .last hc.leads
    | cons d calls => exact .cons hc.leads (ih hcalls (by simp))

/-- The links that a text is split into, as they are written anew. -/
theorem parted_chain {cs : List Char} (h : chain cs ≠ []) :
    Parted ((chain cs).map Call.text) ∧ ∀ c ∈ chain cs, isName c.name.toList := by
  obtain ⟨xs, hxs, hcs⟩ := exists_parted .nil cs
  rw [nil_append] at hcs
  rw [chain, splitTop, hcs, hxs.splitFrom_eq] at h ⊢
  obtain ⟨zs, hzs⟩ : dropTrailingEmpty (xs.map trim) <+: xs.map trim := rdropWhile_prefix _ _
  obtain ⟨ys, ys', rfl, hys, -⟩ := append_eq_map_iff.mp hzs
  rw [← hys] at h ⊢
  cases hcalls : (ys.map trim).mapM call? with
  | none =>
    rw [hcalls] at h
    exact absurd rfl h
  | some calls =>
    rw [hcalls, Option.getD_some] at h
    have hread := mapM_eq_some_iff.mp hcalls
    refine ⟨(hxs.of_append ?_).texts (forall₂_map_left_iff.mp hread), fun c hc => ?_⟩
    · rintro rfl
      cases hcalls
      exact h rfl
    · obtain ⟨p, -, hcall⟩ := exists_mem_of_forall₂ hread hc
      exact (exists_of_call? hcall).1

/-- Joining and splitting are inverse: calls with balanced arguments are read back from their joined
text, and a chain that a text is split into is read back from the text it is joined to. -/
theorem chain_joined :
    (∀ calls : List Call, calls ≠ [] → (∀ c ∈ calls, c.Fitting) → chain (joinChain calls) = calls) ∧
      ∀ cs, chain cs ≠ [] → chain (joinChain (chain cs)) = chain cs := by
  refine ⟨fun calls hne hcalls => ?_, fun cs hne => ?_⟩
  · exact (parted_of_fitting hcalls hne).chain_eq fun c hc => (hcalls c hc).name
  · obtain ⟨hparted, hnames⟩ := parted_chain hne
    exact hparted.chain_eq hnames

/-- Points, quotes and delimiters within the arguments of a call. -/
def nestedCalls : List Call := [⟨"z", none⟩, ⟨"or", some "f(')', \"\\\".\") < [.5]".toList⟩]

theorem chain_joined_nested :
    (∀ c ∈ nestedCalls, c.Fitting) ∧ chain (joinChain nestedCalls) = nestedCalls := by
  have hfitting : ∀ c ∈ nestedCalls, c.Fitting := by
    refine forall_mem_cons.mpr ⟨⟨by decide, nofun⟩, forall_mem_singleton.mpr ⟨by decide, ?_⟩⟩
    rintro args ⟨⟩
    decide
  exact ⟨hfitting, chain_joined.1 _ (by simp [nestedCalls]) hfitting⟩

end Crosswalk.Zod
