import Crosswalk.Proofs.ChainTexts
import Crosswalk.Proofs.ScriptShapes
import Crosswalk.Proofs.SettledText
import Crosswalk.Proofs.TypeSize

/-!
What a schema is brought to before it is classified. Coercion is dropped, then transparent calls at
the end, then deferral; what is left is written anew from its calls. So two schemas are classified
alike if they are chains of the same calls once coercion is dropped.
-/

namespace Crosswalk

open List

variable {c : Char} {part : List Char}

namespace Zod

open Text (isBlank trim trimStart trimEnd)

variable {cs : List Char}

variable {s : Scan}

/-! ### Chains and their parts -/

theorem step_previous (s : Scan) (p q : Option Char) (c : Char) :
    s.step tracked p c = s.step tracked q c := by
  have hcloses : Scan.closes? tracked p c = Scan.closes? tracked q c := by
    by_cases hc : c = '>'
    · subst hc
      rfl
    · exact Scan.closes?_congr fun h => absurd h hc
  rw [Scan.step, Scan.step, hcloses]

theorem run_previous (p q : Option Char) : Scan.run tracked p s cs = Scan.run tracked q s cs := by
  cases cs with
  | nil => rfl
  | cons c cs => rw [Scan.run, Scan.run, step_previous s p q]

theorem splitFrom_previous {separators : List Char} (p q : Option Char) :
    splitFrom tracked separators part p s cs = splitFrom tracked separators part q s cs := by
  cases cs with
  | nil => rfl
  | cons c cs => rw [splitFrom, splitFrom, step_previous s p q]

theorem splitFrom_cons {p : Option Char} (h : (s.atTop && ['.'].contains c) = false) :
    splitFrom tracked ['.'] part p s (c :: cs) =
      splitFrom tracked ['.'] (c :: part) none (s.step tracked none c) cs := by
  rw [splitFrom, if_neg (by rw [h]; exact Bool.false_ne_true), step_previous s p none]
  exact splitFrom_previous _ _

theorem trim_append_blanks {b : List Char} (hb : ∀ c ∈ b, isBlank c) (x : List Char) :
    trim (x ++ b) = trim x := by
  have hend (y : List Char) : trimEnd (y ++ b) = trimEnd y := by
    rw [trimEnd, reverse_append,
      dropWhile_append_of_pos (fun c hc => hb c (mem_reverse.mp hc)), trimEnd]
  rw [trim, trimStart, dropWhile_append]
  split
  case isTrue hx =>
    have hx' : trimStart x = [] := isEmpty_iff.mp hx
    rw [dropWhile_eq_nil_iff.mpr hb, trim, hx']
  case isFalse => exact hend _

theorem splitFrom_blanks {b : List Char} (hb : ∀ c ∈ b, isBlank c) (part rest : List Char) :
    splitFrom tracked ['.'] part none {} (b ++ rest) =
      splitFrom tracked ['.'] (b.reverse ++ part) none {} rest := by
  have hplain : Nested tracked isBlank b :=
    .of_all fun c hc => ⟨Text.isPlain_of_isBlank (hb c hc), hb c hc⟩
  obtain ⟨q, -, hpass⟩ :
      ∃ q, q ≠ some '=' ∧ ∀ part rest, splitFrom tracked ['.'] part none {} (b ++ rest) =
      splitFrom tracked ['.'] (b.reverse ++ part) q {} rest :=
    splitFrom_balanced (by rfl) hplain (by simp)
  rw [hpass, splitFrom_previous q none]

/-! ### Dropping coercion -/

theorem coercion_eq : coercion = 'z' :: '.' :: (['c', 'o', 'e', 'r', 'c', 'e'] ++ ['.']) := by
  decide

/-- The text without coercion. -/
def uncoerced (cs : List Char) : List Char := Text.replaceAll coercion ['z', '.'] cs

theorem replaceFrom_drop (old new : List Char) (skip : Nat) (cs : List Char) :
    Text.replaceFrom old new skip cs = Text.replaceFrom old new 0 (cs.drop skip) := by
  induction cs generalizing skip with
  | nil => cases skip <;> rfl
  | cons c cs ih =>
    cases skip with
    | zero => rfl
    | succ skip => rw [Text.replaceFrom, ih, drop_succ_cons]

theorem replaceAll_mark (c : Char) (old new cs : List Char) :
    Text.replaceAll (c :: old) new (c :: (old ++ cs)) =
      new ++ Text.replaceAll (c :: old) new cs := by
  have hstart : Text.startsWith (c :: old) (c :: (old ++ cs)) := Text.startsWith_iff.mpr ⟨cs, rfl⟩
  rw [Text.replaceAll, Text.replaceFrom, if_pos hstart, replaceFrom_drop, length_cons,
    Nat.add_sub_cancel, drop_left]
  rfl

theorem uncoerced_mark (cs : List Char) :
    uncoerced (coercion ++ cs) = 'z' :: '.' :: uncoerced cs := by
  unfold uncoerced
  rw [coercion_eq]
  exact replaceAll_mark 'z' _ _ cs

theorem uncoerced_cons (h : ¬coercion <+: c :: cs) : uncoerced (c :: cs) = c :: uncoerced cs := by
  rw [uncoerced, Text.replaceAll, Text.replaceFrom,
    if_neg fun hstart => h (Text.startsWith_iff.mp hstart)]
  rfl

/-- A text is gone through by the marks of coercion and by the characters outside of them. -/
theorem coercion_induction {motive : List Char → Prop} (nil : motive [])
    (mark : ∀ cs, motive cs → motive (coercion ++ cs))
    (cons : ∀ c cs, ¬coercion <+: c :: cs → motive cs → motive (c :: cs)) (cs : List Char) :
    motive cs := by
  induction hn : cs.length using Nat.strong_induction_on generalizing cs with
  | _ n ih =>
    subst hn
    by_cases h : coercion <+: cs
    · obtain ⟨rest, rfl⟩ := h
      have hlength : coercion.length = 9 := by decide
      exact mark rest (ih _ (by rw [length_append]; omega) rest rfl)
    · cases cs with
      | nil => exact nil
      | cons c cs => exact cons c cs h (ih _ (by simp) cs rfl)

theorem not_coercion_isPrefix (hc : c ≠ 'z') : ¬coercion <+: c :: cs := by
  rw [coercion_eq]
  exact fun h => hc (cons_prefix_cons.mp h).1.symm

/-- The text of a schema without coercion, and without blanks and commas around it. -/
def plainText (raw : List Char) : List Char := uncoerced (trim (Text.stripEnd [','] (trim raw)))

/-! ### Simplification -/

theorem length_splitFrom_le {p : List Char} {previous : Option Char}
    (h : p ∈ splitFrom tracked ['.'] part previous s cs) : p.length ≤ part.length + cs.length := by
  have htrim (part : List Char) : (trim part.reverse).length ≤ part.length := by
    have hle := (Text.trim_sublist part.reverse).length_le
    rwa [length_reverse] at hle
  induction cs generalizing part previous s with
  | nil =>
    cases mem_singleton.mp h
    exact htrim part
  | cons c cs ih =>
    rw [splitFrom] at h
    split at h
    · rcases mem_cons.mp h with rfl | h
      · exact Nat.le_trans (htrim part) (by simp)
      · have := ih h
        simp only [length_nil, length_cons] at this ⊢
        omega
    · have := ih h
      simp only [length_cons] at this ⊢
      omega

theorem length_text_le {c : Call} (h : c ∈ chain cs) : c.text.length ≤ cs.length := by
  unfold chain splitTop at h
  cases hcalls : (dropTrailingEmpty (splitFrom tracked ['.'] [] none {} cs)).mapM call? with
  | none =>
    rw [hcalls] at h
    cases h
  | some calls =>
    rw [hcalls] at h
    obtain ⟨p, hp, hcall⟩ := exists_mem_of_forall₂ (mapM_eq_some_iff.mp hcalls) h
    have hmem : p ∈ splitFrom tracked ['.'] [] none {} cs :=
      mem_reverse.mp ((dropWhile_sublist _).subset (mem_reverse.mp hp))
    have hpart := length_splitFrom_le hmem
    rw [length_nil, Nat.zero_add] at hpart
    exact Nat.le_trans (text_sublist hcall).length_le hpart

theorem length_deferred?_lt {calls : List Call} {inner : List Char} {n : Nat}
    (hcalls : ∀ c ∈ calls, c.text.length ≤ n) (h : deferred? calls = some inner) :
    inner.length < n := by
  obtain ⟨z, lazy, body, rfl, hbody, hinner⟩ := exists_of_deferred? h
  have hlazy := hcalls lazy (by simp)
  have hle := hinner.length_le
  rw [Call.text, (Option.filter_eq_some_iff.mp hbody).1] at hlazy
  simp only [length_append, length_cons] at hlazy
  omega

/-- A schema within a deferred one is shorter, so that the bound is never met. -/
theorem simplify_eq_of_lt {m n : Nat} (hm : cs.length < m) (hn : cs.length < n) :
    simplify m cs = simplify n cs := by
  induction m generalizing n cs with
  | zero => omega
  | succ m ih =>
    obtain ⟨n, rfl⟩ : ∃ k, n = k + 1 := ⟨n - 1, by omega⟩
    have hlength : ∀ c ∈ chain cs, c.text.length ≤ cs.length := fun c => length_text_le
    rw [simplify, simplify]
    generalize chain cs = calls at hlength
    cases calls with
    | nil => rfl
    | cons first others =>
      dsimp only
      split
      case h_1 inner hinner =>
        have hlt := length_deferred?_lt
          (fun c hc => hlength c ((dropTransparent_sublist _ _).subset hc)) hinner
        exact ih (by omega) (by omega)
      case h_2 => rfl

theorem normalize_eq (raw : List Char) :
    normalize raw = simplify ((plainText raw).length + 1) (plainText raw) := by
  have hmark : "z.".toList = ['z', '.'] := by decide
  rw [normalize, hmark]
  rfl

/-- Schemas of which the same calls are kept are classified alike. -/
theorem classify_congr {raw raw' : List Char} {first : Call} {others others' : List Call}
    (h : chain (plainText raw) = first :: others) (h' : chain (plainText raw') = first :: others')
    (hkept : dropTransparent (if first.name == "z" then 2 else 1) (first :: others) =
      dropTransparent (if first.name == "z" then 2 else 1) (first :: others')) :
    classify raw = classify raw' := by
  have hnormal : normalize raw = normalize raw' := by
    have hlength : ∀ c ∈ dropTransparent (if first.name == "z" then 2 else 1) (first :: others),
        c.text.length ≤ (plainText raw).length := fun c hc =>
      length_text_le (h ▸ (dropTransparent_sublist _ _).subset hc)
    have hlength' : ∀ c ∈ dropTransparent (if first.name == "z" then 2 else 1) (first :: others),
        c.text.length ≤ (plainText raw').length := fun c hc =>
      length_text_le (h' ▸ (dropTransparent_sublist _ _).subset (hkept ▸ hc))
    rw [normalize_eq, normalize_eq, simplify, simplify, h, h']
    dsimp only
    rw [← hkept]
    split
    case h_1 inner hinner =>
      exact simplify_eq_of_lt (length_deferred?_lt hlength hinner)
        (length_deferred?_lt hlength' hinner)
    case h_2 => rfl
  rw [classify, classify, hnormal]

theorem chain_name (h : Identifier.isName cs) : chain cs = [⟨String.ofList cs, none⟩] := by
  have hsound : ∀ c ∈ [(⟨String.ofList cs, none⟩ : Call)], c.Sound :=
    forall_mem_singleton.mpr ⟨by rwa [String.toList_ofList], by simp⟩
  simpa [joinChain] using chain_joinChain hsound

end Zod

end Crosswalk
