import Crosswalk.Proofs.ReadBack
import Crosswalk.Proofs.TextSize
import Mathlib.Data.List.TakeWhile

/-!
The size of what the type expressions of TypeScript and Zod are taken apart into. Simplifying an
expression does not make it larger, and its arguments, elements and calls weigh less than the whole.
-/

namespace Crosswalk

open List Text Measure

variable {cs : List Char}

/-! ### Type expressions -/

namespace TypeScript

theorem dropLeadingOperators_taken (fuel : Nat) (cs : List Char) :
    TakenFrom cs (dropLeadingOperators fuel cs) := by
  induction fuel generalizing cs with
  | zero => exact .refl cs
  | succ fuel ih =>
    rcases cs with _ | ⟨c, rest⟩
    · exact .refl []
    · rw [dropLeadingOperators]
      split
      · exact ((TakenFrom.of_isInfix (suffix_cons c rest).isInfix).trans (.unwrapParens rest)).trans
          (ih _)
      · exact .refl _

theorem normalize_taken (cs : List Char) : TakenFrom cs (normalize cs) := by
  have hcore := (TakenFrom.unwrapParens cs).trans (dropLeadingOperators_taken (cs.length + 1) _)
  unfold normalize
  dsimp only
  split
  case h_1 rest hrest =>
    refine (hcore.trans (.of_isInfix ?_)).trans (.trim rest)
    exact eq_append_of_after? hrest ▸ (suffix_append _ rest).isInfix
  case h_2 => exact hcore

theorem tupleElement_taken (cs : List Char) : TakenFrom cs (tupleElement cs) := by
  refine TakenFrom.trans ?_ (.getD_before? ['?'] (dropLabel cs))
  unfold dropLabel
  dsimp only
  split
  case h_1 => exact .refl cs
  case h_2 name rest hname =>
    split
    case h_1 type htype =>
      have hbody := TakenFrom.getD_after? ['.', '.', '.'] cs
      have hrest : TakenFrom cs rest :=
        hbody.trans (.of_isInfix (eq_append_of_leading? hname ▸ (suffix_append name rest).isInfix))
      have hmark := (hrest.trans (.getD_after? ['?'] rest)).trans (.trimStart _)
      rw [htype] at hmark
      exact (hmark.trans (.of_isInfix (suffix_cons _ type).isInfix)).trans (.trimStart type)
    case h_2 => exact .refl cs

theorem inside_of_generic? {name inner : List Char} (h : generic? cs = some (name, inner)) :
    Inside cs inner ∧ name <:+: cs := by
  unfold generic? at h
  obtain ⟨⟨name, rest⟩, hname, h⟩ := Option.bind_eq_some_iff.mp h
  obtain ⟨inner, hinner, h⟩ := Option.bind_eq_some_iff.mp h
  cases h
  have hcs := eq_append_of_leading? hname
  have hrest : TakenFrom cs rest := .of_isInfix (hcs ▸ (suffix_append name rest).isInfix)
  exact ⟨.of_taken (hrest.trans (.trimStart rest)) (.of_enclosed? hinner),
    hcs ▸ (prefix_append name rest).isInfix⟩

end TypeScript

/-! ### Chains of calls -/

/-- The size of a raw type in a notation of text. -/
def Raw.weight (raw : Raw) : Nat := heavy.weight raw.asText

@[simp] theorem Raw.weight_text (cs : List Char) : (Raw.text cs).weight = heavy.weight cs := rfl

namespace Zod

variable {s : Shape} {p : Raw} {calls : List Call} {c : Call} {a : List Char}

/-- What a link is read from: its name, perhaps blanks, and its arguments in parentheses if it is
called. -/
theorem exists_of_call? (h : call? cs = some c) : Identifier.isName c.name.toList ∧
    ∃ b rest, cs = c.name.toList ++ (b ++ rest) ∧ c.text = c.name.toList ++ rest ∧
      (∀ x ∈ b, isBlank x) ∧ (rest = [] ∨ ∃ inner, rest = '(' :: (inner ++ [')'])) := by
  obtain ⟨⟨name, tail⟩, hleading, hcall⟩ := Option.bind_eq_some_iff.mp h
  have hname : Identifier.isName name := by
    unfold Identifier.leading? at hleading
    split at hleading
    case h_1 => cases hleading
    case h_2 x cs =>
      split at hleading
      case isTrue hx =>
        cases hleading
        simp only [Identifier.isName, hx, Bool.true_and, all_eq_true]
        exact fun y => mem_takeWhile_imp
      case isFalse => cases hleading
  have htail : tail.takeWhile isBlank ++ trimStart tail = tail := takeWhile_append_dropWhile
  have hblank : ∀ x ∈ tail.takeWhile isBlank, isBlank x := fun x => mem_takeWhile_imp
  dsimp only at hcall
  split at hcall
  case h_1 hnil =>
    cases hcall
    refine ⟨by rwa [String.toList_ofList], _, [], ?_, rfl, hblank, .inl rfl⟩
    rw [String.toList_ofList, ← hnil, htail, eq_append_of_leading? hleading]
  case h_2 inner hinner =>
    split at hcall
    case isTrue hlast =>
      cases hcall
      obtain ⟨body, rfl⟩ := getLast?_eq_some_iff.mp (by simpa using hlast)
      refine ⟨by rwa [String.toList_ofList], _, '(' :: (body ++ [')']), ?_, ?_, hblank,
        .inr ⟨body, rfl⟩⟩
      · rw [String.toList_ofList, ← hinner, htail, eq_append_of_leading? hleading]
      · rw [Call.text, dropLast_concat]
    case isFalse => cases hcall
  case h_3 => cases hcall

theorem text_sublist (h : call? cs = some c) : c.text.Sublist cs := by
  obtain ⟨-, b, rest, hcs, htext, -, -⟩ := exists_of_call? h
  rw [htext, hcs]
  exact (Sublist.refl _).append (sublist_append_right b rest)

/-- The calls of a chain weigh no more than its text. -/
theorem weights_chain (cs : List Char) (h : chain cs ≠ []) :
    heavy.weights ((chain cs).map Call.text) ≤ heavy.weight cs + 1 := by
  have hsplit := weights_splitTop heavy tracked ['.'] cs
  unfold chain at h ⊢
  cases hcalls : (splitTop tracked ['.'] cs).mapM call? with
  | none => rw [hcalls] at h; exact absurd rfl h
  | some calls =>
    refine Nat.le_trans ?_ hsplit
    have hread := mapM_eq_some_iff.mp hcalls
    rw [Option.getD_some]
    clear hsplit hcalls h
    generalize splitTop tracked ['.'] cs = ps at hread
    induction hread with
    | nil => exact Nat.le_refl _
    | cons hc _ ih =>
      have := heavy.weight_le_of_sublist (text_sublist hc)
      simp only [map_cons, weights_cons]
      omega

theorem weight_intercalate (ps : List (List Char)) (hne : ps ≠ []) :
    heavy.weight (['.'].intercalate ps) + 1 = heavy.weights ps := by
  induction ps with
  | nil => exact absurd rfl hne
  | cons p ps ih =>
    rcases ps with _ | ⟨q, ps⟩
    · simp [List.intercalate]
    · have hrest := ih (by simp)
      rw [weights_cons, ← hrest]
      simp [List.intercalate, List.intersperse, heavy, isHeavy]
      omega

theorem weight_joinChain_le {n : Nat} (h : heavy.weights (calls.map Call.text) ≤ n + 1) :
    heavy.weight (joinChain calls) ≤ n := by
  rcases calls with _ | ⟨c, calls⟩
  · simp [joinChain, List.intercalate]
  · have := weight_intercalate ((c :: calls).map Call.text) (by simp)
    rw [joinChain]
    omega

theorem weight_text (c : Call) : heavy.weight c.text = heavy.weight c.name.toList +
    (match c.args with
      | none => 0
      | some args => heavy.weight args + 2) := by
  obtain ⟨name, _ | args⟩ := c
  · simp [Call.text]
  · simp [Call.text, heavy, isHeavy]
    omega

theorem weight_given? (h : c.given? = some a) :
    heavy.weight c.text = heavy.weight c.name.toList + (heavy.weight a + 2) := by
  obtain ⟨hargs, _⟩ := Option.filter_eq_some_iff.mp h
  rw [weight_text, hargs]

theorem weight_args_le (c : Call) :
    heavy.weight (trim (c.args.getD [])) + heavy.weight c.name.toList ≤ heavy.weight c.text := by
  have htrim := (TakenFrom.trim (c.args.getD [])).weight_le heavy
  rw [weight_text]
  cases hargs : c.args with
  | none => simp [trim, trimStart, trimEnd]
  | some args =>
    rw [hargs] at htrim
    simp only [Option.getD_some] at htrim ⊢
    omega

/-- Arguments stand in parentheses. -/
theorem weight_args_lt {c : Call} (h : trim (c.args.getD []) ≠ []) :
    heavy.weight (trim (c.args.getD [])) + heavy.weight c.name.toList + 2 ≤
      heavy.weight c.text := by
  have htrim := (TakenFrom.trim (c.args.getD [])).weight_le heavy
  rw [weight_text]
  cases hargs : c.args with
  | none => simp [hargs, trim, trimStart, trimEnd] at h
  | some args =>
    rw [hargs] at htrim
    simp only [Option.getD_some] at htrim ⊢
    omega

theorem dropTransparent_sublist (keep : Nat) (calls : List Call) :
    (dropTransparent keep calls).Sublist calls := by
  have hdropped :
      ((calls.drop keep).reverse.dropWhile fun c => isTransparent c.name).reverse.Sublist
      (calls.drop keep) := by
    simpa using (dropWhile_sublist (l := (calls.drop keep).reverse) _).reverse
  have := (Sublist.refl (calls.take keep)).append hdropped
  rwa [take_append_drop] at this

/-- What is deferred stands in the only argument of the last call. -/
theorem exists_of_deferred? {inner : List Char} (h : deferred? calls = some inner) :
    ∃ z lazy body, calls = [z, lazy] ∧ lazy.given? = some body ∧ inner.Sublist body := by
  unfold deferred? at h
  split at h
  case h_1 z lazy =>
    split at h
    case isTrue =>
      obtain ⟨body, hbody, rfl⟩ := Option.map_eq_some_iff.mp h
      refine ⟨z, lazy, body, rfl, hbody, Sublist.trans ?_ (trim_sublist body)⟩
      dsimp only
      split
      case h_1 result hresult =>
        obtain ⟨x, -, hbreak⟩ := exists_of_breakAfter hresult
        rw [hbreak]
        exact (trim_sublist result).trans
          ((sublist_append_right _ _).trans (sublist_append_right _ _))
      case h_2 => exact .refl _
    case isFalse => cases h
  case h_2 => cases h

theorem weight_deferred? {inner : List Char} (h : deferred? calls = some inner) :
    heavy.weight inner < heavy.weights (calls.map Call.text) := by
  obtain ⟨z, lazy, body, rfl, hbody, hinner⟩ := exists_of_deferred? h
  have hgiven := weight_given? hbody
  have hle := heavy.weight_le_of_sublist hinner
  simp only [map_cons, map_nil, weights_cons, weights_nil]
  omega

theorem weight_simplify_le (fuel : Nat) (cs : List Char) :
    heavy.weight (simplify fuel cs) ≤ heavy.weight cs := by
  induction fuel generalizing cs with
  | zero => exact Nat.le_refl _
  | succ fuel ih =>
    rw [simplify]
    split
    case h_1 => exact Nat.le_refl _
    case h_2 first others hchain =>
      have hcalls := weights_chain cs (by simp [hchain])
      have hkept (keep : Nat) :
          heavy.weights ((dropTransparent keep (first :: others)).map Call.text) ≤
            heavy.weight cs + 1 :=
        Nat.le_trans (heavy.weights_le_of_sublist ((dropTransparent_sublist keep _).map _))
          (hchain ▸ hcalls)
      dsimp only
      split
      case h_1 inner hinner =>
        have hlt := Nat.lt_of_lt_of_le (weight_deferred? hinner) (hkept _)
        have := ih inner
        omega
      case h_2 => exact weight_joinChain_le (hkept _)

theorem weight_normalize_le (raw : List Char) :
    heavy.weight (normalize raw) ≤ heavy.weight raw := by
  have hcoerce :=
    heavy.weight_replaceFrom_le "z.coerce.".toList "z.".toList (by decide) (by decide) 0
    (trim (stripEnd [','] (trim raw)))
  have htrim := heavy.weight_le_of_sublist ((trim_sublist (stripEnd [','] (trim raw))).trans
    ((dropWhileEnd_sublist _ (trim raw)).trans (trim_sublist raw)))
  rw [drop_zero] at hcoerce
  unfold normalize
  exact Nat.le_trans (weight_simplify_le _ _) (Nat.le_trans hcoerce htrim)

/-- The last call and what precedes it. -/
theorem weight_lastCall {last previous : Call} {before : List Call}
    (h : (chain cs).reverse = last :: previous :: before) :
    heavy.weight (joinChain (previous :: before).reverse) + heavy.weight last.text <
      heavy.weight cs := by
  have hchain : chain cs = (previous :: before).reverse ++ [last] := by
    rw [← reverse_reverse (chain cs), h, reverse_cons]
  have hcalls := weights_chain cs (by simp [hchain])
  rw [hchain, map_append, weights_append, map_singleton, weights_cons,
    weights_nil] at hcalls
  have hjoin := weight_intercalate ((previous :: before).reverse.map Call.text) (by simp)
  rw [joinChain]
  omega

theorem additional_types (hp : p ∈ Additional.types (additional calls)) :
    ∃ c ∈ calls, ∃ a, c.given? = some a ∧ p = .text a := by
  revert hp
  unfold additional
  refine foldlRecOn
    (motive := fun acc =>
      p ∈ Additional.types acc → ∃ c ∈ calls, ∃ a, c.given? = some a ∧ p = .text a)
    calls _ (fun hp => by cases hp) fun acc ih c hc hp => ?_
  split at hp
  case h_1 | h_2 => cases hp
  case h_3 =>
    split at hp
    case h_1 a ha => exact ⟨c, hc, a, ha, mem_singleton.mp hp⟩
    case h_2 => exact ih hp
  case h_4 => exact ih hp

theorem weight_listItems_le {item : List Char} (h : item ∈ listItems cs) :
    heavy.weight item ≤ heavy.weight cs := by
  have htrim := (TakenFrom.trim cs).weight_le heavy
  unfold listItems at h
  have hitem := (taken_of_mem_splitTopNonempty h).weight_le heavy
  split at hitem
  · have hinner := heavy.weight_le_of_sublist
      ((dropLast_sublist ((trim cs).drop 1)).trans (drop_sublist 1 (trim cs)))
    omega
  · omega

/-- The arguments of a factory call, and those of the calls after it. -/
theorem weight_factory {z made : Call} {methods : List Call} (h : chain cs = z :: made :: methods)
    (hz : z.name = "z") :
    heavy.weight made.text + 2 + heavy.weights (methods.map Call.text) ≤ heavy.weight cs := by
  have hcalls := weights_chain cs (by simp [h])
  have hfirst := weight_text z
  have hname : heavy.weight "z".toList = 1 := by decide
  rw [hz, hname] at hfirst
  rw [h, map_cons, map_cons, weights_cons, weights_cons] at hcalls
  omega

/-- A type for the keys weighs less than a call that gives only the values. -/
theorem keyed_shrinks {args : List Char} {n : Nat} (hn : args ≠ [] → heavy.weight args + 10 ≤ n)
    (hp : p ∈ factoryShape?.keyed args) : p.weight < n := by
  have hargs {a : List Char} (ha : a ∈ arguments args) :
      0 < heavy.weight a ∧ heavy.weight a ≤ heavy.weight args ∧ heavy.weight args + 10 ≤ n := by
    have hle := (taken_of_mem_splitTopNonempty ha).weight_le heavy
    have hpos : 0 < heavy.weight a := heavy.weight_pos (by simpa using (mem_filter.mp ha).2)
    refine ⟨hpos, hle, hn fun hnil => ?_⟩
    rw [hnil, weight_nil] at hle
    omega
  unfold factoryShape?.keyed at hp
  split at hp
  case h_1 v hv =>
    have := hargs (a := v) (hv ▸ mem_singleton_self v)
    have hkey : heavy.weight "z.string()".toList = 10 := by decide
    rcases mem_pair.mp hp with rfl | rfl
    · rw [Raw.weight_text]
      omega
    · rw [Raw.weight_text]
      omega
  case h_2 =>
    obtain ⟨a, ha, rfl⟩ := mem_map.mp hp
    have := hargs (mem_of_mem_take ha)
    rw [Raw.weight_text]
    omega

end Zod

end Crosswalk
