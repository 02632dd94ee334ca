import Crosswalk.Proofs.ValueTexts

/-!
Cutting off deep groups of a document. Main statement: on the text of a value the groups that are
cut off are the collections at that depth, so that what remains is the text of the value in which
each of them is an empty mapping.
-/

namespace Crosswalk

open List
open String (toList_append)

/-! ### Collections of a value by depth -/

namespace Value

mutual

/-- The value in which every collection that stands in exactly `n` others is an empty mapping. -/
def cutAt : Nat → Value → Value
  | _, .scalar s => .scalar s
  | 0, .list _ | 0, .map _ => .map []
  | n + 1, .list vs => .list (cutItems n vs)
  | n + 1, .map es => .map (cutEntries n es)

def cutItems : Nat → List Value → List Value
  | _, [] => []
  | n, v :: vs => v.cutAt n :: cutItems n vs

def cutEntries : Nat → List (Scalar × Value) → List (Scalar × Value)
  | _, [] => []
  | n, (k, v) :: es => (k, v.cutAt n) :: cutEntries n es

end

mutual

/-- The number of collections that stand in exactly `n` others. -/
def collectionsAt : Nat → Value → Nat
  | _, .scalar _ => 0
  | 0, .list _ | 0, .map _ => 1
  | n + 1, .list vs => collectionsInItems n vs
  | n + 1, .map es => collectionsInEntries n es

def collectionsInItems : Nat → List Value → Nat
  | _, [] => 0
  | n, v :: vs => v.collectionsAt n + collectionsInItems n vs

def collectionsInEntries : Nat → List (Scalar × Value) → Nat
  | _, [] => 0
  | n, (_, v) :: es => v.collectionsAt n + collectionsInEntries n es

end

end Value

/-! ### Cutting off groups of a text -/

theorem Depths.total_modify (d : Depths) (x : Delimiter) :
    (d.modify (· + 1) x).total = d.total + 1 := by
  cases x <;> simp only [modify, total] <;> omega

/-- The openers of the groups of a document. -/
def documentOpeners : List Char := ['{', '[']

section Cut

variable {limit n : Nat} {s : Scan} {c : Char} {cs us : List Char} {p : Option Char}

/-- No arrow ends a group of a document. -/
theorem Scan.step_document (p q : Option Char) (c : Char) :
    s.step documentOpeners p c = s.step documentOpeners q c := by
  have hcloses : closes? documentOpeners p c = closes? documentOpeners q c := by
    refine Option.ext fun d => ?_
    rw [closes?_eq_some_iff, closes?_eq_some_iff]
    cases d <;> simp [Delimiter.opener, Delimiter.closer, documentOpeners]
  rw [step, step, hcloses]

/-- The character opens a group that stands in as many others as the limit says. -/
def OpensDeep (limit : Nat) (s : Scan) (c : Char) : Prop :=
  s.mode = .code ∧ c ∈ documentOpeners ∧ limit ≤ s.depths.total

instance : Decidable (OpensDeep limit s c) := inferInstanceAs (Decidable (_ ∧ _ ∧ _))

/-- From the state `s` on, `us` is left of the text and `n` groups are cut off. -/
inductive CutTo (limit : Nat) : Scan → List Char → List Char → Nat → Prop
  | nil {s : Scan} : CutTo limit s [] [] 0
  | keep {s : Scan} {c : Char} {cs us : List Char} {n : Nat} (hc : ¬OpensDeep limit s c)
      (h : CutTo limit (s.step documentOpeners none c) cs us n) :
        CutTo limit s (c :: cs) (c :: us) n
  | cut {s : Scan} {c : Char} {cs us : List Char} {n : Nat} (hc : OpensDeep limit s c)
      (h : CutTo limit s (cs.drop ((closer? (c :: cs)).getD cs.length)) us n) :
      CutTo limit s (c :: cs) ('{' :: '}' :: us) (n + 1)

theorem opensDeep_iff :
    (!s.inLiteral && documentOpeners.contains c && decide (limit ≤ s.depths.total)) = true ↔
      OpensDeep limit s c := by
  simp [OpensDeep, Scan.inLiteral, and_assoc]

/-- Characters that are skipped are passed without a trace. -/
theorem collapseFrom_skip (limit skip : Nat) (out : List Char) (count : Nat) :
    ∃ q, collapseFrom documentOpeners ['{', '}'] limit out count skip p s cs =
      collapseFrom documentOpeners ['{', '}'] limit out count 0 q s (cs.drop skip) := by
  induction cs generalizing skip p with
  | nil => exact ⟨p, by simp [collapseFrom]⟩
  | cons c cs ih =>
    cases skip with
    | zero => exact ⟨p, rfl⟩
    | succ skip => exact ih skip

/-- The relation says what the walk returns. -/
theorem CutTo.collapseFrom_eq (h : CutTo limit s cs us n) (out : List Char) (count : Nat)
    (p : Option Char) :
    collapseFrom documentOpeners ['{', '}'] limit out count 0 p s cs =
      (out.reverse ++ us, count + n) := by
  induction h generalizing out count p with
  | nil => simp [collapseFrom]
  | keep hc _ ih =>
    rw [collapseFrom, if_neg (mt opensDeep_iff.mp hc), Scan.step_document p none, ih]
    simp
  | cut hc _ ih =>
    rw [collapseFrom, if_pos (opensDeep_iff.mpr hc)]
    obtain ⟨q, hskip⟩ := collapseFrom_skip limit _ _ _
    rw [hskip, ih]
    simp [Nat.add_assoc, Nat.add_comm 1]

end Cut

/-- In the state `s`, the walk puts `us` in the place of `as` and cuts off `n` groups on the way,
whatever stands after. -/
def Collapses (limit : Nat) (s : Scan) (as us : List Char) (n : Nat) : Prop :=
  ∀ rest vs m, CutTo limit s rest vs m → CutTo limit s (as ++ rest) (us ++ vs) (n + m)

namespace Collapses

variable {limit m n : Nat} {s : Scan} {as bs us vs : List Char}

theorem nil : Collapses limit s [] [] 0 := by
  intro rest vs m h
  rwa [Nat.zero_add]

theorem append (ha : Collapses limit s as us m) (hb : Collapses limit s bs vs n) :
    Collapses limit s (as ++ bs) (us ++ vs) (m + n) := by
  intro rest ws k h
  rw [append_assoc, append_assoc, Nat.add_assoc]
  exact ha _ _ _ (hb _ _ _ h)

/-- Text without marks is kept. -/
theorem plain (hs : s.mode = .code) (has : ∀ c ∈ as, isPlain c) : Collapses limit s as as 0 := by
  induction as with
  | nil => exact nil
  | cons c as ih =>
    rw [forall_mem_cons] at has
    have hopener : c ∉ documentOpeners := by
      intro hmem
      simp only [documentOpeners, mem_cons, not_mem_nil, or_false] at hmem
      rcases hmem with rfl | rfl <;> cases has.1
    intro rest vs m h
    refine .keep (fun hc => hopener hc.2.1) ?_
    rw [Scan.step_plain hs has.1]
    exact ih has.2 rest vs m h

/-- The inside of a string is kept. -/
theorem quoted (hs : s.mode = .literal '"') (h : Quoted as) : Collapses limit s as as 0 := by
  have hkept {t : Scan} (ht : t.mode ≠ .code) (c : Char) : ¬OpensDeep limit t c := fun hc => ht hc.1
  induction h with
  | nil => exact nil
  | @char c cs hq hb _ _ ih =>
    intro rest vs m h
    refine .keep (hkept (by simp [hs]) c) ?_
    rw [show s.step documentOpeners none c = s by simp [Scan.step, hs, hq, hb]]
    exact ih rest vs m h
  | @escape c cs _ _ ih =>
    intro rest vs m h
    have hback : (s.step documentOpeners none '\\').step documentOpeners none c = s := by
      cases s
      cases hs
      simp [Scan.step]
    refine .keep (hkept (by simp [hs]) _) (.keep (hkept (by simp [Scan.step, hs]) c) ?_)
    rw [hback]
    exact ih rest vs m h

/-- A string is kept, whatever quotes and brackets it holds. -/
theorem literal (hs : s.mode = .code) (h : Quoted as) :
    Collapses limit s ('"' :: (as ++ ['"'])) ('"' :: (as ++ ['"'])) 0 := by
  intro rest vs m hrest
  have hquote (t : Scan) : ¬OpensDeep limit t '"' := fun hc => absurd hc.2.1 (by decide)
  have hback : ({ s with mode := .literal '"' } : Scan).step documentOpeners none '"' = s := by
    cases s
    cases hs
    simp [Scan.step]
  simp only [cons_append, append_assoc, nil_append]
  refine .keep (hquote s) ?_
  rw [Scan.step_quote hs]
  refine quoted rfl h _ _ _ (.keep (hquote _) ?_)
  rwa [hback]

/-- A group that stands in few others is kept, and its inside is walked over. -/
theorem group (hs : s.mode = .code) (htotal : s.depths.total < limit) (d : Delimiter)
    (hd : d.opener ∈ documentOpeners)
    (h : Collapses limit { s with depths := s.depths.modify (· + 1) d } as us n) :
    Collapses limit s (d.opener :: (as ++ [d.closer])) (d.opener :: (us ++ [d.closer])) n := by
  intro rest vs m hrest
  have hkept : d.closer ∉ documentOpeners := by cases d <;> decide
  have hback : ({ s with depths := s.depths.modify (· + 1) d } : Scan).step documentOpeners none
      d.closer = s := by
    rw [Scan.step_closer (s := { s with depths := s.depths.modify (· + 1) d }) hs (by simp) hd]
    simp only [Depths.modify_pred_succ]
  simp only [cons_append, append_assoc, nil_append]
  refine .keep (fun hc => absurd hc.2.2 (Nat.not_le.mpr htotal)) ?_
  rw [Scan.step_opener hs hd]
  refine h _ _ _ (.keep (fun hc => hkept hc.2.1) ?_)
  rwa [hback]

/-- A group that stands in as many others as the limit says is cut off as a whole. -/
theorem deep (hs : s.mode = .code) (htotal : limit ≤ s.depths.total) (d : Delimiter)
    (hd : d.opener ∈ documentOpeners) {tracked : List Char} {ok : Char → Bool}
    (h : Nested tracked ok as) :
    Collapses limit s (d.opener :: (as ++ [d.closer])) ['{', '}'] 1 := by
  intro rest vs m hrest
  rw [cons_append, append_assoc, singleton_append, Nat.add_comm]
  refine .cut ⟨hs, hd, htotal⟩ ?_
  simpa [h.closer?_group d rest] using hrest

/-- Members that are joined by commas. -/
theorem members {t u : String} {ts us : List String} (hs : s.mode = .code)
    (hlength : us.length = ts.length) (ht : Collapses limit s t.toList u.toList m)
    (hts : Collapses limit s (", ".intercalate ts).toList (", ".intercalate us).toList n) :
    Collapses limit s (", ".intercalate (t :: ts)).toList (", ".intercalate (u :: us)).toList
      (m + n) := by
  have hcomma : Collapses limit s ", ".toList ", ".toList 0 := plain hs (forall_mem_of_all rfl)
  cases ts with
  | nil =>
    cases us with
    | nil => simpa using ht.append hts
    | cons u' us => simp at hlength
  | cons t' ts =>
    cases us with
    | nil => simp at hlength
    | cons u' us =>
      rw [String.intercalate_cons_cons, String.intercalate_cons_cons, toList_append,
        toList_append, toList_append, toList_append]
      exact (ht.append hcomma).append hts

end Collapses

/-! ### Documents -/

namespace Json

variable {ascii : Bool} {limit : Nat}

theorem collapses_stringText {s : Scan} (hs : s.mode = .code) (text : String) :
    Collapses limit s (stringText text ascii).toList (stringText text ascii).toList 0 := by
  rw [stringText, String.toList_ofList, stringChars]
  exact .literal hs (quoted_string ascii text.toList)

theorem collapses_scalarText? {s : Scan} (hs : s.mode = .code) {x : Scalar} {t : String}
    (h : scalarText? ascii x = some t) : Collapses limit s t.toList t.toList 0 := by
  cases x with
  | text s =>
    cases h
    exact collapses_stringText hs s
  | _ => exact .plain hs fun c hc => isPlain_of_isNumeral (isNumeral_scalarText? rfl h c hc)

mutual

/-- The walk over the text of a value, in a place that stands in `limit - n` groups. -/
theorem collapses_write? {level : Nat} : ∀ (v : Value) {t : String} (n : Nat) (s : Scan),
    ({ ascii : Layout }).write? level v = some t → s.mode = .code → s.depths.total + n = limit →
      ∃ u, ({ ascii : Layout }).write? level (v.cutAt n) = some u ∧
        Collapses limit s t.toList u.toList (v.collectionsAt n)
  | .scalar x, t, n, s, h, hs, _ => by
    refine ⟨t, by cases n <;> exact h, ?_⟩
    cases n <;> exact collapses_scalarText? hs h
  | .list vs, _, 0, s, h, hs, hn => by
    obtain ⟨ts, hts, rfl⟩ := Option.map_eq_some_iff.mp h
    refine ⟨"\x7b\x7d", rfl, ?_⟩
    rw [toList_enclose_line]
    have hinner : Nested documentOpeners (fun _ => true) (", ".intercalate ts).toList :=
      nested_members ⟨rfl, rfl⟩ (nested_writeItems? (by decide) (by decide) hts)
    exact .deep hs (by omega) .bracket (by decide) hinner
  | .map es, _, 0, s, h, hs, hn => by
    obtain ⟨ts, hts, rfl⟩ := Option.map_eq_some_iff.mp h
    refine ⟨"\x7b\x7d", rfl, ?_⟩
    rw [toList_enclose_line]
    have hinner : Nested documentOpeners (fun _ => true) (", ".intercalate ts).toList :=
      nested_members ⟨rfl, rfl⟩ (nested_writeEntries? (by decide) (by decide) hts)
    exact .deep hs (by omega) .brace (by decide) hinner
  | .list vs, _, n + 1, s, h, hs, hn => by
    obtain ⟨ts, hts, rfl⟩ := Option.map_eq_some_iff.mp h
    obtain ⟨us, hus, _, hitems⟩ := collapses_writeItems? vs n
      { s with depths := s.depths.modify (· + 1) .bracket } hts hs
      (by rw [Depths.total_modify]; omega)
    refine ⟨_, Option.map_eq_some_iff.mpr ⟨us, hus, rfl⟩, ?_⟩
    rw [toList_enclose_line, toList_enclose_line]
    exact hitems.group hs (by omega) .bracket (by decide)
  | .map es, _, n + 1, s, h, hs, hn => by
    obtain ⟨ts, hts, rfl⟩ := Option.map_eq_some_iff.mp h
    obtain ⟨us, hus, _, hentries⟩ := collapses_writeEntries? es n
      { s with depths := s.depths.modify (· + 1) .brace } hts hs
      (by rw [Depths.total_modify]; omega)
    refine ⟨_, Option.map_eq_some_iff.mpr ⟨us, hus, rfl⟩, ?_⟩
    rw [toList_enclose_line, toList_enclose_line]
    exact hentries.group hs (by omega) .brace (by decide)

theorem collapses_writeItems? {level : Nat} : ∀ (vs : List Value) {ts : List String} (n : Nat)
    (s : Scan), ({ ascii : Layout }).writeItems? level vs = some ts → s.mode = .code →
      s.depths.total + n = limit →
      ∃ us, ({ ascii : Layout }).writeItems? level (Value.cutItems n vs) = some us ∧
        us.length = ts.length ∧
        Collapses limit s (", ".intercalate ts).toList (", ".intercalate us).toList
          (Value.collectionsInItems n vs)
  | [], _, n, s, h, _, _ => by
    cases h
    exact ⟨[], rfl, rfl, .nil⟩
  | v :: vs, _, n, s, h, hs, hn => by
    obtain ⟨t, ts, ht, hts, rfl⟩ := writeItems?_cons h
    obtain ⟨u, hu, hfirst⟩ := collapses_write? v n s ht hs hn
    obtain ⟨us, hus, hlength, hrest⟩ := collapses_writeItems? vs n s hts hs hn
    refine ⟨u :: us, ?_, by simp [hlength], hfirst.members hs hlength hrest⟩
    rw [Value.cutItems, Layout.writeItems?, hu, hus]

theorem collapses_writeEntries? {level : Nat} : ∀ (es : List (Scalar × Value)) {ts : List String}
    (n : Nat) (s : Scan), ({ ascii : Layout }).writeEntries? level es = some ts → s.mode = .code →
      s.depths.total + n = limit →
      ∃ us, ({ ascii : Layout }).writeEntries? level (Value.cutEntries n es) = some us ∧
        us.length = ts.length ∧
        Collapses limit s (", ".intercalate ts).toList (", ".intercalate us).toList
          (Value.collectionsInEntries n es)
  | [], _, n, s, h, _, _ => by
    cases h
    exact ⟨[], rfl, rfl, .nil⟩
  | (k, v) :: es, _, n, s, h, hs, hn => by
    obtain ⟨key, t, ts, hkey, ht, hts, rfl⟩ := writeEntries?_cons h
    obtain ⟨u, hu, hfirst⟩ := collapses_write? v n s ht hs hn
    obtain ⟨us, hus, hlength, hrest⟩ := collapses_writeEntries? es n s hts hs hn
    refine ⟨(stringText key ascii ++ ": " ++ u) :: us, ?_, by simp [hlength], ?_⟩
    · rw [Value.cutEntries, Layout.writeEntries?, hkey, hu, hus]
    · refine Collapses.members hs hlength ?_ hrest
      have hcolon : Collapses limit s ": ".toList ": ".toList 0 := .plain hs (forall_mem_of_all rfl)
      rw [toList_append, toList_append, toList_append, toList_append]
      simpa using ((collapses_stringText hs key).append hcolon).append hfirst

end

/-- On the text of a value, cutting off the groups that stand in `limit` others gives the text of
the value in which each collection at that depth is an empty mapping, and the number of these. -/
theorem collapseDeep_line {v : Value} (hv : v.isJson = true) (ascii : Bool) (limit : Nat) :
    ∃ t u, line? v ascii = some t ∧ line? (v.cutAt limit) ascii = some u ∧
      collapseDeep ['{', '['] ['{', '}'] limit t.toList = (u.toList, v.collectionsAt limit) := by
  obtain ⟨t, ht⟩ : ∃ t, line? v ascii = some t := by
    rw [← Option.isSome_iff_exists]
    exact (isSome_write? _ 0 v).trans hv
  obtain ⟨u, hu, hwalk⟩ := collapses_write? v limit {} ht rfl (Nat.zero_add limit)
  have hcut := hwalk [] [] 0 .nil
  rw [append_nil, append_nil] at hcut
  refine ⟨t, u, ht, hu, ?_⟩
  simpa [collapseDeep, documentOpeners] using hcut.collapseFrom_eq [] 0 none

/-- A value with quotes, brackets, backslashes and apostrophes in its strings. -/
def markedValue : Value :=
  .map [(.text "it's", .list [.map [(.text "a\"]", .int 1)], .list [], .text "\x7d\\"]),
    (.text "[", .map [(.text "b", .list [.text "\x60"])])]

/-- Of the three collections in two others one is empty already. -/
theorem markedValue_collapsed :
    ∃ t, line? markedValue = some t ∧ collapseDeep ['{', '['] ['{', '}'] 2 t.toList =
      (("\x7b\"it's\": [\x7b\x7d, \x7b\x7d, \"\x7d\\\\\"], " ++
        "\"[\": \x7b\"b\": \x7b\x7d\x7d\x7d").toList, 3) := by
  obtain ⟨t, u, ht, hu, hcollapsed⟩ := collapseDeep_line (v := markedValue) (by decide) false 2
  have htext : line? (markedValue.cutAt 2) =
      some ("\x7b\"it's\": [\x7b\x7d, \x7b\x7d, \"\x7d\\\\\"], " ++
        "\"[\": \x7b\"b\": \x7b\x7d\x7d\x7d") := by
    decide +kernel
  refine ⟨t, ht, ?_⟩
  rw [hcollapsed, Option.some.inj (hu.symm.trans htext)]
  rfl

end Json

end Crosswalk
