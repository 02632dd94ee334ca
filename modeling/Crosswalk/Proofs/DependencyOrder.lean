import Crosswalk.Schema.Catalogue
import Mathlib.Data.List.Nodup
import Mathlib.Data.List.Perm.Subperm

/-!
The order of declarations. Each stands after those it refers to, unless the walk along the
references met them while they were still open; those are printed later. Every declaration has
one place in the order.
-/

namespace Crosswalk.Catalogue

open List

variable {declared : List Scalar} {refs : Scalar → List Scalar} {n : Scalar}

variable {c : Catalogue}

theorem names_add_nodup (h : c.names.Nodup) (d : Declaration) : (c.add d).names.Nodup := by
  rw [add]
  split
  case isTrue => exact h
  case isFalse hnew =>
    have hfresh : d.name ∉ c.names := by
      simpa [contains, find?, names] using hnew
    simpa [names] using Nodup.concat hfresh h

/-- No two declarations of a catalogue have the same name. -/
theorem names_ofList_nodup (ds : List Declaration) : (ofList ds).names.Nodup := by
  have hfold (c : Catalogue) (h : c.names.Nodup) : (ds.foldl add c).names.Nodup := by
    induction ds generalizing c with
    | nil => exact h
    | cons d ds ih => exact ih _ (names_add_nodup h d)
  exact hfold empty nodup_nil

theorem exists_find?_eq_some (h : n ∈ c.names) : ∃ d, c.find? n = some d ∧ d.name = n := by
  obtain ⟨d, hd, rfl⟩ := mem_map.mp h
  have hsome : (c.find? d.name).isSome := find?_isSome.mpr ⟨d, hd, beq_self_eq_true _⟩
  obtain ⟨e, he⟩ := Option.isSome_iff_exists.mp hsome
  exact ⟨e, he, by simpa using find?_some he⟩

theorem find?_name (hn : c.names.Nodup) {d : Declaration} (hd : d ∈ c.declarations) :
    c.find? d.name = some d := by
  obtain ⟨e, he, hname⟩ := exists_find?_eq_some (mem_map_of_mem hd)
  rw [he, inj_on_of_nodup_map hn (mem_of_find?_eq_some he) hd hname]

theorem find?_add (c : Catalogue) (d : Declaration) (n : Scalar) :
    (c.add d).find? n = (c.find? n).or (if d.name == n then some d else none) := by
  by_cases hc : c.contains d.name
  · have hadd : (c.add d).find? n = c.find? n := by
      rw [add, if_pos hc]
      rfl
    by_cases hn : d.name = n
    · obtain ⟨e, he⟩ := Option.isSome_iff_exists.mp (hn ▸ hc)
      rw [hadd, he]
      rfl
    · simp [hadd, hn]
  · rw [add, if_neg hc]
    cases hn : d.name == n <;> simp [find?, find?_append, hn]

/-- Of the declarations with one name the first counts. -/
theorem find?_ofList (ds : List Declaration) (n : Scalar) :
    (ofList ds).find? n = ds.find? fun d => d.name == n := by
  have hfold (c : Catalogue) :
      (ds.foldl add c).find? n = (c.find? n).or (ds.find? fun d => d.name == n) := by
    induction ds generalizing c with
    | nil => simp
    | cons d ds ih =>
      rw [foldl_cons, ih, find?_add, Option.or_assoc, find?_cons]
      cases d.name == n <;> rfl
  exact hfold empty

theorem mem_of_mem_ofList {ds : List Declaration} {d : Declaration}
    (h : d ∈ (ofList ds).declarations) : d ∈ ds := by
  have hfind := find?_name (names_ofList_nodup ds) h
  rw [find?_ofList] at hfind
  exact mem_of_find?_eq_some hfind

/-- Looking up every name gives the declarations back. -/
theorem filterMap_find?_names (hn : c.names.Nodup) :
    c.names.filterMap c.find? = c.declarations := by
  rw [names, filterMap_map]
  calc c.declarations.filterMap (c.find? ∘ Declaration.name)
      = c.declarations.filterMap some := filterMap_congr fun d hd => find?_name hn hd
    _ = c.declarations := filterMap_some

/-- What holds of a step if the names in `before` are those printed up to it. -/
structure Settled (declared : List Scalar) (refs : Scalar → List Scalar) (before : List Scalar)
    (s : Step) : Prop where
  self_open : s.name ∈ s.pending
  open_declared : ∀ n ∈ s.pending, n ∈ declared
  open_not_before : ∀ n ∈ s.pending, n ∉ before
  covered : ∀ n ∈ refs s.name, n ∈ declared → n ∈ s.pending ∨ n ∈ before

/-- Steps each of which is settled by those before it. -/
inductive WellOrdered (declared : List Scalar) (refs : Scalar → List Scalar) : List Step → Prop
  | nil : WellOrdered declared refs []
  | concat {steps : List Step} {s : Step} : WellOrdered declared refs steps →
      Settled declared refs (steps.map Step.name) s → WellOrdered declared refs (steps ++ [s])

namespace WellOrdered

theorem settled {before after : List Step} {s : Step}
    (h : WellOrdered declared refs (before ++ s :: after)) :
    Settled declared refs (before.map Step.name) s := by
  generalize hall : before ++ s :: after = all at h
  induction h generalizing after with
  | nil => simp at hall
  | @concat steps last hsteps hlast ih =>
    rcases eq_nil_or_concat after with rfl | ⟨rest, t, rfl⟩
    · obtain ⟨rfl, hs⟩ := append_inj' hall rfl
      cases hs
      exact hlast
    · have hall' : (before ++ s :: rest) ++ [t] = steps ++ [last] := by simpa using hall
      exact ih (append_inj' hall' rfl).1

theorem name_declared {steps : List Step} (h : WellOrdered declared refs steps) :
    ∀ n ∈ steps.map Step.name, n ∈ declared := by
  induction h with
  | nil => simp
  | concat _ hs ih =>
    intro n hn
    simp only [map_append, map_cons, map_nil, mem_append,
      mem_singleton] at hn
    rcases hn with hn | rfl
    · exact ih n hn
    · exact hs.open_declared _ hs.self_open

theorem name_nodup {steps : List Step} (h : WellOrdered declared refs steps) :
    (steps.map Step.name).Nodup := by
  induction h with
  | nil => exact nodup_nil
  | concat _ hs ih =>
    rw [map_append, map_singleton, ← concat_eq_append]
    exact Nodup.concat (hs.open_not_before _ hs.self_open) ih

/-- What is open at a step is the step itself or is printed after it. -/
theorem open_after {before after : List Step} {s : Step}
    (h : WellOrdered declared refs (before ++ s :: after))
    (hall : ∀ n ∈ declared, n ∈ (before ++ s :: after).map Step.name) (hn : n ∈ s.pending) :
    n = s.name ∨ n ∈ after.map Step.name := by
  have hmem := hall n (h.settled.open_declared n hn)
  rw [map_append, map_cons, mem_append, mem_cons] at hmem
  exact hmem.resolve_left (h.settled.open_not_before n hn)

end WellOrdered

/-- What visiting the names in `targets` below a chain of open names makes of the steps `done`. -/
structure Walked (declared : List Scalar) (refs : Scalar → List Scalar)
    (chain targets : List Scalar) (done result : List Step) : Prop where
  kept : done ⊆ result
  ordered : WellOrdered declared refs result
  open_not_done : ∀ n ∈ chain, n ∉ result.map Step.name
  reached : ∀ n ∈ targets, n ∈ declared → n ∈ chain ∨ n ∈ result.map Step.name

/-- Once the chain is as long as the list of declarations, it holds all of them. -/
theorem mem_chain_of_length_le {chain : List Scalar} (hn : chain.Nodup) (hsub : chain ⊆ declared)
    (hlen : declared.length ≤ chain.length) (h : n ∈ declared) : n ∈ chain :=
  ((subperm_of_subset hn hsub).perm_of_length_le hlen).mem_iff.mpr h

/-- The names of a list are visited one after the other. -/
theorem walked_foldl {chain : List Scalar} {visitOne : List Step → Scalar → List Step}
    (hone : ∀ done name, WellOrdered declared refs done → (∀ n ∈ chain, n ∉ done.map Step.name) →
      Walked declared refs chain [name] done (visitOne done name)) :
    ∀ (names : List Scalar) (done : List Step), WellOrdered declared refs done →
      (∀ n ∈ chain, n ∉ done.map Step.name) →
      Walked declared refs chain names done (names.foldl visitOne done)
  | [], done, hord, hopen => ⟨fun _ h => h, hord, hopen, by simp⟩
  | name :: names, done, hord, hopen => by
    have first := hone done name hord hopen
    have rest := walked_foldl hone names (visitOne done name) first.ordered first.open_not_done
    refine ⟨fun s hs => rest.kept (first.kept hs), rest.ordered, rest.open_not_done, ?_⟩
    intro n hn hd
    rcases mem_cons.mp hn with rfl | hn
    · exact (first.reached n (mem_singleton.mpr rfl) hd).imp_right
        fun h => map_subset Step.name rest.kept h
    · exact rest.reached n hn hd

/-- What is passed over: names that are not declared, are open or are done. -/
theorem passed_iff {chain : List Scalar} {done : List Step} {name : Scalar} :
    (!declared.contains name || chain.contains name || done.any fun s => s.name == name) ↔
      name ∉ declared ∨ name ∈ chain ∨ name ∈ done.map Step.name := by
  simp [or_assoc]

/-- The induction is on the fuel: a name that is visited joins the chain, so that the fuel and the
length of the chain together never fall below the number of declarations. -/
theorem walked_visit (fuel : Nat) (chain : List Scalar) (hn : chain.Nodup) (hsub : chain ⊆ declared)
    (hfuel : declared.length ≤ chain.length + fuel) (done : List Step) (name : Scalar)
    (hord : WellOrdered declared refs done) (hopen : ∀ n ∈ chain, n ∉ done.map Step.name) :
    Walked declared refs chain [name] done (visit declared refs fuel chain done name) := by
  induction fuel generalizing chain done name with
  | zero =>
    refine ⟨fun _ h => h, hord, hopen, ?_⟩
    intro n _ hd
    exact Or.inl (mem_chain_of_length_le hn hsub (by omega) hd)
  | succ fuel ih =>
    rw [visit]
    split
    case isTrue hpassed =>
      refine ⟨fun _ h => h, hord, hopen, ?_⟩
      intro n hmem hd
      cases mem_singleton.mp hmem
      rcases passed_iff.mp hpassed with h | h
      · exact absurd hd h
      · exact h
    case isFalse hfresh =>
      rw [passed_iff, not_or, not_or, not_not] at hfresh
      obtain ⟨hdecl, hchain, hnew⟩ := hfresh
      have hopen' : ∀ n ∈ chain ++ [name], n ∉ done.map Step.name := by
        intro n h
        rcases mem_append.mp h with h | h
        · exact hopen n h
        · exact mem_singleton.mp h ▸ hnew
      have hn' : (chain ++ [name]).Nodup := by
        simpa only [concat_eq_append] using Nodup.concat hchain hn
      have below := walked_foldl
        (ih (chain ++ [name]) hn' (by simpa using And.intro hsub hdecl) (by simp; omega))
        (refs name) done hord hopen'
      have hstep : Settled declared refs
          (((refs name).foldl (visit declared refs fuel (chain ++ [name])) done).map Step.name)
          ⟨name, chain ++ [name]⟩ := by
        refine ⟨by simp, ?_, below.open_not_done, below.reached⟩
        intro n h
        rcases mem_append.mp h with h | h
        · exact hsub h
        · exact mem_singleton.mp h ▸ hdecl
      refine ⟨fun s hs => mem_append_left _ (below.kept hs), below.ordered.concat hstep, ?_, ?_⟩
      · intro n h hmem
        rw [map_append, mem_append] at hmem
        rcases hmem with hmem | hmem
        · exact below.open_not_done n (mem_append_left _ h) hmem
        · cases mem_singleton.mp hmem
          exact hchain h
      · intro n h _
        exact Or.inr (by simp [mem_singleton.mp h])

theorem walked_order (c : Catalogue) (refs : Scalar → List Scalar) :
    Walked c.names refs [] c.names [] (c.order refs) :=
  walked_foldl (fun done name => walked_visit c.names.length [] nodup_nil (by simp) (by simp)
    done name) c.names [] .nil (by simp)

theorem wellOrdered_order (c : Catalogue) (refs : Scalar → List Scalar) :
    WellOrdered c.names refs (c.order refs) := (walked_order c refs).ordered

theorem mem_order_of_mem_names (c : Catalogue) (refs : Scalar → List Scalar) (h : n ∈ c.names) :
    n ∈ (c.order refs).map Step.name := by
  simpa using (walked_order c refs).reached n h h

/-- Every declaration has one place in the order. -/
theorem order_perm (c : Catalogue) (refs : Scalar → List Scalar) (h : c.names.Nodup) :
    ((c.order refs).map Step.name).Perm c.names := by
  have hord := wellOrdered_order c refs
  rw [perm_ext_iff_of_nodup hord.name_nodup h]
  exact fun n => ⟨hord.name_declared n, mem_order_of_mem_names c refs⟩

end Crosswalk.Catalogue
