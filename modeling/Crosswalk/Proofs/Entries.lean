import Crosswalk.Source.JsonSchema
import Crosswalk.Target.JsonSchema
import Mathlib.Data.List.Nodup

/-!
Mappings with textual keys. Looking up a key in one is looking it up in a list of pairs, and an
entry under a new key goes to the end.
-/

namespace Crosswalk

open List

namespace Value

variable {es : List (String × Value)}

/-- The entries of a mapping with textual keys. -/
def texts (es : List (String × Value)) : List (Scalar × Value) := es.map fun e => (.text e.1, e.2)

theorem object_eq (es : List (String × Value)) : object es = .map (texts es) := rfl

@[simp] theorem texts_nil : texts [] = [] := rfl

@[simp] theorem texts_cons (e : String × Value) (es : List (String × Value)) :
    texts (e :: es) = (.text e.1, e.2) :: texts es := rfl

theorem texts_inj {fs : List (String × Value)} (h : texts es = texts fs) : es = fs := by
  refine map_injective_iff.mpr ?_ h
  rintro ⟨k, v⟩ ⟨k', v'⟩ heq
  cases heq
  rfl

@[simp] theorem lookup?_texts (key : String) (es : List (String × Value)) :
    lookup? key (texts es) = es.lookup key := by
  induction es with
  | nil => rfl
  | cons e es ih =>
    obtain ⟨k, v⟩ := e
    rw [lookup?] at ih ⊢
    by_cases h : k = key
    · subst h
      simp [texts]
    · have h' : (key == k) = false := by simpa using fun heq => h heq.symm
      rw [texts_cons, find?_cons_of_neg (by simpa using h), ih, lookup_cons, h']

theorem lookup_texts (key : String) (es : List (String × Value)) :
    lookup key (texts es) = (es.lookup key).getD .null := by
  rw [lookup, lookup?_texts]

theorem hasKey_texts (key : String) (es : List (String × Value)) :
    hasKey key (texts es) = (es.lookup key).isSome := by
  rw [hasKey, lookup?_texts]

theorem same_text (a b : String) : (Scalar.text a).same (.text b) = (a == b) := by
  simp [Scalar.same, Scalar.integer?]

/-- An entry under a new key goes to the end. -/
theorem insert_new {key : String} (h : key ∉ es.map Prod.fst) (v : Value) :
    insert (.text key) v (texts es) = texts (es ++ [(key, v)]) := by
  induction es with
  | nil => rfl
  | cons e es ih =>
    simp only [map_cons, mem_cons, not_or] at h
    have hne : (e.1 == key) = false := by simpa using fun heq => h.1 heq.symm
    rw [texts_cons, insert, same_text, hne, ih h.2]
    rfl

/-- An entry under the first key keeps its place. -/
theorem insert_first (key : String) (v w : Value) (es : List (String × Value)) :
    insert (.text key) v (texts ((key, w) :: es)) = texts ((key, v) :: es) := by
  simp [texts, insert, same_text]

theorem foldl_insert_new {done : List (String × Value)} (h : ((done ++ es).map Prod.fst).Nodup) :
    (texts es).foldl (fun acc e => insert e.1 e.2 acc) (texts done) = texts (done ++ es) := by
  induction es generalizing done with
  | nil => simp
  | cons e es ih =>
    obtain ⟨k, v⟩ := e
    have hk : k ∉ done.map Prod.fst := by
      rw [map_append, map_cons] at h
      exact fun hmem => (nodup_append.mp h).2.2 k hmem k (mem_cons_self ..) rfl
    have happend : done ++ (k, v) :: es = done ++ [(k, v)] ++ es := by simp
    rw [happend] at h ⊢
    rw [texts_cons, foldl_cons, insert_new hk]
    exact ih h

theorem ofEntries_texts (h : (es.map Prod.fst).Nodup) : ofEntries (texts es) = texts es := by
  have hall : (([] ++ es).map Prod.fst).Nodup := h
  exact foldl_insert_new hall

end Value

theorem lookup_cons_ite (k k' : String) (v : Value) (es : List (String × Value)) :
    ((k', v) :: es).lookup k = if k = k' then some v else es.lookup k := by
  by_cases h : k = k'
  · simp [h]
  · have hne : (k == k') = false := by simpa using h
    rw [lookup_cons, hne, if_neg h]

theorem lookup_of_mem {k : String} {v : Value} {es : List (String × Value)}
    (hn : (es.map Prod.fst).Nodup) (h : (k, v) ∈ es) : es.lookup k = some v := by
  obtain ⟨before, after, rfl⟩ := append_of_mem h
  refine lookup_eq_some_iff.mpr ⟨before, after, rfl, fun e he => ?_⟩
  rw [map_append, map_cons] at hn
  have hne := (nodup_append.mp hn).2.2 e.1 (mem_map_of_mem he) k (mem_cons_self ..)
  simpa using fun heq => hne heq.symm

theorem lookup_of_notMem {k : String} {es : List (String × Value)} (h : k ∉ es.map Prod.fst) :
    es.lookup k = none := by
  refine lookup_eq_none_iff.mpr fun e he => ?_
  simpa using fun heq => h (mem_map.mpr ⟨e, he, heq.symm⟩)

end Crosswalk
