import Crosswalk.Proofs.ScriptLiterals
import Crosswalk.Proofs.Term

/-!
Lines of object members: a field is read from the line that was written for it, whatever its key and
its type are.
-/

namespace Crosswalk.Member

open List
open Identifier (isPart)

variable {tracked : List Char} {ok ok' : Char → Bool} {k : String} {m : Term.Member}
  {left type : List Char}

def fieldLine (m : Term.Member) (type : List Char) : List Char :=
  (keyChars m.key ++ optionalMark m.optional) ++ ':' :: ' ' :: type

/-- Characters of a key and the mark after it. -/
def isKeyChar (c : Char) : Bool := isPart c || c == '?'

theorem balanced_key (hk : isReadableKey k) (optional : Bool) :
    Nested tracked isKeyChar (keyChars k ++ optionalMark optional) := by
  refine ((balanced_keyChars hk).mono fun c hc => by simp [isKeyChar, hc]).append ?_
  cases optional with
  | true => exact .plain rfl rfl .nil
  | false => exact .nil

theorem field?_fieldLine (hk : isReadableKey m.key) (htype : Piece tracked ok type) :
    field? tracked (fieldLine m type) = some (m.field (.text type)) := by
  have hne : type.isEmpty = false := by simpa using htype.ne_nil
  rw [field?, fieldLine, splitFirstTop_colon (balanced_key hk _) rfl (trim_key hk _) htype]
  simp only [hne, Bool.false_eq_true, if_false, key?_keyChars hk, Option.map_some,
    String.ofList_toList]
  rfl

theorem piece_line (hleft : Nested tracked ok left)
    (hfirst : ∃ c, left.head? = some c ∧ isFirst c) (hcolon : ok ':')
    (hspace : ok ' ') (htype : Piece tracked ok type) :
    Piece tracked ok (left ++ ':' :: ' ' :: type) where
  balanced := hleft.append (.plain rfl hcolon (.plain rfl hspace htype.balanced))
  first := by
    obtain ⟨c, hc, hok⟩ := hfirst
    exact ⟨c, by rw [head?_append, hc]; rfl, hok⟩
  last := by
    obtain ⟨c, hc, hlast⟩ := htype.last
    refine ⟨c, ?_, hlast⟩
    rw [List.getLast?_append, getLast?_cons, getLast?_cons, hc]
    rfl

theorem piece_fieldLine (hk : isReadableKey m.key) (hkey : ∀ c, isKeyChar c → ok c)
    (hcolon : ok ':') (hspace : ok ' ') (htype : Piece tracked ok type) :
    Piece tracked ok (fieldLine m type) := by
  refine piece_line ((balanced_key hk _).mono hkey) ?_ hcolon hspace htype
  obtain ⟨c, d, hc, -, hfirst, -⟩ := keyChars_ends hk
  refine ⟨c, by rw [head?_append, hc]; rfl, ?_⟩
  rcases hfirst with hstart | rfl
  · exact isFirst_of_isPart (isPart_of_isStart hstart)
  · rfl

theorem head?_fieldLine (hk : isReadableKey m.key) : (fieldLine m type).head? ≠ some '[' := by
  obtain ⟨c, d, hc, -, hfirst, -⟩ := keyChars_ends hk
  rw [fieldLine, append_assoc, head?_append, hc]
  rintro ⟨⟩
  rcases hfirst with hstart | heq
  · cases hstart
  · cases heq

/-- Lines that each hold a field are collected from the last one on. -/
theorem foldlM_eq {α β γ : Type} {line : α → List Char} (toField : α → β)
    {step : List β × γ → List Char → Except Fault (List β × γ)} {as : List α}
    (hstep : ∀ a ∈ as, ∀ acc, step acc (line a) = .ok (toField a :: acc.1, acc.2))
    (acc : List β × γ) :
    (as.map line).foldlM step acc = .ok ((as.map toField).reverse ++ acc.1, acc.2) := by
  induction as generalizing acc with
  | nil => rfl
  | cons a as ih =>
    obtain ⟨ha, has⟩ := forall_mem_cons.mp hstep
    rw [map_cons, foldlM_cons, ha]
    refine (ih has _).trans ?_
    simp

end Crosswalk.Member
