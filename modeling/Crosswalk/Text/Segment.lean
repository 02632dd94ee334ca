import Crosswalk.Text.Blank

/-!
Cutting text at fixed marks: what follows a mark, the parts between marks, replacement of marks,
and the lines of a text.
-/

namespace Crosswalk.Text

/-- What remains of the text after `mark`, if the text starts with it. -/
def after? : List Char → List Char → Option (List Char)
  | [], cs => some cs
  | _ :: _, [] => none
  | m :: ms, c :: cs => if m = c then after? ms cs else none

theorem eq_append_of_after? {mark cs rest : List Char} (h : after? mark cs = some rest) :
    cs = mark ++ rest := by
  fun_induction after? mark cs with
  | case1 cs => simpa using h
  | case2 => simp at h
  | case3 ms m cs ih => simp [ih h]
  | case4 => simp at h

@[simp] theorem after?_append (mark rest : List Char) : after? mark (mark ++ rest) = some rest := by
  induction mark with
  | nil => rfl
  | cons m ms ih => simp [after?, ih]

def startsWith (mark cs : List Char) : Bool := (after? mark cs).isSome

theorem startsWith_iff {mark cs : List Char} : startsWith mark cs = true ↔ mark <+: cs := by
  constructor
  · intro h
    obtain ⟨rest, hrest⟩ := Option.isSome_iff_exists.mp h
    exact ⟨rest, (eq_append_of_after? hrest).symm⟩
  · rintro ⟨rest, rfl⟩
    simp [startsWith]

/-- What precedes `mark` at the end of the text. -/
def before? (mark cs : List Char) : Option (List Char) :=
  (after? mark.reverse cs.reverse).map List.reverse

theorem before?_append (mark cs : List Char) : before? mark (cs ++ mark) = some cs := by
  simp [before?]

def endsWith (mark cs : List Char) : Bool := (before? mark cs).isSome

theorem endsWith_iff {mark cs : List Char} : endsWith mark cs = true ↔ mark <:+ cs := by
  have hstart : endsWith mark cs = startsWith mark.reverse cs.reverse := by
    simp [endsWith, before?, startsWith]
  rw [hstart, startsWith_iff, List.reverse_prefix]

/-- The text before and after the first `mark`, with what has been passed reversed. -/
def breakAfter (mark passed : List Char) : List Char → Option (List Char × List Char)
  | [] => if mark.isEmpty then some (passed.reverse, []) else none
  | c :: cs =>
    match after? mark (c :: cs) with
    | some rest => some (passed.reverse, rest)
    | none => breakAfter mark (c :: passed) cs

theorem exists_of_breakAfter {mark passed cs before rest : List Char}
    (h : breakAfter mark passed cs = some (before, rest)) :
    ∃ x, before = passed.reverse ++ x ∧ cs = x ++ (mark ++ rest) := by
  fun_induction breakAfter mark passed cs with
  | case1 => exact ⟨[], by simp_all⟩
  | case2 => simp at h
  | case3 passed c cs rest' hrest =>
    cases h
    exact ⟨[], by simp, by simpa using eq_append_of_after? hrest⟩
  | case4 passed c cs _ ih =>
    obtain ⟨x, rfl, rfl⟩ := ih h
    exact ⟨c :: x, by simp⟩

def breakOn? (mark cs : List Char) : Option (List Char × List Char) := breakAfter mark [] cs

def isInfix (mark cs : List Char) : Bool := (breakOn? mark cs).isSome

/-- The parts between the marks; `skip` characters of a mark are still to be passed. -/
def partsFrom (mark : List Char) : Nat → List Char → List (List Char)
  | _, [] => [[]]
  | skip + 1, _ :: cs => partsFrom mark skip cs
  | 0, c :: cs =>
    if startsWith mark (c :: cs) then [] :: partsFrom mark (mark.length - 1) cs
    else match partsFrom mark 0 cs with
      | p :: ps => (c :: p) :: ps
      | [] => [[c]]

/-- The parts of a text between the occurrences of a nonempty mark, empty ones included. -/
def parts (mark cs : List Char) : List (List Char) := partsFrom mark 0 cs

/-- Replacement where `skip` characters of an occurrence are still to be passed. -/
def replaceFrom (old new : List Char) : Nat → List Char → List Char
  | _, [] => []
  | skip + 1, _ :: cs => replaceFrom old new skip cs
  | 0, c :: cs =>
    if startsWith old (c :: cs) then new ++ replaceFrom old new (old.length - 1) cs
    else c :: replaceFrom old new 0 cs

/-- Replace the occurrences of a nonempty text, from left to right and without overlap. -/
def replaceAll (old new cs : List Char) : List Char := replaceFrom old new 0 cs

def replaceChar (old new : Char) (cs : List Char) : List Char :=
  cs.map fun c => if c = old then new else c

/-- Characters that end a line. -/
def isLineEnd (c : Char) : Bool :=
  let n := c.toNat
  (0xA ≤ n && n ≤ 0xD) || (0x1C ≤ n && n ≤ 0x1E) || n == 0x85 || n == 0x2028 || n == 0x2029

/-- The lines of a text, with the line at hand reversed; a final line end starts no line. -/
def linesWith (line : List Char) : List Char → List (List Char)
  | [] => if line.isEmpty then [] else [line.reverse]
  | '\r' :: '\n' :: cs => line.reverse :: linesWith [] cs
  | c :: cs => if isLineEnd c then line.reverse :: linesWith [] cs else linesWith (c :: line) cs

def lines (cs : List Char) : List (List Char) := linesWith [] cs

/-- The text without one final newline. -/
def dropFinalNewline (cs : List Char) : List Char :=
  match cs.reverse with
  | '\n' :: rest => rest.reverse
  | _ => cs

/-- Drop the given characters at the end. -/
def stripEnd (chars cs : List Char) : List Char := (cs.reverse.dropWhile chars.contains).reverse

/-- Drop the given characters at both ends. -/
def stripChars (chars cs : List Char) : List Char := stripEnd chars (cs.dropWhile chars.contains)

/-- Texts joined with a mark between them. -/
def join (mark : String) (texts : List String) : String := mark.intercalate texts

end Crosswalk.Text
