/-!
Blank characters and the trimming of text. Besides the white space of every script the class holds
the four separator controls U+001C to U+001F.
-/

namespace Crosswalk.Text

/-- Whether all characters of a text are such is decided by going through the text, not through all
characters there are. -/
instance (priority := 1100) decidableForallMem (p : Char → Prop) [DecidablePred p]
    (cs : List Char) :
    Decidable (∀ c ∈ cs, p c) :=
  List.decidableBAll p cs

def isBlank (c : Char) : Bool :=
  let n := c.toNat
  (0x9 ≤ n && n ≤ 0xD) || (0x1C ≤ n && n ≤ 0x20) || n == 0x85 || n == 0xA0 || n == 0x1680 ||
    (0x2000 ≤ n && n ≤ 0x200A) || n == 0x2028 || n == 0x2029 || n == 0x202F || n == 0x205F ||
    n == 0x3000

def trimStart (cs : List Char) : List Char := cs.dropWhile isBlank

def trimEnd (cs : List Char) : List Char := (cs.reverse.dropWhile isBlank).reverse

def trim (cs : List Char) : List Char := trimEnd (trimStart cs)

theorem trimStart_cons_of_isBlank {c : Char} (h : isBlank c = true) (cs : List Char) :
    trimStart (c :: cs) = trimStart cs := by
  simp [trimStart, h]

theorem trimStart_cons_of_not_isBlank {c : Char} (h : isBlank c = false) (cs : List Char) :
    trimStart (c :: cs) = c :: cs := by
  simp [trimStart, h]

/-- The maximal runs of characters that are not blank, with the run at hand reversed. -/
def wordsWith (run : List Char) : List Char → List (List Char)
  | [] => if run.isEmpty then [] else [run.reverse]
  | c :: cs =>
    if isBlank c then
      if run.isEmpty then wordsWith [] cs else run.reverse :: wordsWith [] cs
    else wordsWith (c :: run) cs

def words (cs : List Char) : List (List Char) := wordsWith [] cs

/-- Every run of blanks becomes one space. -/
def squeezeBlanks : List Char → List Char
  | [] => []
  | c :: cs =>
    if isBlank c then
      match cs with
      | d :: _ => if isBlank d then squeezeBlanks cs else ' ' :: squeezeBlanks cs
      | [] => [' ']
    else c :: squeezeBlanks cs

end Crosswalk.Text
