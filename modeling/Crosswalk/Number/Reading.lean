import Crosswalk.Number.Shortest
import Crosswalk.Text.Blank
import Crosswalk.Text.Digit

/-!
Numbers written in text. Blanks around a number are passed over, its digits may be of any script,
and a single underscore may stand between two digits.
-/

namespace Crosswalk

namespace Number

/-- The value of a digit in bases up to sixteen. -/
def baseDigit? (base : Nat) (c : Char) : Option Nat :=
  let v := match Text.digitValue? c with
    | some v => some v
    | none =>
      if 'a' ≤ c && c ≤ 'f' then some (c.toNat - 87)
      else if 'A' ≤ c && c ≤ 'F' then some (c.toNat - 55) else none
  v.filter (· < base)

/-- The values of a run of digits; the flag says that the last character was a digit. -/
def digitsAfter (base : Nat) (passed : List Nat) (afterDigit : Bool) :
    List Char → Option (List Nat)
  | [] => if afterDigit then some passed.reverse else none
  | '_' :: cs => if afterDigit then digitsAfter base passed false cs else none
  | c :: cs =>
    match baseDigit? base c with
    | some v => digitsAfter base (v :: passed) true cs
    | none => none

def digits? (base : Nat) (cs : List Char) : Option (List Nat) := digitsAfter base [] false cs

/-- The number that digits write. -/
def ofDigits (base : Nat) (ds : List Nat) : Nat := ds.foldl (fun n d => n * base + d) 0

/-- The sign before a number, and what follows it. -/
def splitSign : List Char → Bool × List Char
  | '-' :: cs => (true, cs)
  | '+' :: cs => (false, cs)
  | cs => (false, cs)

/-- The mark that may stand before the digits of a base. -/
def baseMark (base : Nat) : List Char :=
  match base with
  | 2 => ['b', 'B']
  | 8 => ['o', 'O']
  | 16 => ['x', 'X']
  | _ => []

/-- What follows the mark of a base, if there is one. -/
def dropBaseMark (base : Nat) : List Char → List Char
  | '0' :: m :: '_' :: cs => if (baseMark base).contains m then cs else '0' :: m :: '_' :: cs
  | '0' :: m :: cs => if (baseMark base).contains m then cs else '0' :: m :: cs
  | cs => cs

/-- Read an integer. -/
def integer? (base : Nat) (cs : List Char) : Option Int :=
  let (negative, rest) := splitSign (Text.trim cs)
  match digits? base (dropBaseMark base rest) with
  | none => none
  | some ds =>
    if base == 10 && digitLimit < ds.length then none
    else
      let n : Int := Int.ofNat (ofDigits base ds)
      some (if negative then -n else n)

/-- The digits of a part that may be left out. -/
def optionalDigits? (cs : List Char) : Option (List Nat) :=
  if cs.isEmpty then some [] else digits? 10 cs

/-- Split at the first character of a class, which is dropped. -/
def splitAtClass (p : Char → Bool) (cs : List Char) : List Char × Option (List Char) :=
  let before := cs.takeWhile fun c => !p c
  match cs.drop before.length with
  | [] => (before, none)
  | _ :: after => (before, some after)

def exponent? : Option (List Char) → Option Int
  | none => some 0
  | some cs =>
    let (negative, rest) := splitSign cs
    (digits? 10 rest).map fun ds =>
      let n : Int := Int.ofNat (ofDigits 10 ds)
      if negative then -n else n

def smallAscii (cs : List Char) : List Char := cs.map Char.toLower

/-- Read a number with an optional fraction and exponent, or the name of an infinity or of the
value that is no number. -/
def float? (cs : List Char) : Option Binary64 :=
  let (negative, rest) := splitSign (Text.trim cs)
  let name := String.ofList (smallAscii rest)
  if name == "inf" || name == "infinity" then some (.infinity negative)
  else if name == "nan" then some .nan
  else do
    let (mantissa, power) := splitAtClass (fun c => c == 'e' || c == 'E') rest
    let (whole, fraction) := splitAtClass (· == '.') mantissa
    let a ← optionalDigits? whole
    let b ← optionalDigits? (fraction.getD [])
    let e ← exponent? power
    if a.isEmpty && b.isEmpty then none
    else some (Binary64.ofDecimal negative (ofDigits 10 (a ++ b)) (e - Int.ofNat b.length))

end Number

end Crosswalk
