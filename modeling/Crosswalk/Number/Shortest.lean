import Crosswalk.Number.Binary64

/-!
The shortest decimal that reads back as a given double-precision number, and how numbers are
written. Of the decimals with the fewest digits the nearest to the number is taken, a tie going to
the even one.
-/

namespace Crosswalk

def decimalDigits (n : Nat) : List Char := Nat.toDigits 10 n

/-- An integer is read and written with at most this many decimal digits. -/
def digitLimit : Nat := 4300

/-- The decimal `d * 10 ^ scale`. -/
structure Decimal where
  digits : Nat
  scale : Int
deriving Repr, DecidableEq

namespace Binary64

/-- The exponent of the leading decimal digit of `num / den`, both positive. -/
def leadingExponent (num den : Nat) : Int :=
  if den ≤ num then Int.ofNat (decimalDigits (num / den)).length - 1
  else -(Int.ofNat (decimalDigits ((den + num - 1) / num - 1)).length)

/-- The reals that round to `m * 2 ^ e` lie between these multiples of `2 ^ (e - 2)`. Below a power
of two the next number is only half as far away. -/
def roundingInterval (m : Nat) (e : Int) : Nat × Nat :=
  (4 * m - (if m = Nat.pow 2 52 && leastExponent < e then 1 else 2), 4 * m + 2)

/-- `d * 10 ^ s` rounds to `m * 2 ^ e`: it lies in the rounding interval, whose ends count if the
mantissa is even. -/
def roundsBack (m : Nat) (e : Int) (d : Nat) (s : Int) : Bool :=
  let interval := roundingInterval m e
  let unit := fraction 1 (e - 2)
  let point := if s < 0 then (d, Nat.pow 10 (-s).toNat) else (d * Nat.pow 10 s.toNat, 1)
  let x := point.1 * unit.2
  let low := interval.1 * unit.1 * point.2
  let high := interval.2 * unit.1 * point.2
  if m % 2 = 0 then low ≤ x && x ≤ high else low < x && x < high

/-- Of the two neighbours of `m * 2 ^ e` on the grid of multiples of `10 ^ s`, the nearest that
rounds to it. -/
def neighbour? (m : Nat) (e s : Int) : Option Nat :=
  let f := fraction m e
  let scaled :=
    if s < 0 then (f.1 * Nat.pow 10 (-s).toNat, f.2) else (f.1, f.2 * Nat.pow 10 s.toNat)
  let d := scaled.1 / scaled.2
  let r := scaled.1 % scaled.2
  let low := d != 0 && roundsBack m e d s
  let high := roundsBack m e (d + 1) s
  let lowIsNearer := 2 * r < scaled.2 || (2 * r == scaled.2 && d % 2 == 0)
  if low && (lowIsNearer || !high) then some d else if high then some (d + 1) else none

/-- The shortest decimal for the positive number `m * 2 ^ e`; seventeen digits always suffice. -/
def shortest (m : Nat) (e : Int) : Decimal :=
  let f := fraction m e
  let lead := leadingExponent f.1 f.2
  let found := (List.range 17).findSome? fun n =>
    let s := lead - Int.ofNat n
    (neighbour? m e s).map fun d => (⟨d, s⟩ : Decimal)
  found.getD ⟨m, e⟩

end Binary64

/-- How a number is laid out once its digits are known. -/
structure NumberLayout where
  /-- Numbers with a leading exponent in this range are written without an exponent. -/
  leastPositional : Int
  greatestPositional : Int
  /-- A whole number is written with a fraction of one zero. -/
  wholeFraction : Bool
  /-- The least number of digits in an exponent. -/
  exponentWidth : Nat
  nan : String
  infinity : String

namespace NumberLayout

/-- Positional from `0.0001` up to sixteen digits, otherwise as in `1.5e-07`. -/
def plain : NumberLayout where
  leastPositional := -4
  greatestPositional := 15
  wholeFraction := true
  exponentWidth := 2
  nan := "nan"
  infinity := "inf"

def zeros (n : Nat) : List Char := List.replicate n '0'

def exponentText (l : NumberLayout) (e : Int) : List Char :=
  let ds := decimalDigits e.natAbs
  'e' :: (if e < 0 then '-' else '+') :: (zeros (l.exponentWidth - ds.length) ++ ds)

/-- The text of `0.d₁d₂…` times a power of ten, where `lead` is the exponent of the first digit and
the digits do not end in zero. -/
def digitsText (l : NumberLayout) (ds : List Char) (lead : Int) : List Char :=
  if l.leastPositional ≤ lead && lead ≤ l.greatestPositional then
    if lead < 0 then '0' :: '.' :: (zeros ((-lead).toNat - 1) ++ ds)
    else
      let whole := lead.toNat + 1
      let fractional := ds.drop whole
      ds.take whole ++ zeros (whole - ds.length) ++
        (if fractional.isEmpty then (if l.wholeFraction then ['.', '0'] else [])
          else '.' :: fractional)
  else
    let tail := ds.drop 1
    ds.take 1 ++ (if tail.isEmpty then [] else '.' :: tail) ++ l.exponentText lead

def write (l : NumberLayout) : Binary64 → String
  | .nan => l.nan
  | .infinity n => (if n then "-" else "") ++ l.infinity
  | .finite n m e =>
    let body :=
      if m = 0 then l.digitsText ['0'] 0
      else
        let d := Binary64.shortest m e
        let ds := decimalDigits d.digits
        let kept := (ds.reverse.dropWhile (· == '0')).reverse
        l.digitsText kept (d.scale + Int.ofNat ds.length - 1)
    (if n then "-" else "") ++ String.ofList body

end NumberLayout

/-- A natural number with a comma before each group of three digits. -/
def groupedDigits (n : Nat) : String :=
  let rec go : List Char → List Char
    | a :: b :: c :: d :: rest => a :: b :: c :: ',' :: go (d :: rest)
    | cs => cs
  String.ofList (go (decimalDigits n).reverse).reverse

end Crosswalk
