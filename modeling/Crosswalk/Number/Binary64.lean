/-!
Double-precision numbers as exact data: a finite one is a sign and `mantissa * 2 ^ exponent`.
Rounding is to the nearest, a tie going to the even mantissa, and is done in exact natural
arithmetic.
-/

namespace Crosswalk

inductive Binary64 where
  | nan
  | infinity (negative : Bool)
  /-- The mantissa is below `2 ^ 53`, and below `2 ^ 52` only at the least exponent. -/
  | finite (negative : Bool) (mantissa : Nat) (exponent : Int)
deriving Repr, DecidableEq, Inhabited

namespace Binary64

def leastExponent : Int := -1074

def greatestExponent : Int := 971

def zero (negative : Bool) : Binary64 := .finite negative 0 leastExponent

/-- The quotient rounded to the nearest natural number, a tie going to the even one. -/
def roundQuotient (num den : Nat) : Nat :=
  let q := num / den
  let r := num % den
  if den < 2 * r || (2 * r == den && q % 2 == 1) then q + 1 else q

/-- `num / den` in units of `2 ^ e`, as a fraction. -/
def inUnits (num den : Nat) (e : Int) : Nat × Nat :=
  if e < 0 then (num * Nat.pow 2 (-e).toNat, den) else (num, den * Nat.pow 2 e.toNat)

/-- The exponent at which `num / den` has a mantissa of 53 bits, or the least exponent. -/
def fittingExponent (num den : Nat) : Int :=
  let e : Int := Int.ofNat num.log2 - Int.ofNat den.log2 - 52
  let scaled := inUnits num den e
  let e := if scaled.1 / scaled.2 < Nat.pow 2 52 then e - 1 else e
  if e < leastExponent then leastExponent else e

/-- The number nearest to `num / den`, where `den` is positive. -/
def ofRatio (negative : Bool) (num den : Nat) : Binary64 :=
  if num = 0 then zero negative
  else
    let e := fittingExponent num den
    let scaled := inUnits num den e
    let m := roundQuotient scaled.1 scaled.2
    let (m, e) := if Nat.pow 2 53 ≤ m then (Nat.pow 2 52, e + 1) else (m, e)
    if greatestExponent < e then .infinity negative else .finite negative m e

/-- The number nearest to `digits * 10 ^ exponent`. Decimal exponents far out of range are settled
without computing the power. -/
def ofDecimal (negative : Bool) (digits : Nat) (exponent : Int) : Binary64 :=
  if digits = 0 then zero negative
  else if 400 < exponent then .infinity negative
  else if exponent + Int.ofNat (digits.log2 / 3) + 1 < -400 then zero negative
  else if exponent < 0 then ofRatio negative digits (Nat.pow 10 (-exponent).toNat)
  else ofRatio negative (digits * Nat.pow 10 exponent.toNat) 1

def ofInt (i : Int) : Binary64 := ofRatio (decide (i < 0)) i.natAbs 1

def isNegative : Binary64 → Bool
  | .nan => false
  | .infinity n | .finite n _ _ => n

def neg : Binary64 → Binary64
  | .nan => .nan
  | .infinity n => .infinity !n
  | .finite n m e => .finite (!n) m e

/-- The fraction that a finite number is, without its sign. -/
def fraction (mantissa : Nat) (exponent : Int) : Nat × Nat :=
  if exponent < 0 then (mantissa, Nat.pow 2 (-exponent).toNat)
  else (mantissa * Nat.pow 2 exponent.toNat, 1)

/-- The integer that a number is. -/
def toInt? : Binary64 → Option Int
  | .finite n m e =>
    let f := fraction m e
    if f.1 % f.2 = 0 then
      let i := Int.ofNat (f.1 / f.2)
      some (if n then -i else i)
    else none
  | _ => none

/-- The greatest integer that is not above a finite number. -/
def floor (negative : Bool) (m : Nat) (e : Int) : Int :=
  let (num, den) := fraction m e
  if negative then Int.fdiv (-Int.ofNat num) (Int.ofNat den) else Int.ofNat (num / den)

/-- Signed numerator over the common denominator `2 ^ k`, for finite numbers with exponents of at
least `-k`. -/
def numeratorAt (k : Nat) (n : Bool) (m : Nat) (e : Int) : Int :=
  let i := Int.ofNat (m * Nat.pow 2 (e + Int.ofNat k).toNat)
  if n then -i else i

/-- The sum, rounded once. -/
def add : Binary64 → Binary64 → Binary64
  | .nan, _ | _, .nan => .nan
  | .infinity a, .infinity b => if a = b then .infinity a else .nan
  | .infinity a, _ | _, .infinity a => .infinity a
  | .finite n m e, .finite n' m' e' =>
    let s := numeratorAt 1074 n m e + numeratorAt 1074 n' m' e'
    if s = 0 then zero (n && n') else ofRatio (decide (s < 0)) s.natAbs (Nat.pow 2 1074)

/-- The product, rounded once. -/
def mul : Binary64 → Binary64 → Binary64
  | .nan, _ | _, .nan => .nan
  | .infinity a, .infinity b => .infinity (a != b)
  | .infinity a, .finite n m _ | .finite n m _, .infinity a =>
    if m = 0 then .nan else .infinity (a != n)
  | .finite n m e, .finite n' m' e' =>
    let f := fraction m e
    let f' := fraction m' e'
    ofRatio (n != n') (f.1 * f'.1) (f.2 * f'.2)

/-- Equality of numbers: the two zeros are equal, and NaN is equal to nothing. -/
def same : Binary64 → Binary64 → Bool
  | .nan, _ | _, .nan => false
  | .finite n m e, .finite n' m' e' => (m == 0 && m' == 0) || (n == n' && m == m' && e == e')
  | a, b => a == b

end Binary64

end Crosswalk
