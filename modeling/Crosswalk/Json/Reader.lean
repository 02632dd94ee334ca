import Crosswalk.Value.Basic

/-!
Reading JSON text. The reader also takes `NaN`, `Infinity` and `-Infinity`; of entries with one key
the last value stands at the first place. A failure names its cause and the index at which it was
noticed.
-/

namespace Crosswalk.Json

inductive Cause where
  | byteOrderMark
  | expectingValue
  | expectingKey
  | expectingColon
  | expectingComma
  | unterminatedString
  | controlCharacter
  | unknownEscape
  | malformedEscape
  | extraData
deriving Repr, DecidableEq

def Cause.message : Cause → String
  | .byteOrderMark => "Unexpected UTF-8 BOM (decode using utf-8-sig)"
  | .expectingValue => "Expecting value"
  | .expectingKey => "Expecting property name enclosed in double quotes"
  | .expectingColon => "Expecting ':' delimiter"
  | .expectingComma => "Expecting ',' delimiter"
  | .unterminatedString => "Unterminated string starting at"
  | .controlCharacter => "Invalid control character at"
  | .unknownEscape => "Invalid \\escape"
  | .malformedEscape => "Invalid \\uXXXX escape"
  | .extraData => "Extra data"

inductive Failure where
  | malformed (cause : Cause) (index : Nat)
  /-- An integer with more digits than the reader takes. -/
  | numberTooLong (digits : Nat)
deriving Repr, DecidableEq

/-- The failure in words, with line and column counted from one. -/
def describe (cause : Cause) (index : Nat) (source : List Char) : String :=
  let before := source.take index
  let line := before.count '\n' + 1
  let column := (before.reverse.takeWhile (· != '\n')).length + 1
  cause.message ++ ": line " ++ Nat.repr line ++ " column " ++ Nat.repr column ++
    " (char " ++ Nat.repr index ++ ")"

/-- The most digits that an integer may have. -/
def integerDigitLimit : Nat := 4300

def Failure.message (source : List Char) : Failure → String
  | .malformed cause index => describe cause index source
  | .numberTooLong digits =>
    "Exceeds the limit (" ++ Nat.repr integerDigitLimit ++
      " digits) for integer string conversion: value has " ++ Nat.repr digits ++
      " digits; use sys.set_int_max_str_digits() to increase the limit"

def isJsonBlank (c : Char) : Bool := c == ' ' || c == '\t' || c == '\n' || c == '\r'

/-- Pass over blanks. -/
def skipBlanks : Nat → List Char → Nat × List Char
  | i, [] => (i, [])
  | i, c :: cs => if isJsonBlank c then skipBlanks (i + 1) cs else (i, c :: cs)

def hexValue? (c : Char) : Option Nat :=
  if '0' ≤ c && c ≤ '9' then some (c.toNat - 48)
  else if 'a' ≤ c && c ≤ 'f' then some (c.toNat - 87)
  else if 'A' ≤ c && c ≤ 'F' then some (c.toNat - 55)
  else none

/-- The code of four hexadecimal digits. -/
def hexCode? (a b c d : Char) : Option Nat := do
  return (((← hexValue? a) * 16 + (← hexValue? b)) * 16 + (← hexValue? c)) * 16 + (← hexValue? d)

def simpleEscape? : Char → Option Char
  | '"' => some '"'
  | '\\' => some '\\'
  | '/' => some '/'
  | 'b' => some '\x08'
  | 'f' => some '\x0c'
  | 'n' => some '\n'
  | 'r' => some '\r'
  | 't' => some '\t'
  | _ => none

def isHighSurrogate (n : Nat) : Bool := 0xD800 ≤ n && n < 0xDC00

def isLowSurrogate (n : Nat) : Bool := 0xDC00 ≤ n && n < 0xE000

/-- A code unit on its own. Half of a surrogate pair is no `Char`: the replacement character stands
in for it, and texts that differ only in such halves are one text here. -/
def unitChar (n : Nat) : Char :=
  if isHighSurrogate n || isLowSurrogate n then '\uFFFD' else Char.ofNat n

/-- The character of a surrogate pair. -/
def pairChar (high low : Nat) : Char :=
  Char.ofNat (0x10000 + (high - 0xD800) * 1024 + (low - 0xDC00))

/-- What an escape stands for and how many characters it takes after its backslash. A numeric escape
must be followed by at least one character. An error carries how far from the backslash it was
noticed. -/
def escapeAt : List Char → Except (Cause × Nat) (Char × Nat)
  | 'u' :: a :: b :: c :: d :: e :: cs =>
    match hexCode? a b c d with
    | none => .error (.malformedEscape, 1)
    | some high =>
      match isHighSurrogate high, e, cs with
      | true, '\\', 'u' :: a' :: b' :: c' :: d' :: _ :: _ =>
        match hexCode? a' b' c' d' with
        | none => .error (.malformedEscape, 7)
        | some low =>
          if isLowSurrogate low then .ok (pairChar high low, 11)
          else .ok (unitChar high, 5)
      | _, _, _ => .ok (unitChar high, 5)
  | 'u' :: _ => .error (.malformedEscape, 1)
  | c :: _ =>
    match simpleEscape? c with
    | some d => .ok (d, 1)
    | none => .error (.unknownEscape, 0)
  | [] => .error (.unterminatedString, 0)

/-- The rest of a string that was opened at `start`, up to and with its closing quote; `skip`
characters of an escape remain to be passed. -/
def readString (start : Nat) (acc : List Char) (skip i : Nat) :
    List Char → Except Failure (String × Nat × List Char)
  | [] => .error (.malformed .unterminatedString start)
  | c :: cs =>
    match skip with
    | skip + 1 => readString start acc skip (i + 1) cs
    | 0 =>
      if c == '"' then .ok (String.ofList acc.reverse, i + 1, cs)
      else if c == '\\' then
        match escapeAt cs with
        | .ok (d, n) => readString start (d :: acc) n (i + 1) cs
        | .error (.unterminatedString, _) => .error (.malformed .unterminatedString start)
        | .error (cause, n) => .error (.malformed cause (i + n))
      else if c.toNat < 0x20 then .error (.malformed .controlCharacter i)
      else readString start (c :: acc) 0 (i + 1) cs

def isAsciiDigit (c : Char) : Bool := '0' ≤ c && c ≤ '9'

/-- The number that ASCII digits write, continued from `n`. -/
def digitsValue (n : Nat) (ds : List Char) : Nat :=
  ds.foldl (fun acc d => 10 * acc + (d.toNat - 48)) n

/-- The digits of a fraction, if a point and a digit stand at the start. -/
def readFraction : List Char → Option (List Char × List Char)
  | '.' :: d :: cs =>
    if isAsciiDigit d then some (d :: cs.takeWhile isAsciiDigit, cs.dropWhile isAsciiDigit)
    else none
  | _ => none

/-- Sign and digits of an exponent, and how many characters it takes. -/
def readExponent : List Char → Option (Bool × List Char × Nat × List Char)
  | e :: cs =>
    if e == 'e' || e == 'E' then
      let (sign, signLength, rest) : Bool × Nat × List Char := match cs with
        | '-' :: r => (true, 1, r)
        | '+' :: r => (false, 1, r)
        | r => (false, 0, r)
      let ds := rest.takeWhile isAsciiDigit
      if ds.isEmpty then none
      else some (sign, ds, 1 + signLength + ds.length, rest.dropWhile isAsciiDigit)
    else none
  | [] => none

/-- A number whose integer digits `whole` have been found. -/
def finishNumber (negative : Bool) (whole : List Char) (i : Nat) (cs : List Char) :
    Except Failure (Value × Nat × List Char) :=
  let (fraction, i, cs) := match readFraction cs with
    | some (ds, rest) => (some ds, i + 1 + ds.length, rest)
    | none => (none, i, cs)
  match fraction, readExponent cs with
  | none, none =>
    if integerDigitLimit < whole.length then .error (.numberTooLong whole.length)
    else
      let n := Int.ofNat (digitsValue 0 whole)
      .ok (.int (if negative then -n else n), i, cs)
  | _, exponent =>
    let ds := whole ++ fraction.getD []
    let (shift, i, cs) : Int × Nat × List Char := match exponent with
      | some (minus, eds, length, rest) =>
        let n := Int.ofNat (digitsValue 0 eds)
        (if minus then -n else n, i + length, rest)
      | none => (0, i, cs)
    let scale := shift - Int.ofNat (fraction.getD []).length
    .ok (.float (Binary64.ofDecimal negative (digitsValue 0 ds) scale), i, cs)

/-- A number that starts at `start`; its sign has been passed. -/
def readNumber (start : Nat) (negative : Bool) (i : Nat) :
    List Char → Except Failure (Value × Nat × List Char)
  | '0' :: cs => finishNumber negative ['0'] (i + 1) cs
  | c :: cs =>
    if isAsciiDigit c then
      let ds := cs.takeWhile isAsciiDigit
      finishNumber negative (c :: ds) (i + 1 + ds.length) (cs.dropWhile isAsciiDigit)
    else .error (.malformed .expectingValue start)
  | [] => .error (.malformed .expectingValue start)

mutual

/-- A value; `fuel` bounds the number of brackets, entries and items that are still read. -/
def readValue : Nat → Nat → List Char → Except Failure (Value × Nat × List Char)
  | 0, i, _ => .error (.malformed .expectingValue i)
  | _ + 1, i, '"' :: cs => do
    let (s, j, rest) ← readString i [] 0 (i + 1) cs
    return (.text s, j, rest)
  | fuel + 1, i, '{' :: cs =>
    let (j, rest) := skipBlanks (i + 1) cs
    match rest with
    | '}' :: rest' => .ok (.map [], j + 1, rest')
    | _ => readEntries fuel [] j rest
  | fuel + 1, i, '[' :: cs =>
    let (j, rest) := skipBlanks (i + 1) cs
    match rest with
    | ']' :: rest' => .ok (.list [], j + 1, rest')
    | _ => readItems fuel [] j rest
  | _ + 1, i, 'n' :: 'u' :: 'l' :: 'l' :: cs => .ok (.null, i + 4, cs)
  | _ + 1, i, 't' :: 'r' :: 'u' :: 'e' :: cs => .ok (.bool true, i + 4, cs)
  | _ + 1, i, 'f' :: 'a' :: 'l' :: 's' :: 'e' :: cs => .ok (.bool false, i + 5, cs)
  | _ + 1, i, 'N' :: 'a' :: 'N' :: cs => .ok (.float .nan, i + 3, cs)
  | _ + 1, i, 'I' :: 'n' :: 'f' :: 'i' :: 'n' :: 'i' :: 't' :: 'y' :: cs =>
    .ok (.float (.infinity false), i + 8, cs)
  | _ + 1, i, '-' :: 'I' :: 'n' :: 'f' :: 'i' :: 'n' :: 'i' :: 't' :: 'y' :: cs =>
    .ok (.float (.infinity true), i + 9, cs)
  | _ + 1, i, '-' :: cs => readNumber i true (i + 1) cs
  | _ + 1, i, cs => readNumber i false i cs

/-- The entries of a mapping that is not empty, up to and with its closing brace. -/
def readEntries :
    Nat → List (Scalar × Value) → Nat → List Char → Except Failure (Value × Nat × List Char)
  | 0, _, i, _ => .error (.malformed .expectingKey i)
  | fuel + 1, acc, i, '"' :: cs => do
    let (key, j, rest) ← readString i [] 0 (i + 1) cs
    let (j, rest) := skipBlanks j rest
    match rest with
    | ':' :: rest' =>
      let (j, rest') := skipBlanks (j + 1) rest'
      let (v, j, rest') ← readValue fuel j rest'
      let acc := (Scalar.text key, v) :: acc
      let (j, rest') := skipBlanks j rest'
      match rest' with
      | '}' :: tail => return (.map (Value.ofEntries acc.reverse), j + 1, tail)
      | ',' :: tail =>
        let (j, tail) := skipBlanks (j + 1) tail
        readEntries fuel acc j tail
      | _ => throw (.malformed .expectingComma j)
    | _ => throw (.malformed .expectingColon j)
  | _ + 1, _, i, _ => .error (.malformed .expectingKey i)

/-- The items of a list that is not empty, up to and with its closing bracket. -/
def readItems : Nat → List Value → Nat → List Char → Except Failure (Value × Nat × List Char)
  | 0, _, i, _ => .error (.malformed .expectingValue i)
  | fuel + 1, acc, i, cs => do
    let (v, j, rest) ← readValue fuel i cs
    let (j, rest) := skipBlanks j rest
    match rest with
    | ']' :: tail => return (.list (v :: acc).reverse, j + 1, tail)
    | ',' :: tail =>
      let (j, tail) := skipBlanks (j + 1) tail
      readItems fuel (v :: acc) j tail
    | _ => throw (.malformed .expectingComma j)

end

/-- Read a whole text as one value. -/
def read (source : List Char) : Except Failure Value :=
  match source with
  | '\uFEFF' :: _ => .error (.malformed .byteOrderMark 0)
  | _ => do
    let (i, cs) := skipBlanks 0 source
    let (v, i, cs) ← readValue (2 * source.length + 2) i cs
    let (i, cs) := skipBlanks i cs
    if cs.isEmpty then return v else throw (.malformed .extraData i)

end Crosswalk.Json
