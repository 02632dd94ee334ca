import Crosswalk.Text.Printable
import Crosswalk.Value.Basic

/-!
Values as readable text. A text stands for itself on its own and is quoted inside a collection.
-/

namespace Crosswalk

namespace Text

def hexDigits (width n : Nat) : List Char :=
  let ds := Nat.toDigits 16 n
  List.replicate (width - ds.length) '0' ++ ds

/-- The escape of a character that is not printable. -/
def escapeCode (c : Char) : List Char :=
  let n := c.toNat
  if c == '\n' then ['\\', 'n']
  else if c == '\r' then ['\\', 'r']
  else if c == '\t' then ['\\', 't']
  else if n < 0x100 then '\\' :: 'x' :: hexDigits 2 n
  else if n < 0x10000 then '\\' :: 'u' :: hexDigits 4 n
  else '\\' :: 'U' :: hexDigits 8 n

/-- Quoted text: single quotes, unless the text holds one and no double quote. -/
def quoted (s : String) : String :=
  let cs := s.toList
  let q := if cs.contains '\x27' && !cs.contains '"' then '"' else '\x27'
  let body := cs.flatMap fun c =>
    if c == q || c == '\\' then ['\\', c] else if isPrintable c then [c] else escapeCode c
  String.ofList (q :: (body ++ [q]))

end Text

def padded (width n : Nat) : String :=
  let ds := decimalDigits n
  String.ofList (List.replicate (width - ds.length) '0' ++ ds)

def CalendarDate.display (d : CalendarDate) : String :=
  padded 4 d.year ++ "-" ++ padded 2 d.month ++ "-" ++ padded 2 d.day

namespace Moment

def offsetText : Option Int → String
  | none => ""
  | some o =>
    (if o < 0 then "-" else "+") ++ padded 2 (o.natAbs / 60) ++ ":" ++ padded 2 (o.natAbs % 60)

/-- Date and time of day with `mark` between them. -/
def display (mark : String) (m : Moment) : String :=
  m.date.display ++ mark ++ padded 2 m.hour ++ ":" ++ padded 2 m.minute ++ ":" ++
    padded 2 m.second ++ (if m.microsecond = 0 then "" else "." ++ padded 6 m.microsecond) ++
    offsetText m.offset

end Moment

/-- An integer as the program writes it. -/
def intText (i : Int) : String :=
  String.ofList ((if i < 0 then ['-'] else []) ++ decimalDigits i.natAbs)

def bytesText (data : List Nat) : String :=
  let cs := data.map Char.ofNat
  let q := if cs.contains '\x27' && !cs.contains '"' then '"' else '\x27'
  let body := cs.flatMap fun c =>
    if c == q || c == '\\' then ['\\', c]
    else if ' ' ≤ c && c ≤ '~' then [c] else Text.escapeCode c
  String.ofList ('b' :: q :: (body ++ [q]))

namespace Scalar

def displayWith (textForm : String → String) : Scalar → String
  | .null => "None"
  | .bool b => if b then "True" else "False"
  | .int i => intText i
  | .float x => NumberLayout.plain.write x
  | .text s => textForm s
  | .date d => d.display
  | .moment m => m.display " "
  | .bytes data => bytesText data

def display (s : Scalar) : String := s.displayWith id

/-- An integer with too many digits has no text. -/
def hasText : Scalar → Bool
  | .int i => (decimalDigits i.natAbs).length ≤ digitLimit
  | _ => true

theorem length_decimalDigits_le_iff {n k : Nat} (hk : 0 < k) :
    (decimalDigits n).length ≤ k ↔ n < Nat.pow 10 k :=
  Nat.length_toDigits_le_iff (by decide) hk

theorem hasText_int_iff {i : Int} :
    (Scalar.int i).hasText ↔ i.natAbs < Nat.pow 10 digitLimit := by
  rw [hasText, decide_eq_true_iff, length_decimalDigits_le_iff (by decide)]

/-- The calendar forms that stand inside collections name their parts. -/
def quotedDisplay : Scalar → String
  | .date d =>
    "datetime.date(" ++ ", ".intercalate ([d.year, d.month, d.day].map Nat.repr) ++ ")"
  | .moment m =>
    let seconds := if m.second = 0 && m.microsecond = 0 then [] else [m.second]
    let fraction := if m.microsecond = 0 then [] else [m.microsecond]
    let zone := match m.offset with
      | none => []
      | some 0 => ["tzinfo=datetime.timezone.utc"]
      | some o =>
        let amount := if o < 0 then
            "days=-1, seconds=" ++ Nat.repr (86400 - o.natAbs * 60)
          else "seconds=" ++ Nat.repr (o.natAbs * 60)
        ["tzinfo=datetime.timezone(datetime.timedelta(" ++ amount ++ "))"]
    "datetime.datetime(" ++ ", ".intercalate (([m.date.year, m.date.month, m.date.day, m.hour,
      m.minute] ++ seconds ++ fraction).map Nat.repr ++ zone) ++ ")"
  | s => s.displayWith Text.quoted

end Scalar

namespace Value

mutual

/-- A value inside a collection. -/
def quotedDisplay : Value → String
  | .scalar s => s.quotedDisplay
  | .list vs => "[" ++ ", ".intercalate (quotedItems vs) ++ "]"
  | .map es => "\x7b" ++ ", ".intercalate (quotedEntries es) ++ "\x7d"

def quotedItems : List Value → List String
  | [] => []
  | v :: vs => v.quotedDisplay :: quotedItems vs

def quotedEntries : List (Scalar × Value) → List String
  | [] => []
  | (k, v) :: es => (k.quotedDisplay ++ ": " ++ v.quotedDisplay) :: quotedEntries es

end

/-- A value on its own. -/
def display : Value → String
  | .scalar s => s.display
  | v => v.quotedDisplay

/-- The value can be displayed: each of its scalars has a text. -/
def hasText (v : Value) : Bool := v.scalars.all Scalar.hasText

@[simp] theorem hasText_scalar (s : Scalar) : (Value.scalar s).hasText = s.hasText := by
  simp [hasText, scalars]

theorem hasText_int {i : Int} (h : (decimalDigits i.natAbs).length ≤ digitLimit) :
    (Value.int i).hasText := by
  rw [hasText_scalar]
  exact decide_eq_true h

end Value

end Crosswalk
