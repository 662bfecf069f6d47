import StagingIndex.Numeral
import StagingIndex.Toml.Scan
import StagingIndex.Toml.Value

/-! # Simple values of settings

How texts, numbers, truth values and times are written.

* `Toml.basicText`, `Toml.literalText` — texts on one line, also used as keys
* `Toml.longBasicText`, `Toml.longLiteralText` — texts over several lines
* `Toml.integer`, `Toml.float` — numbers
* `Toml.date`, `Toml.clockTime`, `Toml.dateTime` — times -/

namespace StagingIndex

namespace Toml

open Scan

/-! ## Characters -/

/-- Spaces and tabs. -/
def blank : Scan Unit := do let _ ← span fun c => c = ' ' || c = '\t'

/-- The end of a line that is followed by another one. -/
def newline : Scan Unit := literal "\n" <|> literal "\r\n"

/-- Characters that may stand in a line as they are: no control characters but the tab. -/
def isPlain (c : Char) : Bool := c = '\t' || (' ' ≤ c && c ≠ '\x7f')

/-- The value of a character as a digit. -/
def digitValue? (base : Nat) (c : Char) : Option Nat :=
  if c.toNat < 128 then (Numeral.hexValue? (UInt8.ofNat c.toNat)).filter (· < base) else none

/-- The digits of a base. -/
def isDigit (base : Nat) (c : Char) : Bool := (digitValue? base c).isSome

/-- The number that digits stand for. -/
def number (base : Nat) (digits : List Char) : Nat :=
  digits.foldl (fun n c => n * base + (digitValue? base c).getD 0) 0

/-- A given number of digits. -/
def digits (base : Nat) : Nat → Scan (List Char)
  | 0 => return []
  | n + 1 => return (← one (isDigit base)) :: (← digits base n)

/-! ## Texts -/

/-- What a letter after a backslash stands for. -/
def escapes : List (Char × Char) :=
  [('b', '\x08'), ('t', '\t'), ('n', '\n'), ('f', '\x0c'), ('r', '\r'), ('"', '"'), ('\\', '\\')]

/-- The character of a code point in base sixteen. -/
def codePoint (length : Nat) : Scan Char := do
  let n ← that (number 16 <$> digits 16 length) fun n => decide n.isValidChar
  return Char.ofNat n

/-- A character written with a backslash. -/
def escaped : Scan Char := do
  literal "\\"
  let c ← one fun _ => true
  match escapes.lookup c with
  | some e => return e
  | none => if c = 'u' then codePoint 4 else if c = 'U' then codePoint 8 else failure

/-- A text in double quotes. -/
def basicText : Scan String := do
  literal "\""
  let cs ← many (one (fun c => isPlain c && c ≠ '"' && c ≠ '\\') <|> escaped)
  literal "\""
  return String.ofList cs

/-- A text in single quotes, in which nothing is escaped. -/
def literalText : Scan String := do
  literal "'"
  let cs ← many (one fun c => isPlain c && c ≠ '\'')
  literal "'"
  return String.ofList cs

/-- A line end as part of a text. -/
def lineInText : Scan (List Char) := do
  newline
  return ['\n']

/-- One or two quotes as part of a text. -/
def quotesInText (quote : Char) : Scan (List Char) :=
  that (span (· = quote)) fun qs => qs.length = 1 || qs.length = 2

/-- The three quotes that end a text. Up to two more before them belong to the text. -/
def closing (quote : Char) : Scan (List Char) := do
  let qs ← that (span (· = quote)) fun qs => 3 ≤ qs.length && qs.length ≤ 5
  return qs.drop 3

/-- A text between three quotes on either side. A line end right after the first three does not
count. -/
def longText (quote : Char) (part : Scan (List Char)) : Scan String := do
  literal (String.ofList [quote, quote, quote])
  let _ ← optional newline
  let parts ← many (part <|> lineInText <|> quotesInText quote)
  let last ← closing quote
  return String.ofList (parts.flatten ++ last)

/-- A backslash at the end of a line, with all blanks and line ends after it. -/
def joinedLines : Scan (List Char) := do
  literal "\\"
  blank
  newline
  let _ ← many (newline <|> do let _ ← one fun c => c = ' ' || c = '\t')
  return []

/-- A text between three double quotes. -/
def longBasicText : Scan String :=
  longText '"' <|
    (do return [← one fun c => isPlain c && c ≠ '"' && c ≠ '\\']) <|> joinedLines <|>
      (do return [← escaped])

/-- A text between three single quotes. -/
def longLiteralText : Scan String :=
  longText '\'' do return [← one fun c => isPlain c && c ≠ '\'']

/-! ## Numbers -/

/-- A sign; whether it is a minus. -/
def sign : Scan Bool := do
  let c ← optional (one fun c => c = '+' || c = '-')
  return c = some '-'

/-- Digits, with single underscores between them allowed. -/
def grouped (base : Nat) : Scan (List Char) :=
  return (← one (isDigit base)) ::
    (← many (one (isDigit base) <|> (literal "_" *> one (isDigit base))))

/-- Decimal digits that do not start with a zero, unless there is only that. -/
def whole : Scan (List Char) :=
  that (grouped 10) fun ds => ds.head? ≠ some '0' || ds.length = 1

/-- An integer without a sign in a base other than ten, after the mark of the base. -/
def marked (mark : String) (base : Nat) : Scan Int := do
  literal mark
  return number base (← grouped base)

/-- A decimal integer. -/
def decimal : Scan Int := do
  let negative ← sign
  let n := number 10 (← whole)
  return if negative then -(n : Int) else n

/-- An integer of 64 bits. -/
def integer : Scan Int :=
  that (marked "0x" 16 <|> marked "0o" 8 <|> marked "0b" 2 <|> decimal)
    fun n => -0x8000000000000000 ≤ n && n < 0x8000000000000000

/-- The least number that is rounded to infinity in the binary format of 64 bits. -/
def infinityBound : Nat := Nat.pow 2 1024 - Nat.pow 2 970

/-- Whether the number of some digits, shifted by a power of ten, is rounded to infinity. Powers so
high or so low that the digits do not matter are not computed. -/
def overflows (digits : List Char) (power : Int) : Bool :=
  let n := number 10 digits
  if n = 0 then false
  else if 0 ≤ power then 400 ≤ power || infinityBound ≤ n * Nat.pow 10 power.toNat
  else power.natAbs < digits.length && infinityBound * Nat.pow 10 power.natAbs ≤ n

/-- The digits after the point. -/
def fraction : Scan (List Char) := literal "." *> grouped 10

/-- The power of ten. -/
def power : Scan Int := do
  let _ ← one fun c => c = 'e' || c = 'E'
  let negative ← sign
  let n := number 10 (← grouped 10)
  return if negative then -(n : Int) else n

/-- The digits after the point and the power of ten; at least one of them must be there. -/
def floatTail : Scan (List Char × Int) :=
  (do return ([], ← power)) <|> (do return (← fraction, (← optional power).getD 0))

/-- A floating-point number, which must not be too large. -/
def float : Scan Unit := do
  let negative ← sign
  (literal "inf" <|> literal "nan") <|> do
    let ds ← whole
    let (more, p) ← floatTail
    guard (negative || !overflows (ds ++ more) (p - more.length))

/-! ## Times -/

/-- A number of two digits in a range. -/
def twoDigits (least greatest : Nat) : Scan Nat :=
  that (number 10 <$> digits 10 2) fun n => least ≤ n && n ≤ greatest

/-- How many days a month has. -/
def daysIn (year month : Nat) : Nat :=
  if month = 2 then
    if year % 4 = 0 ∧ (year % 100 ≠ 0 ∨ year % 400 = 0) then 29 else 28
  else if month = 4 ∨ month = 6 ∨ month = 9 ∨ month = 11 then 30
  else 31

/-- A day of the calendar. -/
def date : Scan Unit := do
  let year ← number 10 <$> digits 10 4
  literal "-"
  let month ← twoDigits 1 12
  literal "-"
  let _ ← twoDigits 1 (daysIn year month)

/-- A time of the day. A minute may have a leap second. -/
def clockTime : Scan Unit := do
  let _ ← twoDigits 0 23
  literal ":"
  let _ ← twoDigits 0 59
  literal ":"
  let _ ← twoDigits 0 60
  let _ ← optional (literal "." *> one (isDigit 10) *> span (isDigit 10))

/-- The distance from universal time. -/
def offset : Scan Unit :=
  (do let _ ← one fun c => c = 'Z' || c = 'z') <|> do
    let _ ← one fun c => c = '+' || c = '-'
    let _ ← twoDigits 0 23
    literal ":"
    let _ ← twoDigits 0 59

/-- A day, a time of the day, or both, then perhaps with an offset. -/
def dateTime : Scan Unit :=
  (do
    date
    let _ ← optional do
      let _ ← one fun c => c = 'T' || c = 't' || c = ' '
      clockTime
      optional offset) <|>
    clockTime

/-! ## All of them -/

/-- A value without parts. -/
def scalar : Scan Value :=
  (Value.text <$> (longBasicText <|> basicText <|> longLiteralText <|> literalText)) <|>
    (do literal "true"; return .bool true) <|>
    (do literal "false"; return .bool false) <|>
    (do dateTime; return .time) <|>
    (do float; return .float) <|>
    (Value.integer <$> integer)

end Toml

end StagingIndex
