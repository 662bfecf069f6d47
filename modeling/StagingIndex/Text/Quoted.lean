import StagingIndex.Numeral
import StagingIndex.Text.Printable
import StagingIndex.Text.Utf8

/-! # Quoted text

How byte strings and characters appear inside messages, so that what does not print stays legible.

* `Text.quoted` — a byte string between double quotes
* `Text.quotedText` — a text between double quotes
* `Text.quotedLatin` — one byte, taken as a character, between single quotes -/

namespace StagingIndex

namespace Text

/-- A code point as `\u` and its number in braces. -/
def codePoint (c : Char) : List Char :=
  ['\\', 'u', Char.ofNat 0x7b] ++ Numeral.hexDigits c.toNat ++ [Char.ofNat 0x7d]

/-- A byte as `\x` and two digits. -/
def byteEscape (b : UInt8) : List Char := '\\' :: 'x' :: Numeral.hexByte b

/-- The short escapes: the zero byte, tabs, line ends and the backslash. -/
def shortEscape? (c : Char) : Option (List Char) :=
  if c = '\x00' then some ['\\', '0']
  else if c = '\t' then some ['\\', 't']
  else if c = '\r' then some ['\\', 'r']
  else if c = '\n' then some ['\\', 'n']
  else if c = '\\' then some ['\\', '\\']
  else none

/-- A character within double quotes. Both kinds of quote are escaped; ASCII controls are shown as
bytes and other characters that do not print as code points. -/
def quotedChar (c : Char) : List Char :=
  match shortEscape? c with
  | some s => s
  | none =>
    if c = '"' ∨ c = '\'' then ['\\', c]
    else if c.toNat < 0x20 ∨ c.toNat = 0x7f then byteEscape (UInt8.ofNat c.toNat)
    else if isPrintable c then [c]
    else codePoint c

/-- A piece within double quotes: invalid bytes are shown one by one. -/
def quotedPiece : Utf8.Piece → List Char
  | .char c => quotedChar c
  | .invalid s => s.flatMap byteEscape

/-- A byte string between double quotes. -/
def quoted (s : Bytes) : String :=
  String.ofList ('"' :: (Utf8.pieces s).flatMap quotedPiece ++ ['"'])

/-- A character of a text between quotes. Of the two kinds of quote only the one around the text is
escaped, and all that does not print is shown as a code point. -/
def textChar (quote c : Char) : List Char :=
  match shortEscape? c with
  | some s => s
  | none => if c = quote then ['\\', c] else if isPrintable c then [c] else codePoint c

/-- A piece of a text within double quotes: invalid bytes are shown one by one. -/
def textPiece : Utf8.Piece → List Char
  | .char c => textChar '"' c
  | .invalid s => s.flatMap byteEscape

/-- A text between double quotes. -/
def quotedText (s : Bytes) : String :=
  String.ofList ('"' :: (Utf8.pieces s).flatMap textPiece ++ ['"'])

/-- The Latin-1 character of a byte between single quotes. -/
def quotedLatin (b : UInt8) : String :=
  String.ofList ('\'' :: textChar '\'' (Char.ofNat b.toNat) ++ ['\''])

end Text

end StagingIndex
