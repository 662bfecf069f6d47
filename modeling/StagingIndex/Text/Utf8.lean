import StagingIndex.Bytes

/-! # Reading bytes as text

A byte string need not be UTF-8. It is cut into characters and invalid pieces, where an invalid
piece is the longest beginning of some encoded character that the bytes still agree with, and a
single byte where there is none.

* `Utf8.pieces` — the cut
* `Utf8.text?` — the text, if every piece is a character
* `Utf8.lossy` — the text with a replacement character for every invalid piece -/

namespace StagingIndex

namespace Utf8

/-- One step of reading: a character, or bytes that are part of none. -/
inductive Piece where
  | char (c : Char)
  | invalid (bytes : Bytes)
deriving DecidableEq, Repr

/-- Bytes from `lo` to `hi`. -/
def inRange (lo hi b : UInt8) : Bool := lo ≤ b && b ≤ hi

/-- Bytes that continue a character. -/
def isContinuation (b : UInt8) : Bool := inRange 0x80 0xbf b

/-- What a first byte announces: the payload of its own bits, the range of the second byte, and how
many bytes follow. -/
structure Lead where
  payload : Nat
  secondLow : UInt8
  secondHigh : UInt8
  following : Nat

/-- The announcement made by a first byte above the ASCII range. Overlong forms, surrogates and
numbers past the last code point are ruled out by the range of the second byte. -/
def lead? (b : UInt8) : Option Lead :=
  if inRange 0xc2 0xdf b then some ⟨b.toNat - 0xc0, 0x80, 0xbf, 1⟩
  else if b = 0xe0 then some ⟨0x0, 0xa0, 0xbf, 2⟩
  else if b = 0xed then some ⟨0xd, 0x80, 0x9f, 2⟩
  else if inRange 0xe1 0xef b then some ⟨b.toNat - 0xe0, 0x80, 0xbf, 2⟩
  else if b = 0xf0 then some ⟨0x0, 0x90, 0xbf, 3⟩
  else if b = 0xf4 then some ⟨0x4, 0x80, 0x8f, 3⟩
  else if inRange 0xf1 0xf3 b then some ⟨b.toNat - 0xf0, 0x80, 0xbf, 3⟩
  else none

/-- Read `n` continuation bytes: the number extended by their payloads, or the bytes that did
fit. -/
def continuation (value : Nat) : Nat → Bytes → Except Bytes Nat
  | 0, _ => .ok value
  | n + 1, b :: s =>
    if isContinuation b then
      match continuation (value * 64 + (b.toNat - 0x80)) n s with
      | .ok v => .ok v
      | .error fit => .error (b :: fit)
    else .error []
  | _ + 1, [] => .error []

/-- The piece that starts with byte `b`, and how many of the bytes after it belong to it. -/
def piece (b : UInt8) (s : Bytes) : Piece × Nat :=
  if b < 0x80 then (.char (Char.ofNat b.toNat), 0)
  else match lead? b with
    | none => (.invalid [b], 0)
    | some l =>
      match s with
      | [] => (.invalid [b], 0)
      | c :: s =>
        if inRange l.secondLow l.secondHigh c then
          match continuation (l.payload * 64 + (c.toNat - 0x80)) (l.following - 1) s with
          | .ok v => (.char (Char.ofNat v), l.following)
          | .error fit => (.invalid (b :: c :: fit), fit.length + 1)
        else (.invalid [b], 0)

/-- The cut of a byte string into characters and invalid pieces. -/
def pieces : Bytes → List Piece
  | [] => []
  | b :: s => (piece b s).1 :: pieces (s.drop (piece b s).2)
termination_by s => s.length
decreasing_by
  simp only [List.length_drop, List.length_cons]
  omega

/-- The character of a piece that is one. -/
def Piece.char? : Piece → Option Char
  | .char c => some c
  | .invalid _ => none

/-- The text that the bytes encode, if they are UTF-8 throughout. -/
def text? (s : Bytes) : Option String := ((pieces s).mapM Piece.char?).map String.ofList

/-- The character that stands for bytes that are no text. -/
def replacement : Char := '\uFFFD'

/-- The text of the bytes, with one replacement character for every invalid piece. -/
def lossy (s : Bytes) : String :=
  String.ofList ((pieces s).map fun p => p.char?.getD replacement)

end Utf8

end StagingIndex
