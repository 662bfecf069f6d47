import StagingIndex.Numeral
import StagingIndex.Sha256
import StagingIndex.Text.Quoted

/-! # Object names

Every stored object is named by the digest of its content together with its kind, so equal names
mean equal content. A name is thirty-two bytes, shown in base sixteen and ordered byte by byte.

* `ObjectId.ofBytes`, `ObjectId.ofHex` — names from raw bytes and from digits
* `ObjectId.ofContent` — the name of a content of some kind
* `IdError` — why bytes or digits are no name -/

namespace StagingIndex

/-- The name of a stored object. -/
structure ObjectId where
  bytes : Bytes
  length_bytes : bytes.length = 32
deriving DecidableEq

/-- Why a text of digits does not stand for bytes. -/
inductive HexError where
  | oddLength
  | badDigit (digit : UInt8) (position : Nat)
deriving DecidableEq, Repr

/-- Why something is not an object name. -/
inductive IdError where
  | hex (reason : HexError)
  | length (actual : Nat)
deriving DecidableEq, Repr

/-- The wording of a digit error. -/
def HexError.message : HexError → String
  | .oddLength => "Odd number of digits"
  | .badDigit digit position =>
    s!"Invalid character {Text.quotedLatin digit} at position {position}"

/-- The wording of a name error. -/
def IdError.message : IdError → String
  | .hex reason => "invalid hex string: " ++ reason.message
  | .length actual => s!"invalid byte length: expected 32, got {actual}"

namespace Numeral

/-- Read pairs of digits, the first of which stands at `position`. -/
def hexPairs (position : Nat) : Bytes → Except HexError Bytes
  | [] => .ok []
  | [_] => .error .oddLength
  | a :: b :: s =>
    match hexValue? a, hexValue? b with
    | none, _ => .error (.badDigit a position)
    | some _, none => .error (.badDigit b (position + 1))
    | some m, some n => (hexPairs (position + 2) s).map (UInt8.ofNat (m * 16 + n) :: ·)

/-- The bytes that pairs of digits in base sixteen stand for, in either case. A text of odd length
is refused before its digits are looked at. -/
def ofHex (s : Bytes) : Except HexError Bytes :=
  if s.length % 2 = 1 then .error .oddLength else hexPairs 0 s

end Numeral

namespace ObjectId

/-- A name from raw bytes: there must be thirty-two of them. -/
def ofBytes (s : Bytes) : Except IdError ObjectId :=
  if h : s.length = 32 then .ok ⟨s, h⟩ else .error (.length s.length)

/-- A name from digits in base sixteen. -/
def ofHex (s : Bytes) : Except IdError ObjectId :=
  match Numeral.ofHex s with
  | .error e => .error (.hex e)
  | .ok bytes => ofBytes bytes

/-- The plain digest of some bytes, as a name. -/
def ofDigest (s : Bytes) : ObjectId := ⟨Sha256.digest s, Sha256.length_digest s⟩

/-- The name of a content of a kind: the digest of the kind, the length in decimal, a zero byte and
the content. -/
def ofContent (kind : String) (data : Bytes) : ObjectId :=
  ofDigest (Bytes.ofString kind ++ Bytes.space :: Numeral.digits 10 data.length ++
    Bytes.nul :: data)

/-- The name made of thirty-two equal bytes. -/
def filled (b : UInt8) : ObjectId := ⟨List.replicate 32 b, by simp⟩

/-- The name that stands for no object: all bytes are zero. -/
def null : ObjectId := filled 0

/-- Whether a name is the one that stands for no object. -/
def isNull (id : ObjectId) : Bool := id.bytes.all (· = 0)

/-- The name in base sixteen. -/
def toHex (id : ObjectId) : String := Numeral.hex id.bytes

/-- The first four bytes of the name in base sixteen. -/
def short (id : ObjectId) : String := Numeral.hex (id.bytes.take 4)

/-- The name as diagnostics show it. -/
def describe (id : ObjectId) : String := s!"ObjectId(\"{id.short}\")"

instance : Ord ObjectId := ⟨fun a b => compare a.bytes b.bytes⟩

@[simp] theorem ofBytes_bytes (id : ObjectId) : ofBytes id.bytes = .ok id := by
  simp [ofBytes, id.length_bytes]

/-- Names with the same bytes are the same. -/
theorem eq_of_bytes {a b : ObjectId} (h : a.bytes = b.bytes) : a = b := by
  cases a; cases b; simp_all

/-- One name has zeros only. -/
@[simp] theorem isNull_iff {id : ObjectId} : id.isNull = true ↔ id = null := by
  constructor
  · intro h
    refine eq_of_bytes (List.eq_replicate_iff.2 ⟨id.length_bytes, fun b hb => ?_⟩)
    exact of_decide_eq_true (List.all_eq_true.1 h b hb)
  · rintro rfl
    decide

end ObjectId

end StagingIndex
