import StagingIndex.Bytes

/-! # Offset numbers

Numbers below 2^64 in groups of seven bits, the most significant group first. Every byte but the
last has its high bit set, and each continuation adds one, so that no number has two forms.

* `Varint.encode` — the form of a number
* `Varint.decode?` — the number at the start of some bytes, and what follows it -/

namespace StagingIndex

namespace Varint

/-- The bytes that go before the last one, for the number of the groups above it. -/
def continuation (n : Nat) : Bytes :=
  if n = 0 then []
  else continuation ((n - 1) / 128) ++ [UInt8.ofNat (128 + (n - 1) % 128)]
termination_by n
decreasing_by omega

/-- The form of a number. -/
def encode (n : Nat) : Bytes := continuation (n / 128) ++ [UInt8.ofNat (n % 128)]

/-- Read on, where `value` has been read and `b` is the byte that it ended with. -/
def decodeFrom (value : Nat) (b : UInt8) : Bytes → Option (Nat × Bytes)
  | [] => if b < 128 then some (value, []) else none
  | c :: s =>
    if b < 128 then some (value, c :: s)
    else
      let next := (value + 1) * 128 + c.toNat % 128
      if next < UInt64.size then decodeFrom next c s else none

/-- The number at the start of some bytes, and what follows it. There is none where the bytes end
within it, and none above 2^64. -/
def decode? : Bytes → Option (Nat × Bytes)
  | [] => none
  | b :: s => decodeFrom (b.toNat % 128) b s

end Varint

end StagingIndex
