import StagingIndex.Bytes

/-! # Numerals

Numbers written with ASCII digits in a base of at most ten: tree modes are octal, counts decimal.

* `digits` — the numeral of a number, without leading zeros
* `ofDigits?` — the number of a non-empty string of digits, leading zeros allowed
* `unsigned?`, `signed?` — numerals that may carry a sign
* `hexValue?`, `hexDigits`, `hex` — base sixteen, for bytes and for code points -/

namespace StagingIndex

namespace Numeral

/-- The ASCII digit of a number below ten. -/
def digit (n : Nat) : UInt8 := UInt8.ofNat (0x30 + n)

/-- The numeral of `n` in a base, most significant digit first. -/
def digits (base n : Nat) : Bytes :=
  if 1 < base ∧ base ≤ n then digits base (n / base) ++ [digit (n % base)] else [digit n]
termination_by n
decreasing_by
  rename_i h
  exact Nat.div_lt_self (by omega) h.1

/-- The value of one digit in a base. -/
def digitValue? (base : Nat) (b : UInt8) : Option Nat :=
  if 0x30 ≤ b.toNat ∧ b.toNat < 0x30 + base then some (b.toNat - 0x30) else none

/-- Read further digits after a number already read. -/
def continue? (base : Nat) : Nat → Bytes → Option Nat
  | n, [] => some n
  | n, b :: s => (digitValue? base b).bind fun d => continue? base (n * base + d) s

/-- The number of a non-empty string of digits. -/
def ofDigits? (base : Nat) (s : Bytes) : Option Nat :=
  if s.isEmpty then none else continue? base 0 s

/-- A numeral below `bound` that may start with a plus sign. -/
def unsigned? (base bound : Nat) (s : Bytes) : Option Nat :=
  (ofDigits? base (if s.head? = some 0x2b then s.tail else s)).filter (· < bound)

/-- A numeral of 64 bits that may start with a plus or a minus sign. -/
def signed? (base : Nat) (s : Bytes) : Option Int :=
  if s.head? = some 0x2d then
    ((ofDigits? base s.tail).filter (· ≤ 0x8000000000000000)).map fun n => -(n : Int)
  else (unsigned? base (0x8000000000000000) s).map fun n => (n : Int)

/-! ## Base sixteen -/

/-- The lower-case digit of a number below sixteen. -/
def hexDigit (n : Nat) : Char := Char.ofNat (if n < 10 then 0x30 + n else 0x57 + n)

/-- The value of a digit in base sixteen, in either case. -/
def hexValue? (b : UInt8) : Option Nat :=
  let n := b.toNat
  if 0x30 ≤ n ∧ n ≤ 0x39 then some (n - 0x30)
  else if 0x61 ≤ n ∧ n ≤ 0x66 then some (n - 0x57)
  else if 0x41 ≤ n ∧ n ≤ 0x46 then some (n - 0x37)
  else none

/-- The lower-case base-sixteen numeral of a number. -/
def hexDigits (n : Nat) : List Char :=
  if 16 ≤ n then hexDigits (n / 16) ++ [hexDigit (n % 16)] else [hexDigit n]
termination_by n

/-- Two lower-case digits of base sixteen for a byte. -/
def hexByte (b : UInt8) : List Char := [hexDigit (b.toNat / 16), hexDigit (b.toNat % 16)]

/-- Two lower-case digits of base sixteen for every byte. -/
def hex (s : Bytes) : String := String.ofList (s.flatMap hexByte)

end Numeral

end StagingIndex
