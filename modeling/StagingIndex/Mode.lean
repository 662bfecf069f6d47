import StagingIndex.Numeral

/-! # Entry modes

What kind of thing a name in a tree or an entry of the table stands for.

* `Mode.bits`, `Mode.ofBits?` — the number that stands for a mode in trees and files
* `Mode.ofBits?_bits` — every mode is read back from its number -/

namespace StagingIndex

/-- The kind of thing recorded under a name. -/
inductive Mode where
  | regular
  | executable
  | symlink
  /-- A commit of a nested repository. -/
  | gitlink
  /-- A subtree. -/
  | directory
deriving DecidableEq, Repr

namespace Mode

/-- The number of a mode. -/
def bits : Mode → UInt32
  | regular => 0o100644
  | executable => 0o100755
  | symlink => 0o120000
  | gitlink => 0o160000
  | directory => 0o40000

/-- The mode of a number. Regular files have a second number, written by very old tools. -/
def ofBits? (bits : UInt32) : Option Mode :=
  if bits = 0o100644 ∨ bits = 0o100664 then some regular
  else if bits = 0o100755 then some executable
  else if bits = 0o120000 then some symlink
  else if bits = 0o160000 then some gitlink
  else if bits = 0o40000 then some directory
  else none

@[simp] theorem ofBits?_bits (m : Mode) : ofBits? m.bits = some m := by
  cases m <;> decide

/-- The octal numeral of a number, as characters. -/
def octal (bits : UInt32) : String :=
  String.ofList ((Numeral.digits 8 bits.toNat).map fun b => Char.ofNat b.toNat)

/-- The mode as six octal digits. -/
def text (m : Mode) : String := if m = directory then "0" ++ octal m.bits else octal m.bits

end Mode

end StagingIndex
