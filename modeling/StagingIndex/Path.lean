import StagingIndex.Bytes

/-! # Paths

A path names a file below the working tree: components between slashes, in raw bytes. What cannot
be stored as a tree, or must not be written into a working tree, is no path.

* `Path.fault?` — what is wrong with a byte string as a path, if anything
* `Path.IsValid` — byte strings that are paths -/

namespace StagingIndex

/-- Why a byte string is not a path. -/
inductive PathFault where
  | empty
  | containsNul
  | outerSlash
  | emptyComponent
  | relativeComponent
  | reservedComponent
deriving DecidableEq, Repr

/-- The wording of a fault. -/
def PathFault.message : PathFault → String
  | .empty => "empty path"
  | .containsNul => "contains NUL"
  | .outerSlash => "leading or trailing slash"
  | .emptyComponent => "empty component"
  | .relativeComponent => "relative component"
  | .reservedComponent => "reserved component"

namespace Path

/-- The lower-case form of an ASCII letter; other bytes are unchanged. -/
def lowerCase (b : UInt8) : UInt8 := if 0x41 ≤ b ∧ b ≤ 0x5a then b + 0x20 else b

/-- The component `.git`, under which the repository itself lives. -/
def reserved : Bytes := [0x2e, 0x67, 0x69, 0x74]

/-- What is wrong with a component. The reserved one counts in any mix of upper and lower case. -/
def componentFault? (c : Bytes) : Option PathFault :=
  if c = [] then some .emptyComponent
  else if c = [0x2e] ∨ c = [0x2e, 0x2e] then some .relativeComponent
  else if c.map lowerCase = reserved then some .reservedComponent
  else none

/-- What is wrong with a path. The path as a whole is looked at first, then its components from the
left; the first fault counts. -/
def fault? (p : Bytes) : Option PathFault :=
  if p = [] then some .empty
  else if Bytes.nul ∈ p then some .containsNul
  else if p.head? = some Bytes.slash ∨ p.getLast? = some Bytes.slash then some .outerSlash
  else (Bytes.components p).findSome? componentFault?

/-- Byte strings that are paths. -/
def IsValid (p : Bytes) : Prop := fault? p = none

instance (p : Bytes) : Decidable (IsValid p) := inferInstanceAs (Decidable (fault? p = none))

end Path

end StagingIndex
