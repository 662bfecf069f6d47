/-! # Scanning text

A scanner reads something from the front of a text and leaves the rest, or reads nothing at all.

* `Scan` — scanners; alternatives are tried in order, each on the same text
* `Scan.one`, `Scan.literal`, `Scan.span` — characters
* `Scan.many`, `Scan.separated` — repetition -/

namespace StagingIndex

/-- A way to read a value from the front of a text, which is moved on. -/
abbrev Scan (α : Type) : Type := StateT (List Char) Option α

namespace Scan

variable {α β : Type}

/-- One character of a class. -/
def one (p : Char → Bool) : Scan Char
  | c :: s => if p c then some (c, s) else none
  | [] => none

/-- A given text. -/
def literal (t : String) : Scan Unit := fun s => (t.toList.isPrefixOf? s).map fun rest => ((), rest)

/-- All characters of a class that there are. -/
def span (p : Char → Bool) : Scan (List Char) := fun s => some (s.takeWhile p, s.dropWhile p)

/-- The end of the text. -/
def done : Scan Unit := fun s => if s.isEmpty then some ((), []) else none

/-- Read as often as something is read, and give what is left. -/
def manyFrom (p : Scan α) (s : List Char) : List α × List Char :=
  match p s with
  | some (x, rest) =>
    if rest.length < s.length then
      let (xs, rest) := manyFrom p rest
      (x :: xs, rest)
    else ([], s)
  | none => ([], s)
termination_by s.length

/-- Something as often as it is there. -/
def many (p : Scan α) : Scan (List α) := fun s => some (manyFrom p s)

/-- Something at least once, with something between. -/
def separated (p : Scan α) (between : Scan β) : Scan (List α) := do
  let first ← p
  let more ← many (between *> p)
  return first :: more

/-- Something that has a property. -/
def that (p : Scan α) (holds : α → Bool) : Scan α := do
  let x ← p
  guard (holds x)
  return x

end Scan

end StagingIndex
