import StagingIndex.Toml.Scalar

/-! # The text of settings

Lines of keys with values, and headers of tables.

* `Toml.key` — dotted keys
* `Toml.value` — values, nested to a limited depth
* `Toml.line` — lines
* `Toml.parse?` — the table of a whole text -/

namespace StagingIndex

namespace Toml

open Scan

/-! ## Keys -/

/-- The number of names in a key, and of values within one another, that is too large. -/
def nestingLimit : Nat := 80

/-- Characters of names that need no quotes. -/
def isBare (c : Char) : Bool := c.isAlphanum || c = '_' || c = '-'

/-- One name of a key. -/
def simpleKey : Scan String :=
  basicText <|> literalText <|> String.ofList <$> that (span isBare) fun cs => !cs.isEmpty

/-- Names with dots between them. -/
def key : Scan (List String) :=
  that (separated (blank *> simpleKey <* blank) (literal ".")) fun names =>
    names.length < nestingLimit

/-! ## Values -/

/-- A comment. -/
def comment : Scan Unit := do
  literal "#"
  let _ ← span isPlain

/-- Blanks, line ends and comments, as they may stand within an array. -/
def arraySpace : Scan Unit := do
  let _ ← many ((do let _ ← one fun c => c = ' ' || c = '\t') <|> (optional comment *> newline))

/-- An array. A comma may follow its last item. -/
def array (item : Scan Value) : Scan Value := do
  literal "["
  let items ← optional
    (separated (arraySpace *> item <* arraySpace) (literal ",") <* optional (literal ","))
  arraySpace
  literal "]"
  return .array (items.getD [])

/-- A key with its value. -/
def pair (item : Scan Value) : Scan (List String × Value) := do
  let names ← key
  literal "="
  blank
  return (names, ← item)

/-- A table between braces. -/
def inlineTable (item : Scan Value) : Scan Value := do
  literal "\x7b"
  let pairs ← optional (separated (pair item <* blank) (literal ","))
  blank
  literal "\x7d"
  match ofPairs? (pairs.getD []) with
  | some v => return v
  | none => failure

/-- A value in which arrays and tables are nested to at most the given depth. -/
def value : Nat → Scan Value
  | 0 => scalar
  | depth + 1 => scalar <|> array (value depth) <|> inlineTable (value depth)

/-! ## Lines -/

/-- The end of a line or of the text. -/
def lineEnd : Scan Unit := newline <|> done

/-- What a line says. -/
def statement : Scan Statement :=
  (do literal "[["; let names ← key; literal "]]"; return .appends names) <|>
    (do literal "["; let names ← key; literal "]"; return .opens names) <|>
    (do let (names, v) ← pair (value (nestingLimit - 1)); return .assign names v)

/-- A line, which may say nothing. -/
def line : Scan (Option Statement) := do
  blank
  (do newline; return none) <|>
    (do comment; lineEnd; return none) <|>
    (do
      let said ← statement
      blank
      let _ ← optional comment
      lineEnd
      return some said)

/-- All lines of a text, which may start with a byte order mark. -/
def lines : Scan (List (Option Statement)) := do
  let _ ← optional (literal "\ufeff")
  let said ← many line
  blank
  done
  return said

/-- The table of a text. -/
def parse? (text : String) : Option Entries := do
  let (said, _) ← lines.run text.toList
  build? (said.filterMap id)

end Toml

end StagingIndex
