import StagingIndex.Bytes

/-! # Tables of settings

The values that a settings text can hold, and the rules by which its lines build one table. A table
may be opened only once, by a header, by dotted keys, or as a whole between braces, though headers
may pass through tables that other headers have implied.

* `Toml.Value` — values
* `Toml.assign?` — put a value at dotted names
* `Toml.openTable?`, `Toml.appendTable?` — what headers do
* `Toml.within?` — change the table that names lead to
* `Toml.Statement.apply?` — build the table line by line -/

namespace StagingIndex

namespace Toml

/-- How a table came to be. -/
inductive Origin where
  /-- It has a header of its own. -/
  | header
  /-- It was implied by the header of a table below it. -/
  | implied
  /-- It was made by dotted names. -/
  | dotted
  /-- It was given between braces, and is complete. -/
  | inline
deriving DecidableEq, Repr

/-- The values of settings. Of floating-point numbers and of times nothing is kept. -/
inductive Value where
  | text (content : String)
  | integer (number : Int)
  | bool (value : Bool)
  | float
  | time
  | array (items : List Value)
  | table (origin : Origin) (entries : List (String × Value))
  /-- Tables of one name, each with a header of its own. -/
  | tables (rows : List (List (String × Value)))

/-- The entries of a table, in the order in which they were added. -/
abbrev Entries : Type := List (String × Value)

/-- Put another value in the place of that of a name. -/
def update (name : String) (v : Value) (es : Entries) : Entries :=
  es.map fun e => if e.1 = name then (name, v) else e

/-- Put a value under a name that is not taken. -/
def put? (name : String) (v : Value) (es : Entries) : Option Entries :=
  if (es.lookup name).isSome then none else some (es ++ [(name, v)])

/-- Change the last of some tables. -/
def changeLast? (f : Entries → Option Entries) : List Entries → Option (List Entries)
  | [] => none
  | [es] => (f es).map fun es => [es]
  | es :: more => (changeLast? f more).map (es :: ·)

/-! ## Dotted names -/

/-- Put a value at names below a table of the given origin. Missing tables on the way are made; the
last table must be one that dotted names have made. -/
def putBelow? (v : Value) : List String → Origin → Entries → Option Entries
  | [], _, _ => none
  | [name], origin, es => if origin = .dotted then put? name v es else none
  | name :: names, _, es =>
    match es.lookup name with
    | none => (putBelow? v names .dotted []).map fun sub => es ++ [(name, .table .dotted sub)]
    | some (.table origin sub) =>
      if origin = .dotted ∨ origin = .implied then
        (putBelow? v names origin sub).map fun sub => update name (.table origin sub) es
      else none
    | some (.tables rows) =>
      (changeLast? (putBelow? v names .header) rows).map fun rows => update name (.tables rows) es
    | some _ => none

/-- Put a value at the names of a dotted key. -/
def assign? (names : List String) (v : Value) (es : Entries) : Option Entries :=
  match names with
  | [name] => put? name v es
  | names => putBelow? v names .header es

/-! ## Headers -/

/-- Change the table that names lead to. Missing tables on the way are implied. -/
def within? (f : Entries → Option Entries) : List String → Entries → Option Entries
  | [], es => f es
  | name :: names, es =>
    match es.lookup name with
    | none => (within? f names []).map fun sub => es ++ [(name, .table .implied sub)]
    | some (.table origin sub) =>
      if origin = .inline then none
      else (within? f names sub).map fun sub => update name (.table origin sub) es
    | some (.tables rows) =>
      (changeLast? (within? f names) rows).map fun rows => update name (.tables rows) es
    | some _ => none

/-- Open a table by its header; it must be new, or have been implied only. -/
def openTable? (name : String) (es : Entries) : Option Entries :=
  match es.lookup name with
  | none => some (es ++ [(name, .table .header [])])
  | some (.table .implied sub) => some (update name (.table .header sub) es)
  | some _ => none

/-- Add one more table of a name. -/
def appendTable? (name : String) (es : Entries) : Option Entries :=
  match es.lookup name with
  | none => some (es ++ [(name, .tables [[]])])
  | some (.tables rows) => some (update name (.tables (rows ++ [[]])) es)
  | some _ => none

/-! ## Lines -/

/-- What a line says. -/
inductive Statement where
  /-- The value of a key in the current table. -/
  | assign (names : List String) (v : Value)
  /-- A table, which is the current one from here on. -/
  | opens (names : List String)
  /-- One more table of a name, which is the current one from here on. -/
  | appends (names : List String)

/-- A table in the making, with the names that lead to the current one. -/
structure Draft where
  current : List String
  root : Entries

/-- Apply `f` to the last of some names in the table that the others lead to. -/
def atLast? (f : String → Entries → Option Entries) (names : List String) (root : Entries) :
    Option Entries := do
  within? (f (← names.getLast?)) names.dropLast root

/-- Take a line into account. -/
def Statement.apply? (d : Draft) : Statement → Option Draft
  | assign names v => (within? (assign? names v) d.current d.root).map fun root => { d with root }
  | opens names => (atLast? openTable? names d.root).map fun root => ⟨names, root⟩
  | appends names => (atLast? appendTable? names d.root).map fun root => ⟨names, root⟩

/-- The table that lines build. -/
def build? (statements : List Statement) : Option Entries :=
  (statements.foldlM Statement.apply? ⟨[], []⟩).map Draft.root

/-- The table of pairs between braces. -/
def ofPairs? (pairs : List (List String × Value)) : Option Value :=
  (pairs.foldlM (fun es (names, v) => assign? names v es) []).map (Value.table .inline)

end Toml

end StagingIndex
