import StagingIndex.Settings
import StagingIndex.Toml.Grammar

/-! # Settings from text

The settings of an index, read from the text of a settings file. Names that are not known are
skipped, and what is not given has its standard value.

* `Settings.ofText?` — the settings of a text -/

namespace StagingIndex

namespace Toml

/-- Whether a value is an array or a table without anything in it. -/
def Value.isHollow : Value → Bool
  | array items => items.isEmpty
  | table _ entries => entries.isEmpty
  | tables rows => rows.isEmpty
  | _ => false

/-- The name of a choice: a text, or the only name in a table that has nothing more to say. -/
def Value.choice? : Value → Option String
  | text s => some s
  | table _ [(name, v)] => if v.isHollow then some name else none
  | _ => none

/-- The version that a value asks for. -/
def Value.version? : Value → Option Version
  | integer (.ofNat n) =>
    if n < UInt32.size then (Version.ofWord (UInt32.ofNat n)).toOption else none
  | _ => none

/-- The policy that a value names. -/
def Value.duplicatePolicy? (v : Value) : Option DuplicatePolicy :=
  v.choice?.bind fun s => [.reject, .lastWins].find? fun p => DuplicatePolicy.name p = s

/-- The way to flush that a value names. -/
def Value.syncMode? (v : Value) : Option SyncMode :=
  v.choice?.bind fun s => [.osDefault, .everyWrite].find? fun m => SyncMode.name m = s

/-- Read the value of a name, if it is given. -/
def readOr {α : Type} (read? : Value → Option α) (standard : α) (name : String) (es : Entries) :
    Option α :=
  match es.lookup name with
  | some v => read? v
  | none => some standard

end Toml

/-- The settings of a text. -/
def Settings.ofText? (text : String) : Option Settings := do
  let es ← Toml.parse? text
  return ⟨← Toml.readOr Toml.Value.version? standard.version "version" es,
    ← Toml.readOr Toml.Value.duplicatePolicy? standard.duplicatePolicy "duplicate_policy" es,
    ← Toml.readOr Toml.Value.syncMode? standard.syncMode "sync_mode" es⟩

end StagingIndex
