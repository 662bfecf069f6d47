import StagingIndex.Document.Basic
import StagingIndex.Settings
import StagingIndex.Status
import StagingIndex.Tree

/-! # Values in documents

For every kind of value that is kept in documents, how it is written and how it is read.

* `Codec` — a way to write values, with a way to read them
* `Codec.settle?` — read a value and write it in its own form
* `Codec.IsFaithful` — every value is read back from what is written for it
* `Codec.entry`, `Codec.tree`, `Codec.settings`, … — the codecs of the library's values -/

namespace StagingIndex

/-- How values are written into documents and read from them. -/
structure Codec (α : Type) where
  write : α → Document
  read? : Document → Option α

namespace Codec

/-- Every value is read back from what is written for it. -/
def IsFaithful {α : Type} (c : Codec α) : Prop := ∀ x, c.read? (c.write x) = some x

/-- Read a value from a document, and give the document that is written for it. -/
def settle? {α : Type} (c : Codec α) (d : Document) : Option Document := (c.read? d).map c.write

/-- What is written for a value is settled already, if values are read back. -/
theorem IsFaithful.settle?_write {α : Type} {c : Codec α} (h : c.IsFaithful) (x : α) :
    c.settle? (c.write x) = some (c.write x) := by
  simp [settle?, h x]

/-! ## Choices -/

/-- Values that are told apart by their names. -/
def ofNames {α : Type} (values : List α) (name : α → String) : Codec α where
  write x := .text (name x)
  read? d := d.choice?.bind fun s => values.find? fun x => name x = s

/-- Names are read back if all values are listed and no two have the same name. -/
theorem isFaithful_ofNames {α : Type} {values : List α} {name : α → String}
    (all : ∀ x, x ∈ values) (distinct : ∀ x y, name x = name y → x = y) :
    (ofNames values name).IsFaithful := by
  intro x
  simp only [ofNames, Document.choice?, Option.bind_some]
  cases h : values.find? fun y => name y = name x with
  | none => simpa using List.find?_eq_none.1 h x (all x)
  | some y =>
    have := List.find?_some h
    rw [distinct y x (by simpa using this)]

/-- Modes. -/
def mode : Codec Mode :=
  ofNames [.regular, .executable, .symlink, .gitlink, .directory] fun
    | .regular => "Regular"
    | .executable => "Executable"
    | .symlink => "Symlink"
    | .gitlink => "Gitlink"
    | .directory => "Directory"

/-- Kinds of objects. -/
def objectKind : Codec ObjectKind :=
  ofNames [.blob, .tree] fun
    | .blob => "Blob"
    | .tree => "Tree"

/-- Stages. -/
def stage : Codec Stage :=
  ofNames [.merged, .base, .ours, .theirs] fun
    | .merged => "Merged"
    | .base => "Base"
    | .ours => "Ours"
    | .theirs => "Theirs"

/-- Changes of files. -/
def fileChange : Codec FileChange :=
  ofNames [.modified, .typeChanged] fun
    | .modified => "Modified"
    | .typeChanged => "TypeChanged"

/-- Policies for equal keys. -/
def duplicatePolicy : Codec DuplicatePolicy :=
  ofNames [.reject, .lastWins] DuplicatePolicy.name

/-- Ways to flush. -/
def syncMode : Codec SyncMode := ofNames [.osDefault, .everyWrite] SyncMode.name

/-- Versions, each written as its number. -/
def version : Codec Version where
  write v := .ofWord v.toWord
  read? d := d.word?.bind fun n => (Version.ofWord n).toOption

/-! ## Structures -/

/-- Object ids, as their bytes. -/
def objectId : Codec ObjectId where
  write id := .ofBytes id.bytes
  read? d := d.byteList?.bind fun s => (ObjectId.ofBytes s).toOption

/-- The names of the fields of a point in time. -/
def timestampFields : List String := ["secs", "nanos"]

/-- Points in time. -/
def timestamp : Codec Timestamp where
  write t := .ofFields timestampFields [.ofWord t.seconds, .ofWord t.nanos]
  read? d :=
    match d.fields? timestampFields with
    | some [seconds, nanos] => do return ⟨← seconds.word?, ← nanos.word?⟩
    | _ => none

/-- The names of the marks of an entry. -/
def flagNames : List String := ["assume_valid", "skip_worktree", "intent_to_add"]

/-- Marks of entries. -/
def flags : Codec EntryFlags where
  write f := .ofFields flagNames [.bool f.assumeValid, .bool f.skipWorktree, .bool f.intentToAdd]
  read? d :=
    match d.fields? flagNames with
    | some [assumeValid, skipWorktree, intentToAdd] => do
      return ⟨← assumeValid.bool?, ← skipWorktree.bool?, ← intentToAdd.bool?⟩
    | _ => none

/-- The bytes of a file, wrapped into a structure of their own. -/
def blob : Codec Bytes where
  write data := .ofFields ["data"] [.ofBytes data]
  read? d :=
    match d.fields? ["data"] with
    | some [data] => data.byteList?
    | _ => none

/-- The names of the fields of an item of a listing. -/
def treeItemFields : List String := ["mode", "name", "object_id"]

/-- Items of a listing. -/
def treeItem : Codec TreeItem where
  write t := .ofFields treeItemFields [mode.write t.mode, .ofBytes t.name, objectId.write t.id]
  read? d :=
    match d.fields? treeItemFields with
    | some [m, name, id] => do return ⟨← mode.read? m, ← name.bytes?, ← objectId.read? id⟩
    | _ => none

/-- Listings; the items stay in the order they are given in. -/
def tree : Codec Tree where
  write t := .ofFields ["entries"] [.list (t.items.map treeItem.write)]
  read? d :=
    match d.fields? ["entries"] with
    | some [items] => do return ⟨← (← items.list?).mapM treeItem.read?⟩
    | _ => none

/-- The names of the fields of a path with its change. -/
def changeFields : List String := ["path", "status"]

/-- Paths with their changes. -/
def change : Codec (Bytes × FileChange) where
  write c := .ofFields changeFields [.ofBytes c.1, fileChange.write c.2]
  read? d :=
    match d.fields? changeFields with
    | some [path, status] => do return (← path.bytes?, ← fileChange.read? status)
    | _ => none

/-- The names of the fields of an entry. -/
def entryFields : List String :=
  ["path", "stage", "mode", "object_id", "ctime", "mtime", "dev", "ino", "uid", "gid", "size",
    "flags"]

/-- Entries of the table. -/
def entry : Codec Entry where
  write e := .ofFields entryFields [.ofBytes e.path, stage.write e.stage, mode.write e.mode,
    objectId.write e.id, timestamp.write e.ctime, timestamp.write e.mtime, .ofWord e.dev,
    .ofWord e.ino, .ofWord e.uid, .ofWord e.gid, .ofWord e.size, flags.write e.flags]
  read? d :=
    match d.fields? entryFields with
    | some [path, s, m, id, ctime, mtime, dev, ino, uid, gid, size, f] => do
      return {
        path := ← path.bytes?
        stage := ← stage.read? s
        mode := ← mode.read? m
        id := ← objectId.read? id
        ctime := ← timestamp.read? ctime
        mtime := ← timestamp.read? mtime
        dev := ← dev.word?
        ino := ← ino.word?
        uid := ← uid.word?
        gid := ← gid.word?
        size := ← size.word?
        flags := ← flags.read? f }
    | _ => none

/-- Read a field that may be left out. -/
def readOr {α : Type} (c : Codec α) (standard : α) : Option Document → Option α
  | some d => c.read? d
  | none => some standard

/-- The names of the settings. -/
def settingNames : List String := ["version", "duplicate_policy", "sync_mode"]

/-- Settings. Fields that are left out have their standard values. -/
def settings : Codec Settings where
  write s := .ofFields settingNames [version.write s.version,
    duplicatePolicy.write s.duplicatePolicy, syncMode.write s.syncMode]
  read? d :=
    match d.slots? settingNames with
    | some [v, policy, sync] => do
      return ⟨← version.readOr Settings.standard.version v,
        ← duplicatePolicy.readOr Settings.standard.duplicatePolicy policy,
        ← syncMode.readOr Settings.standard.syncMode sync⟩
    | _ => none

/-! ## Faithfulness -/

theorem isFaithful_mode : mode.IsFaithful :=
  isFaithful_ofNames (by intro x; cases x <;> simp) (by intro x y; cases x <;> cases y <;> simp)

theorem isFaithful_stage : stage.IsFaithful :=
  isFaithful_ofNames (by intro x; cases x <;> simp) (by intro x y; cases x <;> cases y <;> simp)

theorem isFaithful_objectId : objectId.IsFaithful := by
  intro id
  simp [objectId, Except.toOption]

theorem isFaithful_timestamp : timestamp.IsFaithful := by
  intro t
  simp only [timestamp]
  rw [Document.fields?_ofFields (by decide) rfl]
  simp only [Document.word?_ofWord]
  rfl

theorem isFaithful_flags : flags.IsFaithful := by
  intro f
  simp only [flags]
  rw [Document.fields?_ofFields (by decide) rfl]
  rfl

/-- Items are read back from the documents they are written into. -/
theorem isFaithful_treeItem : treeItem.IsFaithful := by
  intro t
  simp only [treeItem]
  rw [Document.fields?_ofFields (by decide) rfl]
  simp only [isFaithful_mode t.mode, Document.bytes?_ofBytes, isFaithful_objectId t.id]
  rfl

/-- Entries are read back from the documents they are written into. -/
theorem isFaithful_entry : entry.IsFaithful := by
  intro e
  simp only [entry]
  rw [Document.fields?_ofFields (by decide) rfl]
  simp only [Document.bytes?_ofBytes, Document.word?_ofWord, isFaithful_stage e.stage,
    isFaithful_mode e.mode, isFaithful_objectId e.id, isFaithful_timestamp e.ctime,
    isFaithful_timestamp e.mtime, isFaithful_flags e.flags]
  rfl

theorem isFaithful_version : version.IsFaithful := by
  intro v
  simp [version, Except.toOption]

theorem isFaithful_duplicatePolicy : duplicatePolicy.IsFaithful :=
  isFaithful_ofNames (by intro x; cases x <;> simp)
    (by intro x y; cases x <;> cases y <;> simp [DuplicatePolicy.name])

theorem isFaithful_syncMode : syncMode.IsFaithful :=
  isFaithful_ofNames (by intro x; cases x <;> simp)
    (by intro x y; cases x <;> cases y <;> simp [SyncMode.name])

/-- Settings are read back from the documents they are written into. -/
theorem isFaithful_settings : settings.IsFaithful := by
  intro s
  simp only [settings]
  rw [Document.slots?_ofFields (by decide) rfl]
  simp only [List.map_cons, List.map_nil, readOr, isFaithful_version s.version,
    isFaithful_duplicatePolicy s.duplicatePolicy, isFaithful_syncMode s.syncMode]
  rfl

end Codec

end StagingIndex
