import StagingIndex.Mode
import StagingIndex.ObjectId

/-! # Stored objects

The contents that an object database keeps: blobs hold the bytes of a file, trees a directory
listing. This module has objects as raw bytes with their kind; listings are in `Tree`.

* `Object.id` — the name an object is stored under
* `Object.blob?` — the bytes of a blob
* `StoreError` — why an object cannot be had -/

namespace StagingIndex

/-- What the bytes of an object encode. -/
inductive ObjectKind where
  | blob
  | tree
deriving DecidableEq, Repr

/-- The word for a kind that goes into names. -/
def ObjectKind.text : ObjectKind → String
  | .blob => "blob"
  | .tree => "tree"

/-- Raw bytes and what they encode. -/
structure Object where
  kind : ObjectKind
  data : Bytes
deriving DecidableEq, Repr

/-- Why the bytes of an object do not say what was expected of them. -/
inductive ObjectFault where
  | wrongKind (expected actual : ObjectKind)
  | missingModeSeparator
  | badMode (field : Bytes)
  | unknownMode (bits : UInt32)
  | unterminatedName
  | truncatedId (name : Bytes)
deriving DecidableEq, Repr

/-- Why an object database does not give or take an object. -/
inductive StoreError where
  | io (detail : String)
  | corrupt (id : ObjectId) (fault : ObjectFault)
  /-- The object has the name that stands for no object. -/
  | nullName
deriving DecidableEq

/-- The wording of a fault. -/
def ObjectFault.message : ObjectFault → String
  | .wrongKind expected actual => s!"expected {expected.text}, got {actual.text}"
  | .missingModeSeparator => "missing mode separator"
  | .badMode field => "bad mode " ++ Text.quoted field
  | .unknownMode bits => "unknown mode " ++ Mode.octal bits
  | .unterminatedName => "unterminated entry name"
  | .truncatedId name => "truncated id for " ++ Text.quoted name

/-- The wording of an error of the database. -/
def StoreError.message : StoreError → String
  | .io detail => "I/O error: " ++ detail
  | .corrupt id fault => s!"corrupt object {id.toHex}: {fault.message}"
  | .nullName => "cannot store object with null ID"

namespace Object

/-- The name an object is stored under. -/
def id (o : Object) : ObjectId := ObjectId.ofContent o.kind.text o.data

/-- The object that holds the bytes of a file. -/
def ofBlob (data : Bytes) : Object := ⟨.blob, data⟩

/-- The bytes of a blob. -/
def blob? (o : Object) : Except StoreError Bytes :=
  match o.kind with
  | .blob => .ok o.data
  | .tree => .error (.corrupt o.id (.wrongKind .blob .tree))

end Object

end StagingIndex
