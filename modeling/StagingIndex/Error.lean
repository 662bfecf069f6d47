import StagingIndex.Entry
import StagingIndex.Path

/-! # Errors of the index

Every operation of the index that can fail says why by one value of `IndexError`, which `message`
puts into words. Causes within the file image and within a cache tree have types of their own.

* `ImageFault` — what is wrong with the bytes of an index file
* `CacheTreeFault` — what is wrong with a cache tree
* `FileFault` — what the file system says
* `IndexError`, `IndexError.message` — the causes and their wording -/

namespace StagingIndex

/-- The format of an index file. -/
inductive Version where
  /-- Records padded to eight bytes. -/
  | v2
  /-- Padded records, with a second word of flags where it is needed. -/
  | v3
  /-- Records that share the beginning of a path with the one before. -/
  | v4
deriving DecidableEq, Repr

/-- What is wrong with the bytes of an index file at some offset. -/
inductive ImageFault where
  | tooShort
  | endOfData
  | badSignature
  | invalidMode (bits : UInt32)
  | extendedInVersion2
  | unknownExtended (bits : UInt16)
  | badPrefixLength
  | stripTooLong
  | unterminatedPath
  | recordPastEnd
  | nameLengthMismatch
  | outOfOrder (path : Bytes)
deriving DecidableEq, Repr

/-- What is wrong with a cache tree, in itself or beside a table. -/
inductive CacheTreeFault where
  | tooDeep
  | unterminatedName
  | nameWithSlash
  | unterminatedCounts
  | nonAsciiCounts
  | missingSubtreeCount
  | badEntryCount
  | badSubtreeCount
  | negativeEntryCount
  | truncatedId
  | missingSubtree
  | duplicateSubtree
  | namedRoot
  | trailingBytes (count : Nat)
  | wrongCount (directory : Bytes) (recorded actual : Nat)
  | staleCount (count : Nat) (base : Bytes)
  | rootCovers (count total : Nat)
deriving DecidableEq, Repr

/-- What the file system says when it refuses. -/
inductive FileFault where
  | notFound
  | notDirectory
  | isDirectory
  | nameTooLong
  | notEmpty
  | tooManyLinks
  | busy
  /-- A refusal in words of its own. -/
  | other (text : String)
deriving DecidableEq, Repr

/-- Why an operation of the index failed. -/
inductive IndexError where
  /-- The bytes of the index file are no image of an index. -/
  | malformed (offset : Nat) (fault : ImageFault)
  /-- The trailer of the index file is not the digest of its body. -/
  | checksumMismatch
  /-- The index file has a format that is not known. -/
  | unsupportedVersion (version : UInt32)
  /-- The index file has a part that is not known and must not be skipped. -/
  | unsupportedExtension (signature : Bytes)
  /-- The cache tree is wrong. -/
  | corruptCacheTree (fault : CacheTreeFault)
  /-- Two entries of a batch have the same key. -/
  | duplicateEntry (path : Bytes) (stage : Stage)
  /-- A path is both merged and in conflict. -/
  | mixedStages (path : Bytes)
  /-- A path is both a file and a directory of other paths. -/
  | fileAndDirectory (path : Bytes)
  /-- A path is not one. -/
  | invalidPath (path : Bytes) (fault : PathFault)
  /-- Another writer holds the lock. -/
  | lockContention (lockPath : Bytes)
  /-- Paths are in conflict where none may be. -/
  | unresolvedConflict (paths : List Bytes)
  /-- An object is not there. -/
  | objectNotFound (id : ObjectId)
  /-- Listings are nested without end. -/
  | endlessNesting (id : ObjectId)
  /-- The object database failed. -/
  | store (error : StoreError)
  /-- The file system failed. -/
  | io (path : Bytes) (fault : FileFault)
deriving DecidableEq

/-! ## Wording -/

/-- The wording of a fault of the bytes. -/
def ImageFault.message : ImageFault → String
  | .tooShort => "file too short"
  | .endOfData => "unexpected end of data"
  | .badSignature => "bad signature"
  | .invalidMode bits => "invalid mode " ++ Mode.octal bits
  | .extendedInVersion2 => "extended flags in version 2"
  | .unknownExtended bits =>
    "unknown extended flags 0x" ++ Numeral.hex (Bytes.ofWord16 bits)
  | .badPrefixLength => "bad prefix length"
  | .stripTooLong => "prefix strip exceeds previous path"
  | .unterminatedPath => "unterminated path"
  | .recordPastEnd => "record extends past end of data"
  | .nameLengthMismatch => "name length disagrees with path"
  | .outOfOrder path => "entry " ++ Text.quoted path ++ " out of order"

/-- The wording of a fault of a cache tree. -/
def CacheTreeFault.message : CacheTreeFault → String
  | .tooDeep => "nesting too deep"
  | .unterminatedName => "unterminated name"
  | .nameWithSlash => "directory name contains '/'"
  | .unterminatedCounts => "unterminated counts"
  | .nonAsciiCounts => "non-ascii counts"
  | .missingSubtreeCount => "missing subtree count"
  | .badEntryCount => "bad entry count"
  | .badSubtreeCount => "bad subtree count"
  | .negativeEntryCount => "negative entry count"
  | .truncatedId => "truncated tree id"
  | .missingSubtree => "missing subtree"
  | .duplicateSubtree => "duplicate subtree name"
  | .namedRoot => "root has a name"
  | .trailingBytes count => s!"{count} trailing bytes"
  | .wrongCount directory recorded actual =>
    Text.quoted directory ++ s!" records {recorded} entries, table has {actual}"
  | .staleCount count base => s!"stale entry count {count} for " ++ Text.quoted base
  | .rootCovers count total => s!"root covers {count} of {total} entries"

/-- The wording of a refusal. -/
def FileFault.message : FileFault → String
  | .notFound => "No such file or directory (os error 2)"
  | .notDirectory => "Not a directory (os error 20)"
  | .isDirectory => "Is a directory (os error 21)"
  | .nameTooLong => "File name too long (os error 36)"
  | .notEmpty => "Directory not empty (os error 39)"
  | .tooManyLinks => "Too many levels of symbolic links (os error 40)"
  | .busy => "Device or resource busy (os error 16)"
  | .other text => text

/-- The wording of an error. -/
def IndexError.message : IndexError → String
  | .malformed offset fault => s!"malformed index at offset {offset}: {fault.message}"
  | .checksumMismatch => "index checksum mismatch"
  | .unsupportedVersion version => s!"unsupported index version: {version}"
  | .unsupportedExtension signature =>
    "unsupported required index extension: " ++ Utf8.lossy signature
  | .corruptCacheTree fault => "corrupt cache tree: " ++ fault.message
  | .duplicateEntry path stage =>
    "duplicate index entry: " ++ Utf8.lossy path ++ s!" at stage {stage.toNat}"
  | .mixedStages path => "path has both merged and conflict stages: " ++ Utf8.lossy path
  | .fileAndDirectory path => "path is both a file and a directory: " ++ Utf8.lossy path
  | .invalidPath path fault => "invalid path " ++ Text.quoted path ++ ": " ++ fault.message
  | .lockContention lockPath =>
    "index is locked: " ++ Utf8.lossy lockPath ++ " already exists"
  | .unresolvedConflict paths =>
    "unresolved conflict at " ++ String.intercalate ", " (paths.map Utf8.lossy)
  | .objectNotFound id => "object not found in store: " ++ id.toHex
  | .endlessNesting id => "trees are nested without end at " ++ id.toHex
  | .store error => "store error: " ++ error.message
  | .io path fault => "I/O error on " ++ Utf8.lossy path ++ ": " ++ fault.message

/-- Whether to try again later may help. -/
def IndexError.isRetryable : IndexError → Bool
  | .lockContention _ => true
  | _ => false

namespace Version

/-- The number of a format. -/
def toWord : Version → UInt32
  | v2 => 2
  | v3 => 3
  | v4 => 4

/-- The format of a number. -/
def ofWord (n : UInt32) : Except IndexError Version :=
  if n = 2 then .ok v2
  else if n = 3 then .ok v3
  else if n = 4 then .ok v4
  else .error (.unsupportedVersion n)

@[simp] theorem ofWord_toWord (v : Version) : ofWord v.toWord = .ok v := by
  cases v <;> rfl

end Version

end StagingIndex
