import StagingIndex.Image.Cursor

/-! # Records of an index file

One entry is one record: stat data, object name, a word of flags that also has the stage and the
length of the path, perhaps a second word of flags, and the path. In versions 2 and 3 the path is
followed by one to eight zero bytes, up to a multiple of eight for the record. In version 4 the path
is given by how much to strip from the end of the path before, and what to append.

* `Record.encode` — the record of an entry
* `Record.read` — the entry of a record -/

namespace StagingIndex

namespace Record

/-- Path lengths from here on are not recorded; the path ends at its zero byte. -/
def lengthLimit : Nat := 0xfff

/-- The word of flags: whether the entry is assumed valid, whether a second word follows, the stage,
and the length of the path. -/
def flagsWord (assumeValid extended : Bool) (stage : Stage) (length : Nat) : UInt16 :=
  UInt16.ofNat (0x8000 * assumeValid.toNat + 0x4000 * extended.toNat + 0x1000 * stage.toNat +
    min length lengthLimit)

/-- The second word of flags. -/
def extendedWord (f : EntryFlags) : UInt16 :=
  UInt16.ofNat (0x4000 * f.skipWorktree.toNat + 0x2000 * f.intentToAdd.toNat)

/-- The length of a padded record of which `n` bytes are used: the next greater multiple of
eight. -/
def paddedLength (n : Nat) : Nat := (n + 8) / 8 * 8

/-- The bytes of a moment. -/
def timestampBytes (t : Timestamp) : Bytes := Bytes.ofWord32 t.seconds ++ Bytes.ofWord32 t.nanos

/-- The record of an entry up to the first word of flags. -/
def fixedPart (e : Entry) : Bytes :=
  timestampBytes e.ctime ++ timestampBytes e.mtime ++ Bytes.ofWord32 e.dev ++
    Bytes.ofWord32 e.ino ++ Bytes.ofWord32 e.mode.bits ++ Bytes.ofWord32 e.uid ++
    Bytes.ofWord32 e.gid ++ Bytes.ofWord32 e.size ++ e.id.bytes

/-- Whether the record of an entry has a second word of flags. -/
def isExtended (version : Version) (e : Entry) : Bool :=
  version ≠ .v2 && e.flags.needsExtended

/-- The record of an entry up to its path. -/
def head (version : Version) (e : Entry) : Bytes :=
  fixedPart e ++
    Bytes.ofWord16 (flagsWord e.flags.assumeValid (isExtended version e) e.stage e.path.length) ++
    if isExtended version e then Bytes.ofWord16 (extendedWord e.flags) else []

/-- The record of an entry that follows an entry with path `previous`. -/
def encode (version : Version) (previous : Bytes) (e : Entry) : Bytes :=
  let start := head version e
  match version with
  | .v4 =>
    let shared := Bytes.sharedLength previous e.path
    start ++ Varint.encode (previous.length - shared) ++ e.path.drop shared ++ [Bytes.nul]
  | _ =>
    let used := start.length + e.path.length
    start ++ e.path ++ List.replicate (paddedLength used - used) Bytes.nul

/-! ## Reading -/

/-- Read the second word of flags, of a record that starts at `start`. -/
def readExtended (version : Version) (start : Nat) (flags : EntryFlags) : Reader EntryFlags := do
  if version = .v2 then Reader.fail start .extendedInVersion2
  else
    let word ← Reader.halfWord
    let n := word.toNat
    if n / 0x8000 = 1 ∨ n % 0x2000 ≠ 0 then Reader.fail start (.unknownExtended word)
    else
      return { flags with
        skipWorktree := n / 0x4000 % 2 = 1
        intentToAdd := n / 0x2000 % 2 = 1 }

/-- Read the path of a record that starts at `start`, where `length` has been recorded for it. -/
def readPath (version : Version) (start length : Nat) (previous : Bytes) : Reader Bytes := do
  let here ← Reader.offset
  match version with
  | .v4 =>
    let strip ← Reader.varint
    if previous.length < strip then Reader.fail start .stripTooLong
    else
      let suffix ← Reader.untilNul
      return previous.take (previous.length - strip) ++ suffix
  | _ =>
    let path ← if length < lengthLimit then Reader.take length else Reader.untilNul
    Reader.seek (start + paddedLength (here - start + path.length))
    return path

/-- Read the record of an entry that follows an entry with path `previous`. -/
def read (version : Version) (previous : Bytes) : Reader Entry := do
  let start ← Reader.offset
  let ctime ← Reader.timestamp
  let mtime ← Reader.timestamp
  let dev ← Reader.word
  let ino ← Reader.word
  let bits ← Reader.word
  let uid ← Reader.word
  let gid ← Reader.word
  let size ← Reader.word
  let id ← Reader.objectId
  let word ← Reader.halfWord
  let n := word.toNat
  match Mode.ofBits? bits, Stage.ofNat? (n / 0x1000 % 4) with
  | some mode, some stage =>
    let flags : EntryFlags := { EntryFlags.none with assumeValid := n / 0x8000 = 1 }
    let flags ← if n / 0x4000 % 2 = 1 then readExtended version start flags else pure flags
    let length := n % 0x1000
    let path ← readPath version start length previous
    if length < lengthLimit ∧ length ≠ path.length then Reader.fail start .nameLengthMismatch
    else return { path, stage, mode, id, ctime, mtime, dev, ino, uid, gid, size, flags }
  | _, _ => Reader.fail start (.invalidMode bits)

end Record

end StagingIndex
