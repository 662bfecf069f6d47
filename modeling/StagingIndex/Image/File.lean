import StagingIndex.CacheTree.Body
import StagingIndex.CacheTree.Verify
import StagingIndex.Image.Record
import StagingIndex.Trailer

/-! # Index files

An index file has a signature, its version and the number of entries, the records of the entries in
order, extensions, and a trailer. An extension is four letters, a length and that many bytes. The
one that is known holds the cache tree; others may be skipped if they start with a capital letter.

* `Image` — what an index file holds
* `Image.encode` — the file of a table and a cache tree
* `Image.decode` — what a file holds, checked throughout -/

namespace StagingIndex

/-- What an index file holds. -/
structure Image where
  version : Version
  entries : List Entry
  cache : CacheTree

namespace Image

/-- The letters `DIRC`. -/
def signature : Bytes := [0x44, 0x49, 0x52, 0x43]

/-- The letters `TREE`. -/
def treeSignature : Bytes := [0x54, 0x52, 0x45, 0x45]

/-- The version that entries are written in: between versions 2 and 3 the flags of the entries
decide, version 4 is kept. -/
def effectiveVersion (requested : Version) (entries : List Entry) : Version :=
  if requested = .v4 then .v4
  else if entries.any (·.flags.needsExtended) then .v3
  else .v2

/-! ## Writing -/

/-- The records of entries that follow an entry with path `previous`. -/
def records (version : Version) (previous : Bytes) : List Entry → Bytes
  | [] => []
  | e :: es => Record.encode version previous e ++ records version e.path es

/-- The extension that holds a cache tree, if there is anything to hold. -/
def treeExtension (cache : CacheTree) : Bytes :=
  if cache.isEmpty then []
  else treeSignature ++ Bytes.ofWord32 (UInt32.ofNat cache.body.length) ++ cache.body

/-- An index file without its trailer. -/
def content (version : Version) (entries : List Entry) (cache : CacheTree) : Bytes :=
  signature ++ Bytes.ofWord32 version.toWord ++
    Bytes.ofWord32 (UInt32.ofNat entries.length) ++ records version [] entries ++
    treeExtension cache

/-- The index file of a table and a cache tree. -/
def encode (version : Version) (entries : List Entry) (cache : CacheTree) : Bytes :=
  Trailer.attach (content version entries cache)

/-! ## Reading -/

/-- Check an entry that was read at `offset` after another one. -/
def checkEntry (offset : Nat) (previous : Option Entry) (e : Entry) : Except IndexError Unit :=
  match Path.fault? e.path with
  | some fault => .error (.invalidPath e.path fault)
  | none =>
    match previous with
    | none => .ok ()
    | some p =>
      if compare p.key e.key = .lt then .ok ()
      else .error (.malformed offset (.outOfOrder e.path))

/-- Read a number of records, the first of which follows `previous`. -/
def readEntries (version : Version) : Nat → Option Entry → Reader (List Entry)
  | 0, _ => pure []
  | n + 1, previous => do
    let offset ← Reader.offset
    let e ← Record.read version ((previous.map Entry.path).getD [])
    checkEntry offset previous e
    let es ← readEntries version n (some e)
    return e :: es

/-- Read an extension: its letters and its bytes. -/
def readExtension : Reader (Bytes × Bytes) := do
  let letters ← Reader.take 4
  let size ← Reader.word
  let payload ← Reader.take size.toNat
  return (letters, payload)

/-- Whether an extension that is not known may be skipped. -/
def isOptional (letters : Bytes) : Bool :=
  match letters with
  | b :: _ => 0x41 ≤ b && b ≤ 0x5a
  | [] => false

/-- A cache tree that is written in an extension, checked against the entries. -/
def readCache (entries : List Entry) (payload : Bytes) : Except IndexError CacheTree :=
  match CacheTree.parse payload with
  | .error fault => .error (.corruptCacheTree fault)
  | .ok cache => (cache.verify entries).map fun _ => cache

/-- An extension takes up some bytes. -/
theorem length_lt_of_readExtension {c c' : Cursor} {x : Bytes × Bytes}
    (h : readExtension c = .ok (x, c')) : c'.rest.length < c.rest.length := by
  simp only [readExtension, Reader.bind_eq_ok] at h
  obtain ⟨letters, c₁, h₁, size, c₂, h₂, payload, c₃, h₃, h₄⟩ := h
  cases h₄
  obtain ⟨hl, hr, -⟩ := Reader.take_eq_ok.1 h₁
  obtain ⟨-, hr', -⟩ := Reader.take_eq_ok.1 h₃
  have := Reader.length_of_word h₂
  simp only [hr, hr', List.length_append] at this ⊢
  omega

/-- Read extensions up to the end of the file. Of several cache trees the last one counts; `cache`
is the one so far. -/
def readExtensions (entries : List Entry) (cache : CacheTree) (c : Cursor) :
    Except IndexError CacheTree :=
  if c.rest.isEmpty then .ok cache
  else
    match _h : readExtension c with
    | .error e => .error e
    | .ok ((letters, payload), c') =>
      if letters = treeSignature then
        match readCache entries payload with
        | .error e => .error e
        | .ok cache => readExtensions entries cache c'
      else if isOptional letters then readExtensions entries cache c'
      else .error (.unsupportedExtension letters)
termination_by c.rest.length
decreasing_by all_goals exact length_lt_of_readExtension _h

/-- Read the part of a file before its extensions. -/
def readTable : Reader (Version × List Entry) := do
  let letters ← Reader.take 4
  if letters ≠ signature then Reader.fail 0 .badSignature
  else
    let version ← Version.ofWord (← Reader.word)
    let count ← Reader.word
    let entries ← readEntries version count.toNat none
    Table.checkAll entries
    return (version, entries)

/-- What an index file holds. -/
def decode (file : Bytes) : Except IndexError Image :=
  if file.length < 12 + Trailer.size then .error (.malformed file.length .tooShort)
  else
    match Trailer.detach? file with
    | none => .error .checksumMismatch
    | some content =>
      match readTable ⟨0, content⟩ with
      | .error e => .error e
      | .ok ((version, entries), c) =>
        (readExtensions entries .empty c).map fun cache => ⟨version, entries, cache⟩

end Image

end StagingIndex
