import Mathlib
import StagingIndex.Proofs.ImageCodec
import StagingIndex.Proofs.ParsedTrees

/-! # Foreign files are rewritten

More files are accepted than are ever written: the padding of a record may be any bytes, a path may
strip more of the one before it than it has to, a regular file may have its old mode, numbers in a
cache tree may have signs and zeros, cache trees may be repeated and unknown extensions skipped.
Whatever file was read, the one that is written for it has the same entries and cache tree, and is
the one that is written from then on.

* `Image.Readable` — what is known of an image that was read
* `Image.readable_of_decode` — every file that is accepted gives such an image
* `Image.decode_rewritten` — the file written for such an image is accepted
* `Image.rewritten_settles` — the file written for a file that was read is read as the same, and
  rewritten as itself -/

namespace StagingIndex

/-! ## How much a path strips -/

namespace Varint

/-- Reading on does not leave 64 bits. -/
theorem lt_of_decodeFrom {value n : Nat} {b : UInt8} {s rest : Bytes} (hv : value < 2 ^ 64)
    (h : decodeFrom value b s = some (n, rest)) : n < 2 ^ 64 := by
  fun_induction decodeFrom value b s with
  | case1 value b hb =>
    cases h
    exact hv
  | case2 => cases h
  | case3 value b c s hb =>
    cases h
    exact hv
  | case4 value b c s hb next hnext ih => exact ih hnext h
  | case5 => cases h

/-- An offset number that was read has at most 64 bits. -/
theorem lt_of_decode? {n : Nat} {s rest : Bytes} (h : decode? s = some (n, rest)) : n < 2 ^ 64 := by
  cases s with
  | nil => cases h
  | cons b s => exact lt_of_decodeFrom (by omega) h

end Varint

/-- An offset number that was read has at most 64 bits. -/
theorem Reader.varint_lt {c d : Cursor} {n : Nat} (h : varint c = .ok (n, d)) : n < 2 ^ 64 := by
  rw [varint] at h
  split at h
  · rename_i hdecode
    cases h
    exact Varint.lt_of_decode? hdecode
  · cases h

/-- A string that starts with the first bytes of another shares them. -/
theorem Bytes.le_sharedLength_take_append (s t : Bytes) {k : Nat} (hk : k ≤ s.length) :
    k ≤ sharedLength s (s.take k ++ t) := by
  induction s generalizing k with
  | nil =>
    simp only [List.length_nil, Nat.le_zero] at hk
    omega
  | cons b s ih =>
    cases k with
    | zero => omega
    | succ k =>
      have := ih (Nat.le_of_succ_le_succ hk)
      simp only [List.take_succ_cons, List.cons_append, sharedLength, if_true]
      omega

namespace Record

open Reader

variable {previous path : Bytes} {c d : Cursor}

/-- A path strips no more than was read for it, even if it has to strip less. -/
theorem strip_lt_of_readPath {start length : Nat}
    (h : readPath .v4 start length previous c = .ok (path, d)) :
    previous.length - Bytes.sharedLength previous path < 2 ^ 64 := by
  simp only [readPath, bind_eq_ok] at h
  obtain ⟨here, c₁, -, strip, c₂, hstrip, h⟩ := h
  split at h
  · exact absurd h fail_ne_ok
  · simp only [bind_eq_ok, pure_eq_ok] at h
    obtain ⟨suffix, c₃, -, rfl, -⟩ := h
    have hshared := Bytes.le_sharedLength_take_append previous suffix
      (Nat.sub_le previous.length strip)
    have := varint_lt hstrip
    omega

/-- A record of version 4 that was read can be written after the same path. -/
theorem strip_lt_of_read {e : Entry} (h : read .v4 previous c = .ok (e, d)) :
    previous.length - Bytes.sharedLength previous e.path < 2 ^ 64 := by
  simp only [read, bind_eq_ok] at h
  -- Everything before the path is passed over.
  obtain ⟨_, _, -, _, _, -, _, _, -, _, _, -, _, _, -, bits, _, -, _, _, -, _, _, -, _, _, -, _, _,
    -, word, _, -, h⟩ := h
  generalize Mode.ofBits? bits = mode, Stage.ofNat? (word.toNat / 0x1000 % 4) = stage at h
  match mode, stage, h with
  | none, _, h => exact absurd h fail_ne_ok
  | some _, none, h => exact absurd h fail_ne_ok
  | some mode, some stage, h =>
    simp only at h
    -- The path comes next whether or not there is a second word of flags.
    split at h
    all_goals
      simp only [bind_eq_ok] at h
      obtain ⟨_, _, -, path, _, hpath, h⟩ := h
      split at h
      · exact absurd h fail_ne_ok
      · obtain ⟨rfl, -⟩ := pure_eq_ok.1 h
        exact strip_lt_of_readPath hpath

end Record

/-! ## What was read -/

namespace Image

open Reader

variable {version : Version} {es : List Entry} {c d : Cursor} {cache : CacheTree} {file : Bytes}
  {image : Image}

/-- As many records are read as were announced, and in version 4 each strips few enough bytes. -/
theorem readEntries_eq_ok {n : Nat} {previous : Option Entry}
    (h : readEntries version n previous c = .ok (es, d)) :
    es.length = n ∧ (version = .v4 → Strippable ((previous.map Entry.path).getD []) es) := by
  induction n generalizing previous es c d with
  | zero =>
    obtain ⟨rfl, -⟩ := pure_eq_ok.1 h
    exact ⟨rfl, fun _ => trivial⟩
  | succ n ih =>
    simp only [readEntries, bind_eq_ok, lift_eq_ok, pure_eq_ok] at h
    obtain ⟨offset, c₁, -, e, c₂, hread, ⟨⟩, c₃, -, rest, c₄, hrest, rfl, -⟩ := h
    obtain ⟨hlength, hstrip⟩ := ih hrest
    refine ⟨by rw [List.length_cons, hlength], fun hv => ⟨?_, hstrip hv⟩⟩
    subst hv
    exact Record.strip_lt_of_read hread

/-- The entries of a file are counted by a word, and in version 4 can be written. -/
theorem readTable_eq_ok (h : readTable c = .ok ((version, es), d)) :
    es.length < 2 ^ 32 ∧ (version = .v4 → Strippable [] es) := by
  simp only [readTable, bind_eq_ok] at h
  obtain ⟨letters, c₁, -, h⟩ := h
  split at h
  · exact absurd h fail_ne_ok
  · simp only [bind_eq_ok, lift_eq_ok, pure_eq_ok] at h
    obtain ⟨word, c₂, -, v, c₃, -, count, c₄, -, es, c₅, hes, ⟨⟩, c₆, -, h, -⟩ := h
    cases h
    obtain ⟨hlength, hstrip⟩ := readEntries_eq_ok hes
    exact ⟨hlength ▸ count.toNat_lt, hstrip⟩

/-- An extension has as many bytes as a word can say. -/
theorem readExtension_eq_ok {letters payload : Bytes}
    (h : readExtension c = .ok ((letters, payload), d)) : payload.length < 2 ^ 32 := by
  simp only [readExtension, bind_eq_ok, pure_eq_ok] at h
  obtain ⟨_, _, -, size, _, -, _, _, htake, h, -⟩ := h
  cases h
  rw [(take_eq_ok.1 htake).1]
  exact size.toNat_lt

/-- Of several cache trees the last one counts; without any it is the one so far. -/
theorem readExtensions_eq_ok {before : CacheTree} (h : readExtensions es before c = .ok cache) :
    cache = before ∨ ∃ payload, payload.length < 2 ^ 32 ∧ readCache es payload = .ok cache := by
  fun_induction readExtensions es before c with
  | case1 before c hend =>
    cases h
    exact Or.inl rfl
  | case2 => cases h
  | case3 => cases h
  | case4 before c hne payload c' read hread hext ih =>
    -- The tree that was just read may be followed by another one.
    rcases ih h with rfl | hlater
    · exact Or.inr ⟨payload, readExtension_eq_ok hext, hread⟩
    · exact Or.inr hlater
  | case5 before c hne letters payload c' hext hletters hskip ih => exact ih h
  | case6 => cases h

/-- A cache tree that was read has the form of one and agrees with the entries. -/
theorem readCache_eq_ok {payload : Bytes} (h : readCache es payload = .ok cache) :
    CacheTree.parse payload = .ok cache ∧ cache.verify es = .ok () := by
  rw [readCache] at h
  split at h
  · cases h
  · rename_i read hparse
    obtain ⟨⟨⟩, hverify, rfl⟩ := Check.map_eq_ok.1 h
    exact ⟨hparse, hverify⟩

/-- What is known of the entries and the cache tree of a file that was read. -/
structure Readable (image : Image) : Prop where
  invariant : Table.Invariant image.entries
  length : image.entries.length < 2 ^ 32
  strippable : image.version = .v4 → Strippable [] image.entries
  root : image.cache.name = []
  verified : image.cache.verify image.entries = .ok ()
  shaped : image.cache.All (fun _ n => n.Shaped) []
  height : image.cache.height ≤ CacheTree.maxDepth
  body : image.cache.body.length < 2 ^ 32

/-- The cache tree that knows nothing has the form of one. -/
theorem shaped_empty : CacheTree.empty.All (fun _ n => n.Shaped) [] :=
  CacheTree.all_iff.2 ⟨⟨List.Pairwise.nil, List.forall_mem_nil _⟩, List.forall_mem_nil _⟩

/-- The cache tree that knows nothing has a short written form. -/
theorem length_body_empty : CacheTree.empty.body.length < 2 ^ 32 := by cbv

/-- A cache tree that was read from a file has the form of one, agrees with the entries, and is small
enough to be written again. -/
theorem readExtensions_readable (ht : Table.Invariant es) (hn : es.length < 2 ^ 32)
    (hstrip : version = .v4 → Strippable [] es) (h : readExtensions es .empty c = .ok cache) :
    Readable ⟨version, es, cache⟩ := by
  rcases readExtensions_eq_ok h with rfl | ⟨payload, hpayload, hcache⟩
  · exact {
      invariant := ht, length := hn, strippable := hstrip, root := rfl, verified := rfl,
      shaped := shaped_empty, height := Nat.zero_le _, body := length_body_empty }
  · obtain ⟨hparse, hverify⟩ := readCache_eq_ok hcache
    obtain ⟨hroot, hshaped, hheight, hbody⟩ := CacheTree.parse_eq_ok hparse
    exact {
      invariant := ht, length := hn, strippable := hstrip, root := hroot, verified := hverify,
      shaped := hshaped, height := hheight, body := Nat.lt_of_le_of_lt hbody hpayload }

/-- Every file that is accepted gives such an image. -/
theorem readable_of_decode (h : decode file = .ok image) : image.Readable := by
  have hinvariant := decode_invariant h
  rw [decode] at h
  split at h
  · cases h
  · split at h
    · cases h
    · split at h
      · cases h
      · rename_i hread
        obtain ⟨cache, hcache, rfl⟩ := Check.map_eq_ok.1 h
        obtain ⟨hlength, hstrip⟩ := readTable_eq_ok hread
        exact readExtensions_readable hinvariant hlength hstrip hcache

/-! ## What is written -/

/-- The file that is written for what was read, in the version that fits its entries. -/
def rewritten (image : Image) : Bytes :=
  encode (effectiveVersion image.version image.entries) image.entries image.cache

/-- The version that fits some entries fits them again. -/
theorem effectiveVersion_idem (version : Version) (es : List Entry) :
    effectiveVersion (effectiveVersion version es) es = effectiveVersion version es := by
  by_cases hv : version = .v4 <;> by_cases hx : es.any (·.flags.needsExtended) = true <;>
    simp [effectiveVersion, hv, hx]

/-- Only what was read in version 4 is written in it. -/
theorem eq_v4_of_effectiveVersion (h : effectiveVersion version es = .v4) : version = .v4 := by
  by_contra hv
  rw [effectiveVersion, if_neg hv] at h
  split at h <;> cases h

/-- The file that is written for what was read is read as the same, in the version it is written
in. -/
theorem decode_rewritten (h : image.Readable) :
    decode image.rewritten =
      .ok ⟨effectiveVersion image.version image.entries, image.entries, image.cache⟩ := by
  rw [rewritten, decode_encode_of_strippable h.invariant h.length
    (fun hv => h.strippable (eq_v4_of_effectiveVersion hv)) rfl h.root h.verified h.shaped h.body,
    if_pos h.height]

/-- Whatever file was read, the file that is written for it is read as the same entries and the same
cache tree, and the file that is written for those is the same file. -/
theorem rewritten_settles (h : decode file = .ok image) :
    ∃ again, decode image.rewritten = .ok again ∧ again.entries = image.entries ∧
      again.cache = image.cache ∧
      again.version = effectiveVersion image.version image.entries ∧
      again.rewritten = image.rewritten := by
  refine ⟨_, decode_rewritten (readable_of_decode h), rfl, rfl, rfl, ?_⟩
  simp only [rewritten, effectiveVersion_idem]

/-- A file `a/x` with the old mode of regular files and padding that is not zero, in version 3; an
unknown extension; a cache tree that does not count; and one with signs and zeros. -/
def foreignContent : Bytes :=
  signature ++ [0, 0, 0, 3] ++ [0, 0, 0, 1] ++
    List.replicate 24 0 ++ [0, 0, 0x81, 0xb4] ++ List.replicate 12 0 ++ List.replicate 32 7 ++
    [0, 3] ++ [0x61, 0x2f, 0x78] ++ [0xff, 0xfe, 0xfd] ++
    [0x46, 0x53, 0x4d, 0x4e] ++ [0, 0, 0, 1] ++ [9] ++
    treeSignature ++ [0, 0, 0, 6] ++ [0, 0x2d, 0x31, 0x20, 0x30, 0x0a] ++
    treeSignature ++ [0, 0, 0, 0x33] ++
      ([0, 0x2d, 0x31, 0x20, 0x2b, 0x30, 0x31, 0x0a] ++
        [0x61, 0, 0x2b, 0x30, 0x30, 0x31, 0x20, 0x30, 0x30, 0x30, 0x0a] ++ List.replicate 32 5)

/-- What it is read as: the entry `a/x`, and a tree in which the directory `a` is known. -/
def foreignImage : Image :=
  ⟨.v3, [Entry.bare [0x61, 0x2f, 0x78] .merged .regular (.filled 7)],
    .node [] none [.node [0x61] (some ⟨1, .filled 5⟩) []]⟩

set_option maxRecDepth 4000 in
/-- It is read as this. -/
theorem decode_foreign : decode (Trailer.attach foreignContent) = .ok foreignImage := by
  have hlength : ¬ (Trailer.attach foreignContent).length < 12 + Trailer.size := by
    rw [Trailer.attach, List.length_append, Sha256.length_digest]
    cbv
  rw [decode, if_neg hlength, Trailer.detach?_attach]
  cbv

/-- It is read as the entry `a/x`, and a tree in which the directory `a` is known, and what is
written for it is read as the same. -/
theorem rewritten_settles_foreign :
    ∃ image, decode (Trailer.attach foreignContent) = .ok image ∧
      image.entries.map Entry.path = [[0x61, 0x2f, 0x78]] ∧
      ∃ again, decode image.rewritten = .ok again ∧ again.entries = image.entries ∧
        again.cache = image.cache ∧
        again.version = effectiveVersion image.version image.entries ∧
        again.rewritten = image.rewritten :=
  ⟨foreignImage, decode_foreign, rfl, rewritten_settles decode_foreign⟩

end Image

end StagingIndex
