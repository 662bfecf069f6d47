import Mathlib
import StagingIndex.Proofs.BodyCodec
import StagingIndex.Proofs.CacheCounts
import StagingIndex.Proofs.RecordCodec
import StagingIndex.Image.File

/-! # Index files are read back

The reader checks more than the writer does: the order of the entries, their paths, the conditions
of the table, and the cache tree with its counts. A table that satisfies its conditions passes the
checks of the entries, so all that is left to the cache tree is its own written form.

* `Image.reads_entries`, `Image.reads_table` — the part of a file before its extensions
* `Image.decode_encode_eq` — what is read of a file is what is read of its cache tree
* `Image.decode_encode` — a cache tree that agrees with the table is read back -/

namespace StagingIndex

namespace Image

open Reader

variable {version requested : Version} {t : Table} {cache : CacheTree}

/-- How much of the path before it each path strips is a number of 64 bits, where the first follows
`previous`. -/
def Strippable (previous : Bytes) : List Entry → Prop
  | [] => True
  | e :: es =>
    previous.length - Bytes.sharedLength previous e.path < 2 ^ 64 ∧ Strippable e.path es

/-- Paths whose lengths are numbers of 64 bits strip no more than that. -/
theorem strippable_of_length {previous : Bytes} {es : List Entry} (hp : previous.length < 2 ^ 64)
    (hl : ∀ e ∈ es, e.path.length < 2 ^ 64) : Strippable previous es := by
  induction es generalizing previous with
  | nil => trivial
  | cons e es ih =>
    obtain ⟨he, hes⟩ := List.forall_mem_cons.1 hl
    exact ⟨by omega, ih he hes⟩

/-- Records are read back as entries, where the first follows `previous`. -/
theorem reads_entries (previous : Option Entry) {es : List Entry} {offset : Nat}
    (hs : Table.IsSorted (previous.toList ++ es)) (hv : ∀ e ∈ es, Path.IsValid e.path)
    (hl : version = .v4 → Strippable ((previous.map Entry.path).getD []) es)
    (hx : version = .v2 → ∀ e ∈ es, e.flags.needsExtended = false) :
    Reads (readEntries version es.length previous) offset
      (records version ((previous.map Entry.path).getD []) es) es := by
  induction es generalizing previous offset with
  | nil => exact reads_pure []
  | cons e es ih =>
    have hafter : ∀ p ∈ previous, compare p.key e.key = .lt := fun p hp =>
      (List.pairwise_append.1 hs).2.2 p (Option.mem_toList.2 hp) e (by simp)
    have hnul := (hv e (by simp)).nul_notMem
    rw [List.length_cons, readEntries, records]
    -- A record, the check of its entry, and the records after it, in that order.
    refine reads_offset.nil_bind ((Record.reads_encode (fun h => hx h e (by simp)) hnul
      fun h => (hl h).1).bind ((reads_lift (checkEntry_eq_ok_iff.2 ⟨hv e (by simp), hafter⟩)).nil_bind
        ((ih (some e) ?_ ?_ ?_ ?_).bind_nil (reads_pure (e :: es)))))
    · exact (List.pairwise_append.1 hs).2.1
    · exact fun f hf => hv f (List.mem_cons_of_mem _ hf)
    · exact fun h => (hl h).2
    · exact fun h f hf => hx h f (List.mem_cons_of_mem _ hf)

/-- The version that fits the entries has room for their flags. -/
theorem needsExtended_of_effectiveVersion (h : effectiveVersion requested t = .v2) :
    ∀ e ∈ t, e.flags.needsExtended = false := by
  rw [effectiveVersion] at h
  split at h
  · cases h
  · split at h
    · cases h
    · rename_i hany
      intro e he
      rw [Bool.eq_false_iff]
      exact fun hx => hany (List.any_eq_true.2 ⟨e, he, hx⟩)

/-- The part of a file before its extensions is read back. -/
theorem reads_table (offset : Nat) (ht : t.Invariant) (hn : t.length < 2 ^ 32)
    (hl : version = .v4 → Strippable [] t)
    (hx : version = .v2 → ∀ e ∈ t, e.flags.needsExtended = false) :
    Reads readTable offset (signature ++ (Bytes.ofWord32 version.toWord ++
      (Bytes.ofWord32 (UInt32.ofNat t.length) ++ records version [] t))) (version, t) := by
  have hcount : (UInt32.ofNat t.length).toNat = t.length := by
    rw [UInt32.toNat_ofNat']
    omega
  have hentries : Reads (readEntries version (UInt32.ofNat t.length).toNat none)
      (offset + signature.length + (Bytes.ofWord32 version.toWord).length +
        (Bytes.ofWord32 (UInt32.ofNat t.length)).length) (records version [] t) t := by
    rw [hcount]
    exact reads_entries none ht.sorted ht.valid hl hx
  refine (reads_take signature).bind ?_
  rw [if_neg (by simp)]
  exact (reads_word _).bind ((reads_lift (Version.ofWord_toWord version)).nil_bind
    ((reads_word _).bind (hentries.bind_nil ((reads_lift ht.checkAll).nil_bind
      (reads_pure (version, t))))))

/-- An extension is read back. -/
theorem reads_extension (offset : Nat) {letters payload : Bytes} (hl : letters.length = 4)
    (hn : payload.length < 2 ^ 32) :
    Reads readExtension offset
      (letters ++ (Bytes.ofWord32 (UInt32.ofNat payload.length) ++ payload))
      (letters, payload) := by
  have hsize : (UInt32.ofNat payload.length).toNat = payload.length := by
    rw [UInt32.toNat_ofNat']
    omega
  have hletters : Reads (take 4) offset letters letters := by
    rw [← hl]
    exact reads_take letters
  have htake : Reads (take (UInt32.ofNat payload.length).toNat) (offset + letters.length +
      (Bytes.ofWord32 (UInt32.ofNat payload.length)).length) payload payload := by
    rw [hsize]
    exact reads_take payload
  exact hletters.bind ((reads_word _).bind (htake.bind_nil (reads_pure (letters, payload))))

/-- At the end of a file the cache tree is the one so far. -/
theorem readExtensions_of_isEmpty {c : Cursor} (h : c.rest = []) :
    readExtensions t cache c = .ok cache := by
  rw [readExtensions, h]
  rfl

/-- A cache tree that nothing follows is what it is read as. -/
theorem readExtensions_tree {before : CacheTree} {payload : Bytes} {offset : Nat}
    (hn : payload.length < 2 ^ 32) :
    readExtensions t before ⟨offset, treeSignature ++
      (Bytes.ofWord32 (UInt32.ofNat payload.length) ++ payload)⟩ = readCache t payload := by
  have hread := reads_extension offset (rfl : treeSignature.length = 4) hn []
  rw [List.append_nil] at hread
  rw [readExtensions]
  have hne : ¬ (treeSignature ++
      (Bytes.ofWord32 (UInt32.ofNat payload.length) ++ payload)).isEmpty = true := by
    simp [treeSignature]
  rw [if_neg hne]
  split
  · rename_i e he
    rw [hread] at he
    cases he
  · rename_i letters found c' he
    rw [hread] at he
    cases he
    rw [if_pos rfl]
    cases readCache t payload with
    | error e => rfl
    | ok cache => exact readExtensions_of_isEmpty rfl

/-- What is read of a file: the version, the entries, and what is read of the cache tree, if it was
written at all. -/
theorem decode_encode_eq (ht : t.Invariant) (hn : t.length < 2 ^ 32)
    (hl : version = .v4 → Strippable [] t) (hv : version = effectiveVersion requested t)
    (hb : cache.body.length < 2 ^ 32) :
    decode (encode version t cache) =
      (if cache.isEmpty then .ok .empty else readCache t cache.body).map
        fun cache => ⟨version, t, cache⟩ := by
  have hx : version = .v2 → ∀ e ∈ t, e.flags.needsExtended = false := fun h =>
    needsExtended_of_effectiveVersion (hv ▸ h)
  -- The signature, two words and the trailer are what a file needs at least.
  have hlength : ¬ (encode version t cache).length < 12 + Trailer.size := by
    simp [encode, Trailer.attach, content, signature, Trailer.size, Sha256.length_digest]
    omega
  have hcontent : content version t cache = signature ++ (Bytes.ofWord32 version.toWord ++
      (Bytes.ofWord32 (UInt32.ofNat t.length) ++ records version [] t)) ++ treeExtension cache := by
    simp only [content, List.append_assoc]
  have htable := reads_table 0 ht hn hl hx (treeExtension cache)
  rw [decode, if_neg hlength, encode, Trailer.detach?_attach, hcontent]
  simp only [htable]
  congr 1
  rw [treeExtension]
  by_cases hempty : cache.isEmpty = true
  · rw [if_pos hempty, if_pos hempty]
    exact readExtensions_of_isEmpty rfl
  · rw [if_neg hempty, if_neg hempty, List.append_assoc]
    exact readExtensions_tree hb

/-- A tree in which nothing is known and which has no name is the empty one. -/
theorem eq_empty_of_isEmpty (hname : cache.name = []) (h : cache.isEmpty = true) :
    cache = .empty := by
  cases cache with
  | node name known children =>
    simp only [CacheTree.isEmpty, CacheTree.known_node, CacheTree.children_node, Bool.and_eq_true,
      Option.isNone_iff_eq_none, List.isEmpty_iff] at h
    obtain ⟨rfl, rfl⟩ := h
    rw [CacheTree.name_node] at hname
    rw [hname]
    rfl

/-- The nodes of a tree that has been checked can be read back from its written form, if that is
short enough to be part of a file. -/
theorem all_writable (hn : t.length < 2 ^ 32) (hverify : cache.verify t = .ok ())
    (hshape : cache.All (fun _ n => n.Shaped) []) (hb : cache.body.length < 2 ^ 32) :
    cache.All (fun _ n => n.Writable) [] := by
  have hcounts := CacheTree.all_count_le [] hverify
  have hchildren := CacheTree.all_children_le [] (Nat.le_refl cache.body.length)
  refine ((hshape.and hcounts).and hchildren).imp fun b n h => ?_
  obtain ⟨⟨hnode, hcount⟩, hlength⟩ := h
  refine ⟨hnode, fun k hk => ?_, by omega⟩
  have := hcount k hk
  omega

/-- A file in which no path strips too much is read back unless its cache tree has too many levels;
then it is not accepted. -/
theorem decode_encode_of_strippable (ht : t.Invariant) (hn : t.length < 2 ^ 32)
    (hl : version = .v4 → Strippable [] t) (hv : version = effectiveVersion requested t)
    (hname : cache.name = []) (hverify : cache.verify t = .ok ())
    (hshape : cache.All (fun _ n => n.Shaped) []) (hb : cache.body.length < 2 ^ 32) :
    decode (encode version t cache) =
      if cache.height ≤ CacheTree.maxDepth then .ok ⟨version, t, cache⟩
      else .error (.corruptCacheTree .tooDeep) := by
  have hwritable := all_writable hn hverify hshape hb
  rw [decode_encode_eq ht hn hl hv hb]
  by_cases hempty : cache.isEmpty = true
  · rw [if_pos hempty, eq_empty_of_isEmpty hname hempty]
    rfl
  · rw [if_neg hempty, readCache]
    by_cases hlevels : cache.height ≤ CacheTree.maxDepth
    · simp only [CacheTree.parse_body hname hwritable hlevels, hverify, if_pos hlevels]
      rfl
    · simp only [CacheTree.parse_body_of_lt hname hwritable (Nat.lt_of_not_le hlevels),
        if_neg hlevels]
      rfl

/-- A file is read back unless its cache tree has too many levels; then it is not accepted. -/
theorem decode_encode_written (ht : t.Invariant) (hn : t.length < 2 ^ 32)
    (hl : ∀ e ∈ t, e.path.length < 2 ^ 64) (hv : version = effectiveVersion requested t)
    (hname : cache.name = []) (hverify : cache.verify t = .ok ())
    (hshape : cache.All (fun _ n => n.Shaped) []) (hb : cache.body.length < 2 ^ 32) :
    decode (encode version t cache) =
      if cache.height ≤ CacheTree.maxDepth then .ok ⟨version, t, cache⟩
      else .error (.corruptCacheTree .tooDeep) :=
  decode_encode_of_strippable ht hn (fun _ => strippable_of_length (by decide) hl) hv hname hverify
    hshape hb

/-- An index file is read back as the version, the entries and the cache tree that it was written
from. The lengths of paths are numbers of 64 bits. -/
theorem decode_encode (ht : t.Invariant) (hn : t.length < 2 ^ 32)
    (hl : ∀ e ∈ t, e.path.length < 2 ^ 64) (hv : version = effectiveVersion requested t)
    (hname : cache.name = []) (hverify : cache.verify t = .ok ())
    (hshape : cache.All (fun _ n => n.Shaped) []) (hlevels : cache.height ≤ CacheTree.maxDepth)
    (hb : cache.body.length < 2 ^ 32) :
    decode (encode version t cache) = .ok ⟨version, t, cache⟩ := by
  rw [decode_encode_written ht hn hl hv hname hverify hshape hb, if_pos hlevels]

/-- A file `a/x` that is only meant to be added, and a file `b`. -/
def plannedFiles : Table :=
  [{ Entry.bare [0x61, 0x2f, 0x78] .merged .regular .null with flags := ⟨false, false, true⟩ },
    Entry.bare [0x62] .merged .regular (.filled 1)]

/-- The directory `a` is known to have one entry, and the whole table is not known. -/
def plannedCache : CacheTree := .node [] none [.node [0x61] (some ⟨1, .filled 2⟩) []]

/-- Their file in version 3 is read back, when version 2 was asked for. -/
theorem decode_encode_planned :
    decode (encode .v3 plannedFiles plannedCache) = .ok ⟨.v3, plannedFiles, plannedCache⟩ := by
  have hs : plannedFiles.IsSorted := by
    unfold Table.IsSorted
    decide
  have ht : plannedFiles.Invariant := Table.invariant_of_checkAll hs (by decide) (by cbv)
  have hv : Version.v3 = effectiveVersion .v2 plannedFiles := by decide
  have hverify : plannedCache.verify plannedFiles = .ok () := by cbv
  have hshape : plannedCache.All (fun _ n => n.Shaped) [] :=
    CacheTree.all_iff.2 ⟨⟨List.pairwise_singleton _ _, by decide⟩, fun c hc => by
      rw [List.mem_singleton.1 hc]
      exact CacheTree.all_iff.2 ⟨⟨List.Pairwise.nil, by simp⟩, by simp⟩⟩
  have hlevels : plannedCache.height ≤ CacheTree.maxDepth := by decide
  have hb : plannedCache.body.length < 2 ^ 32 := by cbv
  exact decode_encode ht (by decide) (by decide) hv rfl hverify hshape hlevels hb

end Image

end StagingIndex
