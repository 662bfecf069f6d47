import Mathlib
import StagingIndex.Proofs.CheckedReading
import StagingIndex.Proofs.CheckedTables
import StagingIndex.Proofs.CheckedTrees
import StagingIndex.Proofs.Rewriting

/-! # Decoding by positions

A whole file on the machine that stops: the trailer, the entries, and extensions up to the end, with
the cache trees in them read and checked. No file makes the machine stop. What it ends with, a value
or a fault, is what the file is decoded as.

* `Machine.readTable`, `Machine.readExtensions`, `Machine.decode` — the programs
* `Track.Counted` — no cache tree has more nodes than bytes, nor all of them more bytes than are read
* `Machine.readExtensions_eq` — extensions are read without a stop
* `Machine.decode_eq` — files are decoded without a stop -/

namespace StagingIndex

namespace Machine

variable {ε α β : Type}

/-! ## Programs -/

/-- Read a cache tree on a track of its own, and keep what there is to count. -/
def readOwn (payload : Bytes) : Machine IndexError CacheTree := fun t =>
  match readTree payload .start with
  | .error trap => .error trap
  | .ok (x, own) =>
    .ok (x.mapError .corruptCacheTree, { t with trees := t.trees ++ [⟨payload.length, own.nodes⟩] })

/-- A cache tree that is written in an extension, checked against the entries. -/
def readCache (entries : List Entry) (payload : Bytes) : Machine IndexError CacheTree := do
  let c ← readOwn payload
  verifyBelow entries [] c
  return c

/-- The content of a file, if what follows it is its digest. -/
def detach? (file : Bytes) : Except Trap (Option Bytes) :=
  if file.length < Trailer.size then .ok none
  else do
    let middle ← Checked.sub file.length Trailer.size
    let content ← Checked.slice file 0 middle
    let digest ← Checked.sliceFrom file middle
    return if Sha256.digest content = digest then some content else none

section Programs

variable (data : Bytes)

/-- How many bytes are left. -/
def remaining : Machine IndexError Nat := do
  let here ← position
  Checked.sub data.length here

/-- Read an extension: its letters and its bytes. -/
def readExtension : Machine IndexError (Bytes × Bytes) := do
  let letters ← take data 4
  let size ← word data
  let payload ← take data size.toNat
  return (letters, payload)

/-- Read extensions up to the end of the data. Of several cache trees the last one counts; `cache`
is the one so far. -/
def readExtensions (entries : List Entry) : Nat → CacheTree → Machine IndexError CacheTree
  | 0, _ => halt .endless
  | rounds + 1, cache => do
    let left ← remaining data
    if left = 0 then return cache
    else
      let (letters, payload) ← readExtension data
      if letters = Image.treeSignature then
        let cache ← readCache entries payload
        readExtensions entries rounds cache
      else
        let first ← Checked.item letters 0
        if 0x41 ≤ first && first ≤ 0x5a then readExtensions entries rounds cache
        else fault (.unsupportedExtension letters)

/-- Read the part of a file before its extensions. -/
def readTable : Machine IndexError (Version × List Entry) := do
  let letters ← take data 4
  if letters ≠ Image.signature then fault (.malformed 0 .badSignature)
  else
    let version ← word data
    let version ← check (Version.ofWord version)
    let count ← word data
    let entries ← readEntries data version count.toNat []
    validate entries (entries.length + 1) 0
    return (version, entries)

end Programs

/-- What an index file holds. -/
def decode (file : Bytes) : Machine IndexError Image := do
  if file.length < 12 + Trailer.size then fault (.malformed file.length .tooShort)
  else
    match ← detach? file with
    | none => fault .checksumMismatch
    | some content =>
      let (version, entries) ← readTable content
      let cache ← readExtensions content entries (content.length + 1) .empty
      return ⟨version, entries, cache⟩

/-! ## Agreement with the reader -/

/-- A trailer comes off without a stop. -/
theorem detach?_eq (file : Bytes) : detach? file = .ok (Trailer.detach? file) := by
  by_cases h : file.length < Trailer.size
  · rw [detach?, if_pos h, Trailer.detach?, if_neg (by omega)]
  · have hsize : Trailer.size ≤ file.length := by omega
    rw [detach?, if_neg h, Checked.sub_eq hsize]
    change (Checked.slice file 0 _ >>= fun content => Checked.sliceFrom file _ >>= fun digest =>
      pure (if Sha256.digest content = digest then some content else none)) = _
    rw [Checked.slice_eq (Nat.zero_le _) (by omega), Checked.sliceFrom_eq (by omega)]
    simp only [Trailer.detach?, hsize, true_and]
    rfl

variable {data : Bytes} {entries : List Entry}

/-- A cache tree is read and checked without a stop, and its nodes are counted. -/
theorem readCache_eq (hlen : entries.length < 2 ^ 64) (payload : Bytes)
    (hd : payload.length + 32 < 2 ^ 64) :
    ∃ n ≤ payload.length, ∀ t, readCache entries payload t =
      .ok (Image.readCache entries payload,
        { t with trees := t.trees ++ [⟨payload.length, n⟩] }) := by
  obtain ⟨own, hrun, hnodes⟩ := readTree_eq hd
  refine ⟨own.nodes, hnodes, fun t => ?_⟩
  rw [readCache, bind_apply, readOwn, hrun, Image.readCache]
  cases CacheTree.parse payload with
  | error e => rfl
  | ok c =>
    dsimp only [Except.mapError]
    rw [verifyBelow_eq hlen]
    change (check (c.verify entries) >>= fun _ => check (.ok c)) _ = _
    rw [check_bind]
    cases c.verify entries <;> rfl

/-- An extension is read the same by positions. -/
theorem readExtension_follows (hd : data.length < 2 ^ 64) :
    Follows data (readExtension data) Image.readExtension :=
  (take_follows hd 4).bind fun _ => (word_follows hd).bind fun _ => (take_follows hd _).bind fun _ =>
    follows_pure _

/-- The entries of a file are read and checked without a stop. -/
theorem readTable_follows (hd : data.length + 8 < 2 ^ 64) :
    Follows data (readTable data) Image.readTable := by
  intro t ht
  have hd' : data.length < 2 ^ 64 := by omega
  refine (take_follows hd' 4 t ht).bind fun letters t₁ h₁ _ => ?_
  split
  · exact .fault h₁.within _
  refine (word_follows hd' t₁ h₁.within).bind fun word t₂ h₂ _ => ?_
  refine (Agrees.check h₂.within _).bind fun version t₃ h₃ _ => ?_
  refine (word_follows hd' t₃ h₃.within).bind fun count t₄ h₄ _ => ?_
  have hfirst : ([] ++ · : List Entry → List Entry) <$>
      Image.readEntries version count.toNat none = Image.readEntries version count.toNat none := by
    simp
  have hentries := readEntries_follows hd version count.toNat [] t₄ h₄.within
  rw [List.getLast?_nil, hfirst] at hentries
  refine hentries.bind fun entries t₅ h₅ hread => ?_
  obtain ⟨hsorted, -, -⟩ := Image.readEntries_isSorted hread
  have hlen := (Image.readEntries_eq_ok hread).1
  have := count.toNat_lt
  rw [validate_eq hsorted (by omega)]
  exact (Agrees.check h₅.within _).bind fun _ t₆ h₆ _ => .pure h₆.within _

end Machine

/-! ## Extensions -/

/-- Before the end of a file there is an extension to read. -/
theorem Image.readExtensions_of_ne_nil {entries : List Entry} {cache : CacheTree} {c : Cursor}
    (h : c.rest ≠ []) :
    Image.readExtensions entries cache c =
      match Image.readExtension c with
      | .error e => .error e
      | .ok ((letters, payload), c') =>
        if letters = Image.treeSignature then
          (Image.readCache entries payload).bind fun cache =>
            Image.readExtensions entries cache c'
        else if Image.isOptional letters then Image.readExtensions entries cache c'
        else .error (.unsupportedExtension letters) := by
  rw [Image.readExtensions, if_neg (by simpa using h)]
  split
  · rename_i e he
    simp only [he]
  · rename_i letters payload c' he
    simp only [he]
    cases Image.readCache entries payload <;> rfl

/-- What is left to count in the cache trees of a file: none of them has more nodes than bytes, and
together they have no more bytes than have been read. -/
structure Track.Counted (t : Track) : Prop where
  nodes_le : ∀ c ∈ t.trees, c.nodes ≤ c.bytes
  bytes_le : (t.trees.map Tally.bytes).sum ≤ t.position

/-- Reading on changes nothing in what there is to count. -/
theorem Track.Counted.mono {length : Nat} {t t' : Track} (h : t.Counted)
    (hreach : t.Reaches length t') : t'.Counted where
  nodes_le := hreach.trees ▸ h.nodes_le
  bytes_le := hreach.trees ▸ h.bytes_le.trans hreach.le

/-- A cache tree that was read from as many bytes as the position has moved over counts as well. -/
theorem Track.Counted.append {length : Nat} {t t' : Track} {c : Tally} (h : t.Counted)
    (hreach : t.Reaches length t') (hnodes : c.nodes ≤ c.bytes)
    (hbytes : t.position + c.bytes ≤ t'.position) :
    Counted { t' with trees := t'.trees ++ [c] } := by
  have hsum := h.bytes_le
  constructor
  · intro d hd
    rw [hreach.trees] at hd
    rcases List.mem_append.1 hd with hd | hd
    · exact h.nodes_le d hd
    · exact List.mem_singleton.1 hd ▸ hnodes
  · simp only [hreach.trees, List.map_append, List.sum_append, List.map_cons, List.map_nil,
      List.sum_cons, List.sum_nil]
    omega

/-- Together the cache trees have no more nodes than bytes have been read. -/
theorem Track.Counted.sum_nodes_le {t : Track} (h : t.Counted) :
    (t.trees.map Tally.nodes).sum ≤ t.position :=
  (List.sum_le_sum h.nodes_le).trans h.bytes_le

namespace Machine

variable {data : Bytes} {entries : List Entry}

/-- An extension moves the position over its letters, its length and its bytes. -/
theorem position_of_readExtension {t t' : Track} {letters payload : Bytes}
    (ht : t.position ≤ data.length) (ht' : t'.position ≤ data.length)
    (h : Image.readExtension (cursorAt data t.position) =
      .ok ((letters, payload), cursorAt data t'.position)) :
    letters.length = 4 ∧ t'.position = t.position + 8 + payload.length := by
  simp only [Image.readExtension, Reader.bind_eq_ok, Reader.pure_eq_ok] at h
  obtain ⟨_, c₁, h₁, size, c₂, h₂, _, c₃, h₃, h₄, h₅⟩ := h
  cases h₄
  obtain ⟨hletters, hr₁, -⟩ := Reader.take_eq_ok.1 h₁
  obtain ⟨-, hr₃, -⟩ := Reader.take_eq_ok.1 h₃
  have hr₂ := Reader.length_of_word h₂
  have hr₁ := congrArg List.length hr₁
  have hr₃ := congrArg List.length hr₃
  have hr₅ := congrArg (fun c => c.rest.length) h₅
  simp only [cursorAt, List.length_append, List.length_drop] at hr₁ hr₃ hr₅
  exact ⟨hletters, by omega⟩

/-- What is left are the bytes from the position on. -/
theorem remaining_apply {t : Track} (ht : t.position ≤ data.length) :
    remaining data t = .ok (.ok (data.length - t.position), t) := by
  rw [remaining, bind_apply, position]
  dsimp only
  rw [Checked.sub_eq ht]
  rfl

/-- Extensions are read without a stop, in as many rounds as there are bytes and one more. -/
theorem readExtensions_eq (hd : data.length + 32 < 2 ^ 64) (hlen : entries.length < 2 ^ 64)
    (rounds : Nat) (cache : CacheTree) {t : Track} (ht : t.position ≤ data.length)
    (hrounds : data.length - t.position < rounds) (hcounted : t.Counted) :
    ∃ t', readExtensions data entries rounds cache t =
        .ok (Image.readExtensions entries cache (cursorAt data t.position), t') ∧
      t'.Counted ∧ t'.position ≤ data.length := by
  induction rounds generalizing cache t with
  | zero => omega
  | succ rounds ih =>
    rw [readExtensions, bind_apply, remaining_apply ht]
    dsimp only
    by_cases hend : data.length - t.position = 0
    · have hrest : (cursorAt data t.position).rest = [] := List.drop_eq_nil_iff.2 (by omega)
      rw [if_pos hend, Image.readExtensions_of_isEmpty hrest]
      exact ⟨t, rfl, hcounted, ht⟩
    have hrest : (cursorAt data t.position).rest ≠ [] := by
      rw [cursorAt, Ne, List.drop_eq_nil_iff]
      omega
    obtain ⟨x, t₁, hrun, hreach, hx⟩ := readExtension_follows (by omega) t ht
    rw [if_neg hend, bind_apply, hrun, Image.readExtensions_of_ne_nil hrest, hx]
    have hcounted₁ := hcounted.mono hreach
    obtain e | ⟨letters, payload⟩ := x
    · exact ⟨t₁, rfl, hcounted₁, hreach.within⟩
    obtain ⟨hletters, hposition⟩ := position_of_readExtension ht hreach.within hx
    dsimp only [Except.map]
    by_cases htree : letters = Image.treeSignature
    · rw [if_pos htree, if_pos htree]
      obtain ⟨n, hn, hcache⟩ := readCache_eq hlen payload
        (by have := hreach.within; omega)
      have hcounted₂ := hcounted.append (c := ⟨payload.length, n⟩) hreach hn (by dsimp only; omega)
      rw [bind_apply, hcache]
      cases Image.readCache entries payload with
      | error e => exact ⟨_, rfl, hcounted₂, hreach.within⟩
      | ok cache => exact ih cache hreach.within (by dsimp only; omega) hcounted₂
    · rw [if_neg htree, if_neg htree]
      obtain ⟨first, hfirst, hoptional⟩ : ∃ b, letters[0]? = some b ∧
          Image.isOptional letters = (0x41 ≤ b && b ≤ 0x5a) := by
        cases letters with
        | nil => cases hletters
        | cons b s => exact ⟨b, rfl, rfl⟩
      rw [step_bind (Checked.item_eq hfirst), hoptional]
      split
      · exact ih cache hreach.within (by omega) hcounted₁
      · exact ⟨t₁, rfl, hcounted₁, hreach.within⟩

/-! ## Files -/

/-- What precedes a trailer is the file without it. -/
theorem length_of_detach? {file content : Bytes} (h : Trailer.detach? file = some content) :
    content.length = file.length - Trailer.size := by
  simp only [Trailer.detach?, Option.ite_none_right_eq_some, Option.some.injEq] at h
  rw [← h.2, List.length_take]
  omega

/-- The content of a file is read without a stop. -/
theorem decode_content {file content : Bytes} (hfile : ¬ file.length < 12 + Trailer.size)
    (hcontent : Trailer.detach? file = some content) (hd : content.length + 32 < 2 ^ 64) :
    ∃ t, decode file .start = .ok (Image.decode file, t) ∧ t.Counted ∧
      t.position ≤ content.length := by
  have hstart : Track.Counted .start := ⟨by simp [Track.start], by simp [Track.start]⟩
  obtain ⟨x, t, hrun, hreach, hx⟩ := readTable_follows (by omega) .start (Nat.zero_le content.length)
  have hcounted := hstart.mono hreach
  have hx : Image.readTable ⟨0, content⟩ = x.map fun a => (a, cursorAt content t.position) := hx
  rw [decode, if_neg hfile, step_bind (detach?_eq file), Image.decode, if_neg hfile, hcontent]
  dsimp only
  rw [bind_apply, hrun, hx]
  obtain e | ⟨version, entries⟩ := x
  · exact ⟨t, rfl, hcounted, hreach.within⟩
  · have hlen := (Image.readTable_eq_ok hx).1
    have hlen' : entries.length < 2 ^ 64 := by omega
    obtain ⟨t', hrun', hcounted', hwithin⟩ := readExtensions_eq hd hlen' (content.length + 1) .empty
      hreach.within (by omega) hcounted
    refine ⟨t', ?_, hcounted', hwithin⟩
    dsimp only
    rw [bind_apply, hrun']
    dsimp only [Except.map]
    cases Image.readExtensions entries .empty (cursorAt content t.position) <;> rfl

/-- No file makes the machine stop: on files of fewer than 2^64 bytes every sum fits, no difference
is below zero, nothing is taken from outside of the data, and the position neither leaves the data
nor moves back. It ends with what the file is decoded as, a value or a fault. However many
subdirectories the nodes of a cache tree state, no more nodes are read than it has bytes, and no
more in all cache trees than the file has before its trailer. -/
theorem decode_eq (file : Bytes) (h : file.length < 2 ^ 64) :
    ∃ t, decode file .start = .ok (Image.decode file, t) ∧
      t.position ≤ file.length - Trailer.size ∧
      (∀ c ∈ t.trees, c.nodes ≤ c.bytes) ∧
      (t.trees.map Tally.nodes).sum ≤ file.length - Trailer.size := by
  obtain ⟨t, hrun, hcounted, hposition⟩ : ∃ t, decode file .start = .ok (Image.decode file, t) ∧
      t.Counted ∧ t.position ≤ file.length - Trailer.size := by
    have hstart : Track.Counted .start := ⟨by simp [Track.start], by simp [Track.start]⟩
    by_cases hshort : file.length < 12 + Trailer.size
    · refine ⟨.start, ?_, hstart, Nat.zero_le _⟩
      rw [decode, if_pos hshort, Image.decode, if_pos hshort]
      rfl
    · cases hcontent : Trailer.detach? file with
      | none =>
        refine ⟨.start, ?_, hstart, Nat.zero_le _⟩
        rw [decode, if_neg hshort, step_bind (detach?_eq file), Image.decode, if_neg hshort, hcontent]
        rfl
      | some content =>
        have hlen := length_of_detach? hcontent
        have hsize : Trailer.size = 32 := rfl
        rw [← hlen]
        exact decode_content hshort hcontent (by omega)
  exact ⟨t, hrun, hposition, hcounted.nodes_le, hcounted.sum_nodes_le.trans hposition⟩

/-- The content of a file without entries and with one extension that holds a cache tree. -/
def bareContent (payload : Bytes) : Bytes :=
  Image.signature ++ (Bytes.ofWord32 Version.v2.toWord ++ Bytes.ofWord32 0) ++
    (Image.treeSignature ++ (Bytes.ofWord32 (UInt32.ofNat payload.length) ++ payload))

/-- The trailer, the head of the file and the head of the extension come to the rest. -/
theorem length_bareContent (payload : Bytes) :
    (Trailer.attach (bareContent payload)).length = 52 + payload.length := by
  simp [Trailer.attach, bareContent, Image.signature, Image.treeSignature]
  omega

/-- A file without entries is refused where its cache tree is. -/
theorem decode_bareContent {payload : Bytes} {e : IndexError} (hn : payload.length < 2 ^ 32)
    (h : Image.readCache [] payload = .error e) :
    Image.decode (Trailer.attach (bareContent payload)) = .error e := by
  have hlen : ¬ (Trailer.attach (bareContent payload)).length < 12 + Trailer.size := by
    rw [length_bareContent, Trailer.size]
    omega
  have htable : Image.readTable ⟨0, bareContent payload⟩ = .ok ((.v2, []), ⟨12, Image.treeSignature ++
      (Bytes.ofWord32 (UInt32.ofNat payload.length) ++ payload)⟩) :=
    Image.reads_table 0 Table.invariant_nil (by simp) (by simp) (by simp) _
  rw [Image.decode, if_neg hlen, Trailer.detach?_attach]
  dsimp only
  rw [htable]
  dsimp only
  rw [Image.readExtensions_tree hn, h]
  rfl

/-- Whatever number of subdirectories a root states, without bytes for them the first is missing. -/
theorem parse_header_of_pos {n : Nat} (hpos : 0 < n) (hn : n < UInt64.size) :
    CacheTree.parse (CacheTree.header [] none n) = .error .missingSubtree := by
  have hheader : CacheTree.parseHeader (CacheTree.header [] none n ++ []) = .ok ([], none, n, []) :=
    CacheTree.parseHeader_header ⟨List.not_mem_nil, List.not_mem_nil⟩ (by simp) hn []
  obtain ⟨m, rfl⟩ := Nat.exists_eq_succ_of_ne_zero hpos.ne'
  rw [List.append_nil] at hheader
  rw [CacheTree.parse, CacheTree.parseNode, hheader]
  rfl

/-- A file whose root states more subdirectories than any file has bytes. -/
def boundlessFile : Bytes :=
  Trailer.attach (bareContent (CacheTree.header [] none (2 ^ 64 - 1)))

/-- The root is read, and then the bytes end. -/
theorem decode_eq_boundless :
    boundlessFile.length < 2 ^ 64 ∧
      ∃ t, decode boundlessFile .start = .ok (.error (.corruptCacheTree .missingSubtree), t) ∧
        t.position ≤ boundlessFile.length - Trailer.size ∧
        (∀ c ∈ t.trees, c.nodes ≤ c.bytes) ∧
        (t.trees.map Tally.nodes).sum ≤ boundlessFile.length - Trailer.size := by
  have hpayload : (CacheTree.header [] none (2 ^ 64 - 1)).length = 25 := by cbv
  have hlen : boundlessFile.length < 2 ^ 64 := by
    rw [boundlessFile, length_bareContent, hpayload]
    decide
  have hcache : Image.readCache [] (CacheTree.header [] none (2 ^ 64 - 1)) =
      .error (.corruptCacheTree .missingSubtree) := by
    rw [Image.readCache, parse_header_of_pos (by decide) (by decide)]
  refine ⟨hlen, ?_⟩
  rw [← decode_bareContent (by omega) hcache]
  exact decode_eq boundlessFile hlen

end Machine

end StagingIndex
