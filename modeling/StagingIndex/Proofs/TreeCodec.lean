import Mathlib
import StagingIndex.Proofs.NumberCodec
import StagingIndex.Proofs.TableInvariant
import StagingIndex.Tree

/-! # Listings are read back

An item of a listing ends with an object name, which is as long as any other, and what stands before
that is delimited by a space and a zero byte. So every listing whose names have no zero byte is read
back item by item. What is read need not have been written so: a mode may be padded, signed, or the
old one of regular files. Just the listings in which every mode has its plain numeral are written as
they were read.

* `TreeItem.parse_bytes`, `TreeItem.parse_eq_ok` — one item, whatever follows it
* `Tree.ofObject_toObject` — a whole listing
* `Mode.numerals`, `Tree.modeFields` — the plain numerals of modes, and what stands for modes in bytes
* `Tree.bytes_eq_iff_of_parse` — which listings are written as they were read
* `Tree.ofObject_roundtrip` — what was written is read, and what was read is written -/

namespace StagingIndex

/-! ## Modes -/

namespace Mode

/-- The octal numerals of the modes, without padding. -/
def numerals : List Bytes :=
  ["100644", "100755", "120000", "160000", "40000"].map Bytes.ofString

/-- They are what is written for the modes. -/
theorem numerals_eq :
    numerals = [regular, executable, symlink, gitlink, directory].map fun m =>
      Numeral.digits 8 m.bits.toNat := by
  cbv

theorem mem_numerals_iff {field : Bytes} :
    field ∈ numerals ↔ ∃ m : Mode, Numeral.digits 8 m.bits.toNat = field := by
  rw [numerals_eq, List.mem_map]
  constructor
  · rintro ⟨m, -, h⟩
    exact ⟨m, h⟩
  · rintro ⟨m, h⟩
    exact ⟨m, by cases m <;> simp, h⟩

end Mode

/-- The bytes that a name is made of are its bytes. -/
theorem ObjectId.bytes_of_ofBytes {s : Bytes} {id : ObjectId} (h : ofBytes s = .ok id) :
    id.bytes = s := by
  rw [ofBytes] at h
  split at h
  · cases h
    rfl
  · cases h

namespace TreeItem

/-- A mode is read back from its octal numeral. -/
theorem parseMode_digits (m : Mode) : parseMode (Numeral.digits 8 m.bits.toNat) = .ok m := by
  have hbits : m.bits.toNat < UInt32.size := m.bits.toNat_lt
  rw [parseMode, Numeral.unsigned?_digits (by decide) (by decide) hbits]
  simp only [UInt32.ofNat_toNat, Mode.ofBits?_bits]

/-- A numeral has no spaces. -/
theorem space_notMem_digits (n : Nat) : Bytes.space ∉ Numeral.digits 8 n := by
  intro h
  have := (Numeral.mem_digits (by decide) (by decide) h).1
  revert this
  decide

/-- A field that a mode is read from is its plain numeral if it is a plain numeral at all. -/
theorem digits_eq_iff_of_parseMode {field : Bytes} {m : Mode} (h : parseMode field = .ok m) :
    Numeral.digits 8 m.bits.toNat = field ↔ field ∈ Mode.numerals := by
  rw [Mode.mem_numerals_iff]
  constructor
  · exact fun hfield => ⟨m, hfield⟩
  · rintro ⟨n, rfl⟩
    rw [parseMode_digits, Except.ok.injEq] at h
    rw [h]

/-! ## Items -/

/-- An item whose name has no zero byte is read back, whatever follows it. -/
theorem parse_bytes {item : TreeItem} (hn : Bytes.nul ∉ item.name) (rest : Bytes) :
    parse (item.bytes ++ rest) = .ok (item, rest) := by
  have hsplit : item.bytes ++ rest = Numeral.digits 8 item.mode.bits.toNat ++
      Bytes.space :: (item.name ++ Bytes.nul :: (item.id.bytes ++ rest)) := by
    simp only [bytes, List.append_assoc, List.cons_append]
  rw [parse, hsplit, Bytes.splitAt?_append (space_notMem_digits _)]
  simp only [parseMode_digits, Bytes.splitAt?_append hn, ObjectId.take_bytes_append,
    ObjectId.drop_bytes_append, ObjectId.ofBytes_bytes]

/-- An item takes up some bytes. -/
theorem bytes_ne_nil (item : TreeItem) : item.bytes ≠ [] := by
  simp [bytes]

/-- What an item is read from: a field for its mode, and its name and id as they are written. -/
theorem parse_eq_ok {s rest : Bytes} {item : TreeItem} (h : parse s = .ok (item, rest)) :
    ∃ field, s = field ++ Bytes.space :: (item.name ++ Bytes.nul :: (item.id.bytes ++ rest)) ∧
      Bytes.space ∉ field ∧ Bytes.nul ∉ item.name ∧ parseMode field = .ok item.mode := by
  unfold parse at h
  split at h
  · cases h
  · rename_i field s₁ hfield
    split at h
    · cases h
    · rename_i mode hmode
      split at h
      · cases h
      · rename_i name s₂ hname
        split at h
        · cases h
        · rename_i id hid
          cases h
          obtain ⟨rfl, hspace⟩ := Bytes.eq_append_of_splitAt? hfield
          obtain ⟨rfl, hnul⟩ := Bytes.eq_append_of_splitAt? hname
          refine ⟨field, ?_, hspace, hnul, hmode⟩
          rw [ObjectId.bytes_of_ofBytes hid, List.take_append_drop]

/-- The name of an item that is read has no zero byte. -/
theorem nul_notMem_of_parse {s rest : Bytes} {item : TreeItem} (h : parse s = .ok (item, rest)) :
    Bytes.nul ∉ item.name := by
  obtain ⟨-, -, -, hnul, -⟩ := parse_eq_ok h
  exact hnul

end TreeItem

/-! ## Listings -/

namespace Tree

/-- A listing in which no name has a zero byte is read back. -/
theorem parse_bytes {items : List TreeItem} (hn : ∀ item ∈ items, Bytes.nul ∉ item.name) :
    parse (Tree.mk items).bytes = .ok items := by
  induction items with
  | nil =>
    rw [bytes, List.flatMap_nil, parse]
    rfl
  | cons item items ih =>
    obtain ⟨hitem, hitems⟩ := List.forall_mem_cons.1 hn
    have hread := TreeItem.parse_bytes hitem (Tree.mk items).bytes
    have hbytes : (Tree.mk (item :: items)).bytes = item.bytes ++ (Tree.mk items).bytes :=
      List.flatMap_cons
    rw [hbytes, parse, if_neg (by simp [item.bytes_ne_nil])]
    split
    · rename_i fault hfault
      rw [hread] at hfault
      cases hfault
    · rename_i t r hparsed
      rw [hread] at hparsed
      cases hparsed
      rw [ih hitems]
      rfl

/-- The object of such a listing holds it. -/
theorem ofObject_toObject {t : Tree} (hn : ∀ item ∈ t.items, Bytes.nul ∉ item.name) :
    ofObject t.toObject = .ok t := by
  have hparse : parse t.bytes = .ok t.items := parse_bytes hn
  simp only [ofObject, toObject, hparse]

/-- No name of a listing that is read has a zero byte. -/
theorem nul_notMem_of_parse {s : Bytes} {items : List TreeItem} (h : parse s = .ok items) :
    ∀ item ∈ items, Bytes.nul ∉ item.name := by
  fun_induction parse s generalizing items with
  | case1 s hs =>
    cases h
    simp
  | case2 s hs fault hparse => cases h
  | case3 s hs item rest hparse ih =>
    obtain ⟨more, hmore, rfl⟩ := Check.map_eq_ok.1 h
    exact List.forall_mem_cons.2 ⟨TreeItem.nul_notMem_of_parse hparse, ih hmore⟩

/-- An object that holds a listing is a tree whose bytes are read as the items. -/
theorem ofObject_eq_ok_iff {o : Object} {t : Tree} :
    ofObject o = .ok t ↔ o.kind = .tree ∧ parse o.data = .ok t.items := by
  rw [ofObject]
  cases o.kind with
  | blob => simp
  | tree =>
    cases hparse : parse o.data with
    | error e => simp
    | ok items => cases t; simp

/-- No name of the listing of an object has a zero byte. -/
theorem nul_notMem_of_ofObject {o : Object} {t : Tree} (h : ofObject o = .ok t) :
    ∀ item ∈ t.items, Bytes.nul ∉ item.name :=
  nul_notMem_of_parse (ofObject_eq_ok_iff.1 h).2

/-! ## What is written for what was read -/

/-- The fields that stand for modes in the bytes of a listing: in each item, what is before its first
space. -/
def modeFields (s : Bytes) : List Bytes :=
  match _hfield : Bytes.splitAt? Bytes.space s with
  | none => []
  | some (field, s₁) =>
    match _hname : Bytes.splitAt? Bytes.nul s₁ with
    | none => [field]
    | some (_, s₂) => field :: modeFields (s₂.drop 32)
termination_by s.length
decreasing_by
  have := Bytes.length_lt_of_splitAt? _hfield
  have := Bytes.length_lt_of_splitAt? _hname
  rw [List.length_drop]
  omega

/-- The bytes of an item have one field, and what follows the item has the others. -/
theorem modeFields_append {field name rest : Bytes} (id : ObjectId) (hs : Bytes.space ∉ field)
    (hn : Bytes.nul ∉ name) :
    modeFields (field ++ Bytes.space :: (name ++ Bytes.nul :: (id.bytes ++ rest))) =
      field :: modeFields rest := by
  rw [modeFields]
  split
  · rename_i hfield
    rw [Bytes.splitAt?_append hs] at hfield
    cases hfield
  · rename_i field' s₁ hfield
    rw [Bytes.splitAt?_append hs] at hfield
    cases hfield
    split
    · rename_i hname
      rw [Bytes.splitAt?_append hn] at hname
      cases hname
    · rename_i name' s₂ hname
      rw [Bytes.splitAt?_append hn] at hname
      cases hname
      rw [ObjectId.drop_bytes_append]

/-- A listing that was read is written as it was read if and only if every mode has its plain
numeral. -/
theorem bytes_eq_iff_of_parse {s : Bytes} {items : List TreeItem} (h : parse s = .ok items) :
    (Tree.mk items).bytes = s ↔ ∀ field ∈ modeFields s, field ∈ Mode.numerals := by
  fun_induction parse s generalizing items with
  | case1 s hs =>
    cases h
    obtain rfl := List.isEmpty_iff.1 hs
    rw [bytes, List.flatMap_nil, modeFields]
    exact iff_of_true rfl (by simp [Bytes.splitAt?])
  | case2 s hs fault hparse => cases h
  | case3 s hs item rest hparse ih =>
    obtain ⟨more, hmore, rfl⟩ := Check.map_eq_ok.1 h
    obtain ⟨field, rfl, hspace, hnul, hmode⟩ := TreeItem.parse_eq_ok hparse
    have hbytes : (Tree.mk (item :: more)).bytes = Numeral.digits 8 item.mode.bits.toNat ++
        Bytes.space :: (item.name ++ Bytes.nul :: (item.id.bytes ++ (Tree.mk more).bytes)) := by
      simp only [bytes, List.flatMap_cons, TreeItem.bytes, List.append_assoc, List.cons_append]
    -- Name and id are written as they were read, so the field and the rest decide.
    rw [modeFields_append item.id hspace hnul, List.forall_mem_cons, ← ih hmore,
      ← TreeItem.digits_eq_iff_of_parseMode hmode, hbytes,
      Bytes.append_cons_inj (TreeItem.space_notMem_digits _) hspace, List.append_right_inj,
      List.cons.injEq, and_iff_right rfl, List.append_right_inj]

/-- Every listing whose names have no zero byte is read back from its object, whatever its names are
and in whatever order they stand. A listing that was read from some bytes is written as the same bytes
if and only if every mode field in them is the plain numeral of a mode, and what is written for it is
read as the same listing in any case. -/
theorem ofObject_roundtrip :
    (∀ t : Tree, (∀ item ∈ t.items, Bytes.nul ∉ item.name) → ofObject t.toObject = .ok t) ∧
      ∀ (s : Bytes) (t : Tree), ofObject ⟨.tree, s⟩ = .ok t →
        (t.bytes = s ↔ ∀ field ∈ modeFields s, field ∈ Mode.numerals) ∧
          ofObject ⟨.tree, t.bytes⟩ = .ok t := by
  refine ⟨fun t => ofObject_toObject, fun s t h => ⟨?_, ?_⟩⟩
  · exact bytes_eq_iff_of_parse (ofObject_eq_ok_iff.1 h).2
  · exact ofObject_toObject (nul_notMem_of_ofObject h)

/-- A file whose name ends in a space, a directory without a name, and the file once more. -/
def oddNames : Tree :=
  ⟨[⟨.regular, [0x62, Bytes.space], .filled Bytes.space⟩, ⟨.directory, [], .null⟩,
    ⟨.regular, [0x62, Bytes.space], .null⟩]⟩

/-- A file `a` whose mode is the old one, with a sign and a zero in front, and a link with a plain
mode. -/
def oldModes : Bytes :=
  Bytes.ofString "+0100664 a" ++ Bytes.nul :: (ObjectId.null.bytes ++
    (Bytes.ofString "120000 b" ++ Bytes.nul :: ObjectId.null.bytes))

/-- The odd names are read back, and the old mode is written as that of regular files. -/
theorem ofObject_roundtrip_oldModes :
    ofObject oddNames.toObject = .ok oddNames ∧
      ofObject ⟨.tree, oldModes⟩ = .ok ⟨[⟨.regular, [0x61], .null⟩, ⟨.symlink, [0x62], .null⟩]⟩ ∧
      (Tree.mk [⟨.regular, [0x61], .null⟩, ⟨.symlink, [0x62], .null⟩]).bytes ≠ oldModes ∧
      ofObject ⟨.tree, (Tree.mk [⟨.regular, [0x61], .null⟩, ⟨.symlink, [0x62], .null⟩]).bytes⟩ =
        .ok ⟨[⟨.regular, [0x61], .null⟩, ⟨.symlink, [0x62], .null⟩]⟩ := by
  have hread : ofObject ⟨.tree, oldModes⟩ =
      .ok ⟨[⟨.regular, [0x61], .null⟩, ⟨.symlink, [0x62], .null⟩]⟩ := by cbv
  obtain ⟨hiff, hagain⟩ := ofObject_roundtrip.2 _ _ hread
  refine ⟨ofObject_roundtrip.1 oddNames (by decide), hread, fun h => ?_, hagain⟩
  have hfields : modeFields oldModes = [Bytes.ofString "+0100664", Bytes.ofString "120000"] := by cbv
  have hplain := hiff.1 h (Bytes.ofString "+0100664") (by rw [hfields]; exact List.mem_cons_self)
  revert hplain
  decide

end Tree

end StagingIndex
