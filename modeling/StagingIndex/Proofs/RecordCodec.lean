import Mathlib
import StagingIndex.Proofs.NumberCodec
import StagingIndex.Proofs.Decoding
import StagingIndex.Image.Record

/-! # Records are read back

What a reader makes of some bytes does not depend on what follows them, so the parts of a record are
read back one by one.

* `Reader.Reads` — a reader makes a value of some bytes, whatever follows
* `Reader.Reads.bind` — one part after another
* `Record.reads_encode` — the entry of a record -/

namespace StagingIndex

/-! ## Readers of one part -/

namespace Reader

variable {α β : Type} {offset : Nat}

/-- From an offset on a reader makes a value of some bytes, and leaves what follows them. -/
def Reads (r : Reader α) (offset : Nat) (s : Bytes) (a : α) : Prop :=
  ∀ rest, r ⟨offset, s ++ rest⟩ = .ok (a, ⟨offset + s.length, rest⟩)

/-- One part is read after another. -/
theorem Reads.bind {r : Reader α} {f : α → Reader β} {s t : Bytes} {a : α} {b : β}
    (hr : Reads r offset s a) (hf : Reads (f a) (offset + s.length) t b) :
    Reads (r >>= f) offset (s ++ t) b := by
  intro rest
  rw [bind_eq_ok]
  refine ⟨a, ⟨offset + s.length, t ++ rest⟩, ?_, ?_⟩
  · rw [List.append_assoc]
    exact hr (t ++ rest)
  · rw [hf rest, List.length_append, Nat.add_assoc]

/-- A value that needs no bytes. -/
theorem reads_pure (a : α) : Reads (pure a) offset [] a := fun _ => rfl

/-- The offset needs no bytes. -/
theorem reads_offset : Reads Reader.offset offset [] offset := fun _ => rfl

/-- What needs no bytes can be put before any reader. -/
theorem Reads.nil_bind {r : Reader α} {f : α → Reader β} {t : Bytes} {a : α} {b : β}
    (hr : Reads r offset [] a) (hf : Reads (f a) offset t b) : Reads (r >>= f) offset t b :=
  hr.bind hf

/-- The last step may need no bytes. -/
theorem Reads.bind_nil {r : Reader α} {f : α → Reader β} {s : Bytes} {a : α} {b : β}
    (hr : Reads r offset s a) (hf : Reads (f a) (offset + s.length) [] b) :
    Reads (r >>= f) offset s b := by
  have := hr.bind hf
  rwa [List.append_nil] at this

/-- A check that passes needs no bytes. -/
theorem reads_lift {x : Except IndexError α} {a : α} (h : x = .ok a) :
    Reads (liftM x : Reader α) offset [] a := fun _ => lift_eq_ok.2 ⟨h, rfl⟩

/-- Bytes are read back by their number. -/
theorem reads_take (s : Bytes) : Reads (take s.length) offset s s := by
  intro rest
  rw [take_eq_ok]
  exact ⟨rfl, rfl, rfl⟩

/-- A word is read back. -/
theorem reads_word (w : UInt32) : Reads word offset (Bytes.ofWord32 w) w := by
  intro rest
  simp only [word, Bytes.ofWord32, List.cons_append, List.nil_append, Bytes.word32_ofNat]
  rfl

/-- A half word is read back. -/
theorem reads_halfWord (w : UInt16) : Reads halfWord offset (Bytes.ofWord16 w) w := by
  intro rest
  simp only [halfWord, Bytes.ofWord16, List.cons_append, List.nil_append, Bytes.word16_ofNat]
  rfl

/-- Bytes without a zero byte are read back by the zero byte after them. -/
theorem reads_untilNul {s : Bytes} (hs : Bytes.nul ∉ s) :
    Reads untilNul offset (s ++ [Bytes.nul]) s := by
  intro rest
  simp [untilNul, List.append_assoc, Bytes.splitAt?_append hs, Nat.add_assoc]

/-- An offset number is read back. -/
theorem reads_varint {n : Nat} (hn : n < 2 ^ 64) : Reads varint offset (Varint.encode n) n := by
  intro rest
  simp [varint, Varint.decode?_encode hn]

/-- Any bytes up to an offset are passed over. -/
theorem reads_seek {s : Bytes} {target : Nat} (h : target = offset + s.length) :
    Reads (seek target) offset s () := by
  intro rest
  subst h
  simp [seek]

/-- An object name is read back. -/
theorem reads_objectId (id : ObjectId) : Reads objectId offset id.bytes id := by
  intro rest
  simp [objectId, id.length_bytes]

/-- A moment is read back. -/
theorem reads_timestamp (t : Timestamp) : Reads timestamp offset (Record.timestampBytes t) t :=
  (reads_word t.seconds).bind ((reads_word t.nanos).bind_nil (reads_pure t))

end Reader

/-! ## Records -/

namespace Bytes

/-- Two strings share no more bytes than the first has. -/
theorem sharedLength_le (s t : Bytes) : sharedLength s t ≤ s.length := by
  fun_induction sharedLength s t with
  | case1 s c t ih =>
    simp only [List.length_cons]
    omega
  | case2 b s c t h => omega
  | case3 s t h => omega

end Bytes

namespace Record

open Reader

variable {version : Version} {e : Entry} {offset : Nat}

/-- The word of flags as a number. -/
theorem toNat_flagsWord (assumeValid extended : Bool) (stage : Stage) (length : Nat) :
    (flagsWord assumeValid extended stage length).toNat =
      0x8000 * assumeValid.toNat + 0x4000 * extended.toNat + 0x1000 * stage.toNat +
        min length lengthLimit := by
  have hstage : stage.toNat ≤ 3 := by cases stage <;> decide
  have hv := assumeValid.toNat_le
  have hx := extended.toNat_le
  rw [flagsWord, UInt16.toNat_ofNat', lengthLimit]
  omega

/-- The second word of flags as a number. -/
theorem toNat_extendedWord (f : EntryFlags) :
    (extendedWord f).toNat = 0x4000 * f.skipWorktree.toNat + 0x2000 * f.intentToAdd.toNat := by
  have hs := f.skipWorktree.toNat_le
  have hi := f.intentToAdd.toNat_le
  rw [extendedWord, UInt16.toNat_ofNat']
  omega

/-- A bit that stands for a truth value. -/
theorem decide_toNat_eq_one (b : Bool) : decide (b.toNat = 1) = b := by
  cases b <;> rfl

/-- The second word of flags is read back. -/
theorem reads_extended (hv : version ≠ .v2) (start : Nat) (f : EntryFlags) :
    Reads (readExtended version start { EntryFlags.none with assumeValid := f.assumeValid }) offset
      (Bytes.ofWord16 (extendedWord f)) f := by
  rw [readExtended, if_neg hv]
  refine (reads_halfWord _).bind_nil ?_
  have hs := f.skipWorktree.toNat_le
  have hi := f.intentToAdd.toNat_le
  have hn := toNat_extendedWord f
  have hskip : (extendedWord f).toNat / 0x4000 % 2 = f.skipWorktree.toNat := by omega
  have hintent : (extendedWord f).toNat / 0x2000 % 2 = f.intentToAdd.toNat := by omega
  have hknown : ¬ ((extendedWord f).toNat / 0x8000 = 1 ∨ (extendedWord f).toNat % 0x2000 ≠ 0) := by
    omega
  simp only [hknown, if_false, hskip, hintent, decide_toNat_eq_one]
  exact reads_pure f

/-- The path of a record of version 4 is read back from the path before it. -/
theorem reads_path_v4 {previous : Bytes} (hn : Bytes.nul ∉ e.path)
    (hp : previous.length - Bytes.sharedLength previous e.path < 2 ^ 64) (start length : Nat) :
    Reads (readPath .v4 start length previous) offset
      (Varint.encode (previous.length - Bytes.sharedLength previous e.path) ++
        (e.path.drop (Bytes.sharedLength previous e.path) ++ [Bytes.nul])) e.path := by
  have hle := Bytes.sharedLength_le previous e.path
  rw [readPath]
  refine reads_offset.nil_bind ((reads_varint hp).bind ?_)
  rw [if_neg (by omega)]
  refine (reads_untilNul fun h => hn (List.mem_of_mem_drop h)).bind_nil ?_
  have hpath : previous.take (previous.length - (previous.length -
      Bytes.sharedLength previous e.path)) ++ e.path.drop (Bytes.sharedLength previous e.path) =
        e.path := by
    rw [Nat.sub_sub_self hle, Bytes.take_sharedLength, List.take_append_drop]
  rw [hpath]
  exact reads_pure e.path

/-- There is at least one byte of padding. -/
theorem lt_paddedLength (n : Nat) : n < paddedLength n := by
  rw [paddedLength]
  omega

/-- The path of a padded record is read back: by its length as far as lengths are recorded, and by
the first byte of padding from there on. -/
theorem reads_path_padded (hv : version ≠ .v4) (hn : Bytes.nul ∉ e.path) (previous : Bytes)
    {start used : Nat} (hused : offset = start + used) :
    Reads (readPath version start (min e.path.length lengthLimit) previous) offset
      (e.path ++ List.replicate (paddedLength (used + e.path.length) - (used + e.path.length))
        Bytes.nul) e.path := by
  have hpad := lt_paddedLength (used + e.path.length)
  -- Versions 2 and 3 have the same reader.
  have hreads : Reads (do
      let path ← if min e.path.length lengthLimit < lengthLimit then
          Reader.take (min e.path.length lengthLimit) else Reader.untilNul
      Reader.seek (start + paddedLength (offset - start + path.length))
      return path) offset
      (e.path ++ List.replicate (paddedLength (used + e.path.length) - (used + e.path.length))
        Bytes.nul) e.path := by
    have hhere : offset - start + e.path.length = used + e.path.length := by omega
    by_cases hl : e.path.length < lengthLimit
    · rw [Nat.min_eq_left (Nat.le_of_lt hl), if_pos hl]
      refine (reads_take e.path).bind ((reads_seek ?_).bind_nil (reads_pure e.path))
      rw [hhere, List.length_replicate]
      omega
    · -- One byte of padding is read together with the path.
      rw [Nat.min_eq_right (Nat.le_of_not_lt hl), if_neg (Nat.lt_irrefl _)]
      obtain ⟨n, hrep⟩ :=
        Nat.exists_eq_add_of_lt (Nat.sub_pos_of_lt hpad)
      rw [Nat.zero_add] at hrep
      rw [hrep, List.replicate_succ, ← List.singleton_append, ← List.append_assoc]
      refine (reads_untilNul hn).bind ((reads_seek ?_).bind_nil (reads_pure e.path))
      rw [hhere, List.length_append, List.length_replicate, List.length_singleton]
      omega
  rw [readPath]
  refine reads_offset.nil_bind ?_
  cases version with
  | v2 => exact hreads
  | v3 => exact hreads
  | v4 => exact absurd rfl hv

/-- What follows the words of flags: the path, in the form of the version. -/
def tail (version : Version) (previous : Bytes) (e : Entry) : Bytes :=
  match version with
  | .v4 =>
    Varint.encode (previous.length - Bytes.sharedLength previous e.path) ++
      (e.path.drop (Bytes.sharedLength previous e.path) ++ [Bytes.nul])
  | _ =>
    e.path ++ List.replicate (paddedLength ((head version e).length + e.path.length) -
      ((head version e).length + e.path.length)) Bytes.nul

/-- A record is what is before its path and its path. -/
theorem encode_eq (version : Version) (previous : Bytes) (e : Entry) :
    encode version previous e = head version e ++ tail version previous e := by
  cases version <;> simp [encode, tail, List.append_assoc]

/-- The path of a record is read back. -/
theorem reads_path (hn : Bytes.nul ∉ e.path) {previous : Bytes}
    (hp : version = .v4 → previous.length - Bytes.sharedLength previous e.path < 2 ^ 64)
    {start : Nat} (ho : offset = start + (head version e).length) :
    Reads (readPath version start (min e.path.length lengthLimit) previous) offset
      (tail version previous e) e.path := by
  by_cases hv : version = .v4
  · subst hv
    exact reads_path_v4 hn (hp rfl) start _
  · have htail : tail version previous e = e.path ++
        List.replicate (paddedLength ((head version e).length + e.path.length) -
          ((head version e).length + e.path.length)) Bytes.nul := by
      cases version with
      | v2 => rfl
      | v3 => rfl
      | v4 => exact absurd rfl hv
    rw [htail]
    exact reads_path_padded hv hn previous ho

/-- Flags without a second word are those of the first one. -/
theorem flags_of_not_extended (h : e.flags.needsExtended = false) :
    { EntryFlags.none with assumeValid := e.flags.assumeValid } = e.flags := by
  rw [EntryFlags.needsExtended, Bool.or_eq_false_iff] at h
  obtain ⟨hs, hi⟩ := h
  cases hf : e.flags with
  | mk assumeValid skipWorktree intentToAdd =>
    simp_all [EntryFlags.none]

/-- What is before the path of a record. -/
theorem length_head (version : Version) (e : Entry) :
    (head version e).length = 74 + 2 * (isExtended version e).toNat := by
  cases h : isExtended version e <;>
    simp [head, h, fixedPart, timestampBytes, ObjectId.length_bytes]

/-- The entry of a record is read back, if the version has room for its flags, and for how much of
the path before it is stripped. -/
theorem reads_encode {previous : Bytes} (hv : version = .v2 → e.flags.needsExtended = false)
    (hn : Bytes.nul ∉ e.path)
    (hp : version = .v4 → previous.length - Bytes.sharedLength previous e.path < 2 ^ 64) :
    Reads (read version previous) offset (encode version previous e) e := by
  have hstage : e.stage.toNat ≤ 3 := by cases e.stage <;> decide
  have ha := e.flags.assumeValid.toNat_le
  have hx := (isExtended version e).toNat_le
  have hword := toNat_flagsWord e.flags.assumeValid (isExtended version e) e.stage e.path.length
  have hmin : min e.path.length lengthLimit ≤ lengthLimit := Nat.min_le_right _ _
  rw [lengthLimit] at hmin hword
  -- The parts of the word of flags.
  have hvalid : (flagsWord e.flags.assumeValid (isExtended version e) e.stage
      e.path.length).toNat / 0x8000 = e.flags.assumeValid.toNat := by omega
  have hext : (flagsWord e.flags.assumeValid (isExtended version e) e.stage
      e.path.length).toNat / 0x4000 % 2 = (isExtended version e).toNat := by omega
  have hst : (flagsWord e.flags.assumeValid (isExtended version e) e.stage
      e.path.length).toNat / 0x1000 % 4 = e.stage.toNat := by omega
  have hlen : (flagsWord e.flags.assumeValid (isExtended version e) e.stage
      e.path.length).toNat % 0x1000 = min e.path.length lengthLimit := by
    rw [lengthLimit]
    omega
  have hagree : ¬ (min e.path.length lengthLimit < lengthLimit ∧
      min e.path.length lengthLimit ≠ e.path.length) := by omega
  rw [encode_eq, head, fixedPart]
  simp only [List.append_assoc]
  refine reads_offset.nil_bind ((reads_timestamp _).bind ((reads_timestamp _).bind
    ((reads_word _).bind ((reads_word _).bind ((reads_word _).bind ((reads_word _).bind
      ((reads_word _).bind ((reads_word _).bind ((reads_objectId _).bind
        ((reads_halfWord _).bind ?_))))))))))
  simp only [Mode.ofBits?_bits, hst, Stage.ofNat?_toNat, hvalid, hext, hlen, decide_toNat_eq_one]
  -- What is left once the flags are known.
  have hrest : ∀ here, here = offset + (head version e).length →
      Reads (do
        let path ← readPath version offset (min e.path.length lengthLimit) previous
        if min e.path.length lengthLimit < lengthLimit ∧
            min e.path.length lengthLimit ≠ path.length then
          Reader.fail offset .nameLengthMismatch
        else return { e with path }) here (tail version previous e) e := by
    intro here hhere
    refine (reads_path hn hp hhere).bind_nil ?_
    rw [if_neg hagree]
    exact reads_pure e
  cases he : isExtended version e with
  | true =>
    have hv2 : version ≠ .v2 := by
      rintro rfl
      simp [isExtended] at he
    refine (reads_extended hv2 _ e.flags).bind (hrest _ ?_)
    simp [length_head, he, timestampBytes, ObjectId.length_bytes]
  | false =>
    have hflags : e.flags.needsExtended = false := by
      by_cases h2 : version = .v2
      · exact hv h2
      · simpa [isExtended, h2] using he
    rw [flags_of_not_extended hflags]
    refine (reads_pure e.flags).bind (hrest _ ?_)
    simp [length_head, he, timestampBytes, ObjectId.length_bytes]

end Record

end StagingIndex
