import Mathlib
import StagingIndex.Proofs.CheckedMachine
import StagingIndex.Proofs.RecordCodec

/-! # Reading by positions

The reader of an index file on the machine that stops: each step takes bytes from a position and
moves it on. A record may state any length; every length is held against the end of the file before
it is used, so that no step stops.

* `Machine.take`, `Machine.word`, `Machine.untilNul`, `Machine.varint`, `Machine.seek` — single steps
* `Machine.readRecord`, `Machine.readEntries` — records
* `Machine.Follows` — a program does what a reader does from every position on
* `Machine.readRecord_follows`, `Machine.readEntries_follows` — reading records by positions -/

namespace StagingIndex

namespace Machine

variable {α β : Type}

/-! ## Programs -/

section Programs

variable (data : Bytes)

/-- Read `n` bytes. -/
def take (n : Nat) : Machine IndexError Bytes := do
  let here ← position
  match (Checked.add? here n).filter (· ≤ data.length) with
  | none => fault (.malformed here .endOfData)
  | some target =>
    let s ← Checked.slice data here target
    moveTo data target
    return s

/-- Read a word of four bytes. -/
def word : Machine IndexError UInt32 := do
  let s ← take data 4
  let w ← Checked.item s 0
  let x ← Checked.item s 1
  let y ← Checked.item s 2
  let z ← Checked.item s 3
  return Bytes.word32 w x y z

/-- Read a half word of two bytes. -/
def halfWord : Machine IndexError UInt16 := do
  let s ← take data 2
  let y ← Checked.item s 0
  let z ← Checked.item s 1
  return Bytes.word16 y z

/-- Read the bytes before the next zero byte, and that byte too. -/
def untilNul : Machine IndexError Bytes := do
  let here ← position
  let rest ← Checked.sliceFrom data here
  match ← Checked.splitAt? Bytes.nul rest with
  | none => fault (.malformed here .unterminatedPath)
  | some (s, used, _) =>
    let target ← Checked.add here used
    moveTo data target
    return s

/-- The number that a further group of seven bits makes of `value`, if it fits into sixty-four
bits. -/
def nextValue? (value group : Nat) : Option Nat :=
  ((Checked.add? value 1).bind (Checked.mul? · 128)).bind (Checked.add? · group)

/-- Read on in an offset number, where `value` has been read from `used` bytes and `b` is the byte
that it ended with. -/
def varintFrom (value used : Nat) (b : UInt8) : Bytes → Except Trap (Option (Nat × Nat))
  | [] => .ok (if b < 128 then some (value, used) else none)
  | c :: s =>
    if b < 128 then .ok (some (value, used))
    else do
      let used ← Checked.add used 1
      match nextValue? value (c.toNat % 128) with
      | none => .ok none
      | some value => varintFrom value used c s

/-- The offset number at the start of some bytes, and how many bytes it takes. -/
def varint? : Bytes → Except Trap (Option (Nat × Nat))
  | [] => .ok none
  | b :: s => varintFrom (b.toNat % 128) 1 b s

/-- Read an offset number. -/
def varint : Machine IndexError Nat := do
  let here ← position
  let rest ← Checked.sliceFrom data here
  match ← varint? rest with
  | none => fault (.malformed here .badPrefixLength)
  | some (value, used) =>
    let target ← Checked.add here used
    moveTo data target
    return value

/-- Move on to a position, which may be the end of the file. -/
def seek (target : Nat) : Machine IndexError Unit := do
  let here ← position
  if data.length < target then fault (.malformed here .recordPastEnd)
  else
    moveTo data target
    return ()

/-- Read an object name. -/
def objectId : Machine IndexError ObjectId := do
  let here ← position
  let s ← take data 32
  match ObjectId.ofBytes s with
  | .ok id => return id
  | .error _ => fault (.malformed here .endOfData)

/-- Read a moment. -/
def timestamp : Machine IndexError Timestamp := do
  let seconds ← word data
  let nanos ← word data
  return ⟨seconds, nanos⟩

/-- Read the second word of flags, of a record that starts at `start`. -/
def readExtended (version : Version) (start : Nat) (flags : EntryFlags) :
    Machine IndexError EntryFlags := do
  if version = .v2 then fault (.malformed start .extendedInVersion2)
  else
    let word ← halfWord data
    let n := word.toNat
    if n / 0x8000 = 1 ∨ n % 0x2000 ≠ 0 then fault (.malformed start (.unknownExtended word))
    else
      return { flags with
        skipWorktree := n / 0x4000 % 2 = 1
        intentToAdd := n / 0x2000 % 2 = 1 }

/-- Read a path and move on to the end of its record, which starts at `start` and has `header` bytes
before the path. -/
def readPadded (start header length : Nat) : Machine IndexError Bytes := do
  let path ← if length < Record.lengthLimit then take data length else untilNul data
  let used ← Checked.add header path.length
  let padded ← Checked.add used 8
  let target ← Checked.add start (padded / 8 * 8)
  seek data target
  return path

/-- Read the path of a record that starts at `start`, where `length` has been recorded for it. -/
def readPath (version : Version) (start length : Nat) (previous : Bytes) :
    Machine IndexError Bytes := do
  let here ← position
  let header ← Checked.sub here start
  match version with
  | .v4 =>
    let strip ← varint data
    if previous.length < strip then fault (.malformed start .stripTooLong)
    else
      let suffix ← untilNul data
      let kept ← Checked.sub previous.length strip
      let path ← Checked.slice previous 0 kept
      return path ++ suffix
  | _ => readPadded data start header length

/-- Read the record of an entry that follows an entry with path `previous`. -/
def readRecord (version : Version) (previous : Bytes) : Machine IndexError Entry := do
  let start ← position
  let ctime ← timestamp data
  let mtime ← timestamp data
  let dev ← word data
  let ino ← word data
  let bits ← word data
  let uid ← word data
  let gid ← word data
  let size ← word data
  let id ← objectId data
  let word ← halfWord data
  let n := word.toNat
  match Mode.ofBits? bits, Stage.ofNat? (n / 0x1000 % 4) with
  | some mode, some stage =>
    let flags : EntryFlags := { EntryFlags.none with assumeValid := n / 0x8000 = 1 }
    let flags ← if n / 0x4000 % 2 = 1 then readExtended data version start flags else pure flags
    let length := n % 0x1000
    let path ← readPath data version start length previous
    if length < Record.lengthLimit ∧ length ≠ path.length then
      fault (.malformed start .nameLengthMismatch)
    else return { path, stage, mode, id, ctime, mtime, dev, ino, uid, gid, size, flags }
  | _, _ => fault (.malformed start (.invalidMode bits))

/-- Read a number of records after those that are read already. -/
def readEntries (version : Version) : Nat → List Entry → Machine IndexError (List Entry)
  | 0, entries => return entries
  | n + 1, entries => do
    let offset ← position
    let e ← readRecord data version ((entries.getLast?.map Entry.path).getD [])
    check (Image.checkEntry offset entries.getLast? e)
    readEntries version n (entries ++ [e])

end Programs

/-! ## Agreement with the reader -/

/-- The cursor at a position. -/
def cursorAt (data : Bytes) (position : Nat) : Cursor := ⟨position, data.drop position⟩

/-- From every position in the data, a program does not stop and does what a reader does. -/
def Follows (data : Bytes) (m : Machine IndexError α) (r : Reader α) : Prop :=
  ∀ t : Track, t.position ≤ data.length → Agrees (cursorAt data) data.length t m r

variable {data : Bytes}

/-- Two programs one after the other follow two readers. -/
theorem Follows.bind {m : Machine IndexError α} {f : α → Machine IndexError β} {r : Reader α}
    {g : α → Reader β} (hm : Follows data m r) (hf : ∀ a, Follows data (f a) (g a)) :
    Follows data (m >>= f) (r >>= g) :=
  fun t ht => (hm t ht).bind fun a t' h _ => hf a t' h.within

theorem follows_pure (a : α) : Follows data (pure a) (pure a) := fun _ ht => .pure ht a

theorem follows_fault (offset : Nat) (e : ImageFault) :
    Follows data (fault (.malformed offset e) : Machine IndexError α) (Reader.fail offset e) :=
  fun _ ht => .fault ht _

/-- A look at the position is a look at the offset. -/
theorem Agrees.offset {length : Nat} {t : Track} {f : Nat → Machine IndexError β}
    {g : Nat → Reader β} (hf : Agrees (cursorAt data) length t (f t.position) (g t.position)) :
    Agrees (cursorAt data) length t (Machine.position >>= f) (Reader.offset >>= g) := hf

/-- What is taken ends within the data: that is looked at before it is taken. -/
theorem take_follows (hd : data.length < 2 ^ 64) (n : Nat) :
    Follows data (take data n) (Reader.take n) := by
  intro t ht
  refine .position ?_
  by_cases hn : t.position + n ≤ data.length
  · have hadd : (Checked.add? t.position n).filter (· ≤ data.length) = some (t.position + n) := by
      rw [Checked.add?_eq (by omega)]
      simp [hn]
    simp only [hadd]
    refine .step (Checked.slice_eq (by omega) hn) ?_
    refine .moveTo (by omega) hn ?_ (.pure hn _)
    have hlen : ((data.drop t.position).take n).length = n := by simp; omega
    simp only [cursorAt, Reader.take, hlen, if_true, List.drop_drop, Nat.add_sub_cancel_left]
    rfl
  · have hadd : (Checked.add? t.position n).filter (· ≤ data.length) = none := by
      simp only [Checked.add?]
      split <;> simp
      omega
    simp only [hadd]
    refine .congr ?_ (.fault ht _)
    have hlen : ((data.drop t.position).take n).length ≠ n := by simp; omega
    simp only [cursorAt, Reader.take, hlen, if_false]

/-- The four bytes of a word are those that are taken for it. -/
theorem word_follows (hd : data.length < 2 ^ 64) : Follows data (word data) Reader.word := by
  intro t ht
  have hword : Reader.word (cursorAt data t.position) = (do
      let s ← Reader.take 4
      return Bytes.word32 (s.getD 0 0) (s.getD 1 0) (s.getD 2 0) (s.getD 3 0))
        (cursorAt data t.position) := by
    rcases cursorAt data t.position with ⟨o, _ | ⟨w, _ | ⟨x, _ | ⟨y, _ | ⟨z, rest⟩⟩⟩⟩⟩ <;> rfl
  refine .congr hword ((take_follows hd 4 t ht).bind fun s t' h hs => ?_)
  obtain ⟨hlen, -, -⟩ := Reader.take_eq_ok.1 hs
  refine .step (Checked.item_eq_getD (by omega) 0) (.step (Checked.item_eq_getD (by omega) 0) ?_)
  refine .step (Checked.item_eq_getD (by omega) 0) (.step (Checked.item_eq_getD (by omega) 0) ?_)
  exact .pure h.within _

/-- The two bytes of a half word are those that are taken for it. -/
theorem halfWord_follows (hd : data.length < 2 ^ 64) :
    Follows data (halfWord data) Reader.halfWord := by
  intro t ht
  have hword : Reader.halfWord (cursorAt data t.position) = (do
      let s ← Reader.take 2
      return Bytes.word16 (s.getD 0 0) (s.getD 1 0)) (cursorAt data t.position) := by
    rcases cursorAt data t.position with ⟨o, _ | ⟨y, _ | ⟨z, rest⟩⟩⟩ <;> rfl
  refine .congr hword ((take_follows hd 2 t ht).bind fun s t' h hs => ?_)
  obtain ⟨hlen, -, -⟩ := Reader.take_eq_ok.1 hs
  refine .step (Checked.item_eq_getD (by omega) 0) (.step (Checked.item_eq_getD (by omega) 0) ?_)
  exact .pure h.within _

/-- What is read ends with a zero byte in the data. -/
theorem untilNul_follows (hd : data.length < 2 ^ 64) :
    Follows data (untilNul data) Reader.untilNul := by
  intro t ht
  have hlen : (data.drop t.position).length = data.length - t.position := List.length_drop
  refine .position (.step (Checked.sliceFrom_eq ht) (.step (Checked.splitAt?_eq _ (by omega)) ?_))
  cases hsplit : Bytes.splitAt? Bytes.nul (data.drop t.position) with
  | none =>
    refine .congr ?_ (.fault ht _)
    simp only [cursorAt, Reader.untilNul, hsplit]
  | some p =>
    obtain ⟨s, rest⟩ := p
    obtain ⟨hle, hrest⟩ := Bytes.drop_of_splitAt? hsplit
    dsimp only [Option.map]
    refine .step (Checked.add_eq (by omega)) (.moveTo (by omega) hle ?_ (.pure hle s))
    simp only [cursorAt, Reader.untilNul, hsplit, hrest]
    rfl

/-- What follows a number is an end of what it is read from. -/
theorem suffix_of_decodeFrom {value n : Nat} {b : UInt8} {s rest : Bytes}
    (h : Varint.decodeFrom value b s = some (n, rest)) : rest <:+ s := by
  induction s generalizing value b with
  | nil =>
    simp only [Varint.decodeFrom, Option.ite_none_right_eq_some, Option.some.injEq,
      Prod.mk.injEq] at h
    exact h.2.2 ▸ List.suffix_rfl
  | cons c s ih =>
    simp only [Varint.decodeFrom] at h
    split at h
    · cases h
      exact List.suffix_rfl
    · split at h
      · exact (ih h).trans (List.suffix_cons c s)
      · cases h

/-- What follows a number is an end of the bytes at whose start it is. -/
theorem suffix_of_decode? {n : Nat} {s rest : Bytes} (h : Varint.decode? s = some (n, rest)) :
    rest <:+ s := by
  cases s with
  | nil => cases h
  | cons b s => exact (suffix_of_decodeFrom h).trans (List.suffix_cons b s)

/-- No step of a group overflows if its outcome does not. -/
theorem nextValue?_eq (value group : Nat) :
    nextValue? value group =
      if (value + 1) * 128 + group < UInt64.size then some ((value + 1) * 128 + group) else none := by
  simp only [nextValue?, Checked.add?, Checked.mul?, UInt64.size]
  split
  · simp only [Option.bind_some]
    split
    · rfl
    · rw [if_neg (by omega)]
      rfl
  · rw [if_neg (by omega)]
    rfl

/-- A number is the same by how many bytes it takes and by what follows it. Every byte makes the number
128 times as great at least, so it has too many bits long before the bytes are too many to count. -/
theorem varintFrom_eq {value used : Nat} {b : UInt8} {s : Bytes} (hv : value < 2 ^ 64)
    (hused : 128 ^ used ≤ 128 * (value + 1)) :
    varintFrom value used b s = .ok ((Varint.decodeFrom value b s).map fun p =>
      (p.1, used + (s.length - p.2.length))) := by
  induction s generalizing value used b with
  | nil =>
    simp only [varintFrom, Varint.decodeFrom]
    split <;> simp
  | cons c s ih =>
    simp only [varintFrom, Varint.decodeFrom]
    by_cases hb : b < 128
    · simp [hb]
    · have hcount : used < 11 := (Nat.pow_lt_pow_iff_right (by decide : 1 < 128)).1 (by omega)
      rw [if_neg hb, if_neg hb, Checked.add_eq (show used + 1 < 2 ^ 64 by omega)]
      change (match nextValue? value (c.toNat % 128) with
        | none => Except.ok none
        | some value => varintFrom value (used + 1) c s) = _
      rw [nextValue?_eq]
      by_cases hnext : (value + 1) * 128 + c.toNat % 128 < UInt64.size
      · rw [if_pos hnext, if_pos hnext]
        refine (ih hnext (by rw [Nat.pow_succ]; omega)).trans ?_
        congr 1
        refine Option.map_congr fun p hp => ?_
        have := (suffix_of_decodeFrom hp).length_le
        simp only [List.length_cons]
        congr 1
        omega
      · rw [if_neg hnext, if_neg hnext]
        rfl

/-- The bytes that a number takes are those before what follows it. -/
theorem varint?_eq (s : Bytes) :
    varint? s = .ok ((Varint.decode? s).map fun p => (p.1, s.length - p.2.length)) := by
  cases s with
  | nil => rfl
  | cons b s =>
    refine (varintFrom_eq (by omega) (by omega)).trans ?_
    congr 1
    refine Option.map_congr fun p hp => ?_
    have := (suffix_of_decodeFrom hp).length_le
    rw [List.length_cons]
    congr 1
    omega

/-- A number takes no more bytes than there are. -/
theorem varint_follows (hd : data.length < 2 ^ 64) : Follows data (varint data) Reader.varint := by
  intro t ht
  have hlen : (data.drop t.position).length = data.length - t.position := List.length_drop
  refine .position (.step (Checked.sliceFrom_eq ht) (.step (varint?_eq _) ?_))
  cases hdec : Varint.decode? (data.drop t.position) with
  | none =>
    refine .congr ?_ (.fault ht _)
    simp only [cursorAt, Reader.varint, hdec]
  | some p =>
    obtain ⟨value, rest⟩ := p
    have hrest : rest = (data.drop t.position).drop ((data.drop t.position).length - rest.length) :=
      List.suffix_iff_eq_drop.1 (suffix_of_decode? hdec)
    refine .step (Checked.add_eq (by omega)) ?_
    refine .moveTo (by omega) (by omega) ?_ (.pure (by simp; omega) _)
    simp only [cursorAt, Reader.varint, hdec]
    rw [List.drop_drop] at hrest
    rw [← hrest]
    rfl

/-- Moving on agrees where the target is not behind. -/
theorem seek_agrees {t : Track} {target : Nat} (ht : t.position ≤ data.length)
    (h : t.position ≤ target) :
    Agrees (cursorAt data) data.length t (seek data target) (Reader.seek target) := by
  have hlen : ((data.drop t.position).take (target - t.position)).length = target - t.position ↔
      target ≤ data.length := by
    simp
    omega
  refine .position ?_
  by_cases htarget : target ≤ data.length
  · rw [if_neg (by omega)]
    refine .moveTo h htarget ?_ (.pure htarget ())
    simp only [cursorAt, Reader.seek, hlen.2 htarget, if_true, List.drop_drop]
    rw [Nat.add_sub_cancel' h]
    rfl
  · rw [if_pos (by omega)]
    refine .congr ?_ (.fault ht _)
    simp only [cursorAt, Reader.seek, hlen, htarget, if_false]

/-- Thirty-two bytes that are taken are an object name. -/
theorem objectId_follows (hd : data.length < 2 ^ 64) :
    Follows data (objectId data) Reader.objectId := by
  intro t ht
  have hid : Reader.objectId (cursorAt data t.position) = (Reader.take 32 >>= fun s =>
      match ObjectId.ofBytes s with
      | .ok id => pure id
      | .error _ => Reader.fail t.position .endOfData) (cursorAt data t.position) := by
    simp only [Reader.objectId, Reader.take, ObjectId.ofBytes, bind, StateT.bind, Except.bind]
    by_cases hlen : ((cursorAt data t.position).rest.take 32).length = 32
    · simp only [hlen, dite_true, if_true]
      rfl
    · simp only [hlen, dite_false, if_false]
  refine .position (.congr hid ((take_follows hd 32 t ht).bind fun s t' h _ => ?_))
  cases ObjectId.ofBytes s with
  | ok id => exact .pure h.within id
  | error e => exact .fault h.within _

/-- A moment is two words. -/
theorem timestamp_follows (hd : data.length < 2 ^ 64) :
    Follows data (timestamp data) Reader.timestamp :=
  (word_follows hd).bind fun _ => (word_follows hd).bind fun _ => follows_pure _

/-- The second word of flags is read the same by positions. -/
theorem readExtended_follows (hd : data.length < 2 ^ 64) (version : Version) (start : Nat)
    (flags : EntryFlags) :
    Follows data (readExtended data version start flags)
      (Record.readExtended version start flags) := by
  unfold readExtended Record.readExtended
  split
  · exact follows_fault start _
  · refine (halfWord_follows hd).bind fun word => ?_
    dsimp only
    split
    · exact follows_fault start _
    · exact follows_pure _

/-- What is read by its length, or up to a zero byte, is what the position moves over. -/
theorem position_of_readName {t t' : Track} {length : Nat} {path : Bytes}
    (h : (if length < Record.lengthLimit then Reader.take length else Reader.untilNul)
      (cursorAt data t.position) = .ok (path, cursorAt data t'.position)) :
    t'.position = t.position + path.length ∨ t'.position = t.position + path.length + 1 := by
  split at h
  · obtain ⟨hlen, -, hoffset⟩ := Reader.take_eq_ok.1 h
    exact .inl (hlen ▸ hoffset)
  · simp only [Reader.untilNul] at h
    split at h
    · simp only [Except.ok.injEq, Prod.mk.injEq] at h
      obtain ⟨rfl, hcursor⟩ := h
      exact .inr (congrArg Cursor.offset hcursor).symm
    · cases h

/-- The end of a padded record is behind its path, so the position does not move back to it. -/
theorem readPadded_agrees (hd : data.length + 8 < 2 ^ 64) {t : Track} {start length : Nat}
    (ht : t.position ≤ data.length) (hstart : start ≤ t.position) :
    Agrees (cursorAt data) data.length t (readPadded data start (t.position - start) length) (do
      let path ← if length < Record.lengthLimit then Reader.take length else Reader.untilNul
      Reader.seek (start + Record.paddedLength (t.position - start + path.length))
      return path) := by
  refine .ite_bind ?_ fun path t' h hpath => ?_
  · split
    · exact take_follows (by omega) length t ht
    · exact untilNul_follows (by omega) t ht
  · have hlen := position_of_readName hpath
    have hused := Record.lt_paddedLength (t.position - start + path.length)
    have := h.within
    rw [Record.paddedLength] at hused
    refine .step (Checked.add_eq (by omega)) (.step (Checked.add_eq (by omega)) ?_)
    refine .step (Checked.add_eq (by omega)) ?_
    exact (seek_agrees h.within (by omega)).bind fun _ t'' h' _ => .pure h'.within path

/-- A path is read from a position at or after the start of its record. -/
theorem readPath_agrees (hd : data.length + 8 < 2 ^ 64) {t : Track} {version : Version}
    {start length : Nat} {previous : Bytes} (ht : t.position ≤ data.length)
    (hstart : start ≤ t.position) :
    Agrees (cursorAt data) data.length t (readPath data version start length previous)
      (Record.readPath version start length previous) := by
  refine .offset (.step (Checked.sub_eq hstart) ?_)
  cases version with
  | v2 => exact readPadded_agrees hd ht hstart
  | v3 => exact readPadded_agrees hd ht hstart
  | v4 =>
    refine (varint_follows (by omega) t ht).bind fun strip t' h _ => ?_
    split
    · exact .fault h.within _
    · refine (untilNul_follows (by omega) t' h.within).bind fun suffix t'' h' _ => ?_
      refine .step (Checked.sub_eq (by omega)) ?_
      refine .step (Checked.slice_eq (Nat.zero_le _) (by omega)) ?_
      exact .pure h'.within _

/-- Records are read the same by positions. -/
theorem readRecord_follows (hd : data.length + 8 < 2 ^ 64) (version : Version) (previous : Bytes) :
    Follows data (readRecord data version previous) (Record.read version previous) := by
  intro t ht
  have hd' : data.length < 2 ^ 64 := by omega
  refine .offset ?_
  refine (timestamp_follows hd' t ht).bind fun ctime t₁ h₁ _ => ?_
  refine (timestamp_follows hd' t₁ h₁.within).bind fun mtime t₂ h₂ _ => ?_
  refine (word_follows hd' t₂ h₂.within).bind fun dev t₃ h₃ _ => ?_
  refine (word_follows hd' t₃ h₃.within).bind fun ino t₄ h₄ _ => ?_
  refine (word_follows hd' t₄ h₄.within).bind fun bits t₅ h₅ _ => ?_
  refine (word_follows hd' t₅ h₅.within).bind fun uid t₆ h₆ _ => ?_
  refine (word_follows hd' t₆ h₆.within).bind fun gid t₇ h₇ _ => ?_
  refine (word_follows hd' t₇ h₇.within).bind fun size t₈ h₈ _ => ?_
  refine (objectId_follows hd' t₈ h₈.within).bind fun id t₉ h₉ _ => ?_
  refine (halfWord_follows hd' t₉ h₉.within).bind fun word t' h' _ => ?_
  have hstart : t.position ≤ t'.position :=
    ((((((((h₁.trans h₂).trans h₃).trans h₄).trans h₅).trans h₆).trans h₇).trans h₈).trans h₉).trans
      h' |>.le
  dsimp only
  cases Mode.ofBits? bits with
  | none => exact .fault h'.within _
  | some mode =>
    cases Stage.ofNat? (word.toNat / 0x1000 % 4) with
    | none => exact .fault h'.within _
    | some stage =>
      refine .ite_bind ?_ fun flags t₀ h₀ _ => ?_
      · split
        · exact readExtended_follows hd' version t.position _ t' h'.within
        · exact .pure h'.within _
      · have hstart := hstart.trans h₀.le
        refine (readPath_agrees hd h₀.within hstart).bind fun path t₁ h₁ _ => ?_
        split
        · exact .fault h₁.within _
        · exact .pure h₁.within _

/-- Entries are read the same by positions, behind those that are read already. -/
theorem readEntries_follows (hd : data.length + 8 < 2 ^ 64) (version : Version) (n : Nat)
    (entries : List Entry) :
    Follows data (readEntries data version n entries)
      ((entries ++ ·) <$> Image.readEntries version n entries.getLast?) := by
  induction n generalizing entries with
  | zero =>
    intro t ht
    refine .congr ?_ (.pure ht entries)
    change Except.ok (entries ++ [], _) = Except.ok (entries, _)
    rw [List.append_nil]
  | succ n ih =>
    have hreader : (entries ++ ·) <$> Image.readEntries version (n + 1) entries.getLast? = (do
        let offset ← Reader.offset
        let e ← Record.read version ((entries.getLast?.map Entry.path).getD [])
        Image.checkEntry offset entries.getLast? e
        (entries ++ [e] ++ ·) <$> Image.readEntries version n (entries ++ [e]).getLast?) := by
      simp [Image.readEntries]
    rw [hreader]
    intro t ht
    refine .offset ((readRecord_follows hd version _ t ht).bind fun e t₁ h₁ _ => ?_)
    refine (Agrees.check h₁.within _).bind fun _ t₂ h₂ _ => ?_
    exact ih (entries ++ [e]) t₂ h₂.within

end Machine

end StagingIndex
