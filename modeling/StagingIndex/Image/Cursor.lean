import StagingIndex.Error
import StagingIndex.Image.Varint

/-! # Reading a file from front to back

A cursor stands at an offset in a file and has what follows it. Reading moves it forward over what
was read, and fails where the file does not have it, naming the offset.

* `Cursor`, `Reader` — the place in a file, and ways to read from there
* `Reader.take`, `Reader.word`, `Reader.halfWord`, `Reader.untilNul`, `Reader.varint` — what can be
  read
* `Reader.seek` — move on to an offset -/

namespace StagingIndex

/-- An offset in a file, and what follows it. -/
structure Cursor where
  offset : Nat
  rest : Bytes
deriving DecidableEq, Repr

/-- A way to read a value from a cursor, which is moved on. -/
abbrev Reader (α : Type) : Type := StateT Cursor (Except IndexError) α

namespace Reader

/-- Fail because of what stands at an offset. -/
def fail {α : Type} (offset : Nat) (fault : ImageFault) : Reader α := fun _ =>
  .error (.malformed offset fault)

/-- Where the cursor stands. -/
def offset : Reader Nat := fun c => .ok (c.offset, c)

/-- Read `n` bytes. -/
def take (n : Nat) : Reader Bytes := fun c =>
  let s := c.rest.take n
  if s.length = n then .ok (s, ⟨c.offset + n, c.rest.drop n⟩)
  else .error (.malformed c.offset .endOfData)

/-- Read a word of four bytes. -/
def word : Reader UInt32 := fun c =>
  match c.rest with
  | w :: x :: y :: z :: rest => .ok (Bytes.word32 w x y z, ⟨c.offset + 4, rest⟩)
  | _ => .error (.malformed c.offset .endOfData)

/-- Read a half word of two bytes. -/
def halfWord : Reader UInt16 := fun c =>
  match c.rest with
  | y :: z :: rest => .ok (Bytes.word16 y z, ⟨c.offset + 2, rest⟩)
  | _ => .error (.malformed c.offset .endOfData)

/-- Read the bytes before the next zero byte, and that byte too. -/
def untilNul : Reader Bytes := fun c =>
  match Bytes.splitAt? Bytes.nul c.rest with
  | some (s, rest) => .ok (s, ⟨c.offset + s.length + 1, rest⟩)
  | none => .error (.malformed c.offset .unterminatedPath)

/-- Read an offset number. -/
def varint : Reader Nat := fun c =>
  match Varint.decode? c.rest with
  | some (n, rest) => .ok (n, ⟨c.offset + (c.rest.length - rest.length), rest⟩)
  | none => .error (.malformed c.offset .badPrefixLength)

/-- Move on to an offset, which may be the end of the file. -/
def seek (target : Nat) : Reader Unit := fun c =>
  let n := target - c.offset
  if (c.rest.take n).length = n then .ok ((), ⟨c.offset + n, c.rest.drop n⟩)
  else .error (.malformed c.offset .recordPastEnd)

/-- Read an object name. -/
def objectId : Reader ObjectId := fun c =>
  match ObjectId.ofBytes (c.rest.take 32) with
  | .ok id => .ok (id, ⟨c.offset + 32, c.rest.drop 32⟩)
  | .error _ => .error (.malformed c.offset .endOfData)

/-- Read a moment. -/
def timestamp : Reader Timestamp := do
  let seconds ← word
  let nanos ← word
  return ⟨seconds, nanos⟩

/-! ## What reading leaves -/

/-- Two steps of reading succeed together if each does, the second from where the first ends. -/
theorem bind_eq_ok {α β : Type} {r : Reader α} {f : α → Reader β} {c d : Cursor} {b : β} :
    (r >>= f) c = .ok (b, d) ↔ ∃ a e, r c = .ok (a, e) ∧ f a e = .ok (b, d) := by
  simp only [bind, StateT.bind, Except.bind]
  cases h : r c with
  | error e => simp
  | ok x =>
    constructor
    · intro h'
      exact ⟨x.1, x.2, rfl, h'⟩
    · rintro ⟨a, e, h', hf⟩
      cases h'
      exact hf

/-- Bytes that are taken are the first of what follows. -/
theorem take_eq_ok {n : Nat} {c d : Cursor} {s : Bytes} :
    take n c = .ok (s, d) ↔
      s.length = n ∧ c.rest = s ++ d.rest ∧ d.offset = c.offset + n := by
  simp only [take]
  constructor
  · intro h
    split at h
    · rename_i hl
      cases h
      exact ⟨hl, by simp, rfl⟩
    · cases h
  · rintro ⟨hl, hr, ho⟩
    have h₁ : c.rest.take n = s := by simp [hr, ← hl]
    have h₂ : c.rest.drop n = d.rest := by simp [hr, ← hl]
    simp only [h₁, hl, if_true, h₂, ← ho]

/-- A word takes up four bytes. -/
theorem length_of_word {c d : Cursor} {w : UInt32} (h : word c = .ok (w, d)) :
    c.rest.length = d.rest.length + 4 := by
  unfold word at h
  split at h
  · rename_i hr
    cases h
    simp [hr]
  · cases h

end Reader

end StagingIndex
