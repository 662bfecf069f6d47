/-! # Byte strings

Paths, names, file images and object contents are all byte strings, ordered byte by byte with a
proper beginning before its extensions (`compare` on lists).

* `Bytes.beginsWith`, `Bytes.afterPrefix?` — membership below a directory
* `Bytes.splitAt?` — the parts before and after the first occurrence of a byte
* `Bytes.components` — the parts between slashes
* `Bytes.ofWord32`, `Bytes.word32` — fixed-width numbers, most significant byte first -/

namespace StagingIndex

/-- A string of raw bytes. -/
abbrev Bytes : Type := List UInt8

namespace Bytes

/-- The byte `/`. -/
def slash : UInt8 := 0x2f

/-- The byte that ends names and paths. -/
def nul : UInt8 := 0

/-- The byte ` `. -/
def space : UInt8 := 0x20

/-- The byte that ends a line. -/
def newline : UInt8 := 0x0a

/-- The UTF-8 bytes of a text. -/
def ofString (s : String) : Bytes := s.toList.flatMap String.utf8EncodeChar

/-! ## Beginnings -/

/-- Whether `p` is a beginning of `s`. -/
def beginsWith (s p : Bytes) : Bool := p.isPrefixOf s

/-- What follows the beginning `p` of `s`, if `s` begins with `p`. -/
def afterPrefix? : Bytes → Bytes → Option Bytes
  | s, [] => some s
  | [], _ :: _ => none
  | b :: s, c :: p => if b = c then afterPrefix? s p else none

@[simp] theorem afterPrefix?_nil (s : Bytes) : afterPrefix? s [] = some s := by
  cases s <;> rfl

/-- Stripping a beginning succeeds exactly when the beginning is there. -/
theorem afterPrefix?_eq_some_iff {s p r : Bytes} : afterPrefix? s p = some r ↔ s = p ++ r := by
  induction p generalizing s with
  | nil => simp
  | cons c p ih =>
    cases s with
    | nil => simp [afterPrefix?]
    | cons b s =>
      by_cases h : b = c
      · simp [afterPrefix?, h, ih]
      · simp [afterPrefix?, h]

/-- How many leading bytes two strings share. -/
def sharedLength : Bytes → Bytes → Nat
  | b :: s, c :: t => if b = c then sharedLength s t + 1 else 0
  | _, _ => 0

/-- The first `sharedLength` bytes are the same. -/
theorem take_sharedLength (s t : Bytes) :
    s.take (sharedLength s t) = t.take (sharedLength s t) := by
  induction s generalizing t with
  | nil => simp [sharedLength]
  | cons b s ih =>
    cases t with
    | nil => simp [sharedLength]
    | cons c t =>
      by_cases h : b = c
      · simp [sharedLength, h, ih t]
      · simp [sharedLength, h]

/-! ## Splitting -/

/-- The bytes before the first `b` and the bytes after it, if there is a `b`. -/
def splitAt? (b : UInt8) : Bytes → Option (Bytes × Bytes)
  | [] => none
  | c :: s => if c = b then some ([], s) else (splitAt? b s).map fun (p, r) => (c :: p, r)

/-- A part without the byte, then the byte: that is where the split is made. -/
theorem splitAt?_append {b : UInt8} {p : Bytes} (hp : b ∉ p) (r : Bytes) :
    splitAt? b (p ++ b :: r) = some (p, r) := by
  induction p with
  | nil => simp [splitAt?]
  | cons c p ih =>
    simp only [List.mem_cons, not_or] at hp
    simp [splitAt?, Ne.symm hp.1, ih hp.2]

/-- A split loses only the byte it is made at, which does not occur before it. -/
theorem eq_append_of_splitAt? {b : UInt8} {s p r : Bytes} (h : splitAt? b s = some (p, r)) :
    s = p ++ b :: r ∧ b ∉ p := by
  induction s generalizing p with
  | nil => simp [splitAt?] at h
  | cons c s ih =>
    by_cases hc : c = b
    · simp only [splitAt?, hc, if_true, Option.some.injEq, Prod.mk.injEq] at h
      obtain ⟨rfl, rfl⟩ := h
      simp [hc]
    · simp only [splitAt?, if_neg hc, Option.map_eq_some_iff, Prod.mk.injEq] at h
      obtain ⟨⟨q, t⟩, hq, rfl, rfl⟩ := h
      obtain ⟨rfl, hb⟩ := ih hq
      exact ⟨rfl, by simp [Ne.symm hc, hb]⟩

/-- Without the byte there is no split. -/
theorem splitAt?_eq_none_iff {b : UInt8} {s : Bytes} : splitAt? b s = none ↔ b ∉ s := by
  induction s with
  | nil => simp [splitAt?]
  | cons c s ih =>
    by_cases h : c = b
    · simp [splitAt?, h]
    · have h' : ¬b = c := fun e => h e.symm
      simp [splitAt?, h, h', ih]

/-- What follows a split is shorter than the whole. -/
theorem length_lt_of_splitAt? {b : UInt8} {s p r : Bytes} (h : splitAt? b s = some (p, r)) :
    r.length < s.length := by
  obtain ⟨rfl, -⟩ := eq_append_of_splitAt? h
  simp; omega

/-- The parts of a path between its slashes; a path without slash is one part. -/
def components : Bytes → List Bytes
  | [] => [[]]
  | b :: s =>
    if b = slash then [] :: components s
    else match components s with
      | [] => [[b]]
      | c :: cs => (b :: c) :: cs

/-- What stands before the last slash, if there is a slash. -/
def parent? : Bytes → Option Bytes
  | [] => none
  | b :: s =>
    match parent? s with
    | some p => some (b :: p)
    | none => if b = slash then some [] else none

/-- The proper directories of a path, outermost first: what stands before each of its slashes. -/
def ancestors : Bytes → List Bytes
  | [] => []
  | b :: s => (if b = slash then [[]] else []) ++ (ancestors s).map (b :: ·)

/-- The path of a name below a directory, where the directory without a name adds no slash. -/
def join (dir name : Bytes) : Bytes := if dir = [] then name else dir ++ slash :: name

/-- A path without its final slash, if it ends in one. -/
def dropFinalSlash (s : Bytes) : Bytes := if s.getLast? = some slash then s.dropLast else s

/-- A path that ends in a slash: one is added where it is missing. -/
def withFinalSlash (s : Bytes) : Bytes := if s.getLast? = some slash then s else s ++ [slash]

/-! ## Fixed-width numbers -/

/-- The four bytes of a word, most significant first. -/
def ofWord32 (w : UInt32) : Bytes :=
  [UInt8.ofNat (w.toNat / 0x1000000), UInt8.ofNat (w.toNat / 0x10000), UInt8.ofNat (w.toNat / 0x100),
    UInt8.ofNat w.toNat]

/-- The two bytes of a half word, most significant first. -/
def ofWord16 (w : UInt16) : Bytes := [UInt8.ofNat (w.toNat / 0x100), UInt8.ofNat w.toNat]

/-- The word made of four bytes, most significant first. -/
def word32 (a b c d : UInt8) : UInt32 :=
  UInt32.ofNat (((a.toNat * 256 + b.toNat) * 256 + c.toNat) * 256 + d.toNat)

/-- The half word made of two bytes, most significant first. -/
def word16 (a b : UInt8) : UInt16 := UInt16.ofNat (a.toNat * 256 + b.toNat)

@[simp] theorem length_ofWord32 (w : UInt32) : (ofWord32 w).length = 4 := rfl

@[simp] theorem length_ofWord16 (w : UInt16) : (ofWord16 w).length = 2 := rfl

/-- A word is read back from its bytes. -/
@[simp] theorem word32_ofNat (w : UInt32) :
    word32 (UInt8.ofNat (w.toNat / 0x1000000)) (UInt8.ofNat (w.toNat / 0x10000))
      (UInt8.ofNat (w.toNat / 0x100)) (UInt8.ofNat w.toNat) = w := by
  apply UInt32.toNat_inj.1
  have := w.toNat_lt
  simp only [word32, UInt32.toNat_ofNat', UInt8.toNat_ofNat']
  omega

/-- A half word is read back from its bytes. -/
@[simp] theorem word16_ofNat (w : UInt16) :
    word16 (UInt8.ofNat (w.toNat / 0x100)) (UInt8.ofNat w.toNat) = w := by
  apply UInt16.toNat_inj.1
  have := w.toNat_lt
  simp only [word16, UInt16.toNat_ofNat', UInt8.toNat_ofNat']
  omega

end Bytes

end StagingIndex
