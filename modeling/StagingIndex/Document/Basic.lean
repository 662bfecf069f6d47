import StagingIndex.Bytes

/-! # Documents

Values can be kept in documents, which are made of numbers, texts, lists and records. A structure is
a record of its fields, or a list of them in their order; a choice is its name.

* `Document` — documents
* `Document.word?`, `Document.bytes?`, `Document.choice?` — what single values are read from
* `Document.slots?`, `Document.fields?` — the fields of a structure
* `Document.fields?_ofFields` — fields are read back from the record they make -/

namespace StagingIndex

/-- A document. -/
inductive Document where
  | null
  | bool (value : Bool)
  | int (value : Int)
  /-- A number that is not written as an integer. Nothing is read from one, whatever its value. -/
  | fraction
  | text (value : String)
  | list (items : List Document)
  | record (fields : List (String × Document))
deriving Inhabited

namespace Document

/-! ## Single values -/

/-- A natural number below a bound. -/
def natBelow? (bound : Nat) : Document → Option Nat
  | int (.ofNat n) => if n < bound then some n else none
  | _ => none

/-- A number of 32 bits. -/
def word? (d : Document) : Option UInt32 := (d.natBelow? UInt32.size).map UInt32.ofNat

/-- A byte. -/
def byte? (d : Document) : Option UInt8 := (d.natBelow? UInt8.size).map UInt8.ofNat

/-- A truth value. -/
def bool? : Document → Option Bool
  | bool b => some b
  | _ => none

/-- The documents of a list. -/
def list? : Document → Option (List Document)
  | list ds => some ds
  | _ => none

/-- Bytes that stand in a list, one number each. -/
def byteList? (d : Document) : Option Bytes := do (← d.list?).mapM byte?

/-- Bytes, given one by one or as the text they encode. -/
def bytes? : Document → Option Bytes
  | text s => some (Bytes.ofString s)
  | d => d.byteList?

/-- The document of a number of 32 bits. -/
def ofWord (w : UInt32) : Document := int (.ofNat w.toNat)

/-- The document of some bytes. -/
def ofBytes (s : Bytes) : Document := list (s.map fun b => int (.ofNat b.toNat))

@[simp] theorem word?_ofWord (w : UInt32) : (ofWord w).word? = some w := by
  simp [ofWord, word?, natBelow?, w.toNat_lt]

theorem byte?_ofNat (b : UInt8) : (int (.ofNat b.toNat)).byte? = some b := by
  simp [byte?, natBelow?, b.toNat_lt]

@[simp] theorem byteList?_ofBytes (s : Bytes) : (ofBytes s).byteList? = some s := by
  simp only [ofBytes, byteList?, list?, Option.bind_eq_bind, Option.bind_some]
  induction s with
  | nil => rfl
  | cons b s ih =>
    rw [List.map_cons, List.mapM_cons, byte?_ofNat, ih]
    rfl

@[simp] theorem bytes?_ofBytes (s : Bytes) : (ofBytes s).bytes? = some s := byteList?_ofBytes s

/-! ## Structures and choices -/

/-- What a document has for fields of the given names: a record has them by name, a list by
position. A list with more items than there are names stands for nothing. -/
def slots? (names : List String) : Document → Option (List (Option Document))
  | record fields => some (names.map fun name => fields.lookup name)
  | list items =>
    if items.length ≤ names.length then
      some (items.map some ++ List.replicate (names.length - items.length) none)
    else none
  | _ => none

/-- What a document has for fields of the given names, if it has them all. -/
def fields? (names : List String) (d : Document) : Option (List Document) :=
  (d.slots? names).bind fun slots => slots.mapM id

/-- The record of some fields under the given names. -/
def ofFields (names : List String) (values : List Document) : Document :=
  record (names.zip values)

/-- Looking up distinct names in the pairs they make with values gives back the values. -/
theorem map_lookup_zip {names : List String} {values : List Document} (distinct : names.Nodup)
    (length : values.length = names.length) :
    names.map (fun name => (names.zip values).lookup name) = values.map some := by
  induction names generalizing values with
  | nil => simp_all
  | cons name names ih =>
    cases values with
    | nil => simp at length
    | cons value values =>
      have ⟨fresh, distinct⟩ := List.nodup_cons.1 distinct
      have skip : ∀ other ∈ names, (((name, value) :: names.zip values).lookup other) =
          (names.zip values).lookup other := by
        intro other h
        have : (other == name) = false := beq_false_of_ne fun e => fresh (e ▸ h)
        simp only [List.lookup_cons, this]
      simp only [List.zip_cons_cons, List.map_cons, List.lookup_cons_self, List.cons.injEq,
        true_and]
      rw [List.map_congr_left skip, ih distinct (by simpa using length)]

@[simp] theorem slots?_ofFields {names : List String} {values : List Document}
    (distinct : names.Nodup) (length : values.length = names.length) :
    (ofFields names values).slots? names = some (values.map some) := by
  simp [ofFields, slots?, map_lookup_zip distinct length]

@[simp] theorem fields?_ofFields {names : List String} {values : List Document}
    (distinct : names.Nodup) (length : values.length = names.length) :
    (ofFields names values).fields? names = some values := by
  simp only [fields?, slots?_ofFields distinct length, Option.bind_some]
  clear distinct length
  induction values with
  | nil => rfl
  | cons value values ih => simp [ih]

/-- The name of a choice: a text, or the only name in a record that has nothing more to say. -/
def choice? : Document → Option String
  | text name => some name
  | record [(name, null)] => some name
  | _ => none

end Document

end StagingIndex
