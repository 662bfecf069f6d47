import StagingIndex.Object

/-! # Directory listings

A tree lists the names of one directory. Listings are kept in one order, in which a subtree counts
as if its name ended in a slash, so that equal directories have equal bytes and equal names.

* `Tree.ofList` — a listing in its order
* `Tree.bytes`, `Tree.parse` — the bytes of a listing and back
* `Tree.id`, `Tree.ofObject` — trees as stored objects -/

namespace StagingIndex

/-- One name of a listing. -/
structure TreeItem where
  mode : Mode
  name : Bytes
  id : ObjectId
deriving DecidableEq

/-- A directory listing. -/
structure Tree where
  items : List TreeItem
deriving DecidableEq

namespace TreeItem

/-- The name as it takes part in the order: subtrees count as if followed by a slash. -/
def sortKey (t : TreeItem) : Bytes :=
  if t.mode = .directory then t.name ++ [Bytes.slash] else t.name

instance : Ord TreeItem := ⟨fun a b => compare a.sortKey b.sortKey⟩

/-- The bytes of one name: the mode in octal, a space, the name, a zero byte and the id. -/
def bytes (t : TreeItem) : Bytes :=
  Numeral.digits 8 t.mode.bits.toNat ++ Bytes.space :: (t.name ++ Bytes.nul :: t.id.bytes)

/-- The mode that a field of octal digits stands for. -/
def parseMode (field : Bytes) : Except ObjectFault Mode :=
  match Numeral.unsigned? 8 UInt32.size field with
  | none => .error (.badMode field)
  | some n =>
    match Mode.ofBits? (UInt32.ofNat n) with
    | none => .error (.unknownMode (UInt32.ofNat n))
    | some m => .ok m

/-- Read the first item of a listing, and give what follows it. -/
def parse (s : Bytes) : Except ObjectFault (TreeItem × Bytes) :=
  match Bytes.splitAt? Bytes.space s with
  | none => .error .missingModeSeparator
  | some (field, s₁) =>
    match parseMode field with
    | .error e => .error e
    | .ok mode =>
      match Bytes.splitAt? Bytes.nul s₁ with
      | none => .error .unterminatedName
      | some (name, s₂) =>
        match ObjectId.ofBytes (s₂.take 32) with
        | .error _ => .error (.truncatedId name)
        | .ok id => .ok (⟨mode, name, id⟩, s₂.drop 32)

/-- An item takes up some bytes. -/
theorem length_lt_of_parse {s r : Bytes} {t : TreeItem} (h : parse s = .ok (t, r)) :
    r.length < s.length := by
  unfold parse at h
  split at h
  · simp at h
  · rename_i field s₁ h₁
    split at h
    · simp at h
    · split at h
      · simp at h
      · rename_i name s₂ h₂
        split at h
        · simp at h
        · have h₁ := Bytes.length_lt_of_splitAt? h₁
          have h₂ := Bytes.length_lt_of_splitAt? h₂
          simp only [Except.ok.injEq, Prod.mk.injEq] at h
          rw [← h.2, List.length_drop]
          omega

end TreeItem

namespace Tree

/-- The empty listing. -/
def empty : Tree := ⟨[]⟩

/-- A listing of the given items, put into order; items that tie keep their order. -/
def ofList (items : List TreeItem) : Tree :=
  ⟨items.mergeSort fun a b => (compare a b).isLE⟩

/-- The bytes of a listing: those of its items one after another. -/
def bytes (t : Tree) : Bytes := t.items.flatMap TreeItem.bytes

/-- The object that holds a listing. -/
def toObject (t : Tree) : Object := ⟨.tree, t.bytes⟩

/-- The name of a listing. -/
def id (t : Tree) : ObjectId := t.toObject.id

/-- The first item of a name. -/
def get? (t : Tree) (name : Bytes) : Option TreeItem := t.items.find? (·.name = name)

/-- Read items until the bytes are used up. -/
def parse (s : Bytes) : Except ObjectFault (List TreeItem) :=
  if s.isEmpty then .ok []
  else
    match _h : TreeItem.parse s with
    | .error e => .error e
    | .ok (t, r) => (parse r).map (t :: ·)
termination_by s.length
decreasing_by exact TreeItem.length_lt_of_parse _h

/-- The listing an object holds, in the order in which it is stored. -/
def ofObject (o : Object) : Except StoreError Tree :=
  match o.kind with
  | .blob => .error (.corrupt o.id (.wrongKind .tree .blob))
  | .tree =>
    match parse o.data with
    | .error e => .error (.corrupt o.id e)
    | .ok items => .ok ⟨items⟩

end Tree

end StagingIndex
