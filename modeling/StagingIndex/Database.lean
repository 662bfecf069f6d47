import StagingIndex.Tree

/-! # Object databases

The index stores listings and fetches objects through two operations of a database, either of which
may be refused. A database is a state, and each operation gives the next one.

* `ObjectDatabase` — what the index asks of a database
* `MemoryDatabase` — a database that keeps all objects but those without a name of their own, and counts
  what it was given
* `RefusingDatabase` — a memory database whose calls fail at chosen moments -/

namespace StagingIndex

/-- The operations of a database with states `σ`. -/
class ObjectDatabase (σ : Type) where
  /-- Store a listing and give its name. -/
  insertTree : Tree → σ → Except StoreError ObjectId × σ
  /-- Fetch the object of a name, if there is one. -/
  fetch : ObjectId → σ → Except StoreError (Option Object) × σ
  /-- A depth that listings in the database are not nested beyond. As a listing cannot contain
  itself, there are no more levels than objects. -/
  nesting : σ → Nat

/-- Objects held in memory, each under its name, the oldest first. -/
structure MemoryDatabase where
  objects : List (ObjectId × Object)
  /-- How often an object was stored, also one that was there before. -/
  writes : Nat

namespace MemoryDatabase

/-- The database without objects. -/
def empty : MemoryDatabase := ⟨[], 0⟩

/-- The object of a name. -/
def get? (d : MemoryDatabase) (id : ObjectId) : Option Object := d.objects.lookup id

/-- Whether there is an object of a name. -/
def contains (d : MemoryDatabase) (id : ObjectId) : Bool := (d.get? id).isSome

/-- Store an object under its name; one that is there already stays. An object with the name that
stands for no object is refused, and does not count. -/
def write (o : Object) (d : MemoryDatabase) : Except StoreError ObjectId × MemoryDatabase :=
  let id := o.id
  if id.isNull then (.error .nullName, d)
  else
    (.ok id,
      { objects := if d.contains id then d.objects else d.objects ++ [(id, o)]
        writes := d.writes + 1 })

/-- How many objects there are. -/
def size (d : MemoryDatabase) : Nat := d.objects.length

/-- How many objects of a kind there are. -/
def countKind (d : MemoryDatabase) (kind : ObjectKind) : Nat :=
  d.objects.countP fun (_, o) => o.kind = kind

/-- The database as diagnostics show it. -/
def describe (d : MemoryDatabase) : String :=
  "InMemoryObjectStore \x7b " ++ s!"objects: {d.size}, writes: {d.writes}" ++ " \x7d"

instance : ObjectDatabase MemoryDatabase where
  insertTree t d := d.write t.toObject
  fetch id d := (.ok (d.get? id), d)
  nesting d := d.size + d.writes

end MemoryDatabase

/-- A memory database that refuses the calls of given numbers, counted from zero. -/
structure RefusingDatabase where
  objects : MemoryDatabase
  refusedWrites : List Nat
  refusedReads : List Nat
  /-- How many listings were offered so far, refused ones included. -/
  writeCalls : Nat
  /-- How many objects were asked for so far, refused requests included. -/
  readCalls : Nat

namespace RefusingDatabase

instance : ObjectDatabase RefusingDatabase where
  insertTree t d :=
    let d' := { d with writeCalls := d.writeCalls + 1 }
    if d.refusedWrites.contains d.writeCalls then (.error (.io "write refused"), d')
    else
      let (r, objects) := d.objects.write t.toObject
      (r, { d' with objects })
  fetch id d :=
    let d' := { d with readCalls := d.readCalls + 1 }
    if d.refusedReads.contains d.readCalls then (.error (.io "read refused"), d')
    else (.ok (d.objects.get? id), d')
  nesting d := d.objects.size + d.objects.writes

end RefusingDatabase

end StagingIndex
