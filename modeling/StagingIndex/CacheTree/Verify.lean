import StagingIndex.CacheTree.Basic

/-! # Checking a cache tree against a table

Every count that a node knows must be the number of entries below its directory.

* `CacheTree.verify` — check all nodes, from the root down and from left to right -/

namespace StagingIndex

namespace CacheTree

/-- Check what one node knows. -/
def verifyCount (t : CacheTree) (entries : List Entry) (dir : Bytes) : Except IndexError Unit :=
  match t.known with
  | none => .ok ()
  | some k =>
    let actual := (Table.under entries dir).length
    if actual = k.count then .ok ()
    else .error (.corruptCacheTree (.wrongCount dir k.count actual))

mutual

/-- Check a node and all nodes below it. -/
def verifyBelow (entries : List Entry) (dir : Bytes) : CacheTree → Except IndexError Unit
  | node name known children => do
    verifyCount (node name known children) entries dir
    verifyAll entries dir children

/-- Check the nodes of some subdirectories of `dir`. -/
def verifyAll (entries : List Entry) (dir : Bytes) : List CacheTree → Except IndexError Unit
  | [] => .ok ()
  | t :: ts => do
    verifyBelow entries (Bytes.join dir t.name) t
    verifyAll entries dir ts

end

/-- Check a whole cache tree. -/
def verify (t : CacheTree) (entries : List Entry) : Except IndexError Unit :=
  verifyBelow entries [] t

end CacheTree

end StagingIndex
