import StagingIndex.Table

/-! # The cache tree

Beside the table an index remembers, for directories whose entries have not changed since, how many
entries they have and which tree object these made. A node stands for one directory; a node that
knows nothing may still have children that do. A change below a directory makes its node and all
nodes above it forget.

* `CacheTree`, `CacheTree.Known` — nodes, and what a node may know
* `CacheTree.child`, `CacheTree.find` — the node of a name, the node of a directory
* `CacheTree.forget`, `CacheTree.invalidate` — forget one node, forget along a path
* `CacheTree.invalidateChanges`, `CacheTree.changeCount` — forget along every path in which two
  tables differ, and how many differences there are -/

namespace StagingIndex

/-- What a node knows of its directory: how many entries of the table are below it, and the tree
object they make. -/
structure CacheTree.Known where
  count : Nat
  id : ObjectId
deriving DecidableEq

/-- A directory: its name within the one above, what is known of it, and its subdirectories. The
root has the empty name. -/
inductive CacheTree where
  | node (name : Bytes) (known : Option CacheTree.Known) (children : List CacheTree)

namespace CacheTree

/-- The name within the directory above. -/
def name : CacheTree → Bytes
  | node name _ _ => name

/-- What is known of the directory. -/
def known : CacheTree → Option Known
  | node _ known _ => known

/-- The subdirectories. -/
def children : CacheTree → List CacheTree
  | node _ _ children => children

@[simp] theorem name_node (n k cs) : (node n k cs).name = n := rfl

@[simp] theorem known_node (n k cs) : (node n k cs).known = k := rfl

@[simp] theorem children_node (n k cs) : (node n k cs).children = cs := rfl

/-- A directory of a name of which nothing is known. -/
def unknown (name : Bytes) : CacheTree := node name none []

/-- The cache tree that knows nothing. -/
def empty : CacheTree := unknown []

/-- Whether there is anything worth keeping. -/
def isEmpty (t : CacheTree) : Bool := t.known.isNone && t.children.isEmpty

/-- Nodes in the order of their names. -/
def sortByName (ts : List CacheTree) : List CacheTree :=
  ts.mergeSort fun a b => (compare a.name b.name).isLE

/-- Where the node of a name is among others, or where it would have to go. -/
def locate (ts : List CacheTree) (name : Bytes) : Search.Place :=
  Search.locate (fun t => compare t.name name) ts

/-- The subdirectory of a name. -/
def child (t : CacheTree) (name : Bytes) : Option CacheTree :=
  match locate t.children name with
  | .present i => t.children[i]?
  | .absent _ => none

/-- The node that some names lead to, one level each. -/
def descend (t : CacheTree) : List Bytes → Option CacheTree
  | [] => some t
  | name :: names => (t.child name).bind fun c => c.descend names

/-- The node of a directory. -/
def find (t : CacheTree) (dir : Bytes) : Option CacheTree :=
  if dir = [] then some t else t.descend dir.components

/-! ## Forgetting -/

/-- A node that knows nothing any more; its subdirectories keep what they know. -/
def forget : CacheTree → CacheTree
  | node name _ children => node name none children

/-- Forget the node and the nodes that some names lead to, as far as there are any. -/
def forgetAlong : List Bytes → CacheTree → CacheTree
  | [], t => t.forget
  | name :: names, node own _ children =>
    match locate children name with
    | .present i => node own none (children.modify i (forgetAlong names))
    | .absent _ => node own none children

/-- Forget all directories that a path lies in. -/
def invalidate (t : CacheTree) (path : Bytes) : CacheTree :=
  match path.parent? with
  | none => t.forget
  | some dir => if dir = [] then t.forget else forgetAlong dir.components t

/-- The paths in which two tables differ, in the order of the tables: of entries that only one of
them has, and of entries whose content is not the same. -/
def changedPaths : List Entry → List Entry → List Bytes
  | [], new => new.map (·.path)
  | old, [] => old.map (·.path)
  | a :: old, b :: new =>
    match compare a.key b.key with
    | .lt => a.path :: changedPaths old (b :: new)
    | .gt => b.path :: changedPaths (a :: old) new
    | .eq =>
      if a.sameContent b then changedPaths old new else b.path :: changedPaths old new
termination_by old new => old.length + new.length

/-- Forget along every path of a list, one after another. -/
def invalidateAll (t : CacheTree) (paths : List Bytes) : CacheTree :=
  paths.foldl invalidate t

/-- Forget all directories in which two tables differ. -/
def invalidateChanges (t : CacheTree) (old new : List Entry) : CacheTree :=
  t.invalidateAll (changedPaths old new)

/-- How many entries differ between two tables, as they are counted while directories are forgotten. -/
def changeCount (old new : List Entry) : Nat := (changedPaths old new).length

end CacheTree

end StagingIndex
