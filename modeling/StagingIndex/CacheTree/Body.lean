import StagingIndex.CacheTree.Basic

/-! # The written form of a cache tree

A node is written as its name and a zero byte, a line with two decimal numbers, the tree id if it is
known, and the nodes of its subdirectories. The line has the number of entries, or -1 where nothing
is known, and the number of subdirectories.

* `CacheTree.body` — the written form
* `CacheTree.parse` — read it back; numbers may carry signs and leading zeros -/

namespace StagingIndex

namespace CacheTree

/-- How many levels below the root are read. -/
def maxDepth : Nat := 4096

/-- The part of a node before its subdirectories. -/
def header (name : Bytes) (known : Option Known) (children : Nat) : Bytes :=
  let count := match known with
    | some k => Numeral.digits 10 k.count
    | none => [0x2d, 0x31]
  let id := match known with
    | some k => k.id.bytes
    | none => []
  name ++ Bytes.nul :: (count ++ Bytes.space :: (Numeral.digits 10 children ++
    Bytes.newline :: id))

mutual

/-- The written form of a node and of all nodes below it. -/
def body : CacheTree → Bytes
  | node name known children => header name known children.length ++ bodies children

/-- The written forms of several nodes. -/
def bodies : List CacheTree → Bytes
  | [] => []
  | t :: ts => t.body ++ bodies ts

end

/-! ## Reading -/

/-- The numbers of a line: entries, where -1 stands for a node that knows nothing, and
subdirectories. -/
def parseCounts (line : Bytes) : Except CacheTreeFault (Int × Nat) :=
  if (Utf8.text? line).isNone then .error .nonAsciiCounts
  else
    match Bytes.splitAt? Bytes.space line with
    | none => .error .missingSubtreeCount
    | some (count, subtrees) =>
      match Numeral.signed? 10 count with
      | none => .error .badEntryCount
      | some count =>
        match Numeral.unsigned? 10 UInt64.size subtrees with
        | none => .error .badSubtreeCount
        | some subtrees => .ok (count, subtrees)

/-- What a node with a count knows, and what follows its id. -/
def parseKnown (count : Int) (s : Bytes) : Except CacheTreeFault (Option Known × Bytes) :=
  if count = -1 then .ok (none, s)
  else if count < 0 then .error .negativeEntryCount
  else
    match ObjectId.ofBytes (s.take 32) with
    | .error _ => .error .truncatedId
    | .ok id => .ok (some ⟨count.toNat, id⟩, s.drop 32)

/-- The name, the knowledge and the number of subdirectories of a node, and what follows. -/
def parseHeader (s : Bytes) : Except CacheTreeFault (Bytes × Option Known × Nat × Bytes) :=
  match Bytes.splitAt? Bytes.nul s with
  | none => .error .unterminatedName
  | some (name, s) =>
    if Bytes.slash ∈ name then .error .nameWithSlash
    else
      match Bytes.splitAt? Bytes.newline s with
      | none => .error .unterminatedCounts
      | some (line, s) => do
        let (count, subtrees) ← parseCounts line
        let (known, s) ← parseKnown count s
        return (name, known, subtrees, s)

/-- Read nodes one after another until there are as many as announced. -/
def parseMany (parse : Bytes → Except CacheTreeFault (CacheTree × Bytes)) :
    Nat → Bytes → Except CacheTreeFault (List CacheTree × Bytes)
  | 0, s => .ok ([], s)
  | n + 1, s =>
    if s.isEmpty then .error .missingSubtree
    else do
      let (t, s) ← parse s
      let (ts, s) ← parseMany parse n s
      return (t :: ts, s)

/-- Whether two neighbours have the same name. -/
def hasTwins : List CacheTree → Bool
  | a :: b :: ts => a.name = b.name || hasTwins (b :: ts)
  | _ => false

/-- Read a node below which there may be that many levels less one, and give what follows it.
Subdirectories are put into order. -/
def parseNode : Nat → Bytes → Except CacheTreeFault (CacheTree × Bytes)
  | 0, _ => .error .tooDeep
  | levels + 1, s => do
    let (name, known, subtrees, s) ← parseHeader s
    let (children, s) ← parseMany (parseNode levels) subtrees s
    let children := sortByName children
    if hasTwins children then .error .duplicateSubtree
    else return (node name known children, s)

/-- Read a whole cache tree. -/
def parse (s : Bytes) : Except CacheTreeFault CacheTree := do
  let (t, rest) ← parseNode (maxDepth + 1) s
  if t.name ≠ [] then .error .namedRoot
  else if rest ≠ [] then .error (.trailingBytes rest.length)
  else return t

end CacheTree

end StagingIndex
