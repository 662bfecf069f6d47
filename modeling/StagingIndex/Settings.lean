import StagingIndex.Table

/-! # Settings

What can be chosen about an index: the version of a file written from scratch, what becomes of
equal keys in a batch, and how carefully a written file is flushed. -/

namespace StagingIndex

/-- When a lock file is flushed before it replaces the index file. -/
inductive SyncMode where
  /-- Whenever the operating system does it. -/
  | osDefault
  /-- Before every commit. -/
  | everyWrite
deriving DecidableEq, Repr

/-- The name of a policy. -/
def DuplicatePolicy.name : DuplicatePolicy → String
  | .reject => "reject"
  | .lastWins => "last-wins"

/-- The name of a way to flush. -/
def SyncMode.name : SyncMode → String
  | .osDefault => "os-default"
  | .everyWrite => "every-write"

/-- The settings of an index. -/
structure Settings where
  version : Version
  duplicatePolicy : DuplicatePolicy
  syncMode : SyncMode
deriving DecidableEq, Repr

/-- The settings where none are given. -/
def Settings.standard : Settings := ⟨.v2, .reject, .osDefault⟩

end StagingIndex
