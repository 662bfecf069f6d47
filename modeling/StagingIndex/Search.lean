/-! # Binary search

Halving search in a list, for an element that a comparison calls equal.

* `Search.locate` — where such an element is, or where it would have to go
* `Search.partitionPoint` — how many leading elements satisfy a condition, where those that do come
  first -/

namespace StagingIndex

namespace Search

variable {α : Type}

/-- Where a search ended. -/
inductive Place where
  /-- There is an element at this position. -/
  | present (position : Nat)
  /-- There is none; this position keeps the order. -/
  | absent (position : Nat)
deriving DecidableEq, Repr

/-- The position of a place, whether or not there is an element. -/
def Place.position : Place → Nat
  | present i => i
  | absent i => i

/-- Halve a window of `size` positions from `base` until one is left: the second half is taken
unless its first element is too great. -/
def narrow (f : α → Ordering) (xs : List α) (base size : Nat) : Nat :=
  if size ≤ 1 then base
  else
    let mid := base + size / 2
    let tooGreat : Bool := (xs[mid]?.map f).getD .gt == .gt
    narrow f xs (if tooGreat then base else mid) (size - size / 2)
termination_by size
decreasing_by omega

/-- Search for an element that `f` calls equal, where `f` says how an element compares with the one
that is wanted. -/
def locate (f : α → Ordering) (xs : List α) : Place :=
  let base := narrow f xs 0 xs.length
  match xs[base]? with
  | none => .absent 0
  | some x =>
    match f x with
    | .lt => .absent (base + 1)
    | .eq => .present base
    | .gt => .absent base

/-- The number of leading elements that satisfy `p`, where all that do stand before all that do
not. -/
def partitionPoint (p : α → Bool) (xs : List α) : Nat :=
  (locate (fun x => if p x then .lt else .gt) xs).position

end Search

end StagingIndex
