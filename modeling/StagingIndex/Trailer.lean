import StagingIndex.Sha256

/-! # Checksummed files

A file ends with the digest of everything before it.

* `Trailer.attach` — append the digest
* `Trailer.detach?` — take it off again, if it is right
* `Trailer.detach?_attach` — what is attached comes off -/

namespace StagingIndex

namespace Trailer

/-- The length of a trailer. -/
def size : Nat := 32

/-- A body followed by its digest. -/
def attach (body : Bytes) : Bytes := body ++ Sha256.digest body

/-- The body of a file whose last thirty-two bytes are the digest of those before. -/
def detach? (file : Bytes) : Option Bytes :=
  if size ≤ file.length ∧
      Sha256.digest (file.take (file.length - size)) = file.drop (file.length - size) then
    some (file.take (file.length - size))
  else none

/-- How many bytes have been written after each of several chunks. -/
def totals (chunks : List Bytes) : List Nat := go 0 chunks
where
  go (written : Nat) : List Bytes → List Nat
    | [] => []
    | c :: cs => (written + c.length) :: go (written + c.length) cs

/-- Taking a trailer off gives back what it was attached to. -/
@[simp] theorem detach?_attach (body : Bytes) : detach? (attach body) = some body := by
  simp [detach?, attach, size]

end Trailer

end StagingIndex
