import StagingIndex.Bytes

/-! # The digest of a byte string

SHA-256: the message is padded to whole blocks of sixteen words, and each block is mixed into a
state of eight words over sixty-four rounds, with one word of the block's schedule and one constant
a round.

* `Sha256.digest` — the digest, thirty-two bytes
* `Sha256.length_digest` — it always has that length -/

namespace StagingIndex

namespace Sha256

/-- The eight words that the rounds mix. -/
structure State where
  a : UInt32
  b : UInt32
  c : UInt32
  d : UInt32
  e : UInt32
  f : UInt32
  g : UInt32
  h : UInt32

/-- The state before the first block: fractional parts of square roots of the first primes. -/
def State.start : State :=
  ⟨0x6a09e667, 0xbb67ae85, 0x3c6ef372, 0xa54ff53a, 0x510e527f, 0x9b05688c, 0x1f83d9ab, 0x5be0cd19⟩

/-- The constants of the rounds: fractional parts of cube roots of the first primes. -/
def roundConstants : List UInt32 :=
  [0x428a2f98, 0x71374491, 0xb5c0fbcf, 0xe9b5dba5, 0x3956c25b, 0x59f111f1, 0x923f82a4, 0xab1c5ed5,
    0xd807aa98, 0x12835b01, 0x243185be, 0x550c7dc3, 0x72be5d74, 0x80deb1fe, 0x9bdc06a7, 0xc19bf174,
    0xe49b69c1, 0xefbe4786, 0x0fc19dc6, 0x240ca1cc, 0x2de92c6f, 0x4a7484aa, 0x5cb0a9dc, 0x76f988da,
    0x983e5152, 0xa831c66d, 0xb00327c8, 0xbf597fc7, 0xc6e00bf3, 0xd5a79147, 0x06ca6351, 0x14292967,
    0x27b70a85, 0x2e1b2138, 0x4d2c6dfc, 0x53380d13, 0x650a7354, 0x766a0abb, 0x81c2c92e, 0x92722c85,
    0xa2bfe8a1, 0xa81a664b, 0xc24b8b70, 0xc76c51a3, 0xd192e819, 0xd6990624, 0xf40e3585, 0x106aa070,
    0x19a4c116, 0x1e376c08, 0x2748774c, 0x34b0bcb5, 0x391c0cb3, 0x4ed8aa4a, 0x5b9cca4f, 0x682e6ff3,
    0x748f82ee, 0x78a5636f, 0x84c87814, 0x8cc70208, 0x90befffa, 0xa4506ceb, 0xbef9a3f7, 0xc67178f2]

/-- Rotation to the right. -/
def rotate (x n : UInt32) : UInt32 := (x >>> n) ||| (x <<< (32 - n))

/-- One round: mix a schedule word and a constant into the state. -/
def State.round (s : State) (k w : UInt32) : State :=
  let sum1 := rotate s.e 6 ^^^ rotate s.e 11 ^^^ rotate s.e 25
  let choice := (s.e &&& s.f) ^^^ (~~~s.e &&& s.g)
  let t1 := s.h + sum1 + choice + k + w
  let sum0 := rotate s.a 2 ^^^ rotate s.a 13 ^^^ rotate s.a 22
  let majority := (s.a &&& s.b) ^^^ (s.a &&& s.c) ^^^ (s.b &&& s.c)
  ⟨t1 + (sum0 + majority), s.a, s.b, s.c, s.d + t1, s.e, s.f, s.g⟩

/-- The schedule word that enters the window of the last sixteen: it depends on the words sixteen,
fifteen, seven and two places back. -/
def nextWord (w16 w15 w7 w2 : UInt32) : UInt32 :=
  let low := rotate w15 7 ^^^ rotate w15 18 ^^^ (w15 >>> 3)
  let high := rotate w2 17 ^^^ rotate w2 19 ^^^ (w2 >>> 10)
  w16 + low + w7 + high

/-- All rounds of one block. The window holds the next sixteen words of the schedule, of which each
round uses the first. -/
def rounds : List UInt32 → List UInt32 → State → State
  | k :: ks, w0 :: w1 :: w2 :: w3 :: w4 :: w5 :: w6 :: w7 :: w8 :: w9 :: wa :: wb :: wc :: wd ::
      we :: wf :: [], s =>
    rounds ks [w1, w2, w3, w4, w5, w6, w7, w8, w9, wa, wb, wc, wd, we, wf, nextWord w0 w1 w9 we]
      (s.round k w0)
  | _, _, s => s

/-- The state after a block: the sum, word by word, of the state before it and the mixed one. -/
def State.absorb (s : State) (block : List UInt32) : State :=
  let t := rounds roundConstants block s
  ⟨s.a + t.a, s.b + t.b, s.c + t.c, s.d + t.d, s.e + t.e, s.f + t.f, s.g + t.g, s.h + t.h⟩

/-- What is appended to a message of `n` bytes: a one bit, zeros, and the length in bits as a number
of eight bytes, so that the whole is a number of blocks. -/
def padding (n : Nat) : Bytes :=
  let bits := UInt64.ofNat (8 * n)
  (0x80 : UInt8) :: (List.replicate ((119 - n % 64) % 64) (0 : UInt8) ++
    (Bytes.ofWord32 (bits >>> 32).toUInt32 ++ Bytes.ofWord32 bits.toUInt32))

/-- The words of a byte string, four bytes each. -/
def words : Bytes → List UInt32
  | a :: b :: c :: d :: s => Bytes.word32 a b c d :: words s
  | _ => []

/-- Absorb sixteen words at a time. -/
def absorbAll (s : State) (ws : List UInt32) : State :=
  if ws.length < 16 then s else absorbAll (s.absorb (ws.take 16)) (ws.drop 16)
termination_by ws.length
decreasing_by simp; omega

/-- The words of a state, as bytes. -/
def State.bytes (s : State) : Bytes :=
  [s.a, s.b, s.c, s.d, s.e, s.f, s.g, s.h].flatMap Bytes.ofWord32

/-- The digest of a byte string. -/
def digest (s : Bytes) : Bytes :=
  (absorbAll State.start (words (s ++ padding s.length))).bytes

/-- A digest has thirty-two bytes. -/
@[simp] theorem length_digest (s : Bytes) : (digest s).length = 32 := rfl

end Sha256

end StagingIndex
