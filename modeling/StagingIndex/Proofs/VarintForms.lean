import Mathlib
import StagingIndex.Proofs.CheckedReading
import StagingIndex.Proofs.Rewriting

/-! # Offset numbers have one form

The groups of an offset number are found from the last to the first, so they are written into a
buffer of ten bytes from its end. On the machine that stops, every number of sixty-four bits has its
place there. Reading accepts exactly what writing produces: a number has one form, no form goes on
with another one, and none stands for a number of more than sixty-four bits.

* `Machine.putGroups`, `Machine.encodeVarint` — writing into a buffer, every step checked
* `Varint.length_continuation_le` — how many groups a number can have
* `Varint.decode?_eq_some_iff` — what is read is the form of a number, and what follows it
* `Machine.varint_bijection` — writing and reading with every step checked -/

namespace StagingIndex

/-! ## One form -/

namespace Varint

variable {n value : Nat} {b : UInt8} {s rest : Bytes}

/-- A continuation ends with the last group of the number before. -/
theorem continuation_succ (n : Nat) :
    continuation (n + 1) = continuation (n / 128) ++ [UInt8.ofNat (128 + n % 128)] := by
  rw [continuation, if_neg (Nat.succ_ne_zero n), Nat.add_sub_cancel]

/-- A number of some groups has as many bytes before the last one at most. -/
theorem length_continuation_le {groups : Nat} (h : n < 128 ^ groups) :
    (continuation n).length ≤ groups := by
  induction groups generalizing n with
  | zero =>
    rw [Nat.pow_zero, Nat.lt_one_iff] at h
    simp [h, continuation]
  | succ groups ih =>
    cases n with
    | zero => simp [continuation]
    | succ n =>
      rw [Nat.pow_succ] at h
      have hrest := ih (n := n / 128) (by omega)
      rw [continuation_succ, List.length_append, List.length_singleton]
      exact Nat.succ_le_succ hrest

/-- A form ends with a byte that has the last group, and nothing else. -/
theorem encode_of_lt (hb : b.toNat % 128 = value % 128) (hlast : b < 128) :
    encode value = continuation (value / 128) ++ [b] := by
  have hlt : b.toNat < 128 := UInt8.lt_iff_toNat_lt.1 hlast
  rw [Nat.mod_eq_of_lt hlt] at hb
  rw [encode, ← hb, UInt8.ofNat_toNat]

/-- A continuation ends with a byte that has the last group of the number before, and its high bit
set. -/
theorem continuation_of_not_lt (hb : b.toNat % 128 = value % 128) (hnext : ¬ b < 128) :
    continuation (value + 1) = continuation (value / 128) ++ [b] := by
  have hge : 128 ≤ b.toNat := Nat.not_lt.1 fun h => hnext (UInt8.lt_iff_toNat_lt.2 h)
  have hbyte : b.toNat = 128 + value % 128 := by
    have := b.toNat_lt
    omega
  rw [continuation_succ, ← hbyte, UInt8.ofNat_toNat]

/-- What has been read of a number, the byte that it ended with, and what follows are the form of the
number that is read, and the rest. -/
theorem eq_of_decodeFrom (hb : b.toNat % 128 = value % 128)
    (h : decodeFrom value b s = some (n, rest)) :
    continuation (value / 128) ++ b :: s = encode n ++ rest := by
  fun_induction decodeFrom value b s with
  | case1 value b hlast =>
    cases h
    rw [encode_of_lt hb hlast, List.append_nil]
  | case2 => cases h
  | case3 value b c s hlast =>
    cases h
    rw [encode_of_lt hb hlast, List.append_assoc, List.singleton_append]
  | case4 value b c s hnext next hfits ih =>
    -- The next group extends the number by one more than what has been read of it.
    have hdiv : next / 128 = value + 1 := by omega
    have hgroup : c.toNat % 128 = next % 128 := by omega
    rw [← ih hgroup h, hdiv, continuation_of_not_lt hb hnext, List.append_assoc,
      List.singleton_append]
  | case5 => cases h

/-- What is read is the form of a number of sixty-four bits, and what follows it. -/
theorem decode?_eq_some_iff :
    decode? s = some (n, rest) ↔ n < UInt64.size ∧ s = encode n ++ rest := by
  constructor
  · intro h
    refine ⟨lt_of_decode? h, ?_⟩
    cases s with
    | nil => cases h
    | cons b s =>
      have hform := eq_of_decodeFrom (Nat.mod_mod _ _).symm h
      rwa [Nat.div_eq_of_lt (Nat.mod_lt _ (by decide)), continuation, if_pos rfl,
        List.nil_append] at hform
  · rintro ⟨hn, rfl⟩
    exact decode?_encode hn rest

end Varint

/-! ## Writing into a buffer -/

/-- The elements with one put at a position, in place of what is there. -/
def Checked.put {α : Type} (xs : List α) (i : Nat) (x : α) : Except Trap (List α) :=
  if i < xs.length then .ok (xs.set i x) else .error .outOfRange

theorem Checked.put_eq {α : Type} {xs : List α} {i : Nat} (h : i < xs.length) (x : α) :
    put xs i x = .ok (xs.set i x) := if_pos h

namespace Machine

/-! ### Words -/

/-- What is above the last seven bits. -/
theorem toNat_shiftRight (v : UInt64) : (v >>> 7).toNat = v.toNat / 128 := by
  rw [UInt64.toNat_shiftRight]
  simp only [UInt64.reduceToNat, Nat.reduceMod, Nat.shiftRight_eq_div_pow, Nat.reducePow]

/-- One can be taken from a number that is not zero. -/
theorem toNat_sub_one {v : UInt64} (h : v ≠ 0) : (v - 1).toNat = v.toNat - 1 := by
  have hne : v.toNat ≠ 0 := fun e => h (UInt64.toNat_inj.1 e)
  have hle : (1 : UInt64) ≤ v := UInt64.le_iff_toNat_le.2 (Nat.one_le_iff_ne_zero.2 hne)
  rw [UInt64.toNat_sub_of_le _ _ hle]
  rfl

/-- The last seven bits. -/
theorem toNat_group (v : UInt64) : (v &&& 0x7f).toUInt8.toNat = v.toNat % 128 := by
  have hmask : (0x7f : UInt64).toNat = 2 ^ 7 - 1 := rfl
  rw [UInt64.toNat_toUInt8, UInt64.toNat_and, hmask, Nat.and_two_pow_sub_one_eq_mod]
  omega

/-- The last seven bits, with the high bit of a byte set. -/
theorem toNat_or_group (v : UInt64) :
    (0x80 ||| (v &&& 0x7f).toUInt8).toNat = 128 + v.toNat % 128 := by
  have hlt : v.toNat % 128 < 2 ^ 7 := Nat.mod_lt _ (by decide)
  have hor := Nat.two_pow_add_eq_or_of_lt hlt 1
  rw [UInt8.toNat_or, toNat_group]
  exact hor.symm

/-! ### The loop -/

/-- Put the bytes that go before the last one of a number before a position of a buffer, where
`value` is the number of the groups that are left, and give the position of the first. -/
def putGroups (value : UInt64) (here : Nat) (buffer : Bytes) : Except Trap (Nat × Bytes) :=
  if value = 0 then .ok (here, buffer)
  else do
    let target ← Checked.sub here 1
    let buffer ← Checked.put buffer target (0x80 ||| ((value - 1) &&& 0x7f).toUInt8)
    putGroups ((value - 1) >>> 7) target buffer
termination_by value.toNat
decreasing_by
  rename_i h
  have hne : value.toNat ≠ 0 := fun e => h (UInt64.toNat_inj.1 e)
  rw [toNat_shiftRight, toNat_sub_one h]
  omega

/-- The form of a number, written into a buffer of ten bytes from its end. -/
def encodeVarint (value : UInt64) : Except Trap Bytes := do
  let buffer : Bytes := List.replicate 10 0
  let last ← Checked.sub buffer.length 1
  let buffer ← Checked.put buffer last (value &&& 0x7f).toUInt8
  let (first, buffer) ← putGroups (value >>> 7) last buffer
  Checked.sliceFrom buffer first

/-- Where there is place for the bytes of a continuation before a position, they are put there, and
what stands from the position on stays. -/
theorem putGroups_eq_ok {value : UInt64} {here : Nat} (buffer : Bytes)
    (hplace : (Varint.continuation value.toNat).length ≤ here) (hhere : here ≤ buffer.length) :
    ∃ first buffer', putGroups value here buffer = .ok (first, buffer') ∧
      first ≤ buffer'.length ∧
      buffer'.drop first = Varint.continuation value.toNat ++ buffer.drop here := by
  fun_induction putGroups value here buffer with
  | case1 here buffer =>
    refine ⟨here, buffer, rfl, hhere, ?_⟩
    rw [UInt64.toNat_zero, Varint.continuation, if_pos rfl, List.nil_append]
  | case2 value here buffer hne ih =>
    have hvalue : value.toNat = (value - 1).toNat + 1 := by
      have : value.toNat ≠ 0 := fun e => hne (UInt64.toNat_inj.1 e)
      rw [toNat_sub_one hne]
      omega
    rw [hvalue, Varint.continuation_succ, List.length_append, List.length_singleton] at hplace
    have htarget : here - 1 < buffer.length := by omega
    have hbyte : 0x80 ||| ((value - 1) &&& 0x7f).toUInt8 =
        UInt8.ofNat (128 + (value - 1).toNat % 128) := by
      rw [← toNat_or_group, UInt8.ofNat_toNat]
    obtain ⟨first, buffer', hrun, hfirst, hdrop⟩ := ih (here - 1)
      (buffer.set (here - 1) (0x80 ||| ((value - 1) &&& 0x7f).toUInt8))
      (by rw [toNat_shiftRight]; omega) (by rw [List.length_set]; omega)
    refine ⟨first, buffer', ?_, hfirst, ?_⟩
    · rw [Checked.sub_eq (by omega)]
      change (Checked.put buffer (here - 1) _ >>= fun buffer =>
        putGroups ((value - 1) >>> 7) (here - 1) buffer) = _
      rw [Checked.put_eq htarget]
      exact hrun
    · -- The byte that has just been put in stands between the others and what was there.
      have hset : (buffer.set (here - 1) (0x80 ||| ((value - 1) &&& 0x7f).toUInt8)).drop (here - 1) =
          (0x80 ||| ((value - 1) &&& 0x7f).toUInt8) :: buffer.drop here := by
        rw [List.drop_eq_getElem_cons (by rwa [List.length_set]), List.getElem_set_self,
          List.drop_set_of_lt (by omega), Nat.sub_add_cancel (by omega)]
      rw [hdrop, toNat_shiftRight, hset, hvalue, Varint.continuation_succ, hbyte,
        List.append_assoc, List.singleton_append]

/-- The form of every number of sixty-four bits has its place in the buffer. -/
theorem encodeVarint_eq (value : UInt64) :
    encodeVarint value = .ok (Varint.encode value.toNat) := by
  have hlength : (Varint.continuation (value >>> 7).toNat).length ≤ 9 := by
    refine Varint.length_continuation_le ?_
    have := value.toNat_lt
    rw [toNat_shiftRight]
    omega
  obtain ⟨first, buffer, hrun, hfirst, hdrop⟩ :=
    putGroups_eq_ok ((List.replicate 10 0).set 9 (value &&& 0x7f).toUInt8) hlength (by simp)
  have hlast : (value &&& 0x7f).toUInt8 = UInt8.ofNat (value.toNat % 128) := by
    rw [← toNat_group, UInt8.ofNat_toNat]
  change (putGroups (value >>> 7) 9 ((List.replicate 10 0).set 9 (value &&& 0x7f).toUInt8) >>=
    fun p => Checked.sliceFrom p.2 p.1) = _
  rw [hrun]
  change Checked.sliceFrom buffer first = _
  rw [Checked.sliceFrom_eq hfirst, hdrop, toNat_shiftRight, hlast]
  rfl

/-- The largest number takes up the whole buffer. -/
example : (Varint.encode (2 ^ 64 - 1)).length = 10 := by cbv

/-! ### Both ways -/

/-- Every number of sixty-four bits is written into the buffer without a step that stops, and what is
written is its form. Reading does not stop either; what is read from some bytes, and how many of them
it takes, are a number of sixty-four bits and the length of its form, which the bytes begin with, and
whatever bytes begin with a form are read so. -/
theorem varint_bijection :
    (∀ value : UInt64, encodeVarint value = .ok (Varint.encode value.toNat)) ∧
      (∀ s, varint? s = .ok ((Varint.decode? s).map fun p => (p.1, s.length - p.2.length))) ∧
      ∀ s n used, varint? s = .ok (some (n, used)) ↔
        n < 2 ^ 64 ∧ used = (Varint.encode n).length ∧ s.take used = Varint.encode n := by
  refine ⟨encodeVarint_eq, varint?_eq, fun s n used => ?_⟩
  rw [varint?_eq, Except.ok.injEq, Option.map_eq_some_iff]
  constructor
  · rintro ⟨⟨m, rest⟩, hread, heq⟩
    obtain ⟨hm, rfl⟩ := Varint.decode?_eq_some_iff.1 hread
    cases heq
    have hused : (Varint.encode m ++ rest).length - rest.length = (Varint.encode m).length := by
      rw [List.length_append, Nat.add_sub_cancel]
    rw [hused]
    exact ⟨hm, rfl, List.take_left⟩
  · rintro ⟨hn, rfl, htake⟩
    obtain ⟨rest, rfl⟩ := List.prefix_iff_eq_take.2 htake.symm
    refine ⟨(n, rest), Varint.decode?_encode hn rest, ?_⟩
    rw [List.length_append, Nat.add_sub_cancel]

end Machine

end StagingIndex
