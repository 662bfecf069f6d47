import Mathlib
import StagingIndex.Image.Varint
import StagingIndex.ObjectId
import StagingIndex.Text.Utf8

/-! # Numbers and names are read back

Numerals and offset numbers are written from the most significant part on, and reading extends the
number read so far; so what has been read of a number is the number without its last parts.

* `Numeral.unsigned?_digits`, `Numeral.signed?_digits` — numerals
* `Varint.decode?_encode` — offset numbers
* `ObjectId.take_bytes_append`, `ObjectId.drop_bytes_append` — object names
* `Utf8.text?_isSome` — ASCII is text -/

namespace StagingIndex

/-! ## Numerals -/

namespace Numeral

variable {base bound n : Nat}

/-- A numeral has at least one digit. -/
theorem digits_ne_nil (base n : Nat) : digits base n ≠ [] := by
  rw [digits]
  split <;> simp

/-- A numeral has digits only. -/
theorem mem_digits (h₁ : 1 < base) (h₂ : base ≤ 10) {b : UInt8} (hb : b ∈ digits base n) :
    0x30 ≤ b.toNat ∧ b.toNat < 0x3a := by
  have hdigit : ∀ d, d < base → 0x30 ≤ (digit d).toNat ∧ (digit d).toNat < 0x3a := by
    intro d hd
    simp only [digit, UInt8.toNat_ofNat']
    omega
  fun_induction digits base n with
  | case1 n h ih =>
    rcases List.mem_append.1 hb with hb | hb
    · exact ih hb
    · rw [List.mem_singleton.1 hb]
      exact hdigit _ (Nat.mod_lt _ (by omega))
  | case2 n h =>
    rw [List.mem_singleton.1 hb]
    exact hdigit n (by omega)

/-- A digit has its value. -/
theorem digitValue?_digit (h : base ≤ 10) (hn : n < base) :
    digitValue? base (digit n) = some n := by
  have : (digit n).toNat = 0x30 + n := by
    simp only [digit, UInt8.toNat_ofNat']
    omega
  rw [digitValue?, this, if_pos (by omega)]
  simp

/-- Once a numeral has been read its number has been read. -/
theorem continue?_digits (h₁ : 1 < base) (h₂ : base ≤ 10) (n : Nat) (s : Bytes) :
    continue? base 0 (digits base n ++ s) = continue? base n s := by
  fun_induction digits base n generalizing s with
  | case1 n h ih =>
    rw [List.append_assoc, ih, List.singleton_append, continue?,
      digitValue?_digit h₂ (Nat.mod_lt _ (by omega)), Option.bind_some, Nat.div_add_mod']
  | case2 n h =>
    rw [List.singleton_append, continue?, digitValue?_digit h₂ (by omega), Option.bind_some,
      Nat.zero_mul, Nat.zero_add]

/-- The number of a numeral. -/
theorem ofDigits?_digits (h₁ : 1 < base) (h₂ : base ≤ 10) (n : Nat) :
    ofDigits? base (digits base n) = some n := by
  have := continue?_digits h₁ h₂ n []
  rw [List.append_nil] at this
  rw [ofDigits?, this]
  simp [digits_ne_nil, continue?]

/-- A numeral does not start with a sign. -/
theorem head?_digits_ne (h₁ : 1 < base) (h₂ : base ≤ 10) {b : UInt8} (hb : b.toNat < 0x30) :
    (digits base n).head? ≠ some b := by
  intro h
  have := (mem_digits h₁ h₂ (List.mem_of_head? h)).1
  omega

/-- A number below the bound is read back from its numeral. -/
theorem unsigned?_digits (h₁ : 1 < base) (h₂ : base ≤ 10) (hn : n < bound) :
    unsigned? base bound (digits base n) = some n := by
  rw [unsigned?, if_neg (head?_digits_ne h₁ h₂ (by decide)), ofDigits?_digits h₁ h₂]
  simp [hn]

/-- A number of 63 bits is read back from its numeral where signs are allowed. -/
theorem signed?_digits (h₁ : 1 < base) (h₂ : base ≤ 10) (hn : n < 2 ^ 63) :
    signed? base (digits base n) = some (n : Int) := by
  have hunsigned : unsigned? base 0x8000000000000000 (digits base n) = some n :=
    unsigned?_digits h₁ h₂ hn
  rw [signed?, if_neg (head?_digits_ne h₁ h₂ (by decide)), hunsigned]
  rfl

end Numeral

/-! ## Offset numbers -/

namespace Varint

/-- After the continuation of a positive number the number less one has been read, and the last byte
announces another. -/
theorem decode?_continuation {m : Nat} (hm : 0 < m) (hlt : m ≤ UInt64.size) (s : Bytes) :
    decode? (continuation m ++ s) =
      decodeFrom (m - 1) (UInt8.ofNat (128 + (m - 1) % 128)) s := by
  fun_induction continuation m generalizing s with
  | case1 => omega
  | case2 m h ih =>
    have hbyte : (UInt8.ofNat (128 + (m - 1) % 128)).toNat = 128 + (m - 1) % 128 := by
      rw [UInt8.toNat_ofNat']
      omega
    -- The first byte starts the number; a byte after another one extends what has been read.
    by_cases hz : (m - 1) / 128 = 0
    · rw [hz, continuation]
      simp only [if_true, List.nil_append, List.singleton_append, decode?, hbyte]
      congr 1
      omega
    · have hprev : ¬ UInt8.ofNat (128 + ((m - 1) / 128 - 1) % 128) < 128 := by
        rw [UInt8.lt_iff_toNat_lt, UInt8.toNat_ofNat']
        simp only [UInt8.reduceToNat]
        omega
      rw [List.append_assoc, ih (by omega) (by omega), List.singleton_append, decodeFrom,
        if_neg hprev, hbyte]
      have hnext : ((m - 1) / 128 - 1 + 1) * 128 + (128 + (m - 1) % 128) % 128 = m - 1 := by omega
      simp only [hnext]
      rw [if_pos (by omega)]

/-- A byte below 128 ends a number. -/
theorem decodeFrom_of_lt {value : Nat} {b : UInt8} (hb : b < 128) (s : Bytes) :
    decodeFrom value b s = some (value, s) := by
  cases s with
  | nil => simp [decodeFrom, hb]
  | cons c s => simp [decodeFrom, hb]

/-- A number of 64 bits is read back from its form. -/
theorem decode?_encode {n : Nat} (hn : n < UInt64.size) (s : Bytes) :
    decode? (encode n ++ s) = some (n, s) := by
  have hbyte : (UInt8.ofNat (n % 128)).toNat = n % 128 := by
    rw [UInt8.toNat_ofNat']
    omega
  have hlast : UInt8.ofNat (n % 128) < 128 := by
    rw [UInt8.lt_iff_toNat_lt, hbyte]
    simp only [UInt8.reduceToNat]
    omega
  rw [encode, List.append_assoc, List.singleton_append]
  by_cases hz : n / 128 = 0
  · rw [hz, continuation, if_pos rfl, List.nil_append, decode?, decodeFrom_of_lt hlast, hbyte]
    congr 2
    omega
  · have hprev : ¬ UInt8.ofNat (128 + (n / 128 - 1) % 128) < 128 := by
      rw [UInt8.lt_iff_toNat_lt, UInt8.toNat_ofNat']
      simp only [UInt8.reduceToNat]
      omega
    have hnext : (n / 128 - 1 + 1) * 128 + n % 128 % 128 = n := by omega
    rw [decode?_continuation (by omega) (by omega), decodeFrom, if_neg hprev, hbyte]
    simp only [hnext, if_pos hn]
    exact decodeFrom_of_lt hlast s

end Varint

/-! ## Object names -/

namespace ObjectId

/-- The first thirty-two bytes of an object name and what follows are the name. -/
@[simp] theorem take_bytes_append (id : ObjectId) (s : Bytes) :
    (id.bytes ++ s).take 32 = id.bytes := by
  rw [← id.length_bytes, List.take_left]

/-- What follows an object name starts after thirty-two bytes. -/
@[simp] theorem drop_bytes_append (id : ObjectId) (s : Bytes) : (id.bytes ++ s).drop 32 = s := by
  rw [← id.length_bytes, List.drop_left]

end ObjectId

/-! ## Text -/

namespace Utf8

/-- ASCII is text. -/
theorem text?_isSome {s : Bytes} (h : ∀ b ∈ s, b < 0x80) : (text? s).isSome = true := by
  have hpieces : ((pieces s).mapM Piece.char?).isSome = true := by
    induction s with
    | nil => simp [pieces]
    | cons b s ih =>
      have hb : b < 0x80 := h b (by simp)
      have ih := ih fun c hc => h c (List.mem_cons_of_mem _ hc)
      obtain ⟨cs, hcs⟩ := Option.isSome_iff_exists.1 ih
      simp [pieces, piece, hb, Piece.char?, hcs]
  rw [text?, Option.isSome_map]
  exact hpieces

end Utf8

end StagingIndex
