import Mathlib
import StagingIndex.Proofs.BodyCodec
import StagingIndex.Proofs.Materialization

/-! # What a cache tree is read as

A cache tree has more written forms than the one it is written in: numbers may carry signs and
leading zeros, and subdirectories may stand in any order. Whatever form is read, the tree has the
shape that is written, no more levels than are read, and a written form that is no longer.

* `Numeral.length_digits_le_of_unsigned?` — a numeral is no longer than what was read as its number
* `CacheTree.parseHeader_eq_ok`, `CacheTree.parseNode_eq_ok` — one node, with everything below it
* `CacheTree.parse_eq_ok` — a whole tree -/

namespace StagingIndex

/-! ## Numerals -/

namespace Numeral

variable {base bound n : Nat}

/-- Digits read after a number make a number below the next power of the base. -/
theorem lt_of_continue? {m : Nat} {s : Bytes} (h : continue? base n s = some m) :
    m < (n + 1) * base ^ s.length := by
  induction s generalizing n with
  | nil =>
    cases h
    simp
  | cons b s ih =>
    obtain ⟨d, hd, h⟩ := Option.bind_eq_some_iff.1 h
    have hd : d < base := by
      rw [digitValue?] at hd
      split at hd
      · cases hd
        omega
      · cases hd
    have hstep : n * base + d + 1 ≤ (n + 1) * base := by
      rw [Nat.add_mul]
      omega
    calc m < (n * base + d + 1) * base ^ s.length := ih h
      _ ≤ (n + 1) * base * base ^ s.length := Nat.mul_le_mul_right _ hstep
      _ = (n + 1) * base ^ (b :: s).length := by rw [List.length_cons, pow_succ']; ring

/-- A number below a power of the base has no more digits than the power says. -/
theorem length_digits_le (h₁ : 1 < base) {k : Nat} (hk : 0 < k) (hn : n < base ^ k) :
    (digits base n).length ≤ k := by
  induction k generalizing n with
  | zero => omega
  | succ k ih =>
    rw [digits]
    split
    · rename_i h
      have hdiv : n / base < base ^ k := by
        rw [Nat.div_lt_iff_lt_mul (by omega)]
        rwa [pow_succ] at hn
      have hpos : 0 < k := by
        by_contra hzero
        obtain rfl : k = 0 := by omega
        simp only [Nat.zero_add, pow_one] at hn
        omega
      have := ih hpos hdiv
      simpa using this
    · simp

/-- The numeral of a number that was read from digits is no longer than they are. -/
theorem length_digits_le_of_ofDigits? (h₁ : 1 < base) {s : Bytes} (h : ofDigits? base s = some n) :
    (digits base n).length ≤ s.length := by
  rw [ofDigits?] at h
  split at h
  · cases h
  · rename_i hne
    refine length_digits_le h₁ (List.length_pos_of_ne_nil (by simpa using hne)) ?_
    simpa using lt_of_continue? h

/-- The numeral of a number that was read, perhaps with a plus sign, is no longer. -/
theorem length_digits_le_of_unsigned? (h₁ : 1 < base) {s : Bytes}
    (h : unsigned? base bound s = some n) : (digits base n).length ≤ s.length := by
  obtain ⟨h, -⟩ := Option.filter_eq_some_iff.1 h
  refine (length_digits_le_of_ofDigits? h₁ h).trans ?_
  split
  · simp
  · exact Nat.le_refl _

/-- A number that was read, perhaps with a sign, is written in no more bytes: as its numeral, or as
the two bytes of -1. -/
theorem length_le_of_signed? (h₁ : 1 < base) {s : Bytes} {i : Int} (h : signed? base s = some i) :
    (i = -1 → 2 ≤ s.length) ∧ (0 ≤ i → (digits base i.toNat).length ≤ s.length) := by
  rw [signed?] at h
  split at h
  · rename_i hminus
    obtain ⟨i, hi, rfl⟩ := Option.map_eq_some_iff.1 h
    obtain ⟨n, hn, ⟨⟩⟩ := Option.bind_eq_some_iff.1 hi
    obtain ⟨hn, -⟩ := Option.filter_eq_some_iff.1 hn
    have hlength := length_digits_le_of_ofDigits? h₁ hn
    have hpos : 0 < (digits base n).length := List.length_pos_of_ne_nil (digits_ne_nil base n)
    obtain ⟨b, s, rfl⟩ : ∃ b t, s = b :: t := by
      cases s with
      | nil => cases hminus
      | cons b t => exact ⟨b, t, rfl⟩
    rw [List.tail_cons] at hlength
    constructor
    · intro _
      rw [List.length_cons]
      omega
    · intro hi
      obtain rfl : n = 0 := by omega
      exact hlength.trans (by simp)
  · obtain ⟨i, hi, rfl⟩ := Option.map_eq_some_iff.1 h
    obtain ⟨n, hn, ⟨⟩⟩ := Option.bind_eq_some_iff.1 hi
    exact ⟨fun hi => by omega, fun _ => length_digits_le_of_unsigned? h₁ hn⟩

end Numeral

/-! ## One node -/

namespace CacheTree

variable {t : CacheTree} {ts : List CacheTree} {s rest : Bytes} {levels : Nat}

/-- The written form of a node before its subdirectories, in parts. -/
theorem header_eq (name : Bytes) (known : Option Known) (n : Nat) :
    header name known n = name ++ Bytes.nul :: (countDigits known ++ Bytes.space ::
      (Numeral.digits 10 n ++ Bytes.newline :: (known.map fun k => k.id.bytes).getD [])) := by
  cases known <;> simp [header, countDigits]

/-- What is known of a node is read from as many bytes as its id has, if it has one. -/
theorem parseKnown_eq_ok {count : Int} {known : Option Known}
    (h : parseKnown count s = .ok (known, rest)) :
    (count = -1 ∨ 0 ≤ count) ∧ countDigits known =
        (if count = -1 then [0x2d, 0x31] else Numeral.digits 10 count.toNat) ∧
      ((known.map fun k => k.id.bytes).getD []).length + rest.length = s.length := by
  rw [parseKnown] at h
  split at h
  · rename_i hcount
    cases h
    exact ⟨Or.inl hcount, by simp [countDigits, hcount], by simp⟩
  · rename_i hcount
    split at h
    · cases h
    · rename_i hneg
      split at h
      · cases h
      · rename_i id hid
        cases h
        have hlength : s.length - (s.length - 32) = 32 := by
          rw [ObjectId.ofBytes] at hid
          split at hid
          · rename_i hlen
            rw [List.length_take] at hlen
            omega
          · cases hid
        refine ⟨Or.inr (by omega), by simp [countDigits, hcount], ?_⟩
        simp only [Option.map_some, Option.getD_some, id.length_bytes, List.length_drop]
        omega

/-- The numbers of a node are written in no more bytes than they were read from. -/
theorem parseCounts_eq_ok {line : Bytes} {count : Int} {n : Nat}
    (h : parseCounts line = .ok (count, n)) :
    (count = -1 → 3 + (Numeral.digits 10 n).length ≤ line.length) ∧
      (0 ≤ count → (Numeral.digits 10 count.toNat).length + 1 + (Numeral.digits 10 n).length ≤
        line.length) := by
  rw [parseCounts] at h
  split at h
  · cases h
  · split at h
    · cases h
    · rename_i first second hsplit
      obtain ⟨rfl, -⟩ := Bytes.eq_append_of_splitAt? hsplit
      split at h
      · cases h
      · rename_i hcount
        split at h
        · cases h
        · rename_i hsecond
          cases h
          obtain ⟨hunknown, hknown⟩ := Numeral.length_le_of_signed? (by decide) hcount
          have := Numeral.length_digits_le_of_unsigned? (by decide) hsecond
          simp only [List.length_append, List.length_cons]
          exact ⟨fun hc => by have := hunknown hc; omega, fun hc => by have := hknown hc; omega⟩

/-- The part of a node before its subdirectories is written in no more bytes than it was read
from. -/
theorem parseHeader_eq_ok {name : Bytes} {known : Option Known} {n : Nat}
    (h : parseHeader s = .ok (name, known, n, rest)) :
    Delimited name ∧ (header name known n).length + rest.length ≤ s.length := by
  rw [parseHeader] at h
  split at h
  · cases h
  · rename_i read afterName hname
    split at h
    · cases h
    · rename_i hslash
      split at h
      · cases h
      · rename_i line afterLine hline
        obtain ⟨⟨count, m⟩, hcounts, h⟩ := Check.bind_eq_ok.1 h
        obtain ⟨⟨known', rest'⟩, hknown, h⟩ := Check.bind_eq_ok.1 h
        cases h
        obtain ⟨rfl, hnul⟩ := Bytes.eq_append_of_splitAt? hname
        obtain ⟨rfl, -⟩ := Bytes.eq_append_of_splitAt? hline
        obtain ⟨hsign, hdigits, hrest⟩ := parseKnown_eq_ok hknown
        obtain ⟨hunknown, hcount⟩ := parseCounts_eq_ok hcounts
        refine ⟨⟨hslash, hnul⟩, ?_⟩
        have hfirst : (countDigits known).length + 1 + (Numeral.digits 10 n).length ≤
            line.length := by
          rw [hdigits]
          split
          · rename_i hc
            have := hunknown hc
            simp only [List.length_cons, List.length_nil]
            omega
          · rename_i hc
            exact hcount (hsign.resolve_left hc)
        simp only [header_eq, List.length_append, List.length_cons]
        omega

/-! ## Nodes below a node -/

/-- The levels of several subdirectories are counted by the deepest one. -/
theorem heights_le_iff : heights ts ≤ levels ↔ ∀ c ∈ ts, c.height < levels := by
  induction ts with
  | nil => simp [heights]
  | cons t ts ih => rw [heights, max_le_iff, ih, List.forall_mem_cons, Nat.succ_le_iff]

/-- The written forms of several nodes are as long together as they are one by one. -/
theorem length_bodies (ts : List CacheTree) :
    (bodies ts).length = (ts.map fun t => t.body.length).sum := by
  induction ts with
  | nil => rfl
  | cons t ts ih => simp [bodies, ih]

/-- Nodes put into order have as long a written form. -/
theorem length_bodies_sortByName (ts : List CacheTree) :
    (bodies (sortByName ts)).length = (bodies ts).length := by
  rw [length_bodies, length_bodies]
  exact ((List.mergeSort_perm ts _).map _).sum_eq

/-- Nodes put into order are as many. -/
theorem length_sortByName (ts : List CacheTree) : (sortByName ts).length = ts.length :=
  List.length_mergeSort ts

/-- Nodes in order are strictly in order if no neighbours have the same name. -/
theorem pairwise_of_hasTwins (hle : ts.Pairwise fun a b => (compare a.name b.name).isLE = true)
    (h : hasTwins ts = false) : ts.Pairwise fun a b => compare a.name b.name = .lt := by
  fun_induction hasTwins ts with
  | case1 a b ts ih =>
    rw [Bool.or_eq_false_iff, decide_eq_false_iff_not] at h
    obtain ⟨ha, hbs⟩ := List.pairwise_cons.1 hle
    have hab : compare a.name b.name = .lt := compare_eq_lt_of_ne (ha b (by simp)) h.1
    refine List.pairwise_cons.2 ⟨?_, ih hbs h.2⟩
    intro c hc
    -- `b` is not after anything that follows it.
    rcases List.mem_cons.1 hc with rfl | hc
    · exact hab
    · exact Std.TransCmp.lt_of_lt_of_isLE hab ((List.pairwise_cons.1 hbs).1 c hc)
  | case2 ts hne =>
    rcases ts with _ | ⟨a, _ | ⟨b, ts⟩⟩
    · exact List.Pairwise.nil
    · exact List.pairwise_singleton _ _
    · exact absurd rfl (hne a b ts)

/-- What is said of a node that was read with so many levels, and of the bytes it was read from. -/
structure ReadFrom (levels : Nat) (s rest : Bytes) (t : CacheTree) : Prop where
  delimited : Delimited t.name
  shaped : ∀ base, All (fun _ n => n.Shaped) base t
  height : t.height < levels
  length : t.body.length + rest.length ≤ s.length

/-- Nodes read one after another are as many as announced, and each was read from some bytes. -/
theorem parseMany_eq_ok {parse : Bytes → Except CacheTreeFault (CacheTree × Bytes)}
    (hparse : ∀ s rest t, parse s = .ok (t, rest) → ReadFrom levels s rest t) {n : Nat}
    (h : parseMany parse n s = .ok (ts, rest)) :
    ts.length = n ∧ (bodies ts).length + rest.length ≤ s.length ∧
      ∀ c ∈ ts, Delimited c.name ∧ (∀ base, All (fun _ n => n.Shaped) base c) ∧
        c.height < levels := by
  induction n generalizing s ts with
  | zero =>
    cases h
    simp [bodies]
  | succ n ih =>
    rw [parseMany] at h
    split at h
    · cases h
    · obtain ⟨⟨t, s₁⟩, ht, h⟩ := Check.bind_eq_ok.1 h
      obtain ⟨⟨us, s₂⟩, hus, h⟩ := Check.bind_eq_ok.1 h
      cases h
      have hfirst := hparse _ _ _ ht
      obtain ⟨hlength, hbodies, hall⟩ := ih hus
      refine ⟨by rw [List.length_cons, hlength], ?_, ?_⟩
      · have := hfirst.length
        rw [bodies, List.length_append]
        omega
      · intro c hc
        rcases List.mem_cons.1 hc with rfl | hc
        · exact ⟨hfirst.delimited, hfirst.shaped, hfirst.height⟩
        · exact hall c hc

/-- A node that was read has the shape that is written, with everything below it. -/
theorem parseNode_eq_ok (h : parseNode levels s = .ok (t, rest)) : ReadFrom levels s rest t := by
  -- By induction on the levels, one less for all subdirectories.
  induction levels generalizing s rest t with
  | zero => cases h
  | succ levels ih =>
    obtain ⟨⟨name, known, n, s₁⟩, hheader, h⟩ := Check.bind_eq_ok.1 h
    obtain ⟨⟨children, s₂⟩, hchildren, h⟩ := Check.bind_eq_ok.1 h
    simp only at h
    split at h
    · cases h
    · rename_i htwins
      cases h
      obtain ⟨hname, hlength⟩ := parseHeader_eq_ok hheader
      obtain ⟨hn, hbodies, hall⟩ := parseMany_eq_ok (fun s rest t => ih) hchildren
      have hsorted := pairwise_of_hasTwins (pairwise_mergeSort_compare CacheTree.name children)
        (Bool.not_eq_true _ ▸ htwins)
      refine ⟨hname, fun base => all_iff.2 ⟨⟨hsorted, fun c hc => ?_⟩, fun c hc => ?_⟩, ?_, ?_⟩
      · exact (hall c (mem_sortByName.1 hc)).1
      · exact (hall c (mem_sortByName.1 hc)).2.1 _
      · rw [height, Nat.lt_succ_iff, heights_le_iff]
        exact fun c hc => (hall c (mem_sortByName.1 hc)).2.2
      · rw [body, List.length_append, length_sortByName, hn, length_bodies_sortByName]
        omega

/-! ## Whole trees -/

/-- A tree that was read has a root without a name and the shape that is written, no more levels than
are read, and a written form that is no longer than what was read. -/
theorem parse_eq_ok (h : parse s = .ok t) :
    t.name = [] ∧ All (fun _ n => n.Shaped) [] t ∧ t.height ≤ maxDepth ∧
      t.body.length ≤ s.length := by
  obtain ⟨⟨read, rest⟩, hnode, h⟩ := Check.bind_eq_ok.1 h
  simp only at h
  split at h
  · cases h
  · rename_i hname
    split at h
    · cases h
    · cases h
      have hread := parseNode_eq_ok hnode
      have := hread.length
      exact ⟨by simpa using hname, hread.shaped [], Nat.le_of_lt_succ hread.height, by omega⟩

end CacheTree

end StagingIndex
