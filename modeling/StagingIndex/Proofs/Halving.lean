import Mathlib
import StagingIndex.Search

/-! # What halving finds

A search is told of every element whether it is too great. Where the elements that are not come
first, as many as `k`, the search ends at the last of them, whatever the length of the list.

* `Search.IsCut` — the first `k` elements are not too great, and all others are
* `Search.narrow_eq` — where halving ends
* `Search.locate_of_isCut` — what is found there
* `Search.partitionPoint_eq` — a partition point counts the leading elements of a condition
* `Search.take_partitionPoint`, `Search.drop_partitionPoint` — what is before and after it -/

namespace StagingIndex

namespace Search

variable {α : Type} {f : α → Ordering} {xs : List α}

/-- The first `k` elements are not too great, and all others are. -/
structure IsCut (f : α → Ordering) (xs : List α) (k : Nat) : Prop where
  le_length : k ≤ xs.length
  getElem?_gt_iff : ∀ i x, xs[i]? = some x → (f x = .gt ↔ k ≤ i)

/-- Halving a window that holds the cut ends at the last element before it, or at the start. -/
theorem narrow_eq_of_window {k base size : Nat} (h : IsCut f xs k)
    (hbase : base = 0 ∨ base < k) (hsize : k ≤ base + size) (hlen : base + size ≤ xs.length) :
    narrow f xs base size = k - 1 := by
  fun_induction narrow f xs base size with
  | case1 base size hs =>
    omega
  | case2 base size hs mid tooGreat ih =>
    obtain ⟨x, hx⟩ : ∃ x, xs[mid]? = some x :=
      ⟨_, List.getElem?_eq_getElem (by omega)⟩
    have hgt := h.getElem?_gt_iff mid x hx
    by_cases hk : k ≤ mid
    · -- The first half holds the cut.
      have : tooGreat = true := by
        simp [tooGreat, hx, hgt.2 hk]
      simp only [this, dite_true, if_true] at ih ⊢
      exact ih hbase (by omega) (by omega)
    -- The second half holds it, and its first element is before the cut.
    · have : tooGreat = false := by
        simpa [tooGreat, hx] using fun e => hk (hgt.1 e)
      simp only [this, Bool.false_eq_true, dite_false, if_false] at ih ⊢
      exact ih (by omega) (by omega) (by omega)

/-- Halving the whole list ends at the last element before the cut, or at the start. -/
theorem narrow_eq {k : Nat} (h : IsCut f xs k) : narrow f xs 0 xs.length = k - 1 :=
  narrow_eq_of_window h (Or.inl rfl) (by have := h.le_length; omega) (by omega)

/-- What is found is there and is called equal. -/
theorem getElem?_of_locate {i : Nat} (h : locate f xs = .present i) :
    ∃ x, xs[i]? = some x ∧ f x = .eq := by
  simp only [locate] at h
  split at h
  · cases h
  · rename_i x hx
    split at h
    · cases h
    · cases h
      exact ⟨x, hx, by assumption⟩
    · cases h

/-- If the last element before the cut is called equal, it is found. -/
theorem locate_of_isCut {i : Nat} {x : α} (h : IsCut f xs (i + 1)) (hx : xs[i]? = some x)
    (he : f x = .eq) : locate f xs = .present i := by
  simp [locate, narrow_eq h, hx, he]

/-- If no element is called equal, the cut is where one would have to go. -/
theorem locate_position_of_isCut {k : Nat} (h : IsCut f xs k) (hne : ∀ x ∈ xs, f x ≠ .eq) :
    locate f xs = .absent k := by
  have hk := h.le_length
  simp only [locate, narrow_eq h]
  rcases xs.eq_nil_or_concat with rfl | _
  · simp at hk
    simp [hk]
  · have hpos : 0 < xs.length := by
      obtain ⟨_, _, rfl⟩ := ‹∃ _ _, _›
      simp
    obtain ⟨x, hx⟩ : ∃ x, xs[k - 1]? = some x :=
      ⟨_, List.getElem?_eq_getElem (by omega)⟩
    -- If the element before the cut is too great there is none before the cut.
    have hgt := h.getElem?_gt_iff (k - 1) x hx
    simp only [hx]
    cases hf : f x with
    | lt =>
      have : ¬ k ≤ k - 1 := by simp [← hgt, hf]
      simp; omega
    | eq => exact absurd hf (hne x (List.mem_of_getElem? hx))
    | gt =>
      have := hgt.1 hf
      simp; omega

/-! ## Partition points -/

section Partition
variable {p q : α → Bool}

/-- Where the elements of a condition come first, taking them from the front takes them all. -/
theorem takeWhile_eq_filter (h : xs.Pairwise fun a b => p b = true → p a = true) :
    xs.takeWhile p = xs.filter p := by
  induction xs with
  | nil => rfl
  | cons x xs ih =>
    obtain ⟨hx, hxs⟩ := List.pairwise_cons.1 h
    cases hp : p x with
    | true => simp [hp, ih hxs]
    | false =>
      have : xs.filter p = [] := by
        rw [List.filter_eq_nil_iff]
        intro y hy hpy
        simp [hx y hy hpy] at hp
      simp [hp, this]

/-- Where the elements of a condition come first, none is left after the leading ones. -/
theorem dropWhile_eq_filter (h : xs.Pairwise fun a b => p b = true → p a = true) :
    xs.dropWhile p = xs.filter fun x => !p x := by
  induction xs with
  | nil => rfl
  | cons x xs ih =>
    obtain ⟨hx, hxs⟩ := List.pairwise_cons.1 h
    cases hp : p x with
    | true => simp [hp, ih hxs]
    | false =>
      have : xs.filter (fun x => !p x) = xs := by
        rw [List.filter_eq_self]
        intro y hy
        cases hpy : p y with
        | true => simp [hx y hy hpy] at hp
        | false => rfl
      simp [hp, this]

/-- The leading elements of a condition end at a cut. -/
theorem isCut_takeWhile (h : xs.Pairwise fun a b => p b = true → p a = true) :
    IsCut (fun x => if p x then .lt else .gt) xs (xs.takeWhile p).length := by
  refine ⟨(List.takeWhile_sublist p).length_le, ?_⟩
  intro i x hx
  have hsplit := List.takeWhile_append_dropWhile (p := p) (l := xs)
  constructor
  · intro hgt
    by_contra hi
    rw [← hsplit, List.getElem?_append_left (by omega)] at hx
    have := (List.mem_takeWhile_imp (List.mem_of_getElem? hx))
    simp [this] at hgt
  · intro hi
    rw [← hsplit, List.getElem?_append_right hi, dropWhile_eq_filter h] at hx
    have := (List.mem_filter.1 (List.mem_of_getElem? hx)).2
    simp_all

/-- A partition point counts the leading elements of a condition. -/
theorem partitionPoint_eq (h : xs.Pairwise fun a b => p b = true → p a = true) :
    partitionPoint p xs = (xs.takeWhile p).length := by
  rw [partitionPoint, locate_position_of_isCut (isCut_takeWhile h)]
  · rfl
  · intro x _
    split <;> simp

/-- What is before a partition point. -/
theorem take_partitionPoint (h : xs.Pairwise fun a b => p b = true → p a = true) :
    xs.take (partitionPoint p xs) = xs.takeWhile p := by
  rw [partitionPoint_eq h]
  have hsplit := List.takeWhile_append_dropWhile (p := p) (l := xs)
  exact (congrArg (List.take _) hsplit).symm.trans List.take_left

/-- What is after a partition point. -/
theorem drop_partitionPoint (h : xs.Pairwise fun a b => p b = true → p a = true) :
    xs.drop (partitionPoint p xs) = xs.dropWhile p := by
  rw [partitionPoint_eq h]
  have hsplit := List.takeWhile_append_dropWhile (p := p) (l := xs)
  exact (congrArg (List.drop _) hsplit).symm.trans List.drop_left

/-- What is at a partition point. -/
theorem getElem?_partitionPoint (h : xs.Pairwise fun a b => p b = true → p a = true) :
    xs[partitionPoint p xs]? = (xs.dropWhile p).head? := by
  rw [← drop_partitionPoint h, List.head?_drop]

end Partition

end Search

end StagingIndex
