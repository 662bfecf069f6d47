import Mathlib
import StagingIndex.Proofs.TableInvariant
import StagingIndex.Image.File

/-! # What a file gives

Whatever the bytes of a file are: if it is read at all, the entries it gives are a table like any
other. The reader compares each entry with the one before it, and checks the whole at the end.

* `Image.readEntries_isSorted` — entries are read in increasing order
* `Image.decode_invariant` — the entries of a file satisfy the conditions of a table -/

namespace StagingIndex

namespace Reader

variable {α : Type}

/-- A check in the course of reading moves nothing. -/
theorem lift_eq_ok {x : Except IndexError α} {a : α} {c d : Cursor} :
    (liftM x : Reader α) c = .ok (a, d) ↔ x = .ok a ∧ d = c := by
  cases x with
  | error e =>
    constructor
    · intro h
      cases h
    · rintro ⟨h, -⟩
      cases h
  | ok b =>
    constructor
    · intro h
      cases h
      exact ⟨rfl, rfl⟩
    · rintro ⟨h, rfl⟩
      cases h
      rfl

/-- A value that needs no reading moves nothing. -/
theorem pure_eq_ok {a b : α} {c d : Cursor} :
    (pure a : Reader α) c = .ok (b, d) ↔ b = a ∧ d = c := by
  constructor
  · intro h
    cases h
    exact ⟨rfl, rfl⟩
  · rintro ⟨rfl, rfl⟩
    rfl

/-- What fails gives nothing. -/
theorem fail_ne_ok {n : Nat} {fault : ImageFault} {a : α} {c d : Cursor} :
    (fail n fault : Reader α) c ≠ .ok (a, d) := by
  intro h
  cases h

end Reader

namespace Image

/-- An entry is accepted if its path is one and it comes after the entry before it. -/
theorem checkEntry_eq_ok_iff {offset : Nat} {previous : Option Entry} {e : Entry} :
    checkEntry offset previous e = .ok () ↔
      Path.IsValid e.path ∧ ∀ p ∈ previous, compare p.key e.key = .lt := by
  simp only [checkEntry, Path.IsValid]
  cases Path.fault? e.path with
  | some fault => simp
  | none =>
    cases previous with
    | none => simp
    | some p =>
      by_cases h : compare p.key e.key = .lt
      · simp [h]
      · simp [h]

/-- Entries are read in increasing order, each with a path, after the one before them. -/
theorem readEntries_isSorted {version : Version} {n : Nat} {previous : Option Entry}
    {es : List Entry} {c d : Cursor} (h : readEntries version n previous c = .ok (es, d)) :
    Table.IsSorted es ∧ (∀ e ∈ es, Path.IsValid e.path) ∧
      ∀ p ∈ previous, ∀ e ∈ es, compare p.key e.key = .lt := by
  induction n generalizing previous es c d with
  | zero =>
    obtain ⟨rfl, -⟩ := Reader.pure_eq_ok.1 h
    exact ⟨List.Pairwise.nil, by simp, by simp⟩
  | succ n ih =>
    simp only [readEntries, Reader.bind_eq_ok, Reader.lift_eq_ok, Reader.pure_eq_ok] at h
    -- The offset, the entry with its record, the check that passed, and the entries after it.
    obtain ⟨offset, c₁, -, e, c₂, -, ⟨⟩, c₃, ⟨hcheck, -⟩, rest, c₄, hrest, rfl, -⟩ := h
    obtain ⟨hvalid, hprev⟩ := checkEntry_eq_ok_iff.1 hcheck
    obtain ⟨hsorted, hvalids, hafter⟩ := ih hrest
    have hafter : ∀ f ∈ rest, compare e.key f.key = .lt := hafter e rfl
    refine ⟨List.pairwise_cons.2 ⟨hafter, hsorted⟩, ?_, ?_⟩
    · intro f hf
      rcases List.mem_cons.1 hf with rfl | hf
      · exact hvalid
      · exact hvalids f hf
    · intro p hp f hf
      rcases List.mem_cons.1 hf with rfl | hf
      · exact hprev p hp
      · exact Std.TransCmp.lt_trans (hprev p hp) (hafter f hf)

/-- The table of a file satisfies the conditions. -/
theorem readTable_invariant {v : Version} {es : List Entry} {c d : Cursor}
    (h : readTable c = .ok ((v, es), d)) : Table.Invariant es := by
  simp only [readTable, Reader.bind_eq_ok] at h
  obtain ⟨letters, c₁, -, h⟩ := h
  split at h
  · exact absurd h Reader.fail_ne_ok
  · simp only [Reader.bind_eq_ok, Reader.lift_eq_ok, Reader.pure_eq_ok] at h
    obtain ⟨word, c₂, -, v, c₃, -, count, c₄, -, es, c₅, hes, ⟨⟩, c₆, ⟨hall, -⟩, h, -⟩ := h
    cases h
    obtain ⟨hsorted, hvalid, -⟩ := readEntries_isSorted hes
    exact Table.invariant_of_checkAll hsorted hvalid hall

/-- Whatever file is accepted, its entries satisfy the conditions of a table. -/
theorem decode_invariant {file : Bytes} {image : Image} (h : decode file = .ok image) :
    Table.Invariant image.entries := by
  rw [decode] at h
  split at h
  · cases h
  · split at h
    · cases h
    · split at h
      · cases h
      · rename_i hread
        obtain ⟨cache, -, rfl⟩ := Check.map_eq_ok.1 h
        exact readTable_invariant hread

end Image

end StagingIndex
