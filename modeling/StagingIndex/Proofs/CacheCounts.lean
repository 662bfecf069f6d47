import Mathlib
import StagingIndex.Proofs.Materialization
import StagingIndex.CacheTree.Verify

/-! # The counts of a cache tree

A reader compares the count of every node with the entries below its directory. It knows a directory
by its path without a slash at the end, where materializing knows it by what its paths begin with.

* `CacheTree.verifyBelow_eq_ok_iff` — what the reader asks of the nodes
* `CacheTree.all_count_le` — a tree that passes has no count greater than the table
* `CacheTree.Counted`, `CacheTree.verifyBelow_of_counted` — a tree in which every count is right passes
* `CacheTree.verify_of_truthful` — so does one in which everything known is right -/

namespace StagingIndex

namespace Bytes

/-- What the paths below a directory begin with. -/
def asBase (dir : Bytes) : Bytes := if dir = [] then [] else dir ++ [slash]

/-- The base of a directory is empty or ends in a slash. -/
theorem isBase_asBase (dir : Bytes) : IsBase (asBase dir) := by
  rw [asBase]
  split
  · exact Or.inl rfl
  · exact Or.inr ⟨dir, rfl⟩

/-- A name below a directory goes on where the base of the directory ends. -/
theorem join_eq (dir name : Bytes) : join dir name = asBase dir ++ name := by
  rw [join, asBase]
  split <;> simp

/-- A subdirectory begins as a name below the directory does. -/
theorem asBase_join (dir : Bytes) {name : Bytes} (h : name ≠ []) :
    asBase (join dir name) = below (asBase dir) name := by
  by_cases hd : dir = []
  · simp [asBase, join, below, hd, h]
  · simp [asBase, join, below, hd]

/-- A subdirectory with a name that does not end in a slash does not end in one. -/
theorem dropFinalSlash_join (dir : Bytes) {name : Bytes} (hn : name ≠ []) (hs : slash ∉ name) :
    (join dir name).dropFinalSlash = join dir name := by
  have hlast : name.getLast? ≠ some slash := fun h => hs (List.mem_of_getLast? h)
  rw [dropFinalSlash, if_neg]
  by_cases hd : dir = []
  · simpa [join, hd] using hlast
  · rw [join, if_neg hd, List.getLast?_append_of_ne_nil _ (List.cons_ne_nil _ _),
      List.getLast?_cons_of_ne_nil hn]
    exact hlast

end Bytes

namespace Table

variable {t : Table}

/-- Below a directory that is given without a slash at its end are the entries that begin with
it. -/
theorem under_eq_beginning (h : IsSorted t) {dir : Bytes} (hd : dir.dropFinalSlash = dir) :
    t.under dir = beginning t (Bytes.asBase dir) := by
  by_cases hn : dir = []
  · rw [hn, under_nil, Bytes.asBase, if_pos rfl, beginning_nil]
  · rw [under_eq_filter h (by rwa [hd]), hd, Bytes.asBase, if_neg hn]

/-- There are no more entries below a directory than in the table. -/
theorem length_under_le (t : Table) (dir : Bytes) : (t.under dir).length ≤ t.length := by
  rw [under]
  split
  · exact Nat.le_refl _
  · simp only [run, List.length_take, List.length_drop]
    omega

end Table

namespace CacheTree

variable {t : CacheTree} {T : Table} {dir : Bytes}

/-- A count passes if it is the number of entries below the directory. -/
theorem verifyCount_eq_ok_iff :
    verifyCount t T dir = .ok () ↔ ∀ k ∈ t.known, k.count = (T.under dir).length := by
  rw [verifyCount]
  cases t.known with
  | none => simp
  | some k =>
    by_cases h : (T.under dir).length = k.count
    · simp [h]
    · simp [h, Ne.symm h]

/-- The nodes of some subdirectories pass if each does. -/
theorem verifyAll_eq_ok_iff {ts : List CacheTree} :
    verifyAll T dir ts = .ok () ↔
      ∀ c ∈ ts, verifyBelow T (Bytes.join dir c.name) c = .ok () := by
  induction ts with
  | nil => simp [verifyAll]
  | cons t ts ih => rw [verifyAll, Check.unit_bind_eq_ok, ih, List.forall_mem_cons]

/-- A node passes with all nodes below it if its count does and each of its subdirectories does. -/
theorem verifyBelow_eq_ok_iff :
    verifyBelow T dir t = .ok () ↔ (∀ k ∈ t.known, k.count = (T.under dir).length) ∧
      ∀ c ∈ t.children, verifyBelow T (Bytes.join dir c.name) c = .ok () := by
  cases t with
  | node name known children =>
    rw [verifyBelow, Check.unit_bind_eq_ok, verifyAll_eq_ok_iff, verifyCount_eq_ok_iff,
      children_node]

/-- No node of a tree that passes knows more entries than there are in the table. -/
theorem all_count_le (base : Bytes) (h : verifyBelow T dir t = .ok ()) :
    All (fun _ n => ∀ k ∈ n.known, k.count ≤ T.length) base t := by
  induction t using children_induction generalizing base dir with
  | step name known children ih =>
    obtain ⟨hcount, hbelow⟩ := verifyBelow_eq_ok_iff.1 h
    refine all_iff.2 ⟨fun k hk => ?_, fun c hc => ih c hc _ (hbelow c hc)⟩
    rw [hcount k hk]
    exact T.length_under_le dir

/-- What a node knows has the right count. -/
def Counted (T : Table) (base : Bytes) (t : CacheTree) : Prop :=
  ∀ k, t.known = some k → k.count = (T.beginning base).length

/-- What is right has the right count. -/
theorem Truthful.counted {base : Bytes} (h : Truthful T base t) : Counted T base t := by
  intro k hk
  rw [h k hk]
  rfl

/-- A node passes, below a directory without a slash at its end, if all counts are right. -/
theorem verifyBelow_of_counted (hs : T.IsSorted) (hd : dir.dropFinalSlash = dir)
    (ht : All (Counted T) (Bytes.asBase dir) t)
    (hn : All (fun _ n => Named n) (Bytes.asBase dir) t)
    (hw : All (fun _ n => SlashFree n) (Bytes.asBase dir) t) : verifyBelow T dir t = .ok () := by
  induction t using children_induction generalizing dir with
  | step name known children ih =>
    obtain ⟨hcount, hcounts⟩ := all_iff.1 ht
    obtain ⟨hne, hnes⟩ := all_iff.1 hn
    obtain ⟨hslash, hslashes⟩ := all_iff.1 hw
    refine verifyBelow_eq_ok_iff.2 ⟨fun k hk => ?_, fun c hc => ?_⟩
    · rw [hcount k hk, Table.under_eq_beginning hs hd]
    -- The name of a subdirectory has no slash, so its path and a slash are its base.
    · have hbase := Bytes.asBase_join dir (hne c hc)
      refine ih c hc (Bytes.dropFinalSlash_join dir (hne c hc) (hslash c hc)) ?_ ?_ ?_
      · rw [hbase]
        exact hcounts c hc
      · rw [hbase]
        exact hnes c hc
      · rw [hbase]
        exact hslashes c hc

/-- A cache tree in which everything known is right passes. -/
theorem verify_of_truthful (hs : T.IsSorted) (ht : All (Truthful T) [] t)
    (hw : All (fun _ n => WellNamed n) [] t) : t.verify T = .ok () :=
  verifyBelow_of_counted hs rfl (ht.imp fun _ _ h => h.counted)
    (hw.imp fun _ _ h c hc => (h c hc).1) (hw.imp fun _ _ h => h.slashFree)

end CacheTree

end StagingIndex
