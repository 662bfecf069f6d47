import Mathlib
import StagingIndex.CacheTree.Verify
import StagingIndex.Proofs.CheckedMachine
import StagingIndex.Proofs.TableInvariant

/-! # Checking tables by positions

The checks that a file passes after it is read, on the machine that stops: the table, one path after
another, and the counts of a cache tree. Searches end within what they search, and a path that is
looked at has at least one entry, so that the next one is further on.

* `Checked.underRange` — where the entries below a directory start and end
* `Machine.validate`, `Machine.validate_eq` — the checks of a whole table
* `Machine.verifyBelow`, `Machine.verifyBelow_eq` — the counts of a cache tree -/

namespace StagingIndex

namespace Search

variable {α : Type} {xs : List α}

/-- A partition point is within the list, or at its end. -/
theorem partitionPoint_le (p : α → Bool) (xs : List α) : partitionPoint p xs ≤ xs.length := by
  simp only [partitionPoint, locate]
  split
  · exact Nat.zero_le _
  · rename_i x hx
    have hlt : narrow (fun x => if p x then .lt else .gt) xs 0 xs.length < xs.length := by
      by_contra hge
      rw [List.getElem?_eq_none (by omega)] at hx
      cases hx
    split
    · exact hlt
    · exact hlt.le
    · exact hlt.le

end Search

/-! ## Below a directory -/

namespace Checked

/-- Where a run of entries starts and ends. -/
def runRange (before inside : Entry → Bool) (entries : List Entry) : Except Trap (Nat × Nat) := do
  let start := Search.partitionPoint before entries
  let rest ← sliceFrom entries start
  let finish ← add start (Search.partitionPoint inside rest)
  return (start, finish)

/-- Where the entries below a directory start and end. -/
def underRange (entries : List Entry) (dir : Bytes) : Except Trap (Nat × Nat) :=
  if dir.dropFinalSlash = [] then .ok (0, entries.length)
  else
    let base := dir.dropFinalSlash ++ [Bytes.slash]
    runRange (Table.isBefore base) (fun e => e.path.beginsWith base) entries

variable {entries : List Entry}

/-- From start to end there are as many positions as entries in the run. -/
theorem runRange_eq (h : entries.length < 2 ^ 64) (before inside : Entry → Bool) :
    ∃ range, runRange before inside entries = .ok range ∧
      range.2 - range.1 = (Table.run before inside entries).length := by
  have hstart := Search.partitionPoint_le before entries
  have hfinish := Search.partitionPoint_le inside
    (entries.drop (Search.partitionPoint before entries))
  refine ⟨(Search.partitionPoint before entries, Search.partitionPoint before entries +
    Search.partitionPoint inside (entries.drop (Search.partitionPoint before entries))), ?_, ?_⟩
  · rw [List.length_drop] at hfinish
    rw [runRange, sliceFrom_eq hstart]
    change (add _ _ >>= fun finish => pure (_, finish)) = _
    rw [add_eq (by omega)]
    rfl
  · rw [Table.run, List.length_take, Nat.min_eq_left hfinish]
    exact Nat.add_sub_cancel_left _ _

/-- From start to end there are as many positions as entries below the directory. -/
theorem underRange_eq (h : entries.length < 2 ^ 64) (dir : Bytes) :
    ∃ range, underRange entries dir = .ok range ∧
      range.2 - range.1 = (Table.under entries dir).length := by
  by_cases hdir : dir.dropFinalSlash = []
  · exact ⟨(0, entries.length), by rw [underRange, if_pos hdir], by simp [Table.under, hdir]⟩
  · rw [underRange, if_neg hdir, Table.under, if_neg hdir]
    exact runRange_eq h _ _

end Checked

namespace Machine

variable {ε α β : Type} {entries : List Entry}

/-! ## The counts of a cache tree -/

/-- Check what one node knows. -/
def verifyCount (entries : List Entry) (dir : Bytes) :
    Option CacheTree.Known → Machine IndexError Unit
  | none => return ()
  | some k => do
    let range ← Checked.underRange entries dir
    let actual := range.2 - range.1
    if actual = k.count then return ()
    else fault (.corruptCacheTree (.wrongCount dir k.count actual))

mutual

/-- Check a node and all nodes below it. -/
def verifyBelow (entries : List Entry) (dir : Bytes) : CacheTree → Machine IndexError Unit
  | .node _ known children => do
    verifyCount entries dir known
    verifyAll entries dir children

/-- Check the nodes of some subdirectories of `dir`. -/
def verifyAll (entries : List Entry) (dir : Bytes) : List CacheTree → Machine IndexError Unit
  | [] => return ()
  | c :: cs => do
    verifyBelow entries (Bytes.join dir c.name) c
    verifyAll entries dir cs

end

/-- The count of a node is checked without a stop. -/
theorem verifyCount_eq (h : entries.length < 2 ^ 64) (dir : Bytes) (c : CacheTree) :
    verifyCount entries dir c.known = check (c.verifyCount entries dir) := by
  cases hknown : c.known with
  | none =>
    simp only [CacheTree.verifyCount, hknown]
    rfl
  | some k =>
    obtain ⟨range, hrange, hlen⟩ := Checked.underRange_eq h dir
    simp only [verifyCount, CacheTree.verifyCount, hknown, step_bind hrange, hlen]
    split <;> rfl

mutual

/-- The counts of a node and of those below it are checked without a stop. -/
theorem verifyBelow_eq (h : entries.length < 2 ^ 64) (dir : Bytes) :
    ∀ c : CacheTree, verifyBelow entries dir c = check (c.verifyBelow entries dir)
  | .node name known children => by
    rw [verifyBelow, CacheTree.verifyBelow, verifyAll_eq h dir children, ← check_bind]
    exact congrArg (· >>= _) (verifyCount_eq h dir (.node name known children))

/-- The counts of several nodes are checked without a stop. -/
theorem verifyAll_eq (h : entries.length < 2 ^ 64) (dir : Bytes) :
    ∀ cs : List CacheTree, verifyAll entries dir cs = check (CacheTree.verifyAll entries dir cs)
  | [] => rfl
  | c :: cs => by
    rw [verifyAll, CacheTree.verifyAll, verifyBelow_eq h _ c, verifyAll_eq h dir cs, check_bind]

end

/-! ## The checks of a whole table -/

/-- Check the path at a position, and go on behind its entries. -/
def validate (entries : List Entry) : Nat → Nat → Machine IndexError Unit
  | 0, _ => halt .endless
  | rounds + 1, i =>
    if i < entries.length then do
      let e ← Checked.item entries i
      let rest ← Checked.sliceFrom entries i
      let run := Search.partitionPoint (fun f => f.path = e.path) rest
      if 1 < run ∧ e.stage = .merged then fault (.mixedStages e.path)
      else
        let range ← Checked.underRange entries e.path
        if range.1 < range.2 then fault (.fileAndDirectory e.path)
        else
          let next ← Checked.add i run
          validate entries rounds next
    else return ()

end Machine

namespace Table

variable {t before after : Table} {e : Entry}

/-- Of neighbours that are equal one is left. -/
theorem dedup_cons (p : Bytes) (ps : List Bytes) :
    dedup (p :: ps) = p :: dedup (ps.dropWhile (· = p)) := by
  induction ps with
  | nil => rfl
  | cons q ps ih =>
    by_cases h : p = q
    · subst h
      simpa [dedup] using ih
    · simp [dedup, h, Ne.symm h]

/-- From the first entry of a path on, the entries of the path come first. -/
theorem IsSorted.pairwise_samePath (h : IsSorted (e :: after)) :
    (e :: after).Pairwise
      fun a b => decide (b.path = e.path) = true → decide (a.path = e.path) = true := by
  have hfirst : (e :: after).dropWhile (isBefore e.path) = e :: after := by
    simp [isBefore]
  exact hfirst ▸ h.pairwise_path_eq e.path

/-- A search finds how many entries the path of the first one has. -/
theorem partitionPoint_path (h : IsSorted (e :: after)) :
    Search.partitionPoint (fun f => f.path = e.path) (e :: after) =
      (after.takeWhile fun f => f.path = e.path).length + 1 := by
  rw [Search.partitionPoint_eq h.pairwise_samePath]
  simp

/-- Behind the entries of other paths, the stages of a path are those from its first entry on. -/
theorem stages_append (h : IsSorted (before ++ e :: after))
    (hbefore : ∀ a ∈ before, a.path ≠ e.path) :
    stages (before ++ e :: after) e.path = e :: after.takeWhile fun f => f.path = e.path := by
  have hnone : before.filter (fun f => f.path = e.path) = [] := by
    simpa [List.filter_eq_nil_iff] using hbefore
  have hsorted : IsSorted (e :: after) := h.sublist (List.sublist_append_right _ _)
  rw [stages_eq_filter h, List.filter_append, hnone,
    Search.takeWhile_eq_filter (List.pairwise_cons.1 hsorted.pairwise_samePath).2]
  simp

/-- The checks of one path. -/
def checkPath (t : Table) (p : Bytes) : Except IndexError Unit := do
  t.checkStages p
  t.checkNotDirectory p

/-- A path is checked by how many entries it has, by the first of them, and by how many are below
it. -/
theorem checkPath_append (h : IsSorted (before ++ e :: after))
    (hbefore : ∀ a ∈ before, a.path ≠ e.path) :
    checkPath (before ++ e :: after) e.path =
      if 1 < (after.takeWhile fun f => f.path = e.path).length + 1 ∧ e.stage = .merged then
        .error (.mixedStages e.path)
      else if 0 < (under (before ++ e :: after) e.path).length then
        .error (.fileAndDirectory e.path)
      else .ok () := by
  have hstages : checkStages (before ++ e :: after) e.path =
      if 1 < (after.takeWhile fun f => f.path = e.path).length + 1 ∧ e.stage = .merged then
        .error (.mixedStages e.path)
      else .ok () := by
    rw [checkStages, stages_append h hbefore]
    cases after.takeWhile fun f => f.path = e.path with
    | nil => simp
    | cons f fs => simp
  rw [checkPath, hstages]
  split
  · rfl
  · change checkNotDirectory _ _ = _
    rw [checkNotDirectory]
    cases under (before ++ e :: after) e.path <;> simp

/-- An entry behind those of a path has another path. -/
theorem path_ne_of_mem_dropWhile {b : Entry} (h : IsSorted (e :: after))
    (hb : b ∈ after.dropWhile fun f => f.path = e.path) : b.path ≠ e.path := by
  rw [Search.dropWhile_eq_filter (List.pairwise_cons.1 h.pairwise_samePath).2] at hb
  simpa using (List.mem_filter.1 hb).2

end Table

namespace Machine

/-- From a position on, the paths of the entries there are checked without a stop. -/
theorem validate_append (before after : List Entry) {rounds : Nat}
    (h : Table.IsSorted (before ++ after)) (hlen : (before ++ after).length < 2 ^ 64)
    (hbefore : ∀ a ∈ before, ∀ b ∈ after, a.path ≠ b.path) (hrounds : after.length < rounds) :
    validate (before ++ after) rounds before.length =
      check ((Table.dedup (after.map (·.path))).forM (Table.checkPath (before ++ after))) := by
  induction rounds generalizing before after with
  | zero => omega
  | succ rounds ih =>
    cases after with
    | nil =>
      rw [validate, if_neg (by simp)]
      rfl
    | cons e after =>
      have hsorted : Table.IsSorted (e :: after) := h.sublist (List.sublist_append_right _ _)
      have hdrop : (before ++ e :: after).drop before.length = e :: after := List.drop_left
      obtain ⟨range, hrange, hunder⟩ := Checked.underRange_eq hlen e.path
      -- The entries of the path are before the next position, and all others behind it.
      have hsplit : before ++ e :: after =
          (before ++ e :: after.takeWhile fun f => f.path = e.path) ++
            after.dropWhile fun f => f.path = e.path := by
        simp
      have hnext : validate (before ++ e :: after) rounds
            (before.length + ((after.takeWhile fun f => f.path = e.path).length + 1)) =
          check ((Table.dedup ((after.map (·.path)).dropWhile (· = e.path))).forM
            (Table.checkPath (before ++ e :: after))) := by
        rw [List.dropWhile_map, hsplit, ← List.length_cons, ← List.length_append]
        refine ih _ _ (hsplit ▸ h) (hsplit ▸ hlen) ?_ ?_
        · intro a ha b hb
          have hne := Table.path_ne_of_mem_dropWhile hsorted hb
          rcases List.mem_append.1 ha with ha | ha
          · exact hbefore a ha b (List.mem_cons_of_mem e ((List.dropWhile_sublist _).subset hb))
          · rcases List.mem_cons.1 ha with rfl | ha
            · exact hne.symm
            · have hpath : a.path = e.path := by simpa using List.mem_takeWhile_imp ha
              exact hpath ▸ hne.symm
        · have := (List.dropWhile_sublist (fun f : Entry => f.path = e.path) (l := after)).length_le
          rw [List.length_cons] at hrounds
          omega
      rw [validate, if_pos (by simp), step_bind (Checked.item_eq (x := e) (by simp)),
        step_bind (Checked.sliceFrom_eq (by simp)), hdrop, List.map_cons, Table.dedup_cons]
      change _ = check (Table.checkPath (before ++ e :: after) e.path >>= fun _ => List.forM _ _)
      rw [Table.checkPath_append h fun a ha => hbefore a ha e (by simp)]
      simp only [Table.partitionPoint_path hsorted]
      split
      · rfl
      · rw [step_bind hrange, ← hunder]
        by_cases hempty : range.1 < range.2
        · rw [if_pos hempty, if_pos (by omega)]
          rfl
        · rw [if_neg hempty, if_neg (by omega), step_bind (Checked.add_eq ?_)]
          · exact hnext
          · rw [hsplit, List.length_append, List.length_append, List.length_cons] at hlen
            omega

/-- A table in order is checked without a stop, in as many rounds as it has entries and one more. -/
theorem validate_eq (h : Table.IsSorted entries) (hlen : entries.length < 2 ^ 64) :
    validate entries (entries.length + 1) 0 = check (Table.checkAll entries) :=
  validate_append [] entries h hlen (by simp) (Nat.lt_succ_self _)

end Machine

end StagingIndex
