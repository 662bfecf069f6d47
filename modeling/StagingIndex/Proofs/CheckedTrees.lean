import Mathlib
import StagingIndex.CacheTree.Body
import StagingIndex.Proofs.CheckedMachine

/-! # Cache trees by positions

The written form of a cache tree, read on the machine that stops. A node may state any number of
subdirectories: each of them takes bytes of its own, so the loop over them ends with the bytes.

* `Machine.readHeader`, `Machine.readNode`, `Machine.readTree` — a node by itself, with its
  subdirectories, a whole cache tree
* `Machine.readNode_agrees` — a node is read the same by positions, where enough levels are left
* `Machine.readTree_eq` — a whole cache tree is read without a stop -/

namespace StagingIndex

namespace Machine

/-! ## Programs -/

section Programs

variable (payload : Bytes)

/-- Read what a node with a count knows. -/
def readKnown (count : Int) : Machine CacheTreeFault (Option CacheTree.Known) := do
  if count = -1 then return none
  else if count < 0 then fault .negativeEntryCount
  else
    let here ← position
    let target ← Checked.add here 32
    if payload.length < target then fault .truncatedId
    else
      let raw ← Checked.slice payload here target
      match ObjectId.ofBytes raw with
      | .error _ => fault .truncatedId
      | .ok id =>
        moveTo payload target
        return some ⟨count.toNat, id⟩

/-- Read the name, the knowledge and the number of subdirectories of a node, and count it. -/
def readHeader : Machine CacheTreeFault (Bytes × Option CacheTree.Known × Nat) := do
  let here ← position
  let rest ← Checked.sliceFrom payload here
  match ← Checked.splitAt? Bytes.nul rest with
  | none => fault .unterminatedName
  | some (name, nameUsed, rest) =>
    if Bytes.slash ∈ name then fault .nameWithSlash
    else
      match ← Checked.splitAt? Bytes.newline rest with
      | none => fault .unterminatedCounts
      | some (line, lineUsed, _) =>
        let counts ← check (CacheTree.parseCounts line)
        let used ← Checked.add nameUsed lineUsed
        let target ← Checked.add here used
        moveTo payload target
        countNode
        let known ← readKnown payload counts.1
        return (name, known, counts.2)

/-- Read nodes one after another until there are as many as announced. -/
def readMany (read : Machine CacheTreeFault CacheTree) :
    Nat → Machine CacheTreeFault (List CacheTree)
  | 0 => return []
  | n + 1 => do
    let here ← position
    if payload.length ≤ here then fault .missingSubtree
    else
      let c ← read
      let cs ← readMany read n
      return c :: cs

/-- Read a node at some depth and the nodes below it. -/
def readNode : Nat → Nat → Machine CacheTreeFault CacheTree
  | 0, _ => halt .endless
  | levels + 1, depth => do
    if CacheTree.maxDepth < depth then fault .tooDeep
    else
      let (name, known, subtrees) ← readHeader payload
      let deeper ← Checked.add depth 1
      let children ← readMany payload (readNode levels deeper) subtrees
      let children := CacheTree.sortByName children
      if CacheTree.hasTwins children then fault .duplicateSubtree
      else return .node name known children

/-- Read a whole cache tree. -/
def readTree : Machine CacheTreeFault CacheTree := do
  let c ← readNode payload (CacheTree.maxDepth + 2) 0
  if c.name ≠ [] then fault .namedRoot
  else
    let here ← position
    if here ≠ payload.length then
      let trailing ← Checked.sub payload.length here
      fault (.trailingBytes trailing)
    else return c

end Programs

/-! ## Agreement with the reader -/

/-- Read a header, and leave what follows it. -/
def parsedHeader : StateT Bytes (Except CacheTreeFault) (Bytes × Option CacheTree.Known × Nat) :=
  fun s => (CacheTree.parseHeader s).map fun p => ((p.1, p.2.1, p.2.2.1), p.2.2.2)

variable {payload : Bytes} {t : Track}

/-- An id is within the data, or it is not read. -/
theorem readKnown_agrees (hd : payload.length + 32 < 2 ^ 64) (ht : t.position ≤ payload.length)
    (count : Int) :
    Agrees payload.drop payload.length t (readKnown payload count)
      (CacheTree.parseKnown count) := by
  unfold readKnown
  by_cases hnone : count = -1
  · rw [if_pos hnone]
    refine .congr ?_ (.pure ht none)
    rw [CacheTree.parseKnown, if_pos hnone]
    rfl
  by_cases hneg : count < 0
  · rw [if_neg hnone, if_pos hneg]
    refine .congr ?_ (.fault ht _)
    rw [CacheTree.parseKnown, if_neg hnone, if_pos hneg]
  rw [if_neg hnone, if_neg hneg]
  refine .position (.step (Checked.add_eq (by omega)) ?_)
  by_cases htarget : t.position + 32 ≤ payload.length
  · have hlen : ((payload.drop t.position).take 32).length = 32 := by simp; omega
    rw [if_neg (by omega)]
    refine .step (Checked.slice_eq (by omega) htarget) ?_
    simp only [Nat.add_sub_cancel_left, ObjectId.ofBytes, hlen, dite_true]
    refine .moveTo (by omega) htarget ?_ (.pure htarget _)
    simp only [CacheTree.parseKnown, if_neg hnone, if_neg hneg, ObjectId.ofBytes, hlen, dite_true,
      List.drop_drop]
    rfl
  · have hlen : ((payload.drop t.position).take 32).length ≠ 32 := by simp; omega
    rw [if_pos (by omega)]
    refine .congr ?_ (.fault ht _)
    simp only [CacheTree.parseKnown, if_neg hnone, if_neg hneg, ObjectId.ofBytes, hlen, dite_false]

/-- A header ends within the data; it takes at least the bytes after its name and its numbers. -/
theorem readHeader_agrees (hd : payload.length + 32 < 2 ^ 64) (ht : t.position ≤ payload.length) :
    Agrees payload.drop payload.length t (readHeader payload) parsedHeader := by
  have hlen : (payload.drop t.position).length = payload.length - t.position := List.length_drop
  refine .position (.step (Checked.sliceFrom_eq ht) (.step (Checked.splitAt?_eq _ (by omega)) ?_))
  cases hname : Bytes.splitAt? Bytes.nul (payload.drop t.position) with
  | none =>
    refine .congr ?_ (.fault ht _)
    simp only [parsedHeader, CacheTree.parseHeader, hname]
    rfl
  | some p =>
    obtain ⟨name, rest⟩ := p
    obtain ⟨hname', hrest⟩ := Bytes.drop_of_splitAt? hname
    dsimp only [Option.map]
    by_cases hslash : Bytes.slash ∈ name
    · rw [if_pos hslash]
      refine .congr ?_ (.fault ht _)
      simp only [parsedHeader, CacheTree.parseHeader, hname, if_pos hslash]
      rfl
    · rw [if_neg hslash]
      have hlen' : rest.length = payload.length - (t.position + (name.length + 1)) := by
        rw [hrest, List.length_drop]
      refine .step (Checked.splitAt?_eq _ (by omega)) ?_
      cases hline : Bytes.splitAt? Bytes.newline rest with
      | none =>
        refine .congr ?_ (.fault ht _)
        simp only [parsedHeader, CacheTree.parseHeader, hname, hline, if_neg hslash]
        rfl
      | some p =>
        obtain ⟨line, after⟩ := p
        obtain ⟨hline', hafter⟩ := Bytes.drop_of_splitAt? (hrest ▸ hline)
        dsimp only [Option.map]
        cases hcounts : CacheTree.parseCounts line with
        | error e =>
          rw [check_error_bind]
          refine .congr ?_ (.fault ht e)
          simp only [parsedHeader, CacheTree.parseHeader, hname, hline, hcounts, if_neg hslash]
          rfl
        | ok counts =>
          rw [check_ok_bind]
          rw [Nat.add_assoc] at hline' hafter
          refine .step (Checked.add_eq (by omega)) (.step (Checked.add_eq (by omega)) ?_)
          refine .moveTo_countNode (by omega) hline' ?_
            ((readKnown_agrees hd hline' counts.1).bind fun known t' h _ => .pure h.within _)
          simp only [parsedHeader, CacheTree.parseHeader, hname, hline, hcounts, if_neg hslash,
            ← hafter, bind, StateT.bind, Except.bind]
          cases CacheTree.parseKnown counts.1 after <;> rfl

/-- Nodes are read the same one after another, if one of them is. -/
theorem readMany_agrees {read : Machine CacheTreeFault CacheTree}
    {parse : Bytes → Except CacheTreeFault (CacheTree × Bytes)}
    (hread : ∀ t : Track, t.position ≤ payload.length →
      Agrees payload.drop payload.length t read parse) (n : Nat)
    (ht : t.position ≤ payload.length) :
    Agrees payload.drop payload.length t (readMany payload read n)
      (CacheTree.parseMany parse n) := by
  induction n generalizing t with
  | zero => exact .pure ht []
  | succ n ih =>
    refine .position ?_
    by_cases hend : payload.length ≤ t.position
    · rw [if_pos hend]
      refine .congr ?_ (.fault ht _)
      simp [CacheTree.parseMany, hend]
    · rw [if_neg hend]
      have hmany : CacheTree.parseMany parse (n + 1) (payload.drop t.position) =
          (show StateT Bytes (Except CacheTreeFault) (List CacheTree) from do
            let c ← (parse : StateT Bytes (Except CacheTreeFault) CacheTree)
            let cs ← (CacheTree.parseMany parse n : StateT Bytes (Except CacheTreeFault) _)
            return c :: cs) (payload.drop t.position) := by
        rw [CacheTree.parseMany, if_neg (by simpa using hend)]
        rfl
      refine .congr hmany ((hread t ht).bind fun c t₁ h₁ _ => ?_)
      exact (ih h₁.within).bind fun cs t₂ h₂ _ => .pure h₂.within _

/-- A node at some depth is read the same, where so many levels are left below it. -/
theorem readNode_agrees (hd : payload.length + 32 < 2 ^ 64) {levels depth : Nat}
    (hdepth : depth + levels = CacheTree.maxDepth + 1) (ht : t.position ≤ payload.length) :
    Agrees payload.drop payload.length t (readNode payload (levels + 1) depth)
      (CacheTree.parseNode levels) := by
  induction levels generalizing depth t with
  | zero =>
    rw [readNode, if_pos (by omega)]
    exact .fault ht _
  | succ levels ih =>
    rw [readNode, if_neg (by omega)]
    have hnode : CacheTree.parseNode (levels + 1) (payload.drop t.position) =
        (show StateT Bytes (Except CacheTreeFault) CacheTree from do
          let h ← parsedHeader
          let children ← (CacheTree.parseMany (CacheTree.parseNode levels) h.2.2 :
            StateT Bytes (Except CacheTreeFault) _)
          if CacheTree.hasTwins (CacheTree.sortByName children) then
            fun _ => .error .duplicateSubtree
          else return .node h.1 h.2.1 (CacheTree.sortByName children))
          (payload.drop t.position) := by
      simp only [CacheTree.parseNode, parsedHeader, bind, StateT.bind, Except.bind]
      cases CacheTree.parseHeader (payload.drop t.position) with
      | error e => rfl
      | ok h =>
        dsimp only [Except.map]
        cases CacheTree.parseMany (CacheTree.parseNode levels) h.2.2.1 h.2.2.2 with
        | error e => rfl
        | ok v =>
          dsimp only
          split <;> rfl
    refine .congr hnode ((readHeader_agrees hd ht).bind fun h t₁ h₁ _ => ?_)
    have hmax : CacheTree.maxDepth = 4096 := rfl
    refine .step (Checked.add_eq (by omega)) ?_
    refine (readMany_agrees (fun t ht => ih (by omega) ht) h.2.2 h₁.within).bind fun cs t₂ h₂ _ => ?_
    dsimp only
    split
    · exact .fault h₂.within _
    · exact .pure h₂.within _

/-- Whatever numbers of subdirectories its nodes state, a cache tree is read without a stop, and has
at most as many nodes as bytes. -/
theorem readTree_eq (hd : payload.length + 32 < 2 ^ 64) :
    ∃ t, readTree payload .start = .ok (CacheTree.parse payload, t) ∧ t.nodes ≤ payload.length := by
  have hparse : Agrees payload.drop payload.length .start (readTree payload)
      fun s => (CacheTree.parse s).map fun c => (c, []) := by
    have htree : ((CacheTree.parse payload).map fun c => (c, ([] : Bytes))) =
        (show StateT Bytes (Except CacheTreeFault) CacheTree from do
          let c ← (CacheTree.parseNode (CacheTree.maxDepth + 1) :
            StateT Bytes (Except CacheTreeFault) _)
          if c.name ≠ [] then fun _ => .error .namedRoot
          else fun rest =>
            if rest ≠ [] then .error (.trailingBytes rest.length) else .ok (c, rest)) payload := by
      simp only [CacheTree.parse, bind, StateT.bind, Except.bind]
      generalize CacheTree.parseNode (CacheTree.maxDepth + 1) payload = x
      obtain e | ⟨c, rest⟩ := x
      · rfl
      · dsimp only
        split
        · rfl
        · by_cases hrest : rest = []
          · simp [hrest, Except.map, pure, Except.pure]
          · simp [hrest, Except.map]
    refine .congr htree
      ((readNode_agrees hd (Nat.zero_add _) (Nat.zero_le _)).bind fun c t₁ h₁ _ => ?_)
    split
    · exact .fault h₁.within _
    · refine .position ?_
      have hrest : payload.drop t₁.position = [] ↔ t₁.position = payload.length := by
        have := h₁.within
        rw [List.drop_eq_nil_iff]
        omega
      by_cases hend : t₁.position = payload.length
      · rw [if_neg (by simpa using hend)]
        refine .congr ?_ (.pure h₁.within c)
        rw [if_neg (by simpa using hrest.2 hend)]
        rfl
      · rw [if_pos hend]
        refine .step (Checked.sub_eq h₁.within) (.congr ?_ (.fault h₁.within _))
        rw [if_pos (mt hrest.1 hend), List.length_drop]
  obtain ⟨x, t, hrun, hreach, hx⟩ := hparse
  refine ⟨t, ?_, ?_⟩
  · have hx : (CacheTree.parse payload).map (fun c => (c, ([] : Bytes))) =
        x.map fun c => (c, payload.drop t.position) := hx
    rw [hrun]
    cases hp : CacheTree.parse payload <;> cases x <;> simp_all [Except.map]
  · have := hreach.nodes
    have := hreach.within
    simp only [Track.start] at *
    omega

end Machine

end StagingIndex
