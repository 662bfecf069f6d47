import Mathlib
import StagingIndex.Proofs.NumberCodec
import StagingIndex.Proofs.CacheNodes
import StagingIndex.CacheTree.Body

/-! # Cache trees are read back

The written form of a node has its name, its two numbers and its id one after another, and then the
nodes of its subdirectories, so a reader that is given as many levels as there are gets the tree
back. With fewer levels it finds the tree too deep, whatever is in it.

* `CacheTree.height` — how many levels there are below a node
* `CacheTree.Shaped`, `CacheTree.Writable` — nodes whose written form can be read
* `CacheTree.parseNode_body` — one node and everything below it
* `CacheTree.parse_body`, `CacheTree.parse_body_of_lt` — a whole tree, and one that is too deep -/

namespace StagingIndex

namespace CacheTree

/-! ## Levels -/

mutual

/-- How many levels of subdirectories there are below a node. -/
def height : CacheTree → Nat
  | node _ _ children => heights children

/-- How many levels some subdirectories make. -/
def heights : List CacheTree → Nat
  | [] => 0
  | t :: ts => max (t.height + 1) (heights ts)

end

variable {t : CacheTree} {ts : List CacheTree} {levels : Nat}

/-! ## One node -/

/-- Names that can be told from what follows them, and that no path would take apart. -/
def Delimited (name : Bytes) : Prop := Bytes.slash ∉ name ∧ Bytes.nul ∉ name

instance (name : Bytes) : Decidable (Delimited name) := inferInstanceAs (Decidable (_ ∧ _))

/-- The subdirectories of a node are in order, and have names that are delimited. -/
structure Shaped (t : CacheTree) : Prop where
  sorted : SiblingsSorted t
  delimited : ∀ c ∈ t.children, Delimited c.name

/-- What the written form of a node can hold, so that it is read back: besides its shape, numbers of
at most 64 bits with their sign. -/
structure Writable (t : CacheTree) : Prop extends Shaped t where
  count : ∀ k ∈ t.known, k.count < 2 ^ 63
  subtrees : t.children.length < 2 ^ 64

/-- The first number of a node, as it is written. -/
def countDigits (known : Option Known) : Bytes :=
  match known with
  | some k => Numeral.digits 10 k.count
  | none => [0x2d, 0x31]

/-- The first number of a node, as it is read. -/
def countValue (known : Option Known) : Int :=
  match known with
  | some k => k.count
  | none => -1

/-- A numeral in base ten has no byte that is not a digit. -/
theorem notMem_digits {b : UInt8} {n : Nat} (hb : b.toNat < 0x30) :
    b ∉ Numeral.digits 10 n := fun h => by
  have := (Numeral.mem_digits (by decide) (by decide) h).1
  omega

/-- The first number is written without spaces and line ends, in ASCII. -/
theorem mem_countDigits {known : Option Known} {b : UInt8} (hb : b ∈ countDigits known) :
    b ≠ Bytes.space ∧ b ≠ Bytes.newline ∧ b < 0x80 := by
  cases known with
  | none =>
    simp only [countDigits, List.mem_cons, List.not_mem_nil, or_false] at hb
    rcases hb with rfl | rfl <;> decide
  | some k =>
    obtain ⟨hl, hu⟩ := Numeral.mem_digits (by decide) (by decide) hb
    refine ⟨?_, ?_, UInt8.lt_iff_toNat_lt.2 (Nat.lt_trans hu (by decide))⟩ <;>
      · rintro rfl
        exact absurd hl (by decide)

/-- The two numbers of a node are read back. -/
theorem parseCounts_line {known : Option Known} (hc : ∀ k ∈ known, k.count < 2 ^ 63) {n : Nat}
    (hn : n < UInt64.size) :
    parseCounts (countDigits known ++ Bytes.space :: Numeral.digits 10 n) =
      .ok (countValue known, n) := by
  -- The line is read as text before it is taken apart.
  have htext : (Utf8.text? (countDigits known ++ Bytes.space :: Numeral.digits 10 n)).isSome := by
    refine Utf8.text?_isSome fun b hb => ?_
    rcases List.mem_append.1 hb with hb | hb
    · exact (mem_countDigits hb).2.2
    · rcases List.mem_cons.1 hb with rfl | hb
      · decide
      · have := (Numeral.mem_digits (by decide) (by decide) hb).2
        exact UInt8.lt_iff_toNat_lt.2 (Nat.lt_trans this (by decide))
  have hcount : Numeral.signed? 10 (countDigits known) = some (countValue known) := by
    cases known with
    | none => decide
    | some k => exact Numeral.signed?_digits (by decide) (by decide) (hc k rfl)
  have hspace : Bytes.space ∉ countDigits known := fun h => (mem_countDigits h).1 rfl
  have htext : (Utf8.text? (countDigits known ++ Bytes.space :: Numeral.digits 10 n)).isNone =
      false := Option.isNone_eq_false_iff.2 htext
  rw [parseCounts, htext, Bytes.splitAt?_append hspace]
  simp only [Bool.false_eq_true, if_false, hcount,
    Numeral.unsigned?_digits (by decide : 1 < 10) (Nat.le_refl 10) hn]

/-- What a node knows is read back from its first number and its id. -/
theorem parseKnown_append (known : Option Known) (s : Bytes) :
    parseKnown (countValue known) ((known.map fun k => k.id.bytes).getD [] ++ s) =
      .ok (known, s) := by
  cases known with
  | none => simp [countValue, parseKnown]
  | some k =>
    have hneg : ¬ (k.count : Int) = -1 := by omega
    have hlt : ¬ (k.count : Int) < 0 := by omega
    simp [countValue, parseKnown, hneg, hlt]

/-- The part of a node before its subdirectories is read back. -/
theorem parseHeader_header {name : Bytes} (hname : Delimited name) {known : Option Known}
    (hc : ∀ k ∈ known, k.count < 2 ^ 63) {n : Nat} (hn : n < UInt64.size) (s : Bytes) :
    parseHeader (header name known n ++ s) = .ok (name, known, n, s) := by
  have hheader : header name known n ++ s = name ++ Bytes.nul ::
      ((countDigits known ++ Bytes.space :: Numeral.digits 10 n) ++ Bytes.newline ::
        ((known.map fun k => k.id.bytes).getD [] ++ s)) := by
    cases known <;> simp [header, countDigits]
  have hline : Bytes.newline ∉ countDigits known ++ Bytes.space :: Numeral.digits 10 n := by
    intro h
    rcases List.mem_append.1 h with h | h
    · exact (mem_countDigits h).2.1 rfl
    · rcases List.mem_cons.1 h with h | h
      · exact absurd h (by decide)
      · exact notMem_digits (by decide) h
  rw [hheader, parseHeader, Bytes.splitAt?_append hname.2]
  simp only [if_neg hname.1, Bytes.splitAt?_append hline, parseCounts_line hc hn, bind, Except.bind,
    parseKnown_append]
  rfl

/-! ## Nodes below a node -/

/-- The written form of a node is not empty. -/
theorem body_ne_nil (t : CacheTree) : t.body ≠ [] := by
  cases t with
  | node name known children => simp [body, header]

/-- Nodes one after another are read back if all of them can be, and else are too deep. -/
theorem parseMany_bodies {parse : Bytes → Except CacheTreeFault (CacheTree × Bytes)}
    (h : ∀ c ∈ ts, ∀ rest, parse (c.body ++ rest) =
      if c.height < levels then .ok (c, rest) else .error .tooDeep) (rest : Bytes) :
    parseMany parse ts.length (bodies ts ++ rest) =
      if heights ts ≤ levels then .ok (ts, rest) else .error .tooDeep := by
  induction ts with
  | nil => simp [bodies, parseMany, heights]
  | cons t ts ih =>
    have ih := ih fun c hc => h c (List.mem_cons_of_mem _ hc)
    have hne : (bodies (t :: ts) ++ rest).isEmpty = false := by
      simp [bodies, body_ne_nil]
    rw [List.length_cons, parseMany, hne, bodies, List.append_assoc, h t (by simp)]
    -- The first node that is too deep ends the reading.
    by_cases ht : t.height < levels
    · simp only [if_pos ht, Bool.false_eq_true, if_false, bind, Except.bind, ih]
      by_cases hts : heights ts ≤ levels
      · have hall : heights (t :: ts) ≤ levels := max_le ht hts
        simp only [if_pos hts, if_pos hall]
        rfl
      · have hall : ¬ heights (t :: ts) ≤ levels := fun h => hts ((le_max_right _ _).trans h)
        simp only [if_neg hts, if_neg hall]
    · have hall : ¬ heights (t :: ts) ≤ levels := fun h => ht ((le_max_left _ _).trans h)
      simp only [if_neg ht, if_neg hall, Bool.false_eq_true, if_false, bind, Except.bind]

/-- Sorted siblings are in their order already. -/
theorem sortByName_eq (h : ts.Pairwise fun a b => compare a.name b.name = .lt) :
    sortByName ts = ts := by
  refine List.mergeSort_of_pairwise (h.imp fun {a b} hab => ?_)
  rw [hab]
  rfl

/-- Sorted siblings have different names. -/
theorem hasTwins_eq_false (h : ts.Pairwise fun a b => compare a.name b.name = .lt) :
    hasTwins ts = false := by
  fun_induction hasTwins ts with
  | case1 a b ts ih =>
    obtain ⟨ha, h⟩ := List.pairwise_cons.1 h
    have hne : a.name ≠ b.name := fun he => by
      have := ha b (by simp)
      simp [he] at this
    simp [hne, ih h]
  | case2 ts h => rfl

/-- A node and everything below it is read back, whatever follows, if there are as many levels as
are needed; else it is too deep. -/
theorem parseNode_body {base : Bytes} (hname : Delimited t.name)
    (h : All (fun _ n => Writable n) base t) (levels : Nat) (rest : Bytes) :
    parseNode levels (t.body ++ rest) =
      if t.height < levels then .ok (t, rest) else .error .tooDeep := by
  -- By induction on the tree: below the node there is one level less for all subdirectories.
  induction t using children_induction generalizing base levels rest with
  | step name known children ih =>
    obtain ⟨hnode, hbelow⟩ := all_iff.1 h
    cases levels with
    | zero => simp [parseNode]
    | succ levels =>
      have hmany := parseMany_bodies (fun c hc =>
        ih c hc (hnode.delimited c hc) (hbelow c hc) levels) rest
      have hlt : (node name known children).height < levels + 1 ↔ heights children ≤ levels := by
        rw [height, Nat.lt_succ_iff]
      have hheader : parseHeader (header name known children.length ++ (bodies children ++ rest)) =
          .ok (name, known, children.length, bodies children ++ rest) :=
        parseHeader_header hname hnode.count hnode.subtrees _
      rw [parseNode, body, List.append_assoc, hheader]
      simp only [bind, Except.bind, hmany, hlt]
      by_cases hl : heights children ≤ levels
      · have hsorted : children.Pairwise fun a b => compare a.name b.name = .lt := hnode.sorted
        simp only [if_pos hl, sortByName_eq hsorted, hasTwins_eq_false hsorted]
        rfl
      · simp only [if_neg hl]

/-! ## Whole trees -/

/-- A tree of few enough levels is read back. -/
theorem parse_body {base : Bytes} (hname : t.name = []) (h : All (fun _ n => Writable n) base t)
    (hlevels : t.height ≤ maxDepth) : parse t.body = .ok t := by
  have hnode := parseNode_body (by rw [hname]; exact ⟨by simp, by simp⟩) h (maxDepth + 1) []
  rw [List.append_nil, if_pos (Nat.lt_succ_of_le hlevels)] at hnode
  simp [parse, bind, Except.bind, hnode, hname, pure, Except.pure]

/-- A tree of more levels is written but not read. -/
theorem parse_body_of_lt {base : Bytes} (hname : t.name = [])
    (h : All (fun _ n => Writable n) base t) (hlevels : maxDepth < t.height) :
    parse t.body = .error .tooDeep := by
  have hnode := parseNode_body (by rw [hname]; exact ⟨by simp, by simp⟩) h (maxDepth + 1) []
  rw [List.append_nil, if_neg (by omega)] at hnode
  simp [parse, bind, Except.bind, hnode]

/-! ## What the length of the written form says -/

/-- There are no more nodes than bytes. -/
theorem length_le_length_bodies (ts : List CacheTree) : ts.length ≤ (bodies ts).length := by
  induction ts with
  | nil => simp [bodies]
  | cons t ts ih =>
    have := List.length_pos_of_ne_nil (body_ne_nil t)
    rw [bodies, List.length_append, List.length_cons]
    omega

/-- The written form of a subdirectory is part of that of all. -/
theorem length_body_le {c : CacheTree} (hc : c ∈ ts) : c.body.length ≤ (bodies ts).length := by
  induction ts with
  | nil => cases hc
  | cons t ts ih =>
    rw [bodies, List.length_append]
    rcases List.mem_cons.1 hc with rfl | hc
    · omega
    · have := ih hc
      omega

/-- No node has more subdirectories than the written form of the tree has bytes. -/
theorem all_children_le (base : Bytes) {n : Nat} (h : t.body.length ≤ n) :
    All (fun _ u => u.children.length ≤ n) base t := by
  induction t using children_induction generalizing base with
  | step name known children ih =>
    have hlength : (bodies children).length ≤ n := by
      rw [body, List.length_append] at h
      omega
    refine all_iff.2 ⟨(length_le_length_bodies children).trans hlength, fun c hc => ?_⟩
    exact ih c hc _ ((length_body_le hc).trans hlength)

end CacheTree

end StagingIndex
