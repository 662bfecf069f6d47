import Mathlib
import StagingIndex.Proofs.CacheCounts

/-! # Which directories are forgotten

The node of a directory is the one that its names lead to from the root. To forget along a path makes
exactly those nodes forget whose directories the path lies in: every other node knows what it knew,
and there are as many nodes as before.

* `Bytes.names` — the names that lead to a directory
* `CacheTree.Reaches`, `CacheTree.HasNode` — names lead to a node, perhaps one of which something holds
* `CacheTree.Knows` — what the node that is found for a directory knows
* `CacheTree.find_eq_some_iff` — among sorted siblings it is the one that the names lead to
* `CacheTree.knows_invalidateAll` — what is known after forgetting along some paths -/

namespace StagingIndex

/-! ## Names -/

namespace Bytes

/-- The names that lead from the root to a directory. -/
def names (dir : Bytes) : List Bytes := if dir = [] then [] else dir.components

/-- The names that lead to a directory have no slash. -/
theorem slash_notMem_of_names {dir name : Bytes} (h : name ∈ dir.names) : slash ∉ name := by
  rw [names] at h
  split at h
  · simp at h
  · exact slash_notMem_of_components h

/-- The paths below a directory begin with the base that its names lead to. -/
@[simp] theorem baseOf_names (dir : Bytes) : baseOf [] dir.names = asBase dir := by
  rw [names, asBase]
  split
  · rfl
  · rw [baseOf_components, List.nil_append]

/-- Names lead on to others if what is below these begins with what is below the first. -/
theorem beginsWith_baseOf_iff {ds ns : List Bytes} {last : Bytes} (base : Bytes)
    (hd : ∀ d ∈ ds, slash ∉ d) (hn : ∀ n ∈ ns, slash ∉ n) (hlast : slash ∉ last) :
    (baseOf base ns ++ last).beginsWith (baseOf base ds) = true ↔ ds <+: ns := by
  induction ds generalizing ns base with
  | nil =>
    simp only [List.nil_prefix, iff_true, beginsWith_iff]
    exact (isPrefix_baseOf base ns).trans (List.prefix_append _ _)
  | cons d ds ih =>
    have hhead : ∀ {s : Bytes}, s.beginsWith (baseOf base (d :: ds)) = true →
        s.beginsWith (below base d) = true := by
      intro s h
      rw [beginsWith_iff] at h ⊢
      exact (isPrefix_baseOf (below base d) ds).trans h
    cases ns with
    | nil =>
      -- No slash follows the base.
      simp only [List.prefix_nil, reduceCtorEq, iff_false]
      intro h
      obtain ⟨rest, hrest⟩ := beginsWith_below_iff.1 (hhead h)
      have : last = d ++ slash :: rest := List.append_cancel_left hrest
      exact hlast (by simp [this])
    | cons n ns =>
      rw [List.cons_prefix_cons]
      by_cases hdn : d = n
      · subst hdn
        simpa [baseOf] using ih (below base d) (fun x hx => hd x (List.mem_cons_of_mem _ hx))
          fun x hx => hn x (List.mem_cons_of_mem _ hx)
      · -- No path is below two subdirectories.
        simp only [hdn, false_and, iff_false]
        intro h
        refine hdn (name_eq_of_below (hd d List.mem_cons_self) (hn n List.mem_cons_self) (hhead h) ?_)
        rw [beginsWith_iff]
        exact (isPrefix_baseOf (below base n) ns).trans (List.prefix_append _ _)

/-- Different directories have different bases. -/
theorem asBase_injective : Function.Injective asBase := by
  intro a b h
  rw [asBase, asBase] at h
  split at h <;> split at h
  · simp_all
  · simp at h
  · simp at h
  · exact List.append_cancel_right h

/-- The names of a directory lead on to another if its base is a beginning of the base of the other. -/
theorem names_isPrefix_iff {a d : Bytes} : a.names <+: d.names ↔ asBase a <+: asBase d := by
  have := beginsWith_baseOf_iff [] (fun x (hx : x ∈ a.names) => slash_notMem_of_names hx)
    (fun x (hx : x ∈ d.names) => slash_notMem_of_names hx) (by simp : slash ∉ ([] : Bytes))
  rw [← this, baseOf_names, baseOf_names, List.append_nil, beginsWith_iff]

/-- Different directories have different names. -/
theorem names_injective : Function.Injective names := by
  intro a b h
  refine asBase_injective ?_
  rw [← baseOf_names, ← baseOf_names, h]

/-- Only the root is led to by no names. -/
theorem names_eq_nil_iff {dir : Bytes} : dir.names = [] ↔ dir = [] :=
  ⟨fun h => names_injective h, fun h => by rw [h]; rfl⟩

/-- Names that lead to the beginning of a path are those of a directory. -/
theorem exists_names_eq {ns : List Bytes} {p : Bytes} (hn : ∀ n ∈ ns, slash ∉ n)
    (hp : Path.IsValid p) (hb : p.beginsWith (baseOf [] ns) = true) : ∃ d, names d = ns := by
  rcases ns.eq_nil_or_concat with rfl | ⟨ns, n, rfl⟩
  · exact ⟨[], rfl⟩
  · rw [List.concat_eq_append] at hn hb ⊢
    have hne : baseOf [] ns ++ n ≠ [] := by
      intro h
      rw [baseOf_append_singleton, h, beginsWith_iff] at hb
      obtain ⟨rest, rfl⟩ := hb
      exact (Path.isValid_iff.1 hp).2.2.1 (Or.inl rfl)
    refine ⟨baseOf [] ns ++ n, ?_⟩
    rw [names, if_neg hne, components_baseOf fun x hx => hn x (List.mem_append_left _ hx),
      components_of_notMem (hn n (by simp))]

end Bytes

namespace CacheTree

/-! ## The node of a directory -/

/-- Names lead from a node to one of which something holds. -/
def Reaches : CacheTree → List Bytes → (CacheTree → Prop) → Prop
  | t, [], P => P t
  | t, name :: names, P => ∃ c ∈ t.children, c.name = name ∧ c.Reaches names P

/-- Names lead to a node. -/
def HasNode (t : CacheTree) (names : List Bytes) : Prop := t.Reaches names fun _ => True

/-- The node that is found for a directory knows how many entries are below it, and the tree object
that they make. -/
def Knows (t : CacheTree) (dir : Bytes) (k : Known) : Prop :=
  ∃ n, t.find dir = some n ∧ n.known = some k

variable {base : Bytes} {t : CacheTree} {P Q : CacheTree → Prop}

@[simp] theorem reaches_nil : t.Reaches [] P ↔ P t := Iff.rfl

@[simp] theorem reaches_cons {name : Bytes} {names : List Bytes} :
    t.Reaches (name :: names) P ↔ ∃ c ∈ t.children, c.name = name ∧ c.Reaches names P := Iff.rfl

/-- Names lead to a node of which something holds if they lead to some node that satisfies it. -/
theorem reaches_iff_exists {names : List Bytes} :
    t.Reaches names P ↔ ∃ n, t.Reaches names (· = n) ∧ P n := by
  induction names generalizing t with
  | nil => simp
  | cons name names ih =>
    simp only [reaches_cons, ih]
    constructor
    · rintro ⟨c, hc, hn, n, hr, hP⟩
      exact ⟨n, ⟨c, hc, hn, hr⟩, hP⟩
    · rintro ⟨n, ⟨c, hc, hn, hr⟩, hP⟩
      exact ⟨c, hc, hn, n, hr, hP⟩

/-- Among sorted siblings the one that is found for a name is the one that has it. -/
theorem child_eq_some_iff (hs : SiblingsSorted t) {name : Bytes} {c : CacheTree} :
    t.child name = some c ↔ c ∈ t.children ∧ c.name = name := by
  rw [child]
  constructor
  · intro h
    split at h
    · rename_i i hi
      obtain ⟨d, hd, hn⟩ := name_of_locate hi
      obtain rfl : d = c := Option.some.inj (hd.symm.trans h)
      exact ⟨List.mem_of_getElem? hd, hn⟩
    · cases h
  · rintro ⟨hc, rfl⟩
    obtain ⟨i, hi⟩ := List.mem_iff_getElem?.1 hc
    rw [locate_eq_present hs hi]
    exact hi

/-- Among sorted siblings a search along names finds the node that they lead to. -/
theorem descend_eq_some_iff {names : List Bytes} {n : CacheTree}
    (hs : All (fun _ n => SiblingsSorted n) base t) :
    t.descend names = some n ↔ t.Reaches names (· = n) := by
  induction names generalizing base t with
  | nil => simp [descend]
  | cons name names ih =>
    obtain ⟨hsorted, hbelow⟩ := all_iff.1 hs
    simp only [descend, Option.bind_eq_some_iff, child_eq_some_iff hsorted, reaches_cons]
    constructor
    · rintro ⟨c, ⟨hc, hn⟩, h⟩
      exact ⟨c, hc, hn, (ih (hbelow c hc)).1 h⟩
    · rintro ⟨c, hc, hn, h⟩
      exact ⟨c, ⟨hc, hn⟩, (ih (hbelow c hc)).2 h⟩

/-- Among sorted siblings the node that is found for a directory is the one that its names lead to. -/
theorem find_eq_some_iff {dir : Bytes} {n : CacheTree}
    (hs : All (fun _ n => SiblingsSorted n) base t) :
    t.find dir = some n ↔ t.Reaches dir.names (· = n) := by
  rw [find, Bytes.names]
  split
  · simp
  · exact descend_eq_some_iff hs

/-- Among sorted siblings a directory is known if its names lead to a node that knows. -/
theorem knows_iff_reaches {dir : Bytes} {k : Known}
    (hs : All (fun _ n => SiblingsSorted n) base t) :
    t.Knows dir k ↔ t.Reaches dir.names fun n => n.known = some k := by
  simp only [Knows, find_eq_some_iff hs, reaches_iff_exists (P := fun n => n.known = some k)]

/-- Among sorted siblings something is known of a directory if its names lead to a node that knows. -/
theorem exists_knows_iff {dir : Bytes} (hs : All (fun _ n => SiblingsSorted n) base t) :
    (∃ k, t.Knows dir k) ↔ t.Reaches dir.names fun n => n.known ≠ none := by
  rw [reaches_iff_exists]
  simp only [Knows, find_eq_some_iff hs, Option.ne_none_iff_exists']
  exact ⟨fun ⟨k, n, hn, hk⟩ => ⟨n, hn, k, hk⟩, fun ⟨n, hn, k, hk⟩ => ⟨k, n, hn, hk⟩⟩

/-! ## Forgetting -/

/-- Where one of some sorted siblings is changed but for its name, the one of a name is the changed one
or as before. -/
theorem exists_mem_modify {ts : List CacheTree} {f : CacheTree → CacheTree} {i : Nat}
    {name own : Bytes} (hs : ts.Pairwise fun a b => compare a.name b.name = .lt)
    (hi : locate ts own = .present i) (hf : ∀ c, (f c).name = c.name) :
    (∃ c ∈ ts.modify i f, c.name = name ∧ P c) ↔
      ∃ c ∈ ts, c.name = name ∧ P (if name = own then f c else c) := by
  obtain ⟨d, hd, rfl⟩ := name_of_locate hi
  -- The sibling at a position is the one that is changed if it has the name that was searched.
  have hsame : ∀ {j x}, ts[j]? = some x → (i = j ↔ x.name = d.name) := by
    intro j x hx
    constructor
    · rintro rfl
      rw [Option.some.inj (hd.symm.trans hx)]
    · intro hn
      exact eq_of_name hs hd hx hn.symm
  constructor
  · rintro ⟨c, hc, rfl, hP⟩
    obtain ⟨j, hj⟩ := List.mem_iff_getElem?.1 hc
    rw [List.getElem?_modify] at hj
    obtain ⟨x, hx, rfl⟩ := Option.map_eq_some_iff.1 hj
    refine ⟨x, List.mem_of_getElem? hx, ?_, ?_⟩
    · by_cases hij : i = j <;> simp [hij, hf]
    · by_cases hij : i = j
      · simpa [hij, hf, (hsame hx).1 hij] using hP
      · simpa [hij, mt (hsame hx).2 hij] using hP
  · rintro ⟨x, hx, rfl, hP⟩
    obtain ⟨j, hj⟩ := List.mem_iff_getElem?.1 hx
    refine ⟨if x.name = d.name then f x else x, ?_, ?_, hP⟩
    · refine List.mem_iff_getElem?.2 ⟨j, ?_⟩
      rw [List.getElem?_modify, hj]
      by_cases hij : i = j
      · simp [hij, (hsame hj).1 hij]
      · simp [hij, mt (hsame hj).2 hij]
    · split <;> simp [hf]

/-- To forget along names makes the nodes forget that are met on the way, and no others. -/
theorem reaches_forgetAlong {names ds : List Bytes} {p : Option Known → Prop}
    (hs : All (fun _ n => SiblingsSorted n) base t) :
    (forgetAlong names t).Reaches ds (fun n => p n.known) ↔
      t.Reaches ds fun n => p (if ds <+: names then none else n.known) := by
  induction names generalizing base t ds with
  | nil =>
    obtain ⟨own, known, children⟩ := t
    cases ds with
    | nil => simp [forgetAlong, forget]
    | cons d ds => simp [forgetAlong, forget]
  | cons name names ih =>
    obtain ⟨own, known, children⟩ := t
    have hsorted : children.Pairwise fun a b => compare a.name b.name = .lt := (all_iff.1 hs).1
    have hbelow := (all_iff.1 hs).2
    cases ds with
    | nil =>
      simp only [forgetAlong]
      split <;> simp
    | cons d ds =>
      simp only [forgetAlong, reaches_cons, List.cons_prefix_cons]
      split
      · rename_i i hi
        rw [children_node, children_node, exists_mem_modify hsorted hi (name_forgetAlong names)]
        refine exists_congr fun c => and_congr_right fun hc => and_congr_right fun _ => ?_
        by_cases hd : d = name
        · simpa [hd] using ih (hbelow c hc)
        · simp [hd]
      · -- No subdirectory has the name.
        rename_i i hi
        refine exists_congr fun c => and_congr_right fun hc => and_congr_right fun hn => ?_
        have hd : d ≠ name := by
          rintro rfl
          subst hn
          obtain ⟨j, hj⟩ := List.mem_iff_getElem?.1 hc
          cases hi.symm.trans (locate_eq_present hsorted hj)
        simp [hd]

/-- To forget along a path makes the nodes of the directories forget that it lies in, and no others. -/
theorem reaches_invalidate {path dir : Bytes} {p : Option Known → Prop} (hp : Path.IsValid path)
    (hs : All (fun _ n => SiblingsSorted n) base t) :
    (t.invalidate path).Reaches dir.names (fun n => p n.known) ↔
      t.Reaches dir.names fun n =>
        p (if path.beginsWith (Bytes.asBase dir) then none else n.known) := by
  -- The path is what some names lead to, followed by a last name.
  obtain ⟨names, last, hforget, hpath, hnames, hlast⟩ : ∃ names last,
      t.invalidate path = forgetAlong names t ∧ path = Bytes.baseOf [] names ++ last ∧
        (∀ name ∈ names, Bytes.slash ∉ name) ∧ Bytes.slash ∉ last := by
    cases hparent : path.parent? with
    | none =>
      refine ⟨[], path, ?_, rfl, by simp, Bytes.parent?_eq_none_iff.1 hparent⟩
      simp [invalidate, hparent, forgetAlong]
    | some parent =>
      obtain ⟨last, rfl, hlast⟩ := Bytes.eq_append_of_parent? hparent
      have hne : parent ≠ [] := by
        rintro rfl
        exact (Path.isValid_iff.1 hp).2.2.1 (Or.inl rfl)
      refine ⟨parent.components, last, ?_, ?_, fun _ => Bytes.slash_notMem_of_components, hlast⟩
      · simp [invalidate, hparent, hne]
      · simp [Bytes.baseOf_components]
  have hbelow := Bytes.beginsWith_baseOf_iff []
    (fun d (hd : d ∈ dir.names) => Bytes.slash_notMem_of_names hd) hnames hlast
  rw [Bytes.baseOf_names, ← hpath] at hbelow
  rw [hforget, reaches_forgetAlong hs]
  simp only [hbelow]

/-- After forgetting along some paths the same names lead to nodes. -/
theorem hasNode_invalidateAll {paths names : List Bytes}
    (hs : All (fun _ n => SiblingsSorted n) base t) :
    (t.invalidateAll paths).HasNode names ↔ t.HasNode names := by
  induction paths generalizing t with
  | nil => rfl
  | cons path paths ih =>
    have hnext : t.invalidateAll (path :: paths) = (t.invalidate path).invalidateAll paths := rfl
    obtain ⟨along, halong⟩ := t.exists_forgetAlong path
    rw [hnext, ih (all_invalidate siblingsSorted_kept hs path), halong]
    exact reaches_forgetAlong (p := fun _ => True) hs

/-- After forgetting along some paths, a directory is known if it was and none of them is below it. -/
theorem knows_invalidateAll {paths : List Bytes} {dir : Bytes} {k : Known}
    (hp : ∀ p ∈ paths, Path.IsValid p) (hs : All (fun _ n => SiblingsSorted n) base t) :
    (t.invalidateAll paths).Knows dir k ↔
      t.Knows dir k ∧ ∀ p ∈ paths, p.beginsWith (Bytes.asBase dir) = false := by
  induction paths generalizing t with
  | nil => simp [invalidateAll]
  | cons path paths ih =>
    rw [List.forall_mem_cons] at hp ⊢
    have hnext : t.invalidateAll (path :: paths) = (t.invalidate path).invalidateAll paths := rfl
    have hs' := all_invalidate siblingsSorted_kept hs path
    rw [hnext, ih hp.2 hs', knows_iff_reaches hs', knows_iff_reaches hs,
      reaches_invalidate (p := (· = some k)) hp.1 hs]
    cases hb : path.beginsWith (Bytes.asBase dir) with
    | true =>
      -- The node of the directory knows nothing any more.
      have hnone : ¬ t.Reaches dir.names fun _ => (none : Option Known) = some k := by
        rw [reaches_iff_exists]
        simp
      simp only [if_true, Bool.true_eq_false, false_and, and_false, iff_false, not_and]
      exact fun h => absurd h hnone
    | false => simp

end CacheTree

end StagingIndex
