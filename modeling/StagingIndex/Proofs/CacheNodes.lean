import Mathlib
import StagingIndex.Proofs.TableInvariant
import StagingIndex.CacheTree.Basic

/-! # The nodes of a cache tree

A node stands for the directory whose paths begin with its base: that of the root is empty, and a
subdirectory adds its name and a slash. What is said of a cache tree is said of all its nodes with
their bases.

* `CacheTree.All` — what holds of every node
* `CacheTree.SiblingsSorted`, `CacheTree.WellNamed`, `CacheTree.SlashFree`, `CacheTree.Named` — the
  shape of the nodes below one node
* `CacheTree.all_invalidate` — forgetting keeps what does not ask a node to know anything
* `CacheTree.invalidate_reaches` — where siblings are sorted, forgetting reaches every node that a
  path lies below -/

namespace StagingIndex

namespace CacheTree

/-- What holds of a node if it holds of its subdirectories holds of every node. -/
theorem children_induction {motive : CacheTree → Prop}
    (step : ∀ name known children, (∀ c ∈ children, motive c) → motive (node name known children)) :
    ∀ t, motive t
  | node name known children => step name known children fun c _ => children_induction step c

/-! ## All nodes -/

mutual

/-- What holds of a node with its base, and of all nodes below it. -/
def All (P : Bytes → CacheTree → Prop) (base : Bytes) : CacheTree → Prop
  | node name known children => P base (node name known children) ∧ AllBelow P base children

/-- What holds of the nodes of some subdirectories, and of all nodes below them. -/
def AllBelow (P : Bytes → CacheTree → Prop) (base : Bytes) : List CacheTree → Prop
  | [] => True
  | t :: ts => All P (Bytes.below base t.name) t ∧ AllBelow P base ts

end

variable {P Q : Bytes → CacheTree → Prop} {base : Bytes}

/-- What holds of the nodes of some subdirectories holds of each. -/
theorem allBelow_iff {ts : List CacheTree} :
    AllBelow P base ts ↔ ∀ t ∈ ts, All P (Bytes.below base t.name) t := by
  induction ts with
  | nil => simp [AllBelow]
  | cons t ts ih => simp [AllBelow, ih]

/-- What holds of all nodes holds of the node and of all nodes below each of its subdirectories. -/
theorem all_iff {t : CacheTree} :
    All P base t ↔ P base t ∧ ∀ c ∈ t.children, All P (Bytes.below base c.name) c := by
  cases t with
  | node name known children => simp [All, allBelow_iff]

/-- What follows for each node follows for all. -/
theorem All.imp {t : CacheTree} (h : All P base t) (hpq : ∀ b n, P b n → Q b n) : All Q base t := by
  induction t using children_induction generalizing base with
  | step name known children ih =>
    obtain ⟨hp, hc⟩ := all_iff.1 h
    exact all_iff.2 ⟨hpq _ _ hp, fun c hm => ih c hm (hc c hm)⟩

/-- What two conditions say together they say of all nodes. -/
theorem All.and {t : CacheTree} (hp : All P base t) (hq : All Q base t) :
    All (fun b n => P b n ∧ Q b n) base t := by
  induction t using children_induction generalizing base with
  | step name known children ih =>
    obtain ⟨hp, hpc⟩ := all_iff.1 hp
    obtain ⟨hq, hqc⟩ := all_iff.1 hq
    exact all_iff.2 ⟨⟨hp, hq⟩, fun c hm => ih c hm (hpc c hm) (hqc c hm)⟩

/-- What several conditions say of all nodes they say together. -/
theorem all_forall {ι : Type} {s : List ι} {R : ι → Bytes → CacheTree → Prop} {t : CacheTree}
    (h : ∀ i ∈ s, All (R i) base t) : All (fun b n => ∀ i ∈ s, R i b n) base t := by
  induction t using children_induction generalizing base with
  | step name known children ih =>
    refine all_iff.2 ⟨fun i hi => (all_iff.1 (h i hi)).1, fun c hm => ih c hm fun i hi => ?_⟩
    exact (all_iff.1 (h i hi)).2 c hm

/-- The bases of the nodes below a node begin with its own. -/
theorem all_of_isPrefix {t : CacheTree} (h : ∀ b n, base <+: b → P b n) : All P base t := by
  induction t using children_induction generalizing base with
  | step name known children ih =>
    refine all_iff.2 ⟨h _ _ List.prefix_rfl, fun c hm => ih c hm fun b n hb => h b n ?_⟩
    exact ((List.prefix_append base (c.name ++ [Bytes.slash])).trans
      (by simp [Bytes.below])).trans hb

/-- The node that knows nothing satisfies what a node without subdirectories satisfies. -/
theorem all_unknown {name : Bytes} (h : P base (unknown name)) : All P base (unknown name) :=
  all_iff.2 ⟨h, by simp [unknown]⟩

/-! ## Siblings -/

/-- The subdirectories of a node are strictly sorted by name. -/
def SiblingsSorted (t : CacheTree) : Prop :=
  t.children.Pairwise fun a b => compare a.name b.name = .lt

/-- The subdirectories of a node have names that paths can have between slashes. -/
def WellNamed (t : CacheTree) : Prop :=
  ∀ c ∈ t.children, c.name ≠ [] ∧ Bytes.slash ∉ c.name ∧ Bytes.nul ∉ c.name

/-- The subdirectories of a node have names without a slash. -/
def SlashFree (t : CacheTree) : Prop := ∀ c ∈ t.children, Bytes.slash ∉ c.name

/-- The subdirectories of a node have names. -/
def Named (t : CacheTree) : Prop := ∀ c ∈ t.children, c.name ≠ []

/-- Names that paths can have between slashes have none. -/
theorem WellNamed.slashFree {t : CacheTree} (h : WellNamed t) : SlashFree t :=
  fun c hc => (h c hc).2.1

/-- Among sorted siblings a search for the name of one of them finds it. -/
theorem locate_eq_present {ts : List CacheTree} {i : Nat} {t : CacheTree}
    (hs : ts.Pairwise fun a b => compare a.name b.name = .lt) (ht : ts[i]? = some t) :
    locate ts t.name = .present i := by
  obtain ⟨hi, hit⟩ := List.getElem?_eq_some_iff.1 ht
  have hlt := List.pairwise_iff_getElem.1 hs
  -- The siblings before `t` are those whose names come before its name.
  refine Search.locate_of_isCut ⟨by omega, ?_⟩ ht (by simp)
  intro j x hx
  obtain ⟨hj, rfl⟩ := List.getElem?_eq_some_iff.1 hx
  rw [← hit]
  rcases lt_trichotomy i j with hij | rfl | hij
  · have := Std.OrientedCmp.gt_iff_lt.2 (hlt i j hi hj hij)
    simp only [this, true_iff]
    omega
  · simp
  · have := hlt j i hj hi hij
    simp only [this, reduceCtorEq, false_iff]
    omega

/-- What a search finds has the name. -/
theorem name_of_locate {ts : List CacheTree} {name : Bytes} {i : Nat}
    (h : locate ts name = .present i) : ∃ t, ts[i]? = some t ∧ t.name = name := by
  obtain ⟨t, ht, he⟩ := Search.getElem?_of_locate h
  exact ⟨t, ht, Std.LawfulEqOrd.eq_of_compare he⟩

/-- Sorted siblings of the same name are at the same position. -/
theorem eq_of_name {ts : List CacheTree} {i j : Nat} {t u : CacheTree}
    (hs : ts.Pairwise fun a b => compare a.name b.name = .lt) (ht : ts[i]? = some t)
    (hu : ts[j]? = some u) (hn : t.name = u.name) : i = j := by
  have hi := locate_eq_present hs ht
  have hj := locate_eq_present hs hu
  rw [hn, hj] at hi
  cases hi
  rfl

/-! ## Forgetting -/

@[simp] theorem name_forgetAlong (names : List Bytes) (t : CacheTree) :
    (forgetAlong names t).name = t.name := by
  cases t with
  | node own known children =>
    cases names with
    | nil => rfl
    | cons name names =>
      simp only [forgetAlong]
      split <;> rfl

/-- Changing one subdirectory changes no name. -/
theorem map_name_modify (names : List Bytes) (ts : List CacheTree) (i : Nat) :
    (ts.modify i (forgetAlong names)).map name = ts.map name := by
  apply List.ext_getElem?
  intro j
  rw [List.getElem?_map, List.getElem?_map, List.getElem?_modify]
  by_cases h : i = j
  · cases ts[j]? <;> simp [h]
  · simp [h]

/-- A condition that stays when a node forgets and its subdirectories keep their names. -/
def KeptByForgetting (P : Bytes → CacheTree → Prop) : Prop :=
  ∀ b name known children children', children'.map CacheTree.name = children.map CacheTree.name →
    P b (node name known children) → P b (node name none children')

/-- Forgetting along names keeps what stays when a node forgets. -/
theorem all_forgetAlong (hP : KeptByForgetting P) (names : List Bytes) {t : CacheTree}
    (h : All P base t) : All P base (forgetAlong names t) := by
  induction names generalizing base t with
  | nil =>
    cases t with
    | node own known children =>
      obtain ⟨hp, hc⟩ := all_iff.1 h
      exact all_iff.2 ⟨hP _ _ _ _ _ rfl hp, hc⟩
  | cons name names ih =>
    cases t with
    | node own known children =>
      obtain ⟨hp, hc⟩ := all_iff.1 h
      simp only [forgetAlong]
      split
      · rename_i i hi
        refine all_iff.2 ⟨hP _ _ _ _ _ (map_name_modify names children i) hp, ?_⟩
        intro c hm
        obtain ⟨j, hj⟩ := List.mem_iff_getElem?.1 hm
        rw [children_node, List.getElem?_modify] at hj
        obtain ⟨d, hd, rfl⟩ := Option.map_eq_some_iff.1 hj
        have hd := hc d (List.mem_of_getElem? hd)
        by_cases hij : i = j
        · simpa [hij] using ih hd
        · simpa [hij] using hd
      · exact all_iff.2 ⟨hP _ _ _ _ _ rfl hp, hc⟩

/-- To forget along a path is to forget along some names. -/
theorem exists_forgetAlong (t : CacheTree) (path : Bytes) :
    ∃ names, t.invalidate path = forgetAlong names t := by
  rw [invalidate]
  split
  · exact ⟨[], rfl⟩
  · split
    · exact ⟨[], rfl⟩
    · exact ⟨_, rfl⟩

/-- Forgetting along a path keeps what stays when a node forgets. -/
theorem all_invalidate (hP : KeptByForgetting P) {t : CacheTree} (h : All P base t)
    (path : Bytes) : All P base (t.invalidate path) := by
  obtain ⟨names, hnames⟩ := t.exists_forgetAlong path
  rw [hnames]
  exact all_forgetAlong hP names h

/-- Forgetting along several paths keeps what forgetting along some names keeps. -/
theorem invalidateAll_induction {motive : CacheTree → Prop}
    (step : ∀ names t, motive t → motive (forgetAlong names t)) {t : CacheTree} (h : motive t)
    (paths : List Bytes) : motive (t.invalidateAll paths) := by
  induction paths generalizing t with
  | nil => exact h
  | cons path paths ih =>
    obtain ⟨names, hnames⟩ := t.exists_forgetAlong path
    exact ih (hnames ▸ step names t h)

/-- Forgetting along several paths keeps what stays when a node forgets. -/
theorem all_invalidateAll (hP : KeptByForgetting P) {t : CacheTree} (h : All P base t)
    (paths : List Bytes) : All P base (t.invalidateAll paths) :=
  invalidateAll_induction (fun names _ h => all_forgetAlong hP names h) h paths

/-- Forgetting along several paths keeps the name of the root. -/
theorem name_invalidateAll (t : CacheTree) (paths : List Bytes) :
    (t.invalidateAll paths).name = t.name :=
  invalidateAll_induction (motive := fun u => u.name = t.name)
    (fun names u hu => (name_forgetAlong names u).trans hu) rfl paths

/-- The order of siblings stays when a node forgets. -/
theorem siblingsSorted_kept : KeptByForgetting fun _ n => SiblingsSorted n := by
  intro b name known children children' hn h
  have hs : (children.map CacheTree.name).Pairwise fun a b => compare a b = .lt :=
    List.pairwise_map.2 h
  rw [← hn] at hs
  exact List.pairwise_map.1 hs

/-- What is asked of the names of siblings stays when a node forgets. -/
theorem names_kept (N : Bytes → Prop) : KeptByForgetting fun _ n => ∀ c ∈ n.children, N c.name := by
  intro b name known children children' hn h c hc
  have : c.name ∈ children.map CacheTree.name := hn ▸ List.mem_map_of_mem hc
  obtain ⟨d, hd, hdc⟩ := List.mem_map.1 this
  exact hdc ▸ h d hd

/-- The names of siblings are still well-formed when a node forgets. -/
theorem wellNamed_kept : KeptByForgetting fun _ n => WellNamed n :=
  names_kept fun name => name ≠ [] ∧ Bytes.slash ∉ name ∧ Bytes.nul ∉ name

/-- The names of siblings still have no slash when a node forgets. -/
theorem slashFree_kept : KeptByForgetting fun _ n => SlashFree n :=
  names_kept fun name => Bytes.slash ∉ name

/-- Siblings still have names when a node forgets. -/
theorem named_kept : KeptByForgetting fun _ n => Named n :=
  names_kept fun name => name ≠ []

/-! ## Reaching every node -/

/-- The nodes of the directories that a path lies in know nothing. -/
def Forgotten (path base : Bytes) (t : CacheTree) : Prop :=
  t.known ≠ none → path.beginsWith base = false

/-- Where a path does not lie below a node there is nothing to forget. -/
theorem all_forgotten {path : Bytes} {t : CacheTree} (h : path.beginsWith base = false) :
    All (Forgotten path) base t := by
  refine all_of_isPrefix fun b n hb _ => ?_
  rw [← Bool.not_eq_true] at h ⊢
  intro hp
  rw [Bytes.beginsWith_iff] at h hp
  exact h (hb.trans hp)

/-- Where siblings are sorted, forgetting along the names of the directories of a path reaches every
node that the path lies below. -/
theorem all_forgotten_forgetAlong (names : List Bytes) {last : Bytes} {t : CacheTree}
    (hs : All (fun _ n => SiblingsSorted n) base t) (hw : All (fun _ n => SlashFree n) base t)
    (hnames : ∀ name ∈ names, Bytes.slash ∉ name) (hlast : Bytes.slash ∉ last) :
    All (Forgotten (Bytes.baseOf base names ++ last)) base (forgetAlong names t) := by
  induction names generalizing base t with
  | nil =>
    cases t with
    | node own known children =>
      refine all_iff.2 ⟨by simp [forgetAlong, forget, Forgotten], ?_⟩
      intro c _
      apply all_forgotten
      -- No slash follows the base.
      rw [← Bool.not_eq_true, Bytes.beginsWith_iff, Bytes.below, List.append_assoc]
      intro hp
      have hp := (List.prefix_append_right_inj base).1 hp
      exact hlast (hp.subset (by simp))
  | cons name names ih =>
    cases t with
    | node own known children =>
      obtain ⟨hs, hsc⟩ := all_iff.1 hs
      obtain ⟨hw, hwc⟩ := all_iff.1 hw
      have hpath : (Bytes.baseOf base (name :: names) ++ last).beginsWith (Bytes.below base name) =
          true := by
        rw [Bytes.beginsWith_iff]
        exact (Bytes.isPrefix_baseOf (Bytes.below base name) names).trans (List.prefix_append _ _)
      -- The path lies below no sibling of another name.
      have hother : ∀ c ∈ children, c.name ≠ name →
          All (Forgotten (Bytes.baseOf base (name :: names) ++ last))
            (Bytes.below base c.name) c := by
        intro c hc hne
        apply all_forgotten
        rw [← Bool.not_eq_true]
        intro hp
        exact hne (Bytes.name_eq_of_below (hw c hc) (hnames name (by simp)) hp hpath)
      simp only [forgetAlong]
      split
      · rename_i i hi
        obtain ⟨d, hd, hdn⟩ := name_of_locate hi
        refine all_iff.2 ⟨by simp [Forgotten], ?_⟩
        intro c hm
        obtain ⟨j, hj⟩ := List.mem_iff_getElem?.1 hm
        rw [children_node, List.getElem?_modify] at hj
        obtain ⟨x, hx, rfl⟩ := Option.map_eq_some_iff.1 hj
        have hxm : x ∈ children := List.mem_of_getElem? hx
        by_cases hij : i = j
        · subst hij
          obtain rfl : d = x := Option.some.inj (hd.symm.trans hx)
          subst hdn
          simpa [Bytes.baseOf] using ih (hsc d hxm) (hwc d hxm) fun n hn =>
            hnames n (List.mem_cons_of_mem _ hn)
        · simp only [hij, if_false]
          refine hother x hxm ?_
          intro hn
          exact hij (eq_of_name hs hd hx (hdn.trans hn.symm))
      -- A search that fails means that no sibling has the name.
      · rename_i i hi
        refine all_iff.2 ⟨by simp [Forgotten], ?_⟩
        intro c hc
        refine hother c hc ?_
        rintro rfl
        obtain ⟨j, hj⟩ := List.mem_iff_getElem?.1 hc
        cases hi.symm.trans (locate_eq_present hs hj)

/-- Where siblings are sorted, forgetting along a path reaches every node that it lies below. -/
theorem invalidate_reaches {t : CacheTree} {path : Bytes} (hp : Path.IsValid path)
    (hs : All (fun _ n => SiblingsSorted n) [] t) (hw : All (fun _ n => SlashFree n) [] t) :
    All (Forgotten path) [] (t.invalidate path) := by
  rw [invalidate]
  split
  · rename_i hnone
    exact all_forgotten_forgetAlong [] hs hw (by simp)
      (Bytes.parent?_eq_none_iff.1 hnone)
  · rename_i dir hdir
    obtain ⟨last, rfl, hlast⟩ := Bytes.eq_append_of_parent? hdir
    have hne : dir ≠ [] := by
      rintro rfl
      exact (Path.isValid_iff.1 hp).2.2.1 (Or.inl rfl)
    have := all_forgotten_forgetAlong dir.components hs hw
      (fun name => Bytes.slash_notMem_of_components) hlast
    rw [Bytes.baseOf_components] at this
    simpa [hne] using this

/-- To have forgotten a path stays when a node forgets. -/
theorem forgotten_kept (path : Bytes) : KeptByForgetting (Forgotten path) := by
  intro b name known children children' _ _ h
  exact absurd rfl h

/-- Where siblings are sorted, forgetting along several paths reaches every node that one of them
lies below. -/
theorem invalidateAll_reaches {t : CacheTree} {paths : List Bytes}
    (hp : ∀ p ∈ paths, Path.IsValid p) (hs : All (fun _ n => SiblingsSorted n) [] t)
    (hw : All (fun _ n => SlashFree n) [] t) :
    ∀ p ∈ paths, All (Forgotten p) [] (t.invalidateAll paths) := by
  induction paths generalizing t with
  | nil => simp
  | cons q paths ih =>
    intro p hm
    rcases List.mem_cons.1 hm with rfl | hm
    · exact all_invalidateAll (forgotten_kept p) (invalidate_reaches (hp p (by simp)) hs hw) paths
    · exact ih (fun r hr => hp r (List.mem_cons_of_mem _ hr))
        (all_invalidate siblingsSorted_kept hs q) (all_invalidate slashFree_kept hw q) p hm

end CacheTree

end StagingIndex
