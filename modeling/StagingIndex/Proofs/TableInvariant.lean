import Mathlib
import StagingIndex.Proofs.Lookup

/-! # What holds of every table

A table is sorted, its paths are paths, no path is merged and in conflict at once, and no path is a
directory of another. The checks of a whole table look at each path with binary searches; on sorted
tables of paths they accept exactly what satisfies the last two conditions.

* `Table.Invariant` — the four conditions
* `Table.checkAll_eq_ok_iff` — what the checks accept
* `Table.normalize_eq_ok` — the steps by which candidates make a table
* `Table.normalize_invariant` — whatever candidates give a table, it satisfies the conditions -/

namespace StagingIndex

/-! ## Checks in sequence -/

namespace Check

variable {ε α β : Type}

/-- Two checks pass together if the first one does and then the second. -/
theorem bind_eq_ok {x : Except ε α} {f : α → Except ε β} {b : β} :
    x >>= f = .ok b ↔ ∃ a, x = .ok a ∧ f a = .ok b := by
  cases x with
  | error e => simp [bind, Except.bind]
  | ok a => simp [bind, Except.bind]

/-- A check passes before another step if the check does and then the step. -/
theorem unit_bind_eq_ok {x : Except ε Unit} {y : Except ε β} {b : β} :
    (x >>= fun _ => y) = .ok b ↔ x = .ok () ∧ y = .ok b := by
  rw [bind_eq_ok]
  constructor
  · rintro ⟨⟨⟩, hx, hy⟩
    exact ⟨hx, hy⟩
  · rintro ⟨hx, hy⟩
    exact ⟨(), hx, hy⟩

/-- A result is mapped if there is one. -/
theorem map_eq_ok {x : Except ε α} {f : α → β} {b : β} :
    x.map f = .ok b ↔ ∃ a, x = .ok a ∧ f a = b := by
  cases x with
  | error e => simp [Except.map]
  | ok a => simp [Except.map]

/-- A result that is mapped fails if there is none. -/
theorem map_eq_error {x : Except ε α} {f : α → β} {e : ε} : x.map f = .error e ↔ x = .error e := by
  cases x with
  | error e => simp [Except.map]
  | ok a => simp [Except.map]

/-- A check of every element passes if it passes for each. -/
theorem forM_eq_ok {xs : List α} {f : α → Except ε Unit} :
    xs.forM f = .ok () ↔ ∀ x ∈ xs, f x = .ok () := by
  induction xs with
  | nil => simp [pure, Except.pure]
  | cons x xs ih =>
    have hstep : (x :: xs).forM f = .ok () ↔ f x = .ok () ∧ xs.forM f = .ok () := by
      change (f x >>= fun _ => xs.forM f) = .ok () ↔ _
      exact unit_bind_eq_ok
    rw [hstep, ih, List.forall_mem_cons]

end Check

/-! ## Paths -/

namespace Path

variable {p : Bytes}

/-- A path has no fault of any kind. -/
theorem isValid_iff :
    IsValid p ↔ p ≠ [] ∧ Bytes.nul ∉ p ∧
      ¬ (p.head? = some Bytes.slash ∨ p.getLast? = some Bytes.slash) ∧
      ∀ c ∈ Bytes.components p, componentFault? c = none := by
  rw [IsValid, fault?]
  split_ifs with h₁ h₂ h₃ <;> simp_all [List.findSome?_eq_none_iff]

/-- A path is not empty. -/
theorem IsValid.ne_nil (h : IsValid p) : p ≠ [] := (isValid_iff.1 h).1

/-- A path has no zero byte. -/
theorem IsValid.nul_notMem (h : IsValid p) : Bytes.nul ∉ p := (isValid_iff.1 h).2.1

/-- A path does not end in a slash. -/
theorem IsValid.dropFinalSlash (h : IsValid p) : p.dropFinalSlash = p := by
  have := (isValid_iff.1 h).2.2.1
  rw [Bytes.dropFinalSlash, if_neg fun e => this (Or.inr e)]

/-- A component of a path is itself a path. -/
theorem IsValid.component {name : Bytes} (h : IsValid p) (hc : name ∈ p.components)
    (hnul : Bytes.nul ∉ name) : IsValid name := by
  have hn := Bytes.slash_notMem_of_components hc
  have hfault := (isValid_iff.1 h).2.2.2 name hc
  refine isValid_iff.2 ⟨?_, hnul, ?_, ?_⟩
  · rintro rfl
    simp [componentFault?] at hfault
  · rintro (hhead | hlast)
    · exact hn (List.mem_of_mem_head? hhead)
    · exact hn (List.mem_of_getLast? hlast)
  · rw [Bytes.components_of_notMem hn, List.forall_mem_singleton]
    exact hfault

/-- What stands between slashes in a path is a name. -/
theorem IsValid.name {base name rest : Bytes} (h : IsValid (base ++ (name ++ Bytes.slash :: rest)))
    (hb : Bytes.IsBase base) (hn : Bytes.slash ∉ name) :
    name ≠ [] ∧ Bytes.slash ∉ name ∧ Bytes.nul ∉ name := by
  refine ⟨?_, hn, ?_⟩
  · rintro rfl
    have := (isValid_iff.1 h).2.2.2 _ (Bytes.mem_components hb hn)
    simp [componentFault?] at this
  · intro hm
    exact h.nul_notMem (by simp [hm])

end Path

namespace Table

variable {t : Table}

/-- What holds of every table. -/
structure Invariant (t : Table) : Prop where
  /-- The keys are strictly increasing. -/
  sorted : IsSorted t
  /-- All paths are paths. -/
  valid : ∀ e ∈ t, Path.IsValid e.path
  /-- A path with a merged entry has no entry at another stage. -/
  unmixed : ∀ a ∈ t, ∀ b ∈ t, a.path = b.path → a.stage = .merged → b.stage = .merged
  /-- No path is a directory of another. -/
  separate : ∀ a ∈ t, ∀ b ∈ t, b.path.beginsWith (a.path ++ [Bytes.slash]) = false

/-- The table without entries. -/
theorem invariant_nil : Invariant [] where
  sorted := List.Pairwise.nil
  valid := by simp
  unmixed := by simp
  separate := by simp

/-- One entry with a path makes a table. -/
theorem invariant_singleton {e : Entry} (h : Path.IsValid e.path) : Invariant [e] where
  sorted := List.pairwise_singleton _ _
  valid := by simpa using h
  unmixed := by simp
  separate := by
    simp only [List.mem_singleton, forall_eq]
    rw [← Bool.not_eq_true, Bytes.beginsWith_iff]
    intro hp
    have := hp.length_le
    simp at this

/-- Some entries of a table are a table. -/
theorem Invariant.sublist {u : Table} (h : t.Invariant) (hu : List.Sublist u t) :
    Table.Invariant u where
  sorted := h.sorted.sublist hu
  valid := fun e he => h.valid e (hu.subset he)
  unmixed := fun a ha b hb => h.unmixed a (hu.subset ha) b (hu.subset hb)
  separate := fun a ha b hb => h.separate a (hu.subset ha) b (hu.subset hb)

/-! ## The checks of one path -/

/-- An entry of a sorted table that comes before one of the same path has a lower stage. -/
theorem IsSorted.stage_lt {a b : Entry} {es : List Entry} (h : IsSorted (a :: es)) (hb : b ∈ es)
    (hp : a.path = b.path) : compare a.stage b.stage = .lt := by
  have hlt := (List.pairwise_cons.1 h).1 b hb
  rcases EntryKey.compare_eq_lt_iff.1 hlt with hlt | ⟨-, hlt⟩
  · have hne : compare a.path b.path = .lt := hlt
    simp [hp] at hne
  · exact hlt

/-- The stages of a path are accepted if they are not merged and in conflict at once. -/
theorem checkStages_eq_ok_iff (h : IsSorted t) {p : Bytes} :
    t.checkStages p = .ok () ↔
      ∀ a ∈ t, ∀ b ∈ t, a.path = p → b.path = p → a.stage = .merged → b.stage = .merged := by
  have hs : IsSorted (t.filter fun e => e.path = p) := h.sublist List.filter_sublist
  have hmem : ∀ e, e ∈ t.filter (fun e => e.path = p) ↔ e ∈ t ∧ e.path = p := by simp
  rw [checkStages, stages_eq_filter h]
  generalize t.filter (fun e => e.path = p) = l at hs hmem
  match l with
  | [] =>
    simp only [true_iff]
    intro a ha b hb hap
    have := (hmem a).2 ⟨ha, hap⟩
    simp at this
  | [e] =>
    simp only [true_iff]
    intro a ha b hb hap hbp hm
    have ha := (hmem a).2 ⟨ha, hap⟩
    have hb := (hmem b).2 ⟨hb, hbp⟩
    rw [List.mem_singleton] at ha hb
    rw [hb, ← ha, hm]
  | e :: f :: es =>
    have he := (hmem e).1 (by simp)
    have hf := (hmem f).1 (by simp)
    have hlt := hs.stage_lt (b := f) (by simp) (he.2.trans hf.2.symm)
    -- With two entries the first one decides, as the stages are increasing.
    constructor
    · intro hok a ha b hb hap hbp hm
      have hne : e.stage ≠ .merged := by
        intro hem
        simp [hem] at hok
      -- Nothing comes before the first entry of the path, and nothing is below the merged stage.
      rcases List.mem_cons.1 ((hmem a).2 ⟨ha, hap⟩) with rfl | ha'
      · exact absurd hm hne
      · have hea := hs.stage_lt ha' (he.2.trans hap.symm)
        rw [hm, ← Std.OrientedCmp.gt_iff_lt] at hea
        have := Stage.compare_merged e.stage
        rw [hea] at this
        cases this
    · intro hall
      have hne : e.stage ≠ .merged := by
        intro hem
        have hfm := hall e he.1 f hf.1 he.2 hf.2 hem
        rw [hem, hfm] at hlt
        cases hlt
      simp [hne]

/-- A path is accepted as no directory if nothing is below it. -/
theorem checkNotDirectory_eq_ok_iff (h : IsSorted t) {p : Bytes} (hp : Path.IsValid p) :
    t.checkNotDirectory p = .ok () ↔
      ∀ b ∈ t, b.path.beginsWith (p ++ [Bytes.slash]) = false := by
  have hd : p.dropFinalSlash ≠ [] := by
    rw [hp.dropFinalSlash]
    exact hp.ne_nil
  rw [checkNotDirectory, under_eq_filter h hd, hp.dropFinalSlash]
  simp only [ite_eq_left_iff, reduceCtorEq, imp_false, not_not, List.isEmpty_iff,
    beginning, List.filter_eq_nil_iff, Bool.not_eq_true]

/-- A path is accepted if nothing is below it, and it is below no other path. -/
theorem checkDirectory_eq_ok_iff (h : IsSorted t) {p : Bytes} (hp : Path.IsValid p) :
    t.checkDirectory p = .ok () ↔
      (∀ b ∈ t, b.path.beginsWith (p ++ [Bytes.slash]) = false) ∧
        ∀ a ∈ t, p.beginsWith (a.path ++ [Bytes.slash]) = false := by
  rw [checkDirectory, Check.unit_bind_eq_ok, checkNotDirectory_eq_ok_iff h hp]
  refine and_congr_right fun _ => ?_
  have hnone : (∀ d ∈ p.ancestors, (t.find d).isSome = false) ↔
      ∀ a ∈ t, p.beginsWith (a.path ++ [Bytes.slash]) = false := by
    constructor
    · intro hall a ha
      rw [← Bool.not_eq_true]
      intro hb
      have hfind := hall a.path (Bytes.mem_ancestors_iff.2 hb)
      rw [(find_isSome_iff h).2 ⟨a, ha, rfl⟩] at hfind
      cases hfind
    · intro hall d hd
      rw [← Bool.not_eq_true, find_isSome_iff h]
      rintro ⟨a, ha, rfl⟩
      have := hall a ha
      rw [Bytes.mem_ancestors_iff.1 hd] at this
      cases this
  rw [← hnone]
  -- The first directory with an entry is none if no directory has one.
  cases hf : p.ancestors.find? fun d => (t.find d).isSome with
  | none => simpa using hf
  | some d =>
    have hd := List.find?_some hf
    have hm := List.mem_of_find?_eq_some hf
    simp only [reduceCtorEq, false_iff]
    intro hall
    rw [hall d hm] at hd
    cases hd

/-! ## The checks of a whole table -/

/-- Leaving out repeated neighbours keeps every element. -/
@[simp] theorem mem_dedup {q : Bytes} {ps : List Bytes} : q ∈ dedup ps ↔ q ∈ ps := by
  fun_induction dedup ps with
  | case1 p ps ih => simp [ih]
  | case2 p r ps hne ih => simp [ih]
  | case3 ps => rfl

/-- The checks of a whole table accept what satisfies the last two conditions. -/
theorem checkAll_eq_ok_iff (h : IsSorted t) (hv : ∀ e ∈ t, Path.IsValid e.path) :
    t.checkAll = .ok () ↔
      (∀ a ∈ t, ∀ b ∈ t, a.path = b.path → a.stage = .merged → b.stage = .merged) ∧
        ∀ a ∈ t, ∀ b ∈ t, b.path.beginsWith (a.path ++ [Bytes.slash]) = false := by
  -- Every path is checked once, which is the same as checking it for every entry.
  have hpath : t.checkAll = .ok () ↔
      ∀ a ∈ t, t.checkStages a.path = .ok () ∧ t.checkNotDirectory a.path = .ok () := by
    rw [checkAll, Check.forM_eq_ok]
    simp only [mem_dedup, List.mem_map, forall_exists_index, and_imp, forall_apply_eq_imp_iff₂,
      Check.unit_bind_eq_ok]
  rw [hpath]
  constructor
  · intro hok
    constructor
    · intro a ha b hb hab hm
      exact (checkStages_eq_ok_iff h).1 (hok a ha).1 a ha b hb rfl hab.symm hm
    · intro a ha
      exact (checkNotDirectory_eq_ok_iff h (hv a ha)).1 (hok a ha).2
  · rintro ⟨hmix, hsep⟩ a ha
    constructor
    · rw [checkStages_eq_ok_iff h]
      intro x hx y hy hxp hyp hm
      exact hmix x hx y hy (hxp.trans hyp.symm) hm
    · rw [checkNotDirectory_eq_ok_iff h (hv a ha)]
      exact hsep a ha

/-- A table that satisfies the conditions is accepted. -/
theorem Invariant.checkAll (h : Invariant t) : t.checkAll = .ok () :=
  (checkAll_eq_ok_iff h.sorted h.valid).2 ⟨h.unmixed, h.separate⟩

/-- A sorted table of paths that is accepted satisfies the conditions. -/
theorem invariant_of_checkAll (h : IsSorted t) (hv : ∀ e ∈ t, Path.IsValid e.path)
    (hok : t.checkAll = .ok ()) : Invariant t where
  sorted := h
  valid := hv
  unmixed := ((checkAll_eq_ok_iff h hv).1 hok).1
  separate := ((checkAll_eq_ok_iff h hv).1 hok).2

/-! ## Tables from candidates -/

/-- The paths of candidates are accepted if all of them are paths. -/
theorem checkPaths_eq_ok_iff {es : List Entry} :
    checkPaths es = .ok () ↔ ∀ e ∈ es, Path.IsValid e.path := by
  rw [checkPaths, Check.forM_eq_ok]
  refine forall₂_congr fun e _ => ?_
  rw [Path.IsValid]
  cases Path.fault? e.path <;> simp

/-- Candidates put into order are the same candidates. -/
@[simp] theorem mem_sorted {es : List Entry} {e : Entry} : e ∈ sorted es ↔ e ∈ es := by
  simp [sorted]

/-- Candidates put into order never go back. -/
theorem pairwise_sorted (es : List Entry) :
    (sorted es).Pairwise fun a b => (compare a.key b.key).isLE = true :=
  pairwise_mergeSort_compare Entry.key es

/-- What is left when equal keys are made one was there before. -/
theorem mem_of_unify {policy : DuplicatePolicy} {es t : List Entry} (h : unify policy es = .ok t)
    {e : Entry} (he : e ∈ t) : e ∈ es := by
  fun_induction unify policy es generalizing t with
  | case1 a b es hk hp => cases h
  | case2 a b es hk hp ih => exact List.mem_cons_of_mem _ (ih (hp ▸ h) he)
  | case3 a b es hk ih =>
    obtain ⟨s, hs, rfl⟩ := Check.map_eq_ok.1 h
    rcases List.mem_cons.1 he with rfl | he
    · simp
    · exact List.mem_cons_of_mem _ (ih hs he)
  | case4 es hne =>
    cases h
    exact he

/-- Where equal keys fail, all entries stay. -/
theorem eq_of_unify {es t : List Entry} (h : unify .reject es = .ok t) : t = es := by
  fun_induction unify .reject es generalizing t with
  | case1 => cases h
  | case2 a b es hk hp => cases hp
  | case3 a b es hk ih =>
    obtain ⟨s, hs, rfl⟩ := Check.map_eq_ok.1 h
    rw [ih hs]
  | case4 es hne =>
    cases h
    rfl

/-- Entries in order with equal keys made one are sorted. -/
theorem isSorted_of_unify {policy : DuplicatePolicy} {es t : List Entry}
    (hle : es.Pairwise fun a b => (compare a.key b.key).isLE = true)
    (h : unify policy es = .ok t) : IsSorted t := by
  fun_induction unify policy es generalizing t with
  | case1 a b es hk hp => cases h
  | case2 a b es hk hp ih => exact ih hle.of_cons (hp ▸ h)
  | case3 a b es hk ih =>
    obtain ⟨s, hs, rfl⟩ := Check.map_eq_ok.1 h
    refine List.pairwise_cons.2 ⟨?_, ih hle.of_cons hs⟩
    intro e he
    obtain ⟨ha, hbs⟩ := List.pairwise_cons.1 hle
    -- `a` is before `b` as their keys differ, and `b` is not after anything that follows.
    have hab : compare a.key b.key = .lt := compare_eq_lt_of_ne (ha b (by simp)) hk
    rcases List.mem_cons.1 (mem_of_unify hs he) with rfl | he
    · exact hab
    · exact Std.TransCmp.lt_of_lt_of_isLE hab ((List.pairwise_cons.1 hbs).1 e he)
  | case4 es hne =>
    cases h
    match es, hne with
    | [], _ => exact List.Pairwise.nil
    | [e], _ => exact List.pairwise_singleton _ _
    | a :: b :: es, hne => exact absurd rfl (hne a b es)

/-- Sorted entries have no two equal keys. -/
theorem IsSorted.unify_eq {policy : DuplicatePolicy} (h : IsSorted t) : unify policy t = .ok t := by
  induction t with
  | nil => rfl
  | cons a t ih =>
    cases t with
    | nil => rfl
    | cons b t =>
      have hne : a.key ≠ b.key := by
        intro hk
        have hlt := (List.pairwise_cons.1 h).1 b List.mem_cons_self
        simp [hk] at hlt
      simp only [unify, if_neg hne, ih h.of_cons]
      rfl

/-- Sorted entries are in order. -/
theorem IsSorted.sorted_eq (h : IsSorted t) : sorted t = t :=
  List.mergeSort_of_pairwise (h.imp fun hab => by simp [hab])

/-- The steps by which candidates make a table. -/
theorem normalize_eq_ok {policy : DuplicatePolicy} {es t : List Entry} :
    normalize policy es = .ok t ↔
      checkPaths es = .ok () ∧ unify policy (sorted es) = .ok t ∧ checkAll t = .ok () := by
  simp only [normalize, Check.bind_eq_ok, pure, Except.pure, Except.ok.injEq]
  constructor
  · rintro ⟨⟨⟩, hpaths, s, hs, ⟨⟩, hall, rfl⟩
    exact ⟨hpaths, hs, hall⟩
  · rintro ⟨hpaths, hs, hall⟩
    exact ⟨(), hpaths, t, hs, (), hall, rfl⟩

/-- A table makes itself, if its entries are taken for candidates. -/
theorem Invariant.normalize_eq {policy : DuplicatePolicy} (h : Invariant t) :
    normalize policy t = .ok t := by
  refine normalize_eq_ok.2 ⟨checkPaths_eq_ok_iff.2 h.valid, ?_, h.checkAll⟩
  rw [h.sorted.sorted_eq]
  exact h.sorted.unify_eq

/-- Entries of a table were candidates. -/
theorem mem_of_normalize {policy : DuplicatePolicy} {es t : List Entry}
    (h : normalize policy es = .ok t) {e : Entry} (he : e ∈ t) : e ∈ es := by
  obtain ⟨-, ht, -⟩ := normalize_eq_ok.1 h
  exact mem_sorted.1 (mem_of_unify ht he)

/-- Where equal keys fail, the table has the candidates in another order. -/
theorem perm_of_normalize {es t : List Entry} (h : normalize .reject es = .ok t) : t.Perm es := by
  obtain ⟨-, ht, -⟩ := normalize_eq_ok.1 h
  rw [eq_of_unify ht]
  exact List.mergeSort_perm es _

/-- Whatever candidates give a table, it satisfies the conditions. -/
theorem normalize_invariant {policy : DuplicatePolicy} {es t : List Entry}
    (h : normalize policy es = .ok t) : Invariant t := by
  obtain ⟨hpaths, ht, hall⟩ := normalize_eq_ok.1 h
  refine invariant_of_checkAll (isSorted_of_unify (pairwise_sorted es) ht) ?_ hall
  intro e he
  exact checkPaths_eq_ok_iff.1 hpaths e (mem_of_normalize h he)

end Table

end StagingIndex
