import Mathlib
import StagingIndex.Proofs.Alignment

/-! # What materializing leaves

If what the nodes know is right, materializing gives what the entries make, and whatever fails on the
way, what the nodes know afterwards is right too. Nothing is asked of the order of the nodes for that.
A directory that is materialized has its subdirectories in the order of their names; one below which
something failed keeps those that were done in the order of the table, which is another one. So only
directories that are known are sure to be in order, and all are after materializing the root.

* `CacheTree.materialize_right` — what materializing gives, and what it leaves of what was right
* `CacheTree.Settled`, `CacheTree.materialize_order` — what it leaves of names and order
* `CacheTree.RefusedBy`, `CacheTree.update_eq_or_refusedBy` — where no path is in conflict, materializing
  fails only if the database refuses a listing
* `CacheTree.update_isOk` — and with a database that accepts everything it succeeds -/

namespace StagingIndex

namespace CacheTree

variable {σ : Type} [ObjectDatabase σ] {T : Table} {base : Bytes} {t : CacheTree}

/-! ## What is right -/

/-- Every step gives what the entries make where nothing wrong is known, and leaves nothing wrong. -/
theorem stepsKeep_truthful [NamesListings σ] :
    StepsKeep T
      (fun base t (_ : σ) r => All (Truthful T) base t →
        All (Truthful T) base r.1 ∧ ∀ k, r.2.2 = .ok k → k = Table.exact base (T.beginning base))
      (fun base left previous (_ : σ) r =>
        (∀ c ∈ previous, All (Truthful T) (Bytes.below base c.name) c) →
          (∀ c ∈ r.1, All (Truthful T) (Bytes.below base c.name) c) ∧
            ∀ items n, r.2.2 = .ok (items, n) → items = Table.listing base left) where
  known hk _ ht := by
    refine ⟨ht, fun k hk' => ?_⟩
    cases hk'
    exact (all_iff.1 ht).1 _ hk
  stale _ _ ht := ⟨ht, by simp⟩
  unlisted _ _ _ hl ht := by
    obtain ⟨hchildren, -⟩ := hl (all_iff.1 ht).2
    exact ⟨all_iff.2 ⟨truthful_of_none rfl, hchildren⟩, by simp⟩
  refused _ _ _ hl _ ht := by
    obtain ⟨hchildren, -⟩ := hl (all_iff.1 ht).2
    exact ⟨all_iff.2 ⟨truthful_of_none rfl, fun c hc => hchildren c (mem_sortByName.1 hc)⟩, by simp⟩
  stored {base _ _ _ _ _ items n id} _ _ _ hl hn hi ht := by
    obtain ⟨hchildren, hitems⟩ := hl (all_iff.1 ht).2
    -- The items are those of the entries below, and the database names them truly.
    have hexact : (⟨n, id⟩ : Known) = Table.exact base (T.beginning base) := by
      rw [NamesListings.id_of_insertTree _ _ _ _ hi, hitems items n rfl, hn]
      rfl
    refine ⟨all_iff.2 ⟨?_, fun c hc => hchildren c (mem_sortByName.1 hc)⟩, ?_⟩
    · intro k hk
      exact (Option.some.inj hk).symm.trans hexact
    · intro k hk
      exact (Except.ok.inj hk).symm.trans hexact
  done _ := by
    refine ⟨by simp, fun items n h => ?_⟩
    cases h
    simp
  conflict _ _ _ := ⟨by simp, by simp⟩
  file _ hp hn _ hl hprev := by
    obtain ⟨hchildren, hitems⟩ := hl hprev
    refine ⟨hchildren, fun items n h => ?_⟩
    obtain ⟨⟨items', n'⟩, rfl, h⟩ := Check.map_eq_ok.1 h
    cases h
    rw [Table.listing_file (Bytes.afterPrefix?_eq_some_iff.2 hp) (Bytes.splitAt?_eq_none_iff.2 hn),
      hitems items' n' rfl]
  unfinished _ _ _ := ⟨by simp, by simp⟩
  subtree {_ name _ _ _ _ _ _ _ _ k _} ha hname hc _ hl hprev := by
    obtain ⟨hright, hexact⟩ := hc (all_takeChild hprev (truthful_of_none rfl))
    obtain ⟨hchildren, hitems⟩ := hl fun c hc => hprev c (takeChild_snd_subset _ name hc)
    subst hname
    refine ⟨List.forall_mem_cons.2 ⟨hright, hchildren⟩, fun items n h => ?_⟩
    obtain ⟨⟨items', n'⟩, rfl, h⟩ := Check.map_eq_ok.1 h
    cases h
    rw [ha.listing_append, hitems items' n' rfl, hexact k rfl, ← ha.eq_beginning]

/-- Materializing a table gives what its entries make where nothing wrong is known, and leaves nothing
wrong, whether it succeeds or not. -/
theorem materialize_right [NamesListings σ] (hs : T.IsSorted) (ht : All (Truthful T) [] t) (s : σ) :
    All (Truthful T) [] (t.materialize T [] s).1 ∧
      ∀ k, (t.materialize T [] s).2.2 = .ok k → k = Table.exact [] T := by
  have := (stepsKeep_truthful.materialize hs t s).1 ht
  rwa [Table.beginning_nil] at this

/-! ## Order -/

/-- Where a directory is known, everything below it is in order. -/
def Settled (base : Bytes) (t : CacheTree) : Prop :=
  t.known ≠ none → All (fun _ n => SiblingsSorted n) base t

/-- A directory that is not known needs no order. -/
theorem settled_of_none {t : CacheTree} (h : t.known = none) : Settled base t :=
  fun hk => absurd h hk

/-- Forgetting keeps what is known in order. -/
theorem settled_kept : KeptByForgetting Settled := fun _ _ _ _ _ _ _ => settled_of_none rfl

/-- Nodes of different names are strictly sorted once they are put into order. -/
theorem siblingsSorted_sortByName {ts : List CacheTree} {name : Bytes} {known : Option Known}
    (h : ts.Pairwise fun a b => a.name ≠ b.name) :
    SiblingsSorted (node name known (sortByName ts)) := by
  have hle : (sortByName ts).Pairwise fun a b => (compare a.name b.name).isLE = true :=
    pairwise_mergeSort_compare CacheTree.name ts
  have hne : (sortByName ts).Pairwise fun a b => a.name ≠ b.name :=
    ((List.mergeSort_perm ts _).pairwise_iff fun hab => Ne.symm hab).2 h
  exact (hle.and hne).imp fun ⟨hab, hne⟩ => compare_eq_lt_of_ne hab hne

/-- Every step leaves names and what is known in order, and everything if it succeeds. -/
theorem stepsKeep_order (hv : ∀ e ∈ T, Path.IsValid e.path) :
    StepsKeep T
      (fun base t (_ : σ) r => All (fun _ n => WellNamed n) base t → All Settled base t →
        All (fun _ n => WellNamed n) base r.1 ∧ All Settled base r.1 ∧
          ∀ k, r.2.2 = .ok k → All (fun _ n => SiblingsSorted n) base r.1)
      (fun base _ previous (_ : σ) r =>
        (∀ c ∈ previous, All (fun _ n => WellNamed n) (Bytes.below base c.name) c) →
        (∀ c ∈ previous, All Settled (Bytes.below base c.name) c) →
          (∀ c ∈ r.1, All (fun _ n => WellNamed n) (Bytes.below base c.name) c) ∧
          (∀ c ∈ r.1, All Settled (Bytes.below base c.name) c) ∧
            ∀ x, r.2.2 = .ok x →
              ∀ c ∈ r.1, All (fun _ n => SiblingsSorted n) (Bytes.below base c.name) c) where
  known hk _ hw hset := ⟨hw, hset, fun _ _ => (all_iff.1 hset).1 (by simp [hk])⟩
  stale _ _ hw hset := ⟨hw, hset, by simp⟩
  unlisted _ hb hm hl hw hset := by
    -- Nothing is put into order, and nothing is known.
    obtain ⟨hwell, hsettled, -⟩ := hl (all_iff.1 hw).2 (all_iff.1 hset).2
    exact ⟨all_iff.2 ⟨hm.named hb hv, hwell⟩, all_iff.2 ⟨settled_of_none rfl, hsettled⟩, by simp⟩
  refused _ hb hm hl _ hw hset := by
    -- The subdirectories are in order, but nothing is known.
    obtain ⟨hwell, hsettled, -⟩ := hl (all_iff.1 hw).2 (all_iff.1 hset).2
    refine ⟨all_iff.2 ⟨?_, ?_⟩, all_iff.2 ⟨settled_of_none rfl, ?_⟩, by simp⟩
    · exact fun c hc => hm.named hb hv c (mem_sortByName.1 hc)
    · exact fun c hc => hwell c (mem_sortByName.1 hc)
    · exact fun c hc => hsettled c (mem_sortByName.1 hc)
  stored {base t _ _ _ children _ n id} _ hb hm hl _ _ hw hset := by
    obtain ⟨hwell, hsettled, hsorted⟩ := hl (all_iff.1 hw).2 (all_iff.1 hset).2
    have hall : All (fun _ n => SiblingsSorted n) base
        (node t.name (some ⟨n, id⟩) (sortByName children)) :=
      all_iff.2 ⟨siblingsSorted_sortByName hm.distinct,
        fun c hc => hsorted _ rfl c (mem_sortByName.1 hc)⟩
    refine ⟨all_iff.2 ⟨?_, ?_⟩, all_iff.2 ⟨fun _ => hall, ?_⟩, fun _ _ => hall⟩
    · exact fun c hc => hm.named hb hv c (mem_sortByName.1 hc)
    · exact fun c hc => hwell c (mem_sortByName.1 hc)
    · exact fun c hc => hsettled c (mem_sortByName.1 hc)
  done _ _ := by simp
  conflict _ _ _ _ := by simp
  file _ _ _ _ hl hw hset := by
    obtain ⟨hwell, hsettled, hsorted⟩ := hl hw hset
    refine ⟨hwell, hsettled, fun x hx => ?_⟩
    obtain ⟨y, rfl, -⟩ := Check.map_eq_ok.1 hx
    exact hsorted y rfl
  unfinished _ _ _ _ := by simp
  subtree {_ name _ _ previous _ _ _ _ _ k _} _ hname hc _ hl hw hset := by
    have hsub := takeChild_snd_subset previous name
    obtain ⟨hcw, hcset, hcsorted⟩ := hc (all_takeChild hw (by simp [WellNamed, unknown]))
      (all_takeChild hset (settled_of_none rfl))
    obtain ⟨hwell, hsettled, hsorted⟩ :=
      hl (fun c hc => hw c (hsub hc)) fun c hc => hset c (hsub hc)
    subst hname
    refine ⟨List.forall_mem_cons.2 ⟨hcw, hwell⟩, List.forall_mem_cons.2 ⟨hcset, hsettled⟩,
      fun x hx => ?_⟩
    obtain ⟨y, rfl, -⟩ := Check.map_eq_ok.1 hx
    exact List.forall_mem_cons.2 ⟨hcsorted k rfl, hsorted y rfl⟩

/-- Names and the order of what is known survive materializing a table, and everything is in order if
it succeeds. -/
theorem materialize_order (hs : T.IsSorted) (hv : ∀ e ∈ T, Path.IsValid e.path)
    (hw : All (fun _ n => WellNamed n) [] t) (hset : All Settled [] t) (s : σ) :
    All (fun _ n => WellNamed n) [] (t.materialize T [] s).1 ∧
      All Settled [] (t.materialize T [] s).1 ∧
        ∀ k, (t.materialize T [] s).2.2 = .ok k →
          All (fun _ n => SiblingsSorted n) [] (t.materialize T [] s).1 :=
  ((stepsKeep_order hv).materialize hs t s).1 hw hset

/-! ## What can fail -/

/-- An error is that of a database of a kind, which refused a listing. -/
def RefusedBy (P : σ → Prop) (fault : IndexError) : Prop :=
  ∃ (tree : Tree) (s : σ) (e : StoreError),
    P s ∧ (ObjectDatabase.insertTree tree s).1 = .error e ∧ fault = .store e

section
variable {P : σ → Prop} (hP : ∀ (tree : Tree) (s : σ), P s → P (ObjectDatabase.insertTree tree s).2)

include hP

/-- Where nothing wrong is known and no path is in conflict, a step fails only if the database refuses a
listing. Of the database is known what survives every listing that it is offered. -/
theorem stepsKeep_refusedBy (hm : ∀ e ∈ T, e.stage = .merged) :
    StepsKeep T
      (fun base t s r => P s → All (Truthful T) base t →
        P r.2.1 ∧ ∀ fault, r.2.2 = .error fault → RefusedBy P fault)
      (fun base _ previous s r => P s →
        (∀ c ∈ previous, All (Truthful T) (Bytes.below base c.name) c) →
          P r.2.1 ∧ ∀ fault, r.2.2 = .error fault → RefusedBy P fault) where
  known _ _ hs _ := ⟨hs, by simp⟩
  stale hk hn _ ht := by
    -- A count that is right is accepted.
    have hexact := (all_iff.1 ht).1 _ hk
    exact absurd (congrArg Known.count hexact) hn
  unlisted _ _ _ hl hs ht := by
    obtain ⟨hs₁, hrefused⟩ := hl hs (all_iff.1 ht).2
    refine ⟨hs₁, fun fault hfault => ?_⟩
    cases hfault
    exact hrefused _ rfl
  refused {_ _ _ s₁ _ _ items _ e} _ _ _ hl hi hs ht := by
    obtain ⟨hs₁, -⟩ := hl hs (all_iff.1 ht).2
    have hs₂ := hP (Tree.ofList items) s₁ hs₁
    rw [hi] at hs₂
    refine ⟨hs₂, fun fault hfault => ?_⟩
    cases hfault
    exact ⟨Tree.ofList items, s₁, e, hs₁, by rw [hi], rfl⟩
  stored {_ _ _ s₁ _ _ items _ _} _ _ _ hl _ hi hs ht := by
    obtain ⟨hs₁, -⟩ := hl hs (all_iff.1 ht).2
    have hs₂ := hP (Tree.ofList items) s₁ hs₁
    rw [hi] at hs₂
    exact ⟨hs₂, by simp⟩
  done hs _ := ⟨hs, by simp⟩
  conflict ha hne _ _ := absurd (hm _ (ha.sublist.subset List.mem_cons_self)) hne
  file _ _ _ _ hl hs hprev := by
    obtain ⟨hs₁, hrefused⟩ := hl hs hprev
    exact ⟨hs₁, fun fault hfault => hrefused fault (Check.map_eq_error.1 hfault)⟩
  unfinished _ hc hs hprev := by
    obtain ⟨hs₁, hrefused⟩ := hc hs (all_takeChild hprev (truthful_of_none rfl))
    refine ⟨hs₁, fun fault hfault => ?_⟩
    cases hfault
    exact hrefused _ rfl
  subtree {_ name _ _ _ _ _ _ _ _ _ _} _ _ hc _ hl hs hprev := by
    obtain ⟨hs₁, -⟩ := hc hs (all_takeChild hprev (truthful_of_none rfl))
    obtain ⟨hs₂, hrefused⟩ := hl hs₁ fun c hc => hprev c (takeChild_snd_subset _ name hc)
    exact ⟨hs₂, fun fault hfault => hrefused fault (Check.map_eq_error.1 hfault)⟩

/-- Where nothing wrong is known and no path is in conflict, materializing a table fails only if the
database refuses a listing. -/
theorem refusedBy_of_materialize (hs : T.IsSorted) (hm : ∀ e ∈ T, e.stage = .merged)
    (ht : All (Truthful T) [] t) {s : σ} (h : P s) {fault : IndexError}
    (hfault : (t.materialize T [] s).2.2 = .error fault) : RefusedBy P fault :=
  (((stepsKeep_refusedBy hP hm).materialize hs t s).1 h ht).2 fault hfault

end

/-- A database that accepts everything from now on refuses nothing. -/
theorem not_refusedBy {P : σ → Prop} (hP : AcceptsFrom P) (fault : IndexError) :
    ¬ RefusedBy P fault := by
  rintro ⟨tree, s, e, hs, hinsert, -⟩
  rw [hP.insertTree_fst tree s hs] at hinsert
  cases hinsert

/-- Where nothing wrong is known, no path is in conflict and the database accepts everything from now
on, materializing a table succeeds. -/
theorem materialize_isOk {P : σ → Prop} (hP : AcceptsFrom P) (hs : T.IsSorted)
    (hm : ∀ e ∈ T, e.stage = .merged) (ht : All (Truthful T) [] t) {s : σ} (h : P s) :
    ∃ k, (t.materialize T [] s).2.2 = .ok k := by
  cases hr : (t.materialize T [] s).2.2 with
  | ok k => exact ⟨k, rfl⟩
  | error fault =>
    exact absurd (refusedBy_of_materialize hP.insertTree_snd hs hm ht h hr) (not_refusedBy hP fault)

/-! ## The whole table -/

/-- Materializing a whole table gives what its entries make. -/
theorem update_eq_exact [NamesListings σ] (hs : T.IsSorted) {t : CacheTree} {s : σ} {id : ObjectId}
    (ht : All (Truthful T) [] t) (h : (t.update T s).2.2 = .ok id) :
    id = (Table.exact [] T).id := by
  obtain ⟨-, hexact⟩ := materialize_right hs ht s
  rw [update_eq_map] at h
  obtain ⟨k, hk, rfl⟩ := Check.map_eq_ok.1 h
  rw [hexact k hk]

/-- Where nothing wrong is known and no path is in conflict, materializing a whole table gives what its
entries make, or the database refuses a listing. -/
theorem update_eq_or_refusedBy [NamesListings σ] {P : σ → Prop}
    (hP : ∀ (tree : Tree) (s : σ), P s → P (ObjectDatabase.insertTree tree s).2) (hs : T.IsSorted)
    (hm : ∀ e ∈ T, e.stage = .merged) {t : CacheTree} (ht : All (Truthful T) [] t) {s : σ} (h : P s) :
    (t.update T s).2.2 = .ok (Table.exact [] T).id ∨
      ∃ fault, (t.update T s).2.2 = .error fault ∧ RefusedBy P fault := by
  obtain ⟨-, hexact⟩ := materialize_right hs ht s
  rw [update_eq_map]
  cases hr : (t.materialize T [] s).2.2 with
  | ok k =>
    rw [← hexact k hr]
    exact Or.inl rfl
  | error fault => exact Or.inr ⟨fault, rfl, refusedBy_of_materialize hP hs hm ht h hr⟩

/-- With a database that accepts everything from now on it succeeds. -/
theorem update_isOk {P : σ → Prop} (hP : AcceptsFrom P) [NamesListings σ] (hs : T.IsSorted)
    (hm : ∀ e ∈ T, e.stage = .merged) {t : CacheTree} (ht : All (Truthful T) [] t) {s : σ}
    (h : P s) : (t.update T s).2.2 = .ok (Table.exact [] T).id := by
  rcases update_eq_or_refusedBy hP.insertTree_snd hs hm ht h with h | ⟨fault, -, hrefused⟩
  · exact h
  · exact absurd hrefused (not_refusedBy hP fault)

end CacheTree

end StagingIndex
