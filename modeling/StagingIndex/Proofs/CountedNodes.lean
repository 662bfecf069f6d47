import Mathlib
import StagingIndex.Proofs.BodyCodec
import StagingIndex.Proofs.CacheCounts
import StagingIndex.Proofs.CacheOrder

/-! # Nodes with the right counts

A reader of a file accepts subdirectories without a name, and takes such a node for the directory that
it is in. No path leads to it, so materializing never meets it: only the counts of directories that
paths can begin with matter. Where these are right nothing but the database can make materializing
fail, and they are right again afterwards.

* `Bytes.Opens` — bases that paths can begin with
* `CacheTree.Fits` — nodes in order, with the right counts at some bases
* `CacheTree.fits_of_verify` — where a tree that passes the reader's check has the right counts
* `CacheTree.materialize_fits` — materializing succeeds, and leaves right counts -/

namespace StagingIndex

namespace Bytes

/-- Bases that paths can begin with. -/
def Opens (base : Bytes) : Prop := ∃ p, Path.IsValid p ∧ p.beginsWith base = true

/-- Paths can begin with nothing. -/
theorem opens_nil : Opens [] := ⟨[0x61], by decide, rfl⟩

/-- No path goes on below a subdirectory without a name. -/
theorem not_opens_of_nil {base b : Bytes} (hb : IsBase base) (h : below base [] <+: b) :
    ¬ Opens b := by
  rintro ⟨p, hv, hp⟩
  obtain ⟨rest, rfl⟩ := beginsWith_below_iff.1
    (beginsWith_iff.2 (h.trans (beginsWith_iff.1 hp)))
  exact (hv.name hb (by simp)).1 rfl

end Bytes

namespace Table

variable {T : Table} {base name : Bytes} {inside left : List Entry}

/-- Paths begin with the base of a subdirectory that is met. -/
theorem Entered.opens (h : T.Entered base name inside left) (hT : T.Invariant) :
    Bytes.Opens (Bytes.below base name) := by
  obtain ⟨e, he⟩ := List.exists_mem_of_ne_nil inside h.ne_nil
  have hmem := h.ahead.sublist.subset (List.mem_append_left left he)
  exact ⟨e.path, hT.valid e hmem, h.beginsWith he⟩

end Table

namespace CacheTree

variable {T : Table} {W : Bytes → Prop} {dir base : Bytes} {t : CacheTree}

/-- A node has its subdirectories in order, with names that can be written, and if its base is one
that matters, the right count. -/
structure Fits (W : Bytes → Prop) (T : Table) (base : Bytes) (t : CacheTree) : Prop
    extends Shaped t where
  counted : W base → Counted T base t

/-- Names that can be written have no slash. -/
theorem Fits.slashFree (h : Fits W T base t) : SlashFree t :=
  fun c hc => (h.delimited c hc).1

/-- A new node fits. -/
theorem fits_unknown (name : Bytes) : Fits W T base (unknown name) where
  sorted := List.Pairwise.nil
  delimited := by simp [unknown]
  counted := fun _ k hk => by cases hk

/-- A node that forgets still fits. -/
theorem fits_kept : KeptByForgetting (Fits W T) := by
  intro b name known children children' hn h
  refine ⟨⟨siblingsSorted_kept b name known children children' hn h.sorted, ?_⟩, ?_⟩
  · exact names_kept Delimited b name known children children' hn h.delimited
  · intro _ k hk
    cases hk

/-! ## The reader's check -/

/-- The bases of nodes are empty or end in a slash. -/
theorem all_isBase (hb : Bytes.IsBase base) : All (fun b _ => Bytes.IsBase b) base t := by
  induction t using children_induction generalizing base with
  | step name known children ih =>
    exact all_iff.2 ⟨hb, fun c hc => ih c hc (Bytes.isBase_below base c.name)⟩

/-- A tree that passes has the right counts, except below subdirectories without a name; those are
taken for other directories. -/
theorem fits_of_verifyBelow (hs : T.IsSorted) (hd : dir.dropFinalSlash = dir)
    (hshape : All (fun _ n => Shaped n) (Bytes.asBase dir) t)
    (hnil : All (fun b n => ∀ c ∈ n.children, c.name = [] → ∀ b', Bytes.below b [] <+: b' → ¬ W b')
      (Bytes.asBase dir) t)
    (h : verifyBelow T dir t = .ok ()) : All (Fits W T) (Bytes.asBase dir) t := by
  induction t using children_induction generalizing dir with
  | step name known children ih =>
    obtain ⟨hnode, hnodes⟩ := all_iff.1 hshape
    obtain ⟨hnil, hnils⟩ := all_iff.1 hnil
    obtain ⟨hcount, hbelow⟩ := verifyBelow_eq_ok_iff.1 h
    refine all_iff.2 ⟨⟨hnode, fun _ k hk => ?_⟩, fun c hc => ?_⟩
    · rw [hcount k hk, Table.under_eq_beginning hs hd]
    · by_cases hne : c.name = []
      · -- Whatever is known there does not matter.
        have hoff : All (fun b _ => ¬ W b) (Bytes.below (Bytes.asBase dir) c.name) c :=
          all_of_isPrefix fun b _ hb => hnil c hc hne b (hne ▸ hb)
        exact ((hnodes c hc).and hoff).imp fun b n ⟨hshape, hb⟩ => ⟨hshape, fun hw => absurd hw hb⟩
      · have hbase := Bytes.asBase_join dir hne
        have hjoin := Bytes.dropFinalSlash_join dir hne (hnode.delimited c hc).1
        have hshaped := hnodes c hc
        have hunnamed := hnils c hc
        rw [← hbase] at hshaped hunnamed ⊢
        exact ih c hc hjoin hshaped hunnamed (hbelow c hc)

/-- A tree that passes has the right counts wherever paths can lead. -/
theorem fits_of_verify (hs : T.IsSorted) (hshape : All (fun _ n => Shaped n) [] t)
    (h : t.verify T = .ok ()) : All (Fits Bytes.Opens T) [] t :=
  fits_of_verifyBelow hs (rfl : Bytes.dropFinalSlash [] = []) hshape
    ((all_isBase (Or.inl rfl)).imp fun _ _ hb _ _ _ _ hpre => Bytes.not_opens_of_nil hb hpre) h

/-- A tree that passes and has no subdirectory without a name has the right counts throughout. -/
theorem fits_of_verify_of_named (hs : T.IsSorted) (hshape : All (fun _ n => Shaped n) [] t)
    (hn : All (fun _ n => Named n) [] t) (h : t.verify T = .ok ()) :
    All (Fits (fun _ => True) T) [] t :=
  fits_of_verifyBelow hs (rfl : Bytes.dropFinalSlash [] = []) hshape
    (hn.imp fun _ _ hne c hc hnil => absurd hnil (hne c hc)) h

/-- A tree without such subdirectories passes if it has the right counts throughout. -/
theorem verify_of_fits (hs : T.IsSorted) (hn : All (fun _ n => Named n) [] t)
    (h : All (Fits (fun _ => True) T) [] t) : t.verify T = .ok () :=
  verifyBelow_of_counted hs rfl (h.imp fun _ _ hf => hf.counted trivial) hn
    (h.imp fun _ _ hf => hf.slashFree)

/-! ## Materializing -/

variable {σ : Type} [ObjectDatabase σ]

/-- With a database that refuses nothing, every step succeeds where the counts are right and no path
is in conflict, and leaves right counts. -/
theorem stepsKeep_fits (hT : T.Invariant) (hm : ∀ e ∈ T, e.stage = .merged)
    (haccept : ∀ (tree : Tree) (s : σ), ∃ id, (ObjectDatabase.insertTree tree s).1 = .ok id) :
    StepsKeep T
      (fun base t (_ : σ) r => Bytes.Opens base → All (Fits Bytes.Opens T) base t →
        (∃ k, r.2.2 = .ok k) ∧ All (Fits Bytes.Opens T) base r.1)
      (fun base _ previous (_ : σ) r =>
        (∀ c ∈ previous, All (Fits Bytes.Opens T) (Bytes.below base c.name) c) →
          (∃ x, r.2.2 = .ok x) ∧
            ∀ c ∈ r.1, All (Fits Bytes.Opens T) (Bytes.below base c.name) c) where
  known _ _ _ h := ⟨⟨_, rfl⟩, h⟩
  stale hk hn ho h := absurd ((all_iff.1 h).1.counted ho _ hk) hn
  unlisted _ _ _ hl _ h := by
    obtain ⟨⟨x, hx⟩, -⟩ := hl (all_iff.1 h).2
    cases hx
  refused {_ _ _ _ _ _ items _ _} _ _ _ _ hi _ _ := by
    obtain ⟨id, hid⟩ := haccept (Tree.ofList items) _
    rw [hi] at hid
    cases hid
  stored _ hb hmet hl hn _ _ h := by
    obtain ⟨-, hchildren⟩ := hl (all_iff.1 h).2
    refine ⟨⟨_, rfl⟩, all_iff.2 ⟨⟨⟨siblingsSorted_sortByName hmet.distinct, ?_⟩, ?_⟩, ?_⟩⟩
    · exact fun c hc => (hmet.named hb hT.valid c (mem_sortByName.1 hc)).2
    · intro _ k hk
      rw [← Option.some.inj hk, hn]
    · exact fun c hc => hchildren c (mem_sortByName.1 hc)
  done _ := ⟨⟨_, rfl⟩, by simp⟩
  conflict ha hne _ := absurd (hm _ (ha.sublist.subset List.mem_cons_self)) hne
  file _ _ _ _ hl hprev := by
    obtain ⟨⟨x, rfl⟩, hchildren⟩ := hl hprev
    exact ⟨⟨_, rfl⟩, hchildren⟩
  unfinished ha hc hprev := by
    obtain ⟨⟨k, hk⟩, -⟩ := hc (ha.opens hT) (all_takeChild hprev (fits_unknown _))
    cases hk
  subtree {_ name _ _ _ _ _ _ _ _ _ _} ha hname hc _ hl hprev := by
    obtain ⟨-, hfits⟩ := hc (ha.opens hT) (all_takeChild hprev (fits_unknown _))
    obtain ⟨⟨x, rfl⟩, hchildren⟩ := hl fun c hc => hprev c (takeChild_snd_subset _ name hc)
    subst hname
    exact ⟨⟨_, rfl⟩, List.forall_mem_cons.2 ⟨hfits, hchildren⟩⟩

/-- Where the counts are right wherever paths can lead, and no path is in conflict, materializing a
table with a database that refuses nothing succeeds, and leaves such counts. -/
theorem materialize_fits (hT : T.Invariant) (hm : ∀ e ∈ T, e.stage = .merged)
    (haccept : ∀ (tree : Tree) (s : σ), ∃ id, (ObjectDatabase.insertTree tree s).1 = .ok id)
    (h : All (Fits Bytes.Opens T) [] t) (s : σ) :
    (∃ k, (t.materialize T [] s).2.2 = .ok k) ∧
      All (Fits Bytes.Opens T) [] (t.materialize T [] s).1 :=
  ((stepsKeep_fits hT hm haccept).materialize hT.sorted t s).1 Bytes.opens_nil h

end CacheTree

end StagingIndex
