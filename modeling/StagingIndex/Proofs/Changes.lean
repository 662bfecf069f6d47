import Mathlib
import StagingIndex.Proofs.CacheNodes
import StagingIndex.Proofs.Merge
import StagingIndex.Index

/-! # What changes when a table changes

Trees show of an entry its path, mode and object, and whether it is only meant to be added. Two
tables are compared by these contents, directory by directory: where no path that a change names
begins with the base of a directory, the directory has the contents it had before.

* `Entry.content`, `Table.SameContents` — what is compared
* `Table.sameContents_of_changedPaths` — replacing a table names all that changes
* `Edit.sameContents_of_touched` — editing a table names all that changes -/

namespace StagingIndex

/-! ## Contents -/

/-- What the stages and trees of an index show of an entry. -/
structure EntryContent where
  path : Bytes
  stage : Stage
  mode : Mode
  id : ObjectId
  intentToAdd : Bool
deriving DecidableEq

/-- What trees show of an entry. -/
def Entry.content (e : Entry) : EntryContent :=
  ⟨e.path, e.stage, e.mode, e.id, e.flags.intentToAdd⟩

/-- Two entries stand for the same name in a tree if their contents are the same. -/
theorem Entry.sameContent_iff {a b : Entry} : a.sameContent b = true ↔ a.content = b.content := by
  simp [Entry.sameContent, Entry.content, and_assoc]

namespace Table

variable {t u v : List Entry} {base : Bytes}

/-- Entries with the same contents, one by one. -/
def SameContents (t u : Table) : Prop := t.map Entry.content = u.map Entry.content

instance (t u : Table) : Decidable (SameContents t u) :=
  inferInstanceAs (Decidable (t.map Entry.content = u.map Entry.content))

/-- Entries have the contents they have. -/
@[simp] theorem SameContents.refl (t : List Entry) : SameContents t t := rfl

/-- The contents of two lists, one after the other. -/
theorem SameContents.append {t' u' : List Entry} (h : SameContents t u) (h' : SameContents t' u') :
    SameContents (t ++ t') (u ++ u') := by
  rw [SameContents] at *
  rw [List.map_append, List.map_append, h, h']

/-- Entries with the same contents are as many. -/
theorem SameContents.length_eq (h : SameContents t u) : t.length = u.length := by
  simpa using congrArg List.length h

@[simp] theorem beginning_append (t u : List Entry) (base : Bytes) :
    beginning (t ++ u) base = beginning t base ++ beginning u base :=
  List.filter_append _ _

/-- Entries none of which has a beginning. -/
theorem beginning_eq_nil (h : ∀ e ∈ t, e.path.beginsWith base = false) : beginning t base = [] := by
  rw [beginning, List.filter_eq_nil_iff]
  intro e he
  simp [h e he]

/-- Two entries of the same content have the same beginnings. -/
theorem sameContents_beginning_singleton {a b : Entry} (h : a.content = b.content) (base : Bytes) :
    SameContents (beginning [a] base) (beginning [b] base) := by
  have hp : a.path = b.path := congrArg EntryContent.path h
  cases hb : b.path.beginsWith base with
  | true => simp [beginning, SameContents, hp, hb, h]
  | false => simp [beginning, SameContents, hp, hb]

/-- Where no path in which two tables differ has a beginning, the entries that have it are the same
in both. -/
theorem sameContents_of_changedPaths {old new : List Entry}
    (h : ∀ p ∈ CacheTree.changedPaths old new, p.beginsWith base = false) :
    SameContents (beginning old base) (beginning new base) := by
  fun_induction CacheTree.changedPaths old new with
  | case1 new =>
    rw [beginning_eq_nil (t := new) fun e he => h _ (List.mem_map_of_mem he)]
    simp [beginning]
  | case2 old _ =>
    rw [beginning_eq_nil (t := old) fun e he => h _ (List.mem_map_of_mem he)]
    simp [beginning]
  | case3 a old b new hc ih =>
    -- An entry of the old table alone: its path is named.
    have ha := h _ List.mem_cons_self
    have : beginning (a :: old) base = beginning old base := by simp [beginning, ha]
    rw [this]
    exact ih fun p hp => h p (List.mem_cons_of_mem _ hp)
  | case4 a old b new hc ih =>
    -- An entry of the new table alone: its path is named.
    have hb := h _ List.mem_cons_self
    have : beginning (b :: new) base = beginning new base := by simp [beginning, hb]
    rw [this]
    exact ih fun p hp => h p (List.mem_cons_of_mem _ hp)
  | case5 a old b new hc hs ih =>
    -- The same key and the same content: nothing is named, and nothing changes.
    exact (beginning_append [a] old base) ▸ (beginning_append [b] new base) ▸
      (sameContents_beginning_singleton (Entry.sameContent_iff.1 hs) base).append (ih h)
  | case6 a old b new hc hs ih =>
    -- The same key with another content: its path is named, and neither entry has the beginning.
    have hk : a.key = b.key := Std.LawfulEqOrd.eq_of_compare hc
    have hp : a.path = b.path := congrArg EntryKey.path hk
    have hb := h _ List.mem_cons_self
    have h₁ : beginning (a :: old) base = beginning old base := by simp [beginning, hp, hb]
    have h₂ : beginning (b :: new) base = beginning new base := by simp [beginning, hb]
    rw [h₁, h₂]
    exact ih fun p hp => h p (List.mem_cons_of_mem _ hp)

/-- Paths in which two tables differ are paths of one of them. -/
theorem mem_changedPaths {old new : List Entry} {p : Bytes}
    (h : p ∈ CacheTree.changedPaths old new) :
    (∃ e ∈ old, e.path = p) ∨ ∃ e ∈ new, e.path = p := by
  fun_induction CacheTree.changedPaths old new with
  | case1 new => exact Or.inr (List.mem_map.1 h)
  | case2 old _ => exact Or.inl (List.mem_map.1 h)
  | case3 a old b new hc ih =>
    rcases List.mem_cons.1 h with rfl | h
    · exact Or.inl ⟨a, by simp, rfl⟩
    · exact (ih h).imp_left fun ⟨e, he, hp⟩ => ⟨e, List.mem_cons_of_mem _ he, hp⟩
  | case4 a old b new hc ih =>
    rcases List.mem_cons.1 h with rfl | h
    · exact Or.inr ⟨b, by simp, rfl⟩
    · exact (ih h).imp_right fun ⟨e, he, hp⟩ => ⟨e, List.mem_cons_of_mem _ he, hp⟩
  | case5 a old b new hc hs ih =>
    exact (ih h).imp (fun ⟨e, he, hp⟩ => ⟨e, List.mem_cons_of_mem _ he, hp⟩)
      fun ⟨e, he, hp⟩ => ⟨e, List.mem_cons_of_mem _ he, hp⟩
  | case6 a old b new hc hs ih =>
    rcases List.mem_cons.1 h with rfl | h
    · exact Or.inr ⟨b, by simp, rfl⟩
    · exact (ih h).imp (fun ⟨e, he, hp⟩ => ⟨e, List.mem_cons_of_mem _ he, hp⟩)
        fun ⟨e, he, hp⟩ => ⟨e, List.mem_cons_of_mem _ he, hp⟩

/-- The paths that are named when two tables are compared are paths. -/
theorem Invariant.isValid_of_mem_changedPaths {old new : Table} (ho : old.Invariant)
    (hn : new.Invariant) {p : Bytes} (hp : p ∈ CacheTree.changedPaths old new) : Path.IsValid p := by
  rcases mem_changedPaths hp with ⟨e, he, rfl⟩ | ⟨e, he, rfl⟩
  · exact ho.valid e he
  · exact hn.valid e he

end Table

namespace Edit

variable {t : Table} {edits : List Edit} {base : Bytes}

/-- If more edits follow that add the same key, its path is touched by them. -/
theorem mem_touched_of_addsKey {e : Entry} (h : Table.IsSorted t)
    (ha : addsKey e.key edits = true) (hnone : ∀ o ∈ t, o.key ≠ e.key) :
    e.path ∈ (merge edits t).touched := by
  match edits, ha with
  | add f :: edits, ha =>
    simp only [addsKey, decide_eq_true_eq] at ha
    have hp : f.path = e.path := congrArg EntryKey.path ha
    have hgone : t.filter (takesOut (add f)) = [] := by
      rw [List.filter_eq_nil_iff]
      intro o ho
      simpa [takesOut, ha] using hnone o ho
    rw [merge_cons h, hgone]
    simp [touches, hp]

/-- An addition takes out one entry at most. -/
theorem filter_takesOut_add (h : Table.IsSorted t) (e : Entry) :
    t.filter (takesOut (add e)) = [] ∨
      ∃ o ∈ t, o.key = e.key ∧ t.filter (takesOut (add e)) = [o] := by
  have hs : Table.IsSorted (t.filter (takesOut (add e))) := h.sublist List.filter_sublist
  have hmem : ∀ o, o ∈ t.filter (takesOut (add e)) → o ∈ t ∧ o.key = e.key := by
    simp [takesOut]
  cases hf : t.filter (takesOut (add e)) with
  | nil => exact Or.inl rfl
  | cons o rest =>
    obtain ⟨ho, hk⟩ := hmem o (by simp [hf])
    cases rest with
    | nil => exact Or.inr ⟨o, ho, hk, rfl⟩
    | cons o' rest =>
      rw [hf] at hs
      -- Two entries of a sorted table do not have the same key.
      have hk' := (hmem o' (by simp [hf])).2
      have := takesOut_add_eq_false hs hk List.mem_cons_self
      simp [takesOut, hk'] at this

/-- Where no path that an edit touches has a beginning, what it takes out and what it puts in have
the same contents there, if the edits that follow do not put in the same key. -/
theorem sameContents_of_touches (h : Table.IsSorted t) (d : Edit)
    (hd : ∀ p ∈ d.touches (t.filter d.takesOut), p.beginsWith base = false)
    (hrest : ∀ p ∈ (merge edits (t.filter d.leaves)).touched, p.beginsWith base = false) :
    Table.SameContents (Table.beginning (t.filter d.takesOut) base)
      (Table.beginning (d.puts edits) base) := by
  have hremoval : (∀ o ∈ t.filter d.takesOut, o.path.beginsWith base = false) →
      d.puts edits = [] → Table.SameContents (Table.beginning (t.filter d.takesOut) base)
        (Table.beginning (d.puts edits) base) := by
    intro hgone hputs
    rw [Table.beginning_eq_nil hgone, hputs]
    rfl
  cases d with
  | remove p => exact hremoval (fun o ho => hd _ (List.mem_map_of_mem ho)) rfl
  | removeBelow b => exact hremoval (fun o ho => hd _ (List.mem_map_of_mem ho)) rfl
  | add e =>
    have hnone : ∀ o ∈ t.filter (leaves (add e)), o.key ≠ e.key := by
      intro o ho
      have := (List.mem_filter.1 ho).2
      simp only [leaves, takesOut, Bool.and_eq_true, Bool.not_eq_true',
        decide_eq_false_iff_not] at this
      exact this.2
    have hgone : ∀ o ∈ t.filter (takesOut (add e)), o.path = e.path := by
      intro o ho
      have hk : o.key = e.key := by
        simpa [takesOut] using (List.mem_filter.1 ho).2
      exact congrArg EntryKey.path hk
    cases ha : addsKey e.key edits with
    | true =>
      -- A later addition touches the path.
      have he := hrest _ (mem_touched_of_addsKey (isSorted_leaves h _) ha hnone)
      exact hremoval (fun o ho => (hgone o ho).symm ▸ he) (by simp [puts, ha])
    | false =>
      have hputs : puts (add e) edits = [e] := by simp [puts, ha]
      rw [hputs]
      -- The path is touched unless the entry that is taken out has the same content.
      by_cases hany : (t.filter (takesOut (add e))).any fun o => o.sameContent e
      · obtain ⟨o, ho, hoe⟩ := List.any_eq_true.1 hany
        rcases filter_takesOut_add h e with hf | ⟨o', -, -, hf⟩
        · simp [hf] at ho
        · rw [hf, List.mem_singleton] at ho
          rw [hf, ← ho]
          exact Table.sameContents_beginning_singleton (Entry.sameContent_iff.1 hoe) base
      · have he : e.path.beginsWith base = false := hd _ (by simp [touches, hany])
        rw [Table.beginning_eq_nil fun o ho => (hgone o ho).symm ▸ he,
          Table.beginning_eq_nil (t := [e]) (by simpa using he)]
        rfl

/-- Where no path that edits touch has a beginning, the entries that have it are the same
afterwards. -/
theorem sameContents_of_touched (h : Table.IsSorted t)
    (ht : ∀ p ∈ (merge edits t).touched, p.beginsWith base = false) :
    Table.SameContents (Table.beginning t base)
      (Table.beginning (merge edits t).entries base) := by
  induction edits generalizing t with
  | nil => exact Table.SameContents.refl _
  | cons d edits ih =>
    rw [merge_cons h] at ht ⊢
    simp only [List.mem_append] at ht
    have hrest : ∀ p ∈ (merge edits (t.filter d.leaves)).touched, p.beginsWith base = false :=
      fun p hp => ht p (Or.inr hp)
    have hstep := sameContents_of_touches h d (fun p hp => ht p (Or.inl hp)) hrest
    -- What stands before the edit stays, and what is left goes to the edits that follow.
    have hcut : Table.beginning t base = Table.beginning
        (t.filter d.passes ++ (t.filter d.takesOut ++ t.filter d.leaves)) base := by
      rw [filter_append_filter h d]
    rw [hcut]
    simp only [Table.beginning_append]
    exact (Table.SameContents.refl _).append (hstep.append (ih (isSorted_leaves h d) hrest))

/-- Paths that edits touch are paths of the table or of additions. -/
theorem mem_touched (h : Table.IsSorted t) {p : Bytes} (hp : p ∈ (merge edits t).touched) :
    (∃ e ∈ t, e.path = p) ∨ ∃ e, add e ∈ edits ∧ e.path = p := by
  induction edits generalizing t with
  | nil => simp [merge] at hp
  | cons d edits ih =>
    rw [merge_cons h] at hp
    rcases List.mem_append.1 hp with hp | hp
    · have hgone : p ∈ (t.filter d.takesOut).map (·.path) → ∃ e ∈ t, e.path = p := by
        intro hp
        obtain ⟨e, he, rfl⟩ := List.mem_map.1 hp
        exact ⟨e, (List.mem_filter.1 he).1, rfl⟩
      cases d with
      | add e =>
        simp only [touches] at hp
        split at hp
        · simp at hp
        · exact Or.inr ⟨e, by simp, (List.mem_singleton.1 hp).symm⟩
      | remove q => exact Or.inl (hgone hp)
      | removeBelow b => exact Or.inl (hgone hp)
    · rcases ih (isSorted_leaves h d) hp with ⟨e, he, hep⟩ | ⟨e, he, hep⟩
      · exact Or.inl ⟨e, (List.mem_filter.1 he).1, hep⟩
      · exact Or.inr ⟨e, List.mem_cons_of_mem _ he, hep⟩

/-- Paths that edits touch are paths, if all that is added has one. -/
theorem isValid_of_mem_touched (h : t.Invariant) (he : ∀ e, add e ∈ edits → Path.IsValid e.path)
    {p : Bytes} (hp : p ∈ (merge edits t).touched) : Path.IsValid p := by
  rcases mem_touched h.sorted hp with ⟨e, hm, rfl⟩ | ⟨e, hm, rfl⟩
  · exact h.valid e hm
  · exact he e hm

end Edit

/-! ## Forgetting enough -/

namespace Index

variable {ix ix' : Index}

/-- Every directory that is known after a change has the contents it had before. -/
def ForgetsEnough (before after : Index) : Prop :=
  after.cache.All (fun base n => n.known ≠ none →
    Table.SameContents (before.table.beginning base) (after.table.beginning base)) []

/-- The siblings of every directory are strictly sorted by name. -/
def InOrder (ix : Index) : Prop := ix.cache.All (fun _ n => n.SiblingsSorted) []

/-- Every directory has a name that paths can have between slashes. -/
def WellNamed (ix : Index) : Prop := ix.cache.All (fun _ n => n.WellNamed) []

/-- No directory has a name with a slash. -/
def SlashFree (ix : Index) : Prop := ix.cache.All (fun _ n => n.SlashFree) []

/-- Where directories have names that paths can have between slashes, none has a slash. -/
theorem WellNamed.slashFree (h : ix.WellNamed) : ix.SlashFree :=
  h.imp fun _ _ => CacheTree.WellNamed.slashFree

/-- What forgets along every path in which contents change forgets enough, if siblings are in
order. -/
theorem forgetsEnough_of_paths {paths : List Bytes} (hs : ix.InOrder) (hw : ix.SlashFree)
    (hp : ∀ p ∈ paths, Path.IsValid p) (hc : ix'.cache = ix.cache.invalidateAll paths)
    (hsame : ∀ base, (∀ p ∈ paths, p.beginsWith base = false) →
      Table.SameContents (ix.table.beginning base) (ix'.table.beginning base)) :
    ForgetsEnough ix ix' := by
  have hreach := CacheTree.invalidateAll_reaches hp hs hw
  rw [ForgetsEnough, hc]
  refine (CacheTree.all_forall hreach).imp ?_
  intro b n hn hk
  exact hsame b fun p hp => hn p hp hk

/-- A batch forgets enough if siblings are in order. -/
theorem forgetsEnough_of_replace {b : Batch} (ht : Table.Invariant ix.table) (hs : ix.InOrder)
    (hw : ix.SlashFree) (h : ix.replace b = .ok ix') : ForgetsEnough ix ix' := by
  obtain ⟨t, hn, rfl⟩ := Check.map_eq_ok.1 h
  have ht' := Table.normalize_invariant hn
  exact forgetsEnough_of_paths hs hw (fun p => ht.isValid_of_mem_changedPaths ht') rfl
    fun base => Table.sameContents_of_changedPaths

/-- Edits forget enough if siblings are in order. -/
theorem forgetsEnough_of_edit {edits : List Edit} (ht : Table.Invariant ix.table) (hs : ix.InOrder)
    (hw : ix.SlashFree) (h : ix.edit edits = .ok ix') : ForgetsEnough ix ix' := by
  obtain ⟨m, hm, rfl⟩ := Check.map_eq_ok.1 h
  obtain ⟨hpaths, rfl, -⟩ := Edit.apply_eq_ok hm
  have hsorted : ∀ e, .add e ∈ Edit.sorted edits → Path.IsValid e.path := fun e he =>
    hpaths e (Edit.mem_sorted.1 he)
  exact forgetsEnough_of_paths hs hw (fun p => Edit.isValid_of_mem_touched ht hsorted) rfl
    fun base => Edit.sameContents_of_touched ht.sorted

end Index

end StagingIndex
