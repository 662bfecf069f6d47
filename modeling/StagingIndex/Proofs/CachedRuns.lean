import Mathlib
import StagingIndex.Proofs.CacheOrder
import StagingIndex.Proofs.Runs

/-! # Materializing in runs

Batches, edits and materializing in any order, with a database that refuses what it likes, keep the
cache tree right as long as every change forgets enough. Changes do while siblings are in order; the
order is lost where materializing fails within a subdirectory, and a change that is made then may
miss directories it should forget.

* `Session.Sound` — what is kept: what is known is right, has proper names, and is in order
* `Session.perform_sound` — every call that forgets enough keeps it
* `Session.forgetsEnough_of_materializes` — in a run in which materializing never fails all calls do
* `Session.writeTree_eq_update` — materializing gives what an empty cache tree would give
* `Session.writeTree_ne_update` — a run in which it does not -/

namespace StagingIndex

/-- Calls that stay away from files and stored trees: changes of the table, a version that is asked
for, and materializing. -/
def Call.isPlain {σ : Type} : Call σ → Bool
  | replace _ => true
  | edit _ => true
  | setVersion _ => true
  | writeTree => true
  | _ => false

/-- What holds of batches, edits, versions that are asked for and materializing holds of every plain
call. -/
theorem Call.isPlain_cases {σ : Type} {motive : (c : Call σ) → c.isPlain = true → Prop}
    (replace : ∀ batch, motive (.replace batch) rfl) (edit : ∀ edits, motive (.edit edits) rfl)
    (setVersion : ∀ version, motive (.setVersion version) rfl)
    (writeTree : motive .writeTree rfl) (c : Call σ) (hc : c.isPlain = true) : motive c hc := by
  cases c with
  | replace batch => exact replace batch
  | edit edits => exact edit edits
  | setVersion version => exact setVersion version
  | writeTree => exact writeTree
  | readTree id => cases hc
  | read => cases hc
  | lock now => cases hc
  | write lock now => cases hc
  | spoiledWrite now fault => cases hc
  | commit written => cases hc
  | unlock => cases hc
  | meanwhile database disk => cases hc

/-- No path is in conflict if every entry is merged. -/
theorem Table.conflictPaths_eq_nil_iff {t : Table} :
    t.conflictPaths = [] ↔ ∀ e ∈ t, e.stage = .merged := by
  rw [List.eq_nil_iff_forall_not_mem]
  simp only [conflictPaths, mem_dedup, List.mem_map, List.mem_filter, not_exists, not_and,
    Stage.isConflict, decide_eq_true_eq, ne_eq]
  constructor
  · intro h e he
    by_contra hne
    exact h e.path e ⟨he, hne⟩ rfl
  · intro h p e he
    exact absurd (h e he.1) he.2

namespace Index

/-- What a directory is known to be stays right when it is forgotten. -/
theorem truthful_kept (t : Table) : CacheTree.KeptByForgetting (CacheTree.Truthful t) :=
  fun _ _ _ _ _ _ _ => CacheTree.truthful_of_none rfl

/-- Where the table stays, every call forgets enough. -/
theorem forgetsEnough_of_table {ix ix' : Index} (h : ix'.table = ix.table) :
    ForgetsEnough ix ix' := by
  refine CacheTree.all_of_isPrefix fun b n _ _ => ?_
  rw [h]
  exact Table.SameContents.refl _

/-- The table satisfies its conditions, what directories are known to be is right, and names and the
order of what is known are as they should be. -/
structure Sound (ix : Index) : Prop where
  invariant : ix.table.Invariant
  truthful : ix.cache.All (CacheTree.Truthful ix.table) []
  wellNamed : ix.WellNamed
  settled : ix.cache.All CacheTree.Settled []

/-- A new index is sound. -/
theorem new_sound (path : Bytes) (settings : Settings) : (new path settings).Sound where
  invariant := Table.invariant_nil
  truthful := CacheTree.all_unknown (CacheTree.truthful_of_none rfl)
  wellNamed := CacheTree.all_unknown (by simp [CacheTree.WellNamed, CacheTree.unknown])
  settled := CacheTree.all_unknown (CacheTree.settled_of_none rfl)

/-- A new index has no siblings. -/
theorem new_inOrder (path : Bytes) (settings : Settings) : (new path settings).InOrder :=
  CacheTree.all_unknown List.Pairwise.nil

variable {σ : Type} [ObjectDatabase σ] {ix ix' : Index} {s : σ}

/-- A change that forgets enough keeps an index sound. -/
theorem Sound.of_forgetsEnough (h : ix.Sound) {paths : List Bytes} (ht : ix'.table.Invariant)
    (hc : ix'.cache = ix.cache.invalidateAll paths) (hf : ForgetsEnough ix ix') : ix'.Sound where
  invariant := ht
  truthful := by
    -- What a node knows was right for the old table, and it is known only where nothing changed.
    have hold := CacheTree.all_invalidateAll (truthful_kept ix.table) h.truthful paths
    rw [← hc] at hold
    refine (hold.and hf).imp ?_
    rintro b n ⟨hright, hsame⟩ k hk
    rw [hright k hk]
    exact Table.exact_congr (hsame (by simp [hk])) b
  wellNamed := by
    rw [WellNamed, hc]
    exact CacheTree.all_invalidateAll CacheTree.wellNamed_kept h.wellNamed paths
  settled := by
    rw [hc]
    exact CacheTree.all_invalidateAll CacheTree.settled_kept h.settled paths

/-- Materializing keeps an index sound, whatever the database refuses. -/
theorem Sound.writeTree [NamesListings σ] (h : ix.Sound) (s : σ) : (ix.writeTree s).1.Sound := by
  rw [Index.writeTree]
  split
  · obtain ⟨htruthful, -⟩ := CacheTree.materialize_right h.invariant.sorted h.truthful s
    obtain ⟨hnamed, hsettled, -⟩ := CacheTree.materialize_order h.invariant.sorted
      h.invariant.valid h.wellNamed h.settled s
    exact ⟨h.invariant, htruthful, hnamed, hsettled⟩
  · exact h

/-- Materializing puts everything in order if it succeeds. -/
theorem Sound.writeTree_inOrder [NamesListings σ] (h : ix.Sound) {s : σ} {id : ObjectId}
    (hok : (ix.writeTree s).2.2 = .ok id) : (ix.writeTree s).1.InOrder := by
  rw [Index.writeTree] at hok ⊢
  split at hok
  · rename_i hconf
    rw [CacheTree.update_eq_map] at hok
    obtain ⟨k, hk, -⟩ := Check.map_eq_ok.1 hok
    obtain ⟨-, -, horder⟩ := CacheTree.materialize_order h.invariant.sorted h.invariant.valid
      h.wellNamed h.settled s
    rw [if_pos hconf]
    exact horder k hk
  · cases hok

/-- Materializing a sound index succeeds if no path is in conflict and the database accepts
everything from now on. -/
theorem Sound.writeTree_isOk [NamesListings σ] (h : ix.Sound) {P : σ → Prop} (hP : AcceptsFrom P)
    (hm : ∀ e ∈ ix.table, e.stage = .merged) (hs : P s) :
    (ix.writeTree s).2.2 = .ok (Table.exact [] ix.table).id := by
  rw [Index.writeTree, if_pos (Table.conflictPaths_eq_nil_iff.2 hm)]
  exact CacheTree.update_isOk hP h.invariant.sorted hm h.truthful hs

/-- What materializing a sound index gives, an empty cache tree gives as well. -/
theorem Sound.writeTree_eq [NamesListings σ] (h : ix.Sound) {s : σ} {id : ObjectId}
    (hok : (ix.writeTree s).2.2 = .ok id) {τ : Type} [ObjectDatabase τ] [AcceptsListings τ]
    (fresh : τ) : (CacheTree.empty.update ix.table fresh).2.2 = .ok id := by
  rw [Index.writeTree] at hok
  split at hok
  · rename_i hconf
    rw [CacheTree.update_eq_exact h.invariant.sorted h.truthful hok]
    exact CacheTree.update_isOk acceptsFrom_true h.invariant.sorted
      (Table.conflictPaths_eq_nil_iff.1 hconf)
      (CacheTree.all_unknown (CacheTree.truthful_of_none rfl)) trivial
  · cases hok

end Index

namespace Session

variable {σ : Type} [ObjectDatabase σ] {s : Session σ}

/-- Every call of a run forgets enough. -/
def ForgetsEnough (s : Session σ) : List (Call σ) → Prop
  | [] => True
  | c :: calls =>
    Index.ForgetsEnough s.index (s.perform c).1.index ∧ (s.perform c).1.ForgetsEnough calls

/-- A plain call but materializing changes the version, the table and what the cache tree forgets,
if it changes anything. -/
theorem perform_eq_of_isPlain (s : Session σ) {c : Call σ} (hc : c.isPlain = true) :
    c = .writeTree ∨ ∃ version table paths, (s.perform c).1.index =
      { s.index with version, table, cache := s.index.cache.invalidateAll paths } := by
  cases c, hc using Call.isPlain_cases with
  | replace batch =>
    refine Or.inr ?_
    simp only [perform]
    cases hr : s.index.replace batch with
    | error e => exact ⟨_, _, [], rfl⟩
    | ok ix =>
      obtain ⟨t, -, rfl⟩ := Check.map_eq_ok.1 hr
      exact ⟨_, _, _, rfl⟩
  | edit edits =>
    refine Or.inr ?_
    simp only [perform]
    cases hr : s.index.edit edits with
    | error e => exact ⟨_, _, [], rfl⟩
    | ok ix =>
      obtain ⟨m, -, rfl⟩ := Check.map_eq_ok.1 hr
      exact ⟨_, _, _, rfl⟩
  | setVersion version => exact Or.inr ⟨version, _, [], rfl⟩
  | writeTree => exact Or.inl rfl

/-- A call that forgets enough keeps an index sound. -/
theorem perform_sound [NamesListings σ] (h : s.index.Sound) {c : Call σ} (hc : c.isPlain = true)
    (hf : Index.ForgetsEnough s.index (s.perform c).1.index) : (s.perform c).1.index.Sound := by
  have ht := perform_invariant h.invariant c
  rcases s.perform_eq_of_isPlain hc with rfl | ⟨version, table, paths, hindex⟩
  · exact h.writeTree s.database
  · exact h.of_forgetsEnough ht (congrArg Index.cache hindex) hf

/-- A run that forgets enough keeps an index sound. -/
theorem run_sound [NamesListings σ] (h : s.index.Sound) {calls : List (Call σ)}
    (hc : ∀ c ∈ calls, c.isPlain = true) (hf : s.ForgetsEnough calls) :
    (s.run calls).index.Sound := by
  induction calls generalizing s with
  | nil => exact h
  | cons c calls ih =>
    exact ih (perform_sound h (hc c (by simp)) hf.1) (fun d hd => hc d (List.mem_cons_of_mem _ hd))
      hf.2

/-- Where siblings are in order, every call forgets enough. -/
theorem forgetsEnough_of_inOrder (h : s.index.Sound) (ho : s.index.InOrder) {c : Call σ}
    (hc : c.isPlain = true) : Index.ForgetsEnough s.index (s.perform c).1.index := by
  have htable : ∀ e, (s.perform c).2 = .error e →
      Index.ForgetsEnough s.index (s.perform c).1.index := by
    intro e he
    -- A call that fails leaves the table alone.
    refine Index.forgetsEnough_of_table (table_of_perform_error ?_ he)
    cases c <;> first | rfl | cases hc
  cases c, hc using Call.isPlain_cases with
  | replace batch =>
    simp only [perform] at htable ⊢
    cases hr : s.index.replace batch with
    | error e => exact hr ▸ htable e (by rw [hr]; rfl)
    | ok ix => exact Index.forgetsEnough_of_replace h.invariant ho h.wellNamed.slashFree hr
  | edit edits =>
    simp only [perform] at htable ⊢
    cases hr : s.index.edit edits with
    | error e => exact hr ▸ htable e (by rw [hr]; rfl)
    | ok ix => exact Index.forgetsEnough_of_edit h.invariant ho h.wellNamed.slashFree hr
  | setVersion version => exact Index.forgetsEnough_of_table rfl
  | writeTree => exact Index.forgetsEnough_of_table (Index.table_writeTree s.database)

/-- Where siblings are in order, they are in order after every plain call but materializing. -/
theorem perform_inOrder_of_ne (ho : s.index.InOrder) {c : Call σ} (hc : c.isPlain = true)
    (hne : c ≠ .writeTree) : (s.perform c).1.index.InOrder := by
  obtain ⟨version, table, paths, hindex⟩ := (s.perform_eq_of_isPlain hc).resolve_left hne
  rw [hindex]
  exact CacheTree.all_invalidateAll CacheTree.siblingsSorted_kept ho paths

/-- Where siblings are in order, they are in order after every call but one that fails to
materialize. -/
theorem perform_inOrder [NamesListings σ] (h : s.index.Sound) (ho : s.index.InOrder) {c : Call σ}
    (hc : c.isPlain = true) (hok : (s.perform c).2 = .ok ()) : (s.perform c).1.index.InOrder := by
  by_cases hw : c = .writeTree
  · subst hw
    obtain ⟨id, hid, -⟩ := Check.map_eq_ok.1 hok
    exact h.writeTree_inOrder hid
  · exact perform_inOrder_of_ne ho hc hw

/-- Every call of a run that materializes succeeds. -/
def Materializes (s : Session σ) : List (Call σ) → Prop
  | [] => True
  | c :: calls => (c = .writeTree → (s.perform c).2 = .ok ()) ∧ (s.perform c).1.Materializes calls

/-- A run in which materializing never fails forgets enough, as siblings stay in order. -/
theorem Materializes.forgetsEnough [NamesListings σ] (h : s.index.Sound) (ho : s.index.InOrder)
    {calls : List (Call σ)} (hc : ∀ c ∈ calls, c.isPlain = true) (hm : s.Materializes calls) :
    s.ForgetsEnough calls := by
  induction calls generalizing s with
  | nil => trivial
  | cons c calls ih =>
    obtain ⟨hplain, hplains⟩ := List.forall_mem_cons.1 hc
    have hforgets := forgetsEnough_of_inOrder h ho hplain
    have horder : (s.perform c).1.index.InOrder := by
      by_cases hw : c = .writeTree
      · exact perform_inOrder h ho hplain (hm.1 hw)
      · exact perform_inOrder_of_ne ho hplain hw
    exact ⟨hforgets, ih (perform_sound h hplain hforgets) horder hplains hm.2⟩

/-- A plain run from a new index in which materializing never fails forgets enough. -/
theorem forgetsEnough_of_materializes [NamesListings σ] (path : Bytes) (settings : Settings)
    (database : σ) (disk : Disk) {calls : List (Call σ)} (hc : ∀ c ∈ calls, c.isPlain = true)
    (hm : (start path settings database disk).Materializes calls) :
    (start path settings database disk).ForgetsEnough calls :=
  hm.forgetsEnough (Index.new_sound path settings) (Index.new_inOrder path settings) hc

/-- In every run of batches, edits and materializing of which each call forgets enough, with a
database that refuses what it likes: materializing gives what it gives with an empty cache tree and
a database that accepts everything. A call forgets enough if siblings are in order, and they are
after materializing has succeeded. -/
theorem writeTree_eq_update [NamesListings σ] {τ : Type} [ObjectDatabase τ] [AcceptsListings τ]
    (path : Bytes) (settings : Settings) (database : σ) (disk : Disk) (fresh : τ)
    (calls : List (Call σ)) (hplain : ∀ c ∈ calls, c.isPlain = true)
    (hforget : (start path settings database disk).ForgetsEnough calls) :
    (∀ id,
      (((start path settings database disk).run calls).index.writeTree
          ((start path settings database disk).run calls).database).2.2 = .ok id →
        (CacheTree.empty.update ((start path settings database disk).run calls).index.table
          fresh).2.2 = .ok id ∧
        (((start path settings database disk).run calls).index.writeTree
          ((start path settings database disk).run calls).database).1.InOrder) ∧
      (((start path settings database disk).run calls).index.InOrder →
        ∀ c : Call σ, c.isPlain = true →
          Index.ForgetsEnough ((start path settings database disk).run calls).index
            (((start path settings database disk).run calls).perform c).1.index ∧
          ((((start path settings database disk).run calls).perform c).2 = .ok () →
            (((start path settings database disk).run calls).perform c).1.index.InOrder)) := by
  have hs := run_sound (Index.new_sound path settings) hplain hforget
  refine ⟨fun id hid => ⟨hs.writeTree_eq hid fresh, hs.writeTree_inOrder hid⟩, ?_⟩
  intro ho c hc
  exact ⟨forgetsEnough_of_inOrder hs ho hc, perform_inOrder hs ho hc⟩

/-- A file that records nothing but its path, and whether it is only meant to be added. -/
def placeholder (path : Bytes) (intentToAdd : Bool) : Entry :=
  { Entry.bare path .merged .regular .null with flags := ⟨false, false, intentToAdd⟩ }

/-- A file `a/x`. -/
def oneFile : Table := [placeholder [0x61, 0x2f, 0x78] false]

/-- A file `b/y` beside it. -/
def oneMoreFile : Entry := placeholder [0x62, 0x2f, 0x79] false

/-- The file `a/x` is staged and materialized, `b/y` is added, and materializing is refused at `b`. -/
def refusedCalls : List (Call RefusingLog) :=
  [.replace ⟨oneFile⟩, .writeTree, .edit [.add oneMoreFile], .writeTree]

/-- A new index with a database that refuses the third listing. -/
def refusedStart : Session RefusingLog := start [] .standard ⟨[2], 0⟩ .vacant

/-- The session where the directory `a` is known, and perhaps the root. -/
def reusing (t : Table) (root : Option CacheTree.Known) (id : ObjectId) (offered : Nat) :
    Session RefusingLog :=
  { refusedStart with
    index := { Index.new [] .standard with
      table := t
      cache := .node [] root [.node [0x61] (some ⟨1, id⟩) []] }
    database := ⟨[2], offered⟩ }

/-- Materializing the file stores the listings of `a` and of the root. -/
theorem perform_oneFile : ∃ id root,
    (refusedStart.perform (.replace ⟨oneFile⟩)).1.perform .writeTree =
      (reusing oneFile (some ⟨1, root⟩) id 2, .ok ()) := by
  have hpath : (placeholder [0x61, 0x2f, 0x78] false).path.afterPrefix? [] =
      some ([0x61] ++ Bytes.slash :: [0x78]) := rfl
  have hlist : CacheTree.list [] oneFile [0x61, 0x2f] (⟨[2], 0⟩ : RefusingLog) =
      ([], ⟨[2], 0⟩, .ok ([⟨.regular, [0x78], .null⟩], 1)) := by
    cbv
  have hroot := CacheTree.list_unknown hpath rfl (by decide) (CacheTree.takeChild_nil [0x61]) hlist
    rfl
  rw [List.drop_nil, CacheTree.list_nil] at hroot
  have hupdate : ∃ id root, CacheTree.empty.materialize oneFile [] (⟨[2], 0⟩ : RefusingLog) =
      (.node [] (some ⟨1, root⟩) [.node [0x61] (some ⟨1, id⟩) []], ⟨[2], 2⟩, .ok ⟨1, root⟩) := by
    have hstored := CacheTree.materialize_unknown [] hroot rfl
    rw [CacheTree.sortByName, CacheTree.sortByName, List.mergeSort_singleton,
      List.mergeSort_nil] at hstored
    exact ⟨_, _, hstored⟩
  obtain ⟨id, root, hupdate⟩ := hupdate
  have hreplace : (refusedStart.perform (.replace ⟨oneFile⟩)).1 =
      { refusedStart with index := { Index.new [] .standard with table := oneFile } } := by
    cbv
  have hconf : Table.conflictPaths oneFile = [] := by decide
  refine ⟨id, root, ?_⟩
  rw [hreplace]
  simp only [perform, Index.writeTree, refusedStart, start, Index.new, hconf, if_true,
    CacheTree.update_eq_map, hupdate]
  rfl

/-- The refused listing of `b` leaves what is known of `a`. -/
theorem run_refusedCalls : ∃ id, refusedStart.run refusedCalls =
    reusing (oneFile ++ [oneMoreFile]) none id 3 := by
  obtain ⟨id, root, hfirst⟩ := perform_oneFile
  refine ⟨id, ?_⟩
  rw [refusedCalls, run_cons, run_cons, hfirst]
  cbv

/-- The directory `a` stays known, and with it materializing gives what it gives with an empty cache
tree. -/
theorem writeTree_eq_update_of_refused :
    (∀ c ∈ refusedCalls, c.isPlain = true) ∧ refusedStart.ForgetsEnough refusedCalls ∧
      (∃ n, (refusedStart.run refusedCalls).index.cache.find [0x61] = some n ∧ n.known ≠ none) ∧
      ∃ id, ((refusedStart.run refusedCalls).index.writeTree
          (refusedStart.run refusedCalls).database).2.2 = .ok id ∧
        (CacheTree.empty.update (refusedStart.run refusedCalls).index.table
          (TreeLog.mk [])).2.2 = .ok id := by
  have hplain : ∀ c ∈ refusedCalls, c.isPlain = true := by decide
  have hforget : refusedStart.ForgetsEnough refusedCalls := by
    obtain ⟨id, root, hfirst⟩ := perform_oneFile
    -- All calls but the last one forget enough, as materializing does not fail before.
    have hok : refusedStart.Materializes (refusedCalls.take 3) :=
      ⟨nofun, fun _ => congrArg Prod.snd hfirst, nofun, trivial⟩
    obtain ⟨hreplace, hwrite, hedit, -⟩ := forgetsEnough_of_materializes [] .standard _ _
      (fun c hc => hplain c (List.mem_of_mem_take hc)) hok
    exact ⟨hreplace, hwrite, hedit, Index.forgetsEnough_of_table (Index.table_writeTree _), trivial⟩
  obtain ⟨id, hrun⟩ := run_refusedCalls
  have hs := run_sound (Index.new_sound [] .standard) hplain hforget
  have hmerged : ∀ e ∈ oneFile ++ [oneMoreFile], e.stage = .merged := by decide
  have hok := hs.writeTree_isOk RefusingLog.acceptsFrom (s := (refusedStart.run refusedCalls).database)
    (by rw [hrun]; exact hmerged) (by rw [hrun]; simp [reusing])
  refine ⟨hplain, hforget, ?_, _, hok,
    ((writeTree_eq_update [] .standard _ _ (TreeLog.mk []) refusedCalls hplain hforget).1 _ hok).1⟩
  rw [hrun]
  exact ⟨.node [0x61] (some ⟨1, id⟩) [], by cbv, Option.some_ne_none _⟩

/-! ## A run that forgets too little -/

/-- In each of the directories `A`, `a-`, `a` and `b` a file `x` that is only meant to be added, the
one in `a` perhaps in earnest. -/
def staleFiles (intentToAdd : Bool) : Table :=
  [placeholder [0x41, 0x2f, 0x78] true, placeholder [0x61, 0x2d, 0x2f, 0x78] true,
    placeholder [0x61, 0x2f, 0x78] intentToAdd, placeholder [0x62, 0x2f, 0x78] true]

/-- The files are staged, materializing is refused at `b`, and then `a/x` is added in earnest. Below
the root `a-` stands before `a`, which is not the order of their names, and `a` is not found. -/
def staleCalls : List (Call RefusingLog) :=
  [.replace ⟨staleFiles true⟩, .writeTree, .edit [.add (placeholder [0x61, 0x2f, 0x78] false)]]

/-- The session after these calls, with a database that refuses the fourth listing. -/
def staleRun : Session RefusingLog :=
  (start [] .standard ⟨[3], 0⟩ .vacant).run staleCalls

/-- What edits make of the table depends on the table alone. -/
theorem table_perform_edit (s : Session σ) (edits : List Edit) :
    (s.perform (.edit edits)).1.index.table =
      ((Edit.apply edits s.index.table).map (·.entries)).toOption.getD s.index.table := by
  simp only [perform, Index.edit]
  cases Edit.apply edits s.index.table with
  | error e => rfl
  | ok m => rfl

/-- The file that was added in earnest is in the table. -/
theorem table_staleRun : staleRun.index.table = staleFiles false := by
  have hreplaced :
      ((start [] .standard (⟨[3], 0⟩ : RefusingLog) .vacant).perform
        (.replace ⟨staleFiles true⟩)).1.index.table = staleFiles true := by
    cbv
  have hwritten : ∀ s : Session RefusingLog, (s.perform .writeTree).1.index.table =
      s.index.table := fun s => Index.table_writeTree s.database
  rw [staleRun, staleCalls, run_cons, run_cons, run_cons, run_nil, table_perform_edit, hwritten,
    hreplaced]
  cbv

/-- The items of a directory with one file `x`. -/
def placeholderItems (intentToAdd : Bool) : List TreeItem :=
  if intentToAdd then [] else [⟨.regular, [0x78], .null⟩]

/-- A directory with one file `x` is listed by its name, unless its own listing is empty. -/
theorem listing_placeholder (name : Bytes) (es : List Entry) (intentToAdd : Bool)
    (hn : Bytes.slash ∉ name)
    (hes : ∀ o ∈ es.head?, o.path.beginsWith (Bytes.below [] name) = false) :
    Table.listing [] (placeholder (Bytes.below [] name ++ [0x78]) intentToAdd :: es) =
      CacheTree.subtreeItem name ⟨1, (Tree.ofList (placeholderItems intentToAdd)).id⟩ ++
        Table.listing [] es := by
  have hp : (placeholder (Bytes.below [] name ++ [0x78]) intentToAdd).path.afterPrefix? [] =
      some (name ++ Bytes.slash :: [0x78]) := by
    simp [placeholder, Entry.bare, Bytes.below]
  have hfile : (placeholder (Bytes.below [] name ++ [0x78]) intentToAdd).path.afterPrefix?
      (Bytes.below [] name) = some [0x78] := Bytes.afterPrefix?_eq_some_iff.2 rfl
  have htake : es.takeWhile (fun o => o.path.beginsWith (Bytes.below [] name)) = [] := by
    cases es with
    | nil => rfl
    | cons o es => simp [hes o rfl]
  have hdrop : es.dropWhile (fun o => o.path.beginsWith (Bytes.below [] name)) = es := by
    cases es with
    | nil => rfl
    | cons o es => simp [hes o rfl]
  have hitems : CacheTree.fileItem [0x78]
      (placeholder (Bytes.below [] name ++ [0x78]) intentToAdd) = placeholderItems intentToAdd := by
    cases intentToAdd <;> rfl
  rw [Table.listing_subtree hp hn, hdrop,
    List.takeWhile_cons_of_pos (by simpa using Table.beginsWith_below hp), htake, Table.exact,
    Table.listing_file hfile rfl, Table.listing_nil, List.append_nil, hitems]
  rfl

/-- The directory `a` is the only one that is listed. -/
theorem listing_staleFiles :
    Table.listing [] (staleFiles false) =
      [⟨.directory, [0x61], (Tree.ofList (placeholderItems false)).id⟩] := by
  have hempty : ∀ name, CacheTree.subtreeItem name
      ⟨1, (Tree.ofList (placeholderItems true)).id⟩ = [] := by
    intro name
    have : Tree.ofList (placeholderItems true) = Tree.empty := by
      simp [Tree.ofList, placeholderItems, Tree.empty]
    exact if_pos (congrArg Tree.id this)
  have hshown : CacheTree.subtreeItem [0x61] ⟨1, (Tree.ofList (placeholderItems false)).id⟩ =
      [⟨.directory, [0x61], (Tree.ofList (placeholderItems false)).id⟩] := by
    rw [CacheTree.subtreeItem, if_neg (by decide +kernel)]
  have hA := listing_placeholder [0x41] (staleFiles false).tail true (by decide) (by decide)
  have hdash := listing_placeholder [0x61, 0x2d] (staleFiles false).tail.tail true (by decide)
    (by decide)
  have ha := listing_placeholder [0x61] (staleFiles false).tail.tail.tail false (by decide)
    (by decide)
  have hb := listing_placeholder [0x62] [] true (by decide) (by decide)
  rw [hempty, List.nil_append] at hA hdash hb
  rw [hshown] at ha
  exact hA.trans (hdash.trans (ha.trans (congrArg _ (hb.trans (Table.listing_nil [])))))

/-- Materializing gives the tree of an empty directory, as if `a/x` were still only meant to be
added; with an empty cache tree it gives another one. -/
theorem writeTree_ne_update :
    (∀ c ∈ staleCalls, c.isPlain = true) ∧
      (staleRun.index.writeTree staleRun.database).2.2 = .ok Tree.empty.id ∧
      (CacheTree.empty.update staleRun.index.table (TreeLog.mk [])).2.2 ≠
        .ok Tree.empty.id := by
  refine ⟨by decide, by cbv, ?_⟩
  have hs : Table.IsSorted staleRun.index.table :=
    (run_keeps_invariant Table.invariant_nil staleCalls).sorted
  have hm : ∀ e ∈ staleRun.index.table, e.stage = .merged := by
    rw [table_staleRun]
    decide
  have hupdate := CacheTree.update_isOk acceptsFrom_true hs hm (t := .empty)
    (CacheTree.all_unknown (CacheTree.truthful_of_none rfl)) (s := TreeLog.mk []) trivial
  -- What remains is to compare the trees of two short listings.
  rw [hupdate, table_staleRun, Table.exact, listing_staleFiles]
  decide +kernel

end Session

end StagingIndex
