import Mathlib
import StagingIndex.Proofs.CountedNodes
import StagingIndex.Proofs.Reopening
import StagingIndex.Proofs.Rewriting

/-! # Materializing fails on conflicts only

A file may bring a cache tree with any counts that its reader accepts. They stay right where paths can
lead, through batches, edits and materializing, whatever else is done with the files, as long as the
database refuses nothing. So a count is never found wrong, and conflicts are the only failure.

* `Index.Fit` — what is kept: a table that satisfies its conditions, and nodes that fit it
* `Index.FailsOnConflicts` — what materializing does
* `Session.perform_fit` — every call but reading a stored tree keeps it
* `Session.failsOnConflicts_of_run` — so materializing does this after every run of such calls -/

namespace StagingIndex

/-! ## Paths in conflict -/

namespace Table

variable {t : Table}

/-- Paths that never go back are increasing once each is left out that equals the one before. -/
theorem pairwise_dedup {ps : List Bytes} (h : ps.Pairwise fun a b => (compare a b).isLE = true) :
    (dedup ps).Pairwise fun a b => compare a b = .lt := by
  fun_induction dedup ps with
  | case1 q ps ih => exact ih (List.pairwise_cons.1 h).2
  | case2 p q ps hne ih =>
    obtain ⟨hp, hq⟩ := List.pairwise_cons.1 h
    refine List.pairwise_cons.2 ⟨fun r hr => ?_, ih hq⟩
    have hpq : compare p q = .lt := compare_eq_lt_of_ne (hp q List.mem_cons_self) hne
    rcases List.mem_cons.1 (mem_dedup.1 hr) with rfl | hr
    · exact hpq
    · exact Std.TransCmp.lt_of_lt_of_isLE hpq ((List.pairwise_cons.1 hq).1 r hr)
  | case3 ps hps =>
    rcases ps with _ | ⟨p, _ | ⟨q, ps⟩⟩
    · exact List.Pairwise.nil
    · exact List.pairwise_singleton _ _
    · exact absurd rfl (hps p q ps)

/-- The paths in conflict are increasing. -/
theorem pairwise_conflictPaths (h : IsSorted t) :
    t.conflictPaths.Pairwise fun a b => compare a b = .lt := by
  have hs : IsSorted (t.filter (·.stage.isConflict)) := h.sublist List.filter_sublist
  exact pairwise_dedup (List.pairwise_map.2 hs.pairwise_path)

/-- The paths in conflict are those of entries that are not merged. -/
theorem mem_conflictPaths {p : Bytes} :
    p ∈ t.conflictPaths ↔ ∃ e ∈ t, e.stage ≠ .merged ∧ e.path = p := by
  simp [conflictPaths, Stage.isConflict, and_assoc]

end Table

namespace Index

open Bytes (Opens)

variable {W : Bytes → Prop} {ix ix' : Index}

/-- The table satisfies its conditions, and every node of the cache tree fits it. -/
structure Fit (W : Bytes → Prop) (ix : Index) : Prop where
  invariant : ix.table.Invariant
  fits : ix.cache.All (CacheTree.Fits W ix.table) []

/-- A new index is fit. -/
theorem new_fit (path : Bytes) (settings : Settings) : (new path settings).Fit W where
  invariant := Table.invariant_nil
  fits := CacheTree.all_unknown (CacheTree.fits_unknown [])

/-! ## Changes -/

/-- Another table below whose directories there are as many entries is as fit. -/
theorem Fit.of_lengths (h : ix.Fit W) (ht : ix'.table.Invariant) (hc : ix'.cache = ix.cache)
    (hl : ∀ base, (ix'.table.beginning base).length = (ix.table.beginning base).length) :
    ix'.Fit W where
  invariant := ht
  fits := by
    rw [hc]
    refine h.fits.imp fun b n hfits => ⟨hfits.toShaped, fun hw k hk => ?_⟩
    rw [hfits.counted hw k hk, hl b]

/-- A change that forgets enough keeps an index fit. -/
theorem Fit.of_forgetsEnough (h : ix.Fit W) {paths : List Bytes} (ht : ix'.table.Invariant)
    (hc : ix'.cache = ix.cache.invalidateAll paths) (hf : ForgetsEnough ix ix') : ix'.Fit W where
  invariant := ht
  fits := by
    -- A count was right for the old table, and is known only where nothing changed.
    have hold := CacheTree.all_invalidateAll CacheTree.fits_kept h.fits paths
    rw [← hc] at hold
    refine (hold.and hf).imp fun b n ⟨hfits, hsame⟩ => ⟨hfits.toShaped, fun hw k hk => ?_⟩
    rw [hfits.counted hw k hk]
    exact (hsame (by simp [hk])).length_eq

/-- Where nodes fit, siblings are in order. -/
theorem Fit.inOrder (h : ix.Fit W) : ix.InOrder := h.fits.imp fun _ _ hfits => hfits.sorted

/-- Where nodes fit, no name has a slash. -/
theorem Fit.slashFree (h : ix.Fit W) : ix.SlashFree := h.fits.imp fun _ _ hfits => hfits.slashFree

/-- Batches keep an index fit. -/
theorem Fit.replace (h : ix.Fit W) {b : Batch} (hr : ix.replace b = .ok ix') : ix'.Fit W := by
  have hf := forgetsEnough_of_replace h.invariant h.inOrder h.slashFree hr
  have ht := replace_invariant hr
  obtain ⟨t, -, rfl⟩ := Check.map_eq_ok.1 hr
  exact h.of_forgetsEnough ht rfl hf

/-- Edits keep an index fit. -/
theorem Fit.edit (h : ix.Fit W) {edits : List Edit} (he : ix.edit edits = .ok ix') : ix'.Fit W := by
  have hf := forgetsEnough_of_edit h.invariant h.inOrder h.slashFree he
  have ht := edit_invariant h.invariant he
  obtain ⟨m, -, rfl⟩ := Check.map_eq_ok.1 he
  exact h.of_forgetsEnough ht rfl hf

/-- To drop sizes keeps an index fit. -/
theorem Fit.smudge (h : ix.Fit W) (cutoff : Timestamp) (version : Version) :
    Fit W { ix with version, table := ix.table.smudge cutoff } :=
  h.of_lengths (h.invariant.smudge cutoff) rfl fun base =>
    (Table.sameContents_smudge ix.table cutoff base).length_eq

/-- Whatever file is read, the index is fit wherever paths can lead. -/
theorem fit_of_read {d : Disk} (h : ix.read d = .ok ix') : ix'.Fit Opens := by
  rcases read_eq_ok h with rfl | ⟨file, image, seen, himage, rfl⟩
  · exact new_fit ix.path ix.settings
  · have hread := Image.readable_of_decode himage
    exact ⟨hread.invariant,
      CacheTree.fits_of_verify hread.invariant.sorted hread.shaped hread.verified⟩

/-! ## Materializing -/

variable {σ : Type} [ObjectDatabase σ]

/-- With this database materializing succeeds if no path is in conflict; else it gives all paths in
conflict, in increasing order, and changes nothing. -/
structure FailsOnConflicts (ix : Index) (s : σ) : Prop where
  succeeds : (∀ e ∈ ix.table, e.stage = .merged) → ∃ id, (ix.writeTree s).2.2 = .ok id
  fails : (∃ e ∈ ix.table, e.stage ≠ .merged) →
    ix.writeTree s = (ix, s, .error (.unresolvedConflict ix.table.conflictPaths))
  increasing : ix.table.conflictPaths.Pairwise fun a b => compare a b = .lt
  listed : ∀ p, p ∈ ix.table.conflictPaths ↔ ∃ e ∈ ix.table, e.stage ≠ .merged ∧ e.path = p

variable (haccept : ∀ (tree : Tree) (s : σ), ∃ id, (ObjectDatabase.insertTree tree s).1 = .ok id)

include haccept

/-- Materializing keeps an index fit wherever paths can lead. -/
theorem Fit.writeTree (h : ix.Fit Opens) (s : σ) : (ix.writeTree s).1.Fit Opens := by
  rw [Index.writeTree]
  split
  · rename_i hconf
    exact ⟨h.invariant, (CacheTree.materialize_fits h.invariant
      (Table.conflictPaths_eq_nil_iff.1 hconf) haccept h.fits s).2⟩
  · exact h

/-- Materializing an index that is fit wherever paths can lead fails on conflicts only. -/
theorem Fit.failsOnConflicts (h : ix.Fit Opens) (s : σ) : ix.FailsOnConflicts s where
  succeeds := by
    intro hm
    obtain ⟨⟨k, hk⟩, -⟩ := CacheTree.materialize_fits h.invariant hm haccept h.fits s
    refine ⟨k.id, ?_⟩
    rw [Index.writeTree, if_pos (Table.conflictPaths_eq_nil_iff.2 hm), CacheTree.update_eq_map]
    exact congrArg (Except.map CacheTree.Known.id) hk
  fails := by
    rintro ⟨e, he, hne⟩
    rw [Index.writeTree, if_neg fun hconf => hne (Table.conflictPaths_eq_nil_iff.1 hconf e he)]
  increasing := Table.pairwise_conflictPaths h.invariant.sorted
  listed := fun _ => Table.mem_conflictPaths

end Index

/-- Calls that read no stored tree. -/
def Call.readsNoTree {σ : Type} : Call σ → Bool
  | readTree _ => false
  | _ => true

namespace Session

open Bytes (Opens)

variable {σ : Type} [ObjectDatabase σ] {s : Session σ}

section
variable (haccept : ∀ (tree : Tree) (s : σ), ∃ id, (ObjectDatabase.insertTree tree s).1 = .ok id)

include haccept

/-- Every call but reading a stored tree keeps an index fit wherever paths can lead. -/
theorem perform_fit (h : s.index.Fit Opens) {c : Call σ} (hc : c.readsNoTree = true) :
    (s.perform c).1.index.Fit Opens := by
  -- Calls that give a new index or nothing need a look at the new index alone.
  have htake : ∀ r : Except IndexError Index, (∀ ix, r = .ok ix → ix.Fit Opens) →
      (s.take r).1.index.Fit Opens := by
    intro r hr
    cases r with
    | ok ix => exact hr ix rfl
    | error e => exact h
  cases c with
  | replace batch => exact htake _ fun ix => h.replace
  | edit edits => exact htake _ fun ix => h.edit
  | setVersion version => exact ⟨h.invariant, h.fits⟩
  | writeTree => exact h.writeTree haccept s.database
  | readTree id => cases hc
  | read => exact htake _ fun ix => Index.fit_of_read
  | lock now =>
    simp only [perform]
    split <;> exact h
  | write lock now => exact h.smudge ⟨now.seconds, 0⟩ _
  | spoiledWrite now fault => exact h.smudge ⟨now.seconds, 0⟩ s.index.version
  | commit written =>
    simp only [perform]
    split
    · rename_i index disk hc
      obtain ⟨d, -, hd⟩ := Check.map_eq_ok.1 hc
      cases hd
      exact ⟨h.invariant, h.fits⟩
    · exact h
  | unlock => exact h
  | meanwhile database disk => exact h

/-- Runs of such calls keep an index fit wherever paths can lead. -/
theorem run_fit (h : s.index.Fit Opens) {calls : List (Call σ)}
    (hc : ∀ c ∈ calls, c.readsNoTree = true) : (s.run calls).index.Fit Opens := by
  induction calls generalizing s with
  | nil => exact h
  | cons c calls ih =>
    exact ih (perform_fit haccept h (hc c (by simp))) fun d hd => hc d (List.mem_cons_of_mem _ hd)

/-- Whatever files are read, changed by batches and edits, and materialized, with a database that
refuses nothing: materializing succeeds if no path is in conflict; else it gives all paths in
conflict, in increasing order, and changes nothing. -/
theorem failsOnConflicts_of_run (path : Bytes) (settings : Settings) (database : σ) (disk : Disk)
    (calls : List (Call σ)) (hcalls : ∀ c ∈ calls, c.readsNoTree = true) :
    ((start path settings database disk).run calls).index.FailsOnConflicts
      ((start path settings database disk).run calls).database :=
  (run_fit haccept (Index.new_fit path settings) hcalls).failsOnConflicts haccept _

end

/-- The file of a program that counted `a/x` below `a` appears, and is read. -/
def foreignCalls : List (Call TreeLog) :=
  [.meanwhile (TreeLog.mk []) (Disk.vacant.withIndexFile (Trailer.attach Image.foreignContent) .zero), .read]

/-- The entry of this file is materialized with the count that the file brings. -/
theorem failsOnConflicts_of_run_foreign :
    (∀ c ∈ foreignCalls, c.readsNoTree = true) ∧
      ((start [] .standard (TreeLog.mk []) .vacant).run foreignCalls).index.table =
        Image.foreignImage.entries ∧
      ((start [] .standard (TreeLog.mk []) .vacant).run foreignCalls).index.cache =
        Image.foreignImage.cache ∧
      ∃ id, (((start [] .standard (TreeLog.mk []) .vacant).run foreignCalls).index.writeTree
        ((start [] .standard (TreeLog.mk []) .vacant).run foreignCalls).database).2.2 = .ok id := by
  have hcalls : ∀ c ∈ foreignCalls, c.readsNoTree = true := by decide
  have hread := Index.openFile_withIndexFile (d := .vacant) rfl [] (Trailer.attach
    Image.foreignContent) .zero .standard
  rw [Index.openFile, Image.decode_foreign] at hread
  have htable : ((start [] .standard (TreeLog.mk []) .vacant).run foreignCalls).index.table =
      Image.foreignImage.entries := by
    rw [foreignCalls, run_cons, run_cons, run_nil]
    simp only [perform, start, hread, take, Except.map]
  have hcache : ((start [] .standard (TreeLog.mk []) .vacant).run foreignCalls).index.cache =
      Image.foreignImage.cache := by
    rw [foreignCalls, run_cons, run_cons, run_nil]
    simp only [perform, start, hread, take, Except.map]
  have hfails := failsOnConflicts_of_run (fun _ _ => ⟨_, rfl⟩) [] .standard
    (TreeLog.mk []) .vacant foreignCalls hcalls
  refine ⟨hcalls, htable, hcache, hfails.succeeds ?_⟩
  rw [htable]
  decide

end Session

end StagingIndex
