import Mathlib
import StagingIndex.Proofs.Handles

/-! # When the file is another one

A handle remembers what the file looked like when it last read or committed it, and takes the file
for another one when it looks different. Reading looks at the file before it takes over the content,
so a change in between is noticed later. Committing looks at the file after the rename, when the lock
is already gone, so what another handle has committed in between is taken for its own.

* `Shared.Fresh` — every file that is published looks like none before
* `Handle.Recalls` — what a handle remembers of the file is true of it
* `Shared.Watched`, `Shared.run_watched` — it is so after every such run
* `Shared.last_of_isOutdated` — a file that is not taken for another one is the one that was last
  read or committed, unless another handle has overtaken that commit
* `Shared.isOutdated_of_overtaken` — two handles, one of which overtakes the other -/

namespace StagingIndex

/-- The image of an index is as long as its content and a digest. -/
theorem Index.length_image (ix : Index) :
    ix.image.length = (Image.content ix.version ix.table ix.cache).length + 32 := by
  rw [image, Image.encode, Trailer.attach, List.length_append, Sha256.length_digest]

/-- What the index file looks like, if there is one. -/
def Disk.appearance (d : Disk) : List Fingerprint :=
  match d.fingerprint with
  | .ok (some fp) => [fp]
  | _ => []

/-- The index file looks like itself. -/
theorem Disk.mem_appearance {d : Disk} {fp : Fingerprint} :
    fp ∈ d.appearance ↔ d.fingerprint = .ok (some fp) := by
  rw [appearance]
  split
  · rename_i seen hseen
    rw [hseen, List.mem_singleton, Except.ok.injEq, Option.some.injEq, eq_comm]
  · rename_i hnone
    exact ⟨fun h => (List.not_mem_nil h).elim, fun h => absurd h (hnone fp)⟩

/-- An index file looks like something. -/
theorem Disk.fingerprint_of_content {d : Disk} {bytes : Bytes} (h : d.content = .ok (some bytes)) :
    ∃ fp, d.fingerprint = .ok (some fp) := by
  rw [content] at h
  split at h
  · cases h
  · rename_i hfault
    split at h
    · rename_i n hfound
      cases hfile : d.files[n]? with
      | none =>
        rw [hfile] at h
        cases h
      | some f => exact ⟨⟨f.mtime, f.bytes.length⟩, by simp [fingerprint, hfault, hfound, hfile]⟩
    · cases h
    · cases h

/-- A file that is not taken for another one looks as it did. -/
theorem Index.snapshot_of_isOutdated {ix : Index} {d : Disk} {look : Option Fingerprint}
    (hlook : d.fingerprint = .ok look) (hsame : ix.isOutdated d = .ok false) :
    ix.snapshot = look := by
  rw [isOutdated, Index.look, hlook] at hsame
  have hne : decide (look ≠ ix.snapshot) = false := Except.ok.inj hsame
  rw [decide_eq_false_iff_not, not_not] at hne
  exact hne.symm

/-- After a look at a file it is not taken for another one. -/
theorem Index.isOutdated_settle (ix : Index) {d : Disk} {look : Option Fingerprint}
    (hlook : d.fingerprint = .ok look) : (ix.settle d).isOutdated d = .ok false := by
  simp [isOutdated, Index.look, settle, hlook, Except.map, Except.toOption]

namespace Handle

variable {h h' : Handle} {d d' : Disk} {a : Step} {r : Except IndexError Unit}
  {seen seen' : List Fingerprint}

/-- What a handle remembers of the file is true: it has looked so, and if it looks so now, its bytes
are those that the handle last read or committed. -/
structure Recalls (seen : List Fingerprint) (d : Disk) (h : Handle) : Prop where
  snapshot : ∀ fp ∈ h.index.snapshot, fp ∈ seen
  looked : ∀ look, h.phase = .looked look → ∀ fp ∈ look, fp ∈ seen
  current : h.overtaken = false → ∀ fp ∈ h.index.snapshot, d.fingerprint = .ok (some fp) →
    d.content = .ok h.last
  published : h.overtaken = false → h.phase = .published → d.content = .ok h.last

/-- A handle that is not in the middle of anything only remembers what it has seen last. -/
theorem recalls_idle {index : Index} {last : Option Bytes} {overtaken : Bool}
    (hsnapshot : ∀ fp ∈ index.snapshot, fp ∈ seen)
    (hcurrent : overtaken = false → ∀ fp ∈ index.snapshot, d.fingerprint = .ok (some fp) →
      d.content = .ok last) : Recalls seen d ⟨index, .idle, last, overtaken⟩ where
  snapshot := hsnapshot
  looked _ hlook := Phase.noConfusion hlook
  current := hcurrent
  published _ hphase := Phase.noConfusion hphase

/-- It stays true as long as the index file looks the same. -/
theorem Recalls.looksLike (hrecalls : h.Recalls seen d) (hlooks : d'.LooksLike d) :
    h.Recalls seen d' := by
  obtain ⟨hfingerprint, hcontent⟩ := hlooks
  refine ⟨hrecalls.snapshot, hrecalls.looked, ?_, ?_⟩
  · rw [hfingerprint, hcontent]
    exact hrecalls.current
  · rw [hcontent]
    exact hrecalls.published

/-- It stays true when the file has looked otherwise too. -/
theorem Recalls.mono (hrecalls : h.Recalls seen d) (hsub : seen ⊆ seen') : h.Recalls seen' d where
  snapshot fp hfp := hsub (hrecalls.snapshot fp hfp)
  looked look hlook fp hfp := hsub (hrecalls.looked look hlook fp hfp)
  current := hrecalls.current
  published := hrecalls.published

/-- A file that another handle has published looks like none that the handle remembers. -/
theorem Recalls.overtake (hrecalls : h.Recalls seen d)
    (hfresh : ∀ fp, d'.fingerprint = .ok (some fp) → fp ∉ seen) : h.overtake.Recalls seen d' where
  snapshot := by
    rw [index_overtake]
    exact hrecalls.snapshot
  looked := by
    rw [phase_overtake]
    exact hrecalls.looked
  current _ fp hfp hlooks := by
    rw [index_overtake] at hfp
    exact absurd (hrecalls.snapshot fp hfp) (hfresh fp hlooks)
  published hnot hphase := by
    -- Between its rename and its look the handle has been overtaken.
    rw [phase_overtake] at hphase
    rw [Handle.overtake, hphase] at hnot
    cases hnot

/-- What has been loaded is remembered: what the file looked like before, and its bytes. -/
theorem Recalls.load {look : Option Fingerprint} {index : Index} (hrecalls : h.Recalls seen d)
    (hphase : h.phase = .looked look) (hload : h.index.load look d = .ok index) :
    Recalls seen d ⟨index, .idle, (d.content.toOption).bind id, false⟩ := by
  rw [Index.load] at hload
  split at hload
  · cases hload
  · rename_i hcontent
    cases hload
    exact recalls_idle (fun fp hfp => absurd hfp (Option.not_mem_none fp))
      fun _ fp hfp => absurd hfp (Option.not_mem_none fp)
  · rename_i file hcontent
    obtain ⟨image, -, rfl⟩ := Check.map_eq_ok.1 hload
    refine recalls_idle (hrecalls.looked look hphase) fun _ _ _ _ => ?_
    rw [hcontent]
    rfl

/-- After the look that ends a commit the handle remembers what it committed, if nobody has overtaken
it. -/
theorem Recalls.settle (hrecalls : h.Recalls seen d)
    (hcurrent : ∀ fp, d.fingerprint = .ok (some fp) → fp ∈ seen) (hphase : h.phase = .published) :
    Recalls seen d { h with index := h.index.settle d, phase := .idle } := by
  have hlook : ∀ fp ∈ (h.index.settle d).snapshot, d.fingerprint = .ok (some fp) := by
    intro fp hfp
    rw [Index.settle] at hfp
    cases hseen : d.fingerprint with
    | error fault =>
      rw [hseen] at hfp
      cases hfp
    | ok look =>
      rw [hseen] at hfp
      exact congrArg _ hfp
  exact recalls_idle (fun fp hfp => hcurrent fp (hlook fp hfp))
    fun hnot _ _ _ => hrecalls.published hnot hphase

/-- What is not about the file leaves what is remembered of it. -/
theorem Recalls.of_idle (hrecalls : h.Recalls seen d) {index : Index} {phase : Phase}
    (hindex : index.snapshot = h.index.snapshot) (hlooked : ∀ look, phase ≠ .looked look)
    (hpublished : phase ≠ .published) : Recalls seen d { h with index, phase } where
  snapshot fp hfp := hrecalls.snapshot fp (hindex ▸ hfp)
  looked look hlook := absurd hlook (hlooked look)
  current hnot fp hfp := hrecalls.current hnot fp (hindex ▸ hfp)
  published _ hphase := absurd hphase hpublished

/-- Every step but one that publishes keeps this for the handle that makes it. -/
theorem Acts.recalls (hd : d.Proper) (hfits : h.phase.Fits d)
    (hcurrent : ∀ fp, d.fingerprint = .ok (some fp) → fp ∈ seen) (hrecalls : h.Recalls seen d)
    (hacts : Acts h d a h' d' r) (hnot : isPublication a r = false) : h'.Recalls seen d' := by
  refine Recalls.looksLike (d := d) ?_ (hacts.looksLike hd hfits hnot)
  cases hacts with
  | works => exact ⟨hrecalls.snapshot, hrecalls.looked, hrecalls.current, hrecalls.published⟩
  | cannotLook | cannotLock => exact hrecalls
  | looks hphase hlook =>
    refine ⟨hrecalls.snapshot, fun look hlooked fp hfp => ?_, hrecalls.current,
      fun _ hpublished => Phase.noConfusion hpublished⟩
    cases hlooked
    obtain rfl := Option.mem_def.1 hfp
    rw [Index.look] at hlook
    split at hlook
    · cases hlook
    · rename_i seen hseen
      cases hlook
      exact hcurrent fp hseen
  | loads hphase hload => exact hrecalls.load hphase hload
  | settles hphase => exact hrecalls.settle hcurrent hphase
  | publishes => cases hnot
  | _ => exact hrecalls.of_idle rfl (fun _ => Phase.noConfusion) Phase.noConfusion

/-- A handle that has published knows that the bytes are its own. -/
theorem Recalls.publish {image : Bytes} (hrecalls : h.Recalls seen d)
    (hfresh : ∀ fp, d'.fingerprint = .ok (some fp) → fp ∉ seen)
    (hcontent : d'.content = .ok (some image)) :
    Recalls seen d' ⟨h.index, .published, some image, false⟩ where
  snapshot := hrecalls.snapshot
  looked _ hlook := Phase.noConfusion hlook
  current _ fp hfp hlooks := absurd (hrecalls.snapshot fp hfp) (hfresh fp hlooks)
  published _ _ := hcontent

end Handle

namespace Shared

open Handle

variable {ι : Type} [DecidableEq ι] {s : Shared ι} {i : ι} {a : Step} {seen : List Fingerprint}

/-- In a run every step that publishes gives the index file a look it has never had. So far it has
looked like `seen`. -/
def Fresh (seen : List Fingerprint) (s : Shared ι) : List (ι × Step) → Prop
  | [] => True
  | t :: turns =>
    (s.publishes t.1 t.2 = true → ∀ fp ∈ (s.perform t.1 t.2).1.disk.appearance, fp ∉ seen) ∧
      Fresh ((s.perform t.1 t.2).1.disk.appearance ++ seen) (s.perform t.1 t.2).1 turns

instance decidableFresh (seen : List Fingerprint) (s : Shared ι) :
    (turns : List (ι × Step)) → Decidable (s.Fresh seen turns)
  | [] => inferInstanceAs (Decidable True)
  | t :: turns =>
    have := decidableFresh ((s.perform t.1 t.2).1.disk.appearance ++ seen) (s.perform t.1 t.2).1 turns
    inferInstanceAs (Decidable (_ ∧ _))

/-- What the handles remember of the file is true, and the file has looked like `seen`. -/
structure Watched (seen : List Fingerprint) (s : Shared ι) : Prop extends s.Guarded where
  current : ∀ fp, s.disk.fingerprint = .ok (some fp) → fp ∈ seen
  recalls : ∀ i, (s.handle i).Recalls seen s.disk

/-- A step keeps this, if what it publishes has a new look. -/
theorem perform_watched (hs : s.Watched seen)
    (hfresh : s.publishes i a = true → ∀ fp ∈ (s.perform i a).1.disk.appearance, fp ∉ seen) :
    (s.perform i a).1.Watched ((s.perform i a).1.disk.appearance ++ seen) := by
  have hguarded := perform_guarded hs.toGuarded i a
  have hseen : seen ⊆ (s.perform i a).1.disk.appearance ++ seen := List.subset_append_right _ _
  refine ⟨hguarded, fun fp hfp => List.mem_append_left _ (Disk.mem_appearance.2 hfp), fun j =>
    Recalls.mono ?_ hseen⟩
  rw [publishes] at hfresh
  rcases s.perform_cases i a with h | ⟨h', d', r, hacts, h⟩
  · rw [h]
    exact hs.recalls j
  · rw [h] at hfresh ⊢
    cases hpublication : isPublication a r with
    | false =>
      have hlooks := hacts.looksLike hs.proper (hs.fits i) hpublication
      by_cases hji : j = i
      · subst hji
        rw [handle_replace_self]
        exact hacts.recalls hs.proper (hs.fits j) hs.current (hs.recalls j) hpublication
      · rw [handle_replace_of_ne s hji]
        exact (hs.recalls j).looksLike hlooks
    | true =>
      obtain ⟨w, image, -, hcontent, -, rfl⟩ := hacts.published (hs.fits i) hpublication
      have hnew : ∀ fp, d'.fingerprint = .ok (some fp) → fp ∉ seen := fun fp hfp =>
        hfresh hpublication fp (Disk.mem_appearance.2 hfp)
      by_cases hji : j = i
      · subst hji
        rw [handle_replace_self]
        exact (hs.recalls j).publish hnew hcontent
      · rw [handle_replace_of_ne s hji]
        exact (hs.recalls j).overtake hnew

/-- A run keeps this, if everything it publishes has a new look. -/
theorem run_watched (hs : s.Watched seen) {turns : List (ι × Step)}
    (hfresh : s.Fresh seen turns) : ∃ seen', (s.run turns).Watched seen' := by
  induction turns generalizing s seen with
  | nil => exact ⟨seen, hs⟩
  | cons t turns ih => exact ih (perform_watched hs hfresh.1) hfresh.2

omit [DecidableEq ι] in
/-- New handles remember nothing. -/
theorem start_watched (path : Bytes) (settings : ι → Settings) {d : Disk} (hd : d.Proper) :
    (start path settings d).Watched d.appearance where
  toGuarded := start_guarded path settings hd
  current _ hfp := Disk.mem_appearance.2 hfp
  recalls _ := recalls_idle (fun fp hfp => absurd hfp (Option.not_mem_none fp))
    fun _ fp hfp => absurd hfp (Option.not_mem_none fp)

/-- After every run in which each file that is published looks like none before, a file that a handle
does not take for another one has the bytes that the handle last read or committed; unless another
handle has published between the rename and the look of that commit. -/
theorem last_of_isOutdated (path : Bytes) (settings : ι → Settings) {d : Disk} (hd : d.Proper)
    {turns : List (ι × Step)} (hfresh : (start path settings d).Fresh d.appearance turns) {i : ι}
    (hnot : (((start path settings d).run turns).handle i).overtaken = false)
    (hsame : (((start path settings d).run turns).handle i).index.isOutdated
      ((start path settings d).run turns).disk = .ok false) {bytes : Bytes}
    (hfile : ((start path settings d).run turns).disk.content = .ok (some bytes)) :
    (((start path settings d).run turns).handle i).last = some bytes := by
  obtain ⟨seen, hs⟩ := run_watched (start_watched path settings hd) hfresh
  obtain ⟨fp, hfp⟩ := Disk.fingerprint_of_content hfile
  have hsnapshot := Index.snapshot_of_isOutdated hfp hsame
  have hlast := (hs.recalls i).current hnot fp hsnapshot hfp
  rw [hfile] at hlast
  exact (Except.ok.inj hlast).symm

/-- Two new handles, and no file yet. -/
def pair : Shared Bool := start [] (fun _ => .standard) .vacant

/-- The steps of a commit but the last one. -/
def publishing (i : Bool) (now : Timestamp) : List (Bool × Step) :=
  [(i, .lock now), (i, .write now), (i, .publish none)]

/-- An index with one file. -/
def overtakingIndex : Index :=
  { Index.new [] .standard with table := [Entry.bare [0x61] .merged .regular .null] }

/-- The first handle publishes, and before it looks at the file the second one publishes another
table. -/
def overtakingTurns : List (Bool × Step) :=
  publishing true ⟨1, 0⟩ ++
    (false, .work .v2 overtakingIndex.table .empty) :: publishing false ⟨2, 0⟩ ++ [(true, .settle)]

/-- After that the second handle ends its commit, and the first one commits again. -/
def retakingTurns : List (Bool × Step) :=
  overtakingTurns ++ (false, .settle) :: publishing true ⟨3, 0⟩ ++ [(true, .settle)]

/-- The handle that was overtaken does not take the file for another one once it has committed again,
and its bytes are what it committed. -/
theorem last_of_isOutdated_retaking :
    pair.Fresh Disk.vacant.appearance retakingTurns ∧
      ((pair.run overtakingTurns).handle true).overtaken = true ∧
      ((pair.run retakingTurns).handle true).overtaken = false ∧
      ∃ bytes, (pair.run retakingTurns).disk.content = .ok (some bytes) ∧
        ((pair.run retakingTurns).handle true).last = some bytes := by
  have hfresh : pair.Fresh Disk.vacant.appearance retakingTurns := by decide
  have hnot : ((pair.run retakingTurns).handle true).overtaken = false := rfl
  have hsame : ((pair.run retakingTurns).handle true).index.isOutdated
      (pair.run retakingTurns).disk = .ok false := Index.isOutdated_settle _ rfl
  exact ⟨hfresh, rfl, hnot, _, rfl, last_of_isOutdated [] (fun _ => .standard) Disk.vacant_proper
    hfresh hnot hsame rfl⟩

/-- The first handle then takes the file of the second one for its own. -/
theorem isOutdated_of_overtaken :
    Disk.vacant.Proper ∧ pair.Fresh Disk.vacant.appearance overtakingTurns ∧
      ((pair.run overtakingTurns).handle true).index.isOutdated (pair.run overtakingTurns).disk =
        .ok false ∧
      ∃ bytes, (pair.run overtakingTurns).disk.content = .ok (some bytes) ∧
        ((pair.run overtakingTurns).handle true).last ≠ some bytes := by
  -- What is left of the empty lock file is nothing.
  have hcontent : (pair.run overtakingTurns).disk.content =
      .ok (some ((overtakingIndex.settled ⟨2, 0⟩).image ++
        List.drop (overtakingIndex.settled ⟨2, 0⟩).image.length [])) := rfl
  rw [List.drop_nil, List.append_nil] at hcontent
  have hlast : ((pair.run overtakingTurns).handle true).last =
      some ((Index.new [] .standard).settled ⟨1, 0⟩).image := rfl
  refine ⟨Disk.vacant_proper, by decide, Index.isOutdated_settle _ rfl, _, hcontent, fun h => ?_⟩
  rw [hlast] at h
  -- The files differ in their length already.
  have hlength := congrArg List.length (Option.some.inj h)
  have hfirst : ((Index.new [] .standard).settled ⟨1, 0⟩).image.length = 44 := by
    rw [Index.length_image]
    cbv
  have hsecond : (overtakingIndex.settled ⟨2, 0⟩).image.length = 124 := by
    rw [Index.length_image]
    cbv
  omega

end Shared

end StagingIndex
