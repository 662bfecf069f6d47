import Mathlib
import StagingIndex.Proofs.Handles

/-! # The lock protects the index file

However the steps of any number of handles are mixed, the index file changes only when one of them
publishes what it wrote itself.

* `Shared.Abandoned` — a lock file that nobody holds stays
* `Shared.Wrote` — an image was written by a handle in the course of a run
* `Shared.Protocol` — what the lock promises after a run
* `Shared.run_protocol` — it promises this after every run -/

namespace StagingIndex

namespace Shared

open Handle

variable {ι : Type} [DecidableEq ι] {s : Shared ι} {i j : ι} {a : Step} {e : IndexError}

/-! ## Single steps -/

/-- A handle that stays as it is leaves all handles as they are. -/
@[simp] theorem replace_handle_self (s : Shared ι) (i : ι) :
    s.replace i (s.handle i) s.disk false = s := by
  have hsame : ∀ j, (s.replace i (s.handle i) s.disk false).handle j = s.handle j := by
    intro j
    by_cases hji : j = i
    · rw [hji, handle_replace_self]
    · rw [handle_replace_of_ne s hji]
      rfl
  cases s with
  | mk disk handle => exact congrArg _ (funext hsame)

/-- Where there is a lock file, nobody gets the lock, and the attempt changes nothing. -/
theorem Guarded.perform_lock (hs : s.Guarded) (hidle : (s.handle i).phase = .idle)
    (hlink : s.disk.lock.link ≠ .missing) (now : Timestamp) :
    s.perform i (.lock now) =
      (s, some (.error (.lockContention (s.handle i).index.lockPath))) := by
  simp [perform, act, hidle, Index.lock, hs.proper.createLock_of_ne hlink, isPublication]

/-- A step that does not publish leaves the index file as it looks. -/
theorem Guarded.looksLike (hs : s.Guarded) (i : ι) (a : Step)
    (hnot : s.publishes i a = false) : (s.perform i a).1.disk.LooksLike s.disk := by
  rw [publishes] at hnot
  rcases s.perform_cases i a with h | ⟨h', d', r, hacts, h⟩
  · rw [h]
    exact ⟨rfl, rfl⟩
  · rw [h] at hnot ⊢
    exact hacts.looksLike hs.proper (hs.fits i) hnot

/-- What publishes is a step to publish that succeeds. -/
theorem eq_publish_of_publishes (h : s.publishes i a = true) :
    (∃ refused, a = .publish refused) ∧ (s.perform i a).2 = some (.ok ()) := by
  rw [publishes] at h
  cases hr : (s.perform i a).2 with
  | none =>
    rw [hr] at h
    cases h
  | some r =>
    rw [hr, Option.any_some] at h
    cases a with
    | publish refused =>
      cases r with
      | ok u => exact ⟨⟨refused, rfl⟩, rfl⟩
      | error e => cases h
    | _ => cases h

/-- A step that publishes makes what the handle has written the content of the index file. -/
theorem Guarded.publish (hs : s.Guarded) {refused : Option FileFault}
    (hok : (s.perform i (.publish refused)).2 = some (.ok ())) :
    ∃ w image, (s.handle i).phase = .written w image ∧
      (s.perform i (.publish refused)).1.disk.content = .ok (some image) := by
  rcases s.perform_cases i (.publish refused) with h | ⟨h', d', r, hacts, h⟩
  · rw [h] at hok
    cases hok
  · rw [h] at hok ⊢
    cases hok
    obtain ⟨w, image, hphase, hcontent, -, -⟩ := hacts.published (hs.fits i) rfl
    exact ⟨w, image, hphase, hcontent⟩

/-- Giving up the lock removes the lock file, and leaves the index file as it looks. -/
theorem Guarded.unlock (hs : s.Guarded) (hi : s.Holds i) :
    (s.perform i .unlock).2 = some (.ok ()) ∧
      (s.perform i .unlock).1.disk.lock.link = .missing ∧
      (s.perform i .unlock).1.disk.LooksLike s.disk ∧ ¬ (s.perform i .unlock).1.Holds i := by
  obtain ⟨n, hn⟩ := Option.ne_none_iff_exists'.1 hi
  obtain ⟨bytes, hstaged⟩ := (hs.fits i).staged hn
  obtain ⟨-, hlink, hlooks⟩ := hstaged.removeLock hs.proper
  have hperform : s.perform i .unlock =
      (s.replace i { s.handle i with phase := .idle } s.disk.removeLock false,
        some (.ok ())) := by
    simp [perform, act, hn, Index.unlock, isPublication]
  rw [hperform]
  refine ⟨rfl, hlink, hlooks, ?_⟩
  simp [Holds, Phase.guard?]

/-! ## Lock files that nobody holds -/

/-- There is a lock file, and no handle holds it. -/
structure Abandoned (s : Shared ι) : Prop extends s.Guarded where
  link : s.disk.lock.link ≠ .missing
  released : ∀ i, ¬ s.Holds i

/-- A lock file that nobody holds is not removed. -/
theorem perform_abandoned (hs : s.Abandoned) (i : ι) (a : Step) : (s.perform i a).1.Abandoned := by
  have hguarded := perform_guarded hs.toGuarded i a
  rcases s.perform_cases i a with h | ⟨h', d', r, hacts, h⟩
  · rw [h]
    exact hs
  · rw [h] at hguarded ⊢
    obtain ⟨rfl, hguard⟩ := hacts.disk_eq hs.proper (not_not.1 (hs.released i)) hs.link
    refine ⟨hguarded, hs.link, fun j => ?_⟩
    rw [Holds, not_not]
    by_cases hji : j = i
    · subst hji
      rwa [handle_replace_self]
    · rw [phase_replace_of_ne s hji]
      exact not_not.1 (hs.released j)

/-- It is there after every run. -/
theorem run_abandoned (hs : s.Abandoned) (turns : List (ι × Step)) : (s.run turns).Abandoned := by
  induction turns generalizing s with
  | nil => exact hs
  | cons t turns ih => exact ih (perform_abandoned hs t.1 t.2)

/-- Where publishing fails, the disk stays as it is, and the lock file is left to nobody. -/
theorem Guarded.publish_error (hs : s.Guarded) {refused : Option FileFault}
    (herror : (s.perform i (.publish refused)).2 = some (.error e)) :
    (s.perform i (.publish refused)).1.disk = s.disk ∧
      (s.perform i (.publish refused)).1.Abandoned := by
  have hguarded := perform_guarded hs i (.publish refused)
  rcases s.perform_cases i (.publish refused) with h | ⟨h', d', r, hacts, h⟩
  · rw [h] at herror
    cases herror
  · rw [h] at herror hguarded ⊢
    cases hacts with
    | publishes => cases herror
    | cannotPublish hphase =>
      have hi : s.Holds i := by
        rw [Holds, hphase]
        exact Option.some_ne_none _
      refine ⟨rfl, hguarded, hs.link_ne_missing hi, fun j hj => ?_⟩
      by_cases hji : j = i
      · subst hji
        simp [Holds, Phase.guard?] at hj
      · rw [Holds, phase_replace_of_ne s hji] at hj
        exact hji (hs.single j i hj hi)

/-! ## Runs -/

/-- In the course of a run a handle that held the lock wrote an image, that of its index at that
time, and from then on it has been holding the lock with this image. -/
def Wrote (s₀ : Shared ι) (turns : List (ι × Step)) (i : ι) (image : Bytes) : Prop :=
  ∃ before now after l w, turns = before ++ (i, .write now) :: after ∧
    ((s₀.run before).handle i).phase = .locked l ∧
    image = (((s₀.run before).handle i).index.settled now).image ∧
    ∀ rest, rest <+: after →
      ((s₀.run (before ++ (i, .write now) :: rest)).handle i).phase = .written w image

/-- What has been written is still there after another step, if the handle is in the middle of the
same. -/
theorem Wrote.concat {s₀ : Shared ι} {turns : List (ι × Step)} {t : ι × Step} {image : Bytes}
    (h : s₀.Wrote turns i image)
    (ht : ((s₀.run (turns ++ [t])).handle i).phase = ((s₀.run turns).handle i).phase) :
    s₀.Wrote (turns ++ [t]) i image := by
  obtain ⟨before, now, after, l, w, rfl, hphase, himage, hsince⟩ := h
  refine ⟨before, now, after ++ [t], l, w, by simp, hphase, himage, fun rest hrest => ?_⟩
  rcases List.prefix_concat_iff.1 hrest with rfl | hrest
  · rw [← hsince after (List.prefix_refl after), ← ht]
    simp only [List.append_assoc, List.cons_append]
  · exact hsince rest hrest

/-- The image that a handle has in the lock file is one that it wrote itself. -/
theorem wrote_of_written {s₀ : Shared ι} (h₀ : ∀ i, (s₀.handle i).phase = .idle)
    {turns : List (ι × Step)} {w : Index.Written} {image : Bytes}
    (h : ((s₀.run turns).handle i).phase = .written w image) : s₀.Wrote turns i image := by
  -- The last step is the write, or the handle was in the middle of the same before it.
  induction turns using List.reverseRecOn with
  | nil =>
    rw [run_nil, h₀] at h
    cases h
  | append_singleton turns t ih =>
    obtain ⟨j, a⟩ := t
    have hsame (hp : ((s₀.run (turns ++ [(j, a)])).handle i).phase =
        ((s₀.run turns).handle i).phase) : s₀.Wrote (turns ++ [(j, a)]) i image :=
      (ih (hp ▸ h)).concat hp
    rw [run_concat] at h hsame
    rcases (s₀.run turns).perform_cases j a with hstep | ⟨h', d', r, hacts, hstep⟩
    · rw [hstep] at hsame
      exact hsame rfl
    · rw [hstep] at h hsame
      by_cases hij : i = j
      · subst hij
        rw [handle_replace_self] at h hsame
        cases hacts with
        | works | cannotLook | cannotLock => exact hsame rfl
        | @writes now l hphase =>
          cases h
          refine ⟨turns, now, [], l, ⟨l.file⟩, rfl, hphase, rfl, fun rest hrest => ?_⟩
          rw [List.prefix_nil.1 hrest, run_concat, hstep, handle_replace_self]
        | _ => cases h
      · exact hsame (phase_replace_of_ne _ hij _ _ _)

/-- What the lock promises after a run. -/
structure Protocol (path : Bytes) (s₀ : Shared ι) (turns : List (ι × Step)) : Prop where
  /-- At most one handle holds the lock. -/
  exclusive : ∀ i j, (s₀.run turns).Holds i → (s₀.run turns).Holds j → i = j
  /-- While there is a lock file, an attempt to take the lock is answered by contention and changes
  nothing at all. -/
  contended : ∀ i now, ((s₀.run turns).handle i).phase = .idle →
    (s₀.run turns).disk.lock.link ≠ .missing →
    (s₀.run turns).perform i (.lock now) =
      (s₀.run turns, some (.error (.lockContention (Disk.lockPath path))))
  /-- Only a step that publishes changes what is in the index file. -/
  changed : ∀ i a,
    ((s₀.run turns).perform i a).1.disk.content ≠ (s₀.run turns).disk.content →
    (∃ refused, a = .publish refused) ∧ ((s₀.run turns).perform i a).2 = some (.ok ())
  /-- What is in it then is the image that the handle wrote itself. -/
  committed : ∀ i refused, ((s₀.run turns).perform i (.publish refused)).2 = some (.ok ()) →
    ∃ image, s₀.Wrote turns i image ∧
      ((s₀.run turns).perform i (.publish refused)).1.disk.content = .ok (some image)
  /-- Giving up the lock, or dropping its guard, removes the lock file and leaves the index file. -/
  released : ∀ i, (s₀.run turns).Holds i →
    ((s₀.run turns).perform i .unlock).1.disk.lock.link = .missing ∧
      ((s₀.run turns).perform i .unlock).1.disk.content = (s₀.run turns).disk.content ∧
      ¬ ((s₀.run turns).perform i .unlock).1.Holds i
  /-- Where publishing fails, the disk stays as it is, and from then on every attempt to take the
  lock fails. -/
  abandoned : ∀ i refused e, ((s₀.run turns).perform i (.publish refused)).2 = some (.error e) →
    ((s₀.run turns).perform i (.publish refused)).1.disk = (s₀.run turns).disk ∧
      ((s₀.run turns).perform i (.publish refused)).1.disk.lock.link ≠ .missing ∧
      ∀ more j now, ((s₀.run (turns ++ (i, .publish refused) :: more)).handle j).phase = .idle →
        (s₀.run (turns ++ (i, .publish refused) :: more)).perform j (.lock now) =
          (s₀.run (turns ++ (i, .publish refused) :: more),
            some (.error (.lockContention (Disk.lockPath path))))

/-- Runs can be cut in two. -/
theorem run_append (s : Shared ι) (turns more : List (ι × Step)) :
    s.run (turns ++ more) = (s.run turns).run more := List.foldl_append

/-- New handles on a path, of which nobody else touches the files, use the lock as it promises,
whatever they do and in whatever order. -/
theorem run_protocol (path : Bytes) (settings : ι → Settings) {d : Disk} (hd : d.Proper)
    (turns : List (ι × Step)) : Protocol path (start path settings d) turns := by
  have hs : ((start path settings d).run turns).Guarded :=
    run_guarded (start_guarded path settings hd) turns
  have hpath : ∀ turns i, (((start path settings d).run turns).handle i).index.lockPath =
      Disk.lockPath path := fun turns i =>
    congrArg Disk.lockPath (path_run (start path settings d) turns i)
  refine {
    exclusive := hs.single
    contended := fun i now hidle hlink => hpath turns i ▸ hs.perform_lock hidle hlink now
    changed := fun i a hne => ?_
    committed := fun i refused hok => ?_
    released := fun i hi => ?_
    abandoned := fun i refused e herror => ?_ }
  · refine eq_publish_of_publishes ?_
    by_contra hnot
    exact hne (hs.looksLike i a (Bool.not_eq_true _ ▸ hnot)).2
  · obtain ⟨w, image, hphase, hcontent⟩ := hs.publish hok
    exact ⟨image, wrote_of_written (fun i => rfl) hphase, hcontent⟩
  · obtain ⟨-, hlink, hlooks, hreleased⟩ := hs.unlock hi
    exact ⟨hlink, hlooks.2, hreleased⟩
  · obtain ⟨hdisk, habandoned⟩ := hs.publish_error herror
    refine ⟨hdisk, habandoned.link, fun more j now hidle => ?_⟩
    have hlater := run_abandoned habandoned more
    rw [← hpath (turns ++ (i, .publish refused) :: more) j]
    rw [run_append, run_cons] at hidle ⊢
    exact hlater.toGuarded.perform_lock hidle hlater.link now

/-- A handle that takes the lock and writes, and then fails to publish. -/
def failingTurns : List (Bool × Step) :=
  [(true, .lock ⟨1, 0⟩), (true, .write ⟨1, 0⟩), (true, .publish (some .busy))]

/-- After that another handle does not get the lock. -/
theorem run_protocol_failing :
    Disk.vacant.Proper ∧
      ∃ s, s = (start [] (fun _ => .standard) .vacant).run failingTurns ∧
        s.perform false (.lock ⟨2, 0⟩) =
          (s, some (.error (.lockContention (Disk.lockPath [])))) := by
  have hrun := run_protocol [] (fun _ : Bool => .standard) Disk.vacant_proper failingTurns
  exact ⟨Disk.vacant_proper, _, rfl, hrun.contended false ⟨2, 0⟩ rfl Link.noConfusion⟩

end Shared

end StagingIndex
