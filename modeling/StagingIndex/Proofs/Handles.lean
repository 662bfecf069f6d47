import Mathlib
import StagingIndex.Proofs.Runs

/-! # Handles on one path

Any number of handles share the path of an index file, and their steps come in any order. Reading
takes two steps, a look at the file and taking over its content, and so does committing: the lock
file is renamed, and then the file is looked at. Nobody else touches the two files.

* `Handle`, `Step`, `Shared` — a handle and where it stands, what it can do, and all of them together
* `Handle.act`, `Handle.Acts` — one step, and all that can come of it
* `Disk.Proper`, `Disk.Staged` — what is known of the two paths, and of a lock file that is held
* `Shared.Guarded` — at most one handle holds the lock, and the lock file is as it left it
* `Shared.run_guarded` — this is so after every run -/

namespace StagingIndex

/-! ## The two paths -/

namespace Disk

/-- What is asked of the two paths to begin with: the index file is one of the files there are, and
where the path of the lock file cannot be followed there is no lock file. -/
structure Proper (d : Disk) : Prop where
  present : ∀ n, d.index.found = .file n → n < d.files.length
  reachable : d.lock.link ≠ .missing → d.lockFault = none

/-- The lock file is a file of its own and has these bytes. -/
structure Staged (d : Disk) (n : Nat) (bytes : Bytes) : Prop where
  lock : d.lock = .direct (.file n)
  bytes : d.files[n]?.map StoredFile.bytes = some bytes
  apart : d.index.found ≠ .file n

/-- Two disks look the same to who looks at the index file or reads it. -/
def LooksLike (d' d : Disk) : Prop := d'.fingerprint = d.fingerprint ∧ d'.content = d.content

variable {d d' : Disk} {n : Nat} {bytes : Bytes} {now : Timestamp}

/-- Two paths that lead to nothing are as they have to be. -/
theorem vacant_proper : vacant.Proper where
  present _ h := by cases h
  reachable _ := rfl

/-- A lock file that is there has a number. -/
theorem Staged.lt_length (h : d.Staged n bytes) : n < d.files.length := by
  obtain ⟨f, hf, -⟩ := Option.map_eq_some_iff.1 h.bytes
  exact (List.getElem?_eq_some_iff.1 hf).1

/-- A lock file that is held is in the way of another one. -/
theorem Staged.link_ne_missing (h : d.Staged n bytes) : d.lock.link ≠ .missing := by
  rw [h.lock]
  exact Link.noConfusion

/-- What is seen of the index file is up to its path and the file at its end. -/
theorem looksLike_of_found (hindex : d'.index = d.index) (hfault : d'.indexFault = d.indexFault)
    (hdirs : d'.directories = d.directories)
    (hfile : ∀ n, d.index.found = .file n → d'.files[n]? = d.files[n]?) : d'.LooksLike d := by
  rw [LooksLike, fingerprint, fingerprint, content, content, hindex, hfault, hdirs]
  cases hfound : d.index.found with
  | file n => simp only [hfile n hfound, and_self]
  | _ => exact ⟨rfl, rfl⟩

/-- Where something is in the place of the lock file, none is created. -/
theorem Proper.createLock_of_ne (h : d.Proper) (hlink : d.lock.link ≠ .missing) (now : Timestamp) :
    d.createLock now = .error .held := by
  simp only [createLock, h.reachable hlink]

/-- A new lock file is empty, and the index file looks as before. -/
theorem Proper.createLock_eq_ok (h : d.Proper) (hcreate : d.createLock now = .ok (n, d')) :
    d.lock.link = .missing ∧ d'.Proper ∧ d'.Staged n [] ∧ d'.LooksLike d := by
  rw [createLock] at hcreate
  split at hcreate
  · cases hcreate
  · rename_i hfault
    split at hcreate
    · rename_i hlink
      cases hcreate
      -- The new file is the last one, so it is not the index file.
      refine ⟨hlink, ⟨fun m hm => ?_, fun _ => hfault⟩, ⟨rfl, by simp, fun hfound => ?_⟩,
        looksLike_of_found rfl rfl rfl fun m hm => ?_⟩
      · have := h.present m hm
        rw [List.length_append]
        omega
      · exact Nat.lt_irrefl _ (h.present _ hfound)
      · exact List.getElem?_append_left (h.present m hm)
    · cases hcreate

/-- Bytes are written over the beginning of the lock file, and the index file looks as before. -/
theorem Staged.overwrite {old : Bytes} (h : d.Staged n old) (hd : d.Proper) (bytes : Bytes)
    (now : Timestamp) :
    (d.overwrite n bytes now).Proper ∧
      (d.overwrite n bytes now).Staged n (bytes ++ old.drop bytes.length) ∧
      (d.overwrite n bytes now).LooksLike d := by
  refine ⟨⟨fun m hm => ?_, hd.reachable⟩, ⟨h.lock, ?_, h.apart⟩,
    looksLike_of_found rfl rfl rfl fun m hm => ?_⟩
  · rw [Disk.overwrite, List.length_modify]
    exact hd.present m hm
  · obtain ⟨f, hf, rfl⟩ := Option.map_eq_some_iff.1 h.bytes
    simp [Disk.overwrite, hf]
  · refine List.getElem?_modify_ne _ _ ?_
    rintro rfl
    exact h.apart hm

/-- What is published is what was in the lock file, and there is no lock file any more. -/
theorem Staged.publish (h : d.Staged n bytes) (hpublish : d.publish = .ok d') :
    d'.Proper ∧ d'.lock.link = .missing ∧ d'.content = .ok (some bytes) ∧
      ∃ fp, d'.fingerprint = .ok (some fp) := by
  rw [Disk.publish] at hpublish
  split at hpublish
  · cases hpublish
  · cases hpublish
    obtain ⟨f, hf, rfl⟩ := Option.map_eq_some_iff.1 h.bytes
    refine ⟨⟨fun m hm => ?_, fun hlink => absurd rfl hlink⟩, rfl, ?_, ⟨f.mtime, f.bytes.length⟩, ?_⟩
    · simp only [h.lock, PathEnd.direct, Link.file.injEq] at hm
      exact hm ▸ h.lt_length
    · simp [content, h.lock, PathEnd.direct, hf]
    · simp [fingerprint, h.lock, PathEnd.direct, hf]

/-- The lock file is removed, and the index file looks as before. -/
theorem Staged.removeLock (h : d.Staged n bytes) (hd : d.Proper) :
    d.removeLock.Proper ∧ d.removeLock.lock.link = .missing ∧ d.removeLock.LooksLike d := by
  have hdir : d.lock.link.isDirectory = false := by
    rw [h.lock]
    rfl
  rw [Disk.removeLock, if_neg (by simp [hdir])]
  exact ⟨⟨hd.present, fun hlink => absurd rfl hlink⟩, rfl, rfl, rfl⟩

end Disk

/-! ## Handles -/

/-- What a handle is in the middle of. -/
inductive Phase where
  | idle
  /-- Reading: the file has been looked at. -/
  | looked (seen : Option Fingerprint)
  | locked (lock : Index.Lock)
  /-- A write has failed, and the guard of the lock is still to be dropped. -/
  | spoiled (lock : Index.Lock)
  /-- An image has been written into the lock file. -/
  | written (written : Index.Written) (image : Bytes)
  /-- Committing: the lock file has been renamed, and the file is still to be looked at. -/
  | published

/-- The lock file that a handle holds. -/
def Phase.guard? : Phase → Option Nat
  | .locked l => some l.file
  | .spoiled l => some l.file
  | .written w _ => some w.file
  | _ => none

/-- An index in use, with what has happened to it. -/
structure Handle where
  index : Index
  phase : Phase
  /-- The bytes of the file when it was last read or committed by this handle. -/
  last : Option Bytes
  /-- Whether another handle has committed between the rename and the look of the last commit. -/
  overtaken : Bool

/-- What one handle can do at once. -/
inductive Step where
  /-- Change version, table and cache tree in memory. -/
  | work (version : Version) (table : Table) (cache : CacheTree)
  | look
  | load
  | lock (now : Timestamp)
  | write (now : Timestamp)
  /-- Writing fails after some bytes. -/
  | spoil (now : Timestamp) (length : Nat) (fault : FileFault)
  /-- Rename the lock file, unless the file system refuses to. -/
  | publish (refused : Option FileFault)
  | settle
  /-- Give up the lock, or drop its guard. -/
  | unlock

namespace Handle

variable {h h' : Handle} {d d' : Disk} {a : Step} {r : Except IndexError Unit}

/-- The handle after some handle other than itself has published. -/
def overtake (h : Handle) : Handle :=
  match h.phase with
  | .published => { h with overtaken := true }
  | _ => h

/-- The step of a handle, with what it answers; there is none where the handle is in the middle of
something else. -/
def act (h : Handle) (d : Disk) (a : Step) : Option (Handle × Disk × Except IndexError Unit) :=
  match a, h.phase with
  | .work version table cache, .idle | .work version table cache, .locked _ =>
    some ({ h with index := { h.index with version, table, cache } }, d, .ok ())
  | .look, .idle =>
    match h.index.look d with
    | .error e => some (h, d, .error e)
    | .ok seen => some ({ h with phase := .looked seen }, d, .ok ())
  | .load, .looked seen =>
    match h.index.load seen d with
    | .error e => some ({ h with phase := .idle }, d, .error e)
    | .ok index => some (⟨index, .idle, (d.content.toOption).bind id, false⟩, d, .ok ())
  | .lock now, .idle =>
    match h.index.lock d now with
    | .error e => some (h, d, .error e)
    | .ok (l, d) => some ({ h with phase := .locked l }, d, .ok ())
  | .write now, .locked l =>
    match h.index.write l d now with
    | (index, w, d) => some ({ h with index, phase := .written w index.image }, d, .ok ())
  | .spoil now length fault, .locked l =>
    let settled := h.index.settled now
    some ({ h with index := { h.index with table := settled.table }, phase := .spoiled l },
      d.overwrite l.file (settled.image.take length) now, .error (.io h.index.lockPath fault))
  | .publish (some fault), .written _ _ =>
    some ({ h with phase := .idle }, d, .error (.io h.index.path fault))
  | .publish none, .written w image =>
    match h.index.publish w d with
    | .error e => some ({ h with phase := .idle }, d, .error e)
    | .ok d => some (⟨h.index, .published, some image, false⟩, d, .ok ())
  | .settle, .published => some ({ h with index := h.index.settle d, phase := .idle }, d, .ok ())
  | .unlock, phase =>
    phase.guard?.map fun _ => ({ h with phase := .idle }, Index.unlock d, .ok ())
  | _, _ => none

/-- All that can come of a step. -/
inductive Acts (h : Handle) (d : Disk) : Step → Handle → Disk → Except IndexError Unit → Prop
  | works {version table cache} (hguard : h.phase = .idle ∨ ∃ l, h.phase = .locked l) :
    Acts h d (.work version table cache)
      { h with index := { h.index with version, table, cache } } d (.ok ())
  | cannotLook {e} : Acts h d .look h d (.error e)
  | looks {seen} (hphase : h.phase = .idle) (hlook : h.index.look d = .ok seen) :
    Acts h d .look { h with phase := .looked seen } d (.ok ())
  | cannotLoad {seen e} (hphase : h.phase = .looked seen) :
    Acts h d .load { h with phase := .idle } d (.error e)
  | loads {seen index} (hphase : h.phase = .looked seen) (hload : h.index.load seen d = .ok index) :
    Acts h d .load ⟨index, .idle, (d.content.toOption).bind id, false⟩ d (.ok ())
  | cannotLock {now e} : Acts h d (.lock now) h d (.error e)
  | locks {now n d'} (hphase : h.phase = .idle) (hcreate : d.createLock now = .ok (n, d')) :
    Acts h d (.lock now) { h with phase := .locked ⟨n⟩ } d' (.ok ())
  | writes {now l} (hphase : h.phase = .locked l) :
    Acts h d (.write now)
      { h with index := h.index.settled now
               phase := .written ⟨l.file⟩ (h.index.settled now).image }
      (d.overwrite l.file (h.index.settled now).image now) (.ok ())
  | spoils {now length fault l} (hphase : h.phase = .locked l) :
    Acts h d (.spoil now length fault)
      { h with index := { h.index with table := (h.index.settled now).table }
               phase := .spoiled l }
      (d.overwrite l.file ((h.index.settled now).image.take length) now)
      (.error (.io h.index.lockPath fault))
  | cannotPublish {refused w image e} (hphase : h.phase = .written w image) :
    Acts h d (.publish refused) { h with phase := .idle } d (.error e)
  | publishes {w image d'} (hphase : h.phase = .written w image) (hpublish : d.publish = .ok d') :
    Acts h d (.publish none) ⟨h.index, .published, some image, false⟩ d' (.ok ())
  | settles (hphase : h.phase = .published) :
    Acts h d .settle { h with index := h.index.settle d, phase := .idle } d (.ok ())
  | unlocks {n} (hguard : h.phase.guard? = some n) :
    Acts h d .unlock { h with phase := .idle } d.removeLock (.ok ())

/-- A step comes out in one of these ways. -/
theorem acts_of_act (hact : h.act d a = some (h', d', r)) : Acts h d a h' d' r := by
  rw [act.eq_def] at hact
  split at hact
  -- One case for each step that a phase allows.
  · rename_i version table cache hphase
    cases hact
    exact .works (.inl hphase)
  · rename_i version table cache l hphase
    cases hact
    exact .works (.inr ⟨l, hphase⟩)
  · rename_i hphase
    split at hact
    · cases hact
      exact .cannotLook
    · rename_i hlook
      cases hact
      exact .looks hphase hlook
  · rename_i seen hphase
    split at hact
    · cases hact
      exact .cannotLoad hphase
    · rename_i hload
      cases hact
      exact .loads hphase hload
  · rename_i now hphase
    rw [Index.lock] at hact
    cases hcreate : d.createLock now with
    | error fault =>
      rw [hcreate] at hact
      cases fault <;> cases hact <;> exact .cannotLock
    | ok created =>
      rw [hcreate] at hact
      cases hact
      exact .locks hphase hcreate
  · rename_i now l hphase
    cases hact
    exact .writes hphase
  · rename_i now length fault l hphase
    cases hact
    exact .spoils hphase
  · rename_i fault w image hphase
    cases hact
    exact .cannotPublish hphase
  · rename_i w image hphase
    rw [Index.publish] at hact
    cases hpublish : d.publish with
    | error fault =>
      rw [hpublish] at hact
      cases hact
      exact .cannotPublish hphase
    | ok d' =>
      rw [hpublish] at hact
      cases hact
      exact .publishes hphase hpublish
  · rename_i hphase
    cases hact
    exact .settles hphase
  · obtain ⟨n, hguard, hact⟩ := Option.map_eq_some_iff.1 hact
    cases hact
    exact .unlocks hguard
  · cases hact

end Handle

/-! ## What a handle knows of the lock file -/

/-- What is in the lock file agrees with what its holder has done to it. -/
def Phase.Fits (d : Disk) : Phase → Prop
  | .locked l => d.Staged l.file []
  | .spoiled l => ∃ bytes, d.Staged l.file bytes
  | .written w image => d.Staged w.file image
  | _ => True

/-- Who does not hold the lock knows nothing of the lock file. -/
theorem Phase.fits_of_guard?_eq_none {p : Phase} (h : p.guard? = none) (d : Disk) : p.Fits d := by
  cases p with
  | locked l => cases h
  | spoiled l => cases h
  | written w image => cases h
  | _ => trivial

/-- Who holds the lock knows its lock file. -/
theorem Phase.Fits.staged {p : Phase} {d : Disk} {n : Nat} (h : p.Fits d) (hn : p.guard? = some n) :
    ∃ bytes, d.Staged n bytes := by
  cases p with
  | locked l =>
    cases hn
    exact ⟨_, h⟩
  | spoiled l =>
    cases hn
    exact h
  | written w image =>
    cases hn
    exact ⟨_, h⟩
  | _ => cases hn

namespace Handle

variable {h h' : Handle} {d d' : Disk} {a : Step} {r : Except IndexError Unit}

/-- A handle that does not hold the lock leaves the disk alone, unless there is no lock file and it
takes the lock. -/
theorem Acts.disk_eq (hd : d.Proper) (hacts : Acts h d a h' d' r) (hguard : h.phase.guard? = none)
    (hlink : d.lock.link ≠ .missing) : d' = d ∧ h'.phase.guard? = none := by
  cases hacts with
  | works hphase =>
    rcases hphase with hphase | ⟨l, hphase⟩
    · exact ⟨rfl, hguard⟩
    · rw [hphase] at hguard
      cases hguard
  | locks hphase hcreate => exact absurd (hd.createLock_eq_ok hcreate).1 hlink
  | writes hphase | spoils hphase | publishes hphase =>
    rw [hphase] at hguard
    cases hguard
  | unlocks hn =>
    rw [hn] at hguard
    cases hguard
  | cannotLook | cannotLock => exact ⟨rfl, hguard⟩
  | _ => exact ⟨rfl, rfl⟩

/-- After a step the paths are as they have to be, and the handle agrees with the lock file. -/
theorem Acts.fits (hd : d.Proper) (hfits : h.phase.Fits d) (hacts : Acts h d a h' d' r) :
    d'.Proper ∧ h'.phase.Fits d' := by
  cases hacts with
  | works | cannotLook | cannotLock => exact ⟨hd, hfits⟩
  | looks | cannotLoad | loads | cannotPublish | settles => exact ⟨hd, trivial⟩
  | locks hphase hcreate =>
    obtain ⟨-, hproper, hstaged, -⟩ := hd.createLock_eq_ok hcreate
    exact ⟨hproper, hstaged⟩
  | writes hphase =>
    rw [hphase] at hfits
    -- The lock file was empty, so nothing is left of what was in it.
    obtain ⟨hproper, hstaged, -⟩ := Disk.Staged.overwrite hfits hd (h.index.settled _).image _
    rw [List.drop_nil, List.append_nil] at hstaged
    exact ⟨hproper, hstaged⟩
  | spoils hphase =>
    rw [hphase] at hfits
    obtain ⟨hproper, hstaged, -⟩ := Disk.Staged.overwrite hfits hd ((h.index.settled _).image.take _) _
    exact ⟨hproper, _, hstaged⟩
  | publishes hphase hpublish =>
    rw [hphase] at hfits
    exact ⟨(Disk.Staged.publish hfits hpublish).1, trivial⟩
  | unlocks hguard =>
    obtain ⟨bytes, hstaged⟩ := hfits.staged hguard
    exact ⟨(hstaged.removeLock hd).1, trivial⟩

/-- Whether a step has published. -/
def isPublication : Step → Except IndexError Unit → Bool
  | .publish _, .ok _ => true
  | _, _ => false

/-- Every step but one that publishes leaves the index file as it looks. -/
theorem Acts.looksLike (hd : d.Proper) (hfits : h.phase.Fits d) (hacts : Acts h d a h' d' r)
    (hnot : isPublication a r = false) : d'.LooksLike d := by
  cases hacts with
  | locks hphase hcreate => exact (hd.createLock_eq_ok hcreate).2.2.2
  | writes hphase =>
    rw [hphase] at hfits
    exact (Disk.Staged.overwrite hfits hd _ _).2.2
  | spoils hphase =>
    rw [hphase] at hfits
    exact (Disk.Staged.overwrite hfits hd _ _).2.2
  | publishes => cases hnot
  | unlocks hguard =>
    obtain ⟨bytes, hstaged⟩ := hfits.staged hguard
    exact (hstaged.removeLock hd).2.2
  | _ => exact ⟨rfl, rfl⟩

/-- A step that publishes makes the image that the handle has written the content of the index
file. -/
theorem Acts.published (hfits : h.phase.Fits d) (hacts : Acts h d a h' d' r)
    (hpublished : isPublication a r = true) :
    ∃ w image, h.phase = .written w image ∧ d'.content = .ok (some image) ∧
      (∃ fp, d'.fingerprint = .ok (some fp)) ∧ h' = ⟨h.index, .published, some image, false⟩ := by
  cases hacts with
  | publishes hphase hpublish =>
    rw [hphase] at hfits
    obtain ⟨-, -, hcontent, hseen⟩ := Disk.Staged.publish hfits hpublish
    exact ⟨_, _, hphase, hcontent, hseen, rfl⟩
  | _ => cases hpublished

/-- No step binds an index to another path. -/
theorem Acts.path_eq (hacts : Acts h d a h' d' r) : h'.index.path = h.index.path := by
  cases hacts with
  | loads hphase hload =>
    rw [Index.load] at hload
    split at hload
    · cases hload
    · cases hload
      rfl
    · obtain ⟨image, -, rfl⟩ := Check.map_eq_ok.1 hload
      rfl
  | _ => rfl

/-- Being overtaken is nothing that a handle does. -/
@[simp] theorem phase_overtake (h : Handle) : h.overtake.phase = h.phase := by
  rw [overtake]
  split <;> rfl

@[simp] theorem index_overtake (h : Handle) : h.overtake.index = h.index := by
  rw [overtake]
  split <;> rfl

end Handle

/-! ## Handles together -/

/-- Handles on one path, and the disk they share. -/
structure Shared (ι : Type) where
  disk : Disk
  handle : ι → Handle

namespace Shared

open Handle

variable {ι : Type} {s : Shared ι} {i j : ι} {a : Step}

/-- New handles on a path. -/
def start (path : Bytes) (settings : ι → Settings) (disk : Disk) : Shared ι :=
  ⟨disk, fun i => ⟨.new path (settings i), .idle, none, false⟩⟩

/-- Whether a handle holds the lock, or what has become of it. -/
def Holds (s : Shared ι) (i : ι) : Prop := (s.handle i).phase.guard? ≠ none

/-- The paths are as they have to be, at most one handle holds the lock, and every handle agrees with
the lock file. -/
structure Guarded (s : Shared ι) : Prop where
  proper : s.disk.Proper
  fits : ∀ i, (s.handle i).phase.Fits s.disk
  single : ∀ i j, s.Holds i → s.Holds j → i = j

/-- New handles hold nothing. -/
theorem start_guarded (path : Bytes) (settings : ι → Settings) {d : Disk} (hd : d.Proper) :
    (start path settings d).Guarded where
  proper := hd
  fits _ := trivial
  single _ _ h := absurd rfl h

/-- While a handle holds the lock there is its lock file. -/
theorem Guarded.link_ne_missing (hs : s.Guarded) (h : s.Holds i) : s.disk.lock.link ≠ .missing := by
  obtain ⟨n, hn⟩ := Option.ne_none_iff_exists'.1 h
  obtain ⟨bytes, hstaged⟩ := (hs.fits i).staged hn
  exact hstaged.link_ne_missing

variable [DecidableEq ι]

/-- All handles after one of them has done something. -/
def replace (s : Shared ι) (i : ι) (h : Handle) (disk : Disk) (overtaking : Bool) : Shared ι :=
  ⟨disk, fun j =>
    if j = i then h else if overtaking then (s.handle j).overtake else s.handle j⟩

/-- A step of one of the handles, and its answer, if it could be made. -/
def perform (s : Shared ι) (i : ι) (a : Step) : Shared ι × Option (Except IndexError Unit) :=
  match (s.handle i).act s.disk a with
  | none => (s, none)
  | some (h, disk, r) => (s.replace i h disk (isPublication a r), some r)

/-- Whether a step of a handle publishes. -/
def publishes (s : Shared ι) (i : ι) (a : Step) : Bool := (s.perform i a).2.any (isPublication a)

/-- Steps of the handles one after another. -/
def run (s : Shared ι) (turns : List (ι × Step)) : Shared ι :=
  turns.foldl (fun s t => (s.perform t.1 t.2).1) s

@[simp] theorem run_nil (s : Shared ι) : s.run [] = s := rfl

@[simp] theorem run_cons (s : Shared ι) (t : ι × Step) (turns : List (ι × Step)) :
    s.run (t :: turns) = (s.perform t.1 t.2).1.run turns := rfl

@[simp] theorem run_concat (s : Shared ι) (turns : List (ι × Step)) (t : ι × Step) :
    s.run (turns ++ [t]) = ((s.run turns).perform t.1 t.2).1 := by
  simp [run]

@[simp] theorem disk_replace (s : Shared ι) (i : ι) (h : Handle) (d : Disk) (b : Bool) :
    (s.replace i h d b).disk = d := rfl

@[simp] theorem handle_replace_self (s : Shared ι) (i : ι) (h : Handle) (d : Disk) (b : Bool) :
    (s.replace i h d b).handle i = h := if_pos rfl

/-- The other handles stay, but for being overtaken. -/
theorem handle_replace_of_ne (s : Shared ι) (hj : j ≠ i) (h : Handle) (d : Disk) (b : Bool) :
    (s.replace i h d b).handle j = if b then (s.handle j).overtake else s.handle j := if_neg hj

/-- The other handles stay in the middle of what they are. -/
theorem phase_replace_of_ne (s : Shared ι) (hj : j ≠ i) (h : Handle) (d : Disk) (b : Bool) :
    ((s.replace i h d b).handle j).phase = (s.handle j).phase := by
  rw [handle_replace_of_ne s hj]
  split
  · exact phase_overtake _
  · rfl

/-- A step cannot be made and changes nothing, or comes out in one of the ways there are. -/
theorem perform_cases (s : Shared ι) (i : ι) (a : Step) :
    s.perform i a = (s, none) ∨ ∃ h d r, Acts (s.handle i) s.disk a h d r ∧
      s.perform i a = (s.replace i h d (isPublication a r), some r) := by
  rw [perform]
  cases hact : (s.handle i).act s.disk a with
  | none => exact Or.inl rfl
  | some x =>
    obtain ⟨h, d, r⟩ := x
    exact Or.inr ⟨h, d, r, acts_of_act hact, rfl⟩

/-- Every step keeps this. -/
theorem perform_guarded (hs : s.Guarded) (i : ι) (a : Step) : (s.perform i a).1.Guarded := by
  rcases s.perform_cases i a with h | ⟨h', d', r, hacts, h⟩
  · rw [h]
    exact hs
  · rw [h]
    obtain ⟨hproper, hfits⟩ := hacts.fits hs.proper (hs.fits i)
    -- While another handle holds the lock, nothing happens to the disk.
    have hother : ∀ j, j ≠ i → s.Holds j → d' = s.disk ∧ h'.phase.guard? = none := by
      intro j hj hholds
      refine hacts.disk_eq hs.proper ?_ (hs.link_ne_missing hholds)
      by_contra hi
      exact hj (hs.single j i hholds hi)
    refine ⟨hproper, fun j => ?_, fun j k hj hk => ?_⟩
    · by_cases hji : j = i
      · subst hji
        simpa using hfits
      · rw [phase_replace_of_ne s hji, disk_replace]
        by_cases hholds : (s.handle j).phase.guard? = none
        · exact Phase.fits_of_guard?_eq_none hholds d'
        · rw [(hother j hji hholds).1]
          exact hs.fits j
    · simp only [Holds] at hj hk
      by_cases hji : j = i <;> by_cases hki : k = i
      · rw [hji, hki]
      · subst hji
        rw [phase_replace_of_ne s hki] at hk
        rw [handle_replace_self] at hj
        exact absurd (hother k hki hk).2 hj
      · subst hki
        rw [phase_replace_of_ne s hji] at hj
        rw [handle_replace_self] at hk
        exact absurd (hother j hji hj).2 hk
      · rw [phase_replace_of_ne s hji] at hj
        rw [phase_replace_of_ne s hki] at hk
        exact hs.single j k hj hk

/-- Every run keeps this. -/
theorem run_guarded (hs : s.Guarded) (turns : List (ι × Step)) : (s.run turns).Guarded := by
  induction turns generalizing s with
  | nil => exact hs
  | cons t turns ih => exact ih (perform_guarded hs t.1 t.2)

/-- No step binds an index to another path. -/
theorem path_perform (s : Shared ι) (i : ι) (a : Step) (j : ι) :
    ((s.perform i a).1.handle j).index.path = (s.handle j).index.path := by
  rcases s.perform_cases i a with h | ⟨h', d', r, hacts, h⟩
  · rw [h]
  · rw [h]
    by_cases hji : j = i
    · subst hji
      simpa using hacts.path_eq
    · rw [handle_replace_of_ne s hji]
      split
      · rw [index_overtake]
      · rfl

/-- No run does. -/
theorem path_run (s : Shared ι) (turns : List (ι × Step)) (j : ι) :
    ((s.run turns).handle j).index.path = (s.handle j).index.path := by
  induction turns generalizing s with
  | nil => rfl
  | cons t turns ih => rw [run_cons, ih, path_perform]

end Shared

end StagingIndex
