import Mathlib
import StagingIndex.Proofs.CountedRuns

/-! # What a status says

Only entries without marks that are not in conflict are looked at. In a table no two of them have the
same path, and none has the path of an entry in conflict, so every path is sorted out once. A source
of stat data is asked for one file after another until a look fails; what it is asked and what it
answers is written down, and the status is told from that.

* `Observed` — a source of stat data that writes down its answers
* `Status.Looks` — what looking at entries comes to
* `Status.Asks` — what a source is asked, and when a status fails
* `Status.Classifies` — where the paths of a table are listed
* `Observed.compute_classifies` — for every table, every cutoff and every source -/

namespace StagingIndex

/-- What a source of stat data answers to a path. -/
abbrev StatAnswer : Type := Bytes × Except FileFault (Option Stat)

/-- A source of stat data that writes down its answers. -/
structure Observed (σ : Type) where
  source : σ
  /-- What was asked and answered, the oldest first. -/
  answers : List StatAnswer

namespace Observed

variable {σ : Type}

/-- A source that has not been asked anything yet. -/
def start (s : σ) : Observed σ := ⟨s, []⟩

@[simp] theorem source_start (s : σ) : (start s).source = s := rfl

@[simp] theorem answers_start (s : σ) : (start s).answers = [] := rfl

instance [StatSource σ] : StatSource (Observed σ) where
  stat p o :=
    let (answer, s) := StatSource.stat p o.source
    (answer, ⟨s, o.answers ++ [(p, answer)]⟩)

/-- A look writes down its answer. -/
theorem stat_eq [StatSource σ] (p : Bytes) (o : Observed σ) :
    StatSource.stat p o = ((StatSource.stat p o.source).1,
      ⟨(StatSource.stat p o.source).2, o.answers ++ [(p, (StatSource.stat p o.source).1)]⟩) := rfl

end Observed

/-! ## Looking at entries -/

instance : Std.OrientedOrd Timestamp :=
  inferInstanceAs (Std.OrientedCmp (compareLex (compareOn Timestamp.seconds)
    (compareOn Timestamp.nanos)))

namespace Entry

variable {e : Entry} {cutoff : Timestamp}

/-- An entry that is looked at is merged. -/
theorem stage_of_isExamined (h : e.isExamined = true) : e.stage = .merged := by
  simp only [isExamined, Stage.isConflict, Bool.and_eq_true] at h
  simpa using h.1.1.1

/-- An entry is racy unless it changed before the cutoff, or there is none. -/
theorem isRacy_eq_false_iff :
    e.isRacy cutoff = false ↔ compare e.mtime cutoff = .lt ∨ cutoff = .zero := by
  have hle : (compare cutoff e.mtime).isLE = false ↔ compare e.mtime cutoff = .lt := by
    rw [← Std.OrientedCmp.gt_iff_lt]
    cases compare cutoff e.mtime <;> simp
  rw [isRacy, Bool.and_eq_false_iff, hle, or_comm]
  simp

/-- An entry is found clean if a file of its kind is there and, unless it is a nested repository,
looks as recorded and did not change at or after the cutoff. -/
theorem judge_eq_clean_iff {stat : Option Stat} :
    e.judge cutoff stat = .clean ↔ ∃ s, stat = some s ∧
      s.entryMode?.map Mode.fileKind = some e.mode.fileKind ∧
      (e.mode = .gitlink ∨
        e.statMatches s = true ∧ (compare e.mtime cutoff = .lt ∨ cutoff = .zero)) := by
  rw [← isRacy_eq_false_iff]
  cases stat with
  | none => simp [judge]
  | some s =>
    simp only [judge, Option.some.injEq, exists_eq_left']
    split_ifs with hkind hgit hmatch hracy
    · simp [hkind]
    · simp [hgit, not_not.1 hkind]
    · simp_all
    · simp_all
    · simp_all

/-- An entry is found missing if there is no file. -/
theorem judge_eq_missing_iff {stat : Option Stat} : e.judge cutoff stat = .missing ↔ stat = none := by
  cases stat with
  | none => simp [judge]
  | some s =>
    simp only [judge]
    split_ifs <;> simp

end Entry

namespace Status

variable {cutoff : Timestamp} {es : List Entry} {answers : List StatAnswer}

/-- What looking at entries comes to: a look at each in order, until one fails. -/
inductive Looks (cutoff : Timestamp) :
    List Entry → List StatAnswer → Except IndexError (List (Bytes × Verdict)) → Prop
  | done : Looks cutoff [] [] (.ok [])
  | failed {e : Entry} {es : List Entry} {fault : FileFault} :
      Looks cutoff (e :: es) [(e.path, .error fault)] (.error (.io e.path fault))
  | looked {e : Entry} {es : List Entry} {answers : List StatAnswer}
      {r : Except IndexError (List (Bytes × Verdict))} (stat : Option Stat)
      (h : Looks cutoff es answers r) :
      Looks cutoff (e :: es) ((e.path, .ok stat) :: answers)
        (r.map ((e.path, e.judge cutoff stat) :: ·))

/-- Examining entries looks at them, and goes on as without writing down the answers. -/
theorem examine_observed {σ : Type} [StatSource σ] (cutoff : Timestamp) (es : List Entry)
    (o : Observed σ) :
    examine cutoff es o.source = ((examine cutoff es o).1, (examine cutoff es o).2.source) ∧
      ∃ answers, (examine cutoff es o).2.answers = o.answers ++ answers ∧
        Looks cutoff es answers (examine cutoff es o).1 := by
  induction es generalizing o with
  | nil => exact ⟨rfl, [], (List.append_nil _).symm, .done⟩
  | cons e es ih =>
    rw [examine, examine, Observed.stat_eq]
    match h : StatSource.stat e.path o.source with
    | (.error fault, s) => exact ⟨rfl, _, rfl, .failed⟩
    | (.ok stat, s) =>
      obtain ⟨hsource, answers, hanswers, hlooks⟩ := ih ⟨s, o.answers ++ [(e.path, .ok stat)]⟩
      simp only at hsource ⊢
      rw [hsource]
      refine ⟨rfl, (e.path, .ok stat) :: answers, ?_, .looked stat hlooks⟩
      rw [hanswers, List.append_assoc, List.singleton_append]

/-- Entries are asked for in their order. -/
theorem Looks.isPrefix {r : Except IndexError (List (Bytes × Verdict))}
    (h : Looks cutoff es answers r) : answers.map (·.1) <+: es.map (·.path) := by
  induction h with
  | done => exact List.prefix_rfl
  | failed => simp
  | looked stat _ ih => simpa using ih

/-- Looking fails if an answer is a fault, and then with the first fault. -/
theorem Looks.eq_error_iff {r : Except IndexError (List (Bytes × Verdict))}
    (h : Looks cutoff es answers r) (error : IndexError) :
    r = .error error ↔ ∃ p fault,
      answers.find? (fun a => !a.2.isOk) = some (p, .error fault) ∧ error = .io p fault := by
  induction h with
  | done => simp
  | @failed e es fault =>
    simp only [List.find?_singleton, Except.isOk, Except.toBool, Except.error.injEq]
    simp [eq_comm]
  | looked stat _ ih =>
    rw [Check.map_eq_error, ih]
    simp [Except.isOk, Except.toBool]

/-- Looking that does not fail gives an answer and a verdict for each entry. -/
theorem Looks.eq_map {judged : List (Bytes × Verdict)} (h : Looks cutoff es answers (.ok judged)) :
    ∃ looks : List (Entry × Option Stat), looks.map (·.1) = es ∧
      looks.map (fun l => (l.1.path, .ok l.2)) = answers ∧
      looks.map (fun l => (l.1.path, l.1.judge cutoff l.2)) = judged := by
  generalize hr : Except.ok judged = r at h
  induction h generalizing judged with
  | done =>
    cases hr
    exact ⟨[], rfl, rfl, rfl⟩
  | failed => cases hr
  | @looked e es answers r stat _ ih =>
    obtain ⟨rest, rfl, rfl⟩ := Check.map_eq_ok.1 hr.symm
    obtain ⟨looks, rfl, rfl, rfl⟩ := ih rfl
    exact ⟨(e, stat) :: looks, rfl, rfl, rfl⟩

/-- Looking that meets no fault looks at every entry. -/
theorem Looks.map_fst_eq {r : Except IndexError (List (Bytes × Verdict))}
    (h : Looks cutoff es answers r) (hok : ∀ a ∈ answers, a.2.isOk = true) :
    answers.map (·.1) = es.map (·.path) := by
  cases r with
  | error error =>
    -- An error comes with an answer that is a fault.
    obtain ⟨p, fault, hfind, -⟩ := (h.eq_error_iff error).1 rfl
    have := hok _ (List.mem_of_find?_eq_some hfind)
    simp [Except.isOk, Except.toBool] at this
  | ok judged =>
    obtain ⟨looks, rfl, rfl, -⟩ := h.eq_map
    rw [List.map_map, List.map_map]
    rfl

/-! ## Sorting out -/

/-- The lists of a status, of paths alone. -/
def lists (st : Status) : List (List Bytes) :=
  [st.modified.map (·.1), st.deleted, st.racy, st.conflicts]

/-- What a source is asked for a table, and when the result is an error. -/
structure Asks (t : Table) (answers : List StatAnswer) (r : Except IndexError Status) : Prop where
  /-- Only examined entries are asked for, in the order of the table. -/
  inOrder : answers.map (·.1) <+: (t.filter Entry.isExamined).map (·.path)
  /-- All of them are, if no answer is a fault. -/
  complete : (∀ a ∈ answers, a.2.isOk = true) →
    answers.map (·.1) = (t.filter Entry.isExamined).map (·.path)
  /-- The result is an error if an answer is a fault, and names the first path with one. -/
  eq_error_iff : ∀ error, r = .error error ↔ ∃ p fault,
    answers.find? (fun a => !a.2.isOk) = some (p, .error fault) ∧ error = .io p fault

/-- Where the paths of a table are listed, by what a source has answered. -/
structure Classifies (t : Table) (cutoff : Timestamp) (answers : List StatAnswer) (st : Status) :
    Prop where
  /-- Every list is in the order of the table. -/
  increasing : ∀ paths ∈ st.lists, paths.Pairwise fun a b => compare a b = .lt
  /-- No path is listed twice. -/
  once : st.lists.flatten.Nodup
  /-- The paths in conflict are those with a stage of a conflict. -/
  mem_conflicts_iff : ∀ p, p ∈ st.conflicts ↔ ∃ e ∈ t, e.stage ≠ .merged ∧ e.path = p
  /-- Deleted are the paths at which there was no file. -/
  mem_deleted_iff : ∀ p, p ∈ st.deleted ↔ (p, .ok none) ∈ answers
  /-- Modified are the paths of entries whose file was found changed. -/
  mem_modified_iff : ∀ p change, (p, change) ∈ st.modified ↔
    ∃ e ∈ t, e.isExamined = true ∧ e.path = p ∧
      ∃ s, (p, .ok (some s)) ∈ answers ∧ e.judge cutoff (some s) = .changed change
  /-- Racy are the paths of entries whose file was found racy. -/
  mem_racy_iff : ∀ p, p ∈ st.racy ↔
    ∃ e ∈ t, e.isExamined = true ∧ e.path = p ∧
      ∃ s, (p, .ok (some s)) ∈ answers ∧ e.judge cutoff (some s) = .racy
  /-- The path of an examined entry is not listed if there was a file of its kind that, unless it is
  a nested repository, looks as recorded and did not change at or after the cutoff. -/
  not_listed_iff : ∀ e ∈ t, e.isExamined = true → (e.path ∉ st.lists.flatten ↔
    ∃ s, (e.path, .ok (some s)) ∈ answers ∧
      s.entryMode?.map Mode.fileKind = some e.mode.fileKind ∧
      (e.mode = .gitlink ∨
        e.statMatches s = true ∧ (compare e.mtime cutoff = .lt ∨ cutoff = .zero)))

/-- A path is listed with a verdict if it has it. -/
theorem mem_pathsWith {v : Verdict} {judged : List (Bytes × Verdict)} {p : Bytes} :
    p ∈ pathsWith v judged ↔ (p, v) ∈ judged := by
  simp [pathsWith]

/-- A path is listed with a change if that is its verdict. -/
theorem mem_filterMap_change? {judged : List (Bytes × Verdict)} {p : Bytes} {c : FileChange} :
    (p, c) ∈ judged.filterMap change? ↔ (p, .changed c) ∈ judged := by
  rw [List.mem_filterMap]
  constructor
  · rintro ⟨⟨q, v⟩, hm, hc⟩
    cases v with
    | changed d =>
      cases hc
      exact hm
    | _ => cases hc
  · intro hm
    exact ⟨_, hm, rfl⟩

/-- A path is listed with some change if it has one for its verdict. -/
theorem mem_map_change? {judged : List (Bytes × Verdict)} {p : Bytes} :
    p ∈ (judged.filterMap change?).map (·.1) ↔ ∃ c, (p, .changed c) ∈ judged := by
  simp only [List.mem_map, Prod.exists, exists_and_right, exists_eq_right, mem_filterMap_change?]

/-- The paths with changes are some of the paths with verdicts, in their order. -/
theorem map_change?_sublist (judged : List (Bytes × Verdict)) :
    ((judged.filterMap change?).map (·.1)).Sublist (judged.map (·.1)) := by
  induction judged with
  | nil => exact List.Sublist.refl _
  | cons a judged ih =>
    obtain ⟨p, v⟩ := a
    cases v with
    | changed c => exact ih.cons_cons p
    | _ => exact ih.cons p

/-- Entries that are looked at, in the order of a table, have increasing paths. -/
theorem pairwise_path_examined {t : Table} (h : t.IsSorted) :
    (t.filter Entry.isExamined).Pairwise fun a b => compare a.path b.path = .lt := by
  refine List.Pairwise.imp_of_mem ?_ (h.sublist List.filter_sublist)
  intro a b ha hb hab
  have ha := Entry.stage_of_isExamined (List.mem_filter.1 ha).2
  have hb := Entry.stage_of_isExamined (List.mem_filter.1 hb).2
  rcases EntryKey.compare_eq_lt_iff.1 hab with hlt | ⟨-, hlt⟩
  · exact hlt
  · simp [Entry.key, ha, hb] at hlt

section
variable {t : Table} {looks : List (Entry × Option Stat)} {p : Bytes}

/-- The verdicts of looks. -/
def verdicts (cutoff : Timestamp) (looks : List (Entry × Option Stat)) : List (Bytes × Verdict) :=
  looks.map fun l => (l.1.path, l.1.judge cutoff l.2)

/-- The answers of looks. -/
def answersOf (looks : List (Entry × Option Stat)) : List StatAnswer :=
  looks.map fun l => (l.1.path, .ok l.2)

/-- The status that looks at a table give. -/
def ofLooks (t : Table) (cutoff : Timestamp) (looks : List (Entry × Option Stat)) : Status where
  modified := (verdicts cutoff looks).filterMap change?
  deleted := pathsWith .missing (verdicts cutoff looks)
  racy := pathsWith .racy (verdicts cutoff looks)
  conflicts := t.conflictPaths

/-- A verdict is that of a look. -/
theorem mem_verdicts {v : Verdict} :
    (p, v) ∈ verdicts cutoff looks ↔ ∃ l ∈ looks, l.1.path = p ∧ l.1.judge cutoff l.2 = v := by
  simp [verdicts]

/-- An answer is that of a look. -/
theorem mem_answersOf {stat : Option Stat} :
    (p, .ok stat) ∈ answersOf looks ↔ ∃ l ∈ looks, l.1.path = p ∧ l.2 = stat := by
  simp [answersOf]

/-- With increasing paths, every path has one look. -/
theorem eq_of_path (hp : looks.Pairwise fun l m => compare l.1.path m.1.path = .lt)
    {l m : Entry × Option Stat} (hl : l ∈ looks) (hm : m ∈ looks) (h : l.1.path = m.1.path) :
    l = m := by
  have hnodup : (looks.map fun l => l.1.path).Nodup :=
    List.pairwise_map.2 (hp.imp fun hlt heq => by simp [heq] at hlt)
  exact List.inj_on_of_nodup_map hnodup hl hm h

/-- With increasing paths, every path has one verdict. -/
theorem verdict_eq (hp : looks.Pairwise fun l m => compare l.1.path m.1.path = .lt) {v w : Verdict}
    (hv : (p, v) ∈ verdicts cutoff looks) (hw : (p, w) ∈ verdicts cutoff looks) : v = w := by
  obtain ⟨l, hl, hlp, rfl⟩ := mem_verdicts.1 hv
  obtain ⟨m, hm, hmp, rfl⟩ := mem_verdicts.1 hw
  rw [eq_of_path hp hl hm (hlp.trans hmp.symm)]

/-- What is listed has a verdict that is not clean, or is in conflict. -/
theorem mem_lists_ofLooks :
    p ∈ (ofLooks t cutoff looks).lists.flatten ↔
      (∃ v, v ≠ .clean ∧ (p, v) ∈ verdicts cutoff looks) ∨ p ∈ t.conflictPaths := by
  simp only [lists, ofLooks, List.flatten_cons, List.flatten_nil, List.append_nil, List.mem_append,
    mem_map_change?, mem_pathsWith]
  constructor
  · rintro (⟨c, h⟩ | h | h | h)
    · exact Or.inl ⟨_, by simp, h⟩
    · exact Or.inl ⟨_, by simp, h⟩
    · exact Or.inl ⟨_, by simp, h⟩
    · exact Or.inr h
  · rintro (⟨v, hv, h⟩ | h)
    · cases v with
      | clean => exact absurd rfl hv
      | missing => exact Or.inr (Or.inl h)
      | changed c => exact Or.inl ⟨c, h⟩
      | racy => exact Or.inr (Or.inr (Or.inl h))
    · exact Or.inr (Or.inr (Or.inr h))

/-- Looks at the examined entries of a table have increasing paths. -/
theorem pairwise_looks (h : t.IsSorted) (hl : looks.map (·.1) = t.filter Entry.isExamined) :
    looks.Pairwise fun l m => compare l.1.path m.1.path = .lt :=
  List.pairwise_map.1 (hl ▸ pairwise_path_examined h)

/-- There is a look at every examined entry of the table, and at no others. -/
theorem exists_look_iff (hl : looks.map (·.1) = t.filter Entry.isExamined) {e : Entry} :
    (∃ l ∈ looks, l.1 = e) ↔ e ∈ t ∧ e.isExamined = true := by
  rw [← List.mem_filter, ← hl, List.mem_map]

/-- No path with a verdict is in conflict. -/
theorem notMem_conflictPaths (h : t.Invariant)
    (hl : looks.map (·.1) = t.filter Entry.isExamined) {v : Verdict}
    (hv : (p, v) ∈ verdicts cutoff looks) : p ∉ t.conflictPaths := by
  intro hc
  obtain ⟨l, hm, rfl, -⟩ := mem_verdicts.1 hv
  obtain ⟨hlt, hle⟩ := (exists_look_iff hl).1 ⟨l, hm, rfl⟩
  obtain ⟨e, he, hstage, hpath⟩ := Table.mem_conflictPaths.1 hc
  exact hstage (h.unmixed l.1 hlt e he hpath.symm (Entry.stage_of_isExamined hle))

/-- A verdict on a file that is there is the verdict on its entry, from what was answered. -/
theorem mem_verdicts_iff_of_ne_missing (h : t.Invariant)
    (hl : looks.map (·.1) = t.filter Entry.isExamined) {v : Verdict} (hv : v ≠ .missing) :
    (p, v) ∈ verdicts cutoff looks ↔ ∃ e ∈ t, e.isExamined = true ∧ e.path = p ∧
      ∃ s, (p, .ok (some s)) ∈ answersOf looks ∧ e.judge cutoff (some s) = v := by
  rw [mem_verdicts]
  constructor
  · rintro ⟨⟨e, stat⟩, hm, rfl, rfl⟩
    obtain ⟨he, hx⟩ := (exists_look_iff hl).1 ⟨_, hm, rfl⟩
    obtain ⟨s, rfl⟩ : ∃ s, stat = some s :=
      Option.ne_none_iff_exists'.1 fun hnone => hv (Entry.judge_eq_missing_iff.2 hnone)
    exact ⟨e, he, hx, rfl, s, mem_answersOf.2 ⟨_, hm, rfl, rfl⟩, rfl⟩
  · rintro ⟨e, he, hx, rfl, s, hs, rfl⟩
    obtain ⟨l, hm, hlp, hls⟩ := mem_answersOf.1 hs
    obtain ⟨m, hmm, rfl⟩ := (exists_look_iff hl).2 ⟨he, hx⟩
    obtain rfl := eq_of_path (pairwise_looks h.sorted hl) hm hmm hlp
    exact ⟨l, hm, rfl, by rw [hls]⟩

/-- An examined entry is listed unless it was found clean. -/
theorem notMem_lists_ofLooks (h : t.Invariant) (hl : looks.map (·.1) = t.filter Entry.isExamined)
    {l : Entry × Option Stat} (hm : l ∈ looks) :
    l.1.path ∉ (ofLooks t cutoff looks).lists.flatten ↔ l.1.judge cutoff l.2 = .clean := by
  have hv : (l.1.path, l.1.judge cutoff l.2) ∈ verdicts cutoff looks :=
    mem_verdicts.2 ⟨l, hm, rfl, rfl⟩
  rw [mem_lists_ofLooks, not_or, not_exists]
  constructor
  · rintro ⟨hclean, -⟩
    by_contra hne
    exact hclean _ ⟨hne, hv⟩
  · intro hclean
    refine ⟨?_, notMem_conflictPaths h hl hv⟩
    rintro v ⟨hne, hw⟩
    exact hne ((verdict_eq (pairwise_looks h.sorted hl) hw hv).trans hclean)

/-- The status of looks at the examined entries sorts out the table. -/
theorem classifies_ofLooks (h : t.Invariant) (hl : looks.map (·.1) = t.filter Entry.isExamined) :
    Classifies t cutoff (answersOf looks) (ofLooks t cutoff looks) := by
  have hp := pairwise_looks h.sorted hl
  have hverdicts : ((verdicts cutoff looks).map (·.1)).Pairwise fun a b => compare a b = .lt := by
    rw [verdicts, List.map_map]
    exact List.pairwise_map.2 hp
  have hincreasing : ∀ paths ∈ (ofLooks t cutoff looks).lists,
      paths.Pairwise fun a b => compare a b = .lt := by
    simp only [lists, ofLooks, List.forall_mem_cons, List.not_mem_nil, false_imp_iff,
      implies_true, and_true]
    exact ⟨hverdicts.sublist (map_change?_sublist _),
      hverdicts.sublist (List.filter_sublist.map _), hverdicts.sublist (List.filter_sublist.map _),
      Table.pairwise_conflictPaths h.sorted⟩
  refine ⟨hincreasing, ?_, ?_, ?_, ?_, ?_, ?_⟩
  · -- Two lists share no path, as a path has one verdict, and none if it is in conflict.
    refine List.nodup_flatten.2 ⟨fun paths hpaths => ?_, ?_⟩
    · refine (hincreasing paths hpaths).imp ?_
      rintro a _ hlt rfl
      simp at hlt
    · have hone : ∀ {q : Bytes} {v w : Verdict}, v ≠ w → (q, v) ∈ verdicts cutoff looks →
          (q, w) ∉ verdicts cutoff looks := fun hne hv hw => hne (verdict_eq hp hv hw)
      simp only [lists, ofLooks, List.pairwise_cons, List.forall_mem_cons, List.not_mem_nil,
        false_imp_iff, implies_true, List.Pairwise.nil, and_true, List.disjoint_left,
        mem_map_change?, mem_pathsWith]
      refine ⟨⟨?_, ?_, ?_⟩, ⟨?_, ?_⟩, ?_⟩
      · rintro q ⟨c, hq⟩
        exact hone (by simp) hq
      · rintro q ⟨c, hq⟩
        exact hone (by simp) hq
      · rintro q ⟨c, hq⟩
        exact notMem_conflictPaths h hl hq
      · exact fun q hq => hone (by simp) hq
      · exact fun q hq => notMem_conflictPaths h hl hq
      · exact fun q hq => notMem_conflictPaths h hl hq
  · exact fun q => Table.mem_conflictPaths
  · intro q
    rw [ofLooks, mem_pathsWith, mem_verdicts, mem_answersOf]
    simp only [Entry.judge_eq_missing_iff]
  · intro q change
    rw [ofLooks, mem_filterMap_change?]
    exact mem_verdicts_iff_of_ne_missing h hl (by simp)
  · intro q
    rw [ofLooks, mem_pathsWith]
    exact mem_verdicts_iff_of_ne_missing h hl (by simp)
  · intro e he hx
    obtain ⟨l, hm, rfl⟩ := (exists_look_iff hl).2 ⟨he, hx⟩
    rw [notMem_lists_ofLooks h hl hm, Entry.judge_eq_clean_iff]
    refine exists_congr fun s => and_congr_left fun _ => ?_
    rw [mem_answersOf]
    constructor
    · exact fun hs => ⟨l, hm, rfl, hs⟩
    · rintro ⟨m, hmm, hpath, hs⟩
      rw [← eq_of_path hp hmm hm hpath, hs]

end

end Status

namespace Observed

open Status

variable {σ : Type} [StatSource σ] {t : Table}

/-- A status that does not fail sorts out the table. -/
theorem classifies_of_compute (h : t.Invariant) {cutoff : Timestamp} {s : σ} {st : Status}
    (hst : (compute t cutoff (start s)).1 = .ok st) :
    Classifies t cutoff (compute t cutoff (start s)).2.answers st := by
  obtain ⟨-, answers, hanswers, hlooks⟩ :=
    examine_observed cutoff (t.filter Entry.isExamined) (start s)
  rw [answers_start, List.nil_append] at hanswers
  obtain ⟨judged, hjudged, rfl⟩ := Check.map_eq_ok.1 hst
  rw [hjudged] at hlooks
  obtain ⟨looks, hl, rfl, rfl⟩ := hlooks.eq_map
  have hasked : (compute t cutoff (start s)).2.answers = answersOf looks := hanswers
  rw [hasked]
  exact classifies_ofLooks h hl

/-- Whatever source is asked for a table: it is asked for the examined entries alone, in the order of
the table; the result is an error if an answer is a fault, and names the first path with one;
otherwise every path is sorted out once, and that of an examined entry is left out if it is clean.
That the source writes down its answers changes nothing. -/
theorem compute_classifies (h : t.Invariant) (cutoff : Timestamp) (s : σ) :
    compute t cutoff s =
        ((compute t cutoff (start s)).1, (compute t cutoff (start s)).2.source) ∧
      Asks t (compute t cutoff (start s)).2.answers (compute t cutoff (start s)).1 ∧
      ∀ st, (compute t cutoff (start s)).1 = .ok st →
        Classifies t cutoff (compute t cutoff (start s)).2.answers st := by
  obtain ⟨hsource, answers, hanswers, hlooks⟩ :=
    examine_observed cutoff (t.filter Entry.isExamined) (start s)
  rw [source_start] at hsource
  rw [answers_start, List.nil_append] at hanswers
  refine ⟨?_, ?_, fun st hst => classifies_of_compute h hst⟩
  · rw [compute, compute, hsource]
  · have hasked : (compute t cutoff (start s)).2.answers = answers := hanswers
    rw [hasked]
    refine ⟨hlooks.isPrefix, hlooks.map_fst_eq, fun error => ?_⟩
    rw [← hlooks.eq_error_iff error]
    exact Check.map_eq_error

/-- A file of five bytes that changed at the first second. -/
def fiveBytes : Stat := ⟨⟨1, 0⟩, ⟨1, 0⟩, 0, 0, 0o100644, 0, 0, 5⟩

/-- Files `a`, `c` and `d`, the last a symbolic link, and a conflict at `b`. -/
def mixedTable : Table :=
  [(Entry.bare [0x61] .merged .regular .null).withStat fiveBytes,
    Entry.bare [0x62] .ours .regular .null, Entry.bare [0x62] .theirs .regular .null,
    Entry.bare [0x63] .merged .regular .null, Entry.bare [0x64] .merged .symlink .null]

/-- There is the same file at `a` and `d`, and nothing at `c`; no other path may be asked for. -/
def mixedAnswers (p : Bytes) : Except FileFault (Option Stat) :=
  if p = [0x61] ∨ p = [0x64] then .ok (some fiveBytes)
  else if p = [0x63] then .ok none
  else .error .busy

/-- Their status leaves out `a` and lists the three other paths, each in a list of its own. -/
theorem compute_classifies_mixed :
    mixedTable.Invariant ∧
      (compute mixedTable ⟨2, 0⟩ (start mixedAnswers)).1 =
        .ok ⟨[([0x64], .typeChanged)], [[0x63]], [], [[0x62]]⟩ ∧
      Asks mixedTable (compute mixedTable ⟨2, 0⟩ (start mixedAnswers)).2.answers
        (compute mixedTable ⟨2, 0⟩ (start mixedAnswers)).1 ∧
      Classifies mixedTable ⟨2, 0⟩ (compute mixedTable ⟨2, 0⟩ (start mixedAnswers)).2.answers
        ⟨[([0x64], .typeChanged)], [[0x63]], [], [[0x62]]⟩ := by
  have hs : mixedTable.IsSorted := by
    unfold Table.IsSorted
    decide
  have ht : mixedTable.Invariant := Table.invariant_of_checkAll hs (by decide) (by cbv)
  have hstatus : (compute mixedTable ⟨2, 0⟩ (start mixedAnswers)).1 =
      .ok ⟨[([0x64], .typeChanged)], [[0x63]], [], [[0x62]]⟩ := by
    decide +kernel
  obtain ⟨-, hasks, hclassifies⟩ := compute_classifies ht ⟨2, 0⟩ mixedAnswers
  exact ⟨ht, hstatus, hasks, hclassifies _ hstatus⟩

end Observed

end StagingIndex
