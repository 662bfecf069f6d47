import Mathlib
import StagingIndex.Proofs.CachedRuns
import StagingIndex.Proofs.IncrementalUpdate
import StagingIndex.Proofs.StoredTrees

/-! # What a refused listing leaves

Where the database refuses a listing, materializing ends with its error, and every call on the way up
to the root ends with it. A directory whose own listing is refused has all its subdirectories; a
directory below which a listing is refused has those that were done before, in the order of the table,
and has lost the one that failed and those that were to come. So of the subdirectories of the root those
are left that come before the one in which a listing was refused, and in them everything that was known,
but for nodes of directories without entries.

* `CacheTree.KeptAlong` — what materializing keeps of what was known
* `CacheTree.MetBefore` — directories that are done before another one
* `CacheTree.Refusal`, `CacheTree.Spares` — a listing that is refused, and what is left of a node
* `CacheTree.stepsKeep_spares` — what each step leaves
* `Index.reaches_writeTree_iff` — which directories are known after a listing was refused -/

namespace StagingIndex

namespace Table

variable {T : Table} {base name : Bytes} {inside left : List Entry}

/-- The subdirectory that is met next comes before those that are met later. -/
theorem Entered.lt_of_left (hs : T.IsSorted) (h : T.Entered base name inside left) {m : Bytes}
    (hm : Bytes.slash ∉ m) (hleft : Table.beginning left (Bytes.below base m) ≠ []) :
    compare (name ++ [Bytes.slash]) (m ++ [Bytes.slash]) = .lt := by
  obtain ⟨i, hi⟩ := List.exists_mem_of_ne_nil inside h.ne_nil
  obtain ⟨o, ho⟩ := List.exists_mem_of_ne_nil _ hleft
  obtain ⟨ho, hob⟩ := mem_beginning.1 ho
  have hout := h.outside o ho
  have hne : name ≠ m := by
    rintro rfl
    rw [hob] at hout
    cases hout
  have hkey : compare i.key o.key = .lt :=
    (List.pairwise_append.1 (hs.sublist h.ahead.sublist)).2.2 i hi o ho
  obtain ⟨r, hr⟩ := Bytes.beginsWith_below_iff.1 (h.beginsWith hi)
  obtain ⟨q, hq⟩ := Bytes.beginsWith_below_iff.1 hob
  rcases EntryKey.compare_eq_lt_iff.1 hkey with hlt | ⟨heq, -⟩
  · -- The names with their slashes are beginnings of what follows the base in the paths.
    have hlt : compare i.path o.path = .lt := hlt
    rw [hr, hq, Bytes.compare_append_left, List.append_cons, List.append_cons m] at hlt
    refine (Bytes.isPrefix_or_lt hlt).resolve_left fun hpre => hne ?_
    have hself : (name ++ [Bytes.slash]).beginsWith (Bytes.below [] name) = true := by
      simp [Bytes.below]
    have hother : (name ++ [Bytes.slash]).beginsWith (Bytes.below [] m) = true := by
      simpa [Bytes.below] using hpre
    exact Bytes.name_eq_of_below h.slash hm hself hother
  · have heq : i.path = o.path := heq
    rw [← heq, h.beginsWith hi] at hout
    cases hout

end Table

namespace CacheTree

variable {σ : Type} [ObjectDatabase σ] {T : Table} {base name : Bytes} {t t' : CacheTree}
  {ts ts' : List CacheTree} {names fs : List Bytes}

/-! ## What is left -/

/-- What is known where some names lead is kept: a node that knows is met on the way, and up to there
all directories have entries. -/
def KeptAlong (T : Table) : Bytes → CacheTree → List Bytes → Prop
  | _, t, [] => t.known ≠ none
  | base, t, name :: names => t.known ≠ none ∨ T.beginning (Bytes.below base name) ≠ [] ∧
      ∃ c ∈ t.children, c.name = name ∧ KeptAlong T (Bytes.below base name) c names

/-- A node that knows keeps everything. -/
theorem keptAlong_of_known (hk : t.known ≠ none) (names : List Bytes) : KeptAlong T base t names := by
  cases names with
  | nil => exact hk
  | cons name names => exact Or.inl hk

/-- What is known where some names lead is kept if on the way there is a directory with entries that is
known, or if the directory is known in which they start. -/
theorem keptAlong_iff : KeptAlong T base t names ↔ ∃ ps, ps <+: names ∧
    (t.Reaches ps fun n => n.known ≠ none) ∧ (ps = [] ∨ T.beginning (Bytes.baseOf base ps) ≠ []) := by
  induction names generalizing base t with
  | nil => simp [KeptAlong, List.prefix_nil]
  | cons name names ih =>
    simp only [KeptAlong, ih, List.prefix_cons_iff]
    constructor
    · rintro (hk | ⟨hb, c, hc, hn, ps, hps, hr, hfound⟩)
      · exact ⟨[], Or.inl rfl, hk, Or.inl rfl⟩
      · refine ⟨name :: ps, Or.inr ⟨ps, rfl, hps⟩, ⟨c, hc, hn, hr⟩, Or.inr ?_⟩
        rcases hfound with rfl | hfound
        · exact hb
        · exact hfound
    · rintro ⟨_, rfl | ⟨ps, rfl, hps⟩, hr, hfound⟩
      · exact Or.inl hr
      · obtain ⟨c, hc, hn, hr⟩ := hr
        have hfound := hfound.resolve_left (List.cons_ne_nil name ps)
        refine Or.inr ⟨?_, c, hc, hn, ps, hps, hr, Or.inr hfound⟩
        exact beginning_ne_nil_of_isPrefix (Bytes.isPrefix_baseOf (Bytes.below base name) ps) hfound

/-- What some names lead to is met before what others lead to: the first of them comes before the first
of the others, as subdirectories do in a table. Where the others lead nowhere everything is met
before. -/
def MetBefore (names fs : List Bytes) : Prop :=
  ∀ n ∈ names.head?, ∀ m ∈ fs.head?, compare (n ++ [Bytes.slash]) (m ++ [Bytes.slash]) = .lt

instance (names fs : List Bytes) : Decidable (MetBefore names fs) :=
  inferInstanceAs (Decidable (∀ n ∈ names.head?, ∀ m ∈ fs.head?,
    compare (n ++ [Bytes.slash]) (m ++ [Bytes.slash]) = .lt))

/-- Everything is met before the directory in which names start. -/
theorem metBefore_nil (names : List Bytes) : MetBefore names [] := by
  simp [MetBefore]

/-- The first name decides what is met before. -/
theorem metBefore_cons_iff : MetBefore (name :: names) fs ↔ MetBefore [name] fs := by
  simp [MetBefore]

/-- What is left of a node where a listing was refused to which some names lead: of what was known,
that which is met before, as far as it is kept. Where nothing was refused the names are none. -/
def Spares (T : Table) (base : Bytes) (fs : List Bytes) (t t' : CacheTree) : Prop :=
  ∀ names k, (∀ n ∈ names, Bytes.slash ∉ n) → (t.Reaches names fun n => n.known = some k) →
    ((t'.Reaches names fun n => n.known = some k) ↔ MetBefore names fs ∧ KeptAlong T base t names)

/-- What is left of the subdirectories of a directory. -/
structure SparesBelow (T : Table) (base : Bytes) (left : List Entry) (fs : List Bytes)
    (ts ts' : List CacheTree) : Prop where
  kept : ∀ c ∈ ts, Bytes.slash ∉ c.name → Table.beginning left (Bytes.below base c.name) ≠ [] →
    MetBefore [c.name] fs → ∃ c' ∈ ts', c'.name = c.name ∧ Spares T (Bytes.below base c.name) [] c c'
  metBefore : ∀ c' ∈ ts', MetBefore [c'.name] fs

/-- A directory that knows is left as it is. -/
theorem spares_known (hk : t.known ≠ none) : Spares T base [] t t := by
  intro names k _ hr
  exact iff_of_true hr ⟨metBefore_nil names, keptAlong_of_known hk names⟩

/-- Where nothing is left to list there are no subdirectories to keep. -/
theorem sparesBelow_nil : SparesBelow T base [] [] ts [] where
  kept := by simp [Table.beginning]
  metBefore := by simp

/-- With a file the subdirectories stay the same. -/
theorem SparesBelow.file {left : List Entry} {e : Entry} (h : SparesBelow T base left fs ts ts')
    (hp : e.path = base ++ name) (hn : Bytes.slash ∉ name) : SparesBelow T base (e :: left) fs ts ts' where
  kept c hc hslash hfound := by
    have hleft : Table.beginning (e :: left) (Bytes.below base c.name) =
        Table.beginning left (Bytes.below base c.name) := Table.beginning_cons_of_file hp hn c.name []
    exact h.kept c hc hslash (hleft ▸ hfound)
  metBefore := h.metBefore

/-- Where a listing is refused in the subdirectory that is met next no subdirectory is left, and none
was met before. -/
theorem sparesBelow_unfinished {inside left : List Entry} (hs : T.IsSorted)
    (ha : T.Entered base name inside left) : SparesBelow T base (inside ++ left) (name :: fs) ts [] where
  kept c _ hslash hfound hbefore := by
    have hlt : compare (c.name ++ [Bytes.slash]) (name ++ [Bytes.slash]) = .lt :=
      hbefore c.name rfl name rfl
    by_cases hname : c.name = name
    · simp [hname] at hlt
    · have hleft := ha.beginning_append_of_ne hslash hname []
      have hgt := ha.lt_of_left hs hslash fun hnil => hfound (hleft.trans hnil)
      simp [Std.OrientedCmp.gt_iff_lt.2 hlt] at hgt
  metBefore := by simp

/-- A subdirectory that is met next and done is left with those that are met later. -/
theorem SparesBelow.subtree {inside left : List Entry} {child : CacheTree}
    (hs : ts.Pairwise fun a b => compare a.name b.name = .lt) (ha : T.Entered base name inside left)
    (hname : child.name = name) (hc : Spares T (Bytes.below base name) [] (takeChild ts name).1 child)
    (hbefore : MetBefore [name] fs) (h : SparesBelow T base left fs (takeChild ts name).2 ts') :
    SparesBelow T base (inside ++ left) fs ts (child :: ts') where
  kept c hm hslash hfound hmet := by
    by_cases hown : c.name = name
    · subst hown
      rw [takeChild_fst_of_mem hs hm] at hc
      exact ⟨child, List.mem_cons_self, hname, hc⟩
    · have hleft := ha.beginning_append_of_ne hslash hown []
      obtain ⟨c', hc', hrest⟩ := h.kept c ((mem_takeChild_snd hs).2 ⟨hm, hown⟩) hslash
        (fun hnil => hfound (hleft.trans hnil)) hmet
      exact ⟨c', List.mem_cons_of_mem _ hc', hrest⟩
  metBefore := List.forall_mem_cons.2 ⟨hname ▸ hbefore, h.metBefore⟩

/-- What is left of the subdirectories is what is left of a directory that is not known. -/
theorem SparesBelow.spares (h : SparesBelow T base (T.beginning base) fs t.children ts')
    (hs : SiblingsSorted t) (hk : t.known = none) (hm : Met base (T.beginning base) ts')
    (hsame : ∀ c, c ∈ t'.children ↔ c ∈ ts') : Spares T base fs t t' := by
  intro names k hslash hr
  cases names with
  | nil =>
    rw [reaches_nil, hk] at hr
    cases hr
  | cons own rest =>
    obtain ⟨hown, hrest⟩ := List.forall_mem_cons.1 hslash
    obtain ⟨c, hc, rfl, hr⟩ := hr
    have hnot : ¬ t.known ≠ none := not_not.2 hk
    rw [metBefore_cons_iff, KeptAlong, or_iff_right hnot, reaches_cons]
    -- Of the subdirectories that are left at most one has the name.
    have hspares : T.beginning (Bytes.below base c.name) ≠ [] → MetBefore [c.name] fs →
        ∃ c' ∈ ts', c'.name = c.name ∧ Spares T (Bytes.below base c.name) [] c c' ∧
          ∀ c₂ ∈ ts', c₂.name = c.name → c₂ = c' := by
      intro hfound hmet
      have hbelow := Table.beginning_beginning (T := T) (Bytes.isPrefix_baseOf base [c.name])
      obtain ⟨c', hc', hn, hspares⟩ :=
        h.kept c hc hown (fun hnil => hfound (hbelow.symm.trans hnil)) hmet
      have hnodup : (ts'.map CacheTree.name).Nodup := List.pairwise_map.2 hm.distinct
      exact ⟨c', hc', hn, hspares, fun c₂ hc₂ hn₂ =>
        List.inj_on_of_nodup_map hnodup hc₂ hc' (hn₂.trans hn.symm)⟩
    constructor
    · rintro ⟨c₂, hc₂, hn₂, hr₂⟩
      have hc₂ := (hsame c₂).1 hc₂
      obtain ⟨e, he, hb⟩ := hm.found c₂ hc₂
      have hfound : T.beginning (Bytes.below base c.name) ≠ [] :=
        List.ne_nil_of_mem (Table.mem_beginning.2 ⟨(Table.mem_beginning.1 he).1, hn₂ ▸ hb⟩)
      have hmet : MetBefore [c.name] fs := hn₂ ▸ h.metBefore c₂ hc₂
      obtain ⟨c', -, -, hspares, honly⟩ := hspares hfound hmet
      rw [honly c₂ hc₂ hn₂] at hr₂
      exact ⟨hmet, hfound, c, hc, rfl, ((hspares rest k hrest hr).1 hr₂).2⟩
    · rintro ⟨hmet, hfound, c₂, hc₂, hn₂, hkept⟩
      obtain rfl : c₂ = c := Option.some.inj
        (((child_eq_some_iff hs).2 ⟨hc₂, hn₂⟩).symm.trans ((child_eq_some_iff hs).2 ⟨hc, rfl⟩))
      obtain ⟨c', hc', hn, hspares, -⟩ := hspares hfound hmet
      exact ⟨c', (hsame c').2 hc', hn, (hspares rest k hrest hr).2 ⟨metBefore_nil rest, hkept⟩⟩

/-! ## The listing that is refused -/

/-- The listing of a directory to which some names lead is refused, and nothing is done after that. The
directory has entries, or it is the one in which the names start, and nothing was known on the way. -/
structure Refusal (T : Table) (base : Bytes) (t : CacheTree) (names : List Bytes) (e : StoreError)
    (s' : σ) : Prop where
  refused : ∃ s, ObjectDatabase.insertTree (T.treeAt (Bytes.baseOf base names)) s = (.error e, s')
  slash : ∀ n ∈ names, Bytes.slash ∉ n
  found : names = [] ∨ T.beginning (Bytes.baseOf base names) ≠ []
  unknown : t.UnknownAlong names

/-- The listing of a directory is refused that is among what was left of a directory. -/
structure RefusalBelow (T : Table) (base : Bytes) (left : List Entry) (ts : List CacheTree) (name : Bytes)
    (names : List Bytes) (e : StoreError) (s' : σ) : Prop where
  refused : ∃ s, ObjectDatabase.insertTree (T.treeAt (Bytes.baseOf base (name :: names))) s = (.error e, s')
  slash : ∀ n ∈ name :: names, Bytes.slash ∉ n
  found : Table.beginning left (Bytes.baseOf base (name :: names)) ≠ []
  unknown : ∀ c ∈ ts, c.name = name → c.UnknownAlong names

variable {e : StoreError} {s' : σ} {inside left : List Entry}

/-- A listing that is refused is refused after a file as well. -/
theorem RefusalBelow.file {o : Entry} (h : RefusalBelow T base left ts name names e s') {own : Bytes}
    (hp : o.path = base ++ own) (hn : Bytes.slash ∉ own) :
    RefusalBelow T base (o :: left) ts name names e s' where
  refused := h.refused
  slash := h.slash
  found := by
    rw [Table.beginning_cons_of_file hp hn]
    exact h.found
  unknown := h.unknown

/-- A listing that is refused in the subdirectory that is met next. -/
theorem Refusal.entered (hs : ts.Pairwise fun a b => compare a.name b.name = .lt)
    (ha : T.Entered base name inside left)
    (h : Refusal T (Bytes.below base name) (takeChild ts name).1 names e s') :
    RefusalBelow T base (inside ++ left) ts name names e s' where
  refused := h.refused
  slash := List.forall_mem_cons.2 ⟨ha.slash, h.slash⟩
  found := by
    rw [ha.beginning_append]
    rcases h.found with rfl | hfound
    · exact ha.eq_beginning ▸ ha.ne_nil
    · exact hfound
  unknown := (unknownAlong_takeChild hs name names).1 h.unknown

/-- A listing that is refused after the subdirectory that is met next is not in this one. -/
theorem RefusalBelow.ne_of_entered {own : Bytes} (ha : T.Entered base own inside left)
    (h : RefusalBelow T base left ts name names e s') : name ≠ own := by
  rintro rfl
  exact h.found (ha.beginning_left names)

/-- A listing that is refused after the subdirectory that is met next. -/
theorem RefusalBelow.subtree {own : Bytes} (hs : ts.Pairwise fun a b => compare a.name b.name = .lt)
    (ha : T.Entered base own inside left)
    (h : RefusalBelow T base left (takeChild ts own).2 name names e s') :
    RefusalBelow T base (inside ++ left) ts name names e s' where
  refused := h.refused
  slash := h.slash
  found := by
    rw [ha.beginning_append_of_ne (h.slash name List.mem_cons_self) (h.ne_of_entered ha)]
    exact h.found
  unknown c hc hn := h.unknown c ((mem_takeChild_snd hs).2 ⟨hc, hn ▸ h.ne_of_entered ha⟩) hn

/-- The subdirectory that is met next is met before the one in which a listing is refused later. -/
theorem RefusalBelow.metBefore {own : Bytes} (hs : T.IsSorted) (ha : T.Entered base own inside left)
    (h : RefusalBelow T base left ts name names e s') : MetBefore [own] (name :: names) := by
  have hfound : Table.beginning left (Bytes.below base name) ≠ [] := by
    intro hnil
    have := Table.beginning_beginning (T := left) (Bytes.isPrefix_baseOf (Bytes.below base name) names)
    rw [hnil] at this
    exact h.found this.symm
  have hlt := ha.lt_of_left hs (h.slash name List.mem_cons_self) hfound
  simpa [MetBefore] using hlt

/-- A listing that is refused below a directory that is not known. -/
theorem RefusalBelow.refusal (hk : t.known = none)
    (h : RefusalBelow T base (T.beginning base) t.children name names e s') :
    Refusal T base t (name :: names) e s' where
  refused := h.refused
  slash := h.slash
  found := by
    have hfound := h.found
    rw [Table.beginning_beginning (Bytes.isPrefix_baseOf base (name :: names))] at hfound
    exact Or.inr hfound
  unknown := ⟨hk, h.unknown⟩

/-! ## Steps -/

/-- Where siblings are in order, nothing wrong is known and no path is in conflict, each step that fails
does so because a listing is refused; and what it leaves is as far as it came. -/
theorem stepsKeep_spares [NamesListings σ] (hT : T.IsSorted) (hm : ∀ o ∈ T, o.stage = .merged) :
    StepsKeep T
      (fun base t (_ : σ) r =>
        (All (Truthful T) base t →
          All (Truthful T) base r.1 ∧ ∀ k, r.2.2 = .ok k → k = Table.exact base (T.beginning base)) ∧
        (All (Truthful T) base t → All (fun _ n => SiblingsSorted n) base t →
          (∀ k, r.2.2 = .ok k → Spares T base [] t r.1) ∧
          ∀ error, r.2.2 = .error error → ∃ e names, error = .store e ∧
            Refusal T base t names e r.2.1 ∧ Spares T base names t r.1))
      (fun base left previous (_ : σ) r =>
        ((∀ c ∈ previous, All (Truthful T) (Bytes.below base c.name) c) →
          (∀ c ∈ r.1, All (Truthful T) (Bytes.below base c.name) c) ∧
            ∀ items n, r.2.2 = .ok (items, n) → items = Table.listing base left) ∧
        ((∀ c ∈ previous, All (Truthful T) (Bytes.below base c.name) c) →
          (previous.Pairwise fun a b => compare a.name b.name = .lt) →
          (∀ c ∈ previous, All (fun _ n => SiblingsSorted n) (Bytes.below base c.name) c) →
          (∀ x, r.2.2 = .ok x → SparesBelow T base left [] previous r.1) ∧
          ∀ error, r.2.2 = .error error → ∃ e name names, error = .store e ∧
            RefusalBelow T base left previous name names e r.2.1 ∧
              SparesBelow T base left (name :: names) previous r.1)) where
  known {_ t s k} hk hn := by
    refine ⟨stepsKeep_truthful.known (s := s) hk hn, fun _ _ => ⟨fun _ _ => ?_, by simp⟩⟩
    exact spares_known (by simp [hk])
  stale {_ t s k} hk hn := by
    refine ⟨stepsKeep_truthful.stale (s := s) hk hn, fun ht _ => ?_⟩
    -- A count that is right is accepted.
    have hexact := (all_iff.1 ht).1 _ hk
    exact absurd (congrArg Known.count hexact) hn
  unlisted {base t s s₁ children error} hk hb hmet hl := by
    refine ⟨stepsKeep_truthful.unlisted (s := s) hk hb hmet hl.1, fun ht hs => ⟨by simp, ?_⟩⟩
    rintro _ ⟨⟩
    obtain ⟨-, hfail⟩ := hl.2 (all_iff.1 ht).2 (all_iff.1 hs).1 (all_iff.1 hs).2
    obtain ⟨e, name, names, herr, hrefusal, hspares⟩ := hfail error rfl
    exact ⟨e, name :: names, herr, hrefusal.refusal hk,
      hspares.spares (all_iff.1 hs).1 hk hmet fun c => Iff.rfl⟩
  refused {base t s s₁ s₂ children items n e} hk hb hmet hl hi := by
    refine ⟨stepsKeep_truthful.refused (s := s) hk hb hmet hl.1 hi, fun ht hs => ⟨by simp, ?_⟩⟩
    rintro _ ⟨⟩
    obtain ⟨hdone, -⟩ := hl.2 (all_iff.1 ht).2 (all_iff.1 hs).1 (all_iff.1 hs).2
    have hitems : items = Table.listing base (T.beginning base) := (hl.1 (all_iff.1 ht).2).2 _ _ rfl
    rw [hitems] at hi
    exact ⟨e, [], rfl, ⟨⟨s₁, hi⟩, by simp, Or.inl rfl, hk⟩,
      (hdone _ rfl).spares (all_iff.1 hs).1 hk hmet fun c => mem_sortByName⟩
  stored {base t s s₁ s₂ children items n id} hk hb hmet hl hn hi := by
    refine ⟨stepsKeep_truthful.stored (s := s) hk hb hmet hl.1 hn hi, fun ht hs => ⟨?_, by simp⟩⟩
    intro _ _
    obtain ⟨hdone, -⟩ := hl.2 (all_iff.1 ht).2 (all_iff.1 hs).1 (all_iff.1 hs).2
    exact (hdone _ rfl).spares (all_iff.1 hs).1 hk hmet fun c => mem_sortByName
  done {_ _ s} :=
    ⟨stepsKeep_truthful.done (s := s), fun _ _ _ => ⟨fun _ _ => sparesBelow_nil, by simp⟩⟩
  conflict ha hne := absurd (hm _ (ha.sublist.subset List.mem_cons_self)) hne
  file {_ _ _ _ _ _ s _ _} ha hp hn hmerged hl := by
    refine ⟨stepsKeep_truthful.file (s := s) ha hp hn hmerged hl.1, fun ht hs hbelow => ?_⟩
    obtain ⟨hdone, hfail⟩ := hl.2 ht hs hbelow
    refine ⟨fun x hx => ?_, fun error herr => ?_⟩
    · obtain ⟨y, rfl, -⟩ := Check.map_eq_ok.1 hx
      exact (hdone y rfl).file hp hn
    · obtain ⟨e, name, names, he, hrefusal, hspares⟩ := hfail error (Check.map_eq_error.1 herr)
      exact ⟨e, name, names, he, hrefusal.file hp hn, hspares.file hp hn⟩
  unfinished {_ name _ _ previous s _ _ error} ha hc := by
    refine ⟨stepsKeep_truthful.unfinished (s := s) ha hc.1, fun ht hs hbelow => ⟨by simp, ?_⟩⟩
    rintro _ ⟨⟩
    obtain ⟨-, hfail⟩ := hc.2 (all_takeChild ht (truthful_of_none rfl))
      (all_takeChild hbelow List.Pairwise.nil)
    obtain ⟨e, names, he, hrefusal, -⟩ := hfail error rfl
    exact ⟨e, name, names, he, hrefusal.entered hs ha, sparesBelow_unfinished hT ha⟩
  subtree {base name _ _ previous _ s _ _ child k _} ha hname hc hk hl := by
    refine ⟨stepsKeep_truthful.subtree (s := s) ha hname hc.1 hk hl.1, fun ht hs hbelow => ?_⟩
    have hsub := takeChild_snd_sublist previous name
    obtain ⟨hchild, -⟩ := hc.2 (all_takeChild ht (truthful_of_none rfl))
      (all_takeChild hbelow List.Pairwise.nil)
    obtain ⟨hdone, hfail⟩ := hl.2 (fun c hc => ht c (hsub.subset hc)) (hs.sublist hsub)
      fun c hc => hbelow c (hsub.subset hc)
    refine ⟨fun x hx => ?_, fun error herr => ?_⟩
    · obtain ⟨y, rfl, -⟩ := Check.map_eq_ok.1 hx
      exact (hdone y rfl).subtree hs ha hname (hchild k rfl) (metBefore_nil _)
    · obtain ⟨e, own, names, he, hrefusal, hspares⟩ := hfail error (Check.map_eq_error.1 herr)
      exact ⟨e, own, names, he, hrefusal.subtree hs ha,
        hspares.subtree hs ha hname (hchild k rfl) (hrefusal.metBefore hT ha)⟩

/-- Materializing a table without conflicts with a cache tree that is faithful to it fails only because
a listing is refused, and leaves what was known as far as it came. -/
theorem update_spares [NamesListings σ] (hT : T.Invariant) (hm : ∀ o ∈ T, o.stage = .merged)
    (ht : All (Faithful T) [] t) {s : σ} {error : IndexError}
    (h : t.update T s = (t', s', .error error)) :
    ∃ e names, error = .store e ∧ Refusal T [] t names e s' ∧ Spares T [] names t t' := by
  obtain ⟨hsorted, hright⟩ := (all_faithful_iff hT.sorted hm).1 ht
  obtain ⟨-, hkeep⟩ := ((stepsKeep_spares hT.sorted hm).materialize hT.sorted t s).1
  obtain ⟨-, hfail⟩ := hkeep hright hsorted
  rw [update_eq_map] at h
  have ht' : (t.materialize T [] s).1 = t' := congrArg Prod.fst h
  have hs' : (t.materialize T [] s).2.1 = s' := congrArg (·.2.1) h
  have herr : (t.materialize T [] s).2.2 = .error error :=
    Check.map_eq_error.1 (congrArg (·.2.2) h)
  obtain ⟨e, names, he, hrefusal, hspares⟩ := hfail error herr
  exact ⟨e, names, he, hs' ▸ hrefusal, ht' ▸ hspares⟩

/-- What is known of a directory is kept if it, or one above it, is known and has entries, where nothing
is known of the root. -/
theorem keptAlong_names_iff (hT : T.Invariant) (hs : All (fun _ n => SiblingsSorted n) [] t)
    (hk : t.known = none) {d : Bytes} : KeptAlong T [] t d.names ↔
      ∃ a k, Bytes.asBase a <+: Bytes.asBase d ∧ t.Knows a k ∧ T.beginning (Bytes.asBase a) ≠ [] := by
  rw [keptAlong_iff]
  constructor
  · rintro ⟨ps, hps, hr, hfound⟩
    have hne : ps ≠ [] := by
      rintro rfl
      exact hr hk
    have hfound := hfound.resolve_left hne
    -- The names on the way are those of a directory.
    obtain ⟨a, rfl⟩ := exists_dir hT (fun n hn => Bytes.slash_notMem_of_names (hps.subset hn))
      (Or.inr hfound)
    obtain ⟨k, hk⟩ := (exists_knows_iff hs).2 hr
    rw [Bytes.baseOf_names] at hfound
    exact ⟨a, k, Bytes.names_isPrefix_iff.1 hps, hk, hfound⟩
  · rintro ⟨a, k, ha, hk, hfound⟩
    rw [← Bytes.baseOf_names] at hfound
    exact ⟨a.names, Bytes.names_isPrefix_iff.2 ha, (exists_knows_iff hs).1 ⟨k, hk⟩, Or.inr hfound⟩

end CacheTree

namespace Index

open CacheTree (All Faithful MetBefore)

variable {σ : Type} [ObjectDatabase σ]

/-- Where a table without conflicts fails to be materialized with a cache tree that is faithful to it,
the database has refused the listing of a directory that has entries, or is the root, and that was not
known, nor any directory above it. Only the cache tree of the index has changed then. A directory of
which something was known is known as before if it lies in a subdirectory of the root that comes before
the one in which the directory of the listing lies, or if this is the root itself; and if it or a known
directory above it has entries. Otherwise nothing is known of it any more. -/
theorem reaches_writeTree_iff [NamesListings σ] {ix ix' : Index} {s s' : σ} {error : IndexError}
    (hT : ix.table.Invariant) (hm : ∀ e ∈ ix.table, e.stage = .merged)
    (ht : All (Faithful ix.table) [] ix.cache) (h : ix.writeTree s = (ix', s', .error error)) :
    ix' = { ix with cache := ix'.cache } ∧ ∃ f e s₁, error = .store e ∧
      ObjectDatabase.insertTree (ix.table.treeAt (Bytes.asBase f)) s₁ = (.error e, s') ∧
      (f = [] ∨ ix.table.beginning (Bytes.asBase f) ≠ []) ∧
      (∀ a, Bytes.asBase a <+: Bytes.asBase f → ∀ k, ¬ ix.cache.Knows a k) ∧
      ∀ d k, ix.cache.Knows d k →
        ((ix'.cache.Reaches d.names fun n => n.known = some k) ↔
          MetBefore d.names f.names ∧ ∃ a k', Bytes.asBase a <+: Bytes.asBase d ∧
            ix.cache.Knows a k' ∧ ix.table.beginning (Bytes.asBase a) ≠ []) := by
  obtain ⟨hsorted, -⟩ := (CacheTree.all_faithful_iff hT.sorted hm).1 ht
  rw [writeTree, if_pos (Table.conflictPaths_eq_nil_iff.2 hm)] at h
  obtain ⟨rfl, hrest⟩ := Prod.mk.inj h
  obtain ⟨e, names, rfl, hrefusal, hspares⟩ :=
    CacheTree.update_spares hT hm ht (Prod.ext rfl hrest)
  obtain ⟨f, rfl⟩ := CacheTree.exists_dir hT hrefusal.slash hrefusal.found
  obtain ⟨s₁, hrefused⟩ := hrefusal.refused
  have hfound := hrefusal.found
  rw [Bytes.baseOf_names] at hrefused hfound
  rw [Bytes.names_eq_nil_iff] at hfound
  refine ⟨rfl, f, e, s₁, rfl, hrefused, hfound,
    (CacheTree.unknownAlong_names_iff hT hsorted hfound).1 hrefusal.unknown, fun d k hk => ?_⟩
  rw [CacheTree.knows_iff_reaches hsorted] at hk
  have hkept := hspares d.names k (fun n => Bytes.slash_notMem_of_names) hk
  rwa [CacheTree.keptAlong_names_iff hT hsorted hrefusal.unknown.known_eq_none] at hkept

/-- The files `a/x` and `b/y`, where the tree of one directory is known, and nothing else. -/
def partlyKnown (name : Bytes) : Index where
  __ := twoDirectories
  cache := .node [] none
    [.node name (some ⟨1, (twoDirectories.table.treeAt (Bytes.below [] name)).id⟩) []]

/-- A database that refuses the first listing that it is offered. -/
def refusingFirst : RefusingDatabase := ⟨.empty, [0], [], 0, 0⟩

/-- Its siblings are in order. -/
theorem siblingsSorted_partlyKnown (name : Bytes) :
    All (fun _ n => CacheTree.SiblingsSorted n) [] (partlyKnown name).cache := by
  simp [partlyKnown, All, CacheTree.AllBelow, CacheTree.SiblingsSorted]

/-- If there is one file in the directory, what is known of it is right. -/
theorem faithful_partlyKnown {name : Bytes}
    (h : (twoDirectories.table.beginning (Bytes.below [] name)).length = 1) :
    All (Faithful (partlyKnown name).table) [] (partlyKnown name).cache := by
  have hm : ∀ e ∈ twoDirectories.table, e.stage = .merged := by decide
  refine (CacheTree.all_faithful_iff twoDirectories_invariant.sorted hm).2
    ⟨siblingsSorted_partlyKnown name, ?_⟩
  simp [partlyKnown, All, CacheTree.AllBelow, CacheTree.Truthful, Table.exact, Table.treeAt, h]

/-- A directory of one name is the one that is known. -/
theorem knows_partlyKnown {name : Bytes} (h : name.names = [name]) : (partlyKnown name).cache.Knows name
    ⟨1, (twoDirectories.table.treeAt (Bytes.below [] name)).id⟩ := by
  rw [CacheTree.knows_iff_reaches (siblingsSorted_partlyKnown name), h]
  exact ⟨_, List.mem_singleton_self _, rfl, rfl⟩

/-- Where `b` is known and the listing of `a` is refused, nothing is known of `b` any more: it would
have been met later, and its node is gone. -/
theorem not_hasNode_writeTree_partlyKnown :
    (partlyKnown [0x62]).table.Invariant ∧ (∀ e ∈ (partlyKnown [0x62]).table, e.stage = .merged) ∧
      All (Faithful (partlyKnown [0x62]).table) [] (partlyKnown [0x62]).cache ∧
      (∃ k, (partlyKnown [0x62]).cache.Knows [0x62] k) ∧
      ((partlyKnown [0x62]).writeTree refusingFirst).2.2 = .error (.store (.io "write refused")) ∧
      ¬ ((partlyKnown [0x62]).writeTree refusingFirst).1.cache.HasNode (Bytes.names [0x62]) := by
  have hwrite : (partlyKnown [0x62]).writeTree refusingFirst =
      ({ partlyKnown [0x62] with cache := .node [] none [] },
        { refusingFirst with writeCalls := 1 }, .error (.store (.io "write refused"))) := by
    rw [partlyKnown]
    generalize (twoDirectories.table.treeAt (Bytes.below [] [0x62])).id = id
    cbv
  refine ⟨twoDirectories_invariant, by decide, faithful_partlyKnown (by decide),
    ⟨_, knows_partlyKnown (by decide)⟩, ?_, ?_⟩
  · rw [hwrite]
  · rw [hwrite]
    rintro ⟨c, hc, -⟩
    cases hc

/-- Where `a` is known and the listing of `b` is refused, `a` is known as before. -/
theorem reaches_writeTree_partlyKnown :
    (partlyKnown [0x61]).table.Invariant ∧ (∀ e ∈ (partlyKnown [0x61]).table, e.stage = .merged) ∧
      All (Faithful (partlyKnown [0x61]).table) [] (partlyKnown [0x61]).cache ∧
      ∃ k ix' s' error, (partlyKnown [0x61]).cache.Knows [0x61] k ∧
        (partlyKnown [0x61]).writeTree refusingFirst = (ix', s', .error error) ∧
        ix'.cache.Reaches (Bytes.names [0x61]) fun n => n.known = some k := by
  have hT : (partlyKnown [0x61]).table.Invariant := twoDirectories_invariant
  have hm : ∀ e ∈ (partlyKnown [0x61]).table, e.stage = .merged := by decide
  have ht : All (Faithful (partlyKnown [0x61]).table) [] (partlyKnown [0x61]).cache :=
    faithful_partlyKnown (by decide)
  have hknows := knows_partlyKnown (show Bytes.names [0x61] = [[0x61]] by decide)
  have hwrite : (partlyKnown [0x61]).writeTree refusingFirst =
      (partlyKnown [0x61], { refusingFirst with writeCalls := 1 },
        .error (.store (.io "write refused"))) := by
    rw [partlyKnown]
    generalize (twoDirectories.table.treeAt (Bytes.below [] [0x61])).id = id
    cbv
  obtain ⟨-, f, -, -, -, -, hfound, hunknown, hiff⟩ := reaches_writeTree_iff hT hm ht hwrite
  have hmet : MetBefore (Bytes.names [0x61]) f.names := by
    by_cases hf : f = []
    · rw [hf]
      exact CacheTree.metBefore_nil _
    · -- Of the two directories it is not the one that is known.
      obtain ⟨o, ho⟩ := List.exists_mem_of_ne_nil _ (hfound.resolve_left hf)
      obtain ⟨ho, hb⟩ := Table.mem_beginning.1 ho
      rw [Bytes.asBase, if_neg hf] at hb
      have hdir := Bytes.mem_ancestors_iff.2 hb
      have hdirs : ∀ o ∈ (partlyKnown [0x61]).table, ∀ d ∈ o.path.ancestors,
          d = [0x61] ∨ d = [0x62] := by decide
      rcases hdirs o ho f hdir with rfl | rfl
      · exact absurd hknows (hunknown [0x61] List.prefix_rfl _)
      · decide
  exact ⟨hT, hm, ht, _, _, _, _, hknows, hwrite, (hiff _ _ hknows).2
    ⟨hmet, [0x61], _, List.prefix_rfl, hknows, by decide⟩⟩

end Index

end StagingIndex
