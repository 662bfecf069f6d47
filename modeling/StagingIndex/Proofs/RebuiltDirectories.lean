import Mathlib
import StagingIndex.Proofs.CacheOrder
import StagingIndex.Proofs.ForgottenDirectories
import StagingIndex.Proofs.Recording

/-! # Which directories are rebuilt

Materializing offers the database one listing for each directory that it rebuilds, and rebuilds those
that have entries and are met without passing a node that knows. All of them are known afterwards,
with subdirectories only where there are entries. With siblings in order a directory has one node at
most, so none is rebuilt twice, and what is known of it is not overlooked.

* `CacheTree.UnknownAlong` — nothing is known on the way along some names
* `CacheTree.Rebuilt`, `CacheTree.RebuiltBelow` — what one call leaves of a directory, and of what is
  left of it
* `CacheTree.stepsKeep_rebuilt` — what each step rebuilds -/

namespace StagingIndex

namespace Table

/-- The tree object of the directory with a base. -/
def treeAt (T : Table) (base : Bytes) : Tree := Tree.ofList (listing base (T.beginning base))

variable {T : Table} {base name : Bytes} {inside left : List Entry}

/-- Of the entries below a directory those below one within it are all that there are. -/
theorem beginning_beginning {b : Bytes} (h : base <+: b) :
    Table.beginning (T.beginning base) b = T.beginning b := by
  rw [beginning, beginning, List.filter_filter]
  refine List.filter_congr fun e _ => ?_
  cases hb : e.path.beginsWith b with
  | false => simp
  | true =>
    have : e.path.beginsWith base = true := by
      rw [Bytes.beginsWith_iff] at hb ⊢
      exact h.trans hb
    simp [this]

/-- After the subdirectory that is met next nothing below it is left. -/
theorem Entered.beginning_left (h : T.Entered base name inside left) (rest : List Bytes) :
    Table.beginning left (Bytes.baseOf base (name :: rest)) = [] := by
  refine beginning_eq_nil fun e he => ?_
  have hout := h.outside e he
  rw [← Bool.not_eq_true] at hout ⊢
  exact fun hb => hout (Bytes.beginsWith_below_of_baseOf hb)

/-- Below the subdirectory that is met next are all entries that the table has there. -/
theorem Entered.beginning_append (h : T.Entered base name inside left) (rest : List Bytes) :
    Table.beginning (inside ++ left) (Bytes.baseOf base (name :: rest)) =
      T.beginning (Bytes.baseOf base (name :: rest)) := by
  rw [Table.beginning_append, h.beginning_left, List.append_nil, h.eq_beginning]
  exact beginning_beginning (Bytes.isPrefix_baseOf _ rest)

/-- Of other subdirectories there is nothing among its entries. -/
theorem Entered.beginning_append_of_ne (h : T.Entered base name inside left) {other : Bytes}
    (ho : Bytes.slash ∉ other) (hne : other ≠ name) (rest : List Bytes) :
    Table.beginning (inside ++ left) (Bytes.baseOf base (other :: rest)) =
      Table.beginning left (Bytes.baseOf base (other :: rest)) := by
  have hin : Table.beginning inside (Bytes.baseOf base (other :: rest)) = [] := by
    refine beginning_eq_nil fun e he => ?_
    rw [← Bool.not_eq_true]
    intro hb
    exact hne (Bytes.name_eq_of_below ho h.slash (Bytes.beginsWith_below_of_baseOf hb)
      (h.beginsWith he))
  rw [Table.beginning_append, hin, List.nil_append]

/-- No subdirectory begins with the path of a file. -/
theorem beginning_cons_of_file {e : Entry} (hp : e.path = base ++ name) (hn : Bytes.slash ∉ name)
    (own : Bytes) (rest : List Bytes) :
    Table.beginning (e :: left) (Bytes.baseOf base (own :: rest)) =
      Table.beginning left (Bytes.baseOf base (own :: rest)) := by
  refine List.filter_cons_of_neg fun hb => ?_
  rw [hp] at hb
  obtain ⟨r, hr⟩ := Bytes.beginsWith_below_iff.1 (Bytes.beginsWith_below_of_baseOf hb)
  exact hn (List.append_cancel_left hr ▸ by simp)

end Table

namespace CacheTree

variable {T : Table} {base name : Bytes} {t : CacheTree} {ts : List CacheTree} {names : List Bytes}

/-! ## What is known on the way -/

/-- Nothing is known on the way along some names, nor where they lead. -/
def UnknownAlong : CacheTree → List Bytes → Prop
  | t, [] => t.known = none
  | t, name :: names => t.known = none ∧ ∀ c ∈ t.children, c.name = name → c.UnknownAlong names

@[simp] theorem unknownAlong_nil : t.UnknownAlong [] ↔ t.known = none := Iff.rfl

@[simp] theorem unknownAlong_cons : t.UnknownAlong (name :: names) ↔
    t.known = none ∧ ∀ c ∈ t.children, c.name = name → c.UnknownAlong names := Iff.rfl

/-- Where nothing is known on the way nothing is known at its start. -/
theorem UnknownAlong.known_eq_none (h : t.UnknownAlong names) : t.known = none := by
  cases names with
  | nil => exact h
  | cons name names => exact h.1

/-- Nothing is known on the way if no beginning of the names leads to a node that knows. -/
theorem unknownAlong_iff :
    t.UnknownAlong names ↔ ∀ ps, ps <+: names → ¬ t.Reaches ps fun n => n.known ≠ none := by
  induction names generalizing t with
  | nil => simp [List.prefix_nil]
  | cons name names ih =>
    simp only [unknownAlong_cons, ih, List.prefix_cons_iff]
    constructor
    · rintro ⟨hk, hc⟩ ps (rfl | ⟨ps, rfl, hps⟩)
      · simpa using hk
      · rintro ⟨c, hm, hn, hr⟩
        exact hc c hm hn ps hps hr
    · intro h
      refine ⟨by simpa using h [] (Or.inl rfl), fun c hm hn ps hps hr => ?_⟩
      exact h (name :: ps) (Or.inr ⟨ps, rfl, hps⟩) ⟨c, hm, hn, hr⟩

/-- Below a new node nothing is known. -/
theorem unknownAlong_unknown (name : Bytes) (names : List Bytes) :
    (unknown name).UnknownAlong names := by
  cases names <;> simp [unknown]

/-- Of a directory what is known on the way through some of its nodes is known on the way through the
one that is taken out. -/
theorem unknownAlong_takeChild (hs : ts.Pairwise fun a b => compare a.name b.name = .lt)
    (name : Bytes) (names : List Bytes) :
    (takeChild ts name).1.UnknownAlong names ↔ ∀ c ∈ ts, c.name = name → c.UnknownAlong names := by
  constructor
  · rintro h c hc rfl
    rwa [takeChild_fst_of_mem hs hc] at h
  · intro h
    obtain ⟨hn, hu | hm⟩ := takeChild_fst ts name
    · rw [hu]
      exact unknownAlong_unknown name names
    · exact h _ hm hn

/-! ## What is rebuilt -/

/-- A node that knows its directory, with subdirectories only where the table has entries. -/
structure Relisted (T : Table) (base : Bytes) (n : CacheTree) : Prop where
  known : n.known ≠ none
  found : ∀ c ∈ n.children, T.beginning (Bytes.below base c.name) ≠ []

/-- What materializing leaves of a directory: the listings that were offered are those of some
directories, given by the names that lead to them from this one. -/
structure Rebuilt (T : Table) (base : Bytes) (t : CacheTree) (offered offered' : List Tree)
    (t' : CacheTree) (dirs : List (List Bytes)) : Prop where
  offered_eq : offered' = offered ++ dirs.map fun names => T.treeAt (Bytes.baseOf base names)
  nodup : dirs.Nodup
  mem_iff : ∀ names, names ∈ dirs ↔ (∀ name ∈ names, Bytes.slash ∉ name) ∧
    (names = [] ∨ T.beginning (Bytes.baseOf base names) ≠ []) ∧ t.UnknownAlong names
  relisted : ∀ names ∈ dirs, t'.Reaches names (Relisted T (Bytes.baseOf base names))

/-- What listing leaves of what was left of a directory. -/
structure RebuiltBelow (T : Table) (base : Bytes) (left : List Entry) (ts : List CacheTree)
    (offered offered' : List Tree) (ts' : List CacheTree) (dirs : List (List Bytes)) : Prop where
  offered_eq : offered' = offered ++ dirs.map fun names => T.treeAt (Bytes.baseOf base names)
  nodup : dirs.Nodup
  nil_notMem : [] ∉ dirs
  cons_mem_iff : ∀ name rest, name :: rest ∈ dirs ↔ (∀ n ∈ name :: rest, Bytes.slash ∉ n) ∧
    Table.beginning left (Bytes.baseOf base (name :: rest)) ≠ [] ∧
    ∀ c ∈ ts, c.name = name → c.UnknownAlong rest
  relisted : ∀ name rest, name :: rest ∈ dirs → ∃ c ∈ ts', c.name = name ∧
    c.Reaches rest (Relisted T (Bytes.baseOf base (name :: rest)))

/-- A directory that is known is not rebuilt, nor what is below it. -/
theorem rebuilt_known {k : Known} (hk : t.known = some k) (offered : List Tree) :
    Rebuilt T base t offered offered t [] where
  offered_eq := by simp
  nodup := List.nodup_nil
  mem_iff names := by cases names <;> simp [hk]
  relisted := by simp

/-- Where nothing is left nothing is rebuilt. -/
theorem rebuiltBelow_nil (offered : List Tree) : RebuiltBelow T base [] ts offered offered [] [] where
  offered_eq := by simp
  nodup := List.nodup_nil
  nil_notMem := List.not_mem_nil
  cons_mem_iff name rest := by simp [Table.beginning]
  relisted := by simp

/-- With a file nothing is rebuilt. -/
theorem RebuiltBelow.file {left : List Entry} {offered offered' : List Tree} {ts' : List CacheTree}
    {dirs : List (List Bytes)} {e : Entry} (h : RebuiltBelow T base left ts offered offered' ts' dirs)
    (hp : e.path = base ++ name) (hn : Bytes.slash ∉ name) :
    RebuiltBelow T base (e :: left) ts offered offered' ts' dirs where
  offered_eq := h.offered_eq
  nodup := h.nodup
  nil_notMem := h.nil_notMem
  cons_mem_iff own rest := by
    rw [h.cons_mem_iff, Table.beginning_cons_of_file hp hn]
  relisted := h.relisted

/-- A subdirectory that is met is rebuilt before those that are met later. -/
theorem Rebuilt.append {inside left : List Entry} {offered offered₁ offered₂ : List Tree}
    {child : CacheTree} {children : List CacheTree} {ds₁ ds₂ : List (List Bytes)}
    (hs : ts.Pairwise fun a b => compare a.name b.name = .lt) (ha : T.Entered base name inside left)
    (hname : child.name = name)
    (hc : Rebuilt T (Bytes.below base name) (takeChild ts name).1 offered offered₁ child ds₁)
    (hl : RebuiltBelow T base left (takeChild ts name).2 offered₁ offered₂ children ds₂) :
    RebuiltBelow T base (inside ++ left) ts offered offered₂ (child :: children)
      (ds₁.map (name :: ·) ++ ds₂) where
  offered_eq := by
    rw [hl.offered_eq, hc.offered_eq, List.append_assoc, List.map_append, List.map_map]
    rfl
  nodup := by
    refine List.nodup_append.2 ⟨hc.nodup.map List.cons_injective, hl.nodup, ?_⟩
    rintro _ h₁ _ h₂ rfl
    obtain ⟨rest, -, rfl⟩ := List.mem_map.1 h₁
    exact ((hl.cons_mem_iff _ _).1 h₂).2.1 (ha.beginning_left rest)
  nil_notMem := by simp [hl.nil_notMem]
  cons_mem_iff own rest := by
    rw [List.mem_append, List.mem_map, hl.cons_mem_iff]
    by_cases hown : own = name
    · subst hown
      -- The directory is the one that is met, or below it.
      have hself : (rest = [] ∨ T.beginning (Bytes.baseOf base (own :: rest)) ≠ []) ↔
          T.beginning (Bytes.baseOf base (own :: rest)) ≠ [] :=
        or_iff_right_of_imp fun hrest => hrest ▸ ha.eq_beginning ▸ ha.ne_nil
      have hmem : rest ∈ ds₁ ↔ (∀ n ∈ rest, Bytes.slash ∉ n) ∧
          T.beginning (Bytes.baseOf base (own :: rest)) ≠ [] ∧
          ∀ c ∈ ts, c.name = own → c.UnknownAlong rest := by
        rw [← hself, ← unknownAlong_takeChild hs]
        exact hc.mem_iff rest
      simp [ha.beginning_append, ha.beginning_left, hmem, ha.slash]
    · -- It is met later.
      have hnot : ¬ ∃ a ∈ ds₁, name :: a = own :: rest := by
        rintro ⟨_, -, heq⟩
        exact hown (List.cons.inj heq).1.symm
      rw [or_iff_right hnot]
      refine and_congr_right fun hslash => ?_
      rw [ha.beginning_append_of_ne (hslash own List.mem_cons_self) hown]
      refine and_congr_right fun _ => forall_congr' fun c => ?_
      rw [mem_takeChild_snd hs]
      exact ⟨fun h hc hn => h ⟨hc, hn ▸ hown⟩ hn, fun h hc hn => h hc.1 hn⟩
  relisted own rest h := by
    rcases List.mem_append.1 h with h | h
    · obtain ⟨rest', h, heq⟩ := List.mem_map.1 h
      cases heq
      exact ⟨child, List.mem_cons_self, hname, hc.relisted rest h⟩
    · obtain ⟨c, hc, hr⟩ := hl.relisted own rest h
      exact ⟨c, List.mem_cons_of_mem _ hc, hr⟩

/-- When the listing of a directory is stored it is rebuilt itself, after those below it. -/
theorem RebuiltBelow.stored {offered offered' : List Tree} {children : List CacheTree}
    {dirs : List (List Bytes)} {k : Known} (hk : t.known = none)
    (hm : Met base (T.beginning base) children)
    (h : RebuiltBelow T base (T.beginning base) t.children offered offered' children dirs) :
    Rebuilt T base t offered (offered' ++ [T.treeAt base])
      (node t.name (some k) (sortByName children)) (dirs ++ [[]]) where
  offered_eq := by
    rw [h.offered_eq, List.map_append, List.append_assoc]
    rfl
  nodup := by
    refine List.nodup_append.2 ⟨h.nodup, List.nodup_singleton _, ?_⟩
    rintro names hn _ hnil rfl
    rw [List.mem_singleton.1 hnil] at hn
    exact h.nil_notMem hn
  mem_iff names := by
    rw [List.mem_append, List.mem_singleton]
    cases names with
    | nil => simp [hk]
    | cons own rest =>
      have hb := Table.beginning_beginning (T := T) (Bytes.isPrefix_baseOf base (own :: rest))
      simp [h.cons_mem_iff, hk, hb]
  relisted names hn := by
    rcases List.mem_append.1 hn with hn | hn
    · cases names with
      | nil => exact absurd hn h.nil_notMem
      | cons own rest =>
        obtain ⟨c, hc, hname, hr⟩ := h.relisted own rest hn
        exact ⟨c, mem_sortByName.2 hc, hname, hr⟩
    · rw [List.mem_singleton.1 hn]
      refine ⟨by simp, fun c hc hnil => ?_⟩
      obtain ⟨e, he, hb⟩ := hm.found c (mem_sortByName.1 hc)
      have : e ∈ T.beginning (Bytes.below base c.name) :=
        Table.mem_beginning.2 ⟨(Table.mem_beginning.1 he).1, hb⟩
      rw [show T.beginning (Bytes.below base c.name) = [] from hnil] at this
      cases this

/-! ## Steps -/

variable {σ : Type} [ObjectDatabase σ]

/-- Where siblings are in order and nothing wrong is known, each step that succeeds leaves siblings in
order and rebuilds what it has to. -/
theorem stepsKeep_rebuilt [NamesListings (Recorded σ)] :
    StepsKeep T
      (fun base t (s : Recorded σ) r =>
        (All (Truthful T) base t →
          All (Truthful T) base r.1 ∧ ∀ k, r.2.2 = .ok k → k = Table.exact base (T.beginning base)) ∧
        (All (Truthful T) base t → All (fun _ n => SiblingsSorted n) base t →
          ∀ k, r.2.2 = .ok k → All (fun _ n => SiblingsSorted n) base r.1 ∧
            ∃ dirs, Rebuilt T base t s.offered r.2.1.offered r.1 dirs))
      (fun base left previous (s : Recorded σ) r =>
        ((∀ c ∈ previous, All (Truthful T) (Bytes.below base c.name) c) →
          (∀ c ∈ r.1, All (Truthful T) (Bytes.below base c.name) c) ∧
            ∀ items n, r.2.2 = .ok (items, n) → items = Table.listing base left) ∧
        ((∀ c ∈ previous, All (Truthful T) (Bytes.below base c.name) c) →
          (previous.Pairwise fun a b => compare a.name b.name = .lt) →
          (∀ c ∈ previous, All (fun _ n => SiblingsSorted n) (Bytes.below base c.name) c) →
          ∀ x, r.2.2 = .ok x →
            (∀ c ∈ r.1, All (fun _ n => SiblingsSorted n) (Bytes.below base c.name) c) ∧
              ∃ dirs, RebuiltBelow T base left previous s.offered r.2.1.offered r.1 dirs)) where
  known {_ _ s _} hk hn :=
    ⟨stepsKeep_truthful.known (s := s) hk hn, fun _ hs _ _ => ⟨hs, [], rebuilt_known hk s.offered⟩⟩
  stale {_ _ s _} hk hn := ⟨stepsKeep_truthful.stale (s := s) hk hn, by simp⟩
  unlisted {_ _ s _ _ _} hk hb hm hl :=
    ⟨stepsKeep_truthful.unlisted (s := s) hk hb hm hl.1, by simp⟩
  refused {_ _ s _ _ _ _ _ _} hk hb hm hl hi :=
    ⟨stepsKeep_truthful.refused (s := s) hk hb hm hl.1 hi, by simp⟩
  stored {base t s s₁ s₂ children items n id} hk hb hm hl hn hi := by
    refine ⟨stepsKeep_truthful.stored (s := s) hk hb hm hl.1 hn hi, fun ht hs k hk' => ?_⟩
    obtain ⟨hsorted, dirs, hdirs⟩ :=
      hl.2 (all_iff.1 ht).2 (all_iff.1 hs).1 (all_iff.1 hs).2 (items, n) rfl
    refine ⟨all_iff.2 ⟨siblingsSorted_sortByName hm.distinct,
      fun c hc => hsorted c (mem_sortByName.1 hc)⟩, dirs ++ [[]], ?_⟩
    -- What is offered is the listing of the directory.
    have hitems : items = Table.listing base (T.beginning base) := (hl.1 (all_iff.1 ht).2).2 _ _ rfl
    have hoffered : s₂.offered = s₁.offered ++ [T.treeAt base] := by
      rw [Recorded.insertTree_eq, Prod.mk.injEq] at hi
      rw [← hi.2, hitems, Table.treeAt]
    have := hdirs.stored (k := ⟨n, id⟩) hk hm
    rwa [← hoffered] at this
  done {_ _ s} :=
    ⟨stepsKeep_truthful.done (s := s), fun _ _ _ _ _ => ⟨by simp, [], rebuiltBelow_nil s.offered⟩⟩
  conflict {_ _ _ _ s} ha hm := ⟨stepsKeep_truthful.conflict (s := s) ha hm, by simp⟩
  file {_ _ _ _ _ _ s _ _} ha hp hn hm hl := by
    refine ⟨stepsKeep_truthful.file (s := s) ha hp hn hm hl.1, fun ht hs hbelow x hx => ?_⟩
    obtain ⟨y, rfl, -⟩ := Check.map_eq_ok.1 hx
    obtain ⟨hsorted, dirs, hdirs⟩ := hl.2 ht hs hbelow y rfl
    exact ⟨hsorted, dirs, hdirs.file hp hn⟩
  unfinished {_ _ _ _ _ s _ _ _} ha hc :=
    ⟨stepsKeep_truthful.unfinished (s := s) ha hc.1, by simp⟩
  subtree {base name _ _ previous _ s _ _ child k _} ha hname hc hk hl := by
    refine ⟨stepsKeep_truthful.subtree (s := s) ha hname hc.1 hk hl.1, fun ht hs hbelow x hx => ?_⟩
    obtain ⟨y, rfl, -⟩ := Check.map_eq_ok.1 hx
    have hsub := takeChild_snd_sublist previous name
    obtain ⟨hchild, ds₁, hds₁⟩ := hc.2 (all_takeChild ht (truthful_of_none rfl))
      (all_takeChild hbelow List.Pairwise.nil) k rfl
    obtain ⟨hsorted, ds₂, hds₂⟩ := hl.2 (fun c hc => ht c (hsub.subset hc)) (hs.sublist hsub)
      (fun c hc => hbelow c (hsub.subset hc)) y rfl
    refine ⟨List.forall_mem_cons.2 ⟨hname ▸ hchild, hsorted⟩, ds₁.map (name :: ·) ++ ds₂, ?_⟩
    exact hds₁.append hs ha hname hds₂

end CacheTree

end StagingIndex
