import Mathlib
import StagingIndex.Proofs.Alignment

/-! # Reusing nodes of any cache tree

A cache tree that was read from a file, or is left over from another table, can hold anything: counts
that are zero or too large, nodes out of order, two of one name. Materializing is told here call by
call, with the nodes that are reused, and after a subdirectory it goes on behind as many entries as the
subdirectory is said to have, even if that is none. It comes to an end nevertheless, and whatever node
it has reused had the number of entries below its directory as its count.

* `CacheTree.Builds`, `CacheTree.Walks` — materializing a directory, listing what is below it
* `CacheTree.buildsOnly_walksOnly` — they come to one end, with any nodes and entries
* `CacheTree.Counts` — what holds of the nodes that are reused, and of how many entries are counted
* `CacheTree.counts_of_builds` — it does wherever a sorted table is cut
* `CacheTree.update_reuses` — the whole table -/

namespace StagingIndex

namespace CacheTree

/-- A node that is reused: its directory, and what it knows of it. -/
abbrev Reused : Type := Bytes × Known

variable {σ : Type} [ObjectDatabase σ]

mutual

/-- Materializing a directory with a node and the entries from the first one below the directory: the
nodes that are reused, and what comes of it. -/
inductive Builds : CacheTree → List Entry → Bytes → σ → List Reused →
    CacheTree × σ × Except IndexError Known → Prop
  /-- A node that knows its directory is reused if its count is accepted. -/
  | known {t : CacheTree} {entries : List Entry} {base : Bytes} {s : σ} {k : Known}
      (hk : t.known = some k) (hc : covers k.count entries base = true) :
      Builds t entries base s [(base, k)] (t, s, .ok k)
  /-- Its count is not accepted. -/
  | stale {t : CacheTree} {entries : List Entry} {base : Bytes} {s : σ} {k : Known}
      (hk : t.known = some k) (hc : covers k.count entries base = false) :
      Builds t entries base s [] (t, s, .error (.corruptCacheTree (.staleCount k.count base)))
  /-- What is below the directory cannot be listed. -/
  | unlisted {t : CacheTree} {entries : List Entry} {base : Bytes} {s s₁ : σ}
      {reused : List Reused} {children : List CacheTree} {e : IndexError} (hk : t.known = none)
      (hl : Walks t.children entries base s reused (children, s₁, .error e)) :
      Builds t entries base s reused (node t.name none children, s₁, .error e)
  /-- The database refuses the listing. -/
  | refused {t : CacheTree} {entries : List Entry} {base : Bytes} {s s₁ s₂ : σ}
      {reused : List Reused} {children : List CacheTree} {items : List TreeItem} {n : Nat}
      {e : StoreError} (hk : t.known = none)
      (hl : Walks t.children entries base s reused (children, s₁, .ok (items, n)))
      (hi : ObjectDatabase.insertTree (Tree.ofList items) s₁ = (.error e, s₂)) :
      Builds t entries base s reused
        (node t.name none (sortByName children), s₂, .error (.store e))
  /-- The listing is stored. -/
  | stored {t : CacheTree} {entries : List Entry} {base : Bytes} {s s₁ s₂ : σ}
      {reused : List Reused} {children : List CacheTree} {items : List TreeItem} {n : Nat}
      {id : ObjectId} (hk : t.known = none)
      (hl : Walks t.children entries base s reused (children, s₁, .ok (items, n)))
      (hi : ObjectDatabase.insertTree (Tree.ofList items) s₁ = (.ok id, s₂)) :
      Builds t entries base s reused
        (node t.name (some ⟨n, id⟩) (sortByName children), s₂, .ok ⟨n, id⟩)

/-- Listing the entries below a directory, with nodes for its subdirectories: the nodes that are
reused, and what comes of it. -/
inductive Walks : List CacheTree → List Entry → Bytes → σ → List Reused →
    List CacheTree × σ × Except IndexError (List TreeItem × Nat) → Prop
  /-- No entries are left. -/
  | done {previous : List CacheTree} {base : Bytes} {s : σ} :
      Walks previous [] base s [] ([], s, .ok ([], 0))
  /-- The next entry is not below the directory. -/
  | outside {previous : List CacheTree} {e : Entry} {es : List Entry} {base : Bytes} {s : σ}
      (hp : e.path.afterPrefix? base = none) :
      Walks previous (e :: es) base s [] ([], s, .ok ([], 0))
  /-- The next path is in conflict. -/
  | conflict {previous : List CacheTree} {e : Entry} {es : List Entry} {base below : Bytes} {s : σ}
      (hp : e.path.afterPrefix? base = some below) (hm : e.stage ≠ .merged) :
      Walks previous (e :: es) base s [] ([], s, .error (.unresolvedConflict [e.path]))
  /-- The next entry is a file of the directory. -/
  | file {previous children : List CacheTree} {e : Entry} {es : List Entry} {base below : Bytes}
      {s s₁ : σ} {reused : List Reused} {r : Except IndexError (List TreeItem × Nat)}
      (hp : e.path.afterPrefix? base = some below) (hm : e.stage = .merged)
      (hs : below.splitAt? Bytes.slash = none)
      (hl : Walks previous es base s reused (children, s₁, r)) :
      Walks previous (e :: es) base s reused
        (children, s₁, r.map fun (items, n) => (fileItem below e ++ items, n + 1))
  /-- The next subdirectory cannot be materialized. -/
  | unfinished {previous : List CacheTree} {e : Entry} {es : List Entry}
      {base below name rest : Bytes} {s s₁ : σ} {reused : List Reused} {child : CacheTree}
      {err : IndexError} (hp : e.path.afterPrefix? base = some below) (hm : e.stage = .merged)
      (hs : below.splitAt? Bytes.slash = some (name, rest))
      (hc : Builds (takeChild previous name).1 (e :: es) (base ++ name ++ [Bytes.slash]) s reused
        (child, s₁, .error err)) :
      Walks previous (e :: es) base s reused ([], s₁, .error err)
  /-- The next subdirectory is materialized, and as many entries are skipped as it counts. -/
  | subtree {previous children : List CacheTree} {e : Entry} {es : List Entry}
      {base below name rest : Bytes} {s s₁ s₂ : σ} {reused later : List Reused}
      {child : CacheTree} {k : Known} {r : Except IndexError (List TreeItem × Nat)}
      (hp : e.path.afterPrefix? base = some below) (hm : e.stage = .merged)
      (hs : below.splitAt? Bytes.slash = some (name, rest))
      (hc : Builds (takeChild previous name).1 (e :: es) (base ++ name ++ [Bytes.slash]) s reused
        (child, s₁, .ok k))
      (hl : Walks (takeChild previous name).2 ((e :: es).drop k.count) base s₁ later
        (children, s₂, r)) :
      Walks previous (e :: es) base s (reused ++ later)
        (child :: children, s₂,
          r.map fun (items, n) => (subtreeItem name k ++ items, k.count + n))

end

/-! ## It comes to an end -/

/-- Materializing comes to one end, with whatever node and entries it is begun. -/
def BuildsOnly (t : CacheTree) (entries : List Entry) (base : Bytes) (s : σ)
    (r : CacheTree × σ × Except IndexError Known) : Prop :=
  ∃ reused, Builds t entries base s reused r ∧
    ∀ reused' r', Builds t entries base s reused' r' → reused' = reused ∧ r' = r

/-- Listing comes to one end, with whatever nodes and entries it is begun. -/
def WalksOnly (previous : List CacheTree) (entries : List Entry) (base : Bytes) (s : σ)
    (r : List CacheTree × σ × Except IndexError (List TreeItem × Nat)) : Prop :=
  ∃ reused, Walks previous entries base s reused r ∧
    ∀ reused' r', Walks previous entries base s reused' r' → reused' = reused ∧ r' = r

section
variable {t child : CacheTree} {previous children : List CacheTree} {e : Entry}
  {es entries : List Entry} {base below name rest : Bytes} {s s₁ s₂ : σ} {k : Known}
  {items : List TreeItem} {n : Nat} {err : IndexError}
  {r : Except IndexError (List TreeItem × Nat)}

/-- A node that knows its directory is reused, and nothing else. -/
theorem buildsOnly_known (hk : t.known = some k) (hc : covers k.count entries base = true) :
    BuildsOnly t entries base s (t, s, .ok k) := by
  refine ⟨_, .known hk hc, fun reused' r' h => ?_⟩
  cases h <;> simp_all

/-- A node whose count is not accepted is an error, and nothing else. -/
theorem buildsOnly_stale (hk : t.known = some k) (hc : ¬ covers k.count entries base = true) :
    BuildsOnly t entries base s (t, s, .error (.corruptCacheTree (.staleCount k.count base))) := by
  refine ⟨_, .stale hk (Bool.eq_false_iff.2 hc), fun reused' r' h => ?_⟩
  cases h <;> simp_all

/-- A directory that cannot be listed comes to this end. -/
theorem WalksOnly.unlisted (hk : t.known = none)
    (h : WalksOnly t.children entries base s (children, s₁, .error err)) :
    BuildsOnly t entries base s (node t.name none children, s₁, .error err) := by
  obtain ⟨reused, hl, honly⟩ := h
  refine ⟨reused, .unlisted hk hl, fun reused' r' h' => ?_⟩
  cases h' with
  | known hk' => simp [hk] at hk'
  | stale hk' => simp [hk] at hk'
  | unlisted _ hl' =>
    obtain ⟨rfl, heq⟩ := honly _ _ hl'
    cases heq
    exact ⟨rfl, rfl⟩
  | refused _ hl' => cases (honly _ _ hl').2
  | stored _ hl' => cases (honly _ _ hl').2

/-- A directory whose listing is refused comes to this end. -/
theorem WalksOnly.refused {error : StoreError} (hk : t.known = none)
    (h : WalksOnly t.children entries base s (children, s₁, .ok (items, n)))
    (hi : ObjectDatabase.insertTree (Tree.ofList items) s₁ = (.error error, s₂)) :
    BuildsOnly t entries base s
      (node t.name none (sortByName children), s₂, .error (.store error)) := by
  obtain ⟨reused, hl, honly⟩ := h
  refine ⟨reused, .refused hk hl hi, fun reused' r' h' => ?_⟩
  cases h' with
  | known hk' => simp [hk] at hk'
  | stale hk' => simp [hk] at hk'
  | unlisted _ hl' => cases (honly _ _ hl').2
  | refused _ hl' hi' =>
    obtain ⟨rfl, heq⟩ := honly _ _ hl'
    cases heq
    cases hi.symm.trans hi'
    exact ⟨rfl, rfl⟩
  | stored _ hl' hi' =>
    cases (honly _ _ hl').2
    cases hi.symm.trans hi'

/-- A directory whose listing is stored comes to this end. -/
theorem WalksOnly.stored {id : ObjectId} (hk : t.known = none)
    (h : WalksOnly t.children entries base s (children, s₁, .ok (items, n)))
    (hi : ObjectDatabase.insertTree (Tree.ofList items) s₁ = (.ok id, s₂)) :
    BuildsOnly t entries base s
      (node t.name (some ⟨n, id⟩) (sortByName children), s₂, .ok ⟨n, id⟩) := by
  obtain ⟨reused, hl, honly⟩ := h
  refine ⟨reused, .stored hk hl hi, fun reused' r' h' => ?_⟩
  cases h' with
  | known hk' => simp [hk] at hk'
  | stale hk' => simp [hk] at hk'
  | unlisted _ hl' => cases (honly _ _ hl').2
  | refused _ hl' hi' =>
    cases (honly _ _ hl').2
    cases hi.symm.trans hi'
  | stored _ hl' hi' =>
    obtain ⟨rfl, heq⟩ := honly _ _ hl'
    cases heq
    cases hi.symm.trans hi'
    exact ⟨rfl, rfl⟩

/-- Listing ends where no entries are left. -/
theorem walksOnly_done : WalksOnly previous [] base s ([], s, .ok ([], 0)) := by
  refine ⟨_, .done, fun reused' r' h => ?_⟩
  cases h
  exact ⟨rfl, rfl⟩

/-- Listing ends where the next entry is not below the directory. -/
theorem walksOnly_outside (hp : e.path.afterPrefix? base = none) :
    WalksOnly previous (e :: es) base s ([], s, .ok ([], 0)) := by
  refine ⟨_, .outside hp, fun reused' r' h => ?_⟩
  cases h <;> simp_all

/-- Listing ends where the next path is in conflict. -/
theorem walksOnly_conflict (hp : e.path.afterPrefix? base = some below) (hm : e.stage ≠ .merged) :
    WalksOnly previous (e :: es) base s ([], s, .error (.unresolvedConflict [e.path])) := by
  refine ⟨_, .conflict hp hm, fun reused' r' h => ?_⟩
  cases h <;> simp_all

/-- A file is listed before what follows it. -/
theorem WalksOnly.file (hp : e.path.afterPrefix? base = some below) (hm : e.stage = .merged)
    (hs : below.splitAt? Bytes.slash = none) (h : WalksOnly previous es base s (children, s₁, r)) :
    WalksOnly previous (e :: es) base s
      (children, s₁, r.map fun (items, n) => (fileItem below e ++ items, n + 1)) := by
  obtain ⟨reused, hl, honly⟩ := h
  refine ⟨reused, .file hp hm hs hl, fun reused' r' h' => ?_⟩
  cases h' with
  | outside hp' => simp [hp] at hp'
  | conflict _ hm' => exact absurd hm hm'
  | file hp' _ _ hl' =>
    cases hp.symm.trans hp'
    obtain ⟨rfl, heq⟩ := honly _ _ hl'
    cases heq
    exact ⟨rfl, rfl⟩
  | unfinished hp' _ hs' =>
    cases hp.symm.trans hp'
    simp [hs] at hs'
  | subtree hp' _ hs' =>
    cases hp.symm.trans hp'
    simp [hs] at hs'

/-- A subdirectory that cannot be materialized ends the listing. -/
theorem BuildsOnly.unfinished (hp : e.path.afterPrefix? base = some below)
    (hm : e.stage = .merged) (hs : below.splitAt? Bytes.slash = some (name, rest))
    (h : BuildsOnly (takeChild previous name).1 (e :: es) (base ++ name ++ [Bytes.slash]) s
      (child, s₁, .error err)) :
    WalksOnly previous (e :: es) base s ([], s₁, .error err) := by
  obtain ⟨reused, hc, honly⟩ := h
  refine ⟨reused, .unfinished hp hm hs hc, fun reused' r' h' => ?_⟩
  cases h' with
  | outside hp' => simp [hp] at hp'
  | conflict _ hm' => exact absurd hm hm'
  | file hp' _ hs' =>
    cases hp.symm.trans hp'
    simp [hs] at hs'
  | unfinished hp' _ hs' hc' =>
    cases hp.symm.trans hp'
    cases hs.symm.trans hs'
    obtain ⟨rfl, heq⟩ := honly _ _ hc'
    cases heq
    exact ⟨rfl, rfl⟩
  | subtree hp' _ hs' hc' =>
    cases hp.symm.trans hp'
    cases hs.symm.trans hs'
    cases (honly _ _ hc').2

/-- A subdirectory is listed before what follows as many entries as it counts. -/
theorem BuildsOnly.subtree (hp : e.path.afterPrefix? base = some below) (hm : e.stage = .merged)
    (hs : below.splitAt? Bytes.slash = some (name, rest))
    (h : BuildsOnly (takeChild previous name).1 (e :: es) (base ++ name ++ [Bytes.slash]) s
      (child, s₁, .ok k))
    (hrest : WalksOnly (takeChild previous name).2 ((e :: es).drop k.count) base s₁
      (children, s₂, r)) :
    WalksOnly previous (e :: es) base s
      (child :: children, s₂,
        r.map fun (items, n) => (subtreeItem name k ++ items, k.count + n)) := by
  obtain ⟨reused, hc, honly⟩ := h
  obtain ⟨later, hl, hlater⟩ := hrest
  refine ⟨reused ++ later, .subtree hp hm hs hc hl, fun reused' r' h' => ?_⟩
  cases h' with
  | outside hp' => simp [hp] at hp'
  | conflict _ hm' => exact absurd hm hm'
  | file hp' _ hs' =>
    cases hp.symm.trans hp'
    simp [hs] at hs'
  | unfinished hp' _ hs' hc' =>
    cases hp.symm.trans hp'
    cases hs.symm.trans hs'
    cases (honly _ _ hc').2
  | subtree hp' _ hs' hc' hl' =>
    cases hp.symm.trans hp'
    cases hs.symm.trans hs'
    obtain ⟨rfl, heq⟩ := honly _ _ hc'
    cases heq
    obtain ⟨rfl, heq⟩ := hlater _ _ hl'
    cases heq
    exact ⟨rfl, rfl⟩

end

/-- With whatever nodes and entries they are begun, materializing and listing come to one end. By
induction on the calls that they make of each other: fewer entries are left after a subdirectory, as
its count is not zero. -/
theorem buildsOnly_walksOnly :
    (∀ (t : CacheTree) (entries : List Entry) (base : Bytes) (s : σ),
      BuildsOnly t entries base s (materialize t entries base s)) ∧
    ∀ (previous : List CacheTree) (entries : List Entry) (base : Bytes) (s : σ),
      WalksOnly previous entries base s (list previous entries base s) := by
  apply materialize.mutual_induct_unfolding
    (fun t entries base s r => BuildsOnly t entries base s r)
    (fun previous entries base s r => WalksOnly previous entries base s r)
  case case1 =>
    intro t entries base s k hk
    by_cases hc : covers k.count entries base = true
    · rw [if_pos hc]
      exact buildsOnly_known hk hc
    · rw [if_neg hc]
      exact buildsOnly_stale hk hc
  case case2 =>
    intro t entries base s hk children s₁ e hlist ih
    rw [hlist] at ih
    exact ih.unlisted hk
  case case3 =>
    intro t entries base s hk children s₁ items n hlist e s₂ hins ih
    rw [hlist] at ih
    exact ih.refused hk hins
  case case4 =>
    intro t entries base s hk children s₁ items n hlist id s₂ hins ih
    rw [hlist] at ih
    exact ih.stored hk hins
  case case5 => exact fun _ _ _ => walksOnly_done
  case case6 => exact fun _ _ _ _ _ hp => walksOnly_outside hp
  case case7 => exact fun _ _ _ _ _ _ hp hm => walksOnly_conflict hp hm
  case case8 =>
    intro previous base s e es below hp hm hsplit children s₁ r hlist ih
    rw [hlist] at ih
    exact ih.file hp (not_not.1 hm) hsplit
  case case9 =>
    intro previous base s e es below hp hm name rest hsplit c s₁ err hchild ih
    rw [hchild] at ih
    exact ih.unfinished hp (not_not.1 hm) hsplit
  case case10 =>
    intro previous base s e es below hp hm name rest hsplit child s₁ k hchild children s₂ r hlist
      ih₁ ih₂
    obtain ⟨rfl, -⟩ := Bytes.eq_append_of_splitAt? hsplit
    have hpos := count_pos hchild (Table.beginsWith_below hp)
    rw [hchild] at ih₁
    rw [hlist, drop_sub_one hpos] at ih₂
    exact ih₁.subtree hp (not_not.1 hm) hsplit ih₂

/-! ## What is reused -/

variable {T : Table}

/-- What holds where some entries of a table are listed: every node that is reused counts the entries
below its directory, and if this succeeds all entries are counted. -/
structure Counts (T : Table) (reused : List Reused) (total : Nat) (outcome : Except IndexError Nat) :
    Prop where
  exact : ∀ x ∈ reused, x.2.count = (T.beginning x.1).length
  eq_total : ∀ n, outcome = .ok n → n = total
  ne_rootCovers : ∀ n m, outcome ≠ .error (.corruptCacheTree (.rootCovers n m))

/-- It succeeds with this number of entries. -/
theorem counts_ok {reused : List Reused} {n : Nat}
    (h : ∀ x ∈ reused, x.2.count = (T.beginning x.1).length) : Counts T reused n (.ok n) where
  exact := h
  eq_total _ hn := (Except.ok.inj hn).symm
  ne_rootCovers _ _ := by simp

/-- It fails with another error. -/
theorem counts_error {reused : List Reused} {n : Nat} {e : IndexError}
    (h : ∀ x ∈ reused, x.2.count = (T.beginning x.1).length)
    (he : ∀ n m, e ≠ .corruptCacheTree (.rootCovers n m)) : Counts T reused n (.error e) where
  exact := h
  eq_total _ hn := by cases hn
  ne_rootCovers n m := by simpa using he n m

/-- It fails after more nodes were reused, however many entries there are. -/
theorem Counts.of_error {reused before : List Reused} {m n : Nat} {e : IndexError}
    (h : Counts T reused m (.error e))
    (hb : ∀ x ∈ before, x.2.count = (T.beginning x.1).length) :
    Counts T (before ++ reused) n (.error e) :=
  counts_error (List.forall_mem_append.2 ⟨hb, h.exact⟩) fun n m he =>
    h.ne_rootCovers n m (congrArg _ he)

/-- Wherever a sorted table is cut, materializing only reuses nodes that count the entries below their
directory. By induction on the calls that materializing and listing make of each other. -/
theorem counts_of_builds (hs : T.IsSorted) {t : CacheTree} {entries : List Entry} {base : Bytes}
    {s : σ} {reused : List Reused} {r : CacheTree × σ × Except IndexError Known}
    (h : Builds t entries base s reused r) :
    ∀ pre, Table.StartsAt T pre entries base → Bytes.IsBase base →
      Counts T reused (T.beginning base).length (r.2.2.map Known.count) := by
  revert h
  apply @Builds.rec σ _
    (fun _ entries base _ reused r _ => ∀ pre, Table.StartsAt T pre entries base →
      Bytes.IsBase base → Counts T reused (T.beginning base).length (r.2.2.map Known.count))
    (fun _ entries base _ reused r _ => ∀ pre, Table.Apart T pre entries base →
      Bytes.IsBase base → Counts T reused
        (entries.takeWhile fun o => o.path.beginsWith base).length (r.2.2.map Prod.snd))
  case known =>
    -- A count is accepted only if it is right.
    intro t entries base s k hk hc pre hstart hbase
    have hcount := hstart.covers_iff.1 hc
    rw [← hcount]
    exact counts_ok (by simpa using hcount)
  case stale =>
    intro t entries base s k hk hc pre hstart hbase
    exact counts_error (by simp) (by simp)
  case unlisted =>
    intro t entries base s s₁ reused children e hk hl ih pre hstart hbase
    exact (ih pre hstart.apart hbase).of_error (List.forall_mem_nil _)
  case refused =>
    intro t entries base s s₁ s₂ reused children items n e hk hl hi ih pre hstart hbase
    exact counts_error (ih pre hstart.apart hbase).exact (by simp)
  case stored =>
    intro t entries base s s₁ s₂ reused children items n id hk hl hi ih pre hstart hbase
    rw [← hstart.takeWhile_eq]
    exact ih pre hstart.apart hbase
  case done =>
    intro previous base s pre hapart hbase
    exact counts_ok (by simp)
  case outside =>
    intro previous e es base s hp pre hapart hbase
    have hb := Bytes.beginsWith_eq_false hp
    rw [List.takeWhile_cons_of_neg (by simp [hb])]
    exact counts_ok (by simp)
  case conflict =>
    intro previous e es base below s hp hm pre hapart hbase
    exact counts_error (by simp) (by simp)
  case file =>
    intro previous children e es base below s s₁ reused r hp hm hsplit hl ih pre hapart hbase
    have hb : e.path.beginsWith base = true := by
      rw [Bytes.afterPrefix?_eq_some_iff.1 hp]
      simp
    have hrest := ih _ (hapart.tail_of_file hp (Bytes.splitAt?_eq_none_iff.1 hsplit)) hbase
    cases r with
    | error err => exact hrest.of_error (List.forall_mem_nil _)
    | ok x =>
      rw [List.takeWhile_cons_of_pos (p := fun o : Entry => o.path.beginsWith base) hb,
        List.length_cons, ← hrest.eq_total _ rfl]
      exact counts_ok hrest.exact
  case unfinished =>
    intro previous e es base below name rest s s₁ reused child err hp hm hsplit hc ih pre hapart
      hbase
    obtain ⟨rfl, hn⟩ := Bytes.eq_append_of_splitAt? hsplit
    exact (ih pre (hapart.startsAt hs hp hn) (Bytes.isBase_below base name)).of_error
      (List.forall_mem_nil _)
  case subtree =>
    intro previous children e es base below name rest s s₁ s₂ reused later child k r hp hm hsplit
      hc hl ihc ihl pre hapart hbase
    obtain ⟨rfl, hn⟩ := Bytes.eq_append_of_splitAt? hsplit
    have hstart := hapart.startsAt hs hp hn
    have hchild := ihc pre hstart (Bytes.isBase_below base name)
    have hk : k.count = (T.beginning (Bytes.below base name)).length := hchild.eq_total _ rfl
    obtain ⟨hcut, hentered⟩ := hapart.entered hs hp hn hbase
    have hpos : 0 < k.count := hk ▸ List.length_pos_of_ne_nil hentered.ne_nil
    have hskip : (e :: es).drop k.count =
        es.dropWhile fun o => o.path.beginsWith (Bytes.below base name) := by
      rw [← drop_sub_one hpos, hk, ← hstart.takeWhile_eq]
      exact Table.drop_eq_dropWhile hp
    rw [hskip] at ihl
    have hrest := ihl _ (hapart.tail_of_subtree hs hp hn) hbase
    cases r with
    | error err => exact hrest.of_error hchild.exact
    | ok x =>
      rw [hcut, List.length_append, ← hk, ← hrest.eq_total _ rfl]
      exact counts_ok (List.forall_mem_append.2 ⟨hchild.exact, hrest.exact⟩)

/-! ## The whole table -/

/-- Materializing a whole table comes to one end with any cache tree and any database, and what comes of
it is that end: the root is never found to cover too little. Every node that was reused counts exactly
the entries below its directory, and if this succeeds, the root knows how many entries there are. -/
theorem update_reuses (hT : T.Invariant) (t : CacheTree) (s : σ) :
    ∃ reused t' s' r, Builds t T [] s reused (t', s', r) ∧
      (∀ reused' r', Builds t T [] s reused' r' → reused' = reused ∧ r' = (t', s', r)) ∧
      t.update T s = (t', s', r.map Known.id) ∧
      (∀ x ∈ reused, x.2.count = (T.beginning x.1).length) ∧
      (∀ id, (t.update T s).2.2 = .ok id → t'.known = some ⟨T.length, id⟩) ∧
      ∀ n m, (t.update T s).2.2 ≠ .error (.corruptCacheTree (.rootCovers n m)) := by
  obtain ⟨reused, hbuilds, honly⟩ := buildsOnly_walksOnly.1 t T [] s
  have hcounts := counts_of_builds hT.sorted hbuilds [] (Table.startsAt_nil T) (Or.inl rfl)
  rw [Table.beginning_nil] at hcounts
  have hknown := @known_of_materialize σ _ t T [] s
  rw [update_eq_map]
  refine ⟨reused, _, _, _, hbuilds, honly, rfl, hcounts.exact, fun id hid => ?_, fun n m he => ?_⟩
  · obtain ⟨k, hk, rfl⟩ := Check.map_eq_ok.1 hid
    rw [hknown hk, ← hcounts.eq_total k.count (congrArg (Except.map Known.count) hk)]
  · have herror := Check.map_eq_error.1 he
    exact hcounts.ne_rootCovers n m (Check.map_eq_error.2 herror)

/-- Files `a/x` and `a/y`, and a file `b`. -/
def threeFiles : Table :=
  [Entry.bare [0x61, 0x2f, 0x78] .merged .regular .null,
    Entry.bare [0x61, 0x2f, 0x79] .merged .regular .null, Entry.bare [0x62] .merged .regular .null]

/-- A node `z` with a count that is too large, before two nodes `a`, of which the first counts no
entries. -/
def disordered : CacheTree :=
  .node [] none [.node [0x7a] (some ⟨2 ^ 64 - 1, .filled 1⟩) [],
    .node [0x61] (some ⟨0, .filled 2⟩) [], .node [0x61] (some ⟨2, .filled 3⟩) []]

/-- The second node `a` is reused, and the root covers all files. -/
theorem builds_disordered :
    ∃ t' s' id, Builds disordered threeFiles [] (TreeLog.mk []) [([0x61, 0x2f], ⟨2, .filled 3⟩)]
      (t', s', .ok ⟨3, id⟩) := by
  have hchild : (takeChild disordered.children [0x61]).1 =
      .node [0x61] (some ⟨2, .filled 3⟩) [] := by cbv
  have hreused : Builds (takeChild disordered.children [0x61]).1 threeFiles [0x61, 0x2f]
      (TreeLog.mk []) [([0x61, 0x2f], ⟨2, .filled 3⟩)]
      (.node [0x61] (some ⟨2, .filled 3⟩) [], TreeLog.mk [], .ok ⟨2, .filled 3⟩) := by
    rw [hchild]
    exact .known rfl (by decide)
  -- After the two files of the directory there is one file.
  have hrest : ∃ items, Walks (takeChild disordered.children [0x61]).2 (threeFiles.drop 2) []
      (TreeLog.mk []) [] ([], TreeLog.mk [], .ok (items, 1)) :=
    ⟨_, .file rfl rfl rfl .done⟩
  obtain ⟨items, hrest⟩ := hrest
  have hpath : Bytes.afterPrefix? [0x61, 0x2f, 0x78] [] = some [0x61, 0x2f, 0x78] := rfl
  have hsplit : Bytes.splitAt? Bytes.slash [0x61, 0x2f, 0x78] = some ([0x61], [0x78]) := rfl
  have hlisted := Walks.subtree (e := Entry.bare [0x61, 0x2f, 0x78] .merged .regular .null)
    (k := ⟨2, .filled 3⟩) hpath rfl hsplit hreused hrest
  exact ⟨_, _, _, .stored rfl hlisted rfl⟩

/-- With them all files are materialized, and the node that is reused has the right count. -/
theorem update_reuses_disordered :
    threeFiles.Invariant ∧ ∃ t' s' id,
      Builds disordered threeFiles [] (TreeLog.mk []) [([0x61, 0x2f], ⟨2, .filled 3⟩)]
        (t', s', .ok ⟨3, id⟩) ∧
      disordered.update threeFiles (TreeLog.mk []) = (t', s', .ok id) ∧
      (threeFiles.beginning [0x61, 0x2f]).length = 2 := by
  have hT : threeFiles.Invariant :=
    Table.normalize_invariant (by cbv : Table.normalize .reject threeFiles = .ok threeFiles)
  obtain ⟨t', s', id, hbuilds⟩ := builds_disordered
  obtain ⟨reused, t₁, s₁, r, -, honly, hupdate, hexact, -⟩ :=
    update_reuses hT disordered (TreeLog.mk [])
  obtain ⟨rfl, heq⟩ := honly _ _ hbuilds
  cases heq
  exact ⟨hT, t', s', id, hbuilds, hupdate, (hexact _ List.mem_cons_self).symm⟩

end CacheTree

end StagingIndex
