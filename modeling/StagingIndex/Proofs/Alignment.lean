import Mathlib
import StagingIndex.Proofs.Materialization

/-! # Materializing in step with the table

A count that a node knows is accepted only if it is the number of entries below its directory. So
with any cache tree whatsoever materializing stays in step with the table: it enters a subdirectory
at its first entry and leaves it after its last one. What each single step keeps, told by
directories and the entries below them, is therefore kept by materializing as a whole.

* `Table.StartsAt`, `Table.Apart` — where a table is cut when a directory is entered, and later
* `Table.StartsAt.covers_iff` — the counts that are accepted
* `Table.Ahead`, `Table.Entered` — the entries that are left of a directory, and the subdirectory
  that is met next
* `CacheTree.Met` — the subdirectories that were met, no two of one name
* `CacheTree.StepsKeep` — what each step keeps
* `CacheTree.StepsKeep.materialize` — materializing keeps it, and counts right if it succeeds -/

namespace StagingIndex

/-! ## Counts -/

namespace CacheTree

variable {base : Bytes}

/-- A count is accepted if as many entries are below the directory and the next one is not. -/
theorem covers_append (xs ys : List Entry) (hx : ∀ e ∈ xs, e.path.beginsWith base = true)
    (hy : ∀ e ∈ ys.head?, e.path.beginsWith base = false) :
    covers xs.length (xs ++ ys) base = true := by
  have hnext : (xs ++ ys)[xs.length]? = ys.head? := by
    rw [List.getElem?_append_right (Nat.le_refl _), Nat.sub_self, List.head?_eq_getElem?]
  have hafter : (ys.head?.map fun e => !e.path.beginsWith base).getD true = true := by
    cases h : ys.head? with
    | none => rfl
    | some e => simp [hy e h]
  -- The last entry that is counted is looked at, if any is counted.
  rcases xs.eq_nil_or_concat with rfl | ⟨xs, e, rfl⟩
  · simpa [covers, ← List.head?_eq_getElem?] using hafter
  · have he : e.path.beginsWith base = true := hx e (by simp)
    rw [covers, hnext, hafter]
    simp [he]

/-- A count that is right is accepted. -/
theorem covers_takeWhile (entries : List Entry) (base : Bytes) :
    covers (entries.takeWhile fun o => o.path.beginsWith base).length entries base = true := by
  have h := covers_append (entries.takeWhile fun o => o.path.beginsWith base)
    (entries.dropWhile fun o => o.path.beginsWith base)
    (fun e he => List.mem_takeWhile_imp (p := fun o : Entry => o.path.beginsWith base) he) (by
      intro e he
      have hd := List.head?_dropWhile_not (fun o : Entry => o.path.beginsWith base) entries
      rw [Option.mem_def.1 he] at hd
      simpa using hd)
  rwa [List.takeWhile_append_dropWhile] at h

end CacheTree

/-! ## Where a table is cut -/

namespace Table

open CacheTree (covers subtreeItem)

variable {T : Table} {pre entries es left inside : List Entry} {e : Entry} {base name rest : Bytes}

/-- A table cut where the entries below a directory start. -/
structure StartsAt (T : Table) (pre entries : List Entry) (base : Bytes) : Prop where
  eq_append : T = pre ++ entries
  before : ∀ p ∈ pre, p.path.beginsWith base = false
  takeWhile_eq : entries.takeWhile (fun o => o.path.beginsWith base) = T.beginning base

/-- A table cut so that no subdirectory of a directory has entries on both sides. -/
structure Apart (T : Table) (pre entries : List Entry) (base : Bytes) : Prop where
  eq_append : T = pre ++ entries
  apart : ∀ p ∈ pre, ∀ e ∈ entries, ∀ name, Bytes.slash ∉ name →
    e.path.beginsWith (Bytes.below base name) = true →
      p.path.beginsWith (Bytes.below base name) = false

/-- A whole table starts with the directory without a name. -/
theorem startsAt_nil (T : Table) : StartsAt T [] T [] where
  eq_append := rfl
  before := by simp
  takeWhile_eq := by
    rw [beginning_nil]
    exact List.takeWhile_eq_self_iff.2 (by simp)

/-- Where a directory starts none of its subdirectories has started. -/
theorem StartsAt.apart (h : StartsAt T pre entries base) : Apart T pre entries base where
  eq_append := h.eq_append
  apart := by
    intro p hp e _ name _ _
    rw [← Bool.not_eq_true]
    intro hb
    have := Bytes.beginsWith_of_below hb
    rw [h.before p hp] at this
    cases this

/-- A subdirectory starts with its first entry. -/
theorem Apart.startsAt (hs : IsSorted T) (h : Apart T pre (e :: es) base)
    (hp : e.path.afterPrefix? base = some (name ++ Bytes.slash :: rest))
    (hn : Bytes.slash ∉ name) : StartsAt T pre (e :: es) (Bytes.below base name) where
  eq_append := h.eq_append
  before := fun p hm => h.apart p hm e List.mem_cons_self name hn (beginsWith_below hp)
  takeWhile_eq := by
    have hes : IsSorted (e :: es) := hs.sublist (h.eq_append ▸ List.sublist_append_right _ _)
    rw [takeWhile_beginsWith hes rfl (beginsWith_below hp), h.eq_append, beginning_append,
      beginning_eq_nil fun p hm =>
        h.apart p hm e List.mem_cons_self name hn (beginsWith_below hp), List.nil_append]

/-- After a file no subdirectory has entries on both sides. -/
theorem Apart.tail_of_file (h : Apart T pre (e :: es) base)
    (hp : e.path.afterPrefix? base = some rest) (hr : Bytes.slash ∉ rest) :
    Apart T (pre ++ [e]) es base where
  eq_append := by rw [h.eq_append, List.append_assoc, List.singleton_append]
  apart := by
    intro p hm o ho name hn hb
    rcases List.mem_append.1 hm with hm | hm
    · exact h.apart p hm o (List.mem_cons_of_mem _ ho) name hn hb
    · rw [List.mem_singleton.1 hm, Bytes.afterPrefix?_eq_some_iff.1 hp, ← Bool.not_eq_true,
        Bytes.beginsWith_iff, Bytes.below, List.append_assoc, List.prefix_append_right_inj]
      intro hpre
      exact hr (hpre.subset (by simp))

/-- After a subdirectory no subdirectory has entries on both sides. -/
theorem Apart.tail_of_subtree (hs : IsSorted T) (h : Apart T pre (e :: es) base)
    (hp : e.path.afterPrefix? base = some (name ++ Bytes.slash :: rest))
    (hn : Bytes.slash ∉ name) :
    Apart T (pre ++ (e :: es).takeWhile fun o => o.path.beginsWith (Bytes.below base name))
      (es.dropWhile fun o => o.path.beginsWith (Bytes.below base name)) base where
  eq_append := by
    have he := beginsWith_below hp
    rw [h.eq_append, List.append_assoc, List.takeWhile_cons_of_pos (by simpa using he),
      List.cons_append, List.takeWhile_append_dropWhile]
  apart := by
    have hes : IsSorted (e :: es) := hs.sublist (h.eq_append ▸ List.sublist_append_right _ _)
    have he := beginsWith_below hp
    intro p hm o ho n hn' hb
    have hoes : o ∈ e :: es := List.mem_cons_of_mem _ ((List.dropWhile_sublist _).subset ho)
    rcases List.mem_append.1 hm with hm | hm
    · exact h.apart p hm o hoes n hn' hb
    · have hpb := List.mem_takeWhile_imp hm
      rw [← Bool.not_eq_true]
      intro hpn
      -- Both would be below the subdirectory that has just been left.
      obtain rfl := Bytes.name_eq_of_below hn hn' hpb hpn
      have hout : o ∈ (e :: es).dropWhile fun o => o.path.beginsWith (Bytes.below base name) := by
        rwa [List.dropWhile_cons_of_pos (by simpa using he)]
      rw [dropWhile_beginsWith hes rfl he, List.mem_filter] at hout
      simp [hb] at hout

section Parts
variable {α : Type} {p q : α → Bool}

/-- Of leading elements of a condition, the leading ones of a stronger one. -/
theorem takeWhile_takeWhile_of_imp (h : ∀ a, q a = true → p a = true) (l : List α) :
    (l.takeWhile p).takeWhile q = l.takeWhile q := by
  induction l with
  | nil => rfl
  | cons a l ih =>
    cases hq : q a with
    | true => simp [hq, h a hq, ih]
    | false => cases hp : p a <;> simp [hp, hq]

/-- Of leading elements of a condition, what is left after the leading ones of a stronger one. -/
theorem dropWhile_takeWhile_of_imp (h : ∀ a, q a = true → p a = true) (l : List α) :
    (l.takeWhile p).dropWhile q = (l.dropWhile q).takeWhile p := by
  induction l with
  | nil => rfl
  | cons a l ih =>
    cases hq : q a with
    | true => simp [hq, h a hq, ih]
    | false => cases hp : p a <;> simp [hp, hq]

end Parts

/-- The entries below a subdirectory are below the directory. -/
theorem beginsWith_imp (base name : Bytes) (e : Entry)
    (h : e.path.beginsWith (Bytes.below base name) = true) : e.path.beginsWith base = true :=
  Bytes.beginsWith_of_below h

/-- To skip the entries of a subdirectory is to go on after the last of them. -/
theorem drop_eq_dropWhile (hp : e.path.afterPrefix? base = some (name ++ Bytes.slash :: rest)) :
    es.drop (((e :: es).takeWhile fun o =>
        o.path.beginsWith (Bytes.below base name)).length - 1) =
      es.dropWhile fun o => o.path.beginsWith (Bytes.below base name) := by
  have he := beginsWith_below hp
  rw [List.takeWhile_cons_of_pos (by simpa using he), List.length_cons, Nat.add_sub_cancel]
  have hsplit := List.takeWhile_append_dropWhile
    (p := fun o : Entry => o.path.beginsWith (Bytes.below base name)) (l := es)
  exact (congrArg (List.drop _) hsplit).symm.trans List.drop_left

/-! ## Counts that are accepted -/

/-- Where a directory starts its entries come first, and none of them comes later. -/
theorem StartsAt.not_beginsWith (h : StartsAt T pre entries base) :
    ∀ e ∈ entries.dropWhile (fun o => o.path.beginsWith base), e.path.beginsWith base = false := by
  have hfilter : entries.filter (fun o => o.path.beginsWith base) =
      entries.takeWhile fun o => o.path.beginsWith base := by
    rw [h.takeWhile_eq, h.eq_append, beginning_append, beginning_eq_nil h.before, List.nil_append]
    rfl
  have hall := congrArg (List.filter fun o : Entry => o.path.beginsWith base)
    (List.takeWhile_append_dropWhile (p := fun o : Entry => o.path.beginsWith base) (l := entries))
  rw [List.filter_append, List.filter_eq_self.2 fun e he =>
    List.mem_takeWhile_imp (p := fun o : Entry => o.path.beginsWith base) he, hfilter] at hall
  have hnone := List.append_right_eq_self.1 hall
  exact fun e he => Bool.eq_false_iff.2 (List.filter_eq_nil_iff.1 hnone e he)

/-- Where a directory starts, only the number of its entries is accepted as a count. -/
theorem StartsAt.covers_iff (h : StartsAt T pre entries base) {n : Nat} :
    covers n entries base = true ↔ n = (T.beginning base).length := by
  have hin : ∀ e ∈ T.beginning base, e.path.beginsWith base = true := fun e he =>
    (mem_beginning.1 he).2
  have hsplit : entries = T.beginning base ++
      entries.dropWhile fun o => o.path.beginsWith base := by
    rw [← h.takeWhile_eq, List.takeWhile_append_dropWhile]
  constructor
  · intro hn
    simp only [covers, Bool.and_eq_true, decide_eq_true_eq, Bool.or_eq_true] at hn
    obtain ⟨⟨hle, hlast⟩, hnext⟩ := hn
    rcases lt_trichotomy n (T.beginning base).length with hlt | heq | hgt
    · -- The entry after those that are counted is below the directory.
      have hget : entries[n]? = some (T.beginning base)[n] := by
        rw [hsplit, List.getElem?_append_left hlt, List.getElem?_eq_getElem hlt]
      simp [hget, hin _ (List.getElem_mem hlt)] at hnext
    · exact heq
    · -- The last entry that is counted is not below the directory.
      obtain ⟨m, rfl⟩ : ∃ m, n = m + 1 := ⟨n - 1, by omega⟩
      have hm : m < entries.length := by omega
      have hget : entries[m] ∈ entries.dropWhile fun o => o.path.beginsWith base := by
        have hlen := congrArg List.length hsplit
        have : entries[m]? = (entries.dropWhile fun o => o.path.beginsWith base)[
            m - (T.beginning base).length]? := by
          conv_lhs => rw [hsplit]
          rw [List.getElem?_append_right (by omega)]
        rw [List.getElem?_eq_getElem hm] at this
        exact List.mem_of_getElem? this.symm
      simp [List.getElem?_eq_getElem hm, h.not_beginsWith _ hget] at hlast
  · rintro rfl
    rw [← h.takeWhile_eq]
    exact CacheTree.covers_takeWhile entries base

/-! ## Entries that are left -/

/-- The last entries below a directory, which are still to be listed. -/
structure Ahead (T : Table) (base : Bytes) (left : List Entry) : Prop where
  isBase : Bytes.IsBase base
  suffix : left <:+ T.beginning base

/-- A subdirectory that is met next: its entries come first, and none of them comes later. -/
structure Entered (T : Table) (base name : Bytes) (inside left : List Entry) : Prop where
  ahead : T.Ahead base (inside ++ left)
  slash : Bytes.slash ∉ name
  ne_nil : inside ≠ []
  eq_beginning : inside = T.beginning (Bytes.below base name)
  outside : ∀ o ∈ left, o.path.beginsWith (Bytes.below base name) = false

/-- What is left of a directory is part of the table. -/
theorem Ahead.sublist (h : T.Ahead base left) : left.Sublist T :=
  h.suffix.sublist.trans List.filter_sublist

/-- The entries that are left are below the directory. -/
theorem Ahead.beginsWith (h : T.Ahead base left) (he : e ∈ left) :
    e.path.beginsWith base = true :=
  (mem_beginning.1 (h.suffix.subset he)).2

/-- After the next entry fewer are left. -/
theorem Ahead.tail (h : T.Ahead base (inside ++ left)) : T.Ahead base left :=
  ⟨h.isBase, (List.suffix_append inside left).trans h.suffix⟩

/-- The entries of the subdirectory that is met next are below it. -/
theorem Entered.beginsWith (h : T.Entered base name inside left) (he : e ∈ inside) :
    e.path.beginsWith (Bytes.below base name) = true :=
  (mem_beginning.1 (h.eq_beginning ▸ he)).2

/-- The subdirectory that is met next is listed by its name, and then what is left after it. -/
theorem Entered.listing_append (h : T.Entered base name inside left) :
    listing base (inside ++ left) =
      subtreeItem name (exact (Bytes.below base name) inside) ++ listing base left := by
  obtain ⟨e, es, rfl⟩ := List.exists_cons_of_ne_nil h.ne_nil
  obtain ⟨rest, hp⟩ := Bytes.beginsWith_below_iff.1 (h.beginsWith List.mem_cons_self)
  have hin : ∀ o ∈ e :: es, o.path.beginsWith (Bytes.below base name) = true := fun o ho =>
    h.beginsWith ho
  -- Of what is left nothing is below the subdirectory.
  have hcut : left.takeWhile (fun o => o.path.beginsWith (Bytes.below base name)) = [] ∧
      left.dropWhile (fun o => o.path.beginsWith (Bytes.below base name)) = left := by
    cases left with
    | nil => exact ⟨rfl, rfl⟩
    | cons o left =>
      have ho := h.outside o List.mem_cons_self
      exact ⟨List.takeWhile_cons_of_neg (by simp [ho]), List.dropWhile_cons_of_neg (by simp [ho])⟩
  rw [List.cons_append, listing_subtree (Bytes.afterPrefix?_eq_some_iff.2 hp) h.slash,
    ← List.cons_append, List.takeWhile_append_of_pos hin, hcut.1, List.append_nil,
    List.dropWhile_append_of_pos fun o ho => hin o (List.mem_cons_of_mem _ ho), hcut.2]

/-- The leading entries below a directory are the last ones below it, wherever the table is cut. -/
theorem ahead_takeWhile (hs : T.IsSorted) (hT : T = pre ++ entries) (hb : Bytes.IsBase base) :
    T.Ahead base (entries.takeWhile fun o => o.path.beginsWith base) := by
  refine ⟨hb, ?_⟩
  cases entries with
  | nil => exact List.nil_suffix
  | cons e es =>
    by_cases he : e.path.beginsWith base = true
    · have hes : IsSorted (e :: es) := hs.sublist (hT ▸ List.sublist_append_right _ _)
      rw [takeWhile_beginsWith hes rfl he, hT, beginning_append]
      exact List.suffix_append _ _
    · rw [List.takeWhile_cons_of_neg (by simpa using he)]
      exact List.nil_suffix

/-- Where the next entry is below a subdirectory, this is the one that is met next. -/
theorem Apart.entered (hs : T.IsSorted) (h : Apart T pre (e :: es) base)
    (hp : e.path.afterPrefix? base = some (name ++ Bytes.slash :: rest))
    (hn : Bytes.slash ∉ name) (hb : Bytes.IsBase base) :
    (e :: es).takeWhile (fun o => o.path.beginsWith base) =
        T.beginning (Bytes.below base name) ++
          (es.dropWhile fun o => o.path.beginsWith (Bytes.below base name)).takeWhile
            (fun o => o.path.beginsWith base) ∧
      T.Entered base name (T.beginning (Bytes.below base name))
        ((es.dropWhile fun o => o.path.beginsWith (Bytes.below base name)).takeWhile
          fun o => o.path.beginsWith base) := by
  have hstart := h.startsAt hs hp hn
  have he := beginsWith_below hp
  have hdrop : (e :: es).dropWhile (fun o => o.path.beginsWith (Bytes.below base name)) =
      es.dropWhile fun o => o.path.beginsWith (Bytes.below base name) :=
    List.dropWhile_cons_of_pos (by simpa using he)
  have hcut : (e :: es).takeWhile (fun o => o.path.beginsWith base) =
      T.beginning (Bytes.below base name) ++
        (es.dropWhile fun o => o.path.beginsWith (Bytes.below base name)).takeWhile
          (fun o => o.path.beginsWith base) := by
    rw [← hdrop, ← dropWhile_takeWhile_of_imp (beginsWith_imp base name), ← hstart.takeWhile_eq,
      ← takeWhile_takeWhile_of_imp (beginsWith_imp base name) (e :: es),
      List.takeWhile_append_dropWhile]
  refine ⟨hcut, ?_, hn, ?_, rfl, ?_⟩
  · rw [← hcut]
    exact ahead_takeWhile hs h.eq_append hb
  · rw [← hstart.takeWhile_eq, List.takeWhile_cons_of_pos (by simpa using he)]
    exact List.cons_ne_nil _ _
  · intro o ho
    have ho' := (List.takeWhile_sublist _).subset ho
    exact hstart.not_beginsWith o (hdrop ▸ ho')

end Table

/-! ## Nodes that were met -/

namespace CacheTree

/-- The nodes that come of listing some entries below a directory: each is for a subdirectory that
some of the entries are below, and no two are for the same. -/
structure Met (base : Bytes) (left : List Entry) (children : List CacheTree) : Prop where
  slash : ∀ c ∈ children, Bytes.slash ∉ c.name
  found : ∀ c ∈ children, ∃ e ∈ left, e.path.beginsWith (Bytes.below base c.name) = true
  distinct : children.Pairwise fun a b => a.name ≠ b.name

variable {T : Table} {base name : Bytes} {inside left : List Entry} {children : List CacheTree}

/-- Where listing ends, no node was met. -/
theorem met_nil (base : Bytes) (left : List Entry) : Met base left [] where
  slash := by simp
  found := by simp
  distinct := List.Pairwise.nil

/-- With a file no node is met. -/
theorem Met.file (h : Met base left children) (e : Entry) : Met base (e :: left) children where
  slash := h.slash
  found := by
    intro c hc
    obtain ⟨o, ho, hb⟩ := h.found c hc
    exact ⟨o, List.mem_cons_of_mem _ ho, hb⟩
  distinct := h.distinct

/-- With a subdirectory its node is met, which is none of those that are met later. -/
theorem Met.subtree (h : Met base left children) (ha : T.Entered base name inside left)
    {child : CacheTree} (hname : child.name = name) :
    Met base (inside ++ left) (child :: children) where
  slash := List.forall_mem_cons.2 ⟨hname ▸ ha.slash, h.slash⟩
  found := by
    refine List.forall_mem_cons.2 ⟨?_, fun c hc => ?_⟩
    · obtain ⟨e, he⟩ := List.exists_mem_of_ne_nil inside ha.ne_nil
      exact ⟨e, List.mem_append_left _ he, hname ▸ ha.beginsWith he⟩
    · obtain ⟨e, he, hb⟩ := h.found c hc
      exact ⟨e, List.mem_append_right _ he, hb⟩
  distinct := by
    refine List.pairwise_cons.2 ⟨fun c hc heq => ?_, h.distinct⟩
    -- No entry that is left is below the subdirectory that has just been left.
    obtain ⟨e, he, hb⟩ := h.found c hc
    rw [← heq, hname, ha.outside e he] at hb
    cases hb

/-- Nodes that were met have names that paths can have between slashes. -/
theorem Met.named (h : Met base (T.beginning base) children) (hb : Bytes.IsBase base)
    (hv : ∀ e ∈ T, Path.IsValid e.path) :
    ∀ c ∈ children, c.name ≠ [] ∧ Bytes.slash ∉ c.name ∧ Bytes.nul ∉ c.name := by
  intro c hc
  obtain ⟨e, he, hbelow⟩ := h.found c hc
  obtain ⟨rest, hp⟩ := Bytes.beginsWith_below_iff.1 hbelow
  have hvalid := hv e (Table.mem_beginning.1 he).1
  rw [hp] at hvalid
  exact hvalid.name hb (h.slash c hc)

end CacheTree

/-! ## Steps -/

namespace CacheTree

variable {σ : Type} [ObjectDatabase σ] {T : Table} {base : Bytes}

/-- What each step of materializing and listing keeps. Of materializing a directory it is told by its
base, of listing what is left of a directory by its base and the entries that are left. -/
structure StepsKeep (T : Table)
    (M : Bytes → CacheTree → σ → CacheTree × σ × Except IndexError Known → Prop)
    (L : Bytes → List Entry → List CacheTree → σ →
      List CacheTree × σ × Except IndexError (List TreeItem × Nat) → Prop) : Prop where
  /-- The directory is known, with the right count. -/
  known {base : Bytes} {t : CacheTree} {s : σ} {k : Known} (hk : t.known = some k)
    (hn : k.count = (T.beginning base).length) : M base t s (t, s, .ok k)
  /-- The directory is known with another count. -/
  stale {base : Bytes} {t : CacheTree} {s : σ} {k : Known} (hk : t.known = some k)
    (hn : k.count ≠ (T.beginning base).length) :
    M base t s (t, s, .error (.corruptCacheTree (.staleCount k.count base)))
  /-- The directory cannot be listed. -/
  unlisted {base : Bytes} {t : CacheTree} {s s₁ : σ} {children : List CacheTree} {e : IndexError}
    (hk : t.known = none) (hb : Bytes.IsBase base) (hm : Met base (T.beginning base) children)
    (hl : L base (T.beginning base) t.children s (children, s₁, .error e)) :
    M base t s (node t.name none children, s₁, .error e)
  /-- The listing is refused. -/
  refused {base : Bytes} {t : CacheTree} {s s₁ s₂ : σ} {children : List CacheTree}
    {items : List TreeItem} {n : Nat} {e : StoreError} (hk : t.known = none)
    (hb : Bytes.IsBase base) (hm : Met base (T.beginning base) children)
    (hl : L base (T.beginning base) t.children s (children, s₁, .ok (items, n)))
    (hi : ObjectDatabase.insertTree (Tree.ofList items) s₁ = (.error e, s₂)) :
    M base t s (node t.name none (sortByName children), s₂, .error (.store e))
  /-- The listing is stored. -/
  stored {base : Bytes} {t : CacheTree} {s s₁ s₂ : σ} {children : List CacheTree}
    {items : List TreeItem} {n : Nat} {id : ObjectId} (hk : t.known = none)
    (hb : Bytes.IsBase base) (hm : Met base (T.beginning base) children)
    (hl : L base (T.beginning base) t.children s (children, s₁, .ok (items, n)))
    (hn : n = (T.beginning base).length)
    (hi : ObjectDatabase.insertTree (Tree.ofList items) s₁ = (.ok id, s₂)) :
    M base t s (node t.name (some ⟨n, id⟩) (sortByName children), s₂, .ok ⟨n, id⟩)
  /-- Nothing is left. -/
  done {base : Bytes} {previous : List CacheTree} {s : σ} : L base [] previous s ([], s, .ok ([], 0))
  /-- The next entry is in conflict. -/
  conflict {base : Bytes} {e : Entry} {left : List Entry} {previous : List CacheTree} {s : σ}
    (ha : T.Ahead base (e :: left)) (hm : e.stage ≠ .merged) :
    L base (e :: left) previous s ([], s, .error (.unresolvedConflict [e.path]))
  /-- The next entry is a file of the directory. -/
  file {base name : Bytes} {e : Entry} {left : List Entry} {previous children : List CacheTree}
    {s s₁ : σ} {r : Except IndexError (List TreeItem × Nat)} (ha : T.Ahead base (e :: left))
    (hp : e.path = base ++ name) (hn : Bytes.slash ∉ name) (hm : e.stage = .merged)
    (hl : L base left previous s (children, s₁, r)) :
    L base (e :: left) previous s
      (children, s₁, r.map fun (items, n) => (fileItem name e ++ items, n + 1))
  /-- The next subdirectory cannot be materialized. -/
  unfinished {base name : Bytes} {inside left : List Entry} {previous : List CacheTree} {s s₁ : σ}
    {child : CacheTree} {e : IndexError} (ha : T.Entered base name inside left)
    (hc : M (Bytes.below base name) (takeChild previous name).1 s (child, s₁, .error e)) :
    L base (inside ++ left) previous s ([], s₁, .error e)
  /-- The next subdirectory is materialized. -/
  subtree {base name : Bytes} {inside left : List Entry} {previous children : List CacheTree}
    {s s₁ s₂ : σ} {child : CacheTree} {k : Known} {r : Except IndexError (List TreeItem × Nat)}
    (ha : T.Entered base name inside left) (hname : child.name = name)
    (hc : M (Bytes.below base name) (takeChild previous name).1 s (child, s₁, .ok k))
    (hk : k.count = inside.length)
    (hl : L base left (takeChild previous name).2 s₁ (children, s₂, r)) :
    L base (inside ++ left) previous s
      (child :: children, s₂, r.map fun (items, n) => (subtreeItem name k ++ items, k.count + n))

variable {M : Bytes → CacheTree → σ → CacheTree × σ × Except IndexError Known → Prop}
  {L : Bytes → List Entry → List CacheTree → σ →
    List CacheTree × σ × Except IndexError (List TreeItem × Nat) → Prop}

/-- What each step keeps, materializing and listing keep, wherever in the table they start; and the
nodes that listing gives were met, and what is counted is the number of entries. By induction on the
calls that materializing and listing make of each other. -/
theorem StepsKeep.keeps (h : StepsKeep T M L) (hs : T.IsSorted) :
    (∀ (t : CacheTree) (entries : List Entry) (base : Bytes) (s : σ),
      ∀ pre, Table.StartsAt T pre entries base → Bytes.IsBase base →
        M base t s (materialize t entries base s) ∧
          ∀ k, (materialize t entries base s).2.2 = .ok k →
            k.count = (T.beginning base).length) ∧
    ∀ (previous : List CacheTree) (entries : List Entry) (base : Bytes) (s : σ),
      ∀ pre, Table.Apart T pre entries base → Bytes.IsBase base →
        L base (entries.takeWhile fun o => o.path.beginsWith base) previous s
            (list previous entries base s) ∧
          Met base (entries.takeWhile fun o => o.path.beginsWith base)
            (list previous entries base s).1 ∧
          ∀ x, (list previous entries base s).2.2 = .ok x →
            x.2 = (entries.takeWhile fun o => o.path.beginsWith base).length := by
  apply materialize.mutual_induct_unfolding
    (fun t entries base s r => ∀ pre, Table.StartsAt T pre entries base → Bytes.IsBase base →
      M base t s r ∧ ∀ k, r.2.2 = .ok k → k.count = (T.beginning base).length)
    (fun previous entries base s r => ∀ pre, Table.Apart T pre entries base → Bytes.IsBase base →
      L base (entries.takeWhile fun o => o.path.beginsWith base) previous s r ∧
        Met base (entries.takeWhile fun o => o.path.beginsWith base) r.1 ∧
        ∀ x, r.2.2 = .ok x →
          x.2 = (entries.takeWhile fun o => o.path.beginsWith base).length)
  case case1 =>
    -- The directory is known: its count is accepted if it is right.
    intro t entries base s k hk pre hstart hbase
    by_cases hn : k.count = (T.beginning base).length
    · rw [if_pos (hstart.covers_iff.2 hn)]
      refine ⟨h.known hk hn, fun k' hk' => ?_⟩
      rw [← Except.ok.inj hk', hn]
    · rw [if_neg fun hc => hn (hstart.covers_iff.1 hc)]
      exact ⟨h.stale hk hn, by simp⟩
  case case2 =>
    -- Something below it fails.
    intro t entries base s hk children s₁ e hlist ih pre hstart hbase
    rw [hlist] at ih
    obtain ⟨hl, hmet, -⟩ := ih pre hstart.apart hbase
    rw [hstart.takeWhile_eq] at hl hmet
    exact ⟨h.unlisted hk hbase hmet hl, by simp⟩
  case case3 =>
    -- The database refuses the listing.
    intro t entries base s hk children s₁ items n hlist e s₂ hins ih pre hstart hbase
    rw [hlist] at ih
    obtain ⟨hl, hmet, -⟩ := ih pre hstart.apart hbase
    rw [hstart.takeWhile_eq] at hl hmet
    exact ⟨h.refused hk hbase hmet hl hins, by simp⟩
  case case4 =>
    -- The listing is stored.
    intro t entries base s hk children s₁ items n hlist id s₂ hins ih pre hstart hbase
    rw [hlist] at ih
    obtain ⟨hl, hmet, hcount⟩ := ih pre hstart.apart hbase
    rw [hstart.takeWhile_eq] at hl hmet hcount
    have hn : n = (T.beginning base).length := hcount _ rfl
    refine ⟨h.stored hk hbase hmet hl hn hins, fun k hk' => ?_⟩
    rw [← Except.ok.inj hk', hn]
  case case5 =>
    -- There are no entries left.
    intro previous base s pre hapart hbase
    refine ⟨h.done, met_nil _ _, fun x hx => ?_⟩
    cases hx
    rfl
  case case6 =>
    -- The next entry is not below the directory.
    intro previous base s e es hp pre hapart hbase
    have hb : ¬ e.path.beginsWith base = true := by
      rw [Bytes.beginsWith_iff]
      rintro ⟨r, hr⟩
      rw [Bytes.afterPrefix?_eq_some_iff.2 hr.symm] at hp
      cases hp
    rw [List.takeWhile_cons_of_neg (p := fun o : Entry => o.path.beginsWith base) hb]
    refine ⟨h.done, met_nil _ _, fun x hx => ?_⟩
    cases hx
    rfl
  case case7 =>
    -- The next path is in conflict.
    intro previous base s e es below hp hm pre hapart hbase
    have hb : e.path.beginsWith base = true := by
      rw [Bytes.afterPrefix?_eq_some_iff.1 hp]
      simp
    have hahead := Table.ahead_takeWhile hs hapart.eq_append hbase
    rw [List.takeWhile_cons_of_pos (p := fun o : Entry => o.path.beginsWith base) hb] at hahead ⊢
    exact ⟨h.conflict hahead hm, met_nil _ _, by simp⟩
  case case8 =>
    -- The next entry is a file of the directory.
    intro previous base s e es rest hp hm hsplit children s₁ r hlist ih pre hapart hbase
    have hrest := Bytes.splitAt?_eq_none_iff.1 hsplit
    have hpath := Bytes.afterPrefix?_eq_some_iff.1 hp
    have hb : e.path.beginsWith base = true := by
      rw [hpath]
      simp
    have hahead := Table.ahead_takeWhile hs hapart.eq_append hbase
    rw [hlist] at ih
    obtain ⟨hl, hmet, hcount⟩ := ih _ (hapart.tail_of_file hp hrest) hbase
    rw [List.takeWhile_cons_of_pos (p := fun o : Entry => o.path.beginsWith base) hb] at hahead ⊢
    refine ⟨h.file hahead hpath hrest (not_not.1 hm) hl, hmet.file e, fun x hx => ?_⟩
    obtain ⟨y, rfl, rfl⟩ := Check.map_eq_ok.1 hx
    exact congrArg (· + 1) (hcount y rfl)
  case case9 =>
    -- The next subdirectory fails.
    intro previous base s e es below hp hm name rest hsplit c s₁ err hchild ih pre hapart hbase
    obtain ⟨rfl, hn⟩ := Bytes.eq_append_of_splitAt? hsplit
    obtain ⟨hcut, hentered⟩ := hapart.entered hs hp hn hbase
    rw [hchild] at ih
    obtain ⟨hc, -⟩ := ih pre (hapart.startsAt hs hp hn) (Bytes.isBase_below base name)
    rw [hcut]
    exact ⟨h.unfinished hentered hc, met_nil _ _, by simp⟩
  case case10 =>
    -- The next subdirectory is done, and its entries are skipped.
    intro previous base s e es below hp hm name rest hsplit child s₁ k hchild children s₂ r hlist
      ih₁ ih₂ pre hapart hbase
    obtain ⟨rfl, hn⟩ := Bytes.eq_append_of_splitAt? hsplit
    have hstart := hapart.startsAt hs hp hn
    obtain ⟨hcut, hentered⟩ := hapart.entered hs hp hn hbase
    have hname : child.name = name := by
      have := name_materialize (takeChild previous name).1 (e :: es)
        (base ++ name ++ [Bytes.slash]) s
      rw [hchild] at this
      exact this.trans (takeChild_fst previous name).1
    rw [hchild] at ih₁
    obtain ⟨hc, hcount⟩ := ih₁ pre hstart (Bytes.isBase_below base name)
    have hk : k.count = (T.beginning (Bytes.below base name)).length := hcount k rfl
    have hskip : es.drop (k.count - 1) =
        es.dropWhile fun o => o.path.beginsWith (Bytes.below base name) := by
      rw [hk, ← hstart.takeWhile_eq]
      exact Table.drop_eq_dropWhile hp
    rw [hlist, hskip] at ih₂
    obtain ⟨hl, hmet, hleft⟩ := ih₂ _ (hapart.tail_of_subtree hs hp hn) hbase
    rw [hcut]
    refine ⟨h.subtree hentered hname hc hk hl, hmet.subtree hentered hname, fun x hx => ?_⟩
    obtain ⟨y, rfl, rfl⟩ := Check.map_eq_ok.1 hx
    rw [List.length_append, ← hk, ← hleft y rfl]

/-- What each step keeps, materializing a whole table keeps, and it counts all entries. -/
theorem StepsKeep.materialize (h : StepsKeep T M L) (hs : T.IsSorted) (t : CacheTree) (s : σ) :
    M [] t s (t.materialize T [] s) ∧
      ∀ k, (t.materialize T [] s).2.2 = .ok k → k.count = T.length := by
  have := (h.keeps hs).1 t T [] s [] (Table.startsAt_nil T) (Or.inl rfl)
  rwa [Table.beginning_nil] at this

end CacheTree

end StagingIndex
