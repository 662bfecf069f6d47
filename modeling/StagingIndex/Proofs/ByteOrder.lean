import Mathlib
import StagingIndex.Entry

/-! # The order of byte strings

Paths are compared byte by byte, and a beginning comes before its extensions. What makes a directory
one run of the table is that the strings with a given beginning have nothing else between them.

* `pairwise_mergeSort_compare`, `filter_mergeSort_compare` — what is sorted by a key
* `Bytes.beginsWith_of_between` — what lies between two extensions of a string extends it too
* `Bytes.compare_of_isPrefix` — a beginning is never after its extensions
* `EntryKey.compare_eq_lt_iff` — keys are compared by path, then by stage -/

namespace StagingIndex

/-! ## Orders -/

section

variable {α β : Type} [Ord β]

/-- What is not after another thing and not the same comes before it. -/
theorem compare_eq_lt_of_ne [Std.LawfulEqOrd β] {a b : β} (h : (compare a b).isLE = true)
    (hne : a ≠ b) : compare a b = .lt := by
  cases hc : compare a b with
  | lt => rfl
  | eq => exact absurd (Std.LawfulEqOrd.eq_of_compare hc) hne
  | gt => simp [hc] at h

/-- By a key, what is not after a thing is not after what comes later. -/
theorem isLE_trans_key [Std.TransOrd β] (f : α → β) (a b c : α)
    (hab : (compare (f a) (f b)).isLE = true) (hbc : (compare (f b) (f c)).isLE = true) :
    (compare (f a) (f c)).isLE = true :=
  Std.TransCmp.isLE_trans hab hbc

/-- By a key, of two things one is not after the other. -/
theorem isLE_total_key [Std.TransOrd β] (f : α → β) (a b : α) :
    ((compare (f a) (f b)).isLE || (compare (f b) (f a)).isLE) = true := by
  cases h : compare (f a) (f b) with
  | lt => rfl
  | eq => rfl
  | gt => simp [Std.OrientedCmp.gt_iff_lt.1 h]

/-- What is sorted by a key never goes back. -/
theorem pairwise_mergeSort_compare [Std.TransOrd β] (f : α → β) (xs : List α) :
    (xs.mergeSort fun a b => (compare (f a) (f b)).isLE).Pairwise
      fun a b => (compare (f a) (f b)).isLE = true :=
  List.pairwise_mergeSort (isLE_trans_key f) (isLE_total_key f) xs

/-- What is strictly increasing by a key is given by its elements. -/
theorem eq_of_pairwise_compare_lt [Std.TransOrd β] (f : α → β) {xs ys : List α}
    (hx : xs.Pairwise fun a b => compare (f a) (f b) = .lt)
    (hy : ys.Pairwise fun a b => compare (f a) (f b) = .lt) (h : ∀ a, a ∈ xs ↔ a ∈ ys) : xs = ys := by
  have hne : ∀ {a b : α}, compare (f a) (f b) = .lt → a ≠ b := by
    rintro a _ hlt rfl
    simp at hlt
  have hperm : xs.Perm ys := (List.perm_ext_iff_of_nodup (hx.imp hne) (hy.imp hne)).2 h
  refine hperm.eq_of_pairwise ?_ hx hy
  intro a b _ _ hab hba
  simp [Std.OrientedCmp.gt_iff_lt.2 hba] at hab

/-- What is sorted by a key keeps the order of elements that were in order already. -/
theorem filter_mergeSort_compare [Std.TransOrd β] (f : α → β) {p : α → Bool} {xs : List α}
    (h : (xs.filter p).Pairwise fun a b => (compare (f a) (f b)).isLE = true) :
    (xs.mergeSort fun a b => (compare (f a) (f b)).isLE).filter p = xs.filter p := by
  have hsub : (xs.filter p).Sublist (xs.mergeSort fun a b => (compare (f a) (f b)).isLE) :=
    List.sublist_mergeSort (isLE_trans_key f) (isLE_total_key f) h List.filter_sublist
  have hsub := hsub.filter p
  rw [List.filter_filter] at hsub
  simp only [Bool.and_self] at hsub
  exact (hsub.eq_of_length ((List.mergeSort_perm xs _).filter p).length_eq.symm).symm

end

namespace Bytes

/-! ## Beginnings -/

/-- `beginsWith` decides the prefix relation. -/
@[simp] theorem beginsWith_iff {s p : Bytes} : s.beginsWith p = true ↔ p <+: s := by
  simp [beginsWith]

/-- Every string begins with the empty one. -/
@[simp] theorem beginsWith_nil (s : Bytes) : s.beginsWith [] = true := by
  simp

/-- What begins with an extension of `p` begins with `p`. -/
theorem beginsWith_of_append {s p q : Bytes} (h : s.beginsWith (p ++ q) = true) :
    s.beginsWith p = true := by
  rw [beginsWith_iff] at h ⊢
  exact (List.prefix_append p q).trans h

/-- A common beginning does not matter for the order. -/
@[simp] theorem compare_append_left (p a b : Bytes) : compare (p ++ a) (p ++ b) = compare a b := by
  induction p with
  | nil => rfl
  | cons c p ih =>
    simp only [List.cons_append, List.compare_cons_cons, ih, Std.ReflOrd.compare_self]
    rfl

/-- A beginning is never after its extensions. -/
theorem compare_of_isPrefix {p s : Bytes} (h : p <+: s) : (compare p s).isLE = true := by
  obtain ⟨r, rfl⟩ := h
  have := compare_append_left p [] r
  rw [List.append_nil] at this
  rw [this]
  exact List.isLE_compare_nil_left

/-- What lies between two extensions of `p` is an extension of `p` itself. -/
theorem isPrefix_of_between {p a b c : Bytes} (ha : p <+: a) (hc : p <+: c)
    (hab : (compare a b).isLE = true) (hbc : (compare b c).isLE = true) : p <+: b := by
  obtain ⟨a, rfl⟩ := ha
  obtain ⟨c, rfl⟩ := hc
  induction p generalizing b with
  | nil => simp
  | cons x p ih =>
    cases b with
    | nil => simp at hab
    | cons y b =>
      simp only [List.cons_append, List.compare_cons_cons] at hab hbc
      -- The first bytes are squeezed between `x` and `x`.
      have hxy : (compare x y).isLE = true := by
        cases h : compare x y <;> simp_all
      have hyx : (compare y x).isLE = true := by
        cases h : compare y x <;> simp_all
      obtain rfl : x = y :=
        Std.LawfulEqOrd.eq_of_compare (Std.OrientedCmp.isLE_antisymm hxy hyx)
      simp only [Std.ReflOrd.compare_self] at hab hbc
      simpa using ih hab hbc

/-- The same with the test that programs make. -/
theorem beginsWith_of_between {p a b c : Bytes} (ha : a.beginsWith p = true)
    (hc : c.beginsWith p = true) (hab : (compare a b).isLE = true)
    (hbc : (compare b c).isLE = true) : b.beginsWith p = true := by
  rw [beginsWith_iff] at *
  exact isPrefix_of_between ha hc hab hbc

/-- What begins with `p` is not before `p`. -/
theorem compare_ne_lt_of_beginsWith {s p : Bytes} (h : s.beginsWith p = true) :
    compare s p ≠ .lt := by
  have := compare_of_isPrefix (beginsWith_iff.1 h)
  intro hlt
  rw [Std.OrientedCmp.gt_iff_lt.2 hlt] at this
  cases this

/-- The directories of a path are the strings that it continues with a slash. -/
theorem mem_ancestors_iff {p d : Bytes} :
    d ∈ p.ancestors ↔ p.beginsWith (d ++ [slash]) = true := by
  rw [beginsWith_iff]
  induction p generalizing d with
  | nil => simp [ancestors]
  | cons b p ih =>
    cases d with
    | nil =>
      by_cases hb : b = slash
      · simp [ancestors, hb]
      · simp [ancestors, hb, Ne.symm hb]
    | cons c d =>
      by_cases hb : b = slash
      · simp [ancestors, hb, ih, List.cons_prefix_cons, and_comm, eq_comm]
      · simp [ancestors, hb, ih, List.cons_prefix_cons, and_comm, eq_comm]

/-! ## Names below a directory -/

/-- The beginning that the paths below a subdirectory have. -/
def below (base name : Bytes) : Bytes := base ++ name ++ [slash]

/-- The paths below a subdirectory are below the directory. -/
theorem beginsWith_of_below {s base name : Bytes} (h : s.beginsWith (below base name) = true) :
    s.beginsWith base = true := by
  rw [below, List.append_assoc] at h
  exact beginsWith_of_append h

/-- What is below a subdirectory goes on with its name and a slash. -/
theorem beginsWith_below_iff {s base name : Bytes} :
    s.beginsWith (below base name) = true ↔ ∃ rest, s = base ++ (name ++ slash :: rest) := by
  rw [beginsWith_iff]
  constructor
  · rintro ⟨rest, rfl⟩
    exact ⟨rest, by simp [below]⟩
  · rintro ⟨rest, rfl⟩
    exact ⟨rest, by simp [below]⟩

/-- Two strings that are delimited by a byte are the same if the parts before it and those after it
are. -/
theorem append_cons_inj {b : UInt8} {p q r s : Bytes} (hp : b ∉ p) (hq : b ∉ q) :
    p ++ b :: r = q ++ b :: s ↔ p = q ∧ r = s := by
  constructor
  · intro h
    have hsplit := splitAt?_append hp r
    rw [h, splitAt?_append hq s] at hsplit
    cases hsplit
    exact ⟨rfl, rfl⟩
  · rintro ⟨rfl, rfl⟩
    rfl

/-- A string is below one subdirectory only. -/
theorem name_eq_of_below {s base m n : Bytes} (hm : slash ∉ m) (hn : slash ∉ n)
    (hsm : s.beginsWith (below base m) = true) (hsn : s.beginsWith (below base n) = true) :
    m = n := by
  rw [beginsWith_iff] at hsm hsn
  obtain ⟨r, hr⟩ := hsm
  obtain ⟨t, ht⟩ := hsn
  have h : m ++ slash :: r = n ++ slash :: t := by
    refine List.append_cancel_left (?_ : base ++ (m ++ slash :: r) = base ++ (n ++ slash :: t))
    simpa [below] using hr.trans ht.symm
  exact ((append_cons_inj hm hn).1 h).1

/-- The beginning that the paths below a directory have, where names lead to the directory. -/
def baseOf (base : Bytes) (names : List Bytes) : Bytes := names.foldl below base

/-- The beginning for a directory begins with the one for a directory above it. -/
theorem isPrefix_baseOf (base : Bytes) (names : List Bytes) : base <+: baseOf base names := by
  induction names generalizing base with
  | nil => exact List.prefix_rfl
  | cons name names ih =>
    refine List.IsPrefix.trans ?_ (ih (below base name))
    exact ⟨name ++ [slash], by simp [below]⟩

/-- What is below the directory that some names lead to is below the first of them. -/
theorem beginsWith_below_of_baseOf {s base name : Bytes} {names : List Bytes}
    (h : s.beginsWith (baseOf base (name :: names)) = true) : s.beginsWith (below base name) = true := by
  rw [beginsWith_iff] at h ⊢
  exact (isPrefix_baseOf (below base name) names).trans h

/-- A string without parent has no slash. -/
theorem parent?_eq_none_iff {s : Bytes} : s.parent? = none ↔ slash ∉ s := by
  induction s with
  | nil => simp [parent?]
  | cons b s ih =>
    rw [parent?]
    cases h : parent? s with
    | none =>
      by_cases hb : b = slash
      · simp [hb]
      · simp [hb, Ne.symm hb, ih.1 h]
    | some p =>
      have : slash ∈ s := by
        by_contra hs
        simp [ih.2 hs] at h
      simp [this]

/-- A string is its parent, a slash, and what has no slash. -/
theorem eq_append_of_parent? {s dir : Bytes} (h : s.parent? = some dir) :
    ∃ last, s = dir ++ slash :: last ∧ slash ∉ last := by
  induction s generalizing dir with
  | nil => simp [parent?] at h
  | cons b s ih =>
    rw [parent?] at h
    split at h
    · rename_i p hp
      cases h
      obtain ⟨last, rfl, hlast⟩ := ih hp
      exact ⟨last, rfl, hlast⟩
    · rename_i hnone
      split at h
      · rename_i hb
        cases h
        exact ⟨s, by rw [hb]; rfl, parent?_eq_none_iff.1 hnone⟩
      · cases h

/-- Parts between slashes have no slash. -/
theorem slash_notMem_of_components {s c : Bytes} (h : c ∈ s.components) : slash ∉ c := by
  induction s generalizing c with
  | nil =>
    rw [components, List.mem_singleton] at h
    simp [h]
  | cons b s ih =>
    rw [components] at h
    split at h
    · rcases List.mem_cons.1 h with rfl | h
      · simp
      · exact ih h
    · rename_i hb
      have hbs : slash ≠ b := Ne.symm hb
      split at h
      · rw [List.mem_singleton] at h
        simp [h, hbs]
      · rename_i d ds hd
        rcases List.mem_cons.1 h with rfl | h
        · simp [hbs, ih (hd ▸ List.mem_cons_self)]
        · exact ih (hd ▸ List.mem_cons_of_mem _ h)

/-- There is always a part between slashes. -/
theorem components_ne_nil (s : Bytes) : s.components ≠ [] := by
  cases s with
  | nil => simp [components]
  | cons b s =>
    rw [components]
    split
    · simp
    · split <;> simp

/-- The parts of a directory lead to it. -/
theorem baseOf_components (base s : Bytes) : baseOf base s.components = base ++ s ++ [slash] := by
  induction s generalizing base with
  | nil => simp [components, baseOf, below]
  | cons b s ih =>
    rw [components]
    split
    · rename_i hb
      have := ih (below base [])
      simpa [baseOf, below, hb] using this
    · split
      · rename_i hnil
        exact absurd hnil (components_ne_nil s)
      · rename_i d ds hd
        -- The first part is one byte longer than that of the rest.
        have := ih (base ++ [b])
        rw [hd] at this
        simpa [baseOf, below] using this

/-- A slash parts the components before it from those after it. -/
theorem components_append_slash (a b : Bytes) :
    components (a ++ slash :: b) = components a ++ components b := by
  induction a with
  | nil => simp [components]
  | cons x a ih =>
    by_cases hx : x = slash
    · simp [components, hx, ih]
    · simp only [List.cons_append, components, hx, if_false, ih]
      cases h : components a with
      | nil => exact absurd h (components_ne_nil a)
      | cons c cs => rfl

/-- A string without slash is one component. -/
theorem components_of_notMem {s : Bytes} (h : slash ∉ s) : components s = [s] := by
  induction s with
  | nil => rfl
  | cons b s ih =>
    simp only [List.mem_cons, not_or] at h
    simp [components, Ne.symm h.1, ih h.2]

/-- Names that lead on lead on from the base that the first ones lead to. -/
theorem baseOf_append (base : Bytes) (ps qs : List Bytes) :
    baseOf base (ps ++ qs) = baseOf (baseOf base ps) qs :=
  List.foldl_append

/-- The last name adds itself and a slash. -/
theorem baseOf_append_singleton (base : Bytes) (ns : List Bytes) (n : Bytes) :
    baseOf base (ns ++ [n]) = baseOf base ns ++ n ++ [slash] := by
  rw [baseOf_append]
  rfl

/-- What names lead to has them as its first components. -/
theorem components_baseOf {ns : List Bytes} (hn : ∀ n ∈ ns, slash ∉ n) (s : Bytes) :
    components (baseOf [] ns ++ s) = ns ++ components s := by
  induction ns using List.reverseRecOn generalizing s with
  | nil => rfl
  | append_singleton ns n ih =>
    have hlast : baseOf [] (ns ++ [n]) ++ s = baseOf [] ns ++ (n ++ slash :: s) := by
      simp [baseOf_append_singleton]
    rw [hlast, ih fun x hx => hn x (List.mem_append_left _ hx), components_append_slash,
      components_of_notMem (hn n (by simp)), List.append_assoc]

/-- What the paths of a directory begin with: nothing, or what ends in a slash. -/
def IsBase (base : Bytes) : Prop := base = [] ∨ ∃ dir, base = dir ++ [slash]

/-- The beginning for a subdirectory ends in a slash. -/
theorem isBase_below (base name : Bytes) : IsBase (below base name) := Or.inr ⟨base ++ name, rfl⟩

/-- What stands between the base of a directory and the next slash is a component. -/
theorem mem_components {base name rest : Bytes} (hb : IsBase base) (hn : slash ∉ name) :
    name ∈ components (base ++ (name ++ slash :: rest)) := by
  rcases hb with rfl | ⟨dir, rfl⟩
  · rw [List.nil_append, components_append_slash, components_of_notMem hn]
    simp
  · rw [List.append_assoc, List.singleton_append, components_append_slash,
      components_append_slash, components_of_notMem hn]
    simp

/-- What follows the base of a directory, up to the end, is a component. -/
theorem mem_components_last {base name : Bytes} (hb : IsBase base) (hn : slash ∉ name) :
    name ∈ components (base ++ name) := by
  rcases hb with rfl | ⟨dir, rfl⟩
  · rw [List.nil_append, components_of_notMem hn]
    exact List.mem_singleton.2 rfl
  · rw [List.append_assoc, List.singleton_append, components_append_slash, components_of_notMem hn]
    simp

end Bytes

/-! ## Keys -/

namespace Stage

instance : Std.TransOrd Stage :=
  inferInstanceAs (Std.TransCmp (compareOn Stage.toNat))

instance : Std.LawfulEqOrd Stage where
  compare_self := by intro a; cases a <;> rfl
  eq_of_compare := by intro a b; cases a <;> cases b <;> decide

/-- The merged stage is the lowest. -/
theorem compare_merged (s : Stage) : (compare Stage.merged s).isLE = true := by
  cases s <;> rfl

end Stage

namespace EntryKey

instance : Std.TransOrd EntryKey :=
  inferInstanceAs (Std.TransCmp (compareLex (compareOn EntryKey.path) (compareOn EntryKey.stage)))

instance : Std.LawfulEqOrd EntryKey where
  compare_self := by
    intro a
    exact (Std.ReflCmp.compare_self :
      compareLex (compareOn EntryKey.path) (compareOn EntryKey.stage) a a = .eq)
  eq_of_compare := by
    rintro ⟨p, s⟩ ⟨q, t⟩ h
    obtain ⟨hp, hs⟩ := compareLex_eq_eq.1 h
    have hp : p = q := Std.LawfulEqOrd.eq_of_compare hp
    have hs : s = t := Std.LawfulEqOrd.eq_of_compare hs
    rw [hp, hs]

/-- Keys are compared by path, and by stage where the paths are the same. -/
theorem compare_eq (a b : EntryKey) :
    compare a b = (compare a.path b.path).then (compare a.stage b.stage) := rfl

/-- A key is before another if its path is, or if the paths are the same and its stage is. -/
theorem compare_eq_lt_iff {a b : EntryKey} :
    compare a b = .lt ↔
      compare a.path b.path = .lt ∨ a.path = b.path ∧ compare a.stage b.stage = .lt := by
  rw [compare_eq]
  cases h : compare a.path b.path with
  | lt => simp
  | gt =>
    have : a.path ≠ b.path := by
      intro e
      simp [e] at h
    simp [this]
  | eq => simp [Std.LawfulEqOrd.eq_of_compare h]

/-- In the order of keys the paths never go back. -/
theorem compare_path_of_lt {a b : EntryKey} (h : compare a b = .lt) :
    (compare a.path b.path).isLE = true := by
  rcases compare_eq_lt_iff.1 h with h | ⟨h, -⟩
  · simp [h]
  · simp [h]

end EntryKey

end StagingIndex
