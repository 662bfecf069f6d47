import Mathlib
import StagingIndex.Proofs.Listing

/-! # Going on after a subdirectory

Whoever lists a directory skips as many entries as a subdirectory is said to have. That number may
come out of a cache tree that can hold anything, but it has passed a test: it is never more than
there are entries left, and never zero, as the first entry left is below the subdirectory. So every
call ends, with whatever entries and nodes it is begun, and the root covers all entries there are.

* `CacheTree.Advances` — what holds of every number of entries that is skipped
* `CacheTree.advances` — it does, wherever materializing and listing start
* `CacheTree.count_pos` — at an entry below its directory a node does not count none
* `CacheTree.update_eq_map` — the root covers all entries -/

namespace StagingIndex

/-- A path of which nothing is left after a directory is not below it. -/
theorem Bytes.beginsWith_eq_false {p base : Bytes} (h : p.afterPrefix? base = none) :
    p.beginsWith base = false := by
  rw [← Bool.not_eq_true, beginsWith_iff]
  rintro ⟨r, hr⟩
  rw [afterPrefix?_eq_some_iff.2 hr.symm] at h
  cases h

namespace CacheTree

/-- What holds of every number of entries that is skipped: there are as many, at least one if the
first is below the directory, and all of them if the directory is the root. -/
structure Advances (entries : List Entry) (base : Bytes) (n : Nat) : Prop where
  le_length : n ≤ entries.length
  pos : ∀ e ∈ entries.head?, e.path.beginsWith base = true → 0 < n
  eq_length : base = [] → n = entries.length

section
variable {e : Entry} {es entries : List Entry} {base name : Bytes} {m n : Nat}

/-- A count that is accepted advances. -/
theorem advances_of_covers (h : covers n entries base = true) : Advances entries base n := by
  simp only [covers, Bool.and_eq_true, decide_eq_true_eq] at h
  obtain ⟨⟨hle, -⟩, hnext⟩ := h
  refine ⟨hle, fun e he hb => ?_, ?_⟩
  · rw [Nat.pos_iff_ne_zero]
    rintro rfl
    rw [List.head?_eq_getElem?] at he
    simp [Option.mem_def.1 he, hb] at hnext
  · rintro rfl
    by_contra hne
    have hlt : n < entries.length := Nat.lt_of_le_of_ne hle hne
    simp [List.getElem?_eq_getElem hlt] at hnext

/-- Nothing is skipped where nothing is left. -/
theorem advances_nil (base : Bytes) : Advances [] base 0 :=
  ⟨Nat.le_refl 0, by simp, fun _ => rfl⟩

/-- Nothing is skipped where the first entry is not below the directory. -/
theorem advances_zero (hp : e.path.afterPrefix? base = none) : Advances (e :: es) base 0 := by
  have hb := Bytes.beginsWith_eq_false hp
  refine ⟨Nat.zero_le _, fun o ho hbo => ?_, ?_⟩
  · cases ho
    simp [hb] at hbo
  · rintro rfl
    simp at hb

/-- A file is skipped, and then what is skipped after it. -/
theorem Advances.file (h : Advances es base n) : Advances (e :: es) base (n + 1) where
  le_length := Nat.succ_le_succ h.le_length
  pos _ _ _ := Nat.succ_pos n
  eq_length hb := congrArg (· + 1) (h.eq_length hb)

/-- A subdirectory is skipped, and then what is skipped after it. -/
theorem Advances.subtree (hm : 0 < m) (hle : m ≤ (e :: es).length)
    (h : Advances (es.drop (m - 1)) base n) : Advances (e :: es) base (m + n) where
  le_length := by
    have := h.le_length
    rw [List.length_drop] at this
    rw [List.length_cons] at hle ⊢
    omega
  pos _ _ _ := Nat.add_pos_left hm n
  eq_length hb := by
    rw [h.eq_length hb, List.length_drop]
    rw [List.length_cons] at hle ⊢
    omega

/-- The entries after those of a subdirectory, of which there is at least one. -/
theorem drop_sub_one (hm : 0 < m) : es.drop (m - 1) = (e :: es).drop m := by
  obtain ⟨m, rfl⟩ := Nat.exists_eq_succ_of_ne_zero (Nat.ne_of_gt hm)
  rfl

end

section
variable {σ : Type} [ObjectDatabase σ]

/-- Wherever materializing and listing start, what they count advances. By induction on the calls
that they make of each other. -/
theorem advances :
    (∀ (t : CacheTree) (entries : List Entry) (base : Bytes) (s : σ),
      ∀ k, (materialize t entries base s).2.2 = .ok k → Advances entries base k.count) ∧
    ∀ (previous : List CacheTree) (entries : List Entry) (base : Bytes) (s : σ),
      ∀ x, (list previous entries base s).2.2 = .ok x → Advances entries base x.2 := by
  apply materialize.mutual_induct_unfolding
    (fun _ entries base _ r => ∀ k, r.2.2 = .ok k → Advances entries base k.count)
    (fun _ entries base _ r => ∀ x, r.2.2 = .ok x → Advances entries base x.2)
  case case1 =>
    -- The directory is known: its count has to be accepted.
    intro t entries base s k hk k' hk'
    split at hk'
    · rename_i hcovers
      cases hk'
      exact advances_of_covers hcovers
    · cases hk'
  case case2 =>
    intro t entries base s hk children s₁ e hlist ih k hk'
    cases hk'
  case case3 =>
    intro t entries base s hk children s₁ items n hlist e s₂ hins ih k hk'
    cases hk'
  case case4 =>
    -- What was listed is what the node covers.
    intro t entries base s hk children s₁ items n hlist id s₂ hins ih k hk'
    rw [hlist] at ih
    cases hk'
    exact ih _ rfl
  case case5 =>
    intro previous base s x hx
    cases hx
    exact advances_nil base
  case case6 =>
    intro previous base s e es hp x hx
    cases hx
    exact advances_zero hp
  case case7 =>
    intro previous base s e es below hp hm x hx
    cases hx
  case case8 =>
    -- The next entry is a file of the directory.
    intro previous base s e es rest hp hm hsplit children s₁ r hlist ih x hx
    rw [hlist] at ih
    obtain ⟨y, rfl, rfl⟩ := Check.map_eq_ok.1 hx
    exact (ih y rfl).file
  case case9 =>
    intro previous base s e es below hp hm name rest hsplit c s₁ err hchild ih x hx
    cases hx
  case case10 =>
    -- The next subdirectory is done: the first entry is below it, so it has at least that one.
    intro previous base s e es below hp hm name rest hsplit child s₁ k hchild children s₂ r hlist
      ih₁ ih₂ x hx
    obtain ⟨rfl, -⟩ := Bytes.eq_append_of_splitAt? hsplit
    rw [hchild] at ih₁
    rw [hlist] at ih₂
    obtain ⟨y, rfl, rfl⟩ := Check.map_eq_ok.1 hx
    have hk := ih₁ k rfl
    exact (ih₂ y rfl).subtree (hk.pos e rfl (Table.beginsWith_below hp)) hk.le_length

/-- Where materializing starts at an entry below the directory, its count is not zero. -/
theorem count_pos {t child : CacheTree} {e : Entry} {es : List Entry} {base : Bytes} {s s₁ : σ}
    {k : Known} (h : materialize t (e :: es) base s = (child, s₁, .ok k))
    (hb : e.path.beginsWith base = true) : 0 < k.count :=
  (advances.1 t (e :: es) base s k (congrArg (·.2.2) h)).pos e rfl hb

/-- The root always covers all entries, so what is known of it is what materializing the whole table
comes to. -/
theorem update_eq_map (t : CacheTree) (entries : List Entry) (s : σ) :
    t.update entries s = ((materialize t entries [] s).1, (materialize t entries [] s).2.1,
      (materialize t entries [] s).2.2.map Known.id) := by
  have hroot := advances.1 t entries [] s
  rw [update]
  match materialize t entries [] s, hroot with
  | (t', s', .error e), _ => rfl
  | (t', s', .ok k), hroot =>
    have hk : k.count = entries.length := (hroot k rfl).eq_length rfl
    simp only [Except.bind, rootId, if_pos hk, Except.map]

end

end CacheTree

end StagingIndex
