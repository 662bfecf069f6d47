import Mathlib
import StagingIndex.Proofs.Changes
import StagingIndex.CacheTree.Materialize

/-! # What a directory lists

What materializing should make of a directory is said without cache trees and databases: entries
that have no slash after the base of the directory are files, and others are listed by the first
name after it, all entries below one subdirectory as one item.

* `Table.listing` — the items of a directory
* `Table.exact` — the number of entries below a directory, and the tree that they make
* `Table.exact_congr` — entries with the same contents make the same tree -/

namespace StagingIndex

namespace Table

open CacheTree (Known fileItem subtreeItem firstLength length_le_firstLength)

/-- The items of the directory with a base, from the entries below it. -/
def listing (base : Bytes) (es : Table) : List TreeItem :=
  match es with
  | [] => []
  | e :: es =>
    match _hp : e.path.afterPrefix? base with
    | none => []
    | some rest =>
      match _hs : rest.splitAt? Bytes.slash with
      | none => fileItem rest e ++ listing base es
      | some (name, _) =>
        let inside := (e :: es).takeWhile fun o => o.path.beginsWith (Bytes.below base name)
        subtreeItem name ⟨inside.length,
            (Tree.ofList (listing (Bytes.below base name) inside)).id⟩ ++
          listing base (es.dropWhile fun o => o.path.beginsWith (Bytes.below base name))
termination_by (es.length, firstLength es - base.length)
decreasing_by
  · refine Prod.Lex.left _ _ ?_
    simp only [List.length_cons]
    omega
  · obtain ⟨h, -⟩ := Bytes.eq_append_of_splitAt? _hs
    have hb : e.path.beginsWith (Bytes.below base name) = true := by
      rw [Bytes.afterPrefix?_eq_some_iff.1 _hp, h]
      simp [Bytes.below]
    have hlen : (Bytes.below base name).length ≤ firstLength (e :: es) :=
      length_le_firstLength (h ▸ _hp)
    have hfirst : firstLength inside = firstLength (e :: es) := by
      simp [inside, hb, firstLength]
    have hle : inside.length ≤ (e :: es).length := (List.takeWhile_sublist _).length_le
    change Prod.Lex _ _ (inside.length, firstLength inside - (Bytes.below base name).length) _
    rw [hfirst]
    rcases hle.lt_or_eq with hlt | heq
    · exact Prod.Lex.left _ _ hlt
    · rw [heq]
      refine Prod.Lex.right _ ?_
      simp only [Bytes.below, List.length_append, List.length_cons, List.length_nil] at hlen ⊢
      omega
  · refine Prod.Lex.left _ _ ?_
    have := (List.dropWhile_sublist
      (fun o : Entry => o.path.beginsWith (Bytes.below base name)) (l := es)).length_le
    simp only [List.length_cons]
    omega

/-- How many entries there are below a directory, and the tree object they make. -/
def exact (base : Bytes) (es : Table) : Known := ⟨es.length, (Tree.ofList (listing base es)).id⟩

variable {t : Table} {base name rest : Bytes} {e : Entry} {es : List Entry}

/-- An entry with a slash after the base is below the subdirectory that it names. -/
theorem beginsWith_below (hp : e.path.afterPrefix? base = some (name ++ Bytes.slash :: rest)) :
    e.path.beginsWith (Bytes.below base name) = true := by
  rw [Bytes.afterPrefix?_eq_some_iff.1 hp]
  simp [Bytes.below]

@[simp] theorem listing_nil (base : Bytes) : listing base [] = [] := by
  rw [listing]

/-- A file is listed by what follows the base. -/
theorem listing_file (hp : e.path.afterPrefix? base = some rest)
    (hs : rest.splitAt? Bytes.slash = none) :
    listing base (e :: es) = fileItem rest e ++ listing base es := by
  rw [listing]
  split
  · simp_all
  · rename_i r hr
    obtain rfl : rest = r := by simp_all
    split
    · rfl
    · simp_all

/-- A subdirectory is listed by its name, with all entries below it. -/
theorem listing_subtree (hp : e.path.afterPrefix? base = some (name ++ Bytes.slash :: rest))
    (hn : Bytes.slash ∉ name) :
    listing base (e :: es) =
      subtreeItem name (exact (Bytes.below base name)
          ((e :: es).takeWhile fun o => o.path.beginsWith (Bytes.below base name))) ++
        listing base (es.dropWhile fun o => o.path.beginsWith (Bytes.below base name)) := by
  have hs := Bytes.splitAt?_append hn rest
  rw [listing]
  split
  · simp_all
  · rename_i r hr
    obtain rfl : name ++ Bytes.slash :: rest = r := by simp_all
    split
    · simp_all
    · rename_i n r hnr
      rw [hs] at hnr
      cases hnr
      rfl

/-- Entries with the same contents start with as many that have a beginning. -/
theorem SameContents.takeWhile {t u : Table} (h : SameContents t u) (base : Bytes) :
    SameContents (t.takeWhile fun o => o.path.beginsWith base)
      (u.takeWhile fun o => o.path.beginsWith base) := by
  have hp : (fun o : Entry => o.path.beginsWith base) =
      (fun c : EntryContent => c.path.beginsWith base) ∘ Entry.content := rfl
  rw [SameContents, hp, ← List.takeWhile_map, ← List.takeWhile_map, h]

/-- After those that have a beginning, entries with the same contents go on with the same. -/
theorem SameContents.dropWhile {t u : Table} (h : SameContents t u) (base : Bytes) :
    SameContents (t.dropWhile fun o => o.path.beginsWith base)
      (u.dropWhile fun o => o.path.beginsWith base) := by
  have hp : (fun o : Entry => o.path.beginsWith base) =
      (fun c : EntryContent => c.path.beginsWith base) ∘ Entry.content := rfl
  rw [SameContents, hp, ← List.dropWhile_map, ← List.dropWhile_map, h]

/-- Files with the same contents are listed the same. -/
theorem fileItem_congr {a b : Entry} (h : a.content = b.content) (name : Bytes) :
    fileItem name a = fileItem name b := by
  have hm : a.mode = b.mode := congrArg EntryContent.mode h
  have hi : a.id = b.id := congrArg EntryContent.id h
  have ha : a.flags.intentToAdd = b.flags.intentToAdd := congrArg EntryContent.intentToAdd h
  rw [fileItem, fileItem, hm, hi, ha]

/-- Entries with the same contents are listed the same. -/
theorem listing_congr {t u : Table} (h : SameContents t u) (base : Bytes) :
    listing base t = listing base u := by
  fun_induction listing base t generalizing u with
  | case1 base =>
    have : u = [] := by simpa [SameContents] using h.symm
    rw [this, listing_nil]
  | case2 base e es hp =>
    obtain ⟨f, fs, rfl, hf, -⟩ := List.map_eq_cons_iff.1 h.symm
    have hpath : f.path = e.path := congrArg EntryContent.path hf
    rw [listing]
    split
    · rfl
    · simp_all
  | case3 base e es rest hp hs ih =>
    obtain ⟨f, fs, rfl, hf, hfs⟩ := List.map_eq_cons_iff.1 h.symm
    have hpath : f.path = e.path := congrArg EntryContent.path hf
    rw [listing_file (hpath ▸ hp) hs, fileItem_congr hf, ih hfs.symm]
  | case4 base e es rest hp name r hs inside ih₁ =>
    -- The entries below the subdirectory, and those after them, have the same contents.
    rename_i ih₂
    obtain ⟨f, fs, rfl, hf, hfs⟩ := List.map_eq_cons_iff.1 h.symm
    have hpath : f.path = e.path := congrArg EntryContent.path hf
    obtain ⟨rfl, hn⟩ := Bytes.eq_append_of_splitAt? hs
    have hin := h.takeWhile (Bytes.below base name)
    rw [listing_subtree (hpath ▸ hp) hn, exact, ← hin.length_eq, ← ih₁ hin,
      ih₂ (SameContents.dropWhile hfs.symm _)]

/-- Entries with the same contents make the same tree. -/
theorem exact_congr {t u : Table} (h : SameContents t u) (base : Bytes) :
    exact base t = exact base u := by
  rw [exact, exact, h.length_eq, listing_congr h]

end Table

end StagingIndex
