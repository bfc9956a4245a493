import BundleMerge.Proofs.Manifest.Merge

/-! Merged manifests are normal forms: merged with nothing, on either side, they stay as they are,
down to the order of their keys. -/
namespace BundleMerge.Manifest

open Json (Fields)

/-- Nothing is left to be done to the manifest: no page and no package is listed twice, and the
packages are listed under their usual key only. -/
structure Normal (m : Fields) : Prop where
  pages : ∀ items, m.get? pagesKey = some (.array items) → items.Pairwise (Json.sameAs · · = false)
  packages : ∃ items, m.get? packagesKey = some (.array items) ∧
    items.Pairwise (sameRoot · · = false)
  old : m.get? oldPackagesKey = none

variable {m fields : Fields} {items : List Json}

/-! ### Merging yields a normal form -/

theorem dedupPages_distinct (found : (dedupPages fields).get? pagesKey = some (.array items)) :
    items.Pairwise (Json.sameAs · · = false) := by
  cases listed : fields.get? pagesKey with
  | none => simp [dedupPages, listed] at found
  | some pages =>
    cases pages with
    | array pages =>
      rw [get?_dedupPages_pages listed] at found
      cases found
      exact firsts_distinct ..
    | _ => simp [dedupPages, listed] at found

theorem merge_normal (target source : Fields) : Normal (merge target source) where
  pages items found := by
    rw [merge, get?_gatherPackages, if_neg (by decide), if_neg (by decide)] at found
    exact dedupPages_distinct found
  packages := ⟨_, by rw [merge, get?_gatherPackages, if_pos rfl], firsts_distinct ..⟩
  old := by rw [merge, get?_gatherPackages, if_neg (by decide), if_pos rfl]

/-! ### A normal form stays -/

theorem Normal.dedupPages_eq (normal : Normal m) : dedupPages m = m := by
  unfold dedupPages
  split
  · next items found =>
    rw [firsts_of_distinct (normal.pages items found)]
    exact Fields.insert_found found
  · rfl

theorem Normal.gatherPackages_eq (normal : Normal m) : gatherPackages m = m := by
  obtain ⟨items, listed, distinct⟩ := normal.packages
  have usual : itemsAt m packagesKey = items := by rw [itemsAt, listed]
  have old : itemsAt m oldPackagesKey = [] := by rw [itemsAt, normal.old]
  rw [gatherPackages, usual, old, List.append_nil, firsts_of_distinct distinct,
    Fields.erase_absent normal.old]
  exact Fields.insert_found listed

/-- Values without a counterpart in the source are those of the target. -/
theorem mergeFields_nil (m : Fields) : mergeFields m [] = m := by
  have kept : ∀ v : Json, mergeField v none = v := fun v => by cases v <;> rfl
  simp [mergeFields, kept]

theorem nil_mergeFields (m : Fields) : mergeFields [] m = m := by
  simp [mergeFields, Fields.contains]

/-- What has been merged stays as it is when it is merged with nothing, as the target and as the
source: the same values under the same keys, in the same order. -/
theorem merged_with_nothing (target source : Fields) :
    merge (merge target source) [] = merge target source ∧
      merge [] (merge target source) = merge target source := by
  have normal := merge_normal target source
  generalize merge target source = m at normal ⊢
  constructor
  · rw [merge, mergeFields_nil, normal.dedupPages_eq, normal.gatherPackages_eq]
  · rw [merge, nil_mergeFields, normal.dedupPages_eq, normal.gatherPackages_eq]

end BundleMerge.Manifest
