import BundleMerge.Proofs.Json.Equality
import BundleMerge.Proofs.Manifest.Firsts

/-! What a merged manifest has at its keys; its pages and its sub-packages. The main results are
about well-formed manifests, and all that are read from files are. -/
namespace BundleMerge.Manifest

open Json (Fields)

/-- What a key of a manifest has if it has a list there, or nothing. -/
inductive IsListOrNothing : Option Json → Prop where
  | absent : IsListOrNothing none
  | null : IsListOrNothing (some .null)
  | list (items : List Json) : IsListOrNothing (some (.array items))

/-- The packages have equal roots, or neither has one. -/
def SameRoot (a b : Json) : Prop :=
  Option.Rel Json.Same (a.get? rootKey) (b.get? rootKey)

variable {target source fields : Fields} {key : String} {a b c : Json} {items : List Json}

/-! ### Fields -/

theorem get?_mergeFields (target source : Fields) (key : String) :
    (mergeFields target source).get? key =
      ((target.get? key).map (mergeField · (source.get? key))).or (source.get? key) := by
  have merged := Fields.get?_map (fun key value => mergeField value (source.get? key)) target key
  have added := Fields.get?_filter (!target.contains ·) source key
  rw [mergeFields, Fields.get?_append, merged, added, Fields.contains_eq]
  cases target.get? key <;> rfl

theorem itemsAt_mergeFields (ofTarget : IsListOrNothing (target.get? key))
    (ofSource : IsListOrNothing (source.get? key)) :
    itemsAt (mergeFields target source) key = itemsAt target key ++ itemsAt source key := by
  simp only [itemsAt, get?_mergeFields]
  generalize target.get? key = t at *
  generalize source.get? key = s at *
  cases ofTarget <;> cases ofSource <;> simp [mergeField]

/-- A list in one of two manifests is a list in what they are merged to. -/
theorem get?_mergeFields_list (ofTarget : IsListOrNothing (target.get? key))
    (ofSource : IsListOrNothing (source.get? key))
    (one : (∃ items, target.get? key = some (.array items)) ∨
      ∃ items, source.get? key = some (.array items)) :
    (mergeFields target source).get? key =
      some (.array (itemsAt target key ++ itemsAt source key)) := by
  simp only [itemsAt, get?_mergeFields]
  generalize target.get? key = t at *
  generalize source.get? key = s at *
  cases ofTarget <;> cases ofSource <;> simp_all [mergeField]

theorem get?_dedupPages (other : key ≠ pagesKey) :
    (dedupPages fields).get? key = fields.get? key := by
  unfold dedupPages
  split
  · rw [Fields.get?_insert, if_neg other]
  · rfl

theorem get?_dedupPages_pages (found : fields.get? pagesKey = some (.array items)) :
    (dedupPages fields).get? pagesKey = some (.array (firsts Json.sameAs items)) := by
  rw [dedupPages, found, Fields.get?_insert, if_pos rfl]

theorem get?_gatherPackages (fields : Fields) (key : String) :
    (gatherPackages fields).get? key =
      if key = packagesKey then
        some (.array (firsts sameRoot
          (itemsAt fields packagesKey ++ itemsAt fields oldPackagesKey)))
      else if key = oldPackagesKey then none
      else fields.get? key := by
  rw [gatherPackages, Fields.get?_insert, Fields.get?_erase]

theorem itemsAt_dedupPages (other : key ≠ pagesKey) :
    itemsAt (dedupPages fields) key = itemsAt fields key := by
  rw [itemsAt, get?_dedupPages other, itemsAt]

/-! ### Equality of pages and of packages -/

theorem itemsAt_wellFormed (wellFormed : (Json.object fields).WellFormed) :
    ∀ x ∈ itemsAt fields key, x.WellFormed := by
  intro x member
  unfold itemsAt at member
  split at member
  · next found => exact Json.wellFormed_array.mp (wellFormed.get? found) x member
  · cases member

theorem itemsAt_append_wellFormed (ofTarget : (Json.object target).WellFormed)
    (ofSource : (Json.object source).WellFormed) :
    ∀ x ∈ itemsAt target key ++ itemsAt source key, x.WellFormed := by
  intro x member
  obtain member | member := List.mem_append.mp member
  · exact itemsAt_wellFormed ofTarget x member
  · exact itemsAt_wellFormed ofSource x member

theorem equates_same (wellFormed : ∀ x ∈ items, x.WellFormed) :
    Equates Json.sameAs Json.Same items where
  refl x member := .refl (wellFormed x member)
  symm := .symm
  trans := .trans
  tells x member _ := Json.sameAs_iff (wellFormed x member)

theorem root_wellFormed (wellFormed : a.WellFormed) (found : a.get? rootKey = some b) :
    b.WellFormed := by
  cases a with
  | object fields => exact wellFormed.get? found
  | _ => cases found

namespace SameRoot

theorem refl (wellFormed : a.WellFormed) : SameRoot a a := by
  unfold SameRoot
  cases found : a.get? rootKey with
  | none => exact .none
  | some root => exact .some (.refl (root_wellFormed wellFormed found))

theorem symm (same : SameRoot a b) : SameRoot b a := by
  unfold SameRoot at *
  generalize a.get? rootKey = r, b.get? rootKey = s at *
  cases same with
  | some same => exact .some same.symm
  | none => exact .none

theorem trans (first : SameRoot a b) (second : SameRoot b c) : SameRoot a c := by
  unfold SameRoot at *
  generalize a.get? rootKey = r, b.get? rootKey = s, c.get? rootKey = t at *
  cases first with
  | some same =>
    cases second with
    | some same' => exact .some (same.trans same')
  | none => exact second

end SameRoot

theorem sameRoot_iff (wellFormed : a.WellFormed) : sameRoot a b = true ↔ SameRoot a b := by
  unfold sameRoot SameRoot
  cases found : a.get? rootKey with
  | none => cases b.get? rootKey <;> simp
  | some root =>
    cases b.get? rootKey with
    | none => simp
    | some other => simpa using Json.sameAs_iff (root_wellFormed wellFormed found)

theorem equates_root (wellFormed : ∀ x ∈ items, x.WellFormed) :
    Equates sameRoot SameRoot items where
  refl x member := .refl (wellFormed x member)
  symm := .symm
  trans := .trans
  tells x member _ := sameRoot_iff (wellFormed x member)

/-! ### Pages and packages -/

/-- Pages in either manifest are merged to the first of the target's and then of the source's
pages, each of them once. -/
theorem merge_pages (ofTarget : (Json.object target).WellFormed)
    (ofSource : (Json.object source).WellFormed)
    (inTarget : IsListOrNothing (target.get? pagesKey))
    (inSource : IsListOrNothing (source.get? pagesKey))
    (one : (∃ items, target.get? pagesKey = some (.array items)) ∨
      ∃ items, source.get? pagesKey = some (.array items)) :
    ∃ kept, (merge target source).get? pagesKey = some (.array kept) ∧
      FirstsOf Json.Same (itemsAt target pagesKey ++ itemsAt source pagesKey) kept := by
  have listed := get?_mergeFields_list inTarget inSource one
  refine ⟨_, ?_, firsts_firstsOf (equates_same (itemsAt_append_wellFormed ofTarget ofSource))⟩
  rw [merge, get?_gatherPackages, if_neg (by decide), if_neg (by decide),
    get?_dedupPages_pages listed]

/-- An integer is no float, the two zeros are one number, and fields may stand in any order. -/
theorem merge_pages_mixed :
    let target : Fields := [(pagesKey, .array [.string "a", .number (.int 0),
      .object [("x", .null), ("y", .bool true)], .number (.float ⟨true, 0⟩)])]
    let source : Fields := [(pagesKey, .array [.object [("y", .bool true), ("x", .null)],
      .number (.float ⟨false, 0⟩), .string "a", .array []])]
    ∃ kept, (merge target source).get? pagesKey = some (.array kept) ∧
      FirstsOf Json.Same (itemsAt target pagesKey ++ itemsAt source pagesKey) kept ∧
      kept = [.string "a", .number (.int 0), .object [("x", .null), ("y", .bool true)],
        .number (.float ⟨true, 0⟩), .array []] := by
  intro target source
  have ofTarget : (Json.object target).WellFormed := by simp [target, Fields.keys]
  have ofSource : (Json.object source).WellFormed := by simp [source, Fields.keys]
  obtain ⟨kept, merged, firsts⟩ :=
    merge_pages ofTarget ofSource (.list _) (.list _) (.inl ⟨_, rfl⟩)
  refine ⟨kept, merged, firsts, ?_⟩
  injection Option.some.inj merged with same
  exact same.symm

/-- The packages under both spellings of their key; the older one comes after the usual one. -/
theorem itemsAt_gathered (inTarget : IsListOrNothing (target.get? packagesKey))
    (inSource : IsListOrNothing (source.get? packagesKey))
    (oldInTarget : IsListOrNothing (target.get? oldPackagesKey))
    (oldInSource : IsListOrNothing (source.get? oldPackagesKey)) :
    itemsAt (dedupPages (mergeFields target source)) packagesKey ++
        itemsAt (dedupPages (mergeFields target source)) oldPackagesKey =
      itemsAt target packagesKey ++ itemsAt source packagesKey ++
        itemsAt target oldPackagesKey ++ itemsAt source oldPackagesKey := by
  rw [itemsAt_dedupPages (by decide), itemsAt_dedupPages (by decide),
    itemsAt_mergeFields inTarget inSource, itemsAt_mergeFields oldInTarget oldInSource,
    List.append_assoc (_ ++ _)]

/-- What the packages of two manifests are merged to. -/
theorem gathered_firstsOf (ofTarget : (Json.object target).WellFormed)
    (ofSource : (Json.object source).WellFormed) :
    let items := itemsAt target packagesKey ++ itemsAt source packagesKey ++
      itemsAt target oldPackagesKey ++ itemsAt source oldPackagesKey
    FirstsOf SameRoot items (firsts sameRoot items) := by
  intro items
  refine firsts_firstsOf (equates_root fun x member => ?_)
  dsimp only [items] at member
  rw [List.append_assoc (_ ++ _)] at member
  obtain member | member := List.mem_append.mp member
  · exact itemsAt_append_wellFormed ofTarget ofSource x member
  · exact itemsAt_append_wellFormed ofTarget ofSource x member

/-- The packages of two manifests, under both spellings of their key, are merged to the first one
for each root, under one spelling. -/
theorem merge_packages (ofTarget : (Json.object target).WellFormed)
    (ofSource : (Json.object source).WellFormed)
    (inTarget : IsListOrNothing (target.get? packagesKey))
    (inSource : IsListOrNothing (source.get? packagesKey))
    (oldInTarget : IsListOrNothing (target.get? oldPackagesKey))
    (oldInSource : IsListOrNothing (source.get? oldPackagesKey)) :
    (merge target source).contains oldPackagesKey = false ∧
    ∃ kept, (merge target source).get? packagesKey = some (.array kept) ∧
      FirstsOf SameRoot
        (itemsAt target packagesKey ++ itemsAt source packagesKey ++
          itemsAt target oldPackagesKey ++ itemsAt source oldPackagesKey) kept := by
  refine ⟨?_, _, ?_, gathered_firstsOf ofTarget ofSource⟩
  · rw [merge, Fields.contains_eq, get?_gatherPackages, if_neg (by decide), if_pos rfl]
    rfl
  · rw [merge, get?_gatherPackages, if_pos rfl,
      itemsAt_gathered inTarget inSource oldInTarget oldInSource]

/-- The source's list comes before the target's older one, and what has no root is one package. -/
theorem merge_packages_mixed :
    let target : Fields := [(oldPackagesKey, .array [.object [(rootKey, .string "a"), ("x", .null)],
      .string "b", .object [(rootKey, .null)]]), (packagesKey, .null)]
    let source : Fields := [(packagesKey, .array [.object [("y", .null), (rootKey, .string "a")],
      .object [], .null])]
    (merge target source).contains oldPackagesKey = false ∧
    ∃ kept, (merge target source).get? packagesKey = some (.array kept) ∧
      FirstsOf SameRoot
        (itemsAt target packagesKey ++ itemsAt source packagesKey ++
          itemsAt target oldPackagesKey ++ itemsAt source oldPackagesKey) kept ∧
      kept = [.object [("y", .null), (rootKey, .string "a")], .object [],
        .object [(rootKey, .null)]] := by
  intro target source
  have ofTarget : (Json.object target).WellFormed := by
    simp [target, Fields.keys, oldPackagesKey, packagesKey, rootKey]
  have ofSource : (Json.object source).WellFormed := by simp [source, Fields.keys, rootKey]
  obtain ⟨gone, kept, merged, firsts⟩ :=
    merge_packages ofTarget ofSource .null (.list _) (.list _) .absent
  refine ⟨gone, kept, merged, firsts, ?_⟩
  injection Option.some.inj merged with same
  exact same.symm

end BundleMerge.Manifest
