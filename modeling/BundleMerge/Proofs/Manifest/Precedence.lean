import BundleMerge.Proofs.Manifest.Merge

/-! Which of several packages with one root a merge keeps. The lists under the usual spelling of
the key come first, those of the target before those of the source, and the lists under the older
spelling after them. So a package of the target gives way to one of the source only if it is listed
under the older spelling, and that one under the usual. -/
namespace BundleMerge.Manifest

open Json (Fields)

/-- The package has the root. -/
def HasRoot (root p : Json) : Prop :=
  ∃ r, p.get? rootKey = some r ∧ r.Same root

/-- Some package of the list has the root. -/
def Lists (root : Json) (items : List Json) : Prop :=
  ∃ p ∈ items, HasRoot root p

/-- The package is the first of the list with the root. -/
def FirstWith (root : Json) (items : List Json) (p : Json) : Prop :=
  ∃ before after, items = before ++ p :: after ∧ HasRoot root p ∧ ∀ q ∈ before, ¬ HasRoot root q

variable {target source : Fields} {root a b p : Json} {items more kept : List Json}

theorem HasRoot.same (has : HasRoot root a) (has' : HasRoot root b) : SameRoot a b := by
  obtain ⟨r, found, same⟩ := has
  obtain ⟨r', found', same'⟩ := has'
  rw [SameRoot, found, found']
  exact .some (same.trans same'.symm)

theorem HasRoot.of_same (same : SameRoot a b) (has : HasRoot root b) : HasRoot root a := by
  obtain ⟨r, found, alike⟩ := has
  rw [SameRoot, found] at same
  generalize there : a.get? rootKey = s at same
  cases same with
  | some same => exact ⟨_, there, same.trans alike⟩

/-- The first of two lists laid end to end lies in the first list, if that has one at all. -/
theorem firstWith_append : FirstWith root (items ++ more) p ↔
    FirstWith root items p ∨ ¬ Lists root items ∧ FirstWith root more p := by
  constructor
  · rintro ⟨before, after, whole, has, none⟩
    obtain ⟨rest, rfl, split⟩ | ⟨rest, rfl, split⟩ := List.append_eq_append_iff.mp whole
    · refine .inr ⟨?_, rest, after, split, has, fun q member => ?_⟩
      · rintro ⟨q, member, there⟩
        exact none q (List.mem_append_left _ member) there
      · exact none q (List.mem_append_right _ member)
    · cases rest with
      | nil =>
        rw [List.append_nil] at *
        refine .inr ⟨?_, [], after, split.symm, has, nofun⟩
        rintro ⟨q, member, there⟩
        exact none q member there
      | cons first rest =>
        obtain ⟨rfl, rfl⟩ := List.cons.inj split
        exact .inl ⟨before, rest, rfl, has, none⟩
  · rintro (⟨before, after, rfl, has, none⟩ | ⟨absent, before, after, rfl, has, none⟩)
    · exact ⟨before, after ++ more, by simp, has, none⟩
    · refine ⟨items ++ before, after, by simp, has, fun q member => ?_⟩
      obtain early | late := List.mem_append.mp member
      · exact fun there => absent ⟨q, early, there⟩
      · exact none q late

theorem lists_append : Lists root (items ++ more) ↔ Lists root items ∨ Lists root more := by
  simp only [Lists, List.mem_append, or_and_right, exists_or]

theorem FirstWith.lists (first : FirstWith root items p) : Lists root items := by
  obtain ⟨before, after, rfl, has, -⟩ := first
  exact ⟨p, by simp, has⟩

/-- Of the packages with a root the first one stays, and no other. -/
theorem FirstsOf.firstWith (firsts : FirstsOf SameRoot items kept) (listed : Lists root items) :
    ∃ before p after, kept = before ++ p :: after ∧ FirstWith root items p ∧
      ∀ q ∈ before ++ after, ¬ HasRoot root q := by
  obtain ⟨x, member, has⟩ := listed
  obtain ⟨early, p, late, whole, stays, same, none⟩ := firsts.covers x member
  obtain ⟨before, after, rfl⟩ := List.append_of_mem stays
  have here : HasRoot root p := .of_same same has
  have first : FirstWith root items p :=
    ⟨early, late, whole, here, fun q before there => none q before (there.same has)⟩
  refine ⟨before, p, after, rfl, first, fun q other there => ?_⟩
  obtain ⟨-, later, others⟩ := List.pairwise_append.mp firsts.distinct
  obtain ⟨apart, -⟩ := List.pairwise_cons.mp later
  obtain left | right := List.mem_append.mp other
  · exact others q left p (List.mem_cons_self ..) (there.same here)
  · exact apart q right (here.same there)

/-- For a root that the target lists, the merged manifest has one package. It is the target's first
one if the target lists the root under the usual spelling, or the source does not; else it is the
source's first one under that spelling. -/
theorem package_kept (ofTarget : (Json.object target).WellFormed)
    (ofSource : (Json.object source).WellFormed)
    (inTarget : IsListOrNothing (target.get? packagesKey))
    (inSource : IsListOrNothing (source.get? packagesKey))
    (oldInTarget : IsListOrNothing (target.get? oldPackagesKey))
    (oldInSource : IsListOrNothing (source.get? oldPackagesKey))
    (listed : Lists root (itemsAt target packagesKey ++ itemsAt target oldPackagesKey)) :
    ∃ before p after,
      (merge target source).get? packagesKey = some (.array (before ++ p :: after)) ∧
      HasRoot root p ∧ (∀ q ∈ before ++ after, ¬ HasRoot root q) ∧
      (Lists root (itemsAt target packagesKey) ∨ ¬ Lists root (itemsAt source packagesKey) →
        FirstWith root (itemsAt target packagesKey ++ itemsAt target oldPackagesKey) p) ∧
      (¬ Lists root (itemsAt target packagesKey) ∧ Lists root (itemsAt source packagesKey) →
        FirstWith root (itemsAt source packagesKey) p) := by
  have merged : (merge target source).get? packagesKey = _ := get?_gatherPackages ..
  rw [if_pos rfl, itemsAt_gathered inTarget inSource oldInTarget oldInSource] at merged
  have firsts := gathered_firstsOf ofTarget ofSource
  dsimp only at firsts
  generalize itemsAt target packagesKey = usual, itemsAt target oldPackagesKey = old,
    itemsAt source packagesKey = usual', itemsAt source oldPackagesKey = old' at *
  have among : Lists root (usual ++ usual' ++ old ++ old') := by
    obtain ⟨p, member, has⟩ := listed
    refine ⟨p, ?_, has⟩
    simp only [List.mem_append] at member ⊢
    tauto
  obtain ⟨before, p, after, kept, first, others⟩ := firsts.firstWith among
  rw [kept] at merged
  obtain ⟨-, -, -, has, -⟩ := id first
  refine ⟨before, p, after, merged, has, others, ?_⟩
  -- The kept package lies in the first of the four lists that has the root.
  simp only [firstWith_append, lists_append] at first listed ⊢
  obtain ((inUsual | ⟨absent, inUsual'⟩) | ⟨absent, inOld⟩) | ⟨absent, -⟩ := first
  · exact ⟨fun _ => .inl inUsual, fun none => absurd inUsual.lists none.1⟩
  · refine ⟨fun preferred => ?_, fun _ => inUsual'⟩
    exact absurd inUsual'.lists (preferred.resolve_left absent)
  · obtain ⟨none, none'⟩ := not_or.mp absent
    exact ⟨fun _ => .inr ⟨none, inOld⟩, fun some => absurd some.2 none'⟩
  · exact absurd (listed.imp_left .inl) absent

/-- A package that tells where it is from. -/
def package (root maker : String) : Json :=
  .object [(rootKey, .string root), ("from", .string maker)]

@[simp]
theorem package_wellFormed (root maker : String) : (package root maker).WellFormed := by
  simp [package, Fields.keys, rootKey]

@[simp]
theorem hasRoot_package {root root' maker : String} :
    HasRoot (.string root) (package root' maker) ↔ root' = root := by
  have found : (package root' maker).get? rootKey = some (.string root') := rfl
  simp only [HasRoot, found, Option.some.injEq, exists_eq_left']
  constructor
  · rintro ⟨⟩
    rfl
  · rintro rfl
    exact .string root'

/-- Root `b` has its package from the target's older list; for root `c` that list gives way. -/
theorem package_kept_mixed :
    let target : Fields := [(oldPackagesKey, .array [package "b" "old", package "c" "old"]),
      (packagesKey, .array [package "a" "usual"])]
    let source : Fields := [(packagesKey, .array [package "c" "source", package "a" "source"]),
      (oldPackagesKey, .array [package "b" "source"])]
    (merge target source).get? packagesKey =
      some (.array [package "a" "usual", package "c" "source", package "b" "old"]) ∧
    (∃ before p after, (merge target source).get? packagesKey =
        some (.array (before ++ p :: after)) ∧ HasRoot (.string "b") p ∧
      FirstWith (.string "b")
        (itemsAt target packagesKey ++ itemsAt target oldPackagesKey) p) ∧
    ∃ before p after, (merge target source).get? packagesKey =
        some (.array (before ++ p :: after)) ∧ HasRoot (.string "c") p ∧
      FirstWith (.string "c") (itemsAt source packagesKey) p := by
  intro target source
  have ofTarget : (Json.object target).WellFormed := by
    simp [target, Fields.keys, oldPackagesKey, packagesKey]
  have ofSource : (Json.object source).WellFormed := by
    simp [source, Fields.keys, oldPackagesKey, packagesKey]
  have lists : itemsAt target packagesKey = [package "a" "usual"] ∧
      itemsAt target oldPackagesKey = [package "b" "old", package "c" "old"] ∧
      itemsAt source packagesKey = [package "c" "source", package "a" "source"] := ⟨rfl, rfl, rfl⟩
  have kept := fun root => @package_kept target source (.string root) ofTarget ofSource (.list _)
    (.list _) (.list _) (.list _)
  simp only [lists, Lists] at kept ⊢
  refine ⟨rfl, ?_, ?_⟩
  · obtain ⟨before, p, after, merged, has, -, own, -⟩ := kept "b" (by simp)
    exact ⟨before, p, after, merged, has, own (.inr (by simp))⟩
  · obtain ⟨before, p, after, merged, has, -, -, other⟩ := kept "c" (by simp)
    exact ⟨before, p, after, merged, has, other ⟨by simp, by simp⟩⟩

/-- A package that the target lists under the older spelling gives way to one that the source lists
under the usual one. -/
theorem package_gives_way :
    let target : Fields := [(oldPackagesKey, .array [package "a" "target"])]
    let source : Fields := [(packagesKey, .array [package "a" "source"])]
    (Json.object target).WellFormed ∧ (Json.object source).WellFormed ∧
      Lists (.string "a") (itemsAt target packagesKey ++ itemsAt target oldPackagesKey) ∧
      (merge target source).get? packagesKey = some (.array [package "a" "source"]) ∧
      package "a" "source" ∉ itemsAt target packagesKey ++ itemsAt target oldPackagesKey := by
  intro target source
  have lists : itemsAt target packagesKey ++ itemsAt target oldPackagesKey =
      [package "a" "target"] := rfl
  rw [lists]
  refine ⟨?_, ?_, ?_, rfl, ?_⟩
  · simp [target, Fields.keys, oldPackagesKey]
  · simp [source, Fields.keys, packagesKey]
  · simp [Lists]
  · simp [package]

end BundleMerge.Manifest
