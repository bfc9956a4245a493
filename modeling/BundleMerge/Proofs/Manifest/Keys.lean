import BundleMerge.Proofs.Manifest.Merge

/-! The keys of a merged manifest, in their order, and what it has at the keys that are neither
pages nor packages. -/
namespace BundleMerge.Manifest

open Json (Fields)

/-- A value that is neither a list nor an object. -/
inductive Scalar : Json → Prop where
  | null : Scalar .null
  | bool (b : Bool) : Scalar (.bool b)
  | number (n : Json.Number) : Scalar (.number n)
  | string (s : String) : Scalar (.string s)

/-- The second object laid over the first: a key that is in both stays where it stands and has the
second value, and the other keys of the second come after those of the first. -/
structure LaidOver (fields more out : Fields) : Prop where
  keys : out.keys = fields.keys ++ more.keys.filter (· ∉ fields.keys)
  values : ∀ key, out.get? key = (more.get? key).or (fields.get? key)

/-- What two manifests have at a key, and what becomes of it in the merged one. -/
inductive Merges : Option Json → Option Json → Option Json → Prop where
  | absent : Merges none none none
  | added (v : Json) : Merges none (some v) (some v)
  | lists (items more : List Json) :
      Merges (some (.array items)) (some (.array more)) (some (.array (items ++ more)))
  | list {other : Option Json} (items : List Json) (none : ∀ more, other ≠ some (.array more)) :
      Merges (some (.array items)) other (some (.array items))
  | objects {fields more out : Fields} (laid : LaidOver fields more out) :
      Merges (some (.object fields)) (some (.object more)) (some (.object out))
  | object {other : Option Json} (fields : Fields) (none : ∀ more, other ≠ some (.object more)) :
      Merges (some (.object fields)) other (some (.object fields))
  | replaced {v w : Json} (scalar : Scalar v) (given : w ≠ .null) :
      Merges (some v) (some w) (some w)
  | kept {v : Json} {other : Option Json} (scalar : Scalar v)
      (nothing : other = none ∨ other = some .null) : Merges (some v) other (some v)

variable {target source fields more : Fields} {key : String} {v : Json}

/-! ### Objects -/

theorem overlay_cons (fields more : Fields) (field : String × Json) :
    overlay fields (field :: more) = overlay (fields.insert field.1 field.2) more := rfl

theorem keys_overlay (distinct : more.keys.Nodup) :
    (overlay fields more).keys = fields.keys ++ more.keys.filter (· ∉ fields.keys) := by
  induction more generalizing fields with
  | nil => simp [overlay, Fields.keys]
  | cons field more ih =>
    obtain ⟨new, distinct⟩ := List.nodup_cons.mp distinct
    rw [overlay_cons, ih distinct, Fields.keys_insert, Fields.keys_cons, List.filter_cons]
    by_cases known : field.1 ∈ fields.keys
    · simp [known]
    · -- No later key is the one that has just been appended.
      have others : ∀ key ∈ Fields.keys more,
          decide (key ∉ fields.keys ++ [field.1]) = decide (key ∉ fields.keys) := by
        intro key member
        have differs : key ≠ field.1 := by
          rintro rfl
          exact new member
        simp [differs]
      rw [if_neg known, List.filter_congr others]
      simp [known]

theorem get?_overlay (distinct : more.keys.Nodup) :
    (overlay fields more).get? key = (more.get? key).or (fields.get? key) := by
  induction more generalizing fields with
  | nil => rfl
  | cons field more ih =>
    obtain ⟨new, distinct⟩ := List.nodup_cons.mp distinct
    rw [overlay_cons, ih distinct, Fields.get?_insert, Fields.get?_cons]
    by_cases here : key = field.1
    · have absent : Fields.get? more key = none := by
        rw [← Option.not_isSome_iff_eq_none, Fields.get?_isSome, here]
        exact new
      rw [if_pos here, if_pos here, absent]
      rfl
    · rw [if_neg here, if_neg here]

theorem overlay_laidOver (distinct : more.keys.Nodup) :
    LaidOver fields more (overlay fields more) :=
  ⟨keys_overlay distinct, fun _ => get?_overlay distinct⟩

/-! ### Values -/

theorem merges_scalar (scalar : Scalar v) (other : Option Json) :
    Merges (some v) other (some (mergeField v other)) := by
  cases other with
  | none =>
    have same : mergeField v none = v := by
      cases scalar <;> rfl
    rw [same]
    exact .kept scalar (.inl rfl)
  | some w =>
    by_cases given : w = .null
    · have same : mergeField v (some w) = v := by
        subst given
        cases scalar <;> rfl
      rw [same]
      exact .kept scalar (.inr (congrArg some given))
    · have replaced : mergeField v (some w) = w := by
        cases scalar <;> cases w <;> first | rfl | exact absurd rfl given
      rw [replaced]
      exact .replaced scalar given

theorem merges_array (items : List Json) (other : Option Json) :
    Merges (some (.array items)) other (some (mergeField (.array items) other)) := by
  cases other with
  | none => exact .list items nofun
  | some w =>
    cases w with
    | array more => exact .lists items more
    | _ => exact .list items nofun

theorem merges_object {other : Option Json} (fields : Fields)
    (distinct : ∀ more : Fields, other = some (.object more) → more.keys.Nodup) :
    Merges (some (.object fields)) other (some (mergeField (.object fields) other)) := by
  cases other with
  | none => exact .object fields nofun
  | some w =>
    cases w with
    | object more => exact .objects (overlay_laidOver (distinct more rfl))
    | _ => exact .object fields nofun

theorem mergeField_merges {other : Option Json}
    (distinct : ∀ more : Fields, other = some (.object more) → more.keys.Nodup) :
    Merges (some v) other (some (mergeField v other)) := by
  cases v with
  | null => exact merges_scalar .null other
  | bool b => exact merges_scalar (.bool b) other
  | number n => exact merges_scalar (.number n) other
  | string s => exact merges_scalar (.string s) other
  | array items => exact merges_array items other
  | object fields => exact merges_object fields distinct

theorem mergeFields_merges (ofSource : (Json.object source).WellFormed) :
    Merges (target.get? key) (source.get? key) ((mergeFields target source).get? key) := by
  rw [get?_mergeFields]
  cases target.get? key with
  | none =>
    cases source.get? key with
    | none => exact .absent
    | some v => exact .added v
  | some v =>
    apply mergeField_merges
    intro more found
    exact (Json.wellFormed_object.mp (ofSource.get? found)).1

/-! ### Keys -/

theorem keys_filter (keeps : String → Bool) (fields : Fields) :
    Fields.keys (fields.filter (keeps ·.1)) = fields.keys.filter keeps := by
  rw [Fields.keys, Fields.keys, List.filter_map]
  rfl

theorem keys_mergeFields (target source : Fields) :
    (mergeFields target source).keys =
      target.keys ++ source.keys.filter (· ∉ target.keys) := by
  have added := keys_filter (!target.contains ·) source
  have unknown : ∀ key ∈ source.keys, (!target.contains key) = decide (key ∉ target.keys) := by
    intro key _
    rw [Bool.eq_iff_iff, Bool.not_eq_true', decide_eq_true_eq, ← Fields.get?_isSome,
      Fields.contains_eq, Bool.not_eq_true]
  rw [List.filter_congr unknown] at added
  rw [mergeFields, Fields.keys, List.map_append, ← Fields.keys, ← Fields.keys, added]
  simp [Fields.keys]

theorem keys_dedupPages (fields : Fields) : (dedupPages fields).keys = fields.keys := by
  unfold dedupPages
  split
  · next pages found =>
    have known : pagesKey ∈ fields.keys := Fields.get?_isSome.mp (Option.isSome_of_eq_some found)
    rw [Fields.keys_insert, if_pos known]
  · rfl

theorem keys_gatherPackages (fields : Fields) :
    (gatherPackages fields).keys = fields.keys.filter (· ≠ oldPackagesKey) ++
      if packagesKey ∈ fields.keys then [] else [packagesKey] := by
  have erased : (fields.erase oldPackagesKey).keys = fields.keys.filter (· ≠ oldPackagesKey) :=
    keys_filter (· ≠ oldPackagesKey) fields
  have known : packagesKey ∈ (fields.erase oldPackagesKey).keys ↔ packagesKey ∈ fields.keys := by
    rw [erased, List.mem_filter, decide_eq_true_eq]
    exact and_iff_left (by decide)
  rw [gatherPackages, Fields.keys_insert, erased]
  rw [erased] at known
  by_cases there : packagesKey ∈ fields.keys
  · rw [if_pos (known.mpr there), if_pos there, List.append_nil]
  · rw [if_neg fun h => there (known.mp h), if_neg there]

theorem nodup_keys_mergeFields (ofTarget : target.keys.Nodup) (ofSource : source.keys.Nodup) :
    (mergeFields target source).keys.Nodup := by
  rw [keys_mergeFields]
  refine ofTarget.append (ofSource.filter _) ?_
  intro key here there
  have absent := (List.mem_filter.mp there).2
  rw [decide_eq_true_eq] at absent
  exact absent here

/-- The keys of a merged manifest are those of the target and then those that only the source has,
without the older spelling of the packages; their usual key comes last if neither has it. At any
key but those of pages and packages there is what the two values are merged to, one level deep. -/
theorem merge_keys_values (ofTarget : (Json.object target).WellFormed)
    (ofSource : (Json.object source).WellFormed) :
    (merge target source).keys =
      (target.keys ++ source.keys.filter (· ∉ target.keys)).filter (· ≠ oldPackagesKey) ++
        (if packagesKey ∈ target.keys ∨ packagesKey ∈ source.keys then [] else [packagesKey]) ∧
    (merge target source).keys.Nodup ∧
    ∀ key, key ∉ [pagesKey, packagesKey, oldPackagesKey] →
      Merges (target.get? key) (source.get? key) ((merge target source).get? key) := by
  obtain ⟨distinct, -⟩ := Json.wellFormed_object.mp ofTarget
  obtain ⟨distinct', -⟩ := Json.wellFormed_object.mp ofSource
  have both := keys_mergeFields target source
  have known : packagesKey ∈ (mergeFields target source).keys ↔
      packagesKey ∈ target.keys ∨ packagesKey ∈ source.keys := by
    rw [both, List.mem_append, List.mem_filter, decide_eq_true_eq]
    tauto
  have keys : (merge target source).keys =
      (target.keys ++ source.keys.filter (· ∉ target.keys)).filter (· ≠ oldPackagesKey) ++
        (if packagesKey ∈ target.keys ∨ packagesKey ∈ source.keys then []
          else [packagesKey]) := by
    rw [merge, keys_gatherPackages, keys_dedupPages, ← both]
    simp only [known]
  refine ⟨keys, ?_, fun key other => ?_⟩
  · have merged := nodup_keys_mergeFields distinct distinct'
    rw [merge, gatherPackages]
    apply Fields.nodup_insert
    rw [Fields.erase, keys_filter (· ≠ oldPackagesKey), keys_dedupPages]
    exact merged.filter _
  · simp only [List.mem_cons, List.not_mem_nil, or_false, not_or] at other
    obtain ⟨notPages, notPackages, notOld⟩ := other
    rw [merge, get?_gatherPackages, if_neg notPackages, if_neg notOld, get?_dedupPages notPages]
    exact mergeFields_merges ofSource

/-- A null of the target gives way, one of the source does not count, and a null in an object
does. -/
theorem merge_keys_values_mixed :
    let target : Fields := [("n", .null), (oldPackagesKey, .array []),
      ("o", .object [("x", .string "1"), ("y", .object [("z", .null)])]), ("a", .array [.null]),
      ("s", .string "t")]
    let source : Fields := [("new", .null), ("s", .null), ("a", .object []),
      ("o", .object [("y", .object []), ("w", .null), ("x", .null)]), ("n", .array [])]
    (merge target source).keys = ["n", "o", "a", "s", "new", packagesKey] ∧
      Merges (target.get? "o") (source.get? "o") ((merge target source).get? "o") ∧
      (merge target source).get? "o" =
        some (.object [("x", .null), ("y", .object []), ("w", .null)]) ∧
      Merges (target.get? "n") (source.get? "n") (some (.array [])) ∧
      Merges (target.get? "s") (source.get? "s") (some (.string "t")) ∧
      Merges (target.get? "a") (source.get? "a") (some (.array [.null])) ∧
      Merges (target.get? "new") (source.get? "new") (some .null) := by
  intro target source
  have ofTarget : (Json.object target).WellFormed := by
    simp [target, Fields.keys, oldPackagesKey]
  have ofSource : (Json.object source).WellFormed := by simp [source, Fields.keys]
  obtain ⟨keys, -, values⟩ := merge_keys_values ofTarget ofSource
  refine ⟨?_, values "o" (by decide), rfl, values "n" (by decide), values "s" (by decide),
    values "a" (by decide), values "new" (by decide)⟩
  rw [keys]
  decide

end BundleMerge.Manifest
