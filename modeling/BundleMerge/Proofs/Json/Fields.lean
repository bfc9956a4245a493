import Mathlib.Data.List.Nodup
import BundleMerge.Json.Value

/-! Looking up the fields of an object, after each of the ways in which fields are made. -/
namespace BundleMerge.Json.Fields

variable {fields more : Fields} {field : String × Json} {key other : String} {value : Json}

@[simp]
theorem get?_nil : get? [] key = none := rfl

theorem get?_cons :
    get? (field :: fields) key = if key = field.1 then some field.2 else get? fields key := by
  rw [get?, get?, List.lookup_cons]
  by_cases same : key = field.1
  · rw [if_pos same, beq_iff_eq.mpr same]
  · rw [if_neg same, beq_eq_false_iff_ne.mpr same]

theorem get?_append : get? (fields ++ more) key = (get? fields key).or (get? more key) :=
  List.lookup_append

theorem get?_insert (fields : Fields) (key other : String) (value : Json) :
    get? (fields.insert other value) key = if key = other then some value else get? fields key := by
  induction fields with
  | nil => rw [Fields.insert, get?_cons]
  | cons field rest ih =>
    rw [Fields.insert]
    by_cases same : field.1 = other
    · rw [if_pos same, get?_cons, get?_cons, same]
      split <;> rfl
    · rw [if_neg same, get?_cons, get?_cons, ih]
      grind

theorem get?_filter (keeps : String → Bool) (fields : Fields) (key : String) :
    get? (fields.filter (keeps ·.1)) key = if keeps key then get? fields key else none := by
  induction fields with
  | nil => simp
  | cons field rest ih =>
    rw [List.filter_cons]
    by_cases same : key = field.1
    · subst same
      by_cases kept : keeps field.1 = true <;> simp [kept, get?_cons, ih]
    · by_cases kept : keeps field.1 = true <;> simp [kept, get?_cons, ih, same]

theorem get?_erase (fields : Fields) (key other : String) :
    get? (fields.erase other) key = if key = other then none else get? fields key := by
  have filtered := get?_filter (fun key => key ≠ other) fields key
  rw [erase, filtered]
  by_cases same : key = other <;> simp [same]

/-- Values that are changed under their keys are found under the same keys. -/
theorem get?_map (change : String → Json → Json) (fields : Fields) (key : String) :
    get? (fields.map fun field => (field.1, change field.1 field.2)) key =
      (get? fields key).map (change key) := by
  induction fields with
  | nil => rfl
  | cons field rest ih =>
    rw [List.map_cons, get?_cons, get?_cons, ih]
    by_cases same : key = field.1
    · simp [same]
    · simp [same]

theorem contains_eq (fields : Fields) (key : String) :
    fields.contains key = (get? fields key).isSome := by
  induction fields with
  | nil => rfl
  | cons field rest ih =>
    rw [contains, List.any_cons, get?_cons]
    by_cases same : key = field.1
    · simp [same]
    · rw [if_neg same, ← ih, contains, decide_eq_false (Ne.symm same), Bool.false_or]

theorem get?_isSome : (get? fields key).isSome = true ↔ key ∈ fields.keys := by
  rw [← contains_eq, contains, keys, List.any_eq_true, List.mem_map]
  simp

theorem mem_of_get? (found : get? fields key = some value) : (key, value) ∈ fields := by
  induction fields with
  | nil => cases found
  | cons field rest ih =>
    rw [get?_cons] at found
    split at found
    · next same =>
      cases found
      rw [same]
      exact List.mem_cons_self ..
    · exact List.mem_cons_of_mem _ (ih found)

theorem get?_of_mem (distinct : fields.keys.Nodup) (member : (key, value) ∈ fields) :
    get? fields key = some value := by
  induction fields with
  | nil => cases member
  | cons field rest ih =>
    obtain ⟨new, distinct⟩ := List.nodup_cons.mp distinct
    rw [get?_cons]
    obtain rfl | member := List.mem_cons.mp member
    · exact if_pos rfl
    · have differs : key ≠ field.1 := by
        rintro rfl
        exact new (List.mem_map.mpr ⟨_, member, rfl⟩)
      rw [if_neg differs, ih distinct member]

@[simp]
theorem keys_cons : keys (field :: fields) = field.1 :: keys fields := rfl

theorem keys_insert (fields : Fields) (key : String) (value : Json) :
    (fields.insert key value).keys =
      if key ∈ fields.keys then fields.keys else fields.keys ++ [key] := by
  induction fields with
  | nil => rfl
  | cons field rest ih =>
    rw [Fields.insert, keys_cons]
    by_cases same : field.1 = key
    · rw [if_pos same, keys_cons, if_pos (same ▸ List.mem_cons_self ..), same]
    · rw [if_neg same, keys_cons, ih]
      by_cases known : key ∈ keys rest
      · rw [if_pos known, if_pos (List.mem_cons_of_mem _ known)]
      · have new : key ∉ field.1 :: keys rest := by simp [known, Ne.symm same]
        rw [if_neg known, if_neg new, List.cons_append]

theorem nodup_insert (distinct : fields.keys.Nodup) : (fields.insert key value).keys.Nodup := by
  rw [keys_insert]
  split
  · exact distinct
  · next new => exact distinct.append (List.nodup_singleton key) (by simpa using new)

/-- A value that is put where it stands already changes nothing. -/
theorem insert_found (found : get? fields key = some value) : fields.insert key value = fields := by
  induction fields with
  | nil => cases found
  | cons field rest ih =>
    rw [get?_cons] at found
    rw [Fields.insert]
    split at found
    · next same =>
      cases found
      rw [if_pos same.symm, same]
    · next other => rw [if_neg (Ne.symm other), ih found]

theorem erase_absent (absent : get? fields key = none) : fields.erase key = fields := by
  refine List.filter_eq_self.mpr fun field member => decide_eq_true fun here => ?_
  have known : key ∈ fields.keys := here ▸ List.mem_map_of_mem member
  rw [← get?_isSome, absent] at known
  cases known

theorem mem_insert {member : String × Json} (inside : member ∈ fields.insert key value) :
    member = (key, value) ∨ member ∈ fields := by
  induction fields with
  | nil => exact .inl (List.mem_singleton.mp inside)
  | cons field rest ih =>
    rw [Fields.insert] at inside
    split at inside
    · exact (List.mem_cons.mp inside).imp_right (List.mem_cons_of_mem _)
    · obtain rfl | inside := List.mem_cons.mp inside
      · exact .inr (List.mem_cons_self ..)
      · exact (ih inside).imp_right (List.mem_cons_of_mem _)

end BundleMerge.Json.Fields
