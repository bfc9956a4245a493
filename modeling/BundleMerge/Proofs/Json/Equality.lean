import Mathlib.Data.List.Perm.Subperm
import BundleMerge.Proofs.Json.Fields

/-! When two JSON values are equal, and that `sameAs` tells it. -/
namespace BundleMerge

/-- The number that is meant, in units. -/
def Binary64.value (x : Binary64) : Int :=
  if x.negative then -x.units else x.units

theorem Binary64.sameAs_iff {x y : Binary64} : x.sameAs y = true ↔ x.value = y.value := by
  obtain ⟨negative, units⟩ := x
  obtain ⟨negative', units'⟩ := y
  simp only [sameAs, value, Bool.and_eq_true, Bool.or_eq_true, decide_eq_true_eq]
  cases negative <;> cases negative' <;> simp <;> omega

namespace Json

/-- No object in the value has a key twice. -/
inductive WellFormed : Json → Prop where
  | null : WellFormed .null
  | bool (b : Bool) : WellFormed (.bool b)
  | number (n : Number) : WellFormed (.number n)
  | string (s : String) : WellFormed (.string s)
  | array {items} (each : ∀ v ∈ items, WellFormed v) : WellFormed (.array items)
  | object {fields} (distinct : (Fields.keys fields).Nodup)
      (each : ∀ field ∈ fields, WellFormed field.2) : WellFormed (.object fields)

/-- Equality of values: of integers and of floats as numbers, of lists item by item, and of objects
by what they have at each key. -/
inductive Same : Json → Json → Prop where
  | null : Same .null .null
  | bool (b : Bool) : Same (.bool b) (.bool b)
  | int (n : Int) : Same (.number (.int n)) (.number (.int n))
  | float {x y : Binary64} (equal : x.value = y.value) :
      Same (.number (.float x)) (.number (.float y))
  | string (s : String) : Same (.string s) (.string s)
  | array {as bs : List Json} (long : as.length = bs.length)
      (each : ∀ (i : Nat) (a b : Json), as[i]? = some a → bs[i]? = some b → Same a b) :
      Same (.array as) (.array bs)
  | object {as bs : Fields} (keys : as.keys.Perm bs.keys)
      (each : ∀ key a b, as.get? key = some a → bs.get? key = some b → Same a b) :
      Same (.object as) (.object bs)

variable {a b c : Json} {as bs : List Json} {fields more : Fields} {key : String}

attribute [simp] WellFormed.null WellFormed.bool WellFormed.number WellFormed.string

@[simp]
theorem wellFormed_array : (array as).WellFormed ↔ ∀ v ∈ as, v.WellFormed := by
  constructor
  · rintro (_ | _ | _ | _ | each)
    exact each
  · exact .array

@[simp]
theorem wellFormed_object : (object fields).WellFormed ↔
    fields.keys.Nodup ∧ ∀ field ∈ fields, field.2.WellFormed := by
  constructor
  · rintro (_ | _ | _ | _ | _ | ⟨distinct, each⟩)
    exact ⟨distinct, each⟩
  · exact fun ⟨distinct, each⟩ => .object distinct each

theorem WellFormed.get? (wellFormed : (Json.object fields).WellFormed)
    (found : fields.get? key = some a) : a.WellFormed :=
  (wellFormed_object.mp wellFormed).2 _ (Fields.mem_of_get? found)

namespace Same

theorem refl (wellFormed : a.WellFormed) : a.Same a := by
  induction wellFormed with
  | null => exact .null
  | bool b => exact .bool b
  | number n =>
    cases n with
    | int n => exact .int n
    | float x => exact .float rfl
  | string s => exact .string s
  | array _ each =>
    refine .array rfl fun i a b here there => ?_
    cases here.symm.trans there
    exact each a (List.mem_of_getElem? here)
  | object _ _ each =>
    refine .object (.refl _) fun key a b here there => ?_
    cases here.symm.trans there
    exact each _ (Fields.mem_of_get? here)

theorem symm (same : a.Same b) : b.Same a := by
  induction same with
  | null => exact .null
  | bool b => exact .bool b
  | int n => exact .int n
  | float equal => exact .float equal.symm
  | string s => exact .string s
  | array long _ each => exact .array long.symm fun i b a there here => each i a b here there
  | object keys _ each => exact .object keys.symm fun key b a there here => each key a b here there

theorem trans (first : a.Same b) (second : b.Same c) : a.Same c := by
  induction first generalizing c with
  | null => exact second
  | bool b => exact second
  | int n => exact second
  | float equal =>
    cases second with
    | float equal' => exact .float (equal.trans equal')
  | string s => exact second
  | @array as bs long _ each =>
    cases second with
    | array long' each' =>
      refine .array (long.trans long') fun i a c here there => ?_
      obtain ⟨within, -⟩ := List.getElem?_eq_some_iff.mp here
      have between := List.getElem?_eq_getElem (long ▸ within)
      exact each i a _ here between (each' i _ c between there)
  | @object as bs keys _ each =>
    cases second with
    | object keys' each' =>
      refine .object (keys.trans keys') fun key a c here there => ?_
      have known := Fields.get?_isSome.mp (Option.isSome_of_eq_some here)
      obtain ⟨b, between⟩ := Option.isSome_iff_exists.mp
        (Fields.get?_isSome.mpr (keys.mem_iff.mp known))
      exact each key a b here between (each' key b c between there)

end Same

/-! ### Telling it -/

theorem sameItems_iff : sameItems as bs = true ↔ as.length = bs.length ∧
    ∀ (i : Nat) (a b : Json), as[i]? = some a → bs[i]? = some b → a.sameAs b = true := by
  induction as generalizing bs with
  | nil => cases bs <;> simp [sameItems]
  | cons a as ih =>
    cases bs with
    | nil => simp [sameItems]
    | cons b bs =>
      simp only [sameItems, Bool.and_eq_true, ih, List.length_cons, Nat.add_right_cancel_iff]
      constructor
      · rintro ⟨first, long, each⟩
        refine ⟨long, fun i a' b' here there => ?_⟩
        cases i with
        | zero =>
          cases here
          cases there
          exact first
        | succ i => exact each i a' b' here there
      · rintro ⟨long, each⟩
        exact ⟨each 0 a b rfl rfl, long, fun i => each (i + 1)⟩

theorem sameFields_iff : sameFields fields more = true ↔
    ∀ field ∈ fields, ∃ b, more.get? field.1 = some b ∧ field.2.sameAs b = true := by
  induction fields with
  | nil => simp [sameFields]
  | cons field rest ih =>
    rw [sameFields, Bool.and_eq_true, ih, List.forall_mem_cons, Fields.get?]
    cases List.lookup field.1 more <;> simp

/-- As many fields, each of them found in the other object, are the same keys. -/
theorem sameAs_object_iff (distinct : fields.keys.Nodup) :
    (object fields).sameAs (object more) = true ↔ fields.keys.Perm more.keys ∧
      ∀ key a b, fields.get? key = some a → more.get? key = some b → a.sameAs b = true := by
  rw [sameAs, Bool.and_eq_true, decide_eq_true_eq, sameFields_iff]
  constructor
  · rintro ⟨long, each⟩
    have known : fields.keys ⊆ more.keys := by
      intro key member
      obtain ⟨field, inside, rfl⟩ := List.mem_map.mp member
      obtain ⟨b, found, -⟩ := each field inside
      exact Fields.get?_isSome.mp (Option.isSome_of_eq_some found)
    have short : more.keys.length ≤ fields.keys.length := by simp [Fields.keys, long]
    refine ⟨(distinct.subperm known).perm_of_length_le short, fun key a b here there => ?_⟩
    obtain ⟨b', found, same⟩ := each _ (Fields.mem_of_get? here)
    cases found.symm.trans there
    exact same
  · rintro ⟨keys, each⟩
    have long : fields.length = more.length := by simpa [Fields.keys] using keys.length_eq
    refine ⟨long, fun field inside => ?_⟩
    have known := keys.mem_iff.mp (List.mem_map_of_mem inside)
    obtain ⟨b, found⟩ := Option.isSome_iff_exists.mp (Fields.get?_isSome.mpr known)
    exact ⟨b, found, each _ _ b (Fields.get?_of_mem distinct inside) found⟩

theorem Number.sameAs_iff {m n : Number} : m.sameAs n = true ↔ (number m).Same (number n) := by
  constructor
  · intro same
    cases m <;> cases n <;> simp only [sameAs, decide_eq_true_eq, Bool.false_eq_true] at same
    · exact same ▸ .int _
    · exact .float (Binary64.sameAs_iff.mp same)
  · rintro (_ | _ | _ | equal)
    · exact decide_eq_true rfl
    · exact Binary64.sameAs_iff.mpr equal

theorem sameAs_iff (wellFormed : a.WellFormed) : a.sameAs b = true ↔ a.Same b := by
  induction wellFormed generalizing b with
  | null =>
    constructor
    · intro same
      cases b <;> first | exact .null | cases same
    · rintro ⟨⟩
      rfl
  | bool p =>
    constructor
    · intro same
      cases b <;> simp only [sameAs, decide_eq_true_eq, Bool.false_eq_true] at same
      exact same ▸ .bool p
    · rintro ⟨⟩
      exact decide_eq_true rfl
  | number n =>
    constructor
    · intro same
      cases b <;> first | exact Number.sameAs_iff.mp same | cases same
    · intro same
      cases b <;> first | exact Number.sameAs_iff.mpr same | cases same
  | string s =>
    constructor
    · intro same
      cases b <;> simp only [sameAs, decide_eq_true_eq, Bool.false_eq_true] at same
      exact same ▸ .string s
    · rintro ⟨⟩
      exact decide_eq_true rfl
  | array _ each =>
    constructor
    · intro same
      cases b <;> simp only [sameAs, Bool.false_eq_true] at same
      obtain ⟨long, items⟩ := sameItems_iff.mp same
      refine .array long fun i a b here there => ?_
      exact (each a (List.mem_of_getElem? here)).mp (items i a b here there)
    · rintro (_ | _ | _ | _ | _ | ⟨long, items⟩)
      refine sameItems_iff.mpr ⟨long, fun i a b here there => ?_⟩
      exact (each a (List.mem_of_getElem? here)).mpr (items i a b here there)
  | object distinct _ each =>
    constructor
    · intro same
      cases b <;> simp only [sameAs, Bool.false_eq_true] at same
      obtain ⟨keys, fields⟩ := (sameAs_object_iff distinct).mp same
      refine .object keys fun key a b here there => ?_
      exact (each _ (Fields.mem_of_get? here)).mp (fields key a b here there)
    · rintro (_ | _ | _ | _ | _ | _ | ⟨keys, fields⟩)
      refine (sameAs_object_iff distinct).mpr ⟨keys, fun key a b here there => ?_⟩
      exact (each _ (Fields.mem_of_get? here)).mpr (fields key a b here there)

end Json
end BundleMerge
