import BundleMerge.Json.Reader
import BundleMerge.Proofs.Json.Equality
import Mathlib.Algebra.Group.Int.Defs

/-! What can be read. A value that is read has no object with a key twice, since a key that comes
again takes the place of the first one; its integers fit into 64 bits; and its brackets are not
nested too deep. -/
namespace BundleMerge.Json

variable {fields : Fields} {key : String} {v : Json} {items : List Json} {text : String}
  {fuel depth : Nat} {first negative : Bool} {cs rest : List Char} {n : Number}

/-- A number that is a float, or has 64 bits with or without a sign. -/
inductive Number.Fits : Number → Prop where
  | int {n : Int} (low : -(2 : Int) ^ 63 ≤ n) (high : n < 2 ^ 64) : Fits (.int n)
  | float (x : Binary64) : Fits (.float x)

/-- No object in the value has a key twice, its integers fit, and at most so many brackets are
nested in it. -/
inductive Storable : Nat → Json → Prop where
  | null {d : Nat} : Storable d .null
  | bool {d : Nat} (b : Bool) : Storable d (.bool b)
  | number {d : Nat} {n : Number} (fits : n.Fits) : Storable d (.number n)
  | string {d : Nat} (s : String) : Storable d (.string s)
  | array {d : Nat} {items : List Json} (each : ∀ v ∈ items, Storable d v) :
      Storable (d + 1) (.array items)
  | object {d : Nat} {fields : Fields} (distinct : fields.keys.Nodup)
      (each : ∀ field ∈ fields, Storable d field.2) : Storable (d + 1) (.object fields)

namespace Storable

theorem wellFormed (storable : Storable depth v) : v.WellFormed := by
  induction storable with
  | null => exact .null
  | bool b => exact .bool b
  | number => exact .number _
  | string s => exact .string s
  | array each ih => exact .array ih
  | object distinct each ih => exact .object distinct ih

theorem insert (each : ∀ field ∈ fields, Storable depth field.2)
    (value : Storable depth v) : ∀ field ∈ fields.insert key v, Storable depth field.2 := by
  intro field member
  obtain rfl | member := Fields.mem_insert member
  · exact value
  · exact each field member

end Storable

theorem map_read {α β : Type} {x : Read α} {f : α → β} {b : β}
    (read : (x.map fun (a, rest) => (f a, rest)) = .ok (b, rest)) :
    ∃ a, x = .ok (a, rest) ∧ f a = b := by
  cases x with
  | error e => cases read
  | ok found =>
    cases read
    exact ⟨found.1, rfl, rfl⟩

/-! ### Numbers -/

theorem gather_le {n : Nat} (ds : List Char) (small : n ≤ maxNatural) :
    (gather n ds).1 ≤ maxNatural := by
  induction ds generalizing n with
  | nil => exact small
  | cons d ds ih =>
    rw [gather]
    split
    · exact ih ‹_›
    · exact small

theorem floatOr_fits {scaled : Option Binary64}
    (read : floatOr negative cs scaled = .ok (n, rest)) : n.Fits := by
  cases scaled with
  | none => cases read
  | some x =>
    cases read
    exact .float _

theorem readFloat_fits {significand : Nat} {e : Int}
    (read : readFloat negative significand e cs = .ok (n, rest)) : n.Fits :=
  floatOr_fits read

theorem readExponent_fits {significand : Nat} {e : Int}
    (read : readExponent negative significand e cs = .ok (n, rest)) : n.Fits := by
  unfold readExponent at read
  split at read
  next down cs _ =>
  split at read
  · cases read
  · next c after =>
    split at read
    · cases read
    · dsimp only at read
      generalize gatherExponent 0 _ = gathered at read
      split at read
      · exact readFloat_fits read
      · split at read
        · cases read
        · obtain ⟨rfl, -⟩ := Prod.mk.inj (Except.ok.inj read)
          exact .float _

theorem readTail_fits {significand : Nat} {e : Int}
    (read : readTail negative significand e cs = .ok (n, rest)) : n.Fits := by
  unfold readTail at read
  split at read
  · exact readExponent_fits read
  · exact readExponent_fits read
  · exact readFloat_fits read

theorem readAfterDigits_fits {significand : Nat} {excess : List Char}
    (small : significand ≤ maxNatural)
    (read : readAfterDigits negative significand excess cs = .ok (n, rest)) : n.Fits := by
  have bound : maxNatural = 2 ^ 64 - 1 := rfl
  unfold readAfterDigits at read
  split at read
  · unfold readFraction at read
    dsimp only at read
    split at read
    · cases read
    · exact readTail_fits read
  · exact readTail_fits read
  · exact readTail_fits read
  · split at read
    · exact readFloat_fits read
    · split at read
      · cases read
        exact .int (by omega) (by omega)
      · split at read
        · exact readFloat_fits read
        · rename_i low
          simp only [Bool.or_eq_true, decide_eq_true_eq, not_or, gt_iff_lt, Nat.not_lt] at low
          have half : Nat.pow 2 63 = 2 ^ 63 := rfl
          cases read
          exact .int (by omega) (by omega)

theorem readNumber_fits (read : readNumber negative cs = .ok (n, rest)) : n.Fits := by
  unfold readNumber at read
  split at read
  · cases read
  · split at read
    · split at read
      · cases read
      · exact readAfterDigits_fits (Nat.zero_le _) read
    · split at read
      · exact readAfterDigits_fits (gather_le _ (Nat.zero_le _)) read
      · cases read

/-! ### Values -/

/-- What one round of the readers reads, if what the rounds after it read can be stored. -/
structure ReadsWell (fuel : Nat) : Prop where
  value : ∀ {depth cs v rest}, readValue fuel (depth + 1) cs = .ok (v, rest) → Storable depth v
  items : ∀ {depth first cs items rest},
    readItems fuel (depth + 1) first cs = .ok (items, rest) → ∀ v ∈ items, Storable depth v
  fields : ∀ {depth first known cs fields rest},
    (Fields.keys known).Nodup → (∀ field ∈ known, Storable depth field.2) →
    readFields fuel (depth + 1) first known cs = .ok (fields, rest) →
      fields.keys.Nodup ∧ ∀ field ∈ fields, Storable depth field.2

theorem readValue_storable (later : ReadsWell fuel)
    (read : readValue (fuel + 1) (depth + 1) cs = .ok (v, rest)) : Storable depth v := by
  have word {x : Except Fault (List Char)} {w : Json} (storable : Storable depth w)
      (read : x.map (fun rest => (w, rest)) = .ok (v, rest)) : Storable depth v := by
    cases x <;> cases read
    exact storable
  rw [readValue] at read
  split at read
  · cases read
  · exact word .null read
  · exact word (.bool true) read
  · exact word (.bool false) read
  · obtain ⟨n, number, rfl⟩ := map_read read
    exact .number (readNumber_fits number)
  · obtain ⟨s, -, rfl⟩ := map_read read
    exact .string s
  · split at read
    · cases read
    · next shallow =>
      obtain ⟨items, inside, rfl⟩ := map_read read
      obtain ⟨inner, rfl⟩ := Nat.exists_eq_succ_of_ne_zero (show depth ≠ 0 by omega)
      exact .array (later.items inside)
  · split at read
    · cases read
    · next shallow =>
      obtain ⟨fields, inside, rfl⟩ := map_read read
      obtain ⟨inner, rfl⟩ := Nat.exists_eq_succ_of_ne_zero (show depth ≠ 0 by omega)
      have empty : Fields.keys [] = [] := rfl
      obtain ⟨distinct, each⟩ := later.fields (empty ▸ List.nodup_nil) (by simp) inside
      exact .object distinct each
  · split at read
    · obtain ⟨n, number, rfl⟩ := map_read read
      exact .number (readNumber_fits number)
    · cases read

theorem readItems_storable (later : ReadsWell fuel)
    (read : readItems (fuel + 1) (depth + 1) first cs = .ok (items, rest)) :
    ∀ v ∈ items, Storable depth v := by
  rw [readItems] at read
  repeat' split at read
  all_goals try contradiction
  · cases read
    exact nofun
  -- An item is read in one way, whether it is the first one or comes after a comma.
  all_goals
    dsimp only at read
    split at read
    · contradiction
    · next value =>
      obtain ⟨others, after, rfl⟩ := map_read read
      exact List.forall_mem_cons.mpr ⟨later.value value, later.items after⟩

theorem readFields_storable {known : Fields} (later : ReadsWell fuel)
    (distinct : known.keys.Nodup) (each : ∀ field ∈ known, Storable depth field.2)
    (read : readFields (fuel + 1) (depth + 1) first known cs = .ok (fields, rest)) :
    fields.keys.Nodup ∧ ∀ field ∈ fields, Storable depth field.2 := by
  rw [readFields] at read
  repeat' split at read
  all_goals try contradiction
  · cases read
    exact ⟨distinct, each⟩
  all_goals
    dsimp only at read
    repeat' split at read
    all_goals try contradiction
    next value =>
      exact later.fields (Fields.nodup_insert distinct)
        (Storable.insert each (later.value value)) read

theorem readsWell (fuel : Nat) : ReadsWell fuel := by
  induction fuel with
  | zero => constructor <;> intros <;> contradiction
  | succ fuel later =>
    exact ⟨readValue_storable later, readItems_storable later, readFields_storable later⟩

/-- The deepest nesting that is not refused. -/
def deepest : Nat := depthLimit - 1

theorem parse_storable (parsed : parse text = .ok v) : Storable deepest v := by
  rw [parse, readAll] at parsed
  split at parsed
  · cases parsed
  · next read =>
    split at parsed
    · cases parsed
      exact (readsWell _).value read
    · cases parsed

theorem parse_wellFormed (parsed : parse text = .ok v) : v.WellFormed :=
  (parse_storable parsed).wellFormed

end BundleMerge.Json
