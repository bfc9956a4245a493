import BundleMerge.Proofs.Disk.Whole
import BundleMerge.Proofs.Json.Printer
import BundleMerge.Proofs.Manifest.File
import BundleMerge.Proofs.Manifest.Firsts
import BundleMerge.Proofs.Manifest.Keys
import BundleMerge.Proofs.Text.Bytes

/-! What a merge of manifests writes. It is what the merge answers, and it can be read back: a
merge repeats no key, and nests no deeper than the manifests that it was made of. -/
namespace BundleMerge.Manifest

open Json (Fields Storable Integral)

variable {d : Nat} {s s' : Site} {path primary secondary dest : Path} {hook : Option Hook}
  {fields more p q target source : Fields} {key : String} {v w : Json} {items : List Json}

/-! ### What is merged can be stored -/

/-- Fields that stand once each, with values that can be stored. -/
structure Stored (d : Nat) (fields : Fields) : Prop where
  distinct : fields.keys.Nodup
  each : ∀ field ∈ fields, Storable d field.2

theorem storable_object : Storable (d + 1) (.object fields) ↔ Stored d fields := by
  constructor
  · rintro (_ | _ | _ | _ | _ | ⟨distinct, each⟩)
    exact ⟨distinct, each⟩
  · exact fun ⟨distinct, each⟩ => .object distinct each

theorem storable_array : Storable (d + 1) (.array items) ↔ ∀ v ∈ items, Storable d v := by
  constructor
  · rintro (_ | _ | _ | _ | each)
    exact each
  · exact .array

namespace Stored

theorem get? (stored : Stored d fields) (found : fields.get? key = some v) : Storable d v :=
  stored.each _ (Fields.mem_of_get? found)

theorem insert (stored : Stored d fields) (value : Storable d v) :
    Stored d (fields.insert key v) :=
  ⟨Fields.nodup_insert stored.distinct, Storable.insert stored.each value⟩

theorem filter (stored : Stored d fields) (keeps : String × Json → Bool) :
    Stored d (fields.filter keeps) where
  distinct := stored.distinct.sublist ((List.filter_sublist ..).map _)
  each field member := stored.each field (List.mem_filter.mp member).1

theorem overlay (stored : Stored d fields) (each : ∀ field ∈ more, Storable d field.2) :
    Stored d (overlay fields more) := by
  induction more generalizing fields with
  | nil => exact stored
  | cons field more ih =>
    exact ih (stored.insert (each field (List.mem_cons_self ..)))
      fun field member => each field (List.mem_cons_of_mem _ member)

theorem itemsAt (stored : Stored (d + 1) fields) (key : String) :
    ∀ v ∈ itemsAt fields key, Storable d v := by
  unfold Manifest.itemsAt
  split
  · next items found => exact storable_array.mp (stored.get? found)
  · exact nofun

end Stored

theorem mergeField_storable {incoming : Option Json} (value : Storable d v)
    (other : ∀ w ∈ incoming, Storable d w) : Storable d (mergeField v incoming) := by
  unfold mergeField
  split
  · split
    · next items _ more =>
      obtain _ | _ | _ | _ | each := value
      have later := storable_array.mp (other _ rfl)
      refine .array fun v member => ?_
      obtain member | member := List.mem_append.mp member
      · exact each v member
      · exact later v member
    · exact value
  · split
    · next fields _ more =>
      obtain _ | _ | _ | _ | _ | ⟨distinct, each⟩ := value
      have later := storable_object.mp (other _ rfl)
      exact storable_object.mpr (Stored.overlay ⟨distinct, each⟩ later.each)
    · exact value
  · split
    · exact value
    · exact value
    · exact other _ rfl

theorem mergeFields_stored (ofTarget : Stored d target) (ofSource : Stored d source) :
    Stored d (mergeFields target source) := by
  constructor
  · exact nodup_keys_mergeFields ofTarget.distinct ofSource.distinct
  · intro field member
    obtain member | member := List.mem_append.mp member
    · obtain ⟨field, inside, rfl⟩ := List.mem_map.mp member
      exact mergeField_storable (ofTarget.each field inside) fun w found => ofSource.get? found
    · exact (ofSource.filter _).each field member

theorem dedupPages_stored (stored : Stored (d + 1) fields) :
    Stored (d + 1) (dedupPages fields) := by
  unfold dedupPages
  split
  · next pages found =>
    have each := storable_array.mp (stored.get? found)
    exact stored.insert (.array fun v member => each v (firsts_subset _ _ member))
  · exact stored

theorem gatherPackages_stored (stored : Stored (d + 1) fields) :
    Stored (d + 1) (gatherPackages fields) := by
  refine (stored.filter _).insert (.array fun v member => ?_)
  obtain member | member := List.mem_append.mp (firsts_subset _ _ member)
  · exact stored.itemsAt _ v member
  · exact stored.itemsAt _ v member

theorem merge_stored (ofTarget : Stored (d + 1) target) (ofSource : Stored (d + 1) source) :
    Stored (d + 1) (merge target source) :=
  gatherPackages_stored (dedupPages_stored (mergeFields_stored ofTarget ofSource))

theorem merge_storable {disk : Disk} (first : read disk primary = .ok p)
    (second : read disk secondary = .ok q) : Storable Json.deepest (.object (merge p q)) := by
  obtain ⟨_, -, first⟩ := read_ok_iff.mp first
  obtain ⟨_, -, second⟩ := read_ok_iff.mp second
  exact storable_object.mpr
    (merge_stored (storable_object.mp (Json.parse_storable first))
      (storable_object.mp (Json.parse_storable second)))

/-! ### What is written -/

/-- What a condition takes for false. -/
inductive Falsy : Json → Prop where
  | null : Falsy .null
  | false : Falsy (.bool false)
  | zero : Falsy (.number (.int 0))
  | floatZero {x : Binary64} (zero : x.isZero = true) : Falsy (.number (.float x))
  | empty : Falsy (.string "")

theorem falsy_iff : Falsy v ↔ v.isTruthy = false := by
  constructor
  · rintro (_ | _ | _ | zero | _)
    case floatZero => simpa [Json.isTruthy] using zero
    all_goals rfl
  · intro false
    unfold Json.isTruthy at false
    split at false
    · exact .null
    · subst false
      exact .false
    · obtain rfl : _ = (0 : Int) := by simpa using false
      exact .zero
    · exact .floatZero (by simpa using false)
    · obtain rfl : _ = "" := by simpa using false
      exact .empty
    · cases false
    · cases false

/-- What becomes of a question: the answer of the hook stands if it is not falsy. -/
inductive Settles (hook : Option Hook) (asked : Question) : Json → Prop where
  | hook {h : Hook} {v : Json} (given : hook = some h)
      (answer : h asked.merged asked.primary asked.secondary = some v) (truthy : ¬ Falsy v) :
      Settles hook asked v
  | merged (none : ∀ h ∈ hook, ∀ v ∈ h asked.merged asked.primary asked.secondary, Falsy v) :
      Settles hook asked asked.merged

theorem settle_settles (hook : Option Hook) (question : Question) :
    Settles hook question (settle hook question) := by
  unfold settle
  cases hook with
  | none => exact .merged nofun
  | some h =>
    rw [Option.bind_some]
    cases answer : h question.merged question.primary question.secondary with
    | none => exact .merged (by simp [answer])
    | some v =>
      dsimp only
      split
      · next truthy =>
        refine .hook rfl answer fun falsy => ?_
        rw [falsy_iff.mp falsy] at truthy
        cases truthy
      · next falsy => exact .merged (by simpa [answer, falsy_iff] using falsy)

theorem ask_run (hook : Option Hook) (question : Question) (s : Site) :
    (ask hook question).run s =
      (.ok (), { s with asked := s.asked ++ (hook.toList.map fun _ => question) }) := by
  cases hook with
  | none => simp [ask, Action.run_pure]
  | some h => rfl

theorem read_written (written : Disk.Wrote dest (text (.object fields)).toUTF8 s s')
    (storable : Storable Json.deepest (.object fields)) (integral : Integral (.object fields)) :
    read s'.disk dest = .ok fields :=
  read_ok_iff.mpr ⟨text (.object fields),
    Disk.readText_ok_iff.mpr ⟨_, written.read, Text.fromUTF8?_toUTF8 _⟩,
    Json.parse_write Json.pretty_spaced storable integral⟩

/-- A merge that succeeds has asked the hook once, if there is one, about the merged manifest and
the two it was made of. Its answer is what the hook put in its place, or the merged manifest. The
destination has the answer as text, and no other file has changed. If its numbers are integers,
the answer is read back from there as it is, with the same order of keys: the merged manifest in
any case, and another object if it can be stored and nests no deeper than can be read. -/
theorem mergeFiles_written (ran : (mergeFiles primary secondary dest hook).run s = (.ok v, s')) :
    ∃ p q, read s.disk primary = .ok p ∧ read s.disk secondary = .ok q ∧
      s'.asked = s.asked ++ (hook.toList.map fun _ =>
        ⟨.object (merge p q), .object p, .object q⟩) ∧
      Settles hook ⟨.object (merge p q), .object p, .object q⟩ v ∧
      (∃ place, s'.disk.locate dest = .ok place ∧
        s'.disk.fileAt place = some (v.write Json.pretty).toUTF8 ∧
        ∀ other, other ≠ place → s'.disk.fileAt other = s.disk.fileAt other) ∧
      ∀ fields, v = .object fields → Integral v →
        fields = merge p q ∨ Storable Json.deepest v → read s'.disk dest = .ok fields := by
  rw [mergeFiles_eq] at ran
  obtain ⟨⟨p, q⟩, s₁, looked, asking⟩ := Action.bind_ok ran
  obtain ⟨both, rfl⟩ := Action.look_ok looked
  obtain ⟨-, first, second⟩ := readBoth_ok_iff.mp both
  obtain ⟨_, s₂, asked, writing⟩ := Action.bind_ok asking
  obtain ⟨_, s₃, written, answered⟩ := Action.bind_ok writing
  obtain ⟨rfl, rfl⟩ := Action.pure_ok answered
  rw [ask_run] at asked
  cases asked
  have wrote := Disk.writeAtomic_wrote (Action.withError_ok written)
  refine ⟨p, q, first, second, wrote.asked, settle_settles hook (question p q), wrote.place, ?_⟩
  intro fields object integral storable
  rw [object] at wrote integral storable
  refine read_written wrote ?_ integral
  rcases storable with rfl | storable
  · exact merge_storable first second
  · exact storable

/-- The hook puts an object in place of the merged manifest, with a key that is escaped. -/
theorem mergeFiles_written_hooked :
    let s : Site := ⟨[(["p.json"], "\x7b\"a\":[1]\x7d"), (["q.json"], "\x7b\x7d")].foldl
      (fun d entry => d.assign entry.1 (.file entry.2.toUTF8)) (.empty []), []⟩
    let fields : Fields := [("b\n", .number (.int (-1))), ("a", .array [.null, .string "é"])]
    let hook : Hook := fun _ _ _ => some (.object fields)
    ∃ s', (mergeFiles ⟨"p.json"⟩ ⟨"q.json"⟩ ⟨"out/m.json"⟩ (some hook)).run s =
        (.ok (.object fields), s') ∧
      s'.asked.length = 1 ∧ read s'.disk ⟨"out/m.json"⟩ = .ok fields := by
  intro s fields hook
  let act := mergeFiles ⟨"p.json"⟩ ⟨"q.json"⟩ ⟨"out/m.json"⟩ (some hook)
  have succeeds : (act.run s).1.isOk = true := by decide +kernel
  obtain ⟨v, answer⟩ : ∃ v, (act.run s).1 = .ok v := by
    cases answer : (act.run s).1 with
    | error e => rw [answer] at succeeds; cases succeeds
    | ok v => exact ⟨v, rfl⟩
  have ran := Action.run_of_answer answer
  obtain ⟨p, q, -, -, asked, settles, -, back⟩ := mergeFiles_written ran
  have hooked : v = .object fields := by
    obtain ⟨given, found, -⟩ | none := settles
    · cases given
      cases found
      rfl
    · cases none hook rfl _ rfl
  subst hooked
  have integral : Integral (.object fields) := by
    refine .object (List.forall_mem_cons.mpr ⟨.int _, List.forall_mem_singleton.mpr (.array ?_)⟩)
    exact List.forall_mem_cons.mpr ⟨.null, List.forall_mem_singleton.mpr (.string _)⟩
  have storable : Storable Json.deepest (.object fields) := by
    refine .object (by decide) (List.forall_mem_cons.mpr ⟨.number (.int ?_ ?_), ?_⟩)
    · decide
    · decide
    · refine List.forall_mem_singleton.mpr (.array ?_)
      exact List.forall_mem_cons.mpr ⟨.null, List.forall_mem_singleton.mpr (.string _)⟩
  exact ⟨_, ran, by rw [asked]; rfl, back fields rfl integral (.inr storable)⟩

end BundleMerge.Manifest
