import BundleMerge.Proofs.Disk.Failing
import BundleMerge.Proofs.Manifest.Written

/-! What a merge of manifests leaves that fails, and what it reports. It looks at the manifests
before it does anything else, the secondary one first for whether it is there and last for what
it says. -/
namespace BundleMerge.Manifest

open Json (Fields)

/-- Why there is no manifest in a file: it cannot be read, or what it says is no JSON, or it is
JSON of another kind. -/
inductive Unreadable (d : Disk) (path : Path) : Failure → Prop where
  | file {cause : DiskError} (unread : d.readText path = .error cause) :
      Unreadable d path (.disk cause)
  | text {text : String} {fault : Json.Error} (found : d.readText path = .ok text)
      (malformed : Json.parse text = .error fault) :
      Unreadable d path (.manifestParse path fault.message)
  | kind {text : String} {v : Json} (found : d.readText path = .ok text)
      (parsed : Json.parse text = .ok v) (other : ∀ fields, v ≠ .object fields) :
      Unreadable d path
        (.manifestParse path ("top-level value is " ++ v.kind ++ ", expected an object"))

/-- Why a merge cannot begin. -/
inductive Refused (d : Disk) (primary secondary : Path) : Failure → Prop where
  | missing (absent : d.existsAt secondary = false) :
      Refused d primary secondary (.manifestMissing secondary)
  | primary {e : Failure} (present : d.existsAt secondary = true) (bad : Unreadable d primary e) :
      Refused d primary secondary e
  | secondary {e : Failure} {fields : Fields} (present : d.existsAt secondary = true)
      (good : read d primary = .ok fields) (bad : Unreadable d secondary e) :
      Refused d primary secondary e

variable {d : Disk} {s s' : Site} {path primary secondary dest : Path} {hook : Option Hook}
  {e : Failure}

theorem read_error_iff : read d path = .error e ↔ Unreadable d path e := by
  constructor
  · intro failed
    unfold read at failed
    split at failed
    · next cause unread =>
      cases failed
      exact .file unread
    · next text found =>
      split at failed
      · next fault malformed =>
        cases failed
        exact .text found malformed
      · cases failed
      · next v other parsed =>
        cases failed
        exact .kind found parsed other
  · intro bad
    cases bad with
    | file unread => rw [read, unread]
    | text found malformed => simp only [read, found, malformed]
    | @kind text v found parsed other =>
      cases v with
      | object fields => exact absurd rfl (other fields)
      | _ => simp only [read, found, parsed]

theorem readBoth_error_iff :
    readBoth d primary secondary = .error e ↔ Refused d primary secondary e := by
  constructor
  · intro failed
    unfold readBoth at failed
    split at failed
    · next present =>
      split at failed
      · next bad =>
        cases failed
        exact .primary present (read_error_iff.mp bad)
      · next good =>
        cases bad : read d secondary with
        | ok q =>
          rw [bad] at failed
          cases failed
        | error e' =>
          rw [bad] at failed
          cases failed
          exact .secondary present good (read_error_iff.mp bad)
    · next absent =>
      cases failed
      exact .missing (Bool.eq_false_iff.mpr absent)
  · intro refused
    cases refused with
    | missing absent => simp [readBoth, absent]
    | primary present bad => simp [readBoth, present, read_error_iff.mpr bad]
    | secondary present good bad =>
      simp [readBoth, present, good, read_error_iff.mpr bad, Except.map]

theorem Unreadable.not_missing {missing : Path} : ¬ Unreadable d path (.manifestMissing missing) :=
  fun bad => read_not_missing (read_error_iff.mpr bad)

theorem Refused.missing_iff (refused : Refused d primary secondary e) :
    (d.existsAt secondary = false ↔ e = .manifestMissing secondary) ∧
      ∀ missing, e = .manifestMissing missing → missing = secondary := by
  cases refused with
  | missing absent =>
    refine ⟨iff_of_true absent rfl, ?_⟩
    rintro missing ⟨⟩
    rfl
  | primary present bad | secondary present _ bad =>
    constructor
    · constructor
      · intro absent
        rw [present] at absent
        cases absent
      · rintro rfl
        exact absurd bad Unreadable.not_missing
    · rintro missing rfl
      exact absurd bad Unreadable.not_missing

/-- A merge that fails could not begin, or the result could not be written. -/
theorem mergeFiles_error
    (ran : (mergeFiles primary secondary dest hook).run s = (.error e, s')) :
    (Refused s.disk primary secondary e ∧ s' = s) ∨
      ∃ p q cause, read s.disk primary = .ok p ∧ read s.disk secondary = .ok q ∧
        s.disk.existsAt secondary = true ∧ e = .disk cause ∧
        (Disk.writeAtomic dest (text (settle hook (question p q))).toUTF8).run
          { s with asked := s.asked ++ (hook.toList.map fun _ => question p q) } =
            (.error cause, s') := by
  rw [mergeFiles_eq] at ran
  obtain looked | ⟨⟨p, q⟩, s₁, looked, asking⟩ := Action.bind_error ran
  · obtain ⟨failed, rfl⟩ := Action.look_error looked
    exact .inl ⟨readBoth_error_iff.mp failed, rfl⟩
  · obtain ⟨both, rfl⟩ := Action.look_ok looked
    obtain ⟨present, first, second⟩ := readBoth_ok_iff.mp both
    obtain asked | ⟨_, s₂, asked, writing⟩ := Action.bind_error asking
    · exact absurd asked ask_not_error
    · rw [ask_run] at asked
      cases asked
      obtain written | ⟨_, s₃, -, answered⟩ := Action.bind_error writing
      · obtain ⟨cause, failed, rfl⟩ := Action.withError_error written
        exact .inr ⟨p, q, cause, first, second, present, rfl, failed⟩
      · cases answered

/-- A merge that cannot begin reports why, and does nothing. If a merge fails, no file has changed,
and the destination reads as before; that the secondary manifest is missing is reported exactly
if it is; and unless it is the writing of the result that fails, it is as if nothing had been
done. -/
theorem mergeFiles_all_or_nothing (tree : s.disk.WellFormed) :
    (∀ e, Refused s.disk primary secondary e →
      (mergeFiles primary secondary dest hook).run s = (.error e, s)) ∧
    ∀ e s', (mergeFiles primary secondary dest hook).run s = (.error e, s') →
      (∀ q, s'.disk.fileAt q = s.disk.fileAt q) ∧
      (∀ bytes, s'.disk.read dest = .ok bytes ↔ s.disk.read dest = .ok bytes) ∧
      ((s.disk.existsAt secondary = false ↔ e = .manifestMissing secondary) ∧
        ∀ missing, e = .manifestMissing missing → missing = secondary) ∧
      ((Refused s.disk primary secondary e ∧ s' = s) ∨
        ∃ p q cause, read s.disk primary = .ok p ∧ read s.disk secondary = .ok q ∧
          e = .disk cause ∧
          (Disk.writeAtomic dest (text (settle hook (question p q))).toUTF8).run
            { s with asked := s.asked ++ (hook.toList.map fun _ => question p q) } =
              (.error cause, s')) := by
  constructor
  · intro e refused
    rw [mergeFiles_eq, Action.run_bind, Action.run_look, readBoth_error_iff.mpr refused]
  · intro e s' ran
    obtain ⟨refused, rfl⟩ | ⟨p, q, cause, first, second, present, rfl, failed⟩ :=
      mergeFiles_error ran
    · exact ⟨fun _ => rfl, fun _ => Iff.rfl, refused.missing_iff, .inl ⟨refused, rfl⟩⟩
    · let s₁ : Site := ⟨s.disk, s.asked ++ (hook.toList.map fun _ => question p q)⟩
      obtain ⟨-, built, unread⟩ := Disk.writeAtomic_failed (s := s₁) tree failed
      refine ⟨fun q => built.fileAt_eq id, fun bytes => ?_, ?_,
        .inr ⟨p, q, cause, first, second, rfl, failed⟩⟩
      · exact iff_of_false (unread bytes) fun found => unread bytes (built.read_ok found)
      · simp [present]

/-- The destination is a directory: the hook has been asked, and nothing else has happened. Where
the primary manifest is also the destination and is no object, it stays. Nothing is said of it if
there is no secondary manifest. -/
theorem mergeFiles_all_or_nothing_faults :
    let s : Site := ⟨[(["list.json"], .file "[]".toUTF8), (["a.json"], .file "\x7b\x7d".toUTF8),
      (["out"], .dir)].foldl (fun d entry => d.assign entry.1 entry.2) (.empty []), []⟩
    let hook : Hook := fun _ _ _ => none
    (∃ s', (mergeFiles ⟨"a.json"⟩ ⟨"a.json"⟩ ⟨"out"⟩ (some hook)).run s =
        (.error (.disk DiskError.isDirectory), s') ∧ s'.asked.length = 1 ∧
        ∀ q, s'.disk.fileAt q = s.disk.fileAt q) ∧
      (mergeFiles ⟨"list.json"⟩ ⟨"a.json"⟩ ⟨"list.json"⟩ (some hook)).run s =
        (.error (.manifestParse ⟨"list.json"⟩ "top-level value is an array, expected an object"), s) ∧
      (mergeFiles ⟨"list.json"⟩ ⟨"b.json"⟩ ⟨"list.json"⟩ (some hook)).run s =
        (.error (.manifestMissing ⟨"b.json"⟩), s) := by
  intro s hook
  have tree : s.disk.WellFormed := .of_nodes (by decide +kernel)
  refine ⟨?_, ?_, ?_⟩
  · have failed : (match ((mergeFiles ⟨"a.json"⟩ ⟨"a.json"⟩ ⟨"out"⟩ (some hook)).run s).1 with
        | .error e => decide (e = .disk DiskError.isDirectory)
        | .ok _ => false) = true := by decide +kernel
    split at failed
    · next e answer =>
      obtain rfl := of_decide_eq_true failed
      have ran := Action.run_of_answer answer
      obtain ⟨files, -⟩ := (mergeFiles_all_or_nothing tree).2 _ _ ran
      exact ⟨_, ran, by decide +kernel, files⟩
    · cases failed
  · apply (mergeFiles_all_or_nothing tree).1
    refine .primary (by decide +kernel) ?_
    exact @Unreadable.kind _ _ "[]" (.array []) (by decide +kernel) rfl nofun
  · exact (mergeFiles_all_or_nothing tree).1 _ (.missing (by decide +kernel))

end BundleMerge.Manifest
