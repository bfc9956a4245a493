import BundleMerge.Manifest.File
import BundleMerge.Proofs.Disk.Write
import BundleMerge.Proofs.Json.Reader

/-! What merging two manifest files does. If the secondary manifest is there, both are read and
the result is written; if it is not, nothing happens. -/
namespace BundleMerge.Manifest

open Json (Fields)

variable {d : Disk} {s s' : Site} {path primary secondary dest : Path} {place : Place}
  {fields p q : Fields} {hook : Option Hook} {v : Json}

theorem read_ok_iff : read d path = .ok fields ↔
    ∃ text, d.readText path = .ok text ∧ Json.parse text = .ok (.object fields) := by
  unfold read
  cases d.readText path with
  | error e => simp
  | ok text =>
    simp only [Except.ok.injEq, exists_eq_left']
    split <;> simp_all

theorem read_wellFormed (found : read d path = .ok fields) : (Json.object fields).WellFormed := by
  obtain ⟨text, -, parsed⟩ := read_ok_iff.mp found
  exact Json.parse_wellFormed parsed

theorem read_not_missing {missing : Path} : read d path ≠ .error (.manifestMissing missing) := by
  unfold read
  split
  · simp
  · split <;> simp

/-- A manifest outside the region for files is read as before, if the way to it was open. -/
theorem read_kept {d' : Disk} {dirs files : Place → Prop} (built : Disk.Builds dirs files d d')
    (absolute : path.isAbsolute = true) (open_ : d.Passes path.parts)
    (noFile : ¬ files path.resolved) : read d' path = .ok fields ↔ read d path = .ok fields := by
  rw [read_ok_iff, read_ok_iff]
  exact exists_congr fun text => and_congr_left fun _ => built.readText_iff absolute open_ noFile

/-- Which manifest can be read at a path depends on its text, and on the file there. -/
theorem read_ok_congr {d' : Disk} {path' : Path} {place' : Place} (tree : d.WellFormed)
    (tree' : d'.WellFormed) (leads : path.LeadsTo place) (leads' : path'.LeadsTo place')
    (free : path'.NulFree ↔ path.NulFree) (names : path'.namesDirectory = path.namesDirectory)
    (same : d'.fileAt place' = d.fileAt place) :
    read d' path' = .ok fields ↔ read d path = .ok fields := by
  rw [read_ok_iff, read_ok_iff]
  refine exists_congr fun text => and_congr_left fun _ => ?_
  rw [Disk.readText_ok_iff_file tree' leads', Disk.readText_ok_iff_file tree leads, free, names,
    same]

/-- The way to a manifest that can be read is open. -/
theorem passes_of_read (absolute : path.isAbsolute = true) (found : read d path = .ok fields) :
    d.Passes path.parts ∧ d.existsAt path = true := by
  obtain ⟨text, found, -⟩ := read_ok_iff.mp found
  obtain ⟨bytes, found, -⟩ := Disk.readText_ok_iff.mp found
  obtain ⟨-, open_, -⟩ := (Disk.read_ok_iff_passes absolute).mp found
  exact ⟨open_, Disk.existsAt_iff.mpr ⟨_, Disk.read_ok_iff_stat.mp found⟩⟩

theorem readBoth_ok_iff : readBoth d primary secondary = .ok (p, q) ↔
    d.existsAt secondary = true ∧ read d primary = .ok p ∧ read d secondary = .ok q := by
  unfold readBoth
  split
  · rename_i there
    cases read d primary with
    | error e => simp
    | ok p' => cases read d secondary <;> simp [Except.map, there]
  · simp [*]

theorem readBoth_missing {missing : Path}
    (failed : readBoth d primary secondary = .error (.manifestMissing missing)) :
    d.existsAt secondary = false := by
  unfold readBoth at failed
  split at failed
  · split at failed
    · rename_i unread
      cases failed
      exact absurd unread read_not_missing
    · cases unread : read d secondary with
      | error e =>
        rw [unread] at failed
        cases failed
        exact absurd unread read_not_missing
      | ok q => rw [unread] at failed; cases failed
  · rename_i absent
    exact Bool.eq_false_iff.mpr absent

theorem write_along (absolute : dest.isAbsolute = true) :
    Action.Builds (Disk.along dest.parts) (· = dest.resolved) (write dest v) :=
  .withError (Disk.writeAtomic_along absolute)

/-- Notes a question, if there is a hook to be asked. -/
def ask (hook : Option Hook) (q : Question) : Action Failure Unit :=
  if hook.isSome then Action.note q else pure ()

theorem ask_builds {dirs files : Place → Prop} {q : Question} :
    Action.Builds dirs files (ask hook q) := by
  unfold ask
  split
  · exact .note _
  · exact .pure _

theorem ask_not_error {q : Question} {e : Failure} : (ask hook q).run s ≠ (.error e, s') := by
  unfold ask
  split <;> simp [Action.run_note, Action.run_pure]

/-- A merge of files is a look at both, a question to the hook, and a write. -/
theorem mergeFiles_eq : mergeFiles primary secondary dest hook = (do
    let both ← Action.look (readBoth · primary secondary)
    let q := question both.1 both.2
    let _ ← ask hook q
    write dest (settle hook q)
    pure (settle hook q)) := by
  unfold mergeFiles
  refine bind_congr fun both => ?_
  dsimp only [ask]
  split <;> simp

theorem mergeFiles_along (absolute : dest.isAbsolute = true) :
    Action.Builds (Disk.along dest.parts) (· = dest.resolved)
      (mergeFiles primary secondary dest hook) := by
  rw [mergeFiles_eq]
  refine .bind (.look _) fun both => .bind ask_builds fun _ => ?_
  exact .bind (write_along absolute) fun _ => .pure _

theorem mergeFilesIfPresent_along (absolute : dest.isAbsolute = true) :
    Action.Builds (Disk.along dest.parts) (· = dest.resolved)
      (mergeFilesIfPresent primary secondary dest hook) := by
  refine .tryCatch (.bind (mergeFiles_along absolute) fun _ => .pure _) fun e => ?_
  split
  · exact .pure _
  · exact .throw _

theorem mergeFilesIfPresent_builds (leads : dest.LeadsTo place) :
    Action.Builds (· <+: place) (· = place) (mergeFilesIfPresent primary secondary dest hook) := by
  have built : Action.Builds _ _ (mergeFilesIfPresent primary secondary dest hook) :=
    mergeFilesIfPresent_along leads.absolute
  rw [leads.resolved] at built
  exact built.mono (fun q => Disk.along_straight leads) fun _ => id

theorem mergeFiles_ok (tree : s.disk.WellFormed) (absolute : dest.isAbsolute = true)
    (ran : (mergeFiles primary secondary dest hook).run s = (.ok v, s')) :
    ∃ p q, readBoth s.disk primary secondary = .ok (p, q) ∧ v = settle hook (question p q) ∧
      s'.disk.fileAt dest.resolved = some (text v).toUTF8 := by
  rw [mergeFiles_eq] at ran
  obtain ⟨⟨p, q⟩, s₁, looked, asking⟩ := Action.bind_ok ran
  obtain ⟨both, rfl⟩ := Action.look_ok looked
  obtain ⟨_, s₂, asked, writing⟩ := Action.bind_ok asking
  obtain ⟨_, s₃, written, answered⟩ := Action.bind_ok writing
  obtain ⟨rfl, rfl⟩ := Action.pure_ok answered
  have same : Disk.Builds Disk.nowhere Disk.nowhere s₁.disk s₂.disk := ask_builds.of_run tree asked
  have file := Disk.writeAtomic_ok (same.wellFormed tree) absolute (Action.withError_ok written)
  exact ⟨p, q, both, rfl, file⟩

/-- Only a manifest that is not there is reported missing, and then nothing has happened. -/
theorem mergeFiles_missing {missing : Path}
    (ran : (mergeFiles primary secondary dest hook).run s = (.error (.manifestMissing missing), s')) :
    s.disk.existsAt secondary = false ∧ s' = s := by
  rw [mergeFiles_eq] at ran
  obtain looked | ⟨both, s₁, -, asking⟩ := Action.bind_error ran
  · obtain ⟨failed, rfl⟩ := Action.look_error looked
    exact ⟨readBoth_missing failed, rfl⟩
  · obtain noted | ⟨_, s₂, -, writing⟩ := Action.bind_error asking
    · exact absurd noted ask_not_error
    · obtain written | ⟨_, s₃, -, answered⟩ := Action.bind_error writing
      · obtain ⟨cause, -, same⟩ := Action.withError_error written
        cases same
      · cases answered

/-- A merge is skipped exactly if the secondary manifest is not there. -/
theorem mergeFilesIfPresent_eq : mergeFilesIfPresent primary secondary dest hook = (do
    let present ← Action.look fun d => .ok (d.existsAt secondary)
    if present then do
      let _ ← mergeFiles primary secondary dest hook
      pure true
    else pure false) := by
  apply Action.ext_run
  intro s
  rw [mergeFilesIfPresent, Action.run_tryCatch, Action.run_bind, Action.run_bind, Action.run_look]
  cases present : s.disk.existsAt secondary with
  | false =>
    have skipped : (mergeFiles primary secondary dest hook).run s =
        (.error (.manifestMissing secondary), s) := by
      rw [mergeFiles_eq, Action.run_bind, Action.run_look, readBoth, present]
      rfl
    rw [skipped]
    rfl
  | true =>
    generalize merging : (mergeFiles primary secondary dest hook).run s = outcome
    obtain ⟨answer, s'⟩ := outcome
    dsimp only
    rw [if_pos rfl, Action.run_bind, merging]
    cases answer with
    | ok v => rfl
    | error e =>
      dsimp only
      split
      · -- With the manifest there, no merge reports it missing.
        obtain ⟨absent, -⟩ := mergeFiles_missing merging
        rw [present] at absent
        cases absent
      · rfl

/-- What a merge that is skipped without a secondary manifest leaves, and what it answers. -/
theorem mergeFilesIfPresent_ok {merged : Bool} (tree : s.disk.WellFormed)
    (absolute : dest.isAbsolute = true)
    (ran : (mergeFilesIfPresent primary secondary dest hook).run s = (.ok merged, s')) :
    (s.disk.existsAt secondary = false ∧ merged = false ∧ s' = s) ∨
      ∃ p q, readBoth s.disk primary secondary = .ok (p, q) ∧ merged = true ∧
        s'.disk.fileAt dest.resolved = some (text (settle hook (question p q))).toUTF8 := by
  rw [mergeFilesIfPresent_eq] at ran
  obtain ⟨present, s₁, looked, merging⟩ := Action.bind_ok ran
  obtain ⟨found, rfl⟩ := Action.look_ok looked
  obtain rfl := Except.ok.inj found
  split at merging
  · obtain ⟨v, s₂, merging, answered⟩ := Action.bind_ok merging
    obtain ⟨rfl, rfl⟩ := Action.pure_ok answered
    obtain ⟨p, q, both, rfl, file⟩ := mergeFiles_ok tree absolute merging
    exact .inr ⟨p, q, both, rfl, file⟩
  · rename_i absent
    obtain ⟨rfl, rfl⟩ := Action.pure_ok merging
    exact .inl ⟨Bool.eq_false_iff.mpr absent, rfl, rfl⟩

end BundleMerge.Manifest
