import BundleMerge.Proofs.Merger.Frame
import BundleMerge.Proofs.Session.Attempt

/-! Where the files that are reported to a session end up. A change is queued if its parts begin
with those of the output tree, and it is copied to where the rest of them leads from the target.
Nothing resolves that rest: a path that climbs out of the output tree by `..` is queued all the
same, and its copy climbs out of the target. -/
namespace BundleMerge.Session

variable {m : Merger} {s : Session} {call : Call} {calls : List Call} {src p cwd : Path}
  {n : Notification} {d : Disk} {copy : Path × Path}

theorem mem_recorded (member : p ∈ s.recorded call) : ∃ cwd n now, call = .notify cwd n now ∧
    p = s.collector.resolve cwd n ∧ p.startsWith s.collector.output = true := by
  cases call with
  | notify cwd n now =>
    simp only [recorded] at member
    split at member
    · rename_i kept
      rw [Bool.and_eq_true] at kept
      obtain rfl := List.mem_singleton.mp member
      exact ⟨cwd, n, now, rfl, rfl, kept.2⟩
    · cases member
  | poll now site | flush now site => cases member

/-- What is queued has been reported, and begins with the output tree. -/
theorem mem_queue (queued : src ∈ (after (ofMerger m) calls).queue) :
    ∃ cwd n now, .notify cwd n now ∈ calls ∧ src = (ofMerger m).collector.resolve cwd n ∧
      src.startsWith m.config.output = true := by
  have all : src ∈ (ofMerger m).queue ++ calls.flatMap (ofMerger m).recorded := by
    rw [← conserved]
    exact List.mem_append_right _ queued
  obtain ⟨call, called, recorded⟩ := List.mem_flatMap.mp all
  obtain ⟨cwd, n, now, rfl, resolved, inside⟩ := mem_recorded recorded
  exact ⟨cwd, n, now, called, resolved, inside⟩

/-! ### Where copies lie -/

/-- Both ends of a copy have the same parts beyond their trees, and these decide where they lie. -/
theorem copy_parts (accepted : m.options.Accepted) (tree : d.WellFormed)
    (inside : src.startsWith m.config.output = true) (copied : copy ∈ m.copiesOf d src) :
    ∃ rest, copy.1.parts = m.config.output.parts ++ rest ∧
      copy.2.parts = m.config.target.parts ++ rest ∧
      (copy.1.Inside m.config.output ↔ Path.Returns m.config.output.resolved rest) ∧
      (copy.2.Inside m.config.target ↔ Path.Returns m.config.target.resolved rest) ∧
      (m.Level src → (Path.climb rest).1 = 0) := by
  have from_ := Merger.absolute_of_inside accepted inside
  have target := Merger.target_absolute accepted
  obtain ⟨rel, found, destination⟩ := Merger.destination_parts accepted inside
  unfold Merger.copiesOf at copied
  rw [found] at copied
  obtain ⟨-, names, there, -, rfl⟩ := (Disk.mem_copies tree from_).mp copied
  have ordinary := tree.names_below there
  have first : (src.descend names).parts =
      m.config.output.parts ++ (m.beyond src ++ names.map .name) := by
    rw [Path.parts_descend ordinary, Merger.parts_beyond inside, List.append_assoc]
  have second : ((m.config.target.join rel).descend names).parts =
      m.config.target.parts ++ (m.beyond src ++ names.map .name) := by
    rw [Path.parts_descend ordinary, destination, List.append_assoc]
  have below : Path.Part.root ∉ m.beyond src ++ names.map .name := by
    simpa using Merger.root_not_mem_beyond accepted inside
  refine ⟨_, first, second, Path.inside_iff first below, Path.inside_iff second below, ?_⟩
  intro level
  rw [Path.climb_append_names]
  exact level

/-! ### Changes without `..` -/

/-- A change whose path has no `..` in it stands for a path that does not climb. -/
theorem resolve_level (accepted : m.options.Accepted) (base : cwd.isAbsolute = true)
    (from_ : Path.Part.up ∉ cwd.parts) (straight : Path.Part.up ∉ n.file.parts) :
    m.Level ((ofMerger m).collector.resolve cwd n) := by
  have seen : Path.Part.up ∉ ((Path.absolute? cwd n.file).getD n.file).parts := by
    cases resolved : Path.absolute? cwd n.file with
    | none => exact straight
    | some q => exact Path.absolute?_straight base from_ straight resolved
  unfold Collector.resolve
  generalize (Path.absolute? cwd n.file).getD n.file = file at seen ⊢
  dsimp only
  split
  · split
    · rename_i rel found
      have output := Merger.output_absolute accepted
      have inside := Path.startsWith_of_relativeTo? found
      obtain ⟨rel', found', relative, whole⟩ :=
        Path.relativeTo?_some accepted.input_absolute inside
      obtain rfl := Option.some.inj (found.symm.trans found')
      have further : m.beyond (m.config.output.join rel) =
          Path.body (Path.pieces rel.text.toList) := by
        rw [Merger.beyond, Path.parts_join (Path.nonempty_of_absolute output) relative,
          List.drop_left]
      apply Path.climb_straight
      change Path.Part.up ∉ m.beyond (m.config.output.join rel)
      rw [further]
      intro up
      exact seen (whole ▸ List.mem_append_right _ up)
    · exact Merger.level_of_straight seen
  · exact Merger.level_of_straight seen

/-! ### Runs on what was reported -/

/-- Each file that is copied for what was reported comes from a path in the output tree and goes to
a path in the target with the same parts beyond it, and it stays inside exactly if these parts
return from each climb. If no change that is queued climbs, all copies stay inside, and a run puts
no file outside the target. That is so if all changes are reported by paths without `..`. -/
theorem copies_confined (accepted : m.options.Accepted)
    (ordinary : ∀ slot, Path.Ordinary (m.config.files.get slot)) (calls : List Call) :
    let queue := (after (ofMerger m) calls).queue
    (∀ d : Disk, d.WellFormed → ∀ copy ∈ m.queueCopies d queue, ∃ rest,
      copy.1.parts = m.config.output.parts ++ rest ∧
      copy.2.parts = m.config.target.parts ++ rest ∧
      (copy.1.Inside m.config.output ↔ Path.Returns m.config.output.resolved rest) ∧
      (copy.2.Inside m.config.target ↔ Path.Returns m.config.target.resolved rest)) ∧
    ((∀ src ∈ queue, m.Level src) →
      (∀ d : Disk, d.WellFormed → ∀ copy ∈ m.queueCopies d queue,
        copy.1.Inside m.config.output ∧ copy.2.Inside m.config.target) ∧
      ∀ s : Site, s.disk.WellFormed → ∀ q, ¬ m.config.target.resolved <+: q →
        ((m.run queue).run s).2.disk.fileAt q = s.disk.fileAt q) ∧
    ((∀ cwd n now, .notify cwd n now ∈ calls →
        cwd.isAbsolute = true ∧ Path.Part.up ∉ cwd.parts ∧ Path.Part.up ∉ n.file.parts) →
      ∀ src ∈ queue, m.Level src) := by
  intro queue
  have inside : ∀ src ∈ queue, src.startsWith m.config.output = true := by
    intro src queued
    obtain ⟨cwd, n, now, -, -, inside⟩ := mem_queue queued
    exact inside
  refine ⟨?_, fun level => ⟨?_, ?_⟩, ?_⟩
  · intro d tree copy copied
    obtain ⟨src, queued, copied⟩ := List.mem_flatMap.mp copied
    obtain ⟨rest, first, second, from_, to_, -⟩ :=
      copy_parts accepted tree (inside src queued) copied
    exact ⟨rest, first, second, from_, to_⟩
  · intro d tree copy copied
    obtain ⟨src, queued, copied⟩ := List.mem_flatMap.mp copied
    obtain ⟨rest, -, -, from_, to_, flat⟩ := copy_parts accepted tree (inside src queued) copied
    have returns : ∀ place, Path.Returns place rest := fun place =>
      Path.returns_of_level (flat (level src queued))
    exact ⟨from_.mpr (returns _), to_.mpr (returns _)⟩
  · intro s tree q outside
    have built := Merger.run_writes accepted (fun src queued _ => level src queued) s tree
    apply built.fileAt_eq
    rwa [Merger.writes_iff accepted ordinary]
  · intro straight src queued
    obtain ⟨cwd, n, now, called, rfl, -⟩ := mem_queue queued
    obtain ⟨base, from_, plain⟩ := straight cwd n now called
    exact resolve_level accepted base from_ plain

def deepOptions : Options where
  config := { input := ⟨"/src"⟩, output := ⟨"/build/dist"⟩, target := ⟨"/site/out"⟩ }
  excludes := []

def deep : Merger := .ofOptions deepOptions

theorem deep_accepted : deep.options.Accepted :=
  ⟨⟨"/"⟩, deepOptions.config, deepOptions, by decide, rfl, rfl⟩

theorem deep_ordinary (slot : FileNames.Slot) : Path.Ordinary (deep.config.files.get slot) := by
  cases slot <;> decide

def deepSite : Site :=
  siteOf [(["build"], .dir), (["build", "dist"], .dir),
    (["build", "dist", "app.js"], .file ⟨#[49]⟩), (["build", "dist", "a.wxml"], .file ⟨#[50]⟩),
    (["build", "secret.js"], .file ⟨#[51]⟩)]

theorem deepSite_wellFormed : deepSite.disk.WellFormed :=
  .of_nodes (by decide)

/-- A change that is reported where it is written, as seen from the working directory. -/
theorem copies_confined_deep :
    let queue := (after (ofMerger deep) [.notify ⟨"/"⟩ ⟨⟨"src/a.wxml"⟩, .markup⟩ 0]).queue
    queue = [⟨"/build/dist/a.wxml"⟩] ∧
      deep.queueCopies deepSite.disk queue = [(⟨"/build/dist/a.wxml"⟩, ⟨"/site/out/a.wxml"⟩)] ∧
      ((⟨"/site/out/a.wxml"⟩ : Path).Inside deep.config.target) ∧
      ((deep.run queue).run deepSite).2.disk.fileAt ["build", "secret.js"] = some ⟨#[51]⟩ := by
  intro queue
  obtain ⟨-, confined, level⟩ := copies_confined deep_accepted deep_ordinary
    [.notify ⟨"/"⟩ ⟨⟨"src/a.wxml"⟩, .markup⟩ 0]
  have copies : deep.queueCopies deepSite.disk queue =
      [(⟨"/build/dist/a.wxml"⟩, ⟨"/site/out/a.wxml"⟩)] := by decide +kernel
  have straight : ∀ src ∈ queue, deep.Level src := by
    refine level fun cwd n now called => ?_
    cases List.mem_singleton.mp called
    decide +kernel
  obtain ⟨inside, spared⟩ := confined straight
  refine ⟨by decide +kernel, copies, ?_, ?_⟩
  · exact (inside deepSite.disk deepSite_wellFormed _ (copies ▸ List.mem_cons_self ..)).2
  · rw [spared deepSite deepSite_wellFormed _ (by decide +kernel)]
    decide +kernel

/-- A change that is reported by a path that climbs out of the output tree. -/
theorem copies_not_confined :
    let climbs : Notification := ⟨⟨"/build/dist/../secret.js"⟩, .script⟩
    let queue := (after (ofMerger deep) [.notify ⟨"/"⟩ climbs 0]).queue
    deep.options.Accepted ∧ (∀ slot, Path.Ordinary (deep.config.files.get slot)) ∧
      deepSite.disk.WellFormed ∧ queue.length < deep.config.fullCopyThreshold ∧
      (∃ copy ∈ deep.queueCopies deepSite.disk queue,
        ¬ copy.1.Inside deep.config.output ∧ ¬ copy.2.Inside deep.config.target) ∧
      deepSite.disk.fileAt ["site", "secret.js"] = none ∧
      ((deep.run queue).run deepSite).2.disk.fileAt ["site", "secret.js"] = some ⟨#[51]⟩ := by
  intro climbs queue
  exact ⟨deep_accepted, deep_ordinary, deepSite_wellFormed, by decide +kernel, by decide +kernel,
    by decide +kernel, by decide +kernel⟩

end BundleMerge.Session
