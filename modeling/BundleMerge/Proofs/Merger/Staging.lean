import BundleMerge.Proofs.Merger.Staged

/-! How often the staged manifest is merged: once in each pass that comes to the manifest, however
often the manifest stands in its queue, and whatever stands beside it. All else that a pass does is
copying, which brings neither the entry script nor the manifest. -/
namespace BundleMerge.Merger

variable {m : Merger} {s s' : Site} {d d' : Disk} {queue : List Path} {names : List String}
  {copy : Path × Path} {seen : Bool} {slots : List FileNames.Slot}

/-! ### Counting -/

theorem straight_of_inOutput (queued : ∀ src ∈ queue, m.InOutput src) : m.Straight queue :=
  fun src member _ up => (queued src member).straight (List.mem_of_mem_drop up)

/-- What is written into the target leaves the files of the output tree. -/
theorem output_kept (separate : m.Separate) (output : m.config.output.LeadsTo m.config.output.names)
    (built : Disk.Builds anywhere (m.Besides slots) d d') (names : List String) :
    d'.fileAt (m.config.output.names ++ names) = d.fileAt (m.config.output.names ++ names) := by
  rw [← output.resolved]
  exact built.fileAt_eq (not_besides_output separate)

theorem stageIf_besides {first : Bool} (separate : m.Separate) :
    Action.Builds anywhere (m.Besides []) (m.stageIf first) := by
  unfold stageIf
  split
  · refine (mergeStaged_along separate).mono (fun _ => id) ?_
    rintro q rfl
    exact besides_of_slot separate List.not_mem_nil List.prefix_rfl
  · exact .pure false

/-- The pass answers how many files it has copied, counted on the disk that it started with. -/
theorem copyQueued_count {answer : Nat × Bool} (separate : m.Separate) (tree : s.disk.WellFormed)
    (queued : ∀ src ∈ queue, m.InOutput src)
    (ran : (m.copyQueued seen queue).run s = (.ok answer, s')) :
    answer.1 = (m.queueCopies s.disk queue).length := by
  have accepted := separate.accepted
  induction queue generalizing s s' seen answer with
  | nil =>
    obtain ⟨rfl, -⟩ := Action.pure_ok ran
    rfl
  | cons src queue ih =>
    obtain ⟨first, others⟩ := List.forall_mem_cons.mp queued
    obtain ⟨rel, found, -⟩ := first.relative accepted
    have output := first.output accepted
    obtain ⟨names, from_, to_⟩ := queued_ends separate found fun up =>
      first.straight (List.mem_of_mem_drop up)
    obtain ⟨merged, n, rest, s₁, s₂, staging, copied, copiedRest, rfl⟩ :=
      copyQueued_cons_ok found ran
    have staged := (stageIf_besides separate).of_run tree staging
    have tree₁ := staged.wellFormed tree
    have built := (copy_besides_own separate from_ to_).of_run tree₁ copied
    have tree₂ := built.wellFormed tree₁
    have same₁ := output_kept separate output staged
    have same₂ := fun names => (output_kept separate output built names).trans (same₁ names)
    have here : n = (m.copiesOf s₁.disk src).length := by
      rw [copiesOf, found]
      exact Disk.copy_count copied
    rw [here, ih tree₂ others copiedRest, copiesOf_congr accepted tree tree₁ first same₁,
      queueCopies_congr accepted tree tree₂ others same₂, queueCopies, queueCopies,
      List.flatMap_cons, List.length_append]

/-- No copy is made of the entry script or the manifest. -/
theorem own_not_copied (accepted : m.options.Accepted) (tree : d.WellFormed)
    (queued : ∀ src ∈ queue, m.InOutput src) (copied : copy ∈ m.queueCopies d queue) :
    copy.1.sameAs m.config.primaryEntry = false ∧
      copy.1.sameAs m.config.primaryManifest = false := by
  obtain ⟨src, member, copied⟩ := List.mem_flatMap.mp copied
  obtain ⟨rel, found, -⟩ := (queued src member).relative accepted
  obtain ⟨-, names, -, left, rfl⟩ :=
    (mem_copiesOf accepted tree (queued src member) found).mp copied
  have kept := Disk.cutOff_eq_false_iff.mp left names List.prefix_rfl
  rw [excluded, Bool.or_eq_false_iff, Bool.or_eq_false_iff] at kept
  exact kept.1

/-! ### The merge -/

namespace Stretches

variable {found left : Site} {answer : Nat × Bool} (separate : m.Separate)
  (tree : s.disk.WellFormed) (queued : ∀ src ∈ queue, m.InOutput src)
  (stretches : m.Stretches queue s found left s' answer)

include separate tree queued stretches

theorem before : Disk.Builds anywhere (m.Besides [.entryScript, .manifest]) s.disk found.disk := by
  obtain ⟨before, src, after, early, late, rfl, -, copied, -⟩ := stretches.copying
  obtain ⟨earlier, -⟩ := List.forall_mem_append.mp (straight_of_inOutput queued)
  exact (copyEach_besides_own separate earlier).of_run tree copied

theorem merge : Disk.Builds anywhere (· = m.slotPlace .manifest) found.disk left.disk := by
  have tree₁ := (stretches.before separate tree queued).wellFormed tree
  exact (mergeStaged_along separate).of_run tree₁ stretches.merging

theorem after : Disk.Builds anywhere (m.Besides [.entryScript, .manifest]) left.disk s'.disk := by
  have tree₁ := (stretches.before separate tree queued).wellFormed tree
  have tree₂ := (stretches.merge separate tree queued).wellFormed tree₁
  obtain ⟨before, src, after, early, late, rfl, -, -, copied, -⟩ := stretches.copying
  obtain ⟨-, later⟩ := List.forall_mem_append.mp (straight_of_inOutput queued)
  exact (copyEach_besides_own separate later).of_run tree₂ copied

/-- What the pass makes of the target's manifest is told by what it finds staged. -/
theorem manifest :
    (answer.2 = false ∧
      found.disk.existsAt (m.inTarget m.config.files.secondaryManifest) = false ∧ left = found ∧
      s'.disk.fileAt (m.slotPlace .manifest) = s.disk.fileAt (m.slotPlace .manifest)) ∨
    (answer.2 = true ∧
      found.disk.existsAt (m.inTarget m.config.files.secondaryManifest) = true ∧
      ∃ primary secondary, Manifest.read s.disk m.config.primaryManifest = .ok primary ∧
        Manifest.read found.disk (m.inTarget m.config.files.secondaryManifest) = .ok secondary ∧
        s'.disk.fileAt (m.slotPlace .manifest) =
          some (Manifest.text (.object (Manifest.merge primary secondary))).toUTF8) := by
  have built := stretches.before separate tree queued
  have tree₁ := built.wellFormed tree
  have own : ¬ m.Besides [.entryScript, .manifest] (m.slotPlace .manifest) :=
    not_besides_slot (by simp)
  have last := (stretches.after separate tree queued).fileAt_eq own
  rcases mergeStaged_outcome separate tree₁ stretches.merging with
    ⟨answered, absent, rfl⟩ | ⟨answered, present, primary, secondary, first, second, written⟩
  · exact .inl ⟨answered, absent, rfl, last.trans (built.fileAt_eq own)⟩
  · refine .inr ⟨answered, present, primary, secondary, ?_, second, last.trans written⟩
    obtain ⟨before, src, after, early, late, rfl, -⟩ := stretches.copying
    have output := (queued src (by simp)).output separate.accepted
    have leads : m.config.primaryManifest.LeadsTo _ := output.join (separate.ordinary .manifest)
    have same := output_kept separate output built [m.config.files.manifest]
    exact (Manifest.read_ok_congr tree tree₁ leads leads Iff.rfl rfl same).mp first

theorem entryScript :
    s'.disk.fileAt (m.slotPlace .entryScript) = s.disk.fileAt (m.slotPlace .entryScript) := by
  have own : ¬ m.Besides [.entryScript, .manifest] (m.slotPlace .entryScript) :=
    not_besides_slot (by simp)
  have other : m.slotPlace .entryScript ≠ m.slotPlace .manifest := by
    intro same
    cases slotPlace_injective separate same
  rw [(stretches.after separate tree queued).fileAt_eq own,
    (stretches.merge separate tree queued).fileAt_eq other,
    (stretches.before separate tree queued).fileAt_eq own]

end Stretches

/-- A pass over a queue with the manifest in it merges the staged manifest once, where the manifest
first stands. If the target holds a staged manifest at that moment, the target's manifest is made of
it and of the primary one; if not, the target's manifest stays. The entry script and the manifest
are not copied and not counted, for whatever entry of the queue. -/
theorem staged_once {answer : Nat × Bool} (separate : m.Separate) (tree : s.disk.WellFormed)
    (queued : ∀ src ∈ queue, m.InOutput src)
    (listed : ∃ src ∈ queue, src.sameAs m.config.primaryManifest = true)
    (ran : (m.copyQueued false queue).run s = (.ok answer, s')) :
    let staged := m.inTarget m.config.files.secondaryManifest
    ∃ found left, m.Stretches queue s found left s' answer ∧
      (found.disk.existsAt staged = true → answer.2 = true ∧ ∃ primary secondary,
        Manifest.read s.disk m.config.primaryManifest = .ok primary ∧
        Manifest.read found.disk staged = .ok secondary ∧
        s'.disk.fileAt (m.slotPlace .manifest) =
          some (Manifest.text (.object (Manifest.merge primary secondary))).toUTF8) ∧
      (found.disk.existsAt staged = false → answer.2 = false ∧ left = found ∧
        s'.disk.fileAt (m.slotPlace .manifest) = s.disk.fileAt (m.slotPlace .manifest)) ∧
      s'.disk.fileAt (m.slotPlace .entryScript) = s.disk.fileAt (m.slotPlace .entryScript) ∧
      answer.1 = (m.queueCopies s.disk queue).length ∧
      ∀ copy ∈ m.queueCopies s.disk queue, copy.1.sameAs m.config.primaryEntry = false ∧
        copy.1.sameAs m.config.primaryManifest = false := by
  intro staged
  obtain ⟨found, left, stretches⟩ := exists_stretches separate listed ran
  refine ⟨found, left, stretches, ?_⟩
  have outcome := stretches.manifest separate tree queued
  refine ⟨fun present => ?_, fun absent => ?_, stretches.entryScript separate tree queued,
    copyQueued_count separate tree queued ran,
    fun copy => own_not_copied separate.accepted tree queued⟩
  · obtain ⟨-, absent, -⟩ | ⟨answered, -, made⟩ := outcome
    · rw [present] at absent
      cases absent
    · exact ⟨answered, made⟩
  · obtain ⟨answered, -, kept⟩ | ⟨-, present, -⟩ := outcome
    · exact ⟨answered, kept⟩
    · rw [absent] at present
      cases present

/-- The queue begins with the whole output tree, which has a staged manifest of its own, and goes on
with the manifest in two spellings: one file is copied, and the merge is of that file. -/
theorem staged_once_whole_tree :
    let disk := stagedDisk.assign ["dist", "uni-app.json"]
      (.file "\x7b\"pages\":[\"p3\"]\x7d".toUTF8)
    let queue : List Path := [⟨"/dist"⟩, ⟨"/dist/app.json"⟩, ⟨"/dist//app.json"⟩]
    let merged := "\x7b\n  \"pages\": [\n    \"p1\",\n    \"p3\"\n  ],\n" ++
      "  \"subPackages\": []\n\x7d"
    ∃ found left s', (staging.copyQueued false queue).run ⟨disk, []⟩ = (.ok (1, true), s') ∧
      staging.Stretches queue ⟨disk, []⟩ found left s' (1, true) ∧
      (∃ primary secondary, Manifest.read disk ⟨"/dist/app.json"⟩ = .ok primary ∧
        Manifest.read found.disk ⟨"/out/uni-app.json"⟩ = .ok secondary ∧
        s'.disk.fileAt ["out", "app.json"] =
          some (Manifest.text (.object (Manifest.merge primary secondary))).toUTF8) ∧
      s'.disk.fileAt ["out", "app.json"] = some merged.toUTF8 := by
  intro disk queue merged
  have tree : disk.WellFormed := .of_nodes (by decide +kernel)
  have queued : ∀ src ∈ queue, staging.InOutput src := by
    intro src member
    simp only [queue, List.mem_cons, List.not_mem_nil, or_false] at member
    rcases member with rfl | rfl | rfl <;> exact ⟨by decide +kernel, by decide +kernel⟩
  have listed : ∃ src ∈ queue, src.sameAs staging.config.primaryManifest = true :=
    ⟨⟨"/dist/app.json"⟩, by simp [queue], by decide +kernel⟩
  have answer : ((staging.copyQueued false queue).run ⟨disk, []⟩).1.toOption = some (1, true) := by
    decide +kernel
  have content : ((staging.copyQueued false queue).run ⟨disk, []⟩).2.disk.fileAt
      ["out", "app.json"] = some merged.toUTF8 := by decide +kernel
  generalize ran : (staging.copyQueued false queue).run ⟨disk, []⟩ = outcome at answer content
  obtain ⟨_ | counted, s'⟩ := outcome
  · cases answer
  · cases answer
    obtain ⟨found, left, stretches, present, absent, -⟩ := staged_once (s := ⟨disk, []⟩)
      staging_separate tree queued listed ran
    cases held : found.disk.existsAt (staging.inTarget staging.config.files.secondaryManifest) with
    | false => cases (absent held).1
    | true => exact ⟨found, left, s', rfl, stretches, (present held).2, content⟩

end BundleMerge.Merger
