import BundleMerge.Proofs.Merger.Parallel
import BundleMerge.Proofs.Merger.Staging

/-! Runs on one queue in two orders. They copy the same files into the same directories, and write
the same files over them. Only the manifest in the target depends on the order: it is merged where
it stands in the queue, with the staged manifest that lies in the target by then, and that may have
been brought from the output tree by another entry of the queue. -/
namespace BundleMerge.Merger

variable {m : Merger} {s s' t t' : Site} {d : Disk} {queue queue' : List Path} {names : List String}
  {q : Place} {seen : Bool} {answer answer' : Nat × Bool} {report report' : Report}
  {bridge : BridgeFile}

/-! ### The copies -/

/-- Where the copies for a queue have directories. -/
def CopiesDirs (m : Merger) (d : Disk) (queue : List Path) (q : Place) : Prop :=
  ∃ src ∈ queue, ∃ rel, src.relativeTo? m.config.output = some rel ∧
    Disk.CopiesDir d m.excluded src (m.config.target.join rel)
      (m.config.output.names ++ m.within src) (m.targetPlace ++ m.within src) q

/-- Merging the staged manifest makes no directory: that one lies in the target already. -/
theorem stageIf_dirs {first merged : Bool} (placed : m.WellPlaced) (tree : s.disk.WellFormed)
    (ran : (m.stageIf first).run s = (.ok merged, s')) :
    s'.disk.node? q = some .dir ↔ s.disk.node? q = some .dir := by
  cases first with
  | false =>
    obtain ⟨-, rfl⟩ := Action.pure_ok ran
    rfl
  | true =>
    have toManifest := placed.inTarget (placed.ordinary .manifest)
    have built := (Manifest.mergeFilesIfPresent_builds toManifest).of_run tree ran
    refine ⟨fun dir => ?_, built.dir_kept⟩
    rcases mergeStaged_outcome placed.separate tree ran with
      ⟨-, -, rfl⟩ | ⟨-, present, primary, secondary, -, -, written⟩
    · exact dir
    · refine (built.dir_new dir).elim id fun above => ?_
      obtain ⟨n, seen⟩ := Disk.existsAt_iff.mp present
      have staged := placed.inTarget (placed.ordinary .secondaryManifest)
      obtain ⟨-, there, -⟩ := (Disk.stat_ok_iff tree staged).mp seen
      rcases List.prefix_concat_iff.mp above with rfl | ⟨rest, within⟩
      · rw [placed.slotPlace_eq, Disk.fileAt_eq_some_iff] at written
        rw [written] at dir
        cases dir
      · rw [← within, List.append_assoc] at there
        exact tree.above there (by simp)

/-- After the pass there are the directories of its copies, besides those that there were. -/
theorem copyQueued_dirs (placed : m.WellPlaced) (quiet : m.Undisturbed d s.disk)
    (queued : ∀ src ∈ queue, m.InOutput src)
    (ran : (m.copyQueued seen queue).run s = (.ok answer, s')) :
    s'.disk.node? q = some .dir ↔ s.disk.node? q = some .dir ∨ m.CopiesDirs d queue q := by
  induction queue generalizing s s' seen answer with
  | nil =>
    obtain ⟨-, rfl⟩ := Action.pure_ok ran
    simp [CopiesDirs]
  | cons src queue ih =>
    obtain ⟨first, others⟩ := List.forall_mem_cons.mp queued
    obtain ⟨rel, found, -⟩ := first.relative placed.accepted
    obtain ⟨merged, n, rest, s₁, s₂, staging, copied, copiedRest, rfl⟩ :=
      copyQueued_cons_ok found ran
    have output : m.config.output ∈ m.inputs := List.mem_cons_self ..
    have quiet₁ := quiet.run placed (stageIf_builds placed) staging
    have quiet₂ := quiet₁.run placed (copyQueued_step_builds placed first found) copied
    have apart : Disk.Apart (m.config.output.names ++ m.within src)
        (m.targetPlace ++ m.within src) :=
      (placed.apart_target output).mono (List.prefix_append ..) (List.prefix_append ..)
    rw [ih quiet₂ others copiedRest, Disk.copy_dirs quiet₁.second (first.leads placed.accepted)
      (destination_leads placed first found) apart copied, stageIf_dirs placed quiet.second staging]
    simp only [CopiesDirs, List.exists_mem_cons_iff, found, Option.some.injEq, exists_eq_left',
      Disk.CopiesDir, List.append_assoc, quiet₁.same _ output, or_assoc]

/-- In whatever order, the pass copies the same files, and leaves the same. -/
theorem copyQueued_reordered (placed : m.WellPlaced) (tree : s.disk.WellFormed)
    (queued : ∀ src ∈ queue, m.InOutput src) (reordered : queue'.Perm queue)
    (ran : (m.copyQueued false queue).run s = (.ok answer, t))
    (ran' : (m.copyQueued false queue').run s = (.ok answer', t')) :
    answer'.1 = answer.1 ∧ m.AgreeButManifest t.disk t'.disk := by
  have queued' : ∀ src ∈ queue', m.InOutput src := fun src member =>
    queued src (reordered.mem_iff.mp member)
  have quiet : m.Undisturbed s.disk s.disk := .refl tree
  have built := (copyQueued_builds placed queued).of_run tree ran
  have built' := (copyQueued_builds placed queued').of_run tree ran'
  have copies : (m.queueCopies s.disk queue').Perm (m.queueCopies s.disk queue) :=
    reordered.flatMap_right _
  refine ⟨?_, built.wellFormed tree, built'.wellFormed tree, fun q => ?_, fun q other => ?_⟩
  · rw [copyQueued_count placed.separate tree queued ran,
      copyQueued_count placed.separate tree queued' ran', copies.length_eq]
  · rw [copyQueued_dirs placed quiet queued ran, copyQueued_dirs placed quiet queued' ran']
    simp only [CopiesDirs, reordered.mem_iff]
  · by_cases inside : m.targetPlace <+: q
    · obtain ⟨names, rfl⟩ := inside
      have other : names ≠ [m.config.files.manifest] := by
        rintro rfl
        exact other (placed.slotPlace_eq .manifest).symm
      rw [copyQueued_file placed quiet queued other ran,
        copyQueued_file placed quiet queued' other ran']
      simp only [copies.mem_iff]
    · rw [built.fileAt_eq inside, built'.fileAt_eq inside]

/-! ### The manifest -/

/-- Where the staged manifest comes from: from the output tree if what stands before the manifest in
the queue brings it from there, and else it lies in the target already. -/
def stagedFrom (m : Merger) (d : Disk) (queue : List Path) : Path :=
  let early := queue.takeWhile (!·.sameAs m.config.primaryManifest)
  if ∃ copy ∈ m.queueCopies d early, m.within copy.1 = [m.config.files.secondaryManifest] then
    m.config.output.join ⟨m.config.files.secondaryManifest⟩
  else m.inTarget m.config.files.secondaryManifest

/-- What the pass writes as the manifest in the target, if it comes to merge it. -/
def merges (m : Merger) (d : Disk) (queue : List Path) : Option String :=
  if ∃ src ∈ queue, src.sameAs m.config.primaryManifest = true then
    match Manifest.read d m.config.primaryManifest, Manifest.read d (m.stagedFrom d queue) with
    | .ok primary, .ok secondary =>
      some (Manifest.text (.object (Manifest.merge primary secondary)))
    | _, _ => none
  else none

theorem FirstListed.takeWhile_eq {before after : List Path} {src : Path}
    (listed : m.FirstListed before src) :
    (before ++ src :: after).takeWhile (!·.sameAs m.config.primaryManifest) = before := by
  obtain ⟨here, first⟩ := listed
  rw [List.takeWhile_append_of_pos (by simpa using first),
    List.takeWhile_cons_of_neg (by simp [here]), List.append_nil]

/-- The pass finds the manifest staged that it should, so long as the text of the paths to both
trees can be looked up. -/
theorem Stretches.staged {found left : Site} (placed : m.WellPlaced)
    (tree : s.disk.WellFormed) (queued : ∀ src ∈ queue, m.InOutput src)
    (free : m.config.output.NulFree ∧ m.config.target.NulFree)
    (stretches : m.Stretches queue s found left s' answer) (fields : Json.Fields) :
    Manifest.read found.disk (m.inTarget m.config.files.secondaryManifest) = .ok fields ↔
      Manifest.read s.disk (m.stagedFrom s.disk queue) = .ok fields := by
  have secondary : Path.Ordinary m.config.files.secondaryManifest :=
    placed.ordinary .secondaryManifest
  have tree₁ := (stretches.before placed.separate tree queued).wellFormed tree
  obtain ⟨before, src, after, early, late, rfl, listed, copied, -⟩ := stretches.copying
  obtain ⟨earlier, -⟩ := List.forall_mem_append.mp queued
  have passed : (m.copyQueued false before).run s = (.ok (early, false), found) := by
    rw [copyQueued_plain (.inr listed.first), Action.run_bind, copied]
    rfl
  have other : [m.config.files.secondaryManifest] ≠ [m.config.files.manifest] := by
    intro same
    have slots : FileNames.Slot.secondaryManifest = .manifest :=
      placed.distinct (List.singleton_inj.mp same)
    cases slots
  have file := copyQueued_file placed (.refl tree) earlier other passed
  have staged := placed.inTarget secondary
  have names : ∀ p : Path, (p.join ⟨m.config.files.secondaryManifest⟩).namesDirectory = false :=
    fun p => Path.namesDirectory_join_name secondary
  unfold stagedFrom
  simp only [listed.takeWhile_eq]
  split
  · rename_i brought
    rw [if_pos brought] at file
    have output : m.config.output ∈ m.inputs := List.mem_cons_self ..
    have source := (placed.input output).join secondary
    refine Manifest.read_ok_congr tree tree₁ source staged ?_ ?_ file
    · rw [inTarget, Path.nulFree_join_name secondary, Path.nulFree_join_name secondary]
      simp [free]
    · rw [inTarget, names, names]
  · rename_i there
    rw [if_neg there] at file
    exact Manifest.read_ok_congr tree tree₁ staged staged Iff.rfl rfl file

/-- Whether the pass merges the manifest, and what is in the target then. -/
theorem copyQueued_manifest (placed : m.WellPlaced) (tree : s.disk.WellFormed)
    (queued : ∀ src ∈ queue, m.InOutput src)
    (free : m.config.output.NulFree ∧ m.config.target.NulFree)
    (ran : (m.copyQueued false queue).run s = (.ok answer, s')) :
    answer.2 = (m.merges s.disk queue).isSome ∧
      s'.disk.fileAt (m.slotPlace .manifest) =
        ((m.merges s.disk queue).map String.toUTF8).or (s.disk.fileAt (m.slotPlace .manifest)) := by
  unfold merges
  split
  · rename_i listed
    obtain ⟨found, left, stretches⟩ := exists_stretches placed.separate listed ran
    have staged := stretches.staged placed tree queued free
    rcases stretches.manifest placed.separate tree queued with
      ⟨answered, absent, -, kept⟩ | ⟨answered, -, primary, secondary, first, second, written⟩
    · split
      · rename_i primary secondary first second
        have target := inTarget_absolute placed.accepted m.config.files.secondaryManifest
        have present := (Manifest.passes_of_read target ((staged _).mpr second)).2
        rw [absent] at present
        cases present
      · exact ⟨answered, kept⟩
    · rw [first, (staged _).mp second]
      exact ⟨answered, written⟩
  · rename_i absent
    have plain : ∀ p ∈ queue, p.sameAs m.config.primaryManifest = false := by
      simpa using absent
    rw [copyQueued_plain (.inr plain)] at ran
    obtain ⟨n, s₁, copied, answered⟩ := Action.bind_ok ran
    obtain ⟨rfl, rfl⟩ := Action.pure_ok answered
    have straight := straight_of_inOutput queued
    have built := (copyEach_besides_own placed.separate straight).of_run tree copied
    exact ⟨rfl, built.fileAt_eq (not_besides_slot (by simp))⟩

/-! ### The whole run -/

/-- Fewer changes than the threshold says are copied one by one. -/
theorem copyChanges_few (few : queue.length < m.config.fullCopyThreshold) :
    m.copyChanges (m.strategyFor queue.length) queue = m.copyQueued false queue := by
  rw [strategyFor, if_neg (by omega)]
  rfl

theorem nulFree_of_prepared (placed : m.WellPlaced) (tree : d.WellFormed)
    (prepared : m.prepare d = .ok bridge) : m.config.output.NulFree := by
  have output : m.config.output ∈ m.inputs := List.mem_cons_self ..
  have entry : Path.Ordinary m.config.files.entryScript := placed.ordinary .entryScript
  obtain ⟨n, seen⟩ := Disk.existsAt_iff.mp (existsAt_of_prepared prepared)
  obtain ⟨free, -⟩ := (Disk.stat_ok_iff tree ((placed.input output).join entry)).mp seen
  exact ((Path.nulFree_join_name entry).mp free).1

theorem nulFree_of_bridged (placed : m.WellPlaced)
    (bridged : (m.writeBridge bridge).run s = (.ok (), s')) : m.config.target.NulFree := by
  have path : (m.inTarget m.config.files.bridgeOutput).NulFree := by
    cases bridge with
    | patched text => exact Disk.nulFree_of_writeAtomic (Action.withError_ok bridged)
    | verbatim src =>
      obtain ⟨count, _, copied, -⟩ := Action.bind_ok bridged
      exact Disk.nulFree_of_copy rfl copied
  have ordinary : Path.Ordinary m.config.files.bridgeOutput := placed.ordinary .bridgeOutput
  exact ((Path.nulFree_join_name ordinary).mp path).1

/-- Whether a run that copies per file has merged the manifest, and what is there in the end. -/
theorem run_manifest (placed : m.WellPlaced) (tree : s.disk.WellFormed)
    (few : queue.length < m.config.fullCopyThreshold) (queued : ∀ src ∈ queue, m.InOutput src)
    (ran : (m.run queue).run s = (.ok report, s')) :
    report.manifestMerged = (m.merges s.disk queue).isSome ∧
      match m.laidOver s.disk [m.config.files.manifest] with
      | some origin => m.Provides s.disk [m.config.files.manifest]
        (s'.disk.fileAt (m.slotPlace .manifest)) origin
      | none => s'.disk.fileAt (m.slotPlace .manifest) =
        ((m.merges s.disk queue).map String.toUTF8).or
          (s.disk.fileAt (m.slotPlace .manifest)) := by
  obtain ⟨bridge, counted, laid, s₁, s₂, prepared, copied, bridged, overlaid, rfl⟩ := run_ok ran
  rw [copyChanges_few few] at copied
  have known := prepare_known prepared
  have quiet : m.Undisturbed s.disk s.disk := .refl tree
  have quiet₁ := quiet.run placed (copyQueued_builds placed queued) copied
  have quiet₂ := quiet₁.run placed (writeBridge_builds placed known) bridged
  have free := nulFree_of_prepared placed tree prepared
  have free' := nulFree_of_bridged placed bridged
  obtain ⟨merged, written⟩ := copyQueued_manifest placed tree queued ⟨free, free'⟩ copied
  have stays : s₂.disk.fileAt (m.slotPlace .manifest) = s₁.disk.fileAt (m.slotPlace .manifest) :=
    ((writeBridge_besides placed.separate known).of_run quiet₁.second bridged).fileAt_eq
      (not_besides_slot (by simp))
  refine ⟨merged, ?_⟩
  have layered := overlayIfPresent_lays placed quiet₂ overlaid [m.config.files.manifest]
  have place : ∀ d : Disk, m.file d [m.config.files.manifest] = d.fileAt (m.slotPlace .manifest) :=
    fun d => by rw [file, placed.slotPlace_eq]; rfl
  rw [place, place, stays, written] at layered
  exact layered

/-- What an origin provides is one content. -/
theorem Provides.unique {content content' : Option ByteArray} {origin : Origin}
    (provided : m.Provides d names content origin)
    (provided' : m.Provides d names content' origin) : content' = content := by
  cases origin with
  | secondary | primary | before => exact provided'.trans provided.symm
  | manifests dir =>
    obtain ⟨primary, secondary, first, second, rfl⟩ := provided
    obtain ⟨primary', secondary', first', second', rfl⟩ := provided'
    rw [Except.ok.inj (first'.symm.trans first), Except.ok.inj (second'.symm.trans second)]
  | chained dir =>
    obtain ⟨script, read, rfl⟩ := provided
    obtain ⟨script', read', rfl⟩ := provided'
    rw [Except.ok.inj (read'.symm.trans read)]
  | bridge =>
    unfold Provides at provided provided'
    cases given : m.config.sourceApp with
    | none =>
      simp only [given] at provided provided'
      obtain ⟨script, text, read, patched, rfl⟩ := provided
      obtain ⟨script', text', read', patched', rfl⟩ := provided'
      obtain rfl := Except.ok.inj (read'.symm.trans read)
      rw [Option.some.inj (patched'.symm.trans patched)]
    | some p =>
      simp only [given] at provided provided'
      obtain ⟨bytes, read, rfl⟩ := provided
      obtain ⟨bytes', read', rfl⟩ := provided'
      rw [Except.ok.inj (read'.symm.trans read)]

/-- Runs on one queue in two orders report the same, but for whether they have merged the manifest;
and but for the manifest, they leave the same. -/
theorem run_reordered (placed : m.WellPlaced) (tree : s.disk.WellFormed)
    (few : queue.length < m.config.fullCopyThreshold) (queued : ∀ src ∈ queue, m.InOutput src)
    (reordered : queue'.Perm queue) (ran : (m.run queue).run s = (.ok report, t))
    (ran' : (m.run queue').run s = (.ok report', t')) :
    report' = { report with manifestMerged := report'.manifestMerged } ∧
      m.AgreeButManifest t.disk t'.disk := by
  obtain ⟨bridge, counted, laid, t₁, t₂, prepared, copied, bridged, overlaid, rfl⟩ := run_ok ran
  obtain ⟨bridge', counted', laid', t₁', t₂', prepared', copied', bridged', overlaid', rfl⟩ :=
    run_ok ran'
  obtain rfl := Except.ok.inj (prepared.symm.trans prepared')
  have known := prepare_known prepared
  rw [copyChanges_few few] at copied
  rw [copyChanges_few (by rwa [reordered.length_eq])] at copied'
  obtain ⟨count, agree₁⟩ := copyQueued_reordered placed tree queued reordered copied copied'
  obtain ⟨-, agree₂⟩ :=
    placed.writeBridge_parallel known t₁ t₁' () () t₂ t₂' agree₁ bridged bridged'
  obtain ⟨layered, agree⟩ :=
    placed.overlayIfPresent_parallel t₂ t₂' laid laid' t t' agree₂ overlaid overlaid'
  rw [layered, count, reordered.length_eq]
  exact ⟨rfl, agree⟩

/-! ### When the order matters -/

/-- If no entry of the queue brings a staged manifest from the output tree, each order merges the
same. -/
theorem merges_reordered (reordered : queue'.Perm queue)
    (unbrought : ∀ copy ∈ m.queueCopies d queue,
      m.within copy.1 ≠ [m.config.files.secondaryManifest]) :
    m.merges d queue' = m.merges d queue := by
  have early : ∀ {order : List Path}, order.Perm queue →
      m.stagedFrom d order = m.inTarget m.config.files.secondaryManifest := by
    intro order perm
    unfold stagedFrom
    rw [if_neg]
    rintro ⟨copy, copied, brought⟩
    obtain ⟨src, member, copied⟩ := List.mem_flatMap.mp copied
    have listed : src ∈ queue := perm.mem_iff.mp ((List.takeWhile_sublist _).subset member)
    exact unbrought copy (List.mem_flatMap.mpr ⟨src, listed, copied⟩) brought
  unfold merges
  rw [early reordered, early (.refl _)]
  simp only [reordered.mem_iff]

/-- What is written over a file tells what it is that is written, if it is told whether. -/
theorem written_over_inj {text text' : Option String} {before : Option ByteArray}
    (both : text'.isSome = text.isSome) :
    (text'.map String.toUTF8).or before = (text.map String.toUTF8).or before ↔ text' = text := by
  cases text <;> cases text' <;> simp_all [String.toUTF8_eq_toByteArray, String.toByteArray_inj]

/-- Two runs that succeed on one queue in two orders report the same, but for whether they have
merged the manifest, and leave the same, but for the manifest. They report and leave the same
altogether exactly if both merge it or neither does, and what they merge is the same, or the
secondary program is laid over it. So it is if no entry of the queue brings a staged manifest from
the output tree. -/
theorem reordered_same_iff (placed : m.WellPlaced) (tree : s.disk.WellFormed)
    (few : queue.length < m.config.fullCopyThreshold) (queued : ∀ src ∈ queue, m.InOutput src)
    (reordered : queue'.Perm queue) (ran : (m.run queue).run s = (.ok report, t))
    (ran' : (m.run queue').run s = (.ok report', t')) :
    (report' = { report with manifestMerged := report'.manifestMerged } ∧
      ∀ q, q ≠ m.slotPlace .manifest → t'.disk.node? q = t.disk.node? q) ∧
    ((report' = report ∧ ∀ q, t'.disk.node? q = t.disk.node? q) ↔
      (m.merges s.disk queue').isSome = (m.merges s.disk queue).isSome ∧
        (m.merges s.disk queue' = m.merges s.disk queue ∨
          (m.laidOver s.disk [m.config.files.manifest]).isSome = true)) ∧
    ((∀ copy ∈ m.queueCopies s.disk queue,
        m.within copy.1 ≠ [m.config.files.secondaryManifest]) →
      report' = report ∧ ∀ q, t'.disk.node? q = t.disk.node? q) := by
  obtain ⟨reports, agree⟩ := run_reordered placed tree few queued reordered ran ran'
  have few' : queue'.length < m.config.fullCopyThreshold := by rwa [reordered.length_eq]
  have queued' : ∀ src ∈ queue', m.InOutput src := fun src member =>
    queued src (reordered.mem_iff.mp member)
  obtain ⟨merged, last⟩ := run_manifest placed tree few queued ran
  obtain ⟨merged', last'⟩ := run_manifest placed tree few' queued' ran'
  have sameReport : report' = report ↔
      (m.merges s.disk queue').isSome = (m.merges s.disk queue).isSome := by
    rw [← merged, ← merged']
    refine ⟨fun same => by rw [same], fun same => ?_⟩
    rw [reports, same]
  have sameDisk : (∀ q, t'.disk.node? q = t.disk.node? q) ↔
      t'.disk.fileAt (m.slotPlace .manifest) = t.disk.fileAt (m.slotPlace .manifest) := by
    refine ⟨fun same => Disk.fileAt_congr (same _), fun same q => ?_⟩
    by_cases here : q = m.slotPlace .manifest
    · rw [here]
      exact Disk.node?_ext (agree.dirs _) same
    · exact agree.node? here
  have exactly : (report' = report ∧ ∀ q, t'.disk.node? q = t.disk.node? q) ↔
      (m.merges s.disk queue').isSome = (m.merges s.disk queue).isSome ∧
        (m.merges s.disk queue' = m.merges s.disk queue ∨
          (m.laidOver s.disk [m.config.files.manifest]).isSome = true) := by
    rw [sameReport, sameDisk]
    refine and_congr_right fun both => ?_
    cases chosen : m.laidOver s.disk [m.config.files.manifest] with
    | some origin =>
      rw [chosen] at last last'
      simp [Provides.unique last last']
    | none =>
      rw [chosen] at last last'
      rw [last, last', written_over_inj both]
      simp
  refine ⟨⟨reports, fun q => agree.node?⟩, exactly, fun unbrought => exactly.mpr ?_⟩
  have same := merges_reordered reordered unbrought
  exact ⟨by rw [same], .inl same⟩

theorem staging_placed : staging.WellPlaced where
  accepted := staging_separate.accepted
  straight := by decide
  apart := by decide
  ordinary := staging_separate.ordinary
  distinct := staging_separate.distinct

/-- Whether the manifest comes first or last makes no difference where the target has the staged
manifest already. -/
theorem reordered_same_iff_staged :
    let disk := stagedDisk.assign ["dist", "a.js"] (.file ⟨#[50]⟩)
    let queue : List Path := [⟨"/dist/app.json"⟩, ⟨"/dist/a.js"⟩]
    ∃ report t t', (staging.run queue).run ⟨disk, []⟩ = (.ok report, t) ∧
      (staging.run queue.reverse).run ⟨disk, []⟩ = (.ok report, t') ∧
      (∀ q, t'.disk.node? q = t.disk.node? q) ∧ report.manifestMerged = true ∧
      t.disk.fileAt ["out", "a.js"] = some ⟨#[50]⟩ := by
  intro disk queue
  have tree : disk.WellFormed := .of_nodes (by decide +kernel)
  have queued : ∀ src ∈ queue, staging.InOutput src := by
    intro src member
    simp only [queue, List.mem_cons, List.not_mem_nil, or_false] at member
    rcases member with rfl | rfl <;> exact ⟨by decide +kernel, by decide +kernel⟩
  have unbrought : ∀ copy ∈ staging.queueCopies disk queue,
      staging.within copy.1 ≠ [staging.config.files.secondaryManifest] := by decide +kernel
  have succeeds : ((staging.run queue).run ⟨disk, []⟩).1.toOption.map Report.manifestMerged =
      some true := by decide +kernel
  have content : ((staging.run queue).run ⟨disk, []⟩).2.disk.fileAt ["out", "a.js"] =
      some ⟨#[50]⟩ := by decide +kernel
  have succeeds' : ((staging.run queue.reverse).run ⟨disk, []⟩).1.isOk = true := by decide +kernel
  generalize ran : (staging.run queue).run ⟨disk, []⟩ = outcome at succeeds content
  generalize ran' : (staging.run queue.reverse).run ⟨disk, []⟩ = outcome' at succeeds'
  obtain ⟨_ | report, t⟩ := outcome
  · cases succeeds
  · obtain ⟨_ | report', t'⟩ := outcome'
    · cases succeeds'
    · obtain ⟨-, -, same⟩ := reordered_same_iff (s := ⟨disk, []⟩) staging_placed tree
        (by decide +kernel) queued queue.reverse_perm ran ran'
      obtain ⟨rfl, left⟩ := same unbrought
      exact ⟨report', t, t', rfl, rfl, left, Option.some.inj succeeds, content⟩

/-- An entry that brings the staged manifest from the output tree makes a difference: the manifest
is merged if it comes after that entry, and not if it comes before. -/
theorem order_matters :
    let disk := [(["dist"], Node.dir), (["dist", "app.js"], .file ⟨#[49]⟩),
      (["dist", "app.json"], .file "\x7b\"pages\":[\"p1\"]\x7d".toUTF8),
      (["dist", "uni-app.json"], .file "\x7b\"pages\":[\"p2\"]\x7d".toUTF8)].foldl
        (fun d entry => d.assign entry.1 entry.2) (.empty [])
    let queue : List Path := [⟨"/dist/app.json"⟩, ⟨"/dist/uni-app.json"⟩]
    let early := (staging.run queue).run ⟨disk, []⟩
    let late := (staging.run queue.reverse).run ⟨disk, []⟩
    staging.WellPlaced ∧ disk.WellFormed ∧ queue.length < staging.config.fullCopyThreshold ∧
      (∀ src ∈ queue, staging.InOutput src) ∧ queue.reverse.Perm queue ∧
      early.1.toOption.map Report.manifestMerged = some false ∧
      late.1.toOption.map Report.manifestMerged = some true ∧
      early.2.disk.node? ["out", "app.json"] = none ∧
      (late.2.disk.fileAt ["out", "app.json"]).isSome = true := by
  intro disk queue early late
  refine ⟨staging_placed, .of_nodes (by decide +kernel), by decide +kernel, ?_,
    queue.reverse_perm, ?_⟩
  · intro src member
    simp only [queue, List.mem_cons, List.not_mem_nil, or_false] at member
    rcases member with rfl | rfl <;> exact ⟨by decide +kernel, by decide +kernel⟩
  · decide +kernel

end BundleMerge.Merger
