import BundleMerge.Proofs.Merger.Stages

/-! What a full-tree run leaves in the target. Every file there has one origin, which is told by
the files that there are before the run: the first that applies of the merged manifest, the
chained entry script, the secondary program, the bridge file, the primary program, and the file
that was there before. -/
namespace BundleMerge

/-- Where a file of the merged program comes from. -/
inductive Origin where
  /-- It is merged from the primary manifest and that of the secondary program. -/
  | manifests (dir : Path)
  /-- It is the secondary entry script with the bridge file loaded ahead of it. -/
  | chained (dir : Path)
  | secondary (dir : Path)
  | bridge
  | primary
  /-- It lay in the target before the run. -/
  | before
  deriving Repr, DecidableEq

namespace Merger

variable {m : Merger} {s s' : Site} {d d' : Disk} {p dir : Path} {names : List String}
  {name : String} {bridge : BridgeFile}

/-- The secondary program, if it is there. -/
def secondary? (m : Merger) (d : Disk) : Option Path :=
  m.config.copyDir.filter (d.existsAt ·)

/-- The origin of a file that the secondary program is laid over. -/
def overlaid? (m : Merger) (d : Disk) (dir : Path) (names : List String) : Option Origin :=
  let files := m.config.files
  let hasEntry := d.existsAt (dir.join ⟨files.entryScript⟩)
  if names = [files.manifest] ∧ hasEntry ∧ d.existsAt (dir.join ⟨files.manifest⟩) then
    some (.manifests dir)
  else if names = [files.entryScript] ∧ hasEntry then some (.chained dir)
  else if (d.fileAt (dir.names ++ names)).isSome then some (.secondary dir)
  else none

/-- The origin of a file without a secondary program. -/
def ownOrigin (m : Merger) (d : Disk) (names : List String) : Origin :=
  if names = [m.config.files.bridgeOutput] then .bridge
  else if m.kept names ∧ (d.fileAt (m.config.output.names ++ names)).isSome then .primary
  else .before

/-- The origin of the file that is at `names` in the target after a full-tree run. -/
def origin (m : Merger) (d : Disk) (names : List String) : Origin :=
  ((m.secondary? d).bind (m.overlaid? d · names)).getD (m.ownOrigin d names)

/-- The file at `names` in the target. -/
def file (m : Merger) (d : Disk) (names : List String) : Option ByteArray :=
  d.fileAt (m.targetPlace ++ names)

/-- The content is that of a file of the origin, as the disk was before the run. -/
def Provides (m : Merger) (d : Disk) (names : List String) (content : Option ByteArray) :
    Origin → Prop
  | .manifests dir => ∃ primary secondary,
      Manifest.read d m.config.primaryManifest = .ok primary ∧
      Manifest.read d (dir.join ⟨m.config.files.manifest⟩) = .ok secondary ∧
      content = some (Manifest.text
        (Manifest.settle m.options.hook (Manifest.question primary secondary))).toUTF8
  | .chained dir => ∃ script, d.readText (dir.join ⟨m.config.files.entryScript⟩) = .ok script ∧
      content = some (m.chained script).toUTF8
  | .secondary dir => content = d.fileAt (dir.names ++ names)
  | .bridge =>
    match m.config.sourceApp with
    | none => ∃ script text, d.readText m.config.primaryEntry = .ok script ∧
        m.patcher.patch script = some text ∧ content = some text.toUTF8
    | some p => ∃ bytes, d.read p = .ok bytes ∧ content = some bytes
  | .primary => content = d.fileAt (m.config.output.names ++ names)
  | .before => content = m.file d names

/-! ### The output tree -/

theorem copyFullTree_ok {count : Nat} (placed : m.WellPlaced) (tree : s.disk.WellFormed)
    (ran : m.copyFullTree.run s = (.ok count, s')) (other : names ≠ [m.config.files.bridgeOutput]) :
    m.Provides s.disk names (m.file s'.disk names) (m.ownOrigin s.disk names) := by
  have output : m.config.output ∈ m.inputs := List.mem_cons_self ..
  have copied := Disk.copy_ok tree (placed.input output) placed.target
    (placed.apart_target output) ran names
  rw [Disk.copied] at copied
  rw [ownOrigin, if_neg other, kept_eq]
  split
  · rename_i primary
    obtain ⟨left, there⟩ := primary
    obtain ⟨bytes, there⟩ := Option.isSome_iff_exists.mp there
    rw [Bool.not_eq_true'] at left
    rw [if_neg (by simp [left]), there, Option.some_or] at copied
    rw [Provides, there]
    exact copied
  · rename_i notPrimary
    split at copied
    · exact copied
    · rename_i left
      have absent : s.disk.fileAt (m.config.output.names ++ names) = none := by
        simpa [left] using notPrimary
      rw [absent] at copied
      exact copied

/-! ### The bridge file -/

/-- Writing one file of the target leaves the others as they were. -/
theorem file_eq {dirs : Place → Prop}
    (built : Disk.Builds dirs (· = m.targetPlace ++ [name]) d d') (other : names ≠ [name]) :
    m.file d' names = m.file d names :=
  built.fileAt_eq fun same => other (List.append_cancel_left same)

theorem writeAtomic_file {bytes : ByteArray} {s' : Site} (placed : m.WellPlaced)
    (tree : s.disk.WellFormed) (ordinary : Path.Ordinary name)
    (ran : (Action.withError Failure.disk (Disk.writeAtomic (m.inTarget name) bytes)).run s =
      (.ok (), s')) :
    m.file s'.disk names = if names = [name] then some bytes else m.file s.disk names := by
  have leads := placed.inTarget ordinary
  have written := Action.withError_ok ran
  split
  · rename_i here
    rw [file, here]
    rw [← leads.resolved]
    exact Disk.writeAtomic_ok tree leads.absolute written
  · rename_i other
    exact file_eq ((Disk.writeAtomic_builds leads).of_run tree written) other

theorem writeBridge_copy {bytes : ByteArray} (placed : m.WellPlaced) (tree : s.disk.WellFormed)
    (member : p ∈ m.inputs) (regular : s.disk.fileAt p.names = some bytes)
    (ran : (m.writeBridge (.verbatim p)).run s = (.ok (), s')) :
    m.file s'.disk names = if names = [m.config.files.bridgeOutput] then some bytes
      else m.file s.disk names := by
  have leads : (m.inTarget m.config.files.bridgeOutput).LeadsTo
      (m.targetPlace ++ [m.config.files.bridgeOutput]) :=
    placed.inTarget (placed.ordinary .bridgeOutput)
  have source := placed.input member
  have below : m.targetPlace <+: m.targetPlace ++ [m.config.files.bridgeOutput] :=
    List.prefix_append ..
  have apart : Disk.Apart p.names (m.targetPlace ++ [m.config.files.bridgeOutput]) :=
    (placed.apart_target member).mono List.prefix_rfl below
  obtain ⟨count, s₁, copying, answered⟩ := Action.bind_ok ran
  obtain ⟨-, rfl⟩ := Action.pure_ok answered
  have copied := Disk.copy_ok tree source leads apart copying
  have built := (Disk.copy_builds source leads).of_run tree copying
  by_cases inside : [m.config.files.bridgeOutput] <+: names
  · obtain ⟨more, rfl⟩ := inside
    have at_ := copied more
    rw [Disk.copied_allowed, List.append_assoc] at at_
    cases more with
    | nil =>
      rw [List.append_nil, List.append_nil, regular, Option.some_or] at at_
      simpa [file] using at_
    | cons first rest =>
      -- The copy of a single file puts nothing below it.
      rw [tree.fileAt_below regular (List.cons_ne_nil first rest), Option.none_or] at at_
      simpa [file] using at_
  · rw [if_neg (by rintro rfl; exact inside List.prefix_rfl)]
    exact built.fileAt_eq fun under => inside ((List.prefix_append_right_inj _).mp under)

/-! ### The secondary program -/

theorem readSecondaryEntry_some {text : String} (found : readSecondaryEntry d p = .ok (some text)) :
    d.readText p = .ok text := by
  unfold readSecondaryEntry at found
  split at found <;> cases found
  assumption

theorem readSecondaryEntry_none (found : readSecondaryEntry d p = .ok none) :
    d.existsAt p = false := by
  unfold readSecondaryEntry at found
  split at found <;> cases found
  rename_i missing
  rw [Bool.eq_false_iff]
  exact fun there => Disk.readText_not_missing there missing

theorem existsAt_of_readText {text : String} (read : d.readText p = .ok text) :
    d.existsAt p = true := by
  obtain ⟨bytes, read, -⟩ := Disk.readText_ok_iff.mp read
  exact Disk.existsAt_iff.mpr ⟨_, Disk.read_ok_iff_stat.mp read⟩

/-- What the secondary program makes of the file at `names`, which was `below` before. -/
def Lays (m : Merger) (d : Disk) (dir : Path) (names : List String)
    (below above : Option ByteArray) : Prop :=
  match m.overlaid? d dir names with
  | some origin => m.Provides d names above origin
  | none => above = below

/-- A file that is neither of the two that are made anew is the one of the secondary program, if
that has one. -/
theorem lays_of_copied {below above : Option ByteArray}
    (noManifest : ¬ (names = [m.config.files.manifest] ∧
      d.existsAt (dir.join ⟨m.config.files.entryScript⟩) ∧
      d.existsAt (dir.join ⟨m.config.files.manifest⟩)))
    (noEntry : ¬ (names = [m.config.files.entryScript] ∧
      d.existsAt (dir.join ⟨m.config.files.entryScript⟩)))
    (copied : above = (d.fileAt (dir.names ++ names)).or below) :
    m.Lays d dir names below above := by
  unfold Lays overlaid?
  rw [if_neg noManifest, if_neg noEntry]
  split <;> rename_i selected
  · split at selected
    · cases selected
      rename_i there
      obtain ⟨bytes, there⟩ := Option.isSome_iff_exists.mp there
      rw [Provides, copied, there, Option.some_or]
    · cases selected
  · split at selected
    · cases selected
    · rename_i absent
      rw [copied, Option.not_isSome_iff_eq_none.mp absent, Option.none_or]

theorem lays_of_chained {below above : Option ByteArray} {script : String}
    (noManifest : ¬ (names = [m.config.files.manifest] ∧
      d.existsAt (dir.join ⟨m.config.files.manifest⟩)))
    (read : d.readText (dir.join ⟨m.config.files.entryScript⟩) = .ok script)
    (chained : above = if names = [m.config.files.entryScript] then
      some (m.chained script).toUTF8 else (d.fileAt (dir.names ++ names)).or below) :
    m.Lays d dir names below above := by
  by_cases here : names = [m.config.files.entryScript]
  · rw [if_pos here] at chained
    unfold Lays overlaid?
    rw [if_neg fun made => noManifest ⟨made.1, made.2.2⟩,
      if_pos ⟨here, existsAt_of_readText read⟩]
    exact ⟨script, read, chained⟩
  · rw [if_neg here] at chained
    exact lays_of_copied (fun made => noManifest ⟨made.1, made.2.2⟩) (fun made => here made.1)
      chained

/-- The secondary program is copied over what is in the target. -/
theorem copyOver_ok {count : Nat} (placed : m.WellPlaced) (quiet : m.Undisturbed d s.disk)
    (known : dir ∈ m.inputs)
    (ran : (Disk.copy Disk.copyAllowed dir m.config.target).run s = (.ok count, s')) :
    m.Undisturbed d s'.disk ∧ ∀ names, m.file s'.disk names =
      (d.fileAt (dir.names ++ names)).or (m.file s.disk names) := by
  refine ⟨quiet.run placed (Disk.copy_builds (placed.input known) placed.target) ran, ?_⟩
  intro names
  have copied := Disk.copy_ok quiet.second (placed.input known) placed.target
    (placed.apart_target known) ran names
  rwa [Disk.copied_allowed, quiet.fileAt known] at copied

/-- The manifests are merged last, over a target in which the entry script is chained. -/
theorem mergeOver_ok {below : List String → Option ByteArray} {script : String} {merged : Bool}
    (placed : m.WellPlaced) (quiet : m.Undisturbed d s.disk) (known : dir ∈ m.inputs)
    (read : d.readText (dir.join ⟨m.config.files.entryScript⟩) = .ok script)
    (chained : ∀ names, m.file s.disk names = if names = [m.config.files.entryScript] then
      some (m.chained script).toUTF8 else (d.fileAt (dir.names ++ names)).or (below names))
    (ran : (Manifest.mergeFilesIfPresent m.config.primaryManifest
        (dir.join ⟨m.config.files.manifest⟩) (m.inTarget m.config.files.manifest)
        m.options.hook).run s = (.ok merged, s')) (names : List String) :
    m.Lays d dir names (below names) (m.file s'.disk names) := by
  have manifest : Path.Ordinary m.config.files.manifest := placed.ordinary .manifest
  have toManifest := placed.inTarget manifest
  have there : s.disk.existsAt (dir.join ⟨m.config.files.manifest⟩) =
      d.existsAt (dir.join ⟨m.config.files.manifest⟩) :=
    quiet.existsAt_join placed known manifest
  obtain ⟨absent, -, same⟩ | ⟨primary, secondary, both, -, written⟩ :=
    Manifest.mergeFilesIfPresent_ok quiet.second toManifest.absolute ran
  · refine lays_of_chained ?_ read (by rw [same, chained])
    rintro ⟨-, present⟩
    rw [there, present] at absent
    cases absent
  · obtain ⟨present, first, second⟩ := Manifest.readBoth_ok_iff.mp both
    by_cases here : names = [m.config.files.manifest]
    · have output : m.config.output ∈ m.inputs := List.mem_cons_self ..
      unfold Lays overlaid?
      rw [if_pos ⟨here, existsAt_of_readText read, there ▸ present⟩]
      refine ⟨primary, secondary, ?_, ?_, ?_⟩
      · exact (quiet.readManifest_join placed output manifest).mp first
      · exact (quiet.readManifest_join placed known manifest).mp second
      · rw [here]
        rwa [toManifest.resolved] at written
    · have built := (Manifest.mergeFilesIfPresent_builds toManifest).of_run quiet.second ran
      refine lays_of_chained (fun made => here made.1) read ?_
      rw [file_eq built here, chained]

theorem overlay_ok {report : OverlayReport} (placed : m.WellPlaced)
    (quiet : m.Undisturbed d s.disk) (given : m.config.copyDir = some dir)
    (ran : (m.overlay dir).run s = (.ok report, s')) (names : List String) :
    m.Lays d dir names (m.file s.disk names) (m.file s'.disk names) := by
  have known : dir ∈ m.inputs := by simp [inputs, given]
  have entry : Path.Ordinary m.config.files.entryScript := placed.ordinary .entryScript
  obtain ⟨_, s₁, copying, looking⟩ := Action.bind_ok ran
  obtain ⟨quiet₁, laid⟩ := copyOver_ok placed quiet known copying
  obtain ⟨found?, s₂, looked, chaining⟩ := Action.bind_ok looking
  obtain ⟨found, rfl⟩ := Action.look_ok looked
  cases found? with
  | none =>
    obtain ⟨-, rfl⟩ := Action.pure_ok chaining
    have absent : ¬ d.existsAt (dir.join ⟨m.config.files.entryScript⟩) = true := by
      rw [← quiet₁.existsAt_join placed known entry, readSecondaryEntry_none found]
      exact Bool.false_ne_true
    exact lays_of_copied (fun made => absent made.2.1) (fun made => absent made.2) (laid names)
  | some script =>
    obtain ⟨_, s₃, chained, merging⟩ := Action.bind_ok chaining
    obtain ⟨merged, s₄, merge, answered⟩ := Action.bind_ok merging
    obtain ⟨-, rfl⟩ := Action.pure_ok answered
    have read : d.readText (dir.join ⟨m.config.files.entryScript⟩) = .ok script :=
      (quiet₁.readText_join placed known entry).mp (readSecondaryEntry_some found)
    have quiet₃ := quiet₁.run placed
      (.of_file (.withError (Disk.writeAtomic_builds (placed.inTarget entry)))) chained
    refine mergeOver_ok placed quiet₃ known read (fun names => ?_) merge names
    rw [writeAtomic_file placed quiet₁.second entry chained, laid]

/-- The origin of a file that the run lays over the others, with the secondary program or for it. -/
def laidOver (m : Merger) (d : Disk) (names : List String) : Option Origin :=
  (m.secondary? d).bind (m.overlaid? d · names)

theorem overlayIfPresent_lays {report : Option OverlayReport} (placed : m.WellPlaced)
    (quiet : m.Undisturbed d s.disk) (ran : m.overlayIfPresent.run s = (.ok report, s'))
    (names : List String) :
    match m.laidOver d names with
    | some origin => m.Provides d names (m.file s'.disk names) origin
    | none => m.file s'.disk names = m.file s.disk names := by
  unfold overlayIfPresent at ran
  cases given : m.config.copyDir with
  | none =>
    rw [given] at ran
    obtain ⟨-, rfl⟩ := Action.pure_ok ran
    have alone : m.secondary? d = none := by rw [secondary?, given, Option.filter_none]
    rw [laidOver, alone]
    rfl
  | some dir =>
    rw [given] at ran
    have known : dir ∈ m.inputs := by simp [inputs, given]
    obtain ⟨present, s₁, looked, laying⟩ := Action.bind_ok ran
    obtain ⟨found, rfl⟩ := Action.look_ok looked
    rw [Except.ok.injEq, quiet.existsAt placed known] at found
    split at laying
    · rename_i there
      obtain ⟨laid, overlaying, -⟩ := Action.map_ok laying
      have both : m.secondary? d = some dir := by
        rw [secondary?, given, Option.filter_some, if_pos (found.trans there)]
      rw [laidOver, both]
      exact overlay_ok placed quiet given overlaying names
    · rename_i absent
      obtain ⟨-, rfl⟩ := Action.pure_ok laying
      have alone : m.secondary? d = none := by
        rw [secondary?, given, Option.filter_some, if_neg (found ▸ absent)]
      rw [laidOver, alone]
      rfl

theorem overlayIfPresent_ok {report : Option OverlayReport} (placed : m.WellPlaced)
    (quiet : m.Undisturbed d s.disk) (ran : m.overlayIfPresent.run s = (.ok report, s'))
    (own : m.Provides d names (m.file s.disk names) (m.ownOrigin d names)) :
    m.Provides d names (m.file s'.disk names) (m.origin d names) := by
  have laid := overlayIfPresent_lays placed quiet ran names
  rw [origin, ← laidOver]
  cases chosen : m.laidOver d names with
  | none =>
    rw [chosen] at laid
    rw [laid]
    exact own
  | some origin =>
    rw [chosen] at laid
    exact laid

/-! ### The whole run -/

/-- The bridge file is written as it was prepared, and the other files stay. -/
theorem writeBridge_ok (placed : m.WellPlaced) (quiet : m.Undisturbed d s.disk)
    (prepared : m.prepare d = .ok bridge)
    (regular : ∀ p ∈ m.config.sourceApp, ∃ bytes, d.stat p = .ok (.file bytes))
    (ran : (m.writeBridge bridge).run s = (.ok (), s')) :
    ∃ bytes, m.Provides d [m.config.files.bridgeOutput] (some bytes) .bridge ∧
      ∀ names, m.file s'.disk names =
        if names = [m.config.files.bridgeOutput] then some bytes else m.file s.disk names := by
  simp only [Provides]
  obtain ⟨alone, script, text, read, patched, rfl⟩ | ⟨p, given, rfl⟩ := prepare_ok prepared
  · rw [alone]
    exact ⟨text.toUTF8, ⟨script, text, read, patched, rfl⟩,
      fun names => writeAtomic_file placed quiet.second (placed.ordinary .bridgeOutput) ran⟩
  · obtain ⟨bytes, there⟩ := regular p given
    have known : p ∈ m.inputs := by simp [inputs, given]
    have read := Disk.read_ok_iff_stat.mpr there
    obtain ⟨-, file, -⟩ := (Disk.read_ok_iff quiet.first (placed.input known)).mp read
    have same : s.disk.fileAt (p.names ++ []) = d.fileAt (p.names ++ []) := quiet.fileAt known
    rw [List.append_nil, file] at same
    rw [given]
    exact ⟨bytes, ⟨bytes, read, rfl⟩,
      fun names => writeBridge_copy placed quiet.second known same ran⟩

/-- After a full-tree run that succeeds, each file of the target is what its origin provides. -/
theorem fullTree_provides {report : Report} (placed : m.WellPlaced) (tree : s.disk.WellFormed)
    (regular : ∀ p ∈ m.config.sourceApp, ∃ bytes, s.disk.stat p = .ok (.file bytes))
    (ran : m.runFullTree.run s = (.ok report, s')) (names : List String) :
    m.Provides s.disk names (m.file s'.disk names) (m.origin s.disk names) := by
  obtain ⟨bridge, s₁, preparing, copying⟩ := Action.bind_ok ran
  obtain ⟨prepared, same⟩ := Action.look_ok preparing
  obtain ⟨counted, s₂, copied, bridging⟩ := Action.bind_ok copying
  obtain ⟨count, s₃, tree_copied, counting⟩ := Action.bind_ok copied
  obtain ⟨-, same'⟩ := Action.pure_ok counting
  obtain ⟨_, s₄, bridged, laying⟩ := Action.bind_ok bridging
  obtain ⟨laid, s₅, overlaid, answered⟩ := Action.bind_ok laying
  obtain ⟨-, same''⟩ := Action.pure_ok answered
  subst same same' same''
  have known := prepare_known prepared
  have quiet : m.Undisturbed s₁.disk s₁.disk := .refl tree
  have quiet₂ := quiet.run placed (copyFullTree_builds placed) tree_copied
  have quiet₄ := quiet₂.run placed (writeBridge_builds placed known) bridged
  obtain ⟨bytes, provided, written⟩ := writeBridge_ok placed quiet₂ prepared regular bridged
  refine overlayIfPresent_ok placed quiet₄ overlaid ?_
  rw [written]
  split
  · rename_i here
    rw [ownOrigin, if_pos here]
    exact provided
  · rename_i other
    exact copyFullTree_ok placed tree tree_copied other

/-- Options with all four trees. -/
def sampleOptions : Options where
  config :=
    { input := ⟨"/src"⟩, output := ⟨"/dist"⟩, target := ⟨"/out"⟩, copyDir := some ⟨"/uni"⟩,
      sourceApp := some ⟨"/ready.js"⟩ }
  excludes := []

def sample : Merger := .ofOptions sampleOptions

/-- A disk with a file of every origin. -/
def sampleDisk : Disk :=
  [(["dist"], .dir), (["dist", "app.js"], .file ⟨#[49]⟩), (["dist", "app.json"], .file ⟨#[123, 125]⟩),
    (["dist", "a.js"], .file ⟨#[50]⟩), (["out"], .dir), (["out", "b.js"], .file ⟨#[51]⟩),
    (["ready.js"], .file ⟨#[52]⟩), (["uni"], .dir), (["uni", "app.js"], .file ⟨#[53]⟩),
    (["uni", "app.json"], .file ⟨#[123, 125]⟩), (["uni", "c.js"], .file ⟨#[54]⟩)].foldl
    (fun d entry => d.assign entry.1 entry.2) (.empty [])

theorem sample_placed : sample.WellPlaced where
  accepted := ⟨⟨"/"⟩, sampleOptions.config, sampleOptions, by decide, rfl, rfl⟩
  straight := by decide
  apart := by decide
  ordinary slot := by cases slot <;> decide
  distinct a b same := by
    revert same
    cases a <;> cases b <;> decide

theorem fullTree_provides_sample :
    ∃ report s', sample.runFullTree.run ⟨sampleDisk, []⟩ = (.ok report, s') ∧
      ∀ row ∈ [("app.json", Origin.manifests ⟨"/uni"⟩), ("app.js", .chained ⟨"/uni"⟩),
        ("c.js", .secondary ⟨"/uni"⟩), ("wepy-app.js", .bridge), ("a.js", .primary),
        ("b.js", .before)],
        sample.Provides sampleDisk [row.1] (sample.file s'.disk [row.1]) row.2 := by
  have succeeds : (sample.runFullTree.run ⟨sampleDisk, []⟩).1.isOk = true := by decide +kernel
  have tree : sampleDisk.WellFormed := .of_nodes (by decide +kernel)
  have regular : ∀ p ∈ sample.config.sourceApp, ∃ bytes, sampleDisk.stat p = .ok (.file bytes) := by
    rintro p ⟨⟩
    exact ⟨⟨#[52]⟩, by decide +kernel⟩
  generalize ran : sample.runFullTree.run ⟨sampleDisk, []⟩ = outcome at succeeds
  obtain ⟨answer, s'⟩ := outcome
  cases answer with
  | error e => cases succeeds
  | ok report =>
    refine ⟨report, s', rfl, fun row member => ?_⟩
    have selected : row.2 = sample.origin sampleDisk [row.1] := by
      revert row
      decide +kernel
    rw [selected]
    exact fullTree_provides (s := ⟨sampleDisk, []⟩) sample_placed tree regular ran [row.1]

end Merger
end BundleMerge
