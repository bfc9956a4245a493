import BundleMerge.Proofs.Merger.FullTree
import BundleMerge.Proofs.Merger.PerFile

/-! What a run leaves alone. It puts files into the target tree and where its own file names lead
from there, and nowhere else, whether it succeeds or not. So what it reads is as it was, as far as
it lies outside the target. -/
namespace BundleMerge.Merger

variable {m : Merger} {s : Site} {src rel dir : Path} {queue : List Path} {names : List String}
  {q : Place} {seen : Bool} {slot : FileNames.Slot}

/-- Where a run may put files: in the target tree, and where the names of the files that it makes
there lead to. -/
def Writes (m : Merger) (q : Place) : Prop :=
  m.config.target.resolved <+: q ∨
    ∃ slot, slot ≠ .secondaryManifest ∧ (m.inTarget (m.config.files.get slot)).resolved <+: q

/-- From the output tree on, the path does not climb. -/
def Level (m : Merger) (src : Path) : Prop :=
  (Path.climb (m.beyond src)).1 = 0

/-- Nothing is said about where directories are made. -/
def anywhere : Place → Prop := fun _ => True

theorem level_of_straight (straight : Path.Part.up ∉ src.parts) : m.Level src :=
  Path.climb_straight fun up => straight (List.mem_of_mem_drop up)

/-- Among ordinary names, all that is written lies in the target tree. -/
theorem writes_iff (accepted : m.options.Accepted)
    (ordinary : ∀ slot, Path.Ordinary (m.config.files.get slot)) :
    m.Writes q ↔ m.config.target.resolved <+: q := by
  have target := target_absolute accepted
  refine or_iff_left_of_imp ?_
  rintro ⟨slot, -, below⟩
  rw [inTarget, Path.resolved_join_name (ordinary slot)] at below
  exact (List.prefix_append ..).trans below

/-! ### The stages -/

theorem copy_writes {exclude : Disk.Exclusion} {dest : Path} (from_ : src.isAbsolute = true)
    (to_ : dest.isAbsolute = true) (into : ∀ q, dest.resolved <+: q → m.Writes q) :
    Action.Builds anywhere m.Writes (Disk.copy exclude src dest) :=
  (Disk.copy_along from_ to_).mono (fun _ _ => trivial) into

/-- Making one of the files of the target is no writing elsewhere. -/
theorem writes_of_file {ε α : Type} {act : Action ε α} (made : slot ≠ .secondaryManifest)
    (built : Action.Builds (Disk.along (m.inTarget (m.config.files.get slot)).parts)
      (· = (m.inTarget (m.config.files.get slot)).resolved) act) :
    Action.Builds anywhere m.Writes act := by
  refine built.mono (fun _ _ => trivial) ?_
  rintro q rfl
  exact .inr ⟨slot, made, List.prefix_rfl⟩

section Stages

variable (accepted : m.options.Accepted)

include accepted

theorem copyFullTree_writes : Action.Builds anywhere m.Writes m.copyFullTree := by
  have output := output_absolute accepted
  exact copy_writes output (target_absolute accepted) fun q => .inl

theorem mergeStaged_writes : Action.Builds anywhere m.Writes m.mergeStaged := by
  have made : FileNames.Slot.manifest ≠ .secondaryManifest := by decide
  exact writes_of_file made (Manifest.mergeFilesIfPresent_along (inTarget_absolute accepted _))

theorem stageIf_writes {first : Bool} : Action.Builds anywhere m.Writes (m.stageIf first) := by
  unfold stageIf
  split
  · exact mergeStaged_writes accepted
  · exact .pure false

/-- A path that does not climb is copied to a place in the target. -/
theorem destination_inside (inside : src.startsWith m.config.output = true) (level : m.Level src)
    (found : src.relativeTo? m.config.output = some rel) :
    (m.config.target.join rel).Inside m.config.target := by
  obtain ⟨rel', found', destination⟩ := destination_parts accepted inside
  obtain rfl := Option.some.inj (found.symm.trans found')
  apply (Path.inside_iff destination (root_not_mem_beyond accepted inside)).mpr
  exact Path.returns_of_level level

theorem copyQueued_writes
    (level : ∀ src ∈ queue, src.startsWith m.config.output = true → m.Level src) :
    Action.Builds anywhere m.Writes (m.copyQueued seen queue) := by
  induction queue generalizing seen with
  | nil => exact .pure _
  | cons src queue ih =>
    obtain ⟨first, others⟩ := List.forall_mem_cons.mp level
    cases found : src.relativeTo? m.config.output with
    | none =>
      rw [copyQueued, found]
      exact ih others
    | some rel =>
      have inside := Path.startsWith_of_relativeTo? found
      have into := destination_inside accepted inside (first inside) found
      have from_ := absolute_of_inside accepted inside
      have to_ : (m.config.target.join rel).isAbsolute = true :=
        Path.absolute_join _ (target_absolute accepted)
      rw [copyQueued_cons found]
      refine .bind (stageIf_writes accepted) fun merged => ?_
      refine .bind (copy_writes from_ to_ fun q below => .inl (into.trans below)) fun n => ?_
      exact .bind (ih others) fun rest => .pure _

theorem writeBridge_writes {bridge : BridgeFile}
    (known : ∀ p ∈ sourceOf bridge, p ∈ m.inputs) :
    Action.Builds anywhere m.Writes (m.writeBridge bridge) := by
  have made : FileNames.Slot.bridgeOutput ≠ .secondaryManifest := by decide
  exact (writeBridge_along accepted known).mono (fun _ _ => trivial)
    fun q below => .inr ⟨_, made, below⟩

theorem overlay_writes (given : m.config.copyDir = some dir) :
    Action.Builds anywhere m.Writes (m.overlay dir) := by
  have from_ : dir.isAbsolute = true :=
    input_absolute accepted (by simp [inputs, given])
  have copied : Action.Builds anywhere m.Writes (Disk.copy Disk.copyAllowed dir m.config.target) :=
    copy_writes from_ (target_absolute accepted) fun q => .inl
  refine .bind copied fun n => .bind (.look _) fun script => ?_
  cases script with
  | none => exact .pure _
  | some script =>
    have entry : FileNames.Slot.entryScript ≠ .secondaryManifest := by decide
    have manifest : FileNames.Slot.manifest ≠ .secondaryManifest := by decide
    have chained : Action.Builds anywhere m.Writes (Action.withError Failure.disk
        (Disk.writeAtomic (m.inTarget m.config.files.entryScript) (m.chained script).toUTF8)) :=
      writes_of_file entry
        (.withError (Disk.writeAtomic_along (inTarget_absolute accepted _)))
    have merged : Action.Builds anywhere m.Writes (Manifest.mergeFilesIfPresent
        m.config.primaryManifest (dir.join ⟨m.config.files.manifest⟩)
        (m.inTarget m.config.files.manifest) m.options.hook) :=
      writes_of_file manifest
        (Manifest.mergeFilesIfPresent_along (inTarget_absolute accepted _))
    exact .bind chained fun _ => .bind merged fun _ => .pure _

theorem overlayIfPresent_writes : Action.Builds anywhere m.Writes m.overlayIfPresent := by
  unfold overlayIfPresent
  split
  · exact .pure none
  · rename_i dir given
    refine .bind (.look _) fun present => ?_
    split
    · rw [← bind_pure_comp]
      exact .bind (overlay_writes accepted given) fun report => .pure _
    · exact .pure none

/-! ### The whole run -/

theorem copyChanges_writes {strategy : Strategy}
    (level : ∀ src ∈ queue, src.startsWith m.config.output = true → m.Level src) :
    Action.Builds anywhere m.Writes (m.copyChanges strategy queue) := by
  cases strategy with
  | fullTree => exact .bind (copyFullTree_writes accepted) fun n => .pure _
  | perFile => exact copyQueued_writes accepted level

theorem run_writes (level : ∀ src ∈ queue, src.startsWith m.config.output = true → m.Level src) :
    Action.Builds anywhere m.Writes (m.run queue) := by
  refine .bind_of (.look _) fun s bridge s' _ looked => ?_
  obtain ⟨prepared, -⟩ := Action.look_ok looked
  have known := prepare_known prepared
  refine .bind (copyChanges_writes accepted level) fun copied => ?_
  refine .bind (writeBridge_writes accepted known) fun _ => ?_
  exact .bind (overlayIfPresent_writes accepted) fun laid => .pure _

end Stages

def nestedOptions : Options where
  config := { input := ⟨"/src"⟩, output := ⟨"/dist"⟩, target := ⟨"/dist/out"⟩ }
  excludes := []

/-- A target that lies in the output tree. -/
def nested : Merger := .ofOptions nestedOptions

def nestedDisk : Disk :=
  [(["dist"], .dir), (["dist", "app.js"], .file ⟨#[49]⟩), (["dist", "a.js"], .file ⟨#[50]⟩),
    (["dist", "out"], .dir), (["dist", "out", "a.js"], .file ⟨#[51]⟩)].foldl
    (fun d entry => d.assign entry.1 entry.2) (.empty [])

end BundleMerge.Merger
