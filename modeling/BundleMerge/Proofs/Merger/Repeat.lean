import BundleMerge.Proofs.Disk.Repeat
import BundleMerge.Proofs.Merger.FullTree

/-! Full-tree runs that are repeated. A run reads none of what it writes, so that a second run
prepares, copies and merges the same; and whatever that writes, the first one has left in its
place. -/
namespace BundleMerge

namespace Manifest

variable {primary secondary dest : Path} {hook : Option Hook} {reads : Place → Prop}
  {pre : Disk → Prop}

theorem ask_repeats {q : Question} : Action.Repeats reads pre (ask hook q) := by
  unfold ask
  split
  · exact .note q
  · exact .pure ()

/-- Manifests that are read alike are merged alike. -/
theorem mergeFilesIfPresent_repeats (clear : Disk.Clear reads dest)
    (present : ∀ d e, Disk.Alike reads d e → e.existsAt secondary = d.existsAt secondary)
    (same : ∀ d e p q, Disk.Alike reads d e → readBoth d primary secondary = .ok (p, q) →
      readBoth e primary secondary = .ok (p, q)) :
    Action.Repeats reads pre (mergeFilesIfPresent primary secondary dest hook) := by
  have merges : Action.Repeats reads Action.anyDisk (mergeFiles primary secondary dest hook) := by
    rw [mergeFiles_eq]
    refine .bind (.look fun d e both alike _ _ _ => same d e both.1 both.2 alike) fun both => ?_
    refine .bind ask_repeats fun _ => ?_
    exact .bind (.withError (Disk.writeAtomic_repeats clear)) fun _ => .pure _
  rw [mergeFilesIfPresent_eq]
  refine .bind (.look fun d e there alike _ _ _ found => ?_) fun there => ?_
  · rw [present d e alike, found]
  · split
    · exact .bind merges fun _ => .pure true
    · exact .pure false

end Manifest

namespace Merger

variable {m : Merger} {s s' : Site} {d d' e : Disk} {p dir : Path} {name : String}
  {bridge : BridgeFile} {pre : Disk → Prop}

/-- The places that a run reads. -/
def Reads (m : Merger) (q : Place) : Prop :=
  ∃ p ∈ m.inputs, p.names <+: q

theorem reads_under (member : p ∈ m.inputs) : ∀ q, p.names <+: q → m.Reads q :=
  fun _ below => ⟨p, member, below⟩

theorem Undisturbed.of_alike (alike : Disk.Alike m.Reads d e) : m.Undisturbed d e :=
  ⟨alike.first, alike.second,
    fun _ member _ => alike.same _ (reads_under member _ (List.prefix_append ..))⟩

namespace WellPlaced

variable (placed : m.WellPlaced)

include placed

theorem unread (q : Place) (near : Disk.around m.targetPlace q) : ¬ m.Reads q := by
  rintro ⟨p, member, below⟩
  have apart := placed.apart_target member
  obtain above | inside := near
  · exact apart.left (below.trans above)
  · exact apart.not_below below inside

theorem clear (ordinary : Path.Ordinary name) : Disk.Clear m.Reads (m.inTarget name) :=
  Disk.clear_of_around placed.unread (placed.inTarget ordinary)

/-! ### The stages -/

theorem prepare_repeats : Action.Repeats m.Reads pre (Action.look m.prepare) := by
  refine .look fun d e bridge alike _ _ _ prepared => ?_
  have quiet : m.Undisturbed d e := .of_alike alike
  have output : m.config.output ∈ m.inputs := List.mem_cons_self ..
  have entry : Path.Ordinary m.config.files.entryScript := placed.ordinary .entryScript
  have there : e.existsAt m.config.primaryEntry = d.existsAt m.config.primaryEntry :=
    quiet.existsAt_join placed output entry
  obtain ⟨alone, script, text, read, patched, rfl⟩ | ⟨p, given, rfl⟩ := prepare_ok prepared
  · have read' : e.readText m.config.primaryEntry = .ok script :=
      (quiet.readText_join placed output entry).mpr read
    rw [prepare, if_pos (existsAt_of_readText read'), alone]
    simp only [Patcher.patchFile, read', patched]
    rfl
  · simp only [prepare, there, given] at prepared ⊢
    exact prepared

theorem copyFullTree_repeats : Action.Repeats m.Reads pre m.copyFullTree := by
  have output : m.config.output ∈ m.inputs := List.mem_cons_self ..
  exact Disk.copy_repeats (placed.input output) placed.target (reads_under output) placed.unread

theorem writeBridge_repeats (known : ∀ p ∈ sourceOf bridge, p ∈ m.inputs) :
    Action.Repeats m.Reads pre (m.writeBridge bridge) := by
  have ordinary := placed.ordinary .bridgeOutput
  cases bridge with
  | patched text => exact .withError (Disk.writeAtomic_repeats (placed.clear ordinary))
  | verbatim src =>
    have member := known src rfl
    have inside : m.targetPlace <+: m.targetPlace ++ [m.config.files.bridgeOutput] :=
      List.prefix_append ..
    have copies : Action.Repeats m.Reads pre
        (Disk.copy Disk.copyAllowed src (m.inTarget m.config.files.bridgeOutput)) :=
      Disk.copy_repeats (placed.input member) (placed.inTarget ordinary) (reads_under member)
        fun q near => placed.unread q (Disk.around_mono inside near)
    exact .bind copies fun _ => .pure ()

theorem mergeOver_repeats (known : dir ∈ m.inputs) : Action.Repeats m.Reads pre
    (Manifest.mergeFilesIfPresent m.config.primaryManifest
      (dir.join ⟨m.config.files.manifest⟩) (m.inTarget m.config.files.manifest)
      m.options.hook) := by
  have manifest : Path.Ordinary m.config.files.manifest := placed.ordinary .manifest
  have output : m.config.output ∈ m.inputs := List.mem_cons_self ..
  refine Manifest.mergeFilesIfPresent_repeats (placed.clear manifest) ?_ ?_
  · intro d e alike
    exact (Undisturbed.of_alike alike).existsAt_join placed known manifest
  · intro d e first second alike both
    have quiet : m.Undisturbed d e := .of_alike alike
    obtain ⟨present, primary, secondary⟩ := Manifest.readBoth_ok_iff.mp both
    apply Manifest.readBoth_ok_iff.mpr
    refine ⟨?_, ?_, ?_⟩
    · rwa [quiet.existsAt_join placed known manifest]
    · exact (quiet.readManifest_join placed output manifest).mpr primary
    · exact (quiet.readManifest_join placed known manifest).mpr secondary

/-- A copy of the secondary program finds it there, and leaves it there. -/
theorem copyOver_finds {count : Nat} (known : dir ∈ m.inputs) (tree : s.disk.WellFormed)
    (ran : (Disk.copy Disk.copyAllowed dir m.config.target).run s = (.ok count, s')) :
    s'.disk.existsAt dir = true := by
  have open_ : Disk.cutOff Disk.copyAllowed dir m.config.target [] = false := rfl
  have present : s.disk.existsAt dir = true := Disk.exists_of_copy ran open_
  have quiet : m.Undisturbed s.disk s.disk := .refl tree
  have quiet' := quiet.run placed (Disk.copy_builds (placed.input known) placed.target) ran
  rwa [quiet'.existsAt placed known]

theorem overlay_repeats (known : dir ∈ m.inputs) :
    Action.Repeats m.Reads pre (m.overlay dir) := by
  have entry : Path.Ordinary m.config.files.entryScript := placed.ordinary .entryScript
  refine .bind_of (fun _ d => d.existsAt dir = true)
    (Disk.copy_repeats (placed.input known) placed.target (reads_under known) placed.unread)
    (fun s count s' tree _ ran => placed.copyOver_finds known tree ran) fun count => ?_
  refine .bind (.look fun d e script alike present _ _ found => ?_) fun script => ?_
  · have quiet : m.Undisturbed d e := .of_alike alike
    have same : e.readText (dir.join ⟨m.config.files.entryScript⟩) =
        d.readText (dir.join ⟨m.config.files.entryScript⟩) := by
      have here := quiet.same dir known []
      rw [List.append_nil] at here
      exact Disk.readText_join_congr quiet.first quiet.second (placed.input known) here entry
        (quiet.same dir known _) present
    rwa [readSecondaryEntry, same]
  · cases script with
    | none => exact .pure _
    | some script =>
      refine .bind (.withError (Disk.writeAtomic_repeats (placed.clear entry))) fun _ => ?_
      exact .bind (placed.mergeOver_repeats known) fun _ => .pure _

theorem overlayIfPresent_repeats : Action.Repeats m.Reads pre m.overlayIfPresent := by
  unfold overlayIfPresent
  cases given : m.config.copyDir with
  | none => exact .pure none
  | some dir =>
    have known : dir ∈ m.inputs := by simp [inputs, given]
    refine .bind (.look fun d e there alike _ _ _ found => ?_) fun there => ?_
    · rwa [(Undisturbed.of_alike alike).existsAt placed known]
    · split
      · exact .map some (placed.overlay_repeats known)
      · exact .pure none

theorem runFullTree_repeats : Action.Repeats m.Reads pre m.runFullTree := by
  refine .bind_of (fun bridge _ => ∀ p ∈ sourceOf bridge, p ∈ m.inputs) placed.prepare_repeats
    (fun s bridge s' _ _ looked => ?_) fun bridge => .assume fun known => ?_
  · exact prepare_known (Action.look_ok looked).1
  · refine .bind (.bind placed.copyFullTree_repeats fun n => .pure _) fun copied => ?_
    refine .bind (placed.writeBridge_repeats known) fun _ => ?_
    exact .bind placed.overlayIfPresent_repeats fun laid => .pure _

end WellPlaced

/-- A full-tree run that has succeeded succeeds again, reports the same, and leaves every file and
directory as it is. -/
theorem fullTree_idempotent {report : Report} (placed : m.WellPlaced) (tree : s.disk.WellFormed)
    (ran : m.runFullTree.run s = (.ok report, s')) :
    ∃ s'', m.runFullTree.run s' = (.ok report, s'') ∧
      ∀ q, s''.disk.node? q = s'.disk.node? q := by
  have repeats : Action.Repeats m.Reads Action.anyDisk m.runFullTree := placed.runFullTree_repeats
  exact repeats.settled tree trivial trivial ran

theorem fullTree_idempotent_sample :
    ∃ report s' s'', sample.runFullTree.run ⟨sampleDisk, []⟩ = (.ok report, s') ∧
      report.filesCopied = 1 ∧ sample.runFullTree.run s' = (.ok report, s'') ∧
      ∀ q, s''.disk.node? q = s'.disk.node? q := by
  have succeeds : (sample.runFullTree.run ⟨sampleDisk, []⟩).1.toOption.map Report.filesCopied =
      some 1 := by
    decide +kernel
  have tree : sampleDisk.WellFormed := .of_nodes (by decide +kernel)
  generalize ran : sample.runFullTree.run ⟨sampleDisk, []⟩ = outcome at succeeds
  obtain ⟨answer, s'⟩ := outcome
  cases answer with
  | error e => cases succeeds
  | ok report =>
    obtain ⟨s'', again, same⟩ :=
      fullTree_idempotent (s := ⟨sampleDisk, []⟩) sample_placed tree ran
    exact ⟨report, s', s'', rfl, Option.some.inj succeeds, again, same⟩

end Merger
end BundleMerge
