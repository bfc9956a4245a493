import BundleMerge.Proofs.Action.Parallel
import BundleMerge.Proofs.Merger.Staged

/-! What comes after the copying, run side by side on two disks that differ in nothing but the
manifest in the target. Nothing reads that file, so that both runs report the same, and afterwards
the disks differ in nothing else. -/
namespace BundleMerge

namespace Manifest

variable {primary secondary dest : Path} {place : Place} {hook : Option Hook} {free : Place → Prop}

theorem ask_parallel {q : Question} : Action.Parallel free (ask hook q) := by
  unfold ask
  split
  · exact .note q
  · exact .pure ()

/-- Manifests that are read alike are merged alike. -/
theorem mergeFilesIfPresent_parallel (leads : dest.LeadsTo place)
    (present : ∀ d e, Disk.Agree free d e → e.existsAt secondary = d.existsAt secondary)
    (same : ∀ d e both both', Disk.Agree free d e → readBoth d primary secondary = .ok both →
      readBoth e primary secondary = .ok both' → both' = both) :
    Action.Parallel free (mergeFilesIfPresent primary secondary dest hook) := by
  have merges : Action.Parallel free (mergeFiles primary secondary dest hook) := by
    rw [mergeFiles_eq]
    refine .bind (.look same) fun both => .bind ask_parallel fun _ => ?_
    exact .bind (.withError (Disk.writeAtomic_parallel leads)) fun _ => .pure _
  rw [mergeFilesIfPresent_eq]
  refine .bind (.look fun d e a b agree left right => ?_) fun there => ?_
  · cases left
    cases right
    exact present d e agree
  · split
    · exact .bind merges fun _ => .pure true
    · exact .pure false

end Manifest

namespace Merger

variable {m : Merger} {d e : Disk} {p dir : Path} {names : List String} {name : String}
  {bridge : BridgeFile}

/-- The disks differ in nothing but the manifest in the target. -/
abbrev AgreeButManifest (m : Merger) (d e : Disk) : Prop :=
  Disk.Agree (· = m.slotPlace .manifest) d e

namespace WellPlaced

variable (placed : m.WellPlaced)

include placed

theorem slotPlace_eq (slot : FileNames.Slot) :
    m.slotPlace slot = m.targetPlace ++ [m.config.files.get slot] := by
  rw [slotPlace, placed.target.resolved]

theorem separate : m.Separate where
  accepted := placed.accepted
  apart := by
    have output : m.config.output ∈ m.inputs := List.mem_cons_self ..
    rw [(placed.input output).resolved, placed.target.resolved]
    exact placed.apart_target output
  ordinary := placed.ordinary
  distinct := placed.distinct

/-- The manifest in the target is not among what a run reads. -/
theorem manifest_unread (member : p ∈ m.inputs) (names : List String) :
    p.names ++ names ≠ m.slotPlace .manifest := by
  intro same
  have below : p.names <+: m.slotPlace .manifest := same ▸ List.prefix_append ..
  rw [placed.slotPlace_eq] at below
  exact (placed.apart_target member).not_below below (List.prefix_append ..)

theorem undisturbed (agree : m.AgreeButManifest d e) : m.Undisturbed d e :=
  ⟨agree.first, agree.second,
    fun _ member names => agree.node? (placed.manifest_unread member names)⟩

/-! ### The stages -/

theorem writeBridge_parallel (known : ∀ p ∈ sourceOf bridge, p ∈ m.inputs) :
    Action.Parallel (· = m.slotPlace .manifest) (m.writeBridge bridge) := by
  have leads := placed.inTarget (placed.ordinary .bridgeOutput)
  cases bridge with
  | patched text => exact .withError (Disk.writeAtomic_parallel leads)
  | verbatim src =>
    have member := known src rfl
    have apart : Disk.Apart src.names (m.targetPlace ++ [m.config.files.bridgeOutput]) :=
      (placed.apart_target member).mono List.prefix_rfl (List.prefix_append ..)
    refine .bind ?_ fun _ => .pure ()
    exact Disk.copy_parallel (placed.input member) leads apart (placed.manifest_unread member)

theorem mergeOver_parallel (known : dir ∈ m.inputs) :
    Action.Parallel (· = m.slotPlace .manifest)
      (Manifest.mergeFilesIfPresent m.config.primaryManifest
        (dir.join ⟨m.config.files.manifest⟩) (m.inTarget m.config.files.manifest)
        m.options.hook) := by
  have manifest : Path.Ordinary m.config.files.manifest := placed.ordinary .manifest
  have output : m.config.output ∈ m.inputs := List.mem_cons_self ..
  refine Manifest.mergeFilesIfPresent_parallel (placed.inTarget manifest) ?_ ?_
  · intro d e agree
    exact (placed.undisturbed agree).existsAt_join placed known manifest
  · rintro d e ⟨p, q⟩ ⟨p', q'⟩ agree left right
    have quiet := placed.undisturbed agree
    obtain ⟨-, primary, secondary⟩ := Manifest.readBoth_ok_iff.mp left
    obtain ⟨-, primary', secondary'⟩ := Manifest.readBoth_ok_iff.mp right
    have read := (quiet.readManifest_join placed output manifest).mp primary'
    have read' := (quiet.readManifest_join placed known manifest).mp secondary'
    obtain rfl := Except.ok.inj (primary.symm.trans read)
    obtain rfl := Except.ok.inj (secondary.symm.trans read')
    rfl

theorem secondaryEntry_same (known : dir ∈ m.inputs) {a b : Option String}
    (agree : m.AgreeButManifest d e)
    (left : readSecondaryEntry d (dir.join ⟨m.config.files.entryScript⟩) = .ok a)
    (right : readSecondaryEntry e (dir.join ⟨m.config.files.entryScript⟩) = .ok b) : b = a := by
  have quiet := placed.undisturbed agree
  have entry : Path.Ordinary m.config.files.entryScript := placed.ordinary .entryScript
  have there := quiet.existsAt_join placed known entry
  cases a with
  | none =>
    cases b with
    | none => rfl
    | some script =>
      have present := existsAt_of_readText (readSecondaryEntry_some right)
      rw [there, readSecondaryEntry_none left] at present
      cases present
  | some script =>
    have read := readSecondaryEntry_some left
    cases b with
    | none =>
      have absent := readSecondaryEntry_none right
      rw [there, existsAt_of_readText read] at absent
      cases absent
    | some script' =>
      have read' := (quiet.readText_join placed known entry).mp (readSecondaryEntry_some right)
      rw [Except.ok.inj (read'.symm.trans read)]

theorem overlay_parallel (known : dir ∈ m.inputs) :
    Action.Parallel (· = m.slotPlace .manifest) (m.overlay dir) := by
  have entry : Path.Ordinary m.config.files.entryScript := placed.ordinary .entryScript
  refine .bind ?_ fun count => .bind (.look fun d e a b => ?_) fun script => ?_
  · exact Disk.copy_parallel (placed.input known) placed.target (placed.apart_target known)
      (placed.manifest_unread known)
  · exact placed.secondaryEntry_same known
  · cases script with
    | none => exact .pure _
    | some script =>
      refine .bind (.withError (Disk.writeAtomic_parallel (placed.inTarget entry))) fun _ => ?_
      exact .bind (placed.mergeOver_parallel known) fun _ => .pure _

theorem overlayIfPresent_parallel :
    Action.Parallel (· = m.slotPlace .manifest) m.overlayIfPresent := by
  unfold overlayIfPresent
  cases given : m.config.copyDir with
  | none => exact .pure none
  | some dir =>
    have known : dir ∈ m.inputs := by simp [inputs, given]
    refine .bind (.look fun d e a b agree left right => ?_) fun there => ?_
    · cases left
      cases right
      exact (placed.undisturbed agree).existsAt placed known
    · split
      · exact .map some (placed.overlay_parallel known)
      · exact .pure none

end WellPlaced
end Merger
end BundleMerge
