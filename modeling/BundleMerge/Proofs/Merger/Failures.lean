import BundleMerge.Proofs.Action.Failing
import BundleMerge.Proofs.Manifest.File
import BundleMerge.Proofs.Merger.PerFile

/-! How a run can fail. Before the bridge file is made, the primary program may be missing, which
passes by itself. After that, nothing that goes wrong does: a missing manifest is no failure of
the run. -/
namespace BundleMerge

/-- A failure that does not pass by itself. -/
def Failure.Final (e : Failure) : Prop := e.isRecoverable = false

variable {m : Merger} {d : Disk} {src dest dir primary secondary path : Path} {queue : List Path}
  {seen : Bool} {hook : Option Manifest.Hook} {e : Failure}

theorem Disk.copy_final {exclude : Exclusion} :
    Action.FailsOnly Failure.Final (copy exclude src dest) := by
  have entries (es : List (List String × Node)) :
      Action.FailsOnly Failure.Final (copyEntries src dest es) := by
    induction es with
    | nil => exact .pure _
    | cons entry rest ih =>
      exact .bind (.withError fun _ => rfl) fun _ => .bind ih fun _ => .pure _
  unfold copy
  split
  · exact .pure _
  · exact .bind (.withError fun _ => rfl) fun es => entries es

theorem Disk.writeAtomic_final {bytes : ByteArray} :
    Action.FailsOnly Failure.Final (Action.withError Failure.disk (writeAtomic dest bytes)) :=
  .withError fun _ => rfl

namespace Manifest

theorem read_final (failed : read d path = .error e) : e.Final := by
  unfold read at failed
  split at failed
  · cases failed
    rfl
  · split at failed <;> cases failed <;> rfl

theorem readBoth_error (failed : readBoth d primary secondary = .error e) :
    e.Final ∨ e = .manifestMissing secondary := by
  unfold readBoth at failed
  split at failed
  · split at failed
    · cases failed
      exact .inl (read_final ‹_›)
    · cases unread : read d secondary with
      | ok q => rw [unread] at failed; cases failed
      | error e' =>
        rw [unread] at failed
        cases failed
        exact .inl (read_final unread)
  · cases failed
    exact .inr rfl

theorem mergeFiles_failsOnly :
    Action.FailsOnly (fun e => e.Final ∨ e = .manifestMissing secondary)
      (mergeFiles primary secondary dest hook) := by
  rw [mergeFiles_eq]
  refine .bind (.look readBoth_error) fun both => .bind ?_ fun _ => .bind ?_ fun _ => .pure _
  · exact fun _ _ _ ran => absurd ran ask_not_error
  · exact .withError fun _ => .inl rfl

theorem mergeFilesIfPresent_final :
    Action.FailsOnly Failure.Final (mergeFilesIfPresent primary secondary dest hook) := by
  refine .tryCatch (.bind mergeFiles_failsOnly fun _ => .pure _) fun e known => ?_
  split
  · exact .pure _
  · next other => exact .throw (known.resolve_right (other secondary))

end Manifest

theorem Patcher.patchFile_final {p : Patcher} (there : d.existsAt path = true)
    (failed : p.patchFile d path = .error e) : e.Final := by
  unfold patchFile at failed
  split at failed
  · exact absurd ‹_› (Disk.readText_not_missing there)
  · cases failed
    rfl
  · cases failed
    rfl
  · next script _ =>
    cases patched : p.patch script <;> rw [patched] at failed <;> cases failed
    rfl

namespace Merger

theorem copyQueued_final : Action.FailsOnly Failure.Final (m.copyQueued seen queue) := by
  induction queue generalizing seen with
  | nil => exact .pure _
  | cons src queue ih =>
    cases found : src.relativeTo? m.config.output with
    | none =>
      rw [copyQueued, found]
      exact ih
    | some rel =>
      rw [copyQueued_cons found]
      refine .bind ?_ fun merged => .bind Disk.copy_final fun n => .bind ih fun more => .pure _
      unfold stageIf
      split
      · exact Manifest.mergeFilesIfPresent_final
      · exact .pure _

theorem copyChanges_final {strategy : Strategy} :
    Action.FailsOnly Failure.Final (m.copyChanges strategy queue) := by
  cases strategy with
  | fullTree => exact .bind Disk.copy_final fun n => .pure _
  | perFile => exact copyQueued_final

theorem writeBridge_final {bridge : BridgeFile} :
    Action.FailsOnly Failure.Final (m.writeBridge bridge) := by
  cases bridge with
  | patched text => exact Disk.writeAtomic_final
  | verbatim src => exact .bind Disk.copy_final fun n => .pure _

theorem readSecondaryEntry_final (failed : readSecondaryEntry d path = .error e) : e.Final := by
  unfold readSecondaryEntry at failed
  split at failed <;> cases failed <;> rfl

theorem overlay_final : Action.FailsOnly Failure.Final (m.overlay dir) := by
  refine .bind Disk.copy_final fun n => .bind (.look readSecondaryEntry_final) fun script => ?_
  cases script with
  | none => exact .pure _
  | some script =>
    exact .bind Disk.writeAtomic_final fun _ =>
      .bind Manifest.mergeFilesIfPresent_final fun merged => .pure _

theorem overlayIfPresent_final : Action.FailsOnly Failure.Final m.overlayIfPresent := by
  unfold overlayIfPresent
  split
  · exact .pure _
  · refine .bind (.look nofun) fun present => ?_
    split
    · rw [← bind_pure_comp]
      exact .bind overlay_final fun report => .pure _
    · exact .pure _

theorem applyWith_final {strategy : Strategy} {bridge : BridgeFile} :
    Action.FailsOnly Failure.Final (m.applyWith strategy bridge queue) :=
  .bind copyChanges_final fun _ => .bind writeBridge_final fun _ =>
    .bind overlayIfPresent_final fun _ => .pure _

theorem prepare_final (there : d.existsAt m.config.primaryEntry = true)
    (failed : m.prepare d = .error e) : e.Final := by
  simp only [prepare, there, if_true] at failed
  split at failed
  · cases failed
  · cases patched : m.patcher.patchFile d m.config.primaryEntry with
    | ok text => rw [patched] at failed; cases failed
    | error e' =>
      rw [patched] at failed
      cases failed
      exact Patcher.patchFile_final there patched

/-- What passes by itself is that the primary program is not built yet. -/
theorem prepare_recoverable (failed : m.prepare d = .error e)
    (recoverable : e.isRecoverable = true) : e = .notBuiltYet m.config.primaryEntry := by
  cases there : d.existsAt m.config.primaryEntry with
  | false =>
    simp only [prepare, there, Bool.false_eq_true, if_false, Except.error.injEq] at failed
    exact failed.symm
  | true =>
    have final := prepare_final there failed
    rw [Failure.Final, recoverable] at final
    cases final

end Merger
end BundleMerge
