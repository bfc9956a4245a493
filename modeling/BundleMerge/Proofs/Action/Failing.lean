import BundleMerge.Proofs.Action.Run

/-! Actions that fail in certain ways only, whatever files they meet. The ways of the parts of an
action make up its own. -/
namespace BundleMerge.Action

variable {ε δ α β : Type} {kind kind' : ε → Prop}

/-- An error of the action is of a kind. -/
def FailsOnly (kind : ε → Prop) (act : Action ε α) : Prop :=
  ∀ s e s', act.run s = (.error e, s') → kind e

namespace FailsOnly

theorem pure (a : α) : FailsOnly kind (pure a : Action ε α) := fun _ _ _ => nofun

theorem throw {e : ε} (given : kind e) : FailsOnly kind (throw e : Action ε α) := by
  intro s e' s' ran
  cases ran
  exact given

theorem look {f : Disk → Except ε α} (given : ∀ {d e}, f d = .error e → kind e) :
    FailsOnly kind (look f) :=
  fun _ _ _ ran => given (look_error ran).1

theorem bind {act : Action ε α} {next : α → Action ε β} (first : FailsOnly kind act)
    (rest : ∀ a, FailsOnly kind (next a)) : FailsOnly kind (act >>= next) := by
  intro s e s' ran
  obtain failed | ⟨a, s₁, -, failed⟩ := bind_error ran
  · exact first s e s' failed
  · exact rest a s₁ e s' failed

theorem withError {kind : δ → Prop} {f : ε → δ} {act : Action ε α} (given : ∀ e, kind (f e)) :
    FailsOnly kind (withError f act) := by
  intro s e s' ran
  obtain ⟨cause, -, rfl⟩ := withError_error ran
  exact given cause

/-- A handler need not deal with more than the ways in which the action fails. -/
theorem tryCatch {act : Action ε α} {handle : ε → Action ε α} (first : FailsOnly kind' act)
    (handled : ∀ e, kind' e → FailsOnly kind (handle e)) :
    FailsOnly kind (tryCatch act handle) := by
  intro s e s' ran
  obtain ⟨cause, s₁, failed, handling⟩ := tryCatch_error ran
  exact handled cause (first s cause s₁ failed) s₁ e s' handling

end FailsOnly
end BundleMerge.Action
