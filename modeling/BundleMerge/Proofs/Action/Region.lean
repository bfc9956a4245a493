import BundleMerge.Proofs.Action.Run
import BundleMerge.Proofs.Disk.Growth

/-! Actions that build in a region, whether they succeed or not. The regions of the parts of an
action make up its own. -/
namespace BundleMerge.Action

variable {ε δ α β : Type} {dirs files dirs' files' : Place → Prop}

/-- Whatever comes of the action, it makes directories in one region and puts files in another. -/
def Builds (dirs files : Place → Prop) (act : Action ε α) : Prop :=
  ∀ s, s.disk.WellFormed → Disk.Builds dirs files s.disk (act.run s).2.disk

/-- The same where relative paths start at a certain place. -/
def BuildsFrom (base : Place) (dirs files : Place → Prop) (act : Action ε α) : Prop :=
  ∀ s, s.disk.WellFormed → s.disk.cwd = base → Disk.Builds dirs files s.disk (act.run s).2.disk

theorem builds_iff {act : Action ε α} :
    Builds dirs files act ↔ ∀ base, BuildsFrom base dirs files act :=
  ⟨fun built _ s tree _ => built s tree, fun built s tree => built s.disk.cwd s tree rfl⟩

namespace BuildsFrom

variable {base : Place}

theorem change {f : Disk → Except ε Disk}
    (built : ∀ {d d'}, d.WellFormed → d.cwd = base → f d = .ok d' → Disk.Builds dirs files d d') :
    BuildsFrom base dirs files (change f) := by
  intro s tree start
  rw [run_change]
  split
  · exact .refl
  · exact built tree start ‹_›

/-- A part of an action may rely on what the part before it has found. -/
theorem bind_of {act : Action ε α} {next : α → Action ε β}
    (first : BuildsFrom base dirs files act)
    (rest : ∀ s a s', s.disk.WellFormed → act.run s = (.ok a, s') →
      BuildsFrom base dirs files (next a)) :
    BuildsFrom base dirs files (act >>= next) := by
  intro s tree start
  have built := first s tree start
  rw [run_bind]
  split
  · rename_i a s' ran
    rw [ran] at built
    have more : BuildsFrom base dirs files (next a) := rest s a s' tree ran
    exact built.trans (more s' (built.wellFormed tree) (built.cwd_eq.trans start))
  · rename_i e s' ran
    rw [ran] at built
    exact built

theorem bind {act : Action ε α} {next : α → Action ε β} (first : BuildsFrom base dirs files act)
    (rest : ∀ a, BuildsFrom base dirs files (next a)) :
    BuildsFrom base dirs files (act >>= next) :=
  first.bind_of fun _ a _ _ _ => rest a

theorem withError {f : ε → δ} {act : Action ε α} (built : BuildsFrom base dirs files act) :
    BuildsFrom base dirs files (withError f act) := by
  intro s tree start
  rw [run_withError]
  exact built s tree start

theorem mono {act : Action ε α} (built : BuildsFrom base dirs files act)
    (moreDirs : ∀ q, dirs q → dirs' q) (moreFiles : ∀ q, files q → files' q) :
    BuildsFrom base dirs' files' act :=
  fun s tree start => (built s tree start).mono moreDirs moreFiles

/-- What a run has built, given its outcome. -/
theorem of_run {act : Action ε α} {s s' : Site} {answer : Except ε α}
    (built : BuildsFrom s.disk.cwd dirs files act) (tree : s.disk.WellFormed)
    (ran : act.run s = (answer, s')) : Disk.Builds dirs files s.disk s'.disk := by
  have whole := built s tree rfl
  rwa [ran] at whole

end BuildsFrom

namespace Builds

theorem from_ {act : Action ε α} (built : Builds dirs files act) (base : Place) :
    BuildsFrom base dirs files act :=
  builds_iff.mp built base

theorem pure (a : α) : Builds dirs files (pure a : Action ε α) := fun _ _ => .refl

theorem throw (e : ε) : Builds dirs files (throw e : Action ε α) := fun _ _ => .refl

theorem look (f : Disk → Except ε α) : Builds dirs files (look f) := by
  intro s _
  rw [run_look]
  exact .refl

theorem get : Builds dirs files (get : Action ε Site) := fun _ _ => .refl

theorem note (q : Question) : Builds dirs files (note q : Action ε Unit) := fun _ _ => .refl

theorem bind_of {act : Action ε α} {next : α → Action ε β} (first : Builds dirs files act)
    (rest : ∀ s a s', s.disk.WellFormed → act.run s = (.ok a, s') → Builds dirs files (next a)) :
    Builds dirs files (act >>= next) :=
  builds_iff.mpr fun base =>
    (first.from_ base).bind_of fun s a s' tree ran => (rest s a s' tree ran).from_ base

theorem bind {act : Action ε α} {next : α → Action ε β} (first : Builds dirs files act)
    (rest : ∀ a, Builds dirs files (next a)) : Builds dirs files (act >>= next) :=
  first.bind_of fun _ a _ _ _ => rest a

theorem withError {f : ε → δ} {act : Action ε α} (built : Builds dirs files act) :
    Builds dirs files (withError f act) :=
  builds_iff.mpr fun base => (built.from_ base).withError

theorem tryCatch {act : Action ε α} {handle : ε → Action ε α} (built : Builds dirs files act)
    (handled : ∀ e, Builds dirs files (handle e)) : Builds dirs files (tryCatch act handle) := by
  intro s tree
  have first := built s tree
  rw [run_tryCatch]
  split
  · rename_i a s' ran
    rw [ran] at first
    exact first
  · rename_i e s' ran
    rw [ran] at first
    exact first.trans (handled e s' (first.wellFormed tree))

theorem mono {act : Action ε α} (built : Builds dirs files act)
    (moreDirs : ∀ q, dirs q → dirs' q) (moreFiles : ∀ q, files q → files' q) :
    Builds dirs' files' act :=
  fun s tree => (built s tree).mono moreDirs moreFiles

/-- What a run has built, given its outcome. -/
theorem of_run {act : Action ε α} {s s' : Site} {answer : Except ε α}
    (built : Builds dirs files act) (tree : s.disk.WellFormed) (ran : act.run s = (answer, s')) :
    Disk.Builds dirs files s.disk s'.disk :=
  (built.from_ s.disk.cwd).of_run tree ran

end Builds
end BundleMerge.Action
