import BundleMerge.Proofs.Disk.Exact

/-! Actions run side by side, on disks that differ in some files only. If both runs succeed, they
answer the same, and the disks that they leave differ in these files only. That goes from the parts
of an action to the whole; copies and writes have it as long as nothing is read that may differ. -/
namespace BundleMerge

namespace Disk

variable {free : Place → Prop} {d e : Disk} {q : Place}

/-- The disks have the same directories, and the same files outside a region. -/
structure Agree (free : Place → Prop) (d e : Disk) : Prop where
  first : d.WellFormed
  second : e.WellFormed
  dirs : ∀ q, e.node? q = some .dir ↔ d.node? q = some .dir
  files : ∀ q, ¬ free q → e.fileAt q = d.fileAt q

/-- What is at a place is told by whether it is a directory, and by the file there. -/
theorem node?_ext (dirs : e.node? q = some .dir ↔ d.node? q = some .dir)
    (files : e.fileAt q = d.fileAt q) : e.node? q = d.node? q := by
  apply Option.ext
  intro n
  cases n with
  | dir => exact dirs
  | file bytes => rw [← fileAt_eq_some_iff, ← fileAt_eq_some_iff, files]

theorem Agree.node? (agree : Agree free d e) (fixed : ¬ free q) : e.node? q = d.node? q :=
  node?_ext (agree.dirs q) (agree.files q fixed)

end Disk

namespace Action

variable {ε δ α β : Type} {free : Place → Prop}

/-- Two runs of the action that succeed, on disks that agree outside a region, answer the same, and
leave disks that agree outside the region. -/
def Parallel (free : Place → Prop) (act : Action ε α) : Prop :=
  ∀ s t a b s' t', Disk.Agree free s.disk t.disk → act.run s = (.ok a, s') →
    act.run t = (.ok b, t') → b = a ∧ Disk.Agree free s'.disk t'.disk

namespace Parallel

theorem pure (a : α) : Parallel free (pure a : Action ε α) := by
  intro s t b c s' t' agree left right
  cases left
  cases right
  exact ⟨rfl, agree⟩

theorem note (q : Question) : Parallel free (note q : Action ε Unit) := by
  intro s t a b s' t' agree left right
  cases left
  cases right
  exact ⟨rfl, agree⟩

theorem look {f : Disk → Except ε α}
    (same : ∀ d e a b, Disk.Agree free d e → f d = .ok a → f e = .ok b → b = a) :
    Parallel free (look f) := by
  intro s t a b s' t' agree left right
  obtain ⟨found, rfl⟩ := look_ok left
  obtain ⟨found', rfl⟩ := look_ok right
  exact ⟨same _ _ a b agree found found', agree⟩

theorem withError {g : ε → δ} {act : Action ε α} (parallel : Parallel free act) :
    Parallel free (withError g act) := by
  intro s t a b s' t' agree left right
  exact parallel s t a b s' t' agree (withError_ok left) (withError_ok right)

theorem bind {act : Action ε α} {next : α → Action ε β} (first : Parallel free act)
    (rest : ∀ a, Parallel free (next a)) : Parallel free (act >>= next) := by
  intro s t a b s' t' agree left right
  obtain ⟨c, s₁, left, leftRest⟩ := bind_ok left
  obtain ⟨c', t₁, right, rightRest⟩ := bind_ok right
  obtain ⟨rfl, agree₁⟩ := first s t c c' s₁ t₁ agree left right
  exact rest c' s₁ t₁ a b s' t' agree₁ leftRest rightRest

theorem map {act : Action ε α} (f : α → β) (parallel : Parallel free act) :
    Parallel free (f <$> act) := by
  rw [← bind_pure_comp]
  exact .bind parallel fun a => .pure (f a)

end Parallel
end Action

namespace Disk

variable {free : Place → Prop} {p src dest : Path} {source target place : Place}
  {exclude : Exclusion} {bytes : ByteArray}

theorem writeAtomic_parallel (leads : p.LeadsTo place) :
    Action.Parallel free (writeAtomic p bytes) := by
  intro s t _ _ s' t' agree left right
  have built := (writeAtomic_builds leads).of_run agree.first left
  have built' := (writeAtomic_builds leads).of_run agree.second right
  have written := writeAtomic_ok agree.first leads.absolute left
  have written' := writeAtomic_ok agree.second leads.absolute right
  refine ⟨rfl, built.wellFormed agree.first, built'.wellFormed agree.second, fun q => ?_, ?_⟩
  · rw [writeAtomic_dirs agree.first leads left, writeAtomic_dirs agree.second leads right,
      agree.dirs]
  · intro q fixed
    by_cases here : q = place
    · rw [here, ← leads.resolved, written, written']
    · rw [built.fileAt_eq here, built'.fileAt_eq here, agree.files q fixed]

theorem copy_parallel (from_ : src.LeadsTo source) (to_ : dest.LeadsTo target)
    (apart : Apart source target) (fixed : ∀ names, ¬ free (source ++ names)) :
    Action.Parallel free (copy exclude src dest) := by
  intro s t n n' s' t' agree left right
  have same := fun names => agree.files _ (fixed names)
  have built := (copy_builds from_ to_).of_run agree.first left
  have built' := (copy_builds from_ to_).of_run agree.second right
  refine ⟨?_, built.wellFormed agree.first, built'.wellFormed agree.second, fun q => ?_, ?_⟩
  · rw [copy_count left, copy_count right, copies_congr agree.first agree.second from_ same]
  · rw [copy_dirs agree.first from_ to_ apart left, copy_dirs agree.second from_ to_ apart right]
    simp only [CopiesDir, agree.dirs]
  · intro q unfree
    by_cases inside : target <+: q
    · obtain ⟨names, rfl⟩ := inside
      rw [copy_ok agree.first from_ to_ apart left, copy_ok agree.second from_ to_ apart right,
        copied, copied, same, agree.files _ unfree]
    · rw [built.fileAt_eq inside, built'.fileAt_eq inside, agree.files q unfree]

end Disk
end BundleMerge
