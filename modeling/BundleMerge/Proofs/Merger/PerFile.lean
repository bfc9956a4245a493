import BundleMerge.Proofs.Merger.Stages
import BundleMerge.Proofs.Path.Relative

/-! The per-file pass. Each path of its queue that lies in the output tree is copied to the place
in the target that corresponds to it. -/
namespace BundleMerge.Merger

variable {m : Merger} {d d' : Disk} {s s' : Site} {src rel : Path} {queue : List Path}
  {copy : Path × Path} {names : List String} {seen : Bool}

/-- The files that the per-file pass copies for one path of its queue. -/
def copiesOf (m : Merger) (d : Disk) (src : Path) : List (Path × Path) :=
  match src.relativeTo? m.config.output with
  | none => []
  | some rel => d.copies m.excluded src (m.config.target.join rel)

def queueCopies (m : Merger) (d : Disk) (queue : List Path) : List (Path × Path) :=
  queue.flatMap (m.copiesOf d)

/-! ### Paths of a queue -/

/-- The parts of a path that come after those of the output tree. -/
def beyond (m : Merger) (src : Path) : List Path.Part :=
  src.parts.drop m.config.output.parts.length

theorem parts_beyond (inside : src.startsWith m.config.output = true) :
    src.parts = m.config.output.parts ++ m.beyond src :=
  (List.prefix_iff_eq_append.mp (List.isPrefixOf_iff_prefix.mp inside)).symm

theorem absolute_of_inside (accepted : m.options.Accepted)
    (inside : src.startsWith m.config.output = true) : src.isAbsolute = true :=
  Path.absolute_of_goesOn (output_absolute accepted)
    (parts_beyond inside)

theorem root_not_mem_beyond (accepted : m.options.Accepted)
    (inside : src.startsWith m.config.output = true) : Path.Part.root ∉ m.beyond src := by
  have output := output_absolute accepted
  obtain ⟨above, begins, -⟩ := Path.parts_rooted output
  obtain ⟨rest, split, below⟩ := Path.parts_rooted (absolute_of_inside accepted inside)
  have whole := parts_beyond inside
  rw [begins, split, List.cons_append, List.cons.injEq] at whole
  intro root
  exact below (whole.2 ▸ List.mem_append_right _ root)

/-- What stands for a path of the output tree in the target has the same parts beyond it. -/
theorem destination_parts (accepted : m.options.Accepted)
    (inside : src.startsWith m.config.output = true) :
    ∃ rel, src.relativeTo? m.config.output = some rel ∧
      (m.config.target.join rel).parts = m.config.target.parts ++ m.beyond src := by
  have output := output_absolute accepted
  have target := target_absolute accepted
  obtain ⟨rel, found, relative, whole⟩ := Path.relativeTo?_some output inside
  refine ⟨rel, found, ?_⟩
  rw [parts_beyond inside] at whole
  rw [Path.parts_join (Path.nonempty_of_absolute target) relative, List.append_cancel_left whole]

/-- The path is free of `..` and lies in the output tree. -/
structure InOutput (m : Merger) (src : Path) : Prop where
  straight : Path.Part.up ∉ src.parts
  inside : src.startsWith m.config.output = true

/-- The names that lead from the output tree to a path. -/
def within (m : Merger) (p : Path) : List String :=
  p.names.drop m.config.output.names.length

theorem within_eq {p : Path} (leads : p.LeadsTo (m.config.output.names ++ names)) :
    m.within p = names := by
  rw [within, leads.names_eq, List.drop_left]

namespace InOutput

variable (accepted : m.options.Accepted) (queued : m.InOutput src)

include accepted queued

theorem output : m.config.output.LeadsTo m.config.output.names := by
  have above : m.config.output.parts <+: src.parts := List.isPrefixOf_iff_prefix.mp queued.inside
  have absolute := output_absolute accepted
  exact (Path.leadsTo_names absolute fun up => queued.straight (above.subset up)).1

theorem leads : src.LeadsTo (m.config.output.names ++ m.within src) := by
  have output := queued.output accepted
  obtain ⟨rest, whole⟩ := List.isPrefixOf_iff_prefix.mp queued.inside
  have root : src.parts = .root :: (m.config.output.names.map .name ++ rest) := by
    rw [← whole, output]
    rfl
  have here := (Path.leadsTo_names (Path.absolute_of_root root) queued.straight).1
  have below : m.config.output.names <+: src.names :=
    (Path.startsWith_iff here output).mp queued.inside
  rwa [within, List.prefix_iff_eq_append.mp below]

theorem ordinary : ∀ s ∈ m.within src, Path.Ordinary s := fun s member =>
  (queued.leads accepted).ordinary s (List.mem_append_right _ member)

theorem beyond_eq : m.beyond src = (m.within src).map .name := by
  have whole := parts_beyond queued.inside
  rw [queued.leads accepted, queued.output accepted, List.map_append, List.cons_append] at whole
  exact (List.append_cancel_left (List.cons.inj whole).2).symm

theorem relative : ∃ rel, src.relativeTo? m.config.output = some rel ∧
    ∀ names, (∀ s ∈ names, Path.Ordinary s) →
      ((m.config.target.join rel).descend names).parts =
        (m.config.target.descend (m.within src ++ names)).parts := by
  obtain ⟨rel, found, destination⟩ := destination_parts accepted queued.inside
  refine ⟨rel, found, fun names ordinary => ?_⟩
  have all : ∀ s ∈ m.within src ++ names, Path.Ordinary s := fun s member =>
    (List.mem_append.mp member).elim (queued.ordinary accepted s) (ordinary s)
  rw [Path.parts_descend ordinary, Path.parts_descend all,
    destination, queued.beyond_eq accepted, List.map_append, List.append_assoc]

end InOutput

/-! ### What is copied for one path -/

theorem mem_copiesOf (accepted : m.options.Accepted) (tree : d.WellFormed)
    (queued : m.InOutput src) (found : src.relativeTo? m.config.output = some rel) :
    copy ∈ m.copiesOf d src ↔ d.existsAt src = true ∧ ∃ names,
      (d.fileAt (m.config.output.names ++ (m.within src ++ names))).isSome ∧
        Disk.cutOff m.excluded src (m.config.target.join rel) names = false ∧
        copy = (src.descend names, (m.config.target.join rel).descend names) := by
  unfold copiesOf
  rw [found]
  have leads := queued.leads accepted
  simp only [Disk.mem_copies tree leads.absolute, leads.resolved, List.append_assoc]

/-- A file that is copied for a path of the queue lies below it, under names that the disk has. -/
theorem copiesOf_below (accepted : m.options.Accepted) (tree : d.WellFormed)
    (queued : m.InOutput src) (found : src.relativeTo? m.config.output = some rel)
    (copied : copy ∈ m.copiesOf d src) :
    d.existsAt src = true ∧ ∃ names, (∀ s ∈ m.within src ++ names, Path.Ordinary s) ∧
      (d.fileAt (m.config.output.names ++ (m.within src ++ names))).isSome ∧
      Disk.cutOff m.excluded src (m.config.target.join rel) names = false ∧
      copy = (src.descend names, (m.config.target.join rel).descend names) ∧
      (src.descend names).LeadsTo (m.config.output.names ++ (m.within src ++ names)) := by
  obtain ⟨present, names, there, left, rfl⟩ := (mem_copiesOf accepted tree queued found).mp copied
  have ordinary := tree.names_below there
  refine ⟨present, names, ordinary, there, left, rfl, ?_⟩
  rw [← List.append_assoc]
  exact (queued.leads accepted).descend fun s member => ordinary s (List.mem_append_right _ member)

/-- Which files below a path of the queue are copied for it. -/
theorem exists_copy_iff (accepted : m.options.Accepted) (tree : d.WellFormed)
    (queued : m.InOutput src) (found : src.relativeTo? m.config.output = some rel) :
    (∃ copy ∈ m.copiesOf d src, m.within copy.1 = m.within src ++ names) ↔
      d.existsAt src = true ∧
        (d.fileAt (m.config.output.names ++ (m.within src ++ names))).isSome ∧
        Disk.cutOff m.excluded src (m.config.target.join rel) names = false := by
  constructor
  · rintro ⟨copy, copied, here⟩
    obtain ⟨present, names', -, there, left, rfl, leads⟩ :=
      copiesOf_below accepted tree queued found copied
    rw [within_eq leads] at here
    obtain rfl := List.append_cancel_left here
    exact ⟨present, there, left⟩
  · rintro ⟨present, there, left⟩
    have ordinary := tree.names_below there
    have leads : (src.descend names).LeadsTo
        (m.config.output.names ++ m.within src ++ names) :=
      (queued.leads accepted).descend fun s member => ordinary s (List.mem_append_right _ member)
    rw [List.append_assoc] at leads
    refine ⟨_, (mem_copiesOf accepted tree queued found).mpr ⟨present, _, there, left, rfl⟩, ?_⟩
    exact within_eq leads

/-! ### The pass -/

/-- Merges the staged manifest, if it is time for that. -/
def stageIf (m : Merger) (first : Bool) : Action Failure Bool :=
  if first then m.mergeStaged else pure false

/-- What comes first for a path of the queue, what is copied, and what is left to do. -/
theorem copyQueued_cons (found : src.relativeTo? m.config.output = some rel) :
    m.copyQueued seen (src :: queue) = (do
      let merged ← m.stageIf (!seen && src.sameAs m.config.primaryManifest)
      let n ← Disk.copy m.excluded src (m.config.target.join rel)
      let rest ← m.copyQueued (seen || (!seen && src.sameAs m.config.primaryManifest)) queue
      pure (n + rest.1, merged || rest.2)) := by
  rw [copyQueued, found]
  dsimp only [stageIf]
  split <;> simp

/-- What a pass that succeeds has done for the first path of its queue, and for the rest. -/
theorem copyQueued_cons_ok {answer : Nat × Bool}
    (found : src.relativeTo? m.config.output = some rel)
    (ran : (m.copyQueued seen (src :: queue)).run s = (.ok answer, s')) :
    ∃ merged n rest s₁ s₂,
      (m.stageIf (!seen && src.sameAs m.config.primaryManifest)).run s = (.ok merged, s₁) ∧
      (Disk.copy m.excluded src (m.config.target.join rel)).run s₁ = (.ok n, s₂) ∧
      (m.copyQueued (seen || (!seen && src.sameAs m.config.primaryManifest)) queue).run s₂ =
        (.ok rest, s') ∧
      answer = (n + rest.1, merged || rest.2) := by
  rw [copyQueued_cons found] at ran
  obtain ⟨merged, s₁, staged, copying⟩ := Action.bind_ok ran
  obtain ⟨n, s₂, copied, copyingRest⟩ := Action.bind_ok copying
  obtain ⟨rest, s₃, copiedRest, answered⟩ := Action.bind_ok copyingRest
  obtain ⟨rfl, rfl⟩ := Action.pure_ok answered
  exact ⟨merged, n, rest, s₁, s₂, staged, copied, copiedRest, rfl⟩

/-- A pass over paths of the output tree comes to those behind them with or without the manifest
among what it has seen. -/
theorem copyQueued_append {before : List Path}
    (inside : ∀ p ∈ before, ∃ rel, p.relativeTo? m.config.output = some rel) :
    m.copyQueued seen (before ++ queue) = (do
      let first ← m.copyQueued seen before
      let rest ← m.copyQueued (seen || before.any (·.sameAs m.config.primaryManifest)) queue
      pure (first.1 + rest.1, first.2 || rest.2)) := by
  induction before generalizing seen with
  | nil => simp [copyQueued]
  | cons p before ih =>
    obtain ⟨⟨rel, found⟩, others⟩ := List.forall_mem_cons.mp inside
    have met : (seen || (!seen && p.sameAs m.config.primaryManifest)) =
        (seen || p.sameAs m.config.primaryManifest) := by
      cases seen <;> rfl
    rw [List.cons_append, copyQueued_cons found, copyQueued_cons found, ih others, List.any_cons,
      met, ← Bool.or_assoc]
    simp [Nat.add_assoc, Bool.or_assoc]

/-- Copies the paths of a queue that lie in the output tree, and does nothing else. -/
def copyEach (m : Merger) : List Path → Action Failure Nat
  | [] => pure 0
  | src :: queue =>
    match src.relativeTo? m.config.output with
    | none => copyEach m queue
    | some rel => do
      let n ← Disk.copy m.excluded src (m.config.target.join rel)
      let more ← copyEach m queue
      pure (n + more)

theorem copyEach_cons (found : src.relativeTo? m.config.output = some rel) :
    m.copyEach (src :: queue) = (do
      let n ← Disk.copy m.excluded src (m.config.target.join rel)
      let more ← m.copyEach queue
      pure (n + more)) := by
  rw [copyEach, found]

/-- A pass that does not come to the manifest, or not for the first time, only copies. -/
theorem copyQueued_plain
    (plain : seen = true ∨ ∀ p ∈ queue, p.sameAs m.config.primaryManifest = false) :
    m.copyQueued seen queue = (do
      let n ← m.copyEach queue
      pure (n, false)) := by
  induction queue with
  | nil => rfl
  | cons src queue ih =>
    have first : (!seen && src.sameAs m.config.primaryManifest) = false := by
      rcases plain with rfl | absent
      · rfl
      · rw [absent src (List.mem_cons_self ..), Bool.and_false]
    have rest := ih (plain.imp_right fun absent => (List.forall_mem_cons.mp absent).2)
    cases found : src.relativeTo? m.config.output with
    | none =>
      rw [copyQueued, copyEach, found]
      exact rest
    | some rel =>
      rw [copyQueued_cons found, first, Bool.or_false, rest, copyEach_cons found]
      simp [stageIf]

theorem stageIf_builds {first : Bool} (placed : m.WellPlaced) : m.BuildsTarget (m.stageIf first) := by
  unfold stageIf
  split
  · have manifest := placed.inTarget (placed.ordinary .manifest)
    exact .of_file (Manifest.mergeFilesIfPresent_builds manifest)
  · exact .pure false

/-- What stands for the path in the target is a place there. -/
theorem destination_leads (placed : m.WellPlaced) (queued : m.InOutput src)
    (found : src.relativeTo? m.config.output = some rel) :
    (m.config.target.join rel).LeadsTo (m.targetPlace ++ m.within src) := by
  obtain ⟨rel', found', destination⟩ := queued.relative placed.accepted
  obtain rfl := Option.some.inj (found.symm.trans found')
  have here := destination [] nofun
  rw [List.append_nil] at here
  have leads := placed.target.descend (queued.ordinary placed.accepted)
  rw [Path.LeadsTo, ← leads]
  exact here

theorem copyQueued_step_builds (placed : m.WellPlaced) (queued : m.InOutput src)
    (found : src.relativeTo? m.config.output = some rel) :
    m.BuildsTarget (Disk.copy m.excluded src (m.config.target.join rel)) := by
  have below : m.targetPlace <+: m.targetPlace ++ m.within src := List.prefix_append ..
  have copied : Action.Builds _ _ (Disk.copy m.excluded src (m.config.target.join rel)) :=
    Disk.copy_builds (queued.leads placed.accepted) (destination_leads placed queued found)
  exact copied.mono (fun q => Disk.around_mono below) fun q inside => below.trans inside

theorem copyQueued_builds (placed : m.WellPlaced) (queued : ∀ src ∈ queue, m.InOutput src) :
    m.BuildsTarget (m.copyQueued seen queue) := by
  induction queue generalizing seen with
  | nil => exact .pure _
  | cons src queue ih =>
    obtain ⟨first, others⟩ := List.forall_mem_cons.mp queued
    obtain ⟨rel, found, -⟩ := first.relative placed.accepted
    rw [copyQueued_cons found]
    refine .bind (stageIf_builds placed) fun merged => ?_
    refine .bind (copyQueued_step_builds placed first found) fun n => ?_
    exact .bind (ih others) fun rest => .pure _

/-- On disks with the same files in the output tree, the same is copied for a path. -/
theorem copiesOf_congr (accepted : m.options.Accepted) (tree : d.WellFormed)
    (tree' : d'.WellFormed) (queued : m.InOutput src)
    (same : ∀ names, d'.fileAt (m.config.output.names ++ names) =
      d.fileAt (m.config.output.names ++ names)) :
    m.copiesOf d' src = m.copiesOf d src := by
  obtain ⟨rel, found, -⟩ := queued.relative accepted
  unfold copiesOf
  rw [found]
  refine Disk.copies_congr tree tree' (queued.leads accepted) fun names => ?_
  rw [List.append_assoc]
  exact same _

theorem queueCopies_congr (accepted : m.options.Accepted) (tree : d.WellFormed)
    (tree' : d'.WellFormed) (queued : ∀ src ∈ queue, m.InOutput src)
    (same : ∀ names, d'.fileAt (m.config.output.names ++ names) =
      d.fileAt (m.config.output.names ++ names)) :
    m.queueCopies d' queue = m.queueCopies d queue :=
  List.flatMap_congr fun src member => copiesOf_congr accepted tree tree' (queued src member) same

theorem stageIf_file {first merged : Bool} (placed : m.WellPlaced) (tree : s.disk.WellFormed)
    (other : names ≠ [m.config.files.manifest]) (ran : (m.stageIf first).run s = (.ok merged, s')) :
    s'.disk.fileAt (m.targetPlace ++ names) = s.disk.fileAt (m.targetPlace ++ names) := by
  cases first with
  | false =>
    obtain ⟨-, rfl⟩ := Action.pure_ok ran
    rfl
  | true =>
    have toManifest := placed.inTarget (placed.ordinary .manifest)
    have built := (Manifest.mergeFilesIfPresent_builds toManifest).of_run tree ran
    exact built.fileAt_eq fun same => other (List.append_cancel_left same)

/-- The copy for one path puts the files that are copied for it, and no others. -/
theorem copyQueued_step_file {count : Nat} (placed : m.WellPlaced)
    (quiet : m.Undisturbed d s.disk) (queued : m.InOutput src)
    (found : src.relativeTo? m.config.output = some rel)
    (ran : (Disk.copy m.excluded src (m.config.target.join rel)).run s = (.ok count, s')) :
    s'.disk.fileAt (m.targetPlace ++ names) =
      if ∃ copy ∈ m.copiesOf d src, m.within copy.1 = names then
        d.fileAt (m.config.output.names ++ names)
      else s.disk.fileAt (m.targetPlace ++ names) := by
  have accepted := placed.accepted
  have output : m.config.output ∈ m.inputs := List.mem_cons_self ..
  have from_ := queued.leads accepted
  have to_ := destination_leads placed queued found
  have apart : Disk.Apart (m.config.output.names ++ m.within src)
      (m.targetPlace ++ m.within src) :=
    (placed.apart_target output).mono (List.prefix_append ..) (List.prefix_append ..)
  by_cases inside : m.within src <+: names
  · obtain ⟨rest, rfl⟩ := inside
    have laid := Disk.copy_ok quiet.second from_ to_ apart ran rest
    rw [List.append_assoc, Disk.copied, List.append_assoc, quiet.fileAt output] at laid
    rw [laid]
    simp only [exists_copy_iff accepted quiet.first queued found]
    cases left : Disk.cutOff m.excluded src (m.config.target.join rel) rest with
    | true => simp
    | false =>
      have present : d.existsAt src = true := by
        have here := quiet.same m.config.output output (m.within src)
        rw [← Disk.existsAt_congr quiet.first quiet.second from_ here]
        exact Disk.exists_of_copy ran left
      cases there : d.fileAt (m.config.output.names ++ (m.within src ++ rest)) <;> simp [present]
  · have outside : ¬ ∃ copy ∈ m.copiesOf d src, m.within copy.1 = names := by
      rintro ⟨copy, copied, rfl⟩
      obtain ⟨-, more, -, -, -, rfl, leads⟩ :=
        copiesOf_below accepted quiet.first queued found copied
      rw [within_eq leads] at inside
      exact inside (List.prefix_append ..)
    rw [if_neg outside]
    refine ((Disk.copy_builds from_ to_).of_run quiet.second ran).fileAt_eq fun under => ?_
    exact inside ((List.prefix_append_right_inj _).mp under)

/-- After the pass the target has the files that are copied for the queue, over those that it had
before; only the manifest may have been merged meanwhile. -/
theorem copyQueued_file {answer : Nat × Bool} (placed : m.WellPlaced)
    (quiet : m.Undisturbed d s.disk) (queued : ∀ src ∈ queue, m.InOutput src)
    (other : names ≠ [m.config.files.manifest])
    (ran : (m.copyQueued seen queue).run s = (.ok answer, s')) :
    s'.disk.fileAt (m.targetPlace ++ names) =
      if ∃ copy ∈ m.queueCopies d queue, m.within copy.1 = names then
        d.fileAt (m.config.output.names ++ names)
      else s.disk.fileAt (m.targetPlace ++ names) := by
  induction queue generalizing s s' seen answer with
  | nil =>
    obtain ⟨-, rfl⟩ := Action.pure_ok ran
    simp [queueCopies]
  | cons src queue ih =>
    obtain ⟨first, others⟩ := List.forall_mem_cons.mp queued
    obtain ⟨rel, found, -⟩ := first.relative placed.accepted
    obtain ⟨merged, n, rest, s₁, s₂, staging, copied, copiedRest, rfl⟩ :=
      copyQueued_cons_ok found ran
    have quiet₁ := quiet.run placed (stageIf_builds placed) staging
    have quiet₂ := quiet₁.run placed (copyQueued_step_builds placed first found) copied
    rw [ih quiet₂ others copiedRest, copyQueued_step_file placed quiet₁ first found copied,
      stageIf_file placed quiet.second other staging]
    have either : (∃ copy ∈ m.queueCopies d (src :: queue), m.within copy.1 = names) ↔
        (∃ copy ∈ m.queueCopies d queue, m.within copy.1 = names) ∨
          ∃ copy ∈ m.copiesOf d src, m.within copy.1 = names := by
      simp only [queueCopies, List.flatMap_cons, List.mem_append, or_and_right, exists_or, or_comm]
    simp only [either]
    by_cases later : ∃ copy ∈ m.queueCopies d queue, m.within copy.1 = names
    · rw [if_pos later, if_pos (.inl later)]
    · rw [if_neg later]
      simp only [later, false_or]

end BundleMerge.Merger
