import BundleMerge.Proofs.Merger.Frame

/-! What a run makes of the manifest. No pass copies it. The per-file pass merges it with the
staged one when it comes to it in its queue; the full-tree pass leaves the manifest in the target
as it is, whatever the queue says. -/
namespace BundleMerge.Merger

variable {m : Merger} {s s' : Site} {d : Disk} {src rel dest : Path} {queue : List Path}
  {names : List String} {q : Place} {slot : FileNames.Slot} {slots : List FileNames.Slot}

/-- The options are accepted, the output tree and the target lie apart, and each of the four files
has a name of its own. -/
structure Separate (m : Merger) : Prop where
  accepted : m.options.Accepted
  apart : Disk.Apart m.config.output.resolved m.config.target.resolved
  ordinary : ∀ slot, Path.Ordinary (m.config.files.get slot)
  distinct : Function.Injective m.config.files.get

/-- The place in the target of one of the four files. -/
def slotPlace (m : Merger) (slot : FileNames.Slot) : Place :=
  m.config.target.resolved ++ [m.config.files.get slot]

/-- In the target, but not the place of certain files there. -/
def Besides (m : Merger) (slots : List FileNames.Slot) (q : Place) : Prop :=
  m.config.target.resolved <+: q ∧ ∀ slot ∈ slots, q ≠ m.slotPlace slot

theorem primaryManifest_parts (separate : m.Separate) : m.config.primaryManifest.parts =
    m.config.output.parts ++ [.name m.config.files.manifest] :=
  Path.parts_join_name (separate.ordinary .manifest)

theorem inTarget_resolved (separate : m.Separate) (slot : FileNames.Slot) :
    (m.inTarget (m.config.files.get slot)).resolved = m.slotPlace slot :=
  Path.resolved_join_name (separate.ordinary slot)

theorem slotPlace_injective (separate : m.Separate) : Function.Injective m.slotPlace := by
  intro slot other same
  exact separate.distinct (List.singleton_inj.mp (List.append_cancel_left same))

theorem besides_of_slot (separate : m.Separate) (other : slot ∉ slots)
    (below : m.slotPlace slot <+: q) : m.Besides slots q := by
  refine ⟨(List.prefix_append ..).trans below, ?_⟩
  rintro slot' member rfl
  have same : m.slotPlace slot = m.slotPlace slot' := below.eq_of_length (by simp [slotPlace])
  exact other (slotPlace_injective separate same ▸ member)

theorem not_besides_slot (member : slot ∈ slots) : ¬ m.Besides slots (m.slotPlace slot) :=
  fun besides => besides.2 slot member rfl

theorem Besides.fewer (besides : m.Besides slots q) {fewer : List FileNames.Slot}
    (inside : fewer ⊆ slots) : m.Besides fewer q :=
  ⟨besides.1, fun slot member => besides.2 slot (inside member)⟩

/-- What lies in the output tree is not in the target. -/
theorem not_besides_output (separate : m.Separate) :
    ¬ m.Besides slots (m.config.output.resolved ++ names) :=
  fun inside => separate.apart.not_below (List.prefix_append ..) inside.1

/-! ### Copies from the output tree -/

/-- The parts of a path beyond the output tree are names, if there is no `..` among them. -/
theorem beyond_names (accepted : m.options.Accepted)
    (inside : src.startsWith m.config.output = true) (straight : Path.Part.up ∉ m.beyond src) :
    ∃ names : List String, m.beyond src = names.map .name := by
  apply Path.exists_names
  intro part member
  cases part with
  | root => exact absurd member (root_not_mem_beyond accepted inside)
  | here =>
    have absolute := absolute_of_inside accepted inside
    exact absurd (List.mem_of_mem_drop member) (Path.here_not_mem_parts absolute)
  | up => exact absurd member straight
  | name s => exact ⟨s, rfl⟩

theorem ends_absolute (separate : m.Separate)
    (from_ : src.parts = m.config.output.parts ++ names.map .name)
    (to_ : dest.parts = m.config.target.parts ++ names.map .name) :
    src.isAbsolute = true ∧ dest.isAbsolute = true := by
  have output := output_absolute separate.accepted
  have target := target_absolute separate.accepted
  exact ⟨Path.absolute_of_goesOn output from_, Path.absolute_of_goesOn target to_⟩

/-- The entry script and the manifest of the primary program are not to be copied. -/
theorem excluded_own (separate : m.Separate) (own : slot = .entryScript ∨ slot = .manifest)
    (here : src.parts = m.config.output.parts ++ [.name (m.config.files.get slot)]) :
    m.excluded src dest = true := by
  have parts : (m.config.output.join ⟨m.config.files.get slot⟩).parts = src.parts :=
    (Path.parts_join_name (separate.ordinary slot)).trans here.symm
  obtain rfl | rfl := own
  · have same : src.sameAs m.config.primaryEntry = true := decide_eq_true parts.symm
    rw [excluded, same, Bool.true_or, Bool.true_or]
  · have same : src.sameAs m.config.primaryManifest = true := decide_eq_true parts.symm
    rw [excluded, same, Bool.or_true, Bool.true_or]

section Arrivals

variable (separate : m.Separate) (tree : d.WellFormed)
  (from_ : src.parts = m.config.output.parts ++ names.map .name)
  (to_ : dest.parts = m.config.target.parts ++ names.map .name)
  (arrives : Disk.arrivals d m.excluded src dest q)

include separate tree from_ to_ arrives

/-- What arrives in the target has the names that it has in the output tree, and they lead neither
to the entry script nor to the manifest. -/
theorem arrives_under : ∃ more, q = m.config.target.resolved ++ (names ++ more) ∧
    (d.fileAt (m.config.output.resolved ++ (names ++ more))).isSome ∧
    ∀ slot, slot = .entryScript ∨ slot = .manifest → names ++ more ≠ [m.config.files.get slot] := by
  obtain ⟨more, rfl, there, left⟩ := arrives
  have source : src.resolved = m.config.output.resolved ++ names := by
    rw [Path.resolved, from_, Path.resolve_append, Path.resolve_names, ← Path.resolved]
  have place : dest.resolved = m.config.target.resolved ++ names := by
    rw [Path.resolved, to_, Path.resolve_append, Path.resolve_names, ← Path.resolved]
  refine ⟨more, by rw [place, List.append_assoc], by rwa [← List.append_assoc, ← source], ?_⟩
  intro slot own here
  have parts : (src.descend more).parts =
      m.config.output.parts ++ [.name (m.config.files.get slot)] := by
    rw [Path.parts_descend (tree.names_below there), from_, List.append_assoc, ← List.map_append,
      here, List.map_singleton]
  have kept := Disk.cutOff_eq_false_iff.mp left more List.prefix_rfl
  rw [excluded_own separate own parts] at kept
  cases kept

theorem arrivals_besides_own : m.Besides [.entryScript, .manifest] q := by
  obtain ⟨more, rfl, -, other⟩ := arrives_under separate tree from_ to_ arrives
  refine ⟨List.prefix_append .., fun slot own same => ?_⟩
  exact other slot (by simpa using own) (List.append_cancel_left same)

/-- A copy from the output tree to the same names in the target puts neither the manifest there,
nor the staged manifest if the output tree has none. -/
theorem arrivals_besides_staged
    (absent : d.fileAt (m.config.output.resolved ++ [m.config.files.secondaryManifest]) = none) :
    m.Besides [.manifest, .secondaryManifest] q := by
  obtain ⟨more, rfl, there, other⟩ := arrives_under separate tree from_ to_ arrives
  refine ⟨List.prefix_append .., fun slot member same => ?_⟩
  have last : names ++ more = [m.config.files.get slot] := List.append_cancel_left same
  obtain rfl | rfl : slot = .manifest ∨ slot = .secondaryManifest := by simpa using member
  · exact other .manifest (.inr rfl) last
  · rw [last] at there
    change (d.fileAt (_ ++ [m.config.files.secondaryManifest])).isSome = true at there
    simp [absent] at there

end Arrivals

/-- Whatever is copied from the output tree, the entry script and the manifest in the target are
left as they are. -/
theorem copy_besides_own (separate : m.Separate)
    (from_ : src.parts = m.config.output.parts ++ names.map .name)
    (to_ : dest.parts = m.config.target.parts ++ names.map .name) :
    Action.Builds anywhere (m.Besides [.entryScript, .manifest])
      (Disk.copy m.excluded src dest) := by
  obtain ⟨fromRoot, toRoot⟩ := ends_absolute separate from_ to_
  intro s tree
  refine (Disk.copy_built tree fromRoot toRoot).mono (fun _ _ => trivial) fun q arrives => ?_
  exact arrivals_besides_own separate tree from_ to_ arrives

theorem copy_besides (separate : m.Separate)
    (from_ : src.parts = m.config.output.parts ++ names.map .name)
    (to_ : dest.parts = m.config.target.parts ++ names.map .name) :
    Action.Builds anywhere (m.Besides [.manifest]) (Disk.copy m.excluded src dest) :=
  (copy_besides_own separate from_ to_).mono (fun _ => id) fun _ besides => besides.fewer (by simp)

/-- The staged manifest stays too, if there is none in the output tree. -/
theorem copy_besides_staged (separate : m.Separate) (tree : s.disk.WellFormed)
    (from_ : src.parts = m.config.output.parts ++ names.map .name)
    (to_ : dest.parts = m.config.target.parts ++ names.map .name)
    (absent : s.disk.fileAt
      (m.config.output.resolved ++ [m.config.files.secondaryManifest]) = none) :
    Disk.Builds anywhere (m.Besides [.manifest, .secondaryManifest]) s.disk
      ((Disk.copy m.excluded src dest).run s).2.disk := by
  obtain ⟨fromRoot, toRoot⟩ := ends_absolute separate from_ to_
  refine (Disk.copy_built tree fromRoot toRoot).mono (fun _ _ => trivial) fun q arrives => ?_
  exact arrivals_besides_staged separate tree from_ to_ arrives absent

/-! ### The per-file pass -/

/-- The queue holds no `..` beyond the output tree. -/
def Straight (m : Merger) (queue : List Path) : Prop :=
  ∀ src ∈ queue, src.startsWith m.config.output = true → Path.Part.up ∉ m.beyond src

theorem queued_ends (separate : m.Separate) (found : src.relativeTo? m.config.output = some rel)
    (straight : Path.Part.up ∉ m.beyond src) :
    ∃ names : List String, src.parts = m.config.output.parts ++ names.map .name ∧
      (m.config.target.join rel).parts = m.config.target.parts ++ names.map .name := by
  have inside := Path.startsWith_of_relativeTo? found
  obtain ⟨names, further⟩ := beyond_names separate.accepted inside straight
  obtain ⟨rel', found', destination⟩ := destination_parts separate.accepted inside
  obtain rfl := Option.some.inj (found.symm.trans found')
  rw [further] at destination
  exact ⟨names, further ▸ parts_beyond inside, destination⟩

theorem manifest_inside (separate : m.Separate)
    (here : src.sameAs m.config.primaryManifest = true) :
    src.startsWith m.config.output = true := by
  rw [Path.startsWith, List.isPrefixOf_iff_prefix, Path.sameAs_iff.mp here,
    primaryManifest_parts separate]
  exact List.prefix_append ..

theorem copyEach_besides_own (separate : m.Separate) (straight : m.Straight queue) :
    Action.Builds anywhere (m.Besides [.entryScript, .manifest]) (m.copyEach queue) := by
  induction queue with
  | nil => exact .pure _
  | cons src queue ih =>
    obtain ⟨first, others⟩ := List.forall_mem_cons.mp straight
    cases found : src.relativeTo? m.config.output with
    | none =>
      rw [copyEach, found]
      exact ih others
    | some rel =>
      obtain ⟨names, from_, to_⟩ :=
        queued_ends separate found (first (Path.startsWith_of_relativeTo? found))
      rw [copyEach_cons found]
      refine .bind (copy_besides_own separate from_ to_) fun n => ?_
      exact .bind (ih others) fun more => .pure _

/-- Without a staged manifest in the output tree, the copies do not touch the one in the target. -/
theorem copyEach_besides_staged {count : Nat} (separate : m.Separate) (tree : s.disk.WellFormed)
    (straight : m.Straight queue)
    (absent : s.disk.fileAt
      (m.config.output.resolved ++ [m.config.files.secondaryManifest]) = none)
    (ran : (m.copyEach queue).run s = (.ok count, s')) :
    Disk.Builds anywhere (m.Besides [.manifest, .secondaryManifest]) s.disk s'.disk := by
  induction queue generalizing s count with
  | nil =>
    obtain ⟨-, rfl⟩ := Action.pure_ok ran
    exact .refl
  | cons src queue ih =>
    obtain ⟨first, others⟩ := List.forall_mem_cons.mp straight
    cases found : src.relativeTo? m.config.output with
    | none =>
      rw [copyEach, found] at ran
      exact ih tree others absent ran
    | some rel =>
      rw [copyEach_cons found] at ran
      obtain ⟨names, from_, to_⟩ :=
        queued_ends separate found (first (Path.startsWith_of_relativeTo? found))
      obtain ⟨n, s₁, copied, copying⟩ := Action.bind_ok ran
      obtain ⟨more, s₂, copiedRest, answered⟩ := Action.bind_ok copying
      obtain ⟨-, rfl⟩ := Action.pure_ok answered
      have built := copy_besides_staged separate tree from_ to_ absent
      rw [copied] at built
      -- The copy has left the output tree alone, so there is still no staged manifest in it.
      have absent₁ : s₁.disk.fileAt _ = none :=
        (built.fileAt_eq (not_besides_output separate)).trans absent
      exact built.trans (ih (built.wellFormed tree) others absent₁ copiedRest)

/-- The manifest stands at the path, and nowhere before it. -/
structure FirstListed (m : Merger) (before : List Path) (src : Path) : Prop where
  here : src.sameAs m.config.primaryManifest = true
  first : ∀ p ∈ before, p.sameAs m.config.primaryManifest = false

theorem exists_firstListed (listed : ∃ src ∈ queue, src.sameAs m.config.primaryManifest = true) :
    ∃ before src after, queue = before ++ src :: after ∧ m.FirstListed before src := by
  obtain ⟨src, found⟩ := Option.isSome_iff_exists.mp (List.find?_isSome.mpr listed)
  obtain ⟨here, before, after, split, first⟩ := List.find?_eq_some_iff_append.mp found
  exact ⟨before, src, after, split, here, fun p member => by simpa using first p member⟩

/-- A pass copies what comes before the manifest, merges the staged one, and copies the rest. -/
theorem copyQueued_split {before after : List Path} (separate : m.Separate)
    (listed : m.FirstListed before src) :
    m.copyQueued false (before ++ src :: after) = (do
      let early ← m.copyEach before
      let merged ← m.mergeStaged
      let late ← m.copyEach (src :: after)
      pure (early + late, merged)) := by
  obtain ⟨here, first⟩ := listed
  induction before with
  | nil =>
    obtain ⟨rel, found, -⟩ := destination_parts separate.accepted (manifest_inside separate here)
    have seen : m.copyQueued (false || !false && true) after = _ := copyQueued_plain (.inl rfl)
    rw [List.nil_append, copyQueued_cons found, here, seen, copyEach_cons found, copyEach]
    simp [stageIf]
  | cons p before ih =>
    obtain ⟨other, others⟩ := List.forall_mem_cons.mp first
    rw [List.cons_append]
    cases found : p.relativeTo? m.config.output with
    | none =>
      rw [copyQueued, found, copyEach, found]
      exact ih others
    | some rel =>
      rw [copyQueued_cons found, other, Bool.and_false, Bool.or_false, ih others,
        copyEach_cons found]
      simp [stageIf, Nat.add_assoc]

/-- A pass over a queue with the manifest in it: what comes before the manifest is copied, then the
staged one is merged, and then the rest is copied. -/
structure Stretches (m : Merger) (queue : List Path) (s found left s' : Site)
    (answer : Nat × Bool) : Prop where
  copying : ∃ before src after early late, queue = before ++ src :: after ∧
    m.FirstListed before src ∧ (m.copyEach before).run s = (.ok early, found) ∧
    (m.copyEach (src :: after)).run left = (.ok late, s') ∧ answer.1 = early + late
  merging : m.mergeStaged.run found = (.ok answer.2, left)

theorem exists_stretches {answer : Nat × Bool} (separate : m.Separate)
    (listed : ∃ src ∈ queue, src.sameAs m.config.primaryManifest = true)
    (ran : (m.copyQueued false queue).run s = (.ok answer, s')) :
    ∃ found left, m.Stretches queue s found left s' answer := by
  obtain ⟨before, src, after, rfl, first⟩ := exists_firstListed listed
  rw [copyQueued_split separate first] at ran
  obtain ⟨early, found, copied, staging⟩ := Action.bind_ok ran
  obtain ⟨merged, left, merging, copying⟩ := Action.bind_ok staging
  obtain ⟨late, _, copiedRest, answered⟩ := Action.bind_ok copying
  obtain ⟨rfl, rfl⟩ := Action.pure_ok answered
  refine ⟨found, left, ⟨?_, merging⟩⟩
  exact ⟨before, src, after, early, late, rfl, first, copied, copiedRest, rfl⟩

/-- A pass that comes to the manifest merges the staged one there. Before that, it puts neither
into the target; afterwards, it leaves the merged manifest alone. -/
theorem copyQueued_stages {answer : Nat × Bool} (separate : m.Separate) (tree : s.disk.WellFormed)
    (straight : m.Straight queue)
    (queued : ∃ src ∈ queue, src.sameAs m.config.primaryManifest = true)
    (absent : s.disk.fileAt
      (m.config.output.resolved ++ [m.config.files.secondaryManifest]) = none)
    (ran : (m.copyQueued false queue).run s = (.ok answer, s')) :
    ∃ s₁ s₂ merged,
      Disk.Builds anywhere (m.Besides [.manifest, .secondaryManifest]) s.disk s₁.disk ∧
      m.mergeStaged.run s₁ = (.ok merged, s₂) ∧
      Disk.Builds anywhere (m.Besides [.manifest]) s₂.disk s'.disk := by
  obtain ⟨found, left, copying, merging⟩ := exists_stretches separate queued ran
  obtain ⟨before, src, after, early, late, rfl, -, copied, copiedRest, -⟩ := copying
  obtain ⟨earlier, later⟩ := List.forall_mem_append.mp straight
  have built := copyEach_besides_staged separate tree earlier absent copied
  have tree₁ := built.wellFormed tree
  have tree₂ := ((mergeStaged_writes separate.accepted).of_run tree₁ merging).wellFormed tree₁
  have builtRest := (copyEach_besides_own separate later).of_run tree₂ copiedRest
  refine ⟨found, left, answer.2, built, merging, builtRest.mono (fun _ => id) fun q besides => ?_⟩
  exact besides.fewer (by simp)

/-! ### Merging -/

/-- Where there is an entry script, the way to the manifest beside it is open. -/
theorem passes_primaryManifest (separate : m.Separate)
    (present : d.existsAt m.config.primaryEntry = true) :
    d.Passes m.config.primaryManifest.parts := by
  have output := output_absolute separate.accepted
  obtain ⟨n, found⟩ := Disk.existsAt_iff.mp present
  have entry : m.config.primaryEntry.parts =
      m.config.output.parts ++ [.name m.config.files.entryScript] :=
    Path.parts_join_name (separate.ordinary .entryScript)
  obtain ⟨-, open_, -⟩ := (Disk.stat_ok_iff_passes (Path.absolute_join _ output)).mp found
  change d.Passes m.config.primaryEntry.parts at open_
  rw [entry, Disk.passes_snoc] at open_
  rw [primaryManifest_parts separate, Disk.passes_snoc]
  exact open_

theorem mergeStaged_along (separate : m.Separate) :
    Action.Builds anywhere (· = m.slotPlace .manifest) m.mergeStaged := by
  have target := inTarget_absolute separate.accepted m.config.files.manifest
  have place : (m.inTarget m.config.files.manifest).resolved = m.slotPlace .manifest :=
    inTarget_resolved separate .manifest
  rw [← place]
  exact (Manifest.mergeFilesIfPresent_along target).mono (fun _ _ => trivial) fun _ => id

/-- Without a staged manifest there is nothing to do. With one, the target gets the merged one. -/
theorem mergeStaged_outcome {merged : Bool} (separate : m.Separate) (tree : s.disk.WellFormed)
    (ran : m.mergeStaged.run s = (.ok merged, s')) :
    (merged = false ∧ s.disk.existsAt (m.inTarget m.config.files.secondaryManifest) = false ∧
      s' = s) ∨
    (merged = true ∧ s.disk.existsAt (m.inTarget m.config.files.secondaryManifest) = true ∧
      ∃ primary secondary, Manifest.read s.disk m.config.primaryManifest = .ok primary ∧
        Manifest.read s.disk (m.inTarget m.config.files.secondaryManifest) = .ok secondary ∧
        s'.disk.fileAt (m.slotPlace .manifest) =
          some (Manifest.text (.object (Manifest.merge primary secondary))).toUTF8) := by
  have target := inTarget_absolute separate.accepted m.config.files.manifest
  rcases Manifest.mergeFilesIfPresent_ok tree target ran with
    ⟨absent, rfl, rfl⟩ | ⟨primary, secondary, both, rfl, written⟩
  · exact .inl ⟨rfl, absent, rfl⟩
  · obtain ⟨present, first, second⟩ := Manifest.readBoth_ok_iff.mp both
    have place : (m.inTarget m.config.files.manifest).resolved = m.slotPlace .manifest :=
      inTarget_resolved separate .manifest
    rw [place] at written
    exact .inr ⟨rfl, present, primary, secondary, first, second, written⟩

theorem mergeStaged_ok {merged : Bool} {secondary : Json.Fields} (separate : m.Separate)
    (tree : s.disk.WellFormed)
    (staged : Manifest.read s.disk (m.inTarget m.config.files.secondaryManifest) = .ok secondary)
    (ran : m.mergeStaged.run s = (.ok merged, s')) :
    ∃ primary, Manifest.read s.disk m.config.primaryManifest = .ok primary ∧
      s'.disk.fileAt (m.slotPlace .manifest) =
        some (Manifest.text (.object (Manifest.merge primary secondary))).toUTF8 := by
  have target := inTarget_absolute separate.accepted m.config.files.secondaryManifest
  obtain ⟨-, present⟩ := Manifest.passes_of_read target staged
  rcases mergeStaged_outcome separate tree ran with
    ⟨-, absent, -⟩ | ⟨-, -, primary, secondary', first, second, written⟩
  · rw [present] at absent
    cases absent
  · obtain rfl := Except.ok.inj (staged.symm.trans second)
    exact ⟨primary, first, written⟩

/-- After a per-file pass over a queue with the manifest in it, the target has the merged one. -/
theorem copyQueued_merges {answer : Nat × Bool} {secondary : Json.Fields} (separate : m.Separate)
    (tree : s.disk.WellFormed) (straight : m.Straight queue)
    (queued : ∃ src ∈ queue, src.sameAs m.config.primaryManifest = true)
    (present : s.disk.existsAt m.config.primaryEntry = true)
    (staged : Manifest.read s.disk (m.inTarget m.config.files.secondaryManifest) = .ok secondary)
    (absent : s.disk.fileAt
      (m.config.output.resolved ++ [m.config.files.secondaryManifest]) = none)
    (ran : (m.copyQueued false queue).run s = (.ok answer, s')) :
    ∃ primary, Manifest.read s.disk m.config.primaryManifest = .ok primary ∧
      s'.disk.fileAt (m.slotPlace .manifest) =
        some (Manifest.text (.object (Manifest.merge primary secondary))).toUTF8 := by
  obtain ⟨s₁, s₂, merged, before, merging, after⟩ :=
    copyQueued_stages separate tree straight queued absent ran
  have target := inTarget_absolute separate.accepted m.config.files.secondaryManifest
  have output := output_absolute separate.accepted
  -- The manifests are at the merge what they were at the start.
  have staged₁ : Manifest.read s₁.disk (m.inTarget m.config.files.secondaryManifest) =
      .ok secondary := by
    have stays : ¬ m.Besides [.manifest, .secondaryManifest]
        (m.inTarget (m.config.files.get .secondaryManifest)).resolved := by
      rw [inTarget_resolved separate]
      exact fun inside => inside.2 .secondaryManifest (by simp) rfl
    exact (Manifest.read_kept before target (Manifest.passes_of_read target staged).1 stays).mpr
      staged
  obtain ⟨primary, read₁, written⟩ :=
    mergeStaged_ok separate (before.wellFormed tree) staged₁ merging
  have read : Manifest.read s.disk m.config.primaryManifest = .ok primary := by
    have place : m.config.primaryManifest.resolved =
        m.config.output.resolved ++ [m.config.files.manifest] :=
      Path.resolved_join_name (separate.ordinary .manifest)
    have stays : ¬ m.Besides [.manifest, .secondaryManifest] m.config.primaryManifest.resolved := by
      rw [place]
      exact not_besides_output separate
    exact (Manifest.read_kept before (Path.absolute_join _ output)
      (passes_primaryManifest separate present) stays).mp read₁
  refine ⟨primary, read, ?_⟩
  rw [after.fileAt_eq fun inside => inside.2 .manifest (by simp) rfl, written]

/-! ### The whole run -/

theorem writeBridge_besides {bridge : BridgeFile} (separate : m.Separate)
    (known : ∀ p ∈ sourceOf bridge, p ∈ m.inputs) :
    Action.Builds anywhere (m.Besides [.manifest]) (m.writeBridge bridge) := by
  have place : (m.inTarget m.config.files.bridgeOutput).resolved = m.slotPlace .bridgeOutput :=
    inTarget_resolved separate .bridgeOutput
  have other : FileNames.Slot.bridgeOutput ∉ [FileNames.Slot.manifest] := by decide
  refine (writeBridge_along separate.accepted known).mono (fun _ _ => trivial) fun q below => ?_
  rw [Disk.under, place] at below
  exact besides_of_slot separate other below

theorem existsAt_of_prepared {bridge : BridgeFile} (prepared : m.prepare d = .ok bridge) :
    d.existsAt m.config.primaryEntry = true := by
  unfold prepare at prepared
  dsimp only at prepared
  split at prepared
  · assumption
  · cases prepared

/-- The stages of a run that succeeds, and what it reports of them. -/
theorem run_ok {report : Report} (ran : (m.run queue).run s = (.ok report, s')) :
    ∃ bridge counted laid s₁ s₂, m.prepare s.disk = .ok bridge ∧
      (m.copyChanges (m.strategyFor queue.length) queue).run s = (.ok counted, s₁) ∧
      (m.writeBridge bridge).run s₁ = (.ok (), s₂) ∧
      m.overlayIfPresent.run s₂ = (.ok laid, s') ∧
      report = ⟨m.strategyFor queue.length, queue.length, counted.1, counted.2, sourceOf bridge,
        laid⟩ := by
  obtain ⟨bridge, _, preparing, copying⟩ := Action.bind_ok ran
  obtain ⟨prepared, rfl⟩ := Action.look_ok preparing
  obtain ⟨counted, s₁, copied, bridging⟩ := Action.bind_ok copying
  obtain ⟨_, s₂, bridged, laying⟩ := Action.bind_ok bridging
  obtain ⟨laid, s₃, overlaid, answered⟩ := Action.bind_ok laying
  obtain ⟨rfl, rfl⟩ := Action.pure_ok answered
  exact ⟨bridge, counted, laid, s₁, s₂, prepared, copied, bridged, overlaid, rfl⟩

/-- Without a secondary program, a run ends when the bridge file is written. -/
theorem run_alone {report : Report} (alone : m.config.copyDir = none)
    (ran : (m.run queue).run s = (.ok report, s')) :
    ∃ bridge counted s₁, m.prepare s.disk = .ok bridge ∧
      (m.copyChanges (m.strategyFor queue.length) queue).run s = (.ok counted, s₁) ∧
      (m.writeBridge bridge).run s₁ = (.ok (), s') := by
  obtain ⟨bridge, counted, laid, s₁, s₂, prepared, copied, bridged, overlaid, -⟩ := run_ok ran
  have nothing : m.overlayIfPresent = pure none := by rw [overlayIfPresent, alone]
  rw [nothing] at overlaid
  obtain ⟨-, rfl⟩ := Action.pure_ok overlaid
  exact ⟨bridge, counted, s₁, prepared, copied, bridged⟩

/-- Without a secondary program, a run with the manifest in its queue leaves it merged with the
staged one if it copies per file. If it copies the whole tree, the manifest in the target is what
it was. -/
theorem staged_manifest_merged {report : Report} {secondary : Json.Fields} (separate : m.Separate)
    (alone : m.config.copyDir = none) (tree : s.disk.WellFormed) (straight : m.Straight queue)
    (queued : ∃ src ∈ queue, src.sameAs m.config.primaryManifest = true)
    (staged : Manifest.read s.disk (m.inTarget m.config.files.secondaryManifest) = .ok secondary)
    (absent : s.disk.fileAt
      (m.config.output.resolved ++ [m.config.files.secondaryManifest]) = none)
    (ran : (m.run queue).run s = (.ok report, s')) :
    (queue.length < m.config.fullCopyThreshold →
      ∃ primary, Manifest.read s.disk m.config.primaryManifest = .ok primary ∧
        s'.disk.fileAt (m.slotPlace .manifest) =
          some (Manifest.text (.object (Manifest.merge primary secondary))).toUTF8) ∧
    (m.config.fullCopyThreshold ≤ queue.length →
      s'.disk.fileAt (m.slotPlace .manifest) = s.disk.fileAt (m.slotPlace .manifest)) := by
  obtain ⟨bridge, counted, s₁, prepared, copied, bridged⟩ := run_alone alone ran
  have known := prepare_known prepared
  have level : ∀ src ∈ queue, src.startsWith m.config.output = true → m.Level src :=
    fun src member inside => Path.climb_straight (straight src member inside)
  have tree₁ : s₁.disk.WellFormed :=
    ((copyChanges_writes separate.accepted level).of_run tree copied).wellFormed tree
  have stays : ¬ m.Besides [.manifest] (m.slotPlace .manifest) := fun inside =>
    inside.2 .manifest (by simp) rfl
  have last : s'.disk.fileAt (m.slotPlace .manifest) = s₁.disk.fileAt (m.slotPlace .manifest) :=
    ((writeBridge_besides separate known).of_run tree₁ bridged).fileAt_eq stays
  rw [last]
  constructor
  · intro few
    rw [strategyFor, if_neg (by omega)] at copied
    exact copyQueued_merges separate tree straight queued (existsAt_of_prepared prepared) staged
      absent copied
  · intro many
    rw [strategyFor, if_pos many] at copied
    obtain ⟨count, s₂, whole, answered⟩ := Action.bind_ok copied
    obtain ⟨-, rfl⟩ := Action.pure_ok answered
    have top : ∀ p : Path, p.parts = p.parts ++ ([] : List String).map .name := by simp
    have built : Action.Builds anywhere (m.Besides [.manifest]) m.copyFullTree :=
      copy_besides separate (top _) (top _)
    exact (built.of_run tree whole).fileAt_eq stays

def stagedOptions : Options where
  config := { input := ⟨"/src"⟩, output := ⟨"/dist"⟩, target := ⟨"/out"⟩ }
  excludes := []

/-- A merger of one program, with the manifest of another one that lies in the target. -/
def staging : Merger := .ofOptions stagedOptions

def stagedDisk : Disk :=
  [(["dist"], .dir), (["dist", "app.js"], .file ⟨#[49]⟩),
    (["dist", "app.json"], .file "\x7b\"pages\":[\"p1\"]\x7d".toUTF8), (["out"], .dir),
    (["out", "uni-app.json"], .file "\x7b\"pages\":[\"p2\"]\x7d".toUTF8)].foldl
    (fun d entry => d.assign entry.1 entry.2) (.empty [])

theorem staging_separate : staging.Separate where
  accepted := ⟨⟨"/"⟩, stagedOptions.config, stagedOptions, by decide, rfl, rfl⟩
  apart := ⟨by decide, by decide⟩
  ordinary slot := by cases slot <;> decide
  distinct a b same := by
    revert same
    cases a <;> cases b <;> decide

theorem stagedDisk_wellFormed : stagedDisk.WellFormed :=
  .of_nodes (by decide)

theorem staging_straight {count : Nat} :
    staging.Straight (List.replicate count ⟨"/dist/app.json"⟩) := by
  intro src member _
  rw [List.eq_of_mem_replicate member]
  decide

/-- A queue of one, which is copied per file. -/
theorem staged_manifest_merged_one :
    let merged := "\x7b\n  \"pages\": [\n    \"p1\",\n    \"p2\"\n  ],\n" ++
      "  \"subPackages\": []\n\x7d"
    ∃ report s', (staging.run [⟨"/dist/app.json"⟩]).run ⟨stagedDisk, []⟩ = (.ok report, s') ∧
      (∃ primary secondary, Manifest.read stagedDisk ⟨"/dist/app.json"⟩ = .ok primary ∧
        Manifest.read stagedDisk ⟨"/out/uni-app.json"⟩ = .ok secondary ∧
        s'.disk.fileAt ["out", "app.json"] =
          some (Manifest.text (.object (Manifest.merge primary secondary))).toUTF8) ∧
      s'.disk.fileAt ["out", "app.json"] = some merged.toUTF8 := by
  intro merged
  have succeeds : ((staging.run [⟨"/dist/app.json"⟩]).run ⟨stagedDisk, []⟩).1.isOk = true := by
    decide +kernel
  have content : ((staging.run [⟨"/dist/app.json"⟩]).run ⟨stagedDisk, []⟩).2.disk.fileAt
      ["out", "app.json"] = some merged.toUTF8 := by decide +kernel
  have reads : (Manifest.read stagedDisk ⟨"/out/uni-app.json"⟩).isOk = true := by decide +kernel
  generalize ran : (staging.run [⟨"/dist/app.json"⟩]).run ⟨stagedDisk, []⟩ = outcome
    at succeeds content
  obtain ⟨answer, s'⟩ := outcome
  cases answer with
  | error e => cases succeeds
  | ok report =>
    cases staged : Manifest.read stagedDisk ⟨"/out/uni-app.json"⟩ with
    | error e =>
      rw [staged] at reads
      cases reads
    | ok secondary =>
      obtain ⟨few, -⟩ := staged_manifest_merged (s := ⟨stagedDisk, []⟩) staging_separate rfl
        stagedDisk_wellFormed (@staging_straight 1) ⟨_, List.mem_singleton_self _, by decide +kernel⟩
        staged (by decide +kernel) ran
      obtain ⟨primary, read, written⟩ := few (by decide +kernel)
      exact ⟨report, s', rfl, ⟨primary, secondary, read, rfl, written⟩, content⟩

/-- With as many entries as the threshold says, the same change does not reach the target. In a
short queue it does, but not for long if another entry spells the manifest with `..`: that one is
copied over what was merged. -/
theorem staged_manifest_not_merged :
    let queue := List.replicate staging.config.fullCopyThreshold (⟨"/dist/app.json"⟩ : Path)
    let spelled : List Path := [⟨"/dist/app.json"⟩, ⟨"/dist/pages/../app.json"⟩]
    let paged := stagedDisk.assign ["dist", "pages"] .dir
    (staging.Separate ∧ staging.config.copyDir = none ∧ stagedDisk.WellFormed ∧
      staging.Straight queue ∧ staging.config.primaryManifest ∈ queue ∧
      (Manifest.read stagedDisk (staging.inTarget "uni-app.json")).isOk = true ∧
      stagedDisk.fileAt ["dist", "uni-app.json"] = none ∧
      ((staging.run queue).run ⟨stagedDisk, []⟩).1.isOk = true ∧
      ((staging.run queue).run ⟨stagedDisk, []⟩).2.disk.fileAt (staging.slotPlace .manifest) =
        none) ∧
    paged.WellFormed ∧ spelled.length < staging.config.fullCopyThreshold ∧
      staging.config.primaryManifest ∈ spelled ∧
      (Manifest.read paged (staging.inTarget "uni-app.json")).isOk = true ∧
      paged.fileAt ["dist", "uni-app.json"] = none ∧
      ((staging.run spelled).run ⟨paged, []⟩).1.isOk = true ∧
      ((staging.run spelled).run ⟨paged, []⟩).2.disk.fileAt (staging.slotPlace .manifest) =
        some "\x7b\"pages\":[\"p1\"]\x7d".toUTF8 := by
  intro queue spelled paged
  refine ⟨⟨staging_separate, rfl, stagedDisk_wellFormed, staging_straight, ?_⟩, ?_, ?_⟩
  · decide +kernel
  · exact .of_nodes (by decide +kernel)
  · decide +kernel

end BundleMerge.Merger
