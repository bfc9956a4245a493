import BundleMerge.Merger
import BundleMerge.Proofs.Disk.Copy
import BundleMerge.Proofs.Manifest.File
import BundleMerge.Proofs.Options

/-! The stages of a merge run, each with what it leaves in the target. All of them build around
the target only, so that none of them touches what a run reads. -/
namespace BundleMerge.Merger

variable {m : Merger} {s s' : Site} {d d' : Disk} {p dir : Path} {names : List String}
  {name : String}

/-- The options are accepted, the trees that they name are free of `..` and lie apart from each
other, and each of the four files has a name of its own. -/
structure WellPlaced (m : Merger) : Prop where
  accepted : m.options.Accepted
  straight : ∀ p ∈ m.config.trees, Path.Part.up ∉ p.parts
  apart : m.config.trees.Pairwise fun p q => p.startsWith q = false ∧ q.startsWith p = false
  ordinary : ∀ slot, Path.Ordinary (m.config.files.get slot)
  distinct : Function.Injective m.config.files.get

/-- What a run reads and never writes. -/
def inputs (m : Merger) : List Path :=
  m.config.output :: (m.config.copyDir.toList ++ m.config.sourceApp.toList)

def targetPlace (m : Merger) : Place := m.config.target.names

theorem mem_trees : p ∈ m.config.trees ↔ p = m.config.target ∨ p ∈ m.inputs := by
  simp only [Config.trees, inputs, List.cons_append, List.nil_append, List.mem_cons]
  tauto

section Accepted

variable (accepted : m.options.Accepted)

include accepted

theorem output_absolute : m.config.output.isAbsolute = true :=
  accepted.absolute _ (by simp [Config.trees, config])

theorem target_absolute : m.config.target.isAbsolute = true :=
  accepted.absolute _ (by simp [Config.trees, config])

theorem inTarget_absolute (name : String) : (m.inTarget name).isAbsolute = true :=
  Path.absolute_join _ (target_absolute accepted)

theorem input_absolute (member : p ∈ m.inputs) : p.isAbsolute = true :=
  accepted.absolute p (mem_trees.mpr (.inr member))

end Accepted

namespace WellPlaced

variable (placed : m.WellPlaced)

include placed

theorem leads (member : p ∈ m.config.trees) : p.LeadsTo p.names :=
  (Path.leadsTo_names (placed.accepted.absolute p member) (placed.straight p member)).1

theorem target : m.config.target.LeadsTo m.targetPlace :=
  placed.leads (mem_trees.mpr (.inl rfl))

theorem input (member : p ∈ m.inputs) : p.LeadsTo p.names :=
  placed.leads (mem_trees.mpr (.inr member))

theorem inTarget (ordinary : Path.Ordinary name) :
    (m.inTarget name).LeadsTo (m.targetPlace ++ [name]) :=
  placed.target.join ordinary

/-- What a run reads lies apart from where it writes. -/
theorem apart_target (member : p ∈ m.inputs) : Disk.Apart p.names m.targetPlace := by
  have pairs := placed.apart
  simp only [Config.trees, List.cons_append, List.nil_append, List.pairwise_cons] at pairs
  obtain ⟨fromOutput, fromTarget, -⟩ := pairs
  have separate : p.startsWith m.config.target = false ∧ m.config.target.startsWith p = false := by
    obtain rfl | rest := List.mem_cons.mp member
    · exact fromOutput _ (List.mem_cons_self ..)
    · exact (fromTarget p rest).symm
  have target := placed.target
  have input := placed.input member
  constructor
  · rw [← Path.startsWith_iff target input]
    exact Bool.eq_false_iff.mp separate.2
  · rw [← Path.startsWith_iff input target]
    exact Bool.eq_false_iff.mp separate.1

end WellPlaced

/-! ### What is copied from the output tree -/

/-- No path on the way from the output tree to the file is excluded. -/
def kept (m : Merger) (names : List String) : Bool :=
  names.inits.all fun front =>
    !m.excluded (m.config.output.descend front) (m.config.target.descend front)

theorem kept_iff : m.kept names = true ↔ ∀ front, front <+: names →
    m.excluded (m.config.output.descend front) (m.config.target.descend front) = false := by
  simp [kept]

theorem kept_eq : m.kept names =
    !Disk.cutOff m.excluded m.config.output m.config.target names := by
  rw [Bool.eq_iff_iff, Bool.not_eq_true', Disk.cutOff_eq_false_iff, kept_iff]

/-! ### What the stages build -/

/-- The action builds around the target of the run, whatever comes of it. -/
def BuildsTarget {ε α : Type} (m : Merger) (act : Action ε α) : Prop :=
  Action.Builds (Disk.around m.targetPlace) (Disk.under m.targetPlace) act

/-- A file of the target is written around the target. -/
theorem BuildsTarget.of_file {ε α : Type} {act : Action ε α}
    (built : Action.Builds (· <+: m.targetPlace ++ [name]) (· = m.targetPlace ++ [name]) act) :
    m.BuildsTarget act := by
  have below : m.targetPlace <+: m.targetPlace ++ [name] := List.prefix_append ..
  refine built.mono (fun q above => Disk.around_of_above below above) ?_
  rintro q rfl
  exact below

/-! ### What a run reads -/

/-- What a run reads is on the second disk as it is on the first. -/
structure Undisturbed (m : Merger) (d d' : Disk) : Prop where
  first : d.WellFormed
  second : d'.WellFormed
  same : ∀ p ∈ m.inputs, ∀ names, d'.node? (p.names ++ names) = d.node? (p.names ++ names)

namespace Undisturbed

theorem refl (tree : d.WellFormed) : m.Undisturbed d d := ⟨tree, tree, fun _ _ _ => rfl⟩

/-- A stage of a run that builds around the target reads the same afterwards. -/
theorem run {ε α : Type} {act : Action ε α} {answer : Except ε α}
    (quiet : m.Undisturbed d s.disk) (placed : m.WellPlaced) (builds : m.BuildsTarget act)
    (ran : act.run s = (answer, s')) : m.Undisturbed d s'.disk := by
  have built := builds.of_run quiet.second ran
  refine ⟨quiet.first, built.wellFormed quiet.second, fun p member names => ?_⟩
  rw [built.node?_apart (placed.apart_target member) (List.prefix_append ..)]
  exact quiet.same p member names

variable (quiet : m.Undisturbed d d') (placed : m.WellPlaced) (member : p ∈ m.inputs)

include quiet member

theorem fileAt : d'.fileAt (p.names ++ names) = d.fileAt (p.names ++ names) :=
  Disk.fileAt_congr (quiet.same p member names)

include placed

theorem existsAt : d'.existsAt p = d.existsAt p := by
  have here := quiet.same p member []
  rw [List.append_nil] at here
  exact Disk.existsAt_congr quiet.first quiet.second (placed.input member) here

theorem existsAt_join (ordinary : Path.Ordinary name) :
    d'.existsAt (p.join ⟨name⟩) = d.existsAt (p.join ⟨name⟩) :=
  Disk.existsAt_congr quiet.first quiet.second ((placed.input member).join ordinary)
    (quiet.same p member [name])

theorem readText_join {text : String} (ordinary : Path.Ordinary name) :
    d'.readText (p.join ⟨name⟩) = .ok text ↔ d.readText (p.join ⟨name⟩) = .ok text :=
  Disk.readText_ok_congr quiet.first quiet.second ((placed.input member).join ordinary)
    (quiet.fileAt member)

theorem readManifest_join {fields : Json.Fields} (ordinary : Path.Ordinary name) :
    Manifest.read d' (p.join ⟨name⟩) = .ok fields ↔
      Manifest.read d (p.join ⟨name⟩) = .ok fields :=
  let leads := (placed.input member).join ordinary
  Manifest.read_ok_congr quiet.first quiet.second leads leads Iff.rfl rfl (quiet.fileAt member)

end Undisturbed

/-! ### The single stages -/

theorem copyFullTree_builds (placed : m.WellPlaced) : m.BuildsTarget m.copyFullTree :=
  Disk.copy_builds (placed.input (List.mem_cons_self ..)) placed.target

theorem patchFile_ok {patcher : Patcher} {text : String}
    (made : patcher.patchFile d p = .ok text) :
    ∃ script, d.readText p = .ok script ∧ patcher.patch script = some text := by
  unfold Patcher.patchFile at made
  split at made
  · cases made
  · cases made
  · cases made
  · rename_i script opened
    cases patched : patcher.patch script with
    | none => rw [patched] at made; cases made
    | some text' =>
      rw [patched] at made
      cases made
      exact ⟨script, opened, patched⟩

/-- A bridge file is made of the primary entry script, or stands ready somewhere. -/
theorem prepare_ok {bridge : BridgeFile} (prepared : m.prepare d = .ok bridge) :
    (m.config.sourceApp = none ∧ ∃ script text, d.readText m.config.primaryEntry = .ok script ∧
        m.patcher.patch script = some text ∧ bridge = .patched text) ∨
      ∃ p, m.config.sourceApp = some p ∧ bridge = .verbatim p := by
  cases given : m.config.sourceApp with
  | some p =>
    simp only [prepare, given] at prepared
    split at prepared <;> cases prepared
    exact .inr ⟨p, rfl, rfl⟩
  | none =>
    simp only [prepare, given] at prepared
    split at prepared
    · cases made : m.patcher.patchFile d m.config.primaryEntry with
      | error e => rw [made] at prepared; cases prepared
      | ok text =>
        rw [made] at prepared
        cases prepared
        obtain ⟨script, opened, patched⟩ := patchFile_ok made
        exact .inl ⟨rfl, script, text, opened, patched, rfl⟩
    · cases prepared

theorem prepare_sourceOf {bridge : BridgeFile} (prepared : m.prepare d = .ok bridge) :
    sourceOf bridge = m.config.sourceApp := by
  obtain ⟨none, _, _, -, -, rfl⟩ | ⟨p, given, rfl⟩ := prepare_ok prepared
  · exact none.symm
  · exact given.symm

/-- What a bridge file is copied from is read only. -/
theorem prepare_known {bridge : BridgeFile} (prepared : m.prepare d = .ok bridge) :
    ∀ p ∈ sourceOf bridge, p ∈ m.inputs := by
  rw [prepare_sourceOf prepared]
  exact fun p given => by simp [inputs, Option.mem_def.mp given]

theorem writeBridge_along {bridge : BridgeFile} (accepted : m.options.Accepted)
    (known : ∀ p ∈ sourceOf bridge, p ∈ m.inputs) :
    let path := m.inTarget m.config.files.bridgeOutput
    Action.Builds (fun q => Disk.along path.parts q ∨ path.resolved <+: q)
      (Disk.under path.resolved) (m.writeBridge bridge) := by
  intro path
  have absolute : path.isAbsolute = true := inTarget_absolute accepted _
  cases bridge with
  | patched text =>
    refine .withError ((Disk.writeAtomic_along absolute).mono (fun q => .inl) ?_)
    rintro q rfl
    exact List.prefix_rfl
  | verbatim src =>
    have from_ := input_absolute accepted (known src rfl)
    exact .bind (Disk.copy_along from_ absolute) fun _ => .pure _

theorem writeBridge_builds {bridge : BridgeFile} (placed : m.WellPlaced)
    (known : ∀ p ∈ sourceOf bridge, p ∈ m.inputs) : m.BuildsTarget (m.writeBridge bridge) := by
  have leads := placed.inTarget (placed.ordinary .bridgeOutput)
  have below : m.targetPlace <+: m.targetPlace ++ [m.config.files.bridgeOutput] :=
    List.prefix_append ..
  have place : (m.inTarget m.config.files.bridgeOutput).resolved =
      m.targetPlace ++ [m.config.files.bridgeOutput] := leads.resolved
  refine (writeBridge_along placed.accepted known).mono (fun q near => ?_) fun q inside => ?_
  · rw [place] at near
    exact Disk.around_mono below (near.imp_left (Disk.along_straight leads))
  · rw [Disk.under, place] at inside
    exact below.trans inside

end BundleMerge.Merger
