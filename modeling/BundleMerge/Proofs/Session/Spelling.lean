import BundleMerge.Proofs.Session.Places

/-! How paths are spelled. A configuration may name its trees from the working directory or from
the root, and so may those who report changes: the options are the same, and the same changes are
queued. -/
namespace BundleMerge

namespace Config

variable {c c' : Config} {cwd p q : Path} {option option' : Option Path}

/-- The configuration with its relative trees spelled from a directory. -/
def spelledFrom (base : Path) (c : Config) : Config :=
  { c with
    input := base.join c.input
    output := base.join c.output
    target := base.join c.target
    copyDir := c.copyDir.map base.join
    sourceApp := c.sourceApp.map base.join }

theorem absolute_iff : absolute cwd p = .ok q ↔ Path.absolute? cwd p = some q := by
  unfold absolute
  split <;> simp_all

/-- A tree that has an absolute form has the same one, up to its parts, where it is spelled from
the working directory. -/
theorem absolute_join (base : cwd.isAbsolute = true) (resolved : absolute cwd p = .ok q) :
    ∃ q', absolute cwd (cwd.join p) = .ok q' ∧ q'.sameAs q = true := by
  obtain ⟨q', again, same⟩ := Path.absolute?_join base (absolute_iff.mp resolved)
  exact ⟨q', absolute_iff.mpr again, Path.sameAs_iff.mpr same⟩

theorem absoluteOption_join (base : cwd.isAbsolute = true)
    (resolved : absoluteOption cwd option = .ok option') :
    ∃ again, absoluteOption cwd (option.map cwd.join) = .ok again ∧
      sameOption again option' = true := by
  cases option with
  | none =>
    cases resolved
    exact ⟨none, rfl, rfl⟩
  | some p =>
    rw [absoluteOption] at resolved
    cases given : absolute cwd p with
    | error e => rw [given] at resolved; cases resolved
    | ok q =>
      rw [given] at resolved
      cases resolved
      obtain ⟨q', again, same⟩ := absolute_join base given
      refine ⟨some q', ?_, same⟩
      rw [Option.map_some, absoluteOption, again]
      rfl

/-- A configuration whose trees have absolute forms has the same ones, up to their parts, where the
trees are spelled from the working directory. -/
theorem inAbsolute_spelledFrom (base : cwd.isAbsolute = true)
    (resolved : c.inAbsolute cwd = .ok c') :
    ∃ again, (c.spelledFrom cwd).inAbsolute cwd = .ok again ∧ again.sameAs c' = true := by
  obtain ⟨input, inputs, resolved⟩ := bind_ok resolved
  obtain ⟨output, outputs, resolved⟩ := bind_ok resolved
  obtain ⟨target, targets, resolved⟩ := bind_ok resolved
  obtain ⟨copyDir, copyDirs, resolved⟩ := bind_ok resolved
  obtain ⟨sourceApp, sourceApps, resolved⟩ := bind_ok resolved
  cases resolved
  obtain ⟨input', inputs', sameInput⟩ := absolute_join base inputs
  obtain ⟨output', outputs', sameOutput⟩ := absolute_join base outputs
  obtain ⟨target', targets', sameTarget⟩ := absolute_join base targets
  obtain ⟨copyDir', copyDirs', sameCopyDir⟩ := absoluteOption_join base copyDirs
  obtain ⟨sourceApp', sourceApps', sameSourceApp⟩ := absoluteOption_join base sourceApps
  refine ⟨{ c with
    input := input', output := output', target := target', copyDir := copyDir',
    sourceApp := sourceApp' }, ?_, ?_⟩
  · simp [inAbsolute, spelledFrom, inputs', outputs', targets', copyDirs', sourceApps', bind,
      Except.bind, pure, Except.pure]
  · simp [sameAs, sameInput, sameOutput, sameTarget, sameCopyDir, sameSourceApp]

theorem excludePatterns_congr (same : c'.exclude = c.exclude) :
    c'.excludePatterns = c.excludePatterns := by
  rw [excludePatterns, same, excludePatterns]

theorem valid_spelledFrom (base : cwd.isAbsolute = true) (valid : c.Valid)
    (resolved : c.inAbsolute cwd = .ok c') (apart : c'.output.sameAs c'.target = false) :
    (c.spelledFrom cwd).Valid := by
  have some : ∀ p, (cwd.join p).isEmpty = false := fun p =>
    Path.isEmpty_eq_false_iff.mpr (Path.nonempty_of_absolute (Path.absolute_join p base))
  have spelled : (cwd.join c.output).sameAs (cwd.join c.target) =
      c'.output.sameAs c'.target := by
    obtain ⟨_, -, resolved⟩ := bind_ok resolved
    obtain ⟨output, outputs, resolved⟩ := bind_ok resolved
    obtain ⟨target, targets, resolved⟩ := bind_ok resolved
    obtain ⟨_, -, resolved⟩ := bind_ok resolved
    obtain ⟨_, -, resolved⟩ := bind_ok resolved
    cases resolved
    rw [Path.sameAs, Path.sameAs, Path.parts_join_absolute? base (absolute_iff.mp outputs),
      Path.parts_join_absolute? base (absolute_iff.mp targets)]
  exact { valid with
    output := some c.output
    target := some c.target
    apart := spelled.trans apart
    patterns := valid.patterns.imp fun _ found => (excludePatterns_congr rfl).trans found }

theorem sameAs_iff : c.sameAs c' = true ↔
    c.input.parts = c'.input.parts ∧ c.output.parts = c'.output.parts ∧
      c.target.parts = c'.target.parts ∧ sameOption c.copyDir c'.copyDir = true ∧
      sameOption c.sourceApp c'.sourceApp = true ∧ c.isClose = c'.isClose ∧
      c.exclude = c'.exclude ∧ c.debounceMs = c'.debounceMs ∧
      c.fullCopyThreshold = c'.fullCopyThreshold ∧ c.bridge = c'.bridge ∧ c.files = c'.files := by
  simp [sameAs, Path.sameAs, and_assoc]

theorem sameOption_refl (option : Option Path) : sameOption option option = true := by
  cases option with
  | none => rfl
  | some p => exact Path.sameAs_iff.mpr rfl

theorem sameOption_symm (same : sameOption option option' = true) :
    sameOption option' option = true := by
  cases option <;> cases option' <;> first | rfl | cases same | skip
  exact Path.sameAs_iff.mpr (Path.sameAs_iff.mp same).symm

theorem sameAs_refl (c : Config) : c.sameAs c = true := by
  simp [sameAs_iff, sameOption_refl]

theorem sameAs_symm (same : c.sameAs c' = true) : c'.sameAs c = true := by
  obtain ⟨input, output, target, copyDir, sourceApp, others⟩ := sameAs_iff.mp same
  refine sameAs_iff.mpr ⟨input.symm, output.symm, target.symm, sameOption_symm copyDir,
    sameOption_symm sourceApp, ?_⟩
  simp [others]

end Config

namespace Options

variable {c : Config} {cwd : Path} {o : Options}

/-- Options can be made of a configuration whose trees are spelled from the working directory, and
they are the same, up to the parts of paths. -/
theorem ofConfig_spelledFrom (base : cwd.isAbsolute = true) (made : ofConfig cwd c = .ok o) :
    ∃ o', ofConfig cwd (c.spelledFrom cwd) = .ok o' ∧ o'.config.sameAs o.config = true := by
  obtain ⟨valid, resolved, apart, patterns, -, -⟩ := ofConfig_ok_iff.mp made
  obtain ⟨config, again, same⟩ := Config.inAbsolute_spelledFrom base resolved
  obtain ⟨-, output, target, -, -, -, exclude, -⟩ := Config.sameAs_iff.mp same
  refine ⟨{ config, excludes := o.excludes }, ofConfig_ok_iff.mpr ?_, same⟩
  refine ⟨Config.validate_ok_iff.mpr ?_, again, ?_, ?_, rfl, rfl⟩
  · exact Config.valid_spelledFrom base (Config.validate_ok_iff.mp valid) resolved apart
  · rwa [Path.sameAs, output, target, ← Path.sameAs]
  · rw [Config.excludePatterns_congr exclude, patterns]

end Options

namespace Session

variable {m m' : Merger} {c : Config} {cwd file file' : Path} {n n' : Notification}
  {now now' : Nat} {o : Options}

/-- Two queues have grown alike: both have stayed as they were, or each has got one path, and the
two have the same parts. -/
inductive GrownAlike (queue queue' : List Path) : List Path → List Path → Prop where
  | dropped : GrownAlike queue queue' queue queue'
  | queued {p q : Path} : p.sameAs q = true →
      GrownAlike queue queue' (queue ++ [p]) (queue' ++ [q])

theorem recorded_alike (accepted : m.options.Accepted) (accepted' : m'.options.Accepted)
    (same : m.config.sameAs m'.config = true) (role : n.role = n'.role)
    (resolved : Path.absolute? cwd n.file = some file)
    (resolved' : Path.absolute? cwd n'.file = some file') (parts : file.parts = file'.parts)
    (queue queue' : List Path) :
    GrownAlike queue queue' (queue ++ (ofMerger m).recorded (.notify cwd n now))
      (queue' ++ (ofMerger m').recorded (.notify cwd n' now')) := by
  obtain ⟨input, output, -, -, -, closed, -⟩ := Config.sameAs_iff.mp same
  obtain ⟨inputAbsolute, outputAbsolute⟩ := collector_absolute accepted
  obtain ⟨inputAbsolute', outputAbsolute'⟩ := collector_absolute accepted'
  have placed : ((ofMerger m).collector.resolve cwd n).parts =
      ((ofMerger m').collector.resolve cwd n').parts := by
    rw [Collector.resolve_parts inputAbsolute outputAbsolute resolved,
      Collector.resolve_parts inputAbsolute' outputAbsolute' resolved', role, parts]
    simp only [Collector.placed, ofMerger, input, output]
    rfl
  have kept : (!(ofMerger m).closed && ((ofMerger m).collector.resolve cwd n).startsWith
      (ofMerger m).collector.output) = (!(ofMerger m').closed &&
        ((ofMerger m').collector.resolve cwd n').startsWith (ofMerger m').collector.output) := by
    rw [Path.startsWith, Path.startsWith, placed]
    simp only [ofMerger, closed, output]
  simp only [recorded, kept]
  split
  · exact .queued (Path.sameAs_iff.mpr placed)
  · simpa using GrownAlike.dropped

theorem notify_alike (accepted : m.options.Accepted) (accepted' : m'.options.Accepted)
    (same : m.config.sameAs m'.config = true) (role : n.role = n'.role)
    (resolved : Path.absolute? cwd n.file = some file)
    (resolved' : Path.absolute? cwd n'.file = some file') (parts : file.parts = file'.parts)
    (calls calls' : List Call) :
    let s := after (ofMerger m) calls
    let s' := after (ofMerger m') calls'
    GrownAlike s.queue s'.queue (s.notify cwd n now).queue (s'.notify cwd n' now').queue := by
  intro s s'
  rw [queue_notify, queue_notify, recorded_after, recorded_after]
  exact recorded_alike accepted accepted' same role resolved resolved' parts _ _

/-- Where options can be made of a configuration, they can be made of the one whose trees are
spelled from the working directory, and they are the same, up to the parts of paths. Whichever of
the two a session is made with and whatever calls it has got, a file that is reported as seen from
the working directory and one that is spelled from there have the same effect on its queue. -/
theorem spellings_alike (base : cwd.isAbsolute = true) (made : Options.ofConfig cwd c = .ok o) :
    ∃ o', Options.ofConfig cwd (c.spelledFrom cwd) = .ok o' ∧ o'.config.sameAs o.config = true ∧
      ∀ a ∈ [o, o'], ∀ b ∈ [o, o'], ∀ (calls calls' : List Call) (f : Path) (role : AssetRole)
        (now now' : Nat), f.isEmpty = false →
        let s := after (ofOptions a) calls
        let s' := after (ofOptions b) calls'
        GrownAlike s.queue s'.queue (s.notify cwd ⟨f, role⟩ now).queue
          (s'.notify cwd ⟨cwd.join f, role⟩ now').queue := by
  obtain ⟨o', again, same⟩ := Options.ofConfig_spelledFrom base made
  refine ⟨o', again, same, ?_⟩
  have accepted : ∀ a ∈ [o, o'], a.Accepted := by
    intro a member
    obtain rfl | rfl := by simpa using member
    · exact Options.ofConfig_accepted base made
    · exact Options.ofConfig_accepted base again
  have alike : ∀ a ∈ [o, o'], ∀ b ∈ [o, o'], a.config.sameAs b.config = true := by
    intro a member b member'
    obtain rfl | rfl := by simpa using member
    all_goals obtain rfl | rfl := by simpa using member'
    · exact Config.sameAs_refl _
    · exact Config.sameAs_symm same
    · exact same
    · exact Config.sameAs_refl _
  intro a ina b inb calls calls' f role now now' some
  obtain ⟨file, resolved⟩ := Path.absolute?_isSome cwd some
  obtain ⟨file', resolved', parts⟩ := Path.absolute?_join base resolved
  exact @notify_alike (.ofOptions a) (.ofOptions b) cwd file file' ⟨f, role⟩ ⟨cwd.join f, role⟩
    now now' (accepted a ina) (accepted b inb) (alike a ina b inb) rfl resolved resolved'
    parts.symm calls calls'

/-- A configuration whose trees are named from a directory, and the options that it stands for. -/
def nearConfig : Config :=
  { input := ⟨"src"⟩, output := ⟨"./dist//"⟩, target := ⟨"../out"⟩, copyDir := some ⟨"native"⟩ }

def nearOptions : Options where
  config :=
    { nearConfig with
      input := ⟨"/work/src"⟩, output := ⟨"/work/dist/"⟩, target := ⟨"/work/../out"⟩
      copyDir := some ⟨"/work/native"⟩ }
  excludes := []

/-- Of two sessions, one that is made with the configuration and one with its other spelling, the
first hears of a file as seen from the directory and the second as seen from the root. -/
theorem spellings_alike_near :
    ∃ o', Options.ofConfig ⟨"/work"⟩ (nearConfig.spelledFrom ⟨"/work"⟩) = .ok o' ∧
      (nearConfig.spelledFrom ⟨"/work"⟩).output = ⟨"/work/./dist//"⟩ ∧
      ((ofOptions nearOptions).notify ⟨"/work"⟩ ⟨⟨"src/./a.wxml"⟩, .markup⟩ 0).queue =
        [⟨"/work/dist/a.wxml"⟩] ∧
      GrownAlike [] []
        ((ofOptions nearOptions).notify ⟨"/work"⟩ ⟨⟨"src/./a.wxml"⟩, .markup⟩ 0).queue
        ((ofOptions o').notify ⟨"/work"⟩ ⟨⟨"/work/src/./a.wxml"⟩, .markup⟩ 0).queue := by
  have made : Options.ofConfig ⟨"/work"⟩ nearConfig = .ok nearOptions := by
    refine Options.ofConfig_ok_iff.mpr ⟨?_, ?_, ?_, rfl, rfl, rfl⟩
    · rfl
    · rfl
    · decide +kernel
  have base : (⟨"/work"⟩ : Path).isAbsolute = true := by decide +kernel
  obtain ⟨o', again, -, alike⟩ := spellings_alike base made
  refine ⟨o', again, by decide +kernel, by decide +kernel, ?_⟩
  have spelled : (⟨"/work"⟩ : Path).join ⟨"src/./a.wxml"⟩ = ⟨"/work/src/./a.wxml"⟩ := by
    decide +kernel
  rw [← spelled]
  exact alike nearOptions (by simp) o' (by simp) [] [] _ .markup 0 0 (by decide +kernel)

end Session
end BundleMerge
