import BundleMerge.Options
import BundleMerge.Proofs.Path.Absolute

/-! Options that have been accepted. Whatever the configuration said, the trees that they name are
seen from the root. -/
namespace BundleMerge

namespace Config

/-- The trees and files that a run works on. -/
def trees (c : Config) : List Path :=
  [c.output, c.target] ++ c.copyDir.toList ++ c.sourceApp.toList

variable {cwd p q : Path} {c c' : Config}

theorem absolute_ok (base : cwd.isAbsolute = true) (resolved : absolute cwd p = .ok q) :
    q.isAbsolute = true := by
  unfold absolute at resolved
  split at resolved
  · cases resolved
    exact Path.absolute?_absolute base ‹_›
  · cases resolved

theorem absoluteOption_ok {p q : Option Path} (base : cwd.isAbsolute = true)
    (resolved : absoluteOption cwd p = .ok q) : ∀ path ∈ q, path.isAbsolute = true := by
  cases p with
  | none =>
    cases resolved
    simp
  | some p =>
    rw [absoluteOption] at resolved
    cases given : absolute cwd p with
    | error e => rw [given] at resolved; cases resolved
    | ok path =>
      rw [given] at resolved
      cases resolved
      simpa using absolute_ok base given

theorem bind_ok {ε α β : Type} {first : Except ε α} {next : α → Except ε β} {b : β}
    (ran : first >>= next = .ok b) : ∃ a, first = .ok a ∧ next a = .ok b := by
  cases first with
  | error e => cases ran
  | ok a => exact ⟨a, rfl, ran⟩

theorem inAbsolute_ok (base : cwd.isAbsolute = true) (resolved : c.inAbsolute cwd = .ok c') :
    ∀ path ∈ c'.trees, path.isAbsolute = true := by
  obtain ⟨input, -, resolved⟩ := bind_ok resolved
  obtain ⟨output, outputs, resolved⟩ := bind_ok resolved
  obtain ⟨target, targets, resolved⟩ := bind_ok resolved
  obtain ⟨copyDir, copyDirs, resolved⟩ := bind_ok resolved
  obtain ⟨sourceApp, sourceApps, resolved⟩ := bind_ok resolved
  cases resolved
  intro path member
  simp only [trees, List.cons_append, List.nil_append, List.mem_cons, List.mem_append,
    Option.mem_toList] at member
  obtain rfl | rfl | member | member := member
  · exact absolute_ok base outputs
  · exact absolute_ok base targets
  · exact absoluteOption_ok base copyDirs path member
  · exact absoluteOption_ok base sourceApps path member

theorem inAbsolute_input (base : cwd.isAbsolute = true) (resolved : c.inAbsolute cwd = .ok c') :
    c'.input.isAbsolute = true := by
  obtain ⟨input, inputs, resolved⟩ := bind_ok resolved
  obtain ⟨output, -, resolved⟩ := bind_ok resolved
  obtain ⟨target, -, resolved⟩ := bind_ok resolved
  obtain ⟨copyDir, -, resolved⟩ := bind_ok resolved
  obtain ⟨sourceApp, -, resolved⟩ := bind_ok resolved
  cases resolved
  exact absolute_ok base inputs

theorem inAbsolute_isClose (resolved : c.inAbsolute cwd = .ok c') : c'.isClose = c.isClose := by
  obtain ⟨input, -, resolved⟩ := bind_ok resolved
  obtain ⟨output, -, resolved⟩ := bind_ok resolved
  obtain ⟨target, -, resolved⟩ := bind_ok resolved
  obtain ⟨copyDir, -, resolved⟩ := bind_ok resolved
  obtain ⟨sourceApp, -, resolved⟩ := bind_ok resolved
  cases resolved
  rfl

/-- What a configuration has to be to be found valid. -/
structure Valid (c : Config) : Prop where
  output : c.output.isEmpty = false
  target : c.target.isEmpty = false
  apart : c.output.sameAs c.target = false
  threshold : c.fullCopyThreshold ≠ 0
  identifiers : ∀ slot, isIdentifier (c.bridge.get slot) = true
  entry : c.bridge.registration ≠ c.bridge.entryPoint
  patterns : ∃ globs, c.excludePatterns = .ok globs

theorem badSlot?_eq_none_iff {b : Bridge} :
    badSlot? b = none ↔ ∀ slot, isIdentifier (b.get slot) = true := by
  rw [badSlot?, List.find?_eq_none]
  constructor
  · intro good slot
    have listed : slot ∈ Bridge.Slot.all := by cases slot <;> decide
    simpa using good slot listed
  · exact fun good slot _ => by simp [good slot]

theorem complaint?_eq_none_iff : c.complaint? = none ↔
    c.output.isEmpty = false ∧ c.target.isEmpty = false ∧ c.output.sameAs c.target = false ∧
      c.fullCopyThreshold ≠ 0 ∧ (∀ slot, isIdentifier (c.bridge.get slot) = true) ∧
      c.bridge.registration ≠ c.bridge.entryPoint := by
  rw [← badSlot?_eq_none_iff]
  unfold complaint?
  cases badSlot? c.bridge <;> (repeat' split) <;> simp_all

theorem validate_ok_iff : c.validate = .ok () ↔ c.Valid := by
  have patterns : c.excludePatterns.map (fun _ => ()) = .ok () ↔
      ∃ globs, c.excludePatterns = .ok globs := by
    cases c.excludePatterns <;> simp [Except.map]
  unfold validate
  split
  · rename_i complaint
    refine ⟨nofun, fun valid => ?_⟩
    rw [complaint?_eq_none_iff.mpr ⟨valid.output, valid.target, valid.apart, valid.threshold,
      valid.identifiers, valid.entry⟩] at complaint
    cases complaint
  · rename_i none
    obtain ⟨output, target, apart, threshold, identifiers, entry⟩ := complaint?_eq_none_iff.mp none
    rw [patterns]
    exact ⟨fun found => ⟨output, target, apart, threshold, identifiers, entry, found⟩,
      fun valid => valid.patterns⟩

end Config

namespace Options

variable {o : Options} {cwd : Path} {c : Config}

/-- Options that were made of some configuration, with any filter and any hook of the host. -/
def Accepted (o : Options) : Prop :=
  ∃ cwd c base, cwd.isAbsolute = true ∧ ofConfig cwd c = .ok base ∧
    o = { base with filter := o.filter, hook := o.hook }

/-- What it takes to make options of a configuration. -/
theorem ofConfig_ok_iff : ofConfig cwd c = .ok o ↔
    c.validate = .ok () ∧ c.inAbsolute cwd = .ok o.config ∧
      o.config.output.sameAs o.config.target = false ∧ o.config.excludePatterns = .ok o.excludes ∧
      o.filter = none ∧ o.hook = none := by
  constructor
  · intro made
    obtain ⟨_, valid, made⟩ := Config.bind_ok made
    obtain ⟨config, resolved, made⟩ := Config.bind_ok made
    split at made
    · cases made
    · rename_i apart
      obtain ⟨excludes, patterns, made⟩ := Config.bind_ok made
      cases made
      exact ⟨valid, resolved, eq_false_of_ne_true apart, patterns, rfl, rfl⟩
  · obtain ⟨config, excludes, filter, hook⟩ := o
    rintro ⟨valid, resolved, apart, patterns, rfl, rfl⟩
    dsimp only at resolved apart patterns
    rw [ofConfig, valid, resolved]
    simp [bind, Except.bind, pure, Except.pure, apart, patterns]

theorem ofConfig_accepted (base : cwd.isAbsolute = true) (made : ofConfig cwd c = .ok o) :
    o.Accepted :=
  ⟨cwd, c, o, base, made, rfl⟩

theorem ofConfig_inAbsolute (made : ofConfig cwd c = .ok o) : c.inAbsolute cwd = .ok o.config :=
  (ofConfig_ok_iff.mp made).2.1

theorem ofConfig_isClose (made : ofConfig cwd c = .ok o) : o.config.isClose = c.isClose :=
  Config.inAbsolute_isClose (ofConfig_inAbsolute made)

theorem Accepted.inAbsolute (accepted : o.Accepted) :
    ∃ (cwd : Path) (c : Config), cwd.isAbsolute = true ∧ c.inAbsolute cwd = .ok o.config := by
  obtain ⟨cwd, c, base, absolute, made, same⟩ := accepted
  have config : o.config = base.config := by rw [same]
  exact ⟨cwd, c, absolute, config ▸ ofConfig_inAbsolute made⟩

/-- The trees of accepted options are seen from the root. -/
theorem Accepted.absolute (accepted : o.Accepted) :
    ∀ path ∈ o.config.trees, path.isAbsolute = true := by
  obtain ⟨cwd, c, absolute, resolved⟩ := accepted.inAbsolute
  exact Config.inAbsolute_ok absolute resolved

theorem Accepted.input_absolute (accepted : o.Accepted) : o.config.input.isAbsolute = true := by
  obtain ⟨cwd, c, absolute, resolved⟩ := accepted.inAbsolute
  exact Config.inAbsolute_input absolute resolved

end Options
end BundleMerge
