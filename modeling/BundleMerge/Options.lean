import BundleMerge.Config
import BundleMerge.Disk.Copy
import BundleMerge.Manifest.File
import BundleMerge.Text.Quoted

/-! The options of a session: a configuration that has been found valid, with absolute paths and
compiled patterns, and what the host adds to it. -/
namespace BundleMerge

structure Options where
  config : Config
  excludes : List Glob
  filter : Option Disk.Exclusion := none
  hook : Option Manifest.Hook := none

namespace Options

def ofConfig (cwd : Path) (c : Config) : Except ConfigError Options := do
  c.validate
  let config ← c.inAbsolute cwd
  if config.output.sameAs config.target then throw (Config.invalid Config.sameTreesText)
  let excludes ← config.excludePatterns
  pure { config, excludes }

/-- Excluded are the paths that a pattern matches, and what the host excludes. -/
def excluded (o : Options) (src dest : Path) : Bool :=
  o.excludes.any (·.matchesPath src) || o.filter.any fun f => f src dest

/-! ### The options in words -/

def shownOption : Option Path → String
  | some p => "Some(" ++ Text.quoted p.text ++ ")"
  | none => "None"

def record (name : String) (fields : List (String × String)) : String :=
  name ++ " \x7b " ++ ", ".intercalate (fields.map fun (k, v) => k ++ ": " ++ v) ++ " \x7d"

def shownBridge (b : Bridge) : String :=
  record "BridgeConfig" (Bridge.Slot.all.map fun s => (s.key, Text.quoted (b.get s)))

def shownFiles (f : FileNames) : String :=
  record "FileNames" (FileNames.Slot.all.map fun s => (s.key, Text.quoted (f.get s)))

def shownConfig (c : Config) : String :=
  record "MergeConfig"
    [("input", Text.quoted c.input.text), ("output", Text.quoted c.output.text),
     ("target", Text.quoted c.target.text), ("copy_dir", shownOption c.copyDir),
     ("source_app", shownOption c.sourceApp), ("is_close", toString c.isClose),
     ("exclude", "[" ++ ", ".intercalate (c.exclude.map Text.quoted) ++ "]"),
     ("debounce_ms", toString c.debounceMs),
     ("full_copy_threshold", toString c.fullCopyThreshold), ("bridge", shownBridge c.bridge),
     ("files", shownFiles c.files)]

/-- The options for inspection: of the filter and the hook, whether there is one. -/
def shown (o : Options) : String :=
  "MergeOptions \x7b config: " ++ shownConfig o.config ++ ", filter: " ++
    toString o.filter.isSome ++ ", filter_json: " ++ toString o.hook.isSome ++ ", .. \x7d"

end Options
end BundleMerge
