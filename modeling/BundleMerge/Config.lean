import BundleMerge.Bridge
import BundleMerge.Failure
import BundleMerge.Glob

/-! What a merge is told: the trees it works on, the names of the files that matter in them, the
identifiers of the bridge script, and when to run. -/
namespace BundleMerge

/-- The names of the files that a merge looks for in a tree. -/
structure FileNames where
  entryScript : String := "app.js"
  manifest : String := "app.json"
  /-- The other program's manifest, where it lies in the target. -/
  secondaryManifest : String := "uni-app.json"
  bridgeOutput : String := "wepy-app.js"
  deriving Repr, DecidableEq

namespace FileNames

inductive Slot where
  | entryScript
  | manifest
  | secondaryManifest
  | bridgeOutput
  deriving Repr, DecidableEq

namespace Slot

def all : List Slot := [entryScript, manifest, secondaryManifest, bridgeOutput]

def key : Slot → String
  | entryScript => "entry_script"
  | manifest => "manifest"
  | secondaryManifest => "secondary_manifest"
  | bridgeOutput => "bridge_output"

end Slot

def get (f : FileNames) : Slot → String
  | .entryScript => f.entryScript
  | .manifest => f.manifest
  | .secondaryManifest => f.secondaryManifest
  | .bridgeOutput => f.bridgeOutput

def set (f : FileNames) (slot : Slot) (s : String) : FileNames :=
  match slot with
  | .entryScript => { f with entryScript := s }
  | .manifest => { f with manifest := s }
  | .secondaryManifest => { f with secondaryManifest := s }
  | .bridgeOutput => { f with bridgeOutput := s }

end FileNames

structure Config where
  input : Path := ⟨"src"⟩
  /-- Where the primary program is built. -/
  output : Path := ⟨"dist"⟩
  /-- Where the merged program goes. -/
  target : Path := ⟨""⟩
  /-- The secondary program, laid over the merged one. -/
  copyDir : Option Path := none
  /-- A bridge file to be used as it is. -/
  sourceApp : Option Path := none
  isClose : Bool := false
  /-- Patterns of paths that are not copied. -/
  exclude : List String := []
  /-- How long to wait after a change, in milliseconds. -/
  debounceMs : Nat := 500
  /-- From this many changes on, the whole tree is copied. -/
  fullCopyThreshold : Nat := 5
  bridge : Bridge := {}
  files : FileNames := {}
  deriving Repr, DecidableEq

namespace Config

def primaryEntry (c : Config) : Path :=
  c.output.join ⟨c.files.entryScript⟩

def primaryManifest (c : Config) : Path :=
  c.output.join ⟨c.files.manifest⟩

def sameOption : Option Path → Option Path → Bool
  | none, none => true
  | some p, some q => p.sameAs q
  | _, _ => false

def sameAs (c d : Config) : Bool :=
  c.input.sameAs d.input && c.output.sameAs d.output && c.target.sameAs d.target &&
    sameOption c.copyDir d.copyDir && sameOption c.sourceApp d.sourceApp &&
    c.isClose = d.isClose && c.exclude = d.exclude && c.debounceMs = d.debounceMs &&
    c.fullCopyThreshold = d.fullCopyThreshold && c.bridge = d.bridge && c.files = d.files

def invalid (text : String) : ConfigError := { text }

def isIdentifierStart (c : Char) : Bool :=
  c.isAlpha || c = '_' || c = '$'

/-- A letter, `_` or `$`, and more of those or digits. -/
def isIdentifier (s : String) : Bool :=
  match s.toList with
  | [] => false
  | c :: cs => isIdentifierStart c && cs.all fun c => isIdentifierStart c || c.isDigit

def compileAll : List String → Except ConfigError (List Glob)
  | [] => .ok []
  | p :: ps =>
    match Glob.ofText p with
    | .error e => .error (invalid ("exclude pattern '" ++ p ++ "': " ++ e.message))
    | .ok g => (compileAll ps).map (g :: ·)

def excludePatterns (c : Config) : Except ConfigError (List Glob) :=
  compileAll c.exclude

def sameTreesText : String := "`output` and `target` must be different directories"

def badSlot? (b : Bridge) : Option Bridge.Slot :=
  Bridge.Slot.all.find? fun slot => !isIdentifier (b.get slot)

/-- What is wrong with the configuration apart from its patterns, if anything is. -/
def complaint? (c : Config) : Option String :=
  if c.output.isEmpty then some "`output` must not be empty"
  else if c.target.isEmpty then some "`target` must be set"
  else if c.output.sameAs c.target then some sameTreesText
  else if c.fullCopyThreshold = 0 then some "`full_copy_threshold` must be at least 1"
  else match badSlot? c.bridge with
    | some slot =>
      some ("`bridge." ++ slot.key ++ "` = '" ++ c.bridge.get slot ++
        "' is not a JavaScript identifier")
    | none =>
      if c.bridge.registration = c.bridge.entryPoint then
        some "`bridge.entry_point` must differ from `bridge.registration`"
      else none

def validate (c : Config) : Except ConfigError Unit :=
  match c.complaint? with
  | some text => .error (invalid text)
  | none => c.excludePatterns.map fun _ => ()

def absolute (cwd p : Path) : Except ConfigError Path :=
  match Path.absolute? cwd p with
  | some q => .ok q
  | none =>
    .error (invalid ("cannot resolve '" ++ p.text ++ "': cannot make an empty path absolute"))

def absoluteOption (cwd : Path) : Option Path → Except ConfigError (Option Path)
  | none => .ok none
  | some p => (absolute cwd p).map some

/-- The configuration with the paths of its trees seen from the root. -/
def inAbsolute (cwd : Path) (c : Config) : Except ConfigError Config := do
  let input ← absolute cwd c.input
  let output ← absolute cwd c.output
  let target ← absolute cwd c.target
  let copyDir ← absoluteOption cwd c.copyDir
  let sourceApp ← absoluteOption cwd c.sourceApp
  pure { c with input, output, target, copyDir, sourceApp }

end Config
end BundleMerge
