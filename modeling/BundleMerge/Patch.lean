import BundleMerge.Bridge
import BundleMerge.Disk.Basic
import BundleMerge.Failure
import BundleMerge.Script.Rename

/-! The bridge file: the bridge script, followed by the primary entry script with its calls of
the registration function renamed. -/
namespace BundleMerge

structure Patcher where
  /-- What goes ahead of every script. -/
  bridgeScript : String
  rules : List Script.Renaming
  deriving Repr, DecidableEq

namespace Patcher

def ofBridge (b : Bridge) : Patcher :=
  ⟨b.script, [⟨b.registration, b.entryPoint⟩]⟩

def withRules (p : Patcher) (rules : List Script.Renaming) : Patcher :=
  { p with rules := p.rules ++ rules }

/-- The bridge file of a script, if the script is well formed. -/
def patch (p : Patcher) (script : String) : Option String :=
  (Script.rename p.rules script).map fun r => p.bridgeScript ++ r.text

def patchFile (p : Patcher) (d : Disk) (path : Path) : Except Failure String :=
  match d.readText path with
  | .error (.system 2) => .error (.notBuiltYet path)
  | .error .notUtf8 => .error (.patchFailure path "not valid UTF-8")
  | .error e => .error (.disk e)
  | .ok script => (p.patch script).elim (.error (.patchFailure path "syntax error")) .ok

end Patcher
end BundleMerge
