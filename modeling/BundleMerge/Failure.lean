import BundleMerge.Disk.Error
import BundleMerge.Path

/-! Why a merge run fails, in words for the person who has to do something about it. -/
namespace BundleMerge

/-- A fault of the configuration, with the file it was read from if there is one. -/
structure ConfigError where
  path : Option Path := none
  text : String
  deriving Repr, DecidableEq

def ConfigError.message (e : ConfigError) : String :=
  match e.path with
  | some p => p.text ++ ": " ++ e.text
  | none => "config error: " ++ e.text

inductive Failure where
  | notBuiltYet (entry : Path)
  | manifestMissing (path : Path)
  | manifestParse (path : Path) (detail : String)
  | copyFailure (src dest : Path) (cause : DiskError)
  | patchFailure (path : Path) (detail : String)
  | config (cause : ConfigError)
  | disk (cause : DiskError)
  deriving Repr, DecidableEq

namespace Failure

/-- A session goes on after these by itself. -/
def isRecoverable : Failure → Bool
  | notBuiltYet _ | manifestMissing _ => true
  | _ => false

def summary : Failure → String
  | notBuiltYet entry => "entry script '" ++ entry.text ++ "' does not exist yet."
  | manifestMissing path => "manifest '" ++ path.text ++ "' not found; nothing to merge."
  | manifestParse path detail => "manifest '" ++ path.text ++ "' is not valid JSON: " ++ detail
  | copyFailure src dest cause =>
    "failed to copy '" ++ src.text ++ "' to '" ++ dest.text ++ "': " ++ cause.message
  | patchFailure path detail =>
    "failed to patch entry script '" ++ path.text ++ "': " ++ detail
  | config cause => "configuration error: " ++ cause.message
  | disk cause => "I/O error: " ++ cause.message

def remedy : Failure → String
  | notBuiltYet _ =>
    "wait for the primary build to finish; the merge retries automatically."
  | manifestMissing _ => "build the secondary project so it emits its manifest."
  | manifestParse _ _ => "correct the manifest and save it again to trigger a new merge."
  | copyFailure _ _ _ | disk _ => "check file permissions and disk space."
  | patchFailure _ _ => "check that the primary build emitted a complete script."
  | config _ => "edit the config file and correct the issue."

def message (f : Failure) : String :=
  f.summary ++ "\n  To fix: " ++ f.remedy

/-- What the error underneath says. -/
def cause? : Failure → Option String
  | copyFailure _ _ cause => some cause.message
  | config cause => some cause.message
  | disk cause => some cause.message
  | _ => none

end Failure
end BundleMerge
