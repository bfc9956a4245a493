import BundleMerge.Disk.Write
import BundleMerge.Failure
import BundleMerge.Json.Printer
import BundleMerge.Json.Reader
import BundleMerge.Manifest.Merge

/-! Manifests on disk. -/
namespace BundleMerge.Manifest

open Json (Fields)

/-- A hook sees the merged manifest and the two it was made of, and may put another in place of
the merged one. -/
abbrev Hook := Json → Json → Json → Option Json

def read (d : Disk) (path : Path) : Except Failure Fields :=
  match d.readText path with
  | .error e => .error (.disk e)
  | .ok text =>
    match Json.parse text with
    | .error e => .error (.manifestParse path e.message)
    | .ok (.object fields) => .ok fields
    | .ok v =>
      .error (.manifestParse path ("top-level value is " ++ v.kind ++ ", expected an object"))

def text (v : Json) : String :=
  v.write Json.pretty

def write (dest : Path) (v : Json) : Action Failure Unit :=
  Action.withError Failure.disk (Disk.writeAtomic dest (text v).toUTF8)

/-- The question that a hook is asked about two manifests. -/
def question (primary secondary : Fields) : Question :=
  ⟨.object (merge primary secondary), .object primary, .object secondary⟩

/-- The merged manifest, unless the hook answers with something truthy. -/
def settle (hook : Option Hook) (q : Question) : Json :=
  match hook.bind fun hook => hook q.merged q.primary q.secondary with
  | some v => if v.isTruthy then v else q.merged
  | none => q.merged

/-- The two manifests to be merged. Without the secondary one there is nothing to merge. -/
def readBoth (d : Disk) (primary secondary : Path) : Except Failure (Fields × Fields) :=
  if d.existsAt secondary then
    match read d primary with
    | .error e => .error e
    | .ok p => (read d secondary).map fun s => (p, s)
  else .error (.manifestMissing secondary)

/-- Merges two manifest files into a third, and answers what was written. -/
def mergeFiles (primary secondary dest : Path) (hook : Option Hook) : Action Failure Json := do
  let (p, s) ← Action.look (readBoth · primary secondary)
  let q := question p s
  if hook.isSome then Action.note q
  let v := settle hook q
  write dest v
  pure v

/-- Merges two manifest files if the secondary one is there, and answers whether it is. -/
def mergeFilesIfPresent (primary secondary dest : Path) (hook : Option Hook) :
    Action Failure Bool :=
  tryCatch (do let _ ← mergeFiles primary secondary dest hook; pure true) fun
    | .manifestMissing _ => pure false
    | e => throw e

end BundleMerge.Manifest
