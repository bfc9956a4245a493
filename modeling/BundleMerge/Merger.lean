import BundleMerge.Options
import BundleMerge.Patch

/-! A merge run. It makes the bridge file first, which changes nothing on disk; then it copies
what has changed, writes the bridge file, and lays the secondary program over the result. -/
namespace BundleMerge

inductive Strategy where
  | fullTree
  | perFile
  deriving Repr, DecidableEq

def Strategy.label : Strategy → String
  | fullTree => "full-tree"
  | perFile => "per-file"

inductive BridgeFile where
  | patched (text : String)
  /-- A file that is copied as it is. -/
  | verbatim (path : Path)
  deriving Repr, DecidableEq

structure OverlayReport where
  filesCopied : Nat
  /-- The secondary entry script loads the bridge file. -/
  entryChained : Bool
  manifestMerged : Bool
  deriving Repr, DecidableEq

structure Report where
  strategy : Strategy
  queued : Nat
  filesCopied : Nat
  /-- The manifest was merged with the one that lay in the target. -/
  manifestMerged : Bool
  /-- Where the bridge file was copied from, unless it was made from the entry script. -/
  bridgeFrom : Option Path
  overlay : Option OverlayReport
  deriving Repr, DecidableEq

namespace Report

def overlayJson (r : OverlayReport) : Json :=
  .object [("files_copied", .number (.int r.filesCopied)), ("entry_chained", .bool r.entryChained),
    ("manifest_merged", .bool r.manifestMerged)]

def json (r : Report) : Json :=
  .object [("strategy", .string r.strategy.label), ("queued", .number (.int r.queued)),
    ("files_copied", .number (.int r.filesCopied)), ("manifest_merged", .bool r.manifestMerged),
    ("bridge", r.bridgeFrom.elim (.string "patched") fun p =>
      .object [("verbatim", .string p.text)]),
    ("overlay", r.overlay.elim .null overlayJson)]

end Report

structure Merger where
  options : Options
  patcher : Patcher

namespace Merger

def ofOptions (o : Options) : Merger :=
  ⟨o, .ofBridge o.config.bridge⟩

def config (m : Merger) : Config := m.options.config

def strategyFor (m : Merger) (queued : Nat) : Strategy :=
  if m.config.fullCopyThreshold ≤ queued then .fullTree else .perFile

/-- Makes the bridge file. The primary entry script has to be there even if it is not used. -/
def prepare (m : Merger) (d : Disk) : Except Failure BridgeFile :=
  let entry := m.config.primaryEntry
  if d.existsAt entry then
    match m.config.sourceApp with
    | some p => .ok (.verbatim p)
    | none => (m.patcher.patchFile d entry).map .patched
  else .error (.notBuiltYet entry)

/-- The entry script and the manifest of the primary program are never copied. -/
def excluded (m : Merger) (src dest : Path) : Bool :=
  src.sameAs m.config.primaryEntry || src.sameAs m.config.primaryManifest ||
    m.options.excluded src dest

def inTarget (m : Merger) (name : String) : Path :=
  m.config.target.join ⟨name⟩

def copyFullTree (m : Merger) : Action Failure Nat :=
  Disk.copy m.excluded m.config.output m.config.target

/-- Merges the primary manifest with the secondary one that lies in the target. -/
def mergeStaged (m : Merger) : Action Failure Bool :=
  Manifest.mergeFilesIfPresent m.config.primaryManifest
    (m.inTarget m.config.files.secondaryManifest) (m.inTarget m.config.files.manifest) none

/-- Copies the paths of a queue that lie in the output tree. Where the manifest stands in it for
the first time, the staged manifest is merged. -/
def copyQueued (m : Merger) (manifestSeen : Bool) : List Path → Action Failure (Nat × Bool)
  | [] => pure (0, false)
  | src :: queue =>
    match src.relativeTo? m.config.output with
    | none => copyQueued m manifestSeen queue
    | some rel => do
      let first := !manifestSeen && src.sameAs m.config.primaryManifest
      let merged ← if first then m.mergeStaged else pure false
      let n ← Disk.copy m.excluded src (m.config.target.join rel)
      let (more, mergedLater) ← copyQueued m (manifestSeen || first) queue
      pure (n + more, merged || mergedLater)

def copyChanges (m : Merger) (strategy : Strategy) (queue : List Path) :
    Action Failure (Nat × Bool) :=
  match strategy with
  | .fullTree => do pure (← m.copyFullTree, false)
  | .perFile => m.copyQueued false queue

def writeBridge (m : Merger) (bridge : BridgeFile) : Action Failure Unit :=
  let path := m.inTarget m.config.files.bridgeOutput
  match bridge with
  | .patched text => Action.withError Failure.disk (Disk.writeAtomic path text.toUTF8)
  | .verbatim src => do let _ ← Disk.copy Disk.copyAllowed src path

def readSecondaryEntry (d : Disk) (path : Path) : Except Failure (Option String) :=
  match d.readText path with
  | .ok text => .ok (some text)
  | .error (.system 2) => .ok none
  | .error .notUtf8 => .error (.patchFailure path "not valid UTF-8")
  | .error e => .error (.disk e)

/-- The secondary entry script with the bridge file loaded ahead of it. -/
def chained (m : Merger) (script : String) : String :=
  "require(\"./" ++ m.config.files.bridgeOutput ++ "\");\n" ++ script

def overlay (m : Merger) (dir : Path) : Action Failure OverlayReport := do
  let filesCopied ← Disk.copy Disk.copyAllowed dir m.config.target
  let files := m.config.files
  match ← Action.look (readSecondaryEntry · (dir.join ⟨files.entryScript⟩)) with
  | none => pure ⟨filesCopied, false, false⟩
  | some script => do
    Action.withError Failure.disk <|
      Disk.writeAtomic (m.inTarget files.entryScript) (m.chained script).toUTF8
    let merged ← Manifest.mergeFilesIfPresent m.config.primaryManifest
      (dir.join ⟨files.manifest⟩) (m.inTarget files.manifest) m.options.hook
    pure ⟨filesCopied, true, merged⟩

def overlayIfPresent (m : Merger) : Action Failure (Option OverlayReport) :=
  match m.config.copyDir with
  | none => pure none
  | some dir => do
    let present ← Action.look fun d => .ok (d.existsAt dir)
    if present then some <$> m.overlay dir else pure none

def sourceOf : BridgeFile → Option Path
  | .patched _ => none
  | .verbatim p => some p

/-- What a run does once the bridge file is made. -/
def applyWith (m : Merger) (strategy : Strategy) (bridge : BridgeFile) (queue : List Path) :
    Action Failure Report := do
  let (filesCopied, manifestMerged) ← m.copyChanges strategy queue
  m.writeBridge bridge
  let overlay ← m.overlayIfPresent
  pure ⟨strategy, queue.length, filesCopied, manifestMerged, sourceOf bridge, overlay⟩

def apply (m : Merger) (bridge : BridgeFile) (queue : List Path) : Action Failure Report :=
  m.applyWith (m.strategyFor queue.length) bridge queue

def run (m : Merger) (queue : List Path) : Action Failure Report := do
  m.apply (← Action.look m.prepare) queue

/-- A run that copies the whole output tree. -/
def runFullTree (m : Merger) : Action Failure Report := do
  m.applyWith .fullTree (← Action.look m.prepare) []

end Merger
end BundleMerge
