import BundleMerge.Command.Execute

/-! The program. What a command touches is read before it is executed, and what it changed is
written afterwards. -/
namespace BundleMerge

def entryAt (at_ : Place) : IO.FS.DirEntry :=
  { root := "/" ++ "/".intercalate at_.dropLast, fileName := at_.getLast?.getD "" }

/-- Takes what is at a place into account, but not what is below it. -/
def loadNode (d : Disk) (at_ : Place) : IO Disk := do
  let path := (entryAt at_).path
  if ← path.isDir then return d.assign at_ .dir
  if ← path.pathExists then
    return d.assign at_ (.file (← IO.FS.readBinFile path))
  return d

/-- Takes what is at a place into account, and everything below it. -/
partial def loadTree (d : Disk) (at_ : Place) : IO Disk := do
  let d ← loadNode d at_
  if d.node? at_ ≠ some .dir then return d
  let mut d := d
  for entry in ← (entryAt at_).path.readDir do
    d ← loadTree d (at_ ++ [entry.fileName])
  return d

def stepTo (at_ : Place) : Path.Part → Place
  | .root => []
  | .here => at_
  | .up => at_.dropLast
  | .name s => at_ ++ [s]

/-- Takes a path into account: what lies on it, and everything below it. -/
def loadPath (d : Disk) (p : Path) : IO Disk := do
  let mut d := d
  let mut at_ := d.cwd
  for part in p.parts do
    at_ := stepTo at_ part
    d ← loadNode d at_
  if p.isEmpty then return d else loadTree d at_

def loadPaths (d : Disk) (paths : List Path) : IO Disk :=
  paths.foldlM loadPath d

def save (before after : Disk) : IO Unit := do
  for (at_, node) in after.nodes.toList do
    if before.node? at_ ≠ some node then
      let path := (entryAt at_).path
      match node with
      | .dir => IO.FS.createDirAll path
      | .file bytes => IO.FS.writeBinFile path bytes

def openDisk : IO Disk := do
  let cwd := ((← IO.currentDir).toString.splitOn "/").filter (· ≠ "")
  (List.range (cwd.length + 1)).foldlM (fun d n => loadNode d (cwd.take n)) (.empty cwd)

def say (text : String) : IO Unit := do
  let out ← IO.getStdout
  out.putStr text
  out.flush

def finish (output errors : String) (code : Nat) : IO UInt32 := do
  say output
  IO.eprint errors
  return code.toUInt32

/-- Takes an event, or the end of input, on the files as they are. -/
def attempt (o : Options) (w : Command.Watch) (call : Command.Watch → Command.Reaction) :
    IO Command.Watch := do
  let d ← loadPaths w.disk (Command.touched o.config .watch)
  let reaction := call { w with disk := d }
  save d reaction.watch.disk
  say reaction.said
  if let some e := reaction.trouble then IO.eprintln e.message
  return { reaction.watch with disk := w.disk }

/-- Reads to the end of the line, or of the input. -/
partial def readLine (input : IO.FS.Stream) (read : ByteArray) : IO ByteArray := do
  let next ← input.read 1
  if next.isEmpty || next.toList = [10] then return read ++ next
  readLine input (read ++ next)

abbrev NextLine := Task (Except IO.Error ByteArray)

def nextLine : IO NextLine := do
  IO.asTask (readLine (← IO.getStdin) .empty)

/-- Waits for the next line. It goes before a timer that is due. -/
partial def nextEvent (now : IO Nat) (s : Session) (line : NextLine) :
    IO (Option (Except IO.Error ByteArray)) := do
  if ← IO.hasFinished line then return some line.get
  if s.timer.due (← now) then return none
  IO.sleep 10
  nextEvent now s line

partial def watchLoop (o : Options) (now : IO Nat) (w : Command.Watch) (line : NextLine) :
    IO UInt32 := do
  let event ← nextEvent now w.session line
  let time ← now
  match event with
  | none => watchLoop o now (← attempt o w (·.wake time)) line
  | some (.error _) => finish "" Command.unreadableInput.message 1
  | some (.ok bytes) =>
    if bytes.isEmpty then
      let _ ← attempt o w (·.finish time)
      return 0
    match w.react time (.line bytes.toList) with
    | .error e => finish "" e.message 1
    | .ok { watch, said, .. } => do
      say said
      watchLoop o now watch (← nextLine)

def watch (o : Options) (d : Disk) : IO UInt32 := do
  let start ← IO.monoMsNow
  watchLoop o (do return (← IO.monoMsNow) - start) ⟨.ofOptions o, d⟩ (← nextLine)

def execute (settings : Command.Settings) (i : Invocation) : IO UInt32 := do
  let base ← openDisk
  let d ← loadPath base i.config
  let config := (Config.load d i.config).toOption.getD {}
  match i.command, Command.optionsOf d config with
  | .watch, .ok o =>
    IO.eprint (Command.greeting settings)
    watch o base
  | _, _ => do
    let d ← loadPaths d (Command.touched config i.command)
    let r := Command.finished settings (Command.execute i [] d)
    save d r.disk
    finish r.output r.errors r.code

end BundleMerge

def main (args : List String) : IO UInt32 := do
  let settings : BundleMerge.Command.Settings :=
    { config := ← IO.getEnv "MINIAPP_MERGE_CONFIG"
      telemetryEndpoint := ← IO.getEnv "OTEL_EXPORTER_OTLP_ENDPOINT" }
  match BundleMerge.Invocation.ofWords settings.config args with
  | .error stop => do
    let r := BundleMerge.Command.stopped (.empty []) stop
    BundleMerge.finish r.output r.errors r.code
  | .ok i => BundleMerge.execute settings i
