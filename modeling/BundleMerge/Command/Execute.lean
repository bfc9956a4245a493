import BundleMerge.Asset.Read
import BundleMerge.Command.Args
import BundleMerge.Config.Decode
import BundleMerge.Session
import BundleMerge.Text.Blank

/-! What the commands do: the files they leave, what they print, and their exit code. -/
namespace BundleMerge.Command

/-- An error that ends a command, with what it comes from. -/
structure Complaint where
  text : String
  causes : List String := []
  deriving Repr, DecidableEq

namespace Complaint

def ofFailure (f : Failure) : Complaint :=
  ⟨f.message, f.cause?.toList⟩

def ofConfigError (e : ConfigError) : Complaint :=
  ⟨e.message, []⟩

def indented (first others text : String) : String :=
  first ++ ("\n" ++ others).intercalate (text.splitOn "\n")

def padded (n : Nat) : String :=
  let digits := toString n
  String.ofList (List.replicate (5 - digits.length) ' ') ++ digits

def numbered (n : Nat) : List String → List String
  | [] => []
  | cause :: causes =>
    indented (padded n ++ ": ") "       " cause :: numbered (n + 1) causes

/-- The lines of the causes; they are numbered if there are several. -/
def causeLines : List String → List String
  | [cause] => [indented "    " "    " cause]
  | causes => numbered 0 causes

def message (c : Complaint) : String :=
  let shown := match causeLines c.causes with
    | [] => ""
    | lines => "\n\nCaused by:\n" ++ "\n".intercalate lines
  "Error: " ++ c.text ++ shown ++ "\n"

end Complaint

/-- What a command leaves: an error or nothing, what it printed, and the files. -/
structure Effect where
  answer : Except Complaint Unit
  output : String
  disk : Disk

def failed (c : Complaint) (d : Disk) : Effect := ⟨.error c, "", d⟩

def loadConfig (d : Disk) (p : Path) : Except Complaint Config :=
  (Config.load d p).mapError fun e => ⟨"loading " ++ p.text, [e.message]⟩

def optionsOf (d : Disk) (c : Config) : Except Complaint Options :=
  (Options.ofConfig d.cwdPath c).mapError .ofConfigError

def runOnce (c : Config) (d : Disk) : Effect :=
  match optionsOf d c with
  | .error e => failed e d
  | .ok o =>
    let (r, site) := (Merger.ofOptions o).runFullTree.run ⟨d, []⟩
    match r with
    | .error f => failed (.ofFailure f) site.disk
    | .ok report => ⟨.ok (), report.json.write Json.pretty ++ "\n", site.disk⟩

def pageCount (v : Json) : Nat :=
  match v.get? Manifest.pagesKey with
  | some (.array pages) => pages.length
  | _ => 0

def mergeManifests (primary secondary dest : Path) (d : Disk) : Effect :=
  let (r, site) := (Manifest.mergeFiles primary secondary dest none).run ⟨d, []⟩
  match r with
  | .error f => failed (.ofFailure f) site.disk
  | .ok v =>
    ⟨.ok (), "wrote " ++ dest.text ++ " (" ++ toString (pageCount v) ++ " pages)\n", site.disk⟩

def showPatched (c : Config) (entry : Path) (d : Disk) : Effect :=
  match (Patcher.ofBridge c.bridge).patchFile d entry with
  | .error f => failed (.ofFailure f) d
  | .ok text => ⟨.ok (), text, d⟩

/-! ### Watching -/

def linesOf : List UInt8 → List (List UInt8)
  | [] => [[]]
  | b :: bs =>
    if b = 10 then [] :: linesOf bs
    else match linesOf bs with
      | line :: lines => (b :: line) :: lines
      | [] => [[b]]

/-- What a line of input asks for: nothing if it is blank or no notification. -/
def notificationOf (line : String) : Option Notification :=
  let text := Text.trimmed line.toList
  if text = [] then none else (Notification.parse (String.ofList text)).toOption

def acknowledgement (n : Notification) : String :=
  "next " ++ n.file.text ++ "\n"

/-- A session that takes a line of input at a time, and what it answers. -/
def hear (s : Session) (cwd : Path) (now : Nat) (line : String) : String × Session :=
  match notificationOf line with
  | none => ("", s)
  | some n => (acknowledgement n, s.notify cwd n now)

def unreadableInput : Complaint :=
  ⟨"reading notifications from stdin", [DiskError.message .notUtf8]⟩

/-- What wakes a watch: the next line of input, or the timer. -/
inductive Event where
  | line (bytes : List UInt8)
  | timeout
  deriving Repr, DecidableEq

/-- A watch between two events. -/
structure Watch where
  session : Session
  disk : Disk

/-- What comes of an event. A run that fails is logged, and the watch goes on. -/
structure Reaction where
  watch : Watch
  said : String := ""
  trouble : Option Failure := none

def Reaction.ofOutcome (o : Session.Outcome) : Reaction where
  watch := ⟨o.session, o.site.disk⟩
  trouble := match o.answer with
    | .error e => some e
    | .ok _ => none

namespace Watch

def hear (w : Watch) (now : Nat) (line : String) : Reaction :=
  let (said, session) := Command.hear w.session w.disk.cwdPath now line
  { watch := { w with session }, said }

/-- What is due is run. -/
def wake (w : Watch) (now : Nat) : Reaction :=
  .ofOutcome (w.session.poll now ⟨w.disk, []⟩)

def react (w : Watch) (now : Nat) : Event → Except Complaint Reaction
  | .timeout => .ok (w.wake now)
  | .line bytes =>
    match String.fromUTF8? ⟨bytes.toArray⟩ with
    | none => .error unreadableInput
    | some line => .ok (w.hear now line)

/-- At the end of input, what is pending is run, due or not. -/
def finish (w : Watch) (now : Nat) : Reaction :=
  .ofOutcome (w.session.flush now ⟨w.disk, []⟩)

end Watch

/-- Takes events, each at its time, and then the end of input. -/
def watchFrom (w : Watch) (ending : Nat) : List (Nat × Event) → Effect
  | [] => ⟨.ok (), "", (w.finish ending).watch.disk⟩
  | (now, event) :: events =>
    match w.react now event with
    | .error e => failed e w.disk
    | .ok reaction =>
      let rest := watchFrom reaction.watch ending events
      { rest with output := reaction.said ++ rest.output }

def watchEvents (c : Config) (events : List (Nat × Event)) (ending : Nat) (d : Disk) : Effect :=
  match optionsOf d c with
  | .error e => failed e d
  | .ok o => watchFrom ⟨.ofOptions o, d⟩ ending events

/-- All lines come before the timer is due. -/
def watchInput (c : Config) (input : List UInt8) (d : Disk) : Effect :=
  watchEvents c ((linesOf input).map fun bytes => (0, .line bytes)) 0 d

/-- Executes a command. `input` is what it is fed with. -/
def execute (i : Invocation) (input : List UInt8) (d : Disk) : Effect :=
  match loadConfig d i.config with
  | .error e => failed e d
  | .ok c =>
    match i.command with
    | .run => runOnce c d
    | .watch => watchInput c input d
    | .manifest primary secondary dest => mergeManifests primary secondary dest d
    | .patch entry => showPatched c entry d

/-- The paths of what a command reads and writes, besides its configuration file. -/
def touched (c : Config) : Command → List Path
  | .run | .watch => [c.output, c.target] ++ c.copyDir.toList ++ c.sourceApp.toList
  | .manifest primary secondary dest => [primary, secondary, dest]
  | .patch entry => [entry]

/-! ### The program -/

structure Settings where
  config : Option String := none
  telemetryEndpoint : Option String := none

def telemetryWarning : String :=
  "warning: OTEL_EXPORTER_OTLP_ENDPOINT set but miniapp-merge built without 'otel' feature\n"

/-- What is said first: there is nothing here that could export telemetry. -/
def greeting (s : Settings) : String :=
  match s.telemetryEndpoint with
  | none | some "" => ""
  | some _ => telemetryWarning

def usageText : String :=
  "Usage: miniapp-merge [--config <CONFIG>] <COMMAND>\n\n" ++
    "Commands:\n" ++
    "  run       Run one full-tree merge now\n" ++
    "  watch     Merge on debounced change notifications read from stdin\n" ++
    "  manifest  Merge two manifests into a third file\n" ++
    "  patch     Print the bridge file patched from an entry script\n"

structure Result where
  code : Nat
  output : String
  errors : String
  disk : Disk

def stopped (d : Disk) : Stop → Result
  | .usage => ⟨2, "", usageText, d⟩
  | .help => ⟨0, usageText, "", d⟩
  | .version name => ⟨0, name ++ " " ++ programVersion ++ "\n", "", d⟩

def finished (s : Settings) (e : Effect) : Result :=
  match e.answer with
  | .ok _ => ⟨0, e.output, greeting s, e.disk⟩
  | .error c => ⟨1, e.output, greeting s ++ c.message, e.disk⟩

/-- The program on a command line. -/
def program (s : Settings) (words : List String) (input : List UInt8) (d : Disk) : Result :=
  match Invocation.ofWords s.config words with
  | .error stop => stopped d stop
  | .ok i => finished s (execute i input d)

end BundleMerge.Command
