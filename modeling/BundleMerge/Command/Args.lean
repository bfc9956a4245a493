import BundleMerge.Path

/-! The command line: one command with its operands, and options that may stand anywhere. -/
namespace BundleMerge

inductive Command where
  /-- One run that copies the whole output tree. -/
  | run
  /-- A session that is fed with notifications, one a line. -/
  | watch
  | manifest (primary secondary dest : Path)
  | patch (entry : Path)
  deriving Repr, DecidableEq

structure Invocation where
  config : Path
  command : Command
  deriving Repr, DecidableEq

/-- Why nothing is executed. -/
inductive Stop where
  | usage
  | help
  | version (name : String)
  deriving Repr, DecidableEq

namespace Command

def programName : String := "miniapp-merge"
def programVersion : String := "0.3.0"
def defaultConfig : String := "miniapp-merge.toml"

structure Words where
  config : Option String := none
  operands : List String := []

def isOption (word : String) : Bool :=
  match word.toList with
  | '-' :: _ :: _ => true
  | _ => false

/-- Sets the configuration file. It is set once at most, and has a name. -/
def Words.setConfig (w : Words) (value : String) : Except Stop Words :=
  if w.config.isSome || value.isEmpty then .error .usage else .ok { w with config := some value }

def readOption (name : String) (w : Words) (word : String) (rest : List String) :
    Except Stop (Words × List String) :=
  match word.toList with
  | '-' :: 'V' :: _ => .error (.version name)
  | '-' :: 'h' :: _ => .error .help
  | cs =>
    if word = "--version" then .error (.version name)
    else if word = "--help" then .error .help
    else if word = "--config" then
      match rest with
      | [] => .error .usage
      | value :: rest =>
        if isOption value then .error .usage else (w.setConfig value).map fun w => (w, rest)
    else if "--config=".toList.isPrefixOf cs then
      (w.setConfig (String.ofList (cs.drop 9))).map fun w => (w, rest)
    else .error .usage

def Words.take (w : Words) (most : Nat) (word : String) : Except Stop Words :=
  if most ≤ w.operands.length || word.isEmpty then .error .usage
  else .ok { w with operands := w.operands ++ [word] }

/-- Reads words up to an operand; fuel bounds their number. -/
def readOptions (name : String) : Nat → Words → List String → Except Stop (Words × List String)
  | 0, _, _ => .error .usage
  | _, w, [] => .ok (w, [])
  | fuel + 1, w, word :: rest =>
    if isOption word && word ≠ "--" then
      match readOption name w word rest with
      | .error e => .error e
      | .ok (w, rest) => readOptions name fuel w rest
    else .ok (w, word :: rest)

/-- Reads all words that are left, with at most so many operands. After `--` every word is an
operand. -/
def readWords (name : String) (most : Nat) : Nat → Words → List String → Except Stop Words
  | 0, _, _ => .error .usage
  | fuel + 1, w, words =>
    match readOptions name (words.length + 1) w words with
    | .error e => .error e
    | .ok (w, []) => .ok w
    | .ok (w, word :: rest) =>
      if word = "--" then rest.foldlM (fun w word => w.take most word) w
      else match w.take most word with
        | .error e => .error e
        | .ok w => readWords name most fuel w rest

/-- The command that a word names, given its operands, and how many it has. -/
def shape? (word : String) : Option (Nat × (List String → Option Command)) :=
  match word with
  | "run" => some (0, fun _ => some run)
  | "watch" => some (0, fun _ => some watch)
  | "manifest" => some (3, fun
    | [a, b, c] => some (manifest ⟨a⟩ ⟨b⟩ ⟨c⟩)
    | _ => none)
  | "patch" => some (1, fun
    | [a] => some (patch ⟨a⟩)
    | _ => none)
  | _ => none

/-- The configuration file: as named after the command, before it, or by the environment. -/
def chooseConfig (before after setting : Option String) : Except Stop Path :=
  if setting = some "" && (before.isNone || after.isNone) then .error .usage
  else .ok ⟨(after.orElse fun _ => before.orElse fun _ => setting).getD defaultConfig⟩

end Command

/-- Reads a command line. `setting` is what the environment names as configuration file. -/
def Invocation.ofWords (setting : Option String) (words : List String) :
    Except Stop Invocation := do
  let (before, words) ← Command.readOptions Command.programName (words.length + 1) {} words
  match words with
  | [] => throw .usage
  | word :: rest =>
    if word = "help" then throw .help
    match Command.shape? word with
    | none => throw .usage
    | some (operands, make) => do
      let after ← Command.readWords (Command.programName ++ "-" ++ word) operands
        (rest.length + 1) {} rest
      let config ← Command.chooseConfig before.config after.config setting
      match make after.operands with
      | none => throw .usage
      | some command => pure { config, command }

end BundleMerge
