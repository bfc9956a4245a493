import BundleMerge.Config
import BundleMerge.Disk.Basic
import BundleMerge.Number.Shortest
import BundleMerge.Text.Quoted
import BundleMerge.Toml.Document

/-! Configurations in TOML. Every key has to be one that is known, and every value of the type
that belongs to its key; a key that is absent leaves the default. The entries are looked at one
by one, and the first one that does not fit is reported with its line. -/
namespace BundleMerge.Config

open Toml (Value Key)

/-- What does not fit, and where. -/
structure Misfit where
  start : List Char
  text : String
  deriving Repr, DecidableEq

/-- What is read from a value; a misfit need not have a place yet. -/
abbrev Decoded (α : Type) := Except (Option (List Char) × String) α

def floatText : Toml.Float → String
  | .finite x => String.ofList x.writePositional
  | .infinite negative => if negative then "-inf" else "inf"
  | .nan => "NaN"

def describe : Value → String
  | .scalar (.string s) _ => "string " ++ Text.quoted s
  | .scalar (.integer n) _ => "integer `" ++ toString n ++ "`"
  | .scalar (.float x) _ => "floating point `" ++ floatText x ++ "`"
  | .scalar (.boolean b) _ => "boolean `" ++ toString b ++ "`"
  | .scalar .date _ | .table _ _ _ => "map"
  | .array _ _ | .tables _ => "sequence"

def misfit {α : Type} (v : Value) (expected : String) : Decoded α :=
  .error (v.start?, "invalid type: " ++ describe v ++ ", expected " ++ expected)

def text (expected : String) (v : Value) : Decoded String :=
  match v with
  | .scalar (.string s) _ => .ok s
  | v => misfit v expected

def string (v : Value) : Decoded String := text "a string" v

def path (v : Value) : Decoded Path := (text "path string" v).map Path.mk

def boolean (v : Value) : Decoded Bool :=
  match v with
  | .scalar (.boolean b) _ => .ok b
  | v => misfit v "a boolean"

/-- A number that is not negative, of the type named. -/
def natural (type : String) (v : Value) : Decoded Nat :=
  match v with
  | .scalar (.integer n) start =>
    if 0 ≤ n then .ok n.toNat
    else .error (some start, "invalid value: integer `" ++ toString n ++ "`, expected " ++ type)
  | v => misfit v type

def strings (v : Value) : Decoded (List String) :=
  match v with
  | .array items _ => items.mapM string
  | .tables items => items.mapM string
  | v => misfit v "a sequence"

def oneOf (names : List String) : String :=
  ", ".intercalate (names.map fun name => "`" ++ name ++ "`")

def unknownText (name : String) (names : List String) : String :=
  "unknown field `" ++ name ++ "`, expected one of " ++ oneOf names

def unknownField (key : Key) (names : List String) : Misfit :=
  ⟨key.start, unknownText key.name names⟩

/-- The one entry of a date that is read as a map. -/
def dateField : String := "$__toml_private_datetime"

def under {α : Type} (key : Key) (r : Decoded α) : Except Misfit α :=
  r.mapError fun (start, text) => ⟨start.getD key.start, text⟩

structure Texts (Slot α : Type) where
  all : List Slot
  key : Slot → String
  set : α → Slot → String → α

def bridgeTexts : Texts Bridge.Slot Bridge := ⟨Bridge.Slot.all, Bridge.Slot.key, Bridge.set⟩

def fileTexts : Texts FileNames.Slot FileNames :=
  ⟨FileNames.Slot.all, FileNames.Slot.key, FileNames.set⟩

def setText {Slot α : Type} (t : Texts Slot α) (a : α) (entry : Key × Value) :
    Except Misfit α :=
  match t.all.find? (t.key · = entry.1.name) with
  | some slot => (under entry.1 (string entry.2)).map (t.set a slot)
  | none => .error (unknownField entry.1 (t.all.map t.key))

/-- Sets the first fields, in their order, from the items of an array. -/
def setInOrder {Slot α : Type} (t : Texts Slot α) (a : α) (items : List Value) : Decoded α :=
  (t.all.zip items).foldlM (fun a (slot, v) => (string v).map (t.set a slot)) a

/-- Texts from a table, or from an array that lists them in the order of their fields. -/
def texts {Slot α : Type} (t : Texts Slot α) (expected : String) (a : α) (v : Value) :
    Decoded α :=
  match v with
  | .table _ entries _ =>
    (entries.foldlM (setText t) a).mapError fun m => (some m.start, m.text)
  | .array items _ | .tables items => setInOrder t a items
  | .scalar .date start => .error (some start, unknownText dateField (t.all.map t.key))
  | v => misfit v expected

def fieldNames : List String :=
  ["input", "output", "target", "copy_dir", "source_app", "is_close", "exclude", "debounce_ms",
   "full_copy_threshold", "bridge", "files"]

def setField (c : Config) (entry : Key × Value) : Except Misfit Config :=
  let (key, v) := entry
  match key.name with
  | "input" => (under key (path v)).map fun input => { c with input }
  | "output" => (under key (path v)).map fun output => { c with output }
  | "target" => (under key (path v)).map fun target => { c with target }
  | "copy_dir" => (under key (path v)).map fun p => { c with copyDir := some p }
  | "source_app" => (under key (path v)).map fun p => { c with sourceApp := some p }
  | "is_close" => (under key (boolean v)).map fun isClose => { c with isClose }
  | "exclude" => (under key (strings v)).map fun exclude => { c with exclude }
  | "debounce_ms" => (under key (natural "u64" v)).map fun debounceMs => { c with debounceMs }
  | "full_copy_threshold" =>
    (under key (natural "usize" v)).map fun fullCopyThreshold => { c with fullCopyThreshold }
  | "bridge" =>
    (under key (texts bridgeTexts "struct BridgeConfig" {} v)).map fun bridge => { c with bridge }
  | "files" =>
    (under key (texts fileTexts "struct FileNames" {} v)).map fun files => { c with files }
  | _ => .error (unknownField key fieldNames)

def ofEntries (entries : Toml.Entries) : Except Misfit Config :=
  entries.foldlM setField {}

/-- What is wrong with the text of a configuration. -/
inductive Fault where
  | grammar (line : Nat)
  | misfit (line : Nat) (text : String)
  deriving Repr, DecidableEq

def Fault.text : Fault → String
  | .grammar line => "line " ++ toString line
  | .misfit line text => "line " ++ toString line ++ ": " ++ text

def decode (text : String) : Except Fault Config :=
  let cs := text.toList
  match Toml.parse cs with
  | .error rest => .error (.grammar (Toml.lineOf cs rest))
  | .ok entries =>
    (ofEntries entries).mapError fun m => .misfit (Toml.lineOf cs m.start) m.text

def parse (text : String) : Except ConfigError Config :=
  (decode text).mapError fun f => invalid f.text

/-- What is wrong with a configuration file. -/
inductive LoadFault where
  | unreadable (cause : DiskError)
  | unfit (f : Fault)
  deriving Repr, DecidableEq

def LoadFault.text : LoadFault → String
  | .unreadable cause => "could not read file: " ++ cause.message
  | .unfit f => f.text

/-- Reads a configuration file. A file that is not there leaves all defaults. -/
def ofFile (d : Disk) (p : Path) : Except LoadFault Config :=
  match d.readText p with
  | .error (.system 2) => .ok {}
  | .error e => .error (.unreadable e)
  | .ok text => (decode text).mapError .unfit

def load (d : Disk) (p : Path) : Except ConfigError Config :=
  (ofFile d p).mapError fun f => ⟨some p, f.text⟩

end BundleMerge.Config
