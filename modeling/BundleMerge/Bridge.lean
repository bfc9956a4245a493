/-! The script that goes ahead of the primary entry script, so that two programs can register
with the host. It keeps the host's registration function, defines the entry point that stands in
for it in the primary script, and puts a function in its place that merges the options of all
registrations: handlers are chained, the stored ones first, and everything else is overwritten. -/
namespace BundleMerge

/-- The identifiers that the bridge script is built from. -/
structure Bridge where
  /-- The registration function of the host. -/
  registration : String := "App"
  /-- What the primary script calls instead. -/
  entryPoint : String := "WepyApp"
  /-- The global object of the host. -/
  hostGlobal : String := "wx"
  /-- The property of that object that is called before `onLaunch`. -/
  preLaunchHook : String := "__beforeOnLaunch__"
  deriving Repr, DecidableEq

namespace Bridge

inductive Slot where
  | registration
  | entryPoint
  | hostGlobal
  | preLaunchHook
  deriving Repr, DecidableEq

namespace Slot

def all : List Slot := [registration, entryPoint, hostGlobal, preLaunchHook]

def key : Slot → String
  | registration => "registration"
  | entryPoint => "entry_point"
  | hostGlobal => "host_global"
  | preLaunchHook => "pre_launch_hook"

end Slot

def get (b : Bridge) : Slot → String
  | .registration => b.registration
  | .entryPoint => b.entryPoint
  | .hostGlobal => b.hostGlobal
  | .preLaunchHook => b.preLaunchHook

def set (b : Bridge) (slot : Slot) (s : String) : Bridge :=
  match slot with
  | .registration => { b with registration := s }
  | .entryPoint => { b with entryPoint := s }
  | .hostGlobal => { b with hostGlobal := s }
  | .preLaunchHook => { b with preLaunchHook := s }

/-- A piece of the script: fixed text, or one of the identifiers. -/
inductive Piece where
  | text (s : String)
  | slot (s : Slot)

namespace Piece

instance : Coe String Piece := ⟨.text⟩
instance : Coe Slot Piece := ⟨.slot⟩

def fill (b : Bridge) : Piece → String
  | .text s => s
  | .slot s => b.get s

end Piece

/-- The property of the `onLaunch` wrapper that holds what it wraps. -/
def launchMarker : String := "__bridgeLaunchInner__"

def registry : List Piece :=
  ["const __bridgePreRegister = ", Slot.registration, ";\n",
   "let __bridgeOptions = null;\n"]

/-- The handler that calls two handlers one after the other. -/
def chaining : List Piece :=
  ["function __bridgeChain(previous, next) \x7b\n",
   "  return function (...args) \x7b\n",
   "    previous.apply(this, args);\n",
   "    return next.apply(this, args);\n",
   "  \x7d;\n",
   "\x7d\n"]

def entry : List Piece :=
  ["function ", Slot.entryPoint, "(opts) \x7b\n",
   "  __bridgeOptions = opts;\n",
   "\x7d\n"]

/-- The start of the new registration function: the options of the first registration, without
the wrapper of an earlier one. -/
def adoption : List Piece :=
  [Slot.registration, " = function (opts) \x7b\n",
   "  if (!__bridgeOptions) \x7b\n",
   "    __bridgeOptions = opts;\n",
   "  \x7d\n",
   "  const options = __bridgeOptions;\n",
   "  if (options.onLaunch && Object.prototype.hasOwnProperty.call(options.onLaunch, \"",
   launchMarker, "\")) \x7b\n",
   "    options.onLaunch = options.onLaunch.", launchMarker, ";\n",
   "  \x7d\n"]

def combination : List Piece :=
  ["  if (opts !== options) \x7b\n",
   "    Object.keys(opts || \x7b\x7d).forEach(function (key) \x7b\n",
   "      if (typeof options[key] === \"function\" && typeof opts[key] === \"function\") \x7b\n",
   "        options[key] = __bridgeChain(options[key], opts[key]);\n",
   "      \x7d else \x7b\n",
   "        options[key] = opts[key];\n",
   "      \x7d\n",
   "    \x7d);\n",
   "  \x7d\n"]

/-- The end of the new registration function: `onLaunch` calls the hook of the host first. -/
def launch : List Piece :=
  ["  const launch = options.onLaunch;\n",
   "  const wrapped = function (...args) \x7b\n",
   "    if (typeof ", Slot.hostGlobal, " !== \"undefined\" && typeof ", Slot.hostGlobal, ".",
   Slot.preLaunchHook, " === \"function\") \x7b\n",
   "      ", Slot.hostGlobal, ".", Slot.preLaunchHook, "();\n",
   "    \x7d\n",
   "    if (typeof launch === \"function\") \x7b\n",
   "      return launch.apply(this, args);\n",
   "    \x7d\n",
   "  \x7d;\n",
   "  wrapped.", launchMarker, " = launch;\n",
   "  options.onLaunch = wrapped;\n",
   "  __bridgePreRegister(options);\n",
   "\x7d;\n"]

def template : List Piece :=
  registry ++ chaining ++ entry ++ adoption ++ combination ++ launch

def script (b : Bridge) : String :=
  String.join (template.map (·.fill b))

end Bridge
end BundleMerge
