import BundleMerge.Action

/-! Writing files, with the directories that they need. -/
namespace BundleMerge.Disk

def isDirAt (d : Disk) (parts : List Path.Part) : Bool :=
  match d.follow parts with
  | .ok at_ => d.node? at_ = some .dir
  | .error _ => false

/-- Makes one directory, which may be there already. -/
def ensureDir (parts : List Path.Part) : Action DiskError Unit :=
  Action.change fun d =>
    match d.makeDir parts with
    | .ok d => .ok d
    | .error e => if d.isDirAt parts then .ok d else .error e

/-- Makes a directory and those that it lies in, given its parts with the last one first. -/
def makeDirsBack : List Path.Part → Action DiskError Unit
  | [] => pure ()
  | part :: above => do
    let parts := (part :: above).reverse
    let s ← get
    if s.disk.makeDir parts matches .error (.system 2) then
      makeDirsBack above
    ensureDir parts

def makeDirs (parts : List Path.Part) : Action DiskError Unit :=
  makeDirsBack parts.reverse

def makeDirsFor (p : Path) : Action DiskError Unit :=
  if p.text.toList.contains '\x00' then throw .nulInPath else makeDirs p.parts

def makeParents (p : Path) : Action DiskError Unit :=
  if p.text.toList.contains '\x00' then throw .nulInPath else makeDirs p.parentParts

/-- Copies a file. The copy is opened first, so a file copied onto itself ends up empty. -/
def copyFile (src dest : Path) : Action DiskError Unit := do
  makeParents dest
  let _ ← Action.look (·.read src)
  Action.change (·.truncate dest)
  let bytes ← Action.look (·.read src)
  Action.change (·.put dest bytes)

/-- Writes a file as a whole, in place of the file that was there. -/
def writeAtomic (p : Path) (bytes : ByteArray) : Action DiskError Unit := do
  makeParents p
  Action.change (·.replace p bytes)

end BundleMerge.Disk
