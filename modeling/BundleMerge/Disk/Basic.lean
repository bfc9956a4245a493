import Std.Data.TreeMap.Basic
import BundleMerge.Disk.Error
import BundleMerge.Path

/-! The files and directories that a merge works on, without links. A place is the list of names
that leads to it from the root, `node?` says what is there, and every operation is described by
what it does to `node?`. Paths are looked up part by part: each part but the last has to lead to
a directory, and `..` leads back out of it. -/
namespace BundleMerge

/-- Names from the root down; the root itself is the empty list. -/
abbrev Place := List String

inductive Node where
  | dir
  | file (bytes : ByteArray)

instance : DecidableEq Node
  | .dir, .dir => isTrue rfl
  | .dir, .file _ => isFalse nofun
  | .file _, .dir => isFalse nofun
  | .file a, .file b =>
    match ByteArray.instDecidableEq a b with
    | isTrue same => isTrue (congrArg Node.file same)
    | isFalse other => isFalse fun same => other (Node.file.inj same)

structure Disk where
  /-- Where relative paths start. -/
  cwd : Place
  nodes : Std.TreeMap Place Node

namespace Disk

def empty (cwd : Place) : Disk := ⟨cwd, ∅⟩

/-- What is at a place. The root is always a directory. -/
def node? (d : Disk) (at_ : Place) : Option Node :=
  if at_ = [] then some .dir else d.nodes[at_]?

def assign (d : Disk) (at_ : Place) (n : Node) : Disk :=
  { d with nodes := d.nodes.insert at_ n }

def cwdPath (d : Disk) : Path :=
  ⟨"/" ++ "/".intercalate d.cwd⟩

/-- One part further from a place, which has to be a directory. -/
def advance (d : Disk) (at_ : Place) (part : Path.Part) : Except DiskError Place :=
  match d.node? at_ with
  | none => .error .notFound
  | some (.file _) => .error .notDirectory
  | some .dir =>
    match part with
    | .root => .ok []
    | .here => .ok at_
    | .up => .ok at_.dropLast
    | .name s => .ok (at_ ++ [s])

/-- The place that parts lead to. Nothing needs to be there. -/
def follow (d : Disk) (parts : List Path.Part) : Except DiskError Place :=
  match parts with
  | .root :: parts => parts.foldlM d.advance []
  | parts => parts.foldlM d.advance d.cwd

def locate (d : Disk) (p : Path) : Except DiskError Place :=
  if p.text.toList.contains '\x00' then .error .nulInPath
  else if p.isEmpty then .error .notFound
  else d.follow p.parts

end Disk

namespace Path

/-- A path that ends in a slash or in `.` does not name a file. -/
def namesDirectory (p : Path) : Bool :=
  match (pieces p.text.toList).getLast? with
  | some piece => silent piece
  | none => false

/-- The parts of the path that contains this one. -/
def parentParts (p : Path) : List Part :=
  match p.parts with
  | [.root] => [.root]
  | parts => parts.dropLast

end Path

namespace Disk

def stat (d : Disk) (p : Path) : Except DiskError Node :=
  match d.locate p with
  | .error e => .error e
  | .ok at_ =>
    match d.node? at_ with
    | none => .error .notFound
    | some .dir => .ok .dir
    | some (.file bytes) => if p.namesDirectory then .error .notDirectory else .ok (.file bytes)

def existsAt (d : Disk) (p : Path) : Bool :=
  (d.stat p).isOk

def read (d : Disk) (p : Path) : Except DiskError ByteArray :=
  match d.stat p with
  | .error e => .error e
  | .ok .dir => .error .isDirectory
  | .ok (.file bytes) => .ok bytes

def readText (d : Disk) (p : Path) : Except DiskError String :=
  match d.read p with
  | .error e => .error e
  | .ok bytes => (String.fromUTF8? bytes).elim (.error .notUtf8) .ok

/-- What is at a place and below it, by the names that lead there from it; a directory comes
before what it contains. -/
def walk (d : Disk) (at_ : Place) : List (List String × Node) :=
  match d.node? at_ with
  | none => []
  | some n =>
    ([], n) :: d.nodes.toList.filterMap fun (place, n) =>
      if at_.isPrefixOf place && place ≠ at_ then some (place.drop at_.length, n) else none

def makeDir (d : Disk) (parts : List Path.Part) : Except DiskError Disk :=
  match d.follow parts with
  | .error e => .error e
  | .ok at_ =>
    match d.node? at_ with
    | some _ => .error .alreadyExists
    | none => .ok (d.assign at_ .dir)

/-- Opens a file for writing: it is there afterwards, and empty. -/
def truncate (d : Disk) (p : Path) : Except DiskError Disk :=
  match d.locate p with
  | .error e => .error e
  | .ok at_ =>
    match d.node? at_ with
    | some .dir => .error .isDirectory
    | some (.file _) =>
      if p.namesDirectory then .error .notDirectory else .ok (d.assign at_ (.file ByteArray.empty))
    | none =>
      if p.namesDirectory then .error .isDirectory else .ok (d.assign at_ (.file ByteArray.empty))

def put (d : Disk) (p : Path) (bytes : ByteArray) : Except DiskError Disk :=
  match d.truncate p with
  | .error e => .error e
  | .ok d =>
    match d.locate p with
    | .error e => .error e
    | .ok at_ => .ok (d.assign at_ (.file bytes))

/-- Moves a finished file to a path, in place of the file that was there. -/
def replace (d : Disk) (p : Path) (bytes : ByteArray) : Except DiskError Disk :=
  match d.locate p with
  | .error e => .error e
  | .ok at_ =>
    if p.endsInSlash then .error .notDirectory
    else match p.parts.getLast?, p.namesDirectory with
      | some (.name _), false =>
        match d.node? at_ with
        | some .dir => .error .isDirectory
        | _ => .ok (d.assign at_ (.file bytes))
      | _, _ => .error .busy

/-- Takes away what is at a place and below it. -/
def remove (d : Disk) (at_ : Place) : Disk :=
  { d with nodes := d.nodes.filter fun place _ => !at_.isPrefixOf place }

end Disk
end BundleMerge
