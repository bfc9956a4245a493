import BundleMerge.Disk.Write
import BundleMerge.Failure

/-! Copying trees. An exclusion looks at the source and the destination of a copy; nothing below
an excluded directory is copied. -/
namespace BundleMerge.Disk

abbrev Exclusion := Path → Path → Bool

def copyAllowed : Exclusion := fun _ _ => false

/-- Whether the entry that `names` lead to is excluded, or a directory above it is. -/
def cutOff (exclude : Exclusion) (src dest : Path) : List String → Bool
  | [] => exclude src dest
  | name :: names =>
    exclude src dest || cutOff exclude (src.join ⟨name⟩) (dest.join ⟨name⟩) names

/-- Copies one entry of a tree, and answers how many files that were. -/
def copyEntry (src dest : Path) (entry : List String × Node) : Action Failure Nat :=
  let from_ := src.descend entry.1
  let to_ := dest.descend entry.1
  Action.withError (Failure.copyFailure from_ to_) <|
    match entry.2 with
    | .dir => do makeDirsFor to_; pure 0
    | .file _ => do copyFile from_ to_; pure 1

def copyEntries (src dest : Path) : List (List String × Node) → Action Failure Nat
  | [] => pure 0
  | entry :: rest => do
    let n ← copyEntry src dest entry
    let more ← copyEntries src dest rest
    pure (n + more)

def entriesToCopy (d : Disk) (exclude : Exclusion) (src dest : Path) :
    Except DiskError (List (List String × Node)) :=
  match d.stat src, d.locate src with
  | .error e, _ | _, .error e => .error e
  | .ok _, .ok at_ => .ok ((d.walk at_).filter (!cutOff exclude src dest ·.1))

/-- Copies the file or the tree at `src` to `dest`, over the files that are there, and answers
how many files were copied. -/
def copy (exclude : Exclusion) (src dest : Path) : Action Failure Nat :=
  if exclude src dest then pure 0
  else do
    let entries ← Action.withError (Failure.copyFailure src dest) <|
      Action.look (entriesToCopy · exclude src dest)
    copyEntries src dest entries

end BundleMerge.Disk
