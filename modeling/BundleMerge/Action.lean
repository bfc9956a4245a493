import BundleMerge.Disk.Basic
import BundleMerge.Json.Value

/-! Actions: what a merge does where it works. An action that fails keeps the changes it made
before it failed. -/
namespace BundleMerge

/-- A question to the manifest hook: the merged manifest, and the two it was made of. -/
structure Question where
  merged : Json
  primary : Json
  secondary : Json

/-- Where a merge works: its files, and what it has asked its hook so far. -/
structure Site where
  disk : Disk
  asked : List Question := []

abbrev Action (ε : Type) := ExceptT ε (StateM Site)

namespace Action

variable {ε α : Type}

/-- Runs an action: its answer, and the site it leaves. -/
def run (act : Action ε α) (s : Site) : Except ε α × Site :=
  StateT.run (ExceptT.run act) s

def look (f : Disk → Except ε α) : Action ε α := do
  let s ← get
  match f s.disk with
  | .error e => throw e
  | .ok a => pure a

/-- A change to the files that happens as a whole or not at all. -/
def change (f : Disk → Except ε Disk) : Action ε Unit := do
  let s ← get
  match f s.disk with
  | .error e => throw e
  | .ok d => set { s with disk := d }

def note (q : Question) : Action ε Unit :=
  modify fun s => { s with asked := s.asked ++ [q] }

def withError {δ : Type} (f : ε → δ) (act : Action ε α) : Action δ α :=
  ExceptT.adapt f act

end Action
end BundleMerge
