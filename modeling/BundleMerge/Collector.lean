import BundleMerge.Asset

/-! The queue of changes between two runs. What is reported where it is written stands for the
path in the output tree that is built from it; what leads out of the output tree is dropped. -/
namespace BundleMerge

structure Collector where
  input : Path
  output : Path
  queue : List Path := []
  deriving Repr, DecidableEq

namespace Collector

/-- The path that a notification stands for. Relative paths are seen from `cwd`. -/
def resolve (c : Collector) (cwd : Path) (n : Notification) : Path :=
  let file := (Path.absolute? cwd n.file).getD n.file
  if n.role.reportedAtSource then
    match file.relativeTo? c.input with
    | some rel => c.output.join rel
    | none => file
  else file

/-- Queues what a notification stands for, and answers the path if it was queued. -/
def record (c : Collector) (cwd : Path) (n : Notification) : Option Path × Collector :=
  let p := c.resolve cwd n
  if p.startsWith c.output then (some p, { c with queue := c.queue ++ [p] }) else (none, c)

def drain (c : Collector) : List Path × Collector :=
  (c.queue, { c with queue := [] })

end Collector
end BundleMerge
