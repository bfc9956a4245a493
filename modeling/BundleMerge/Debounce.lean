/-! A single-slot timer that waits for a quiet period and guards a run in flight. Time is a
parameter of every call, in milliseconds, so a history of calls determines the state. A change
that arrives while a run is in flight does not start the timer: it marks the run, and the timer
starts when the run finishes. -/
namespace BundleMerge

namespace Debounce

inductive State where
  | idle
  | pending (deadline : Nat)
  | running (rearm : Bool)
  deriving Repr, DecidableEq

/-- Whether arming started the timer or was left to the end of the run in flight. -/
inductive Armed where
  | scheduled (deadline : Nat)
  | deferred
  deriving Repr, DecidableEq

end Debounce

structure Debounce where
  delay : Nat
  state : Debounce.State := .idle
  deriving Repr, DecidableEq

namespace Debounce

def arm (d : Debounce) (now : Nat) : Armed × Debounce :=
  match d.state with
  | .running _ => (.deferred, { d with state := .running true })
  | _ => (.scheduled (now + d.delay), { d with state := .pending (now + d.delay) })

def deadline? (d : Debounce) : Option Nat :=
  match d.state with
  | .pending deadline => some deadline
  | _ => none

def due (d : Debounce) (now : Nat) : Bool :=
  d.deadline?.any (· ≤ now)

/-- A run begins only from a pending timer; in any other state nothing changes. -/
def begin (d : Debounce) : Bool × Debounce :=
  match d.state with
  | .pending _ => (true, { d with state := .running false })
  | _ => (false, d)

/-- The run ends. The timer starts again if a change arrived meanwhile or a retry is asked for. -/
def finish (d : Debounce) (now : Nat) (retry : Bool) : Option Nat × Debounce :=
  if d.state = .running true ∨ retry then
    (some (now + d.delay), { d with state := .pending (now + d.delay) })
  else
    (none, { d with state := .idle })

inductive Call where
  | arm (now : Nat)
  | due (now : Nat)
  | begin
  | finish (now : Nat) (retry : Bool)
  deriving Repr, DecidableEq

inductive Reply where
  | armed (how : Armed)
  | fired (yes : Bool)
  | began (yes : Bool)
  | finished (rearmed : Option Nat)
  deriving Repr, DecidableEq

def step (d : Debounce) : Call → Reply × Debounce
  | .arm now => let (how, d') := d.arm now; (.armed how, d')
  | .due now => (.fired (d.due now), d)
  | .begin => let (yes, d') := d.begin; (.began yes, d')
  | .finish now retry => let (rearmed, d') := d.finish now retry; (.finished rearmed, d')

/-- The timer after a history of calls, earliest first. -/
def after (d : Debounce) (calls : List Call) : Debounce :=
  calls.foldl (fun d call => (d.step call).2) d

end Debounce
end BundleMerge
