import BundleMerge.Collector
import BundleMerge.Debounce
import BundleMerge.Merger

/-! A session: changes are queued, and after a quiet period a run merges them. If the primary
program is not built yet, the queue is kept and the timer starts again; if the run cannot be
prepared for another reason, the queue is kept until the next change; otherwise the run takes the
queue, whether it succeeds or not. -/
namespace BundleMerge

structure Session where
  merger : Merger
  collector : Collector
  timer : Debounce
  /-- Nothing is queued and nothing runs. -/
  closed : Bool

namespace Session

def ofMerger (m : Merger) : Session where
  merger := m
  collector := { input := m.config.input, output := m.config.output }
  timer := { delay := m.config.debounceMs }
  closed := m.config.isClose

def ofOptions (o : Options) : Session :=
  ofMerger (.ofOptions o)

def queue (s : Session) : List Path := s.collector.queue

def notify (s : Session) (cwd : Path) (n : Notification) (now : Nat) : Session :=
  if s.closed then s
  else { s with collector := (s.collector.record cwd n).2, timer := (s.timer.arm now).2 }

/-- How far an attempt to run gets. -/
inductive Attempt where
  /-- The primary program is not built yet. -/
  | early
  | refused (cause : Failure)
  /-- The run takes this queue. -/
  | took (queue : List Path)
  deriving Repr, DecidableEq

/-- What comes of a call that may run a merge: the answer, what is left behind, and the attempt
to run, if the call made one. -/
structure Outcome where
  answer : Except Failure (Option Report)
  session : Session
  site : Site
  attempt : Option Attempt

/-- Attempts a run, if the timer is pending. -/
def fire (s : Session) (now : Nat) (site : Site) : Outcome :=
  match s.timer.begin with
  | (false, _) => ⟨.ok none, s, site, none⟩
  | (true, timer) =>
    let finished (retry : Bool) : Debounce := (timer.finish now retry).2
    match s.merger.prepare site.disk with
    | .error (.notBuiltYet _) => ⟨.ok none, { s with timer := finished true }, site, some .early⟩
    | .error e => ⟨.error e, { s with timer := finished false }, site, some (.refused e)⟩
    | .ok bridge =>
      let (queue, collector) := s.collector.drain
      let (answer, site) := (s.merger.apply bridge queue).run site
      ⟨answer.map some, { s with collector, timer := finished false }, site, some (.took queue)⟩

def poll (s : Session) (now : Nat) (site : Site) : Outcome :=
  if s.closed || !s.timer.due now then ⟨.ok none, s, site, none⟩ else s.fire now site

/-- Attempts a run if the timer is pending, due or not. -/
def flush (s : Session) (now : Nat) (site : Site) : Outcome :=
  if s.closed || s.timer.deadline?.isNone then ⟨.ok none, s, site, none⟩ else s.fire now site

end Session
end BundleMerge
