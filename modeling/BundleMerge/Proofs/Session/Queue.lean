import Mathlib.Data.List.Induction
import BundleMerge.Proofs.Debounce.History
import BundleMerge.Proofs.Merger.Failures
import BundleMerge.Session

/-! What becomes of the changes that a session is told of, whatever calls it gets and whatever
files it meets at each of them. Every change goes to one run, in the order of arrival, and the
queue is never left behind: the timer waits for it, unless the last attempt to run was refused
and nothing has been reported since. -/
namespace BundleMerge

namespace Session

/-- One call on a session. The files may be others at each call. -/
inductive Call where
  | notify (cwd : Path) (n : Notification) (now : Nat)
  | poll (now : Nat) (site : Site)
  | flush (now : Nat) (site : Site)

def step (s : Session) : Call → Session × Option Attempt
  | .notify cwd n now => (s.notify cwd n now, none)
  | .poll now site => ((s.poll now site).session, (s.poll now site).attempt)
  | .flush now site => ((s.flush now site).session, (s.flush now site).attempt)

/-- Between two calls no run is in flight, and a closed session has nothing to run for. -/
structure Settled (s : Session) : Prop where
  still : ¬ s.timer.state.IsRunning
  deaf : s.closed = true → s.queue = []

/-- A call with the attempt to run that it made, if it made one. -/
structure Event where
  call : Call
  attempt : Option Attempt

/-- What happens in a sequence of calls, earliest first. -/
def history (s : Session) : List Call → List Event
  | [] => []
  | call :: calls => ⟨call, (s.step call).2⟩ :: history (s.step call).1 calls

/-- The session after a sequence of calls. -/
def after (s : Session) (calls : List Call) : Session :=
  calls.foldl (fun s call => (s.step call).1) s

/-- The changes that a run took. -/
def Event.taken (e : Event) : List Path :=
  match e.attempt with
  | some (.took queue) => queue
  | _ => []

def Event.IsNotify (e : Event) : Prop := ∃ cwd n now, e.call = .notify cwd n now

/-- The change that a call reports, unless it is dropped. -/
def recorded (s : Session) : Call → List Path
  | .notify cwd n _ =>
    let p := s.collector.resolve cwd n
    if !s.closed && p.startsWith s.collector.output then [p] else []
  | .poll _ _ | .flush _ _ => []

/-- The moves of a session: by a call, with an attempt to run, to another session. -/
inductive Moves (s : Session) : Call → Option Attempt → Session → Prop where
  | deaf {call} : s.closed = true → Moves s call none s
  | hear {cwd n now} : s.closed = false →
      Moves s (.notify cwd n now) none
        { s with
          collector := { s.collector with queue := s.queue ++ recorded s (.notify cwd n now) }
          timer := (s.timer.arm now).2 }
  | wait {call} : (∀ cwd n now, call ≠ .notify cwd n now) → Moves s call none s
  | early {call deadline} : (∀ cwd n now, call ≠ .notify cwd n now) →
      Moves s call (some .early) { s with timer := { s.timer with state := .pending deadline } }
  | refuse {call cause} : (∀ cwd n now, call ≠ .notify cwd n now) → cause.isRecoverable = false →
      Moves s call (some (.refused cause)) { s with timer := { s.timer with state := .idle } }
  | take {call} : (∀ cwd n now, call ≠ .notify cwd n now) →
      Moves s call (some (.took s.queue))
        { s with
          collector := { s.collector with queue := [] }
          timer := { s.timer with state := .idle } }

theorem fire_moves (s : Session) (now : Nat) (site : Site) {call : Call}
    (other : ∀ cwd n now, call ≠ .notify cwd n now) :
    Moves s call (s.fire now site).attempt (s.fire now site).session := by
  obtain ⟨merger, collector, ⟨delay, state⟩, closed⟩ := s
  cases state with
  | idle | running rearm => exact .wait other
  | pending deadline =>
    simp only [fire, Debounce.begin, Debounce.finish]
    cases prepared : merger.prepare site.disk with
    | ok bridge => exact .take other
    | error cause =>
      cases recoverable : cause.isRecoverable with
      | true =>
        rw [Merger.prepare_recoverable prepared recoverable]
        exact .early other
      | false =>
        cases cause with
        | notBuiltYet entry => cases recoverable
        | _ => exact .refuse other recoverable

theorem step_moves (s : Session) (call : Call) : Moves s call (s.step call).2 (s.step call).1 := by
  cases call with
  | notify cwd n now =>
    cases closed : s.closed with
    | true => simpa only [step, notify, closed, if_true] using Moves.deaf closed
    | false =>
      have heard : (s.collector.record cwd n).2 =
          { s.collector with queue := s.queue ++ recorded s (.notify cwd n now) } := by
        simp only [Collector.record, recorded, closed, Bool.not_false, Bool.true_and]
        split <;> simp [queue]
      simpa only [step, notify, closed, Bool.false_eq_true, if_false, heard] using Moves.hear closed
  | poll now site =>
    simp only [step, poll]
    split
    · exact .wait nofun
    · exact fire_moves s now site nofun
  | flush now site =>
    simp only [step, flush]
    split
    · exact .wait nofun
    · exact fire_moves s now site nofun

/-- The queue that an attempt took is the one that its run merged. -/
theorem fire_took {s : Session} {now : Nat} {site : Site} {queue : List Path}
    (took : (s.fire now site).attempt = some (.took queue)) :
    queue = s.queue ∧ ∃ bridge, s.merger.prepare site.disk = .ok bridge ∧
      (s.fire now site).answer = ((s.merger.apply bridge queue).run site).1.map some ∧
      (s.fire now site).site = ((s.merger.apply bridge queue).run site).2 := by
  obtain ⟨merger, collector, ⟨delay, state⟩, closed⟩ := s
  cases state with
  | idle | running rearm => cases took
  | pending deadline =>
    simp only [fire, Debounce.begin, Debounce.finish] at took ⊢
    cases prepared : merger.prepare site.disk with
    | ok bridge =>
      simp only [prepared, Collector.drain, Option.some.injEq, Attempt.took.injEq] at took
      subst took
      exact ⟨rfl, bridge, rfl, rfl, rfl⟩
    | error cause => cases cause <;> simp [prepared] at took

namespace Moves

variable {s s' : Session} {call : Call} {attempt : Option Attempt}

theorem recorded_eq (move : Moves s call attempt s') : recorded s' = recorded s := by
  cases move <;> rfl

/-- A change goes into the queue, and out of it to a run. -/
theorem conserves (move : Moves s call attempt s') :
    Event.taken ⟨call, attempt⟩ ++ s'.queue = s.queue ++ recorded s call := by
  have silent : (∀ cwd n now, call ≠ .notify cwd n now) → recorded s call = [] := by
    intro other
    cases call with
    | notify cwd n now => exact absurd rfl (other cwd n now)
    | poll | flush => rfl
  cases move with
  | deaf closed => cases call <;> simp [Event.taken, recorded, closed]
  | hear => rfl
  | wait other | early other | refuse other =>
    rw [silent other, List.append_nil]
    rfl
  | take other =>
    rw [silent other]
    rfl

theorem settled (move : Moves s call attempt s') (calm : s.Settled) : s'.Settled := by
  obtain ⟨still, deaf⟩ := calm
  cases move with
  | deaf | wait => exact ⟨still, deaf⟩
  | hear listening =>
    refine ⟨?_, fun closed => by simp [listening] at closed⟩
    obtain ⟨deadline, pending⟩ := Debounce.arm_pending still
    rintro ⟨rearm, running⟩
    cases pending.symm.trans running
  | early => exact ⟨nofun, deaf⟩
  | refuse => exact ⟨nofun, deaf⟩
  | take => exact ⟨nofun, fun _ => rfl⟩

end Moves

theorem history_append (s : Session) (calls more : List Call) :
    history s (calls ++ more) = history s calls ++ history (after s calls) more := by
  induction calls generalizing s with
  | nil => rfl
  | cons call calls ih =>
    simp only [List.cons_append, history, ih]
    rfl

theorem after_append (s : Session) (calls : List Call) (call : Call) :
    after s (calls ++ [call]) = ((after s calls).step call).1 := by
  simp [after]

theorem conserved (s : Session) (calls : List Call) :
    (history s calls).flatMap Event.taken ++ (after s calls).queue =
      s.queue ++ calls.flatMap s.recorded := by
  induction calls generalizing s with
  | nil => simp [history, after]
  | cons call calls ih =>
    have move := step_moves s call
    calc (history s (call :: calls)).flatMap Event.taken ++ (after s (call :: calls)).queue
      _ = Event.taken ⟨call, (s.step call).2⟩ ++
          ((history (s.step call).1 calls).flatMap Event.taken ++
            (after (s.step call).1 calls).queue) := by
        simp only [history, List.flatMap_cons, List.append_assoc]
        rfl
      _ = Event.taken ⟨call, (s.step call).2⟩ ++ (s.step call).1.queue ++
          calls.flatMap s.recorded := by rw [ih, move.recorded_eq, List.append_assoc]
      _ = s.queue ++ (call :: calls).flatMap s.recorded := by
        rw [move.conserves, List.flatMap_cons, List.append_assoc]

theorem settled_after (m : Merger) (calls : List Call) : (after (ofMerger m) calls).Settled := by
  induction calls using List.reverseRecOn with
  | nil => exact ⟨nofun, fun _ => rfl⟩
  | append_singleton calls call ih =>
    rw [after_append]
    exact (step_moves _ call).settled ih

/-- The last attempt to run was refused for good, and nothing has been reported since. -/
def GaveUp (events : List Event) : Prop :=
  ∃ before e later cause, events = before ++ e :: later ∧ e.attempt = some (.refused cause) ∧
    cause.isRecoverable = false ∧ ∀ e' ∈ later, e'.attempt = none ∧ ¬ e'.IsNotify

theorem GaveUp.wait {events : List Event} {e : Event} (gaveUp : GaveUp events)
    (silent : e.attempt = none ∧ ¬ e.IsNotify) : GaveUp (events ++ [e]) := by
  obtain ⟨before, refusal, later, cause, rfl, refused, final, idle⟩ := gaveUp
  refine ⟨before, refusal, later ++ [e], cause, by simp, refused, final, ?_⟩
  intro e' member
  obtain member | member := List.mem_append.mp member
  · exact idle e' member
  · rwa [List.mem_singleton.mp member]

theorem never_stranded (m : Merger) (calls : List Call)
    (queued : (after (ofMerger m) calls).queue ≠ []) :
    (after (ofMerger m) calls).timer.state.IsPending ∨
      (after (ofMerger m) calls).timer.state = .idle ∧ GaveUp (history (ofMerger m) calls) := by
  induction calls using List.reverseRecOn with
  | nil => exact absurd rfl queued
  | append_singleton calls call ih =>
    have calm := settled_after m calls
    have move := step_moves (after (ofMerger m) calls) call
    rw [history_append]
    rw [after_append] at queued ⊢
    simp only [history]
    generalize ((after (ofMerger m) calls).step call).2 = attempt at move ⊢
    generalize ((after (ofMerger m) calls).step call).1 = s' at move queued ⊢
    cases move with
    | deaf closed => exact absurd (calm.deaf closed) queued
    | hear => exact .inl (Debounce.arm_pending calm.still)
    | wait other =>
      obtain pending | ⟨idle, gaveUp⟩ := ih queued
      · exact .inl pending
      · exact .inr ⟨idle, gaveUp.wait ⟨rfl, fun ⟨cwd, n, now, same⟩ => other cwd n now same⟩⟩
    | early => exact .inl ⟨_, rfl⟩
    | refuse _ final => exact .inr ⟨rfl, _, _, [], _, rfl, rfl, final, by simp⟩
    | take => exact absurd rfl queued

/-- Over any sequence of calls on a new session, what its runs took and what is still queued are
the recorded changes, each once and in the order of arrival; and a queue that is not empty waits
for the timer, unless the last attempt to run was refused and nothing has been reported since. -/
theorem queue_conserved (m : Merger) (calls : List Call) :
    let events := history (ofMerger m) calls
    let s := after (ofMerger m) calls
    events.flatMap Event.taken ++ s.queue = calls.flatMap (recorded (ofMerger m)) ∧
      (s.queue ≠ [] → s.timer.state.IsPending ∨ s.timer.state = .idle ∧ GaveUp events) :=
  ⟨conserved (ofMerger m) calls, never_stranded m calls⟩

end Session
end BundleMerge
