import Mathlib.Tactic.ByContra
import BundleMerge.Debounce

/-! Histories of a timer. What one call can do is said once, as a table of moves; from it follows
which states a sequence of calls keeps. The main result holds of every history in which only a run
in flight is finished: no two runs overlap, every change is met by a later run, a pending timer
waits from its latest start, and there are no more runs than reasons to run. -/
namespace BundleMerge.Debounce

namespace State

def IsRunning (s : State) : Prop := ∃ rearm, s = .running rearm

def IsPending (s : State) : Prop := ∃ deadline, s = .pending deadline

/-- A further run is to come. -/
def Awaits (s : State) : Prop := s.IsPending ∨ s = .running true

/-- How many runs are to come, apart from the one in flight. -/
def awaited : State → Nat
  | .idle | .running false => 0
  | .pending _ | .running true => 1

end State

/-- A call with the state that it met and what it answered. -/
structure Event where
  met : State
  call : Call
  reply : Reply
  deriving DecidableEq

/-- What happens in a sequence of calls, earliest first. -/
def history (d : Debounce) : List Call → List Event
  | [] => []
  | call :: calls => ⟨d.state, call, (d.step call).1⟩ :: history (d.step call).2 calls

namespace Event

/-- A run began. -/
def Begins (e : Event) : Prop := e.call = .begin ∧ e.reply = .began true

def Arms (e : Event) : Prop := ∃ now, e.call = .arm now

def Finishes (e : Event) : Prop := ∃ now retry, e.call = .finish now retry

def Retries (e : Event) : Prop := ∃ now, e.call = .finish now true

/-- When the timer was started: by a change while no run was in flight, or by the end of a run
that starts it again. -/
def start? (e : Event) : Option Nat :=
  match e.met, e.call, e.reply with
  | .running _, .arm _, _ => none
  | _, .arm now, _ => some now
  | _, .finish now _, .finished (some _) => some now
  | _, _, _ => none

instance (e : Event) : Decidable e.Begins := inferInstanceAs (Decidable (_ ∧ _))

instance : (e : Event) → Decidable e.Arms
  | ⟨_, .arm now, _⟩ => isTrue ⟨now, rfl⟩
  | ⟨_, .due _, _⟩ | ⟨_, .begin, _⟩ | ⟨_, .finish _ _, _⟩ => isFalse nofun

instance : (e : Event) → Decidable e.Retries
  | ⟨_, .finish now true, _⟩ => isTrue ⟨now, rfl⟩
  | ⟨_, .finish _ false, _⟩ | ⟨_, .due _, _⟩ | ⟨_, .begin, _⟩ | ⟨_, .arm _, _⟩ => isFalse nofun

end Event

/-- Only a run in flight is finished. -/
def Orderly (d : Debounce) (calls : List Call) : Prop :=
  ∀ e ∈ history d calls, e.Finishes → e.met.IsRunning

/-- The moves of a timer: from a state, by a call, with an answer, to a state. -/
inductive Moves (delay : Nat) : State → Call → Reply → State → Prop where
  | start {s now} : ¬ s.IsRunning →
      Moves delay s (.arm now) (.armed (.scheduled (now + delay))) (.pending (now + delay))
  | defer {rearm now} :
      Moves delay (.running rearm) (.arm now) (.armed .deferred) (.running true)
  | ask {s now yes} : Moves delay s (.due now) (.fired yes) s
  | begin {deadline} : Moves delay (.pending deadline) .begin (.began true) (.running false)
  | refuse {s} : ¬ s.IsPending → Moves delay s .begin (.began false) s
  | restart {s now retry} : s = .running true ∨ retry = true →
      Moves delay s (.finish now retry) (.finished (some (now + delay))) (.pending (now + delay))
  | rest {s now} : s ≠ .running true → Moves delay s (.finish now false) (.finished none) .idle

theorem step_moves (d : Debounce) (call : Call) :
    Moves d.delay d.state call (d.step call).1 (d.step call).2.state := by
  obtain ⟨delay, state⟩ := d
  cases call with
  | arm now =>
    cases state with
    | running rearm => exact .defer
    | idle | pending deadline => exact .start (by rintro ⟨_, h⟩; cases h)
  | due now => exact .ask
  | begin =>
    cases state with
    | pending deadline => exact .begin
    | idle | running rearm => exact .refuse (by rintro ⟨_, h⟩; cases h)
  | finish now retry =>
    by_cases again : state = .running true ∨ retry = true
    · simpa only [step, finish, again, if_true] using Moves.restart again
    · have quiet : retry = false := by simpa using mt Or.inr again
      have unmarked : state ≠ .running true := mt Or.inl again
      subst quiet
      simpa only [step, finish, again, if_false] using Moves.rest unmarked

theorem arm_pending {d : Debounce} {now : Nat} (idle : ¬ d.state.IsRunning) :
    (d.arm now).2.state.IsPending := by
  cases state : d.state with
  | running rearm => exact absurd ⟨rearm, state⟩ idle
  | idle | pending => exact ⟨now + d.delay, by simp [arm, state]⟩

theorem step_delay (d : Debounce) (call : Call) : (d.step call).2.delay = d.delay := by
  obtain ⟨delay, state⟩ := d
  cases call <;> simp only [step, arm, begin, finish] <;> split <;> rfl

theorem after_cons (d : Debounce) (call : Call) (calls : List Call) :
    after d (call :: calls) = after (d.step call).2 calls := rfl

theorem history_append (d : Debounce) (calls more : List Call) :
    history d (calls ++ more) = history d calls ++ history (after d calls) more := by
  induction calls generalizing d with
  | nil => rfl
  | cons call calls ih => simp only [List.cons_append, history, ih, after_cons]

/-- A place in a history is a place between calls. -/
theorem history_split {d : Debounce} {calls : List Call} {before later : List Event} {e : Event}
    (split : history d calls = before ++ e :: later) :
    ∃ cs call cs', calls = cs ++ call :: cs' ∧ history d cs = before ∧
      e = ⟨(after d cs).state, call, ((after d cs).step call).1⟩ ∧
      history ((after d cs).step call).2 cs' = later := by
  induction before generalizing d calls with
  | nil =>
    cases calls with
    | nil => cases split
    | cons call calls =>
      obtain ⟨same, rest⟩ := List.cons.inj split
      exact ⟨[], call, calls, rfl, rfl, same.symm, rest⟩
  | cons first before ih =>
    cases calls with
    | nil => cases split
    | cons call calls =>
      obtain ⟨same, rest⟩ := List.cons.inj split
      obtain ⟨cs, c, cs', rfl, met, event, tail⟩ := ih rest
      exact ⟨call :: cs, c, cs', rfl, by rw [history, met, same], event, tail⟩

theorem Orderly.cons {d : Debounce} {call : Call} {calls : List Call}
    (orderly : Orderly d (call :: calls)) :
    ((∃ now retry, call = .finish now retry) → d.state.IsRunning) ∧
      Orderly (d.step call).2 calls := by
  refine ⟨fun finishes => ?_, fun e member => ?_⟩
  · exact orderly _ (List.mem_cons_self ..) finishes
  · exact orderly e (List.mem_cons_of_mem _ member)

theorem Orderly.drop {d : Debounce} {first rest : List Call} (orderly : Orderly d (first ++ rest)) :
    Orderly (after d first) rest := by
  intro e member
  exact orderly e (history_append d first rest ▸ List.mem_append_right _ member)

namespace Moves

variable {delay deadline : Nat} {s s' : State} {call : Call} {reply : Reply}

theorem met_pending (move : Moves delay s call reply s') (begins : Event.Begins ⟨s, call, reply⟩) :
    s.IsPending ∧ s' = .running false := by
  obtain ⟨rfl, rfl⟩ := begins
  cases move
  exact ⟨⟨_, rfl⟩, rfl⟩

/-- Nothing but its end takes a timer out of a run. -/
theorem keeps_running (move : Moves delay s call reply s') (running : s.IsRunning)
    (unfinished : ¬ Event.Finishes ⟨s, call, reply⟩) : s'.IsRunning := by
  obtain ⟨rearm, rfl⟩ := running
  cases move with
  | start idle => exact absurd ⟨rearm, rfl⟩ idle
  | defer => exact ⟨true, rfl⟩
  | ask | refuse => exact ⟨rearm, rfl⟩
  | restart | rest => exact absurd ⟨_, _, rfl⟩ unfinished

theorem arm_awaits (move : Moves delay s call reply s') (arms : Event.Arms ⟨s, call, reply⟩) :
    s'.Awaits := by
  obtain ⟨now, rfl⟩ := arms
  cases move with
  | start => exact .inl ⟨_, rfl⟩
  | defer => exact .inr rfl

/-- Only the beginning of a run serves a change, as long as nothing but a run is finished. -/
theorem keeps_awaiting (move : Moves delay s call reply s') (awaits : s.Awaits)
    (orderly : Event.Finishes ⟨s, call, reply⟩ → s.IsRunning)
    (unserved : ¬ Event.Begins ⟨s, call, reply⟩) : s'.Awaits := by
  cases move with
  | start | restart => exact .inl ⟨_, rfl⟩
  | defer => exact .inr rfl
  | ask | refuse => exact awaits
  | begin => exact absurd ⟨rfl, rfl⟩ unserved
  | rest unmarked =>
    obtain ⟨rearm, rfl⟩ := orderly ⟨_, _, rfl⟩
    obtain ⟨_, pending⟩ | marked := awaits
    · cases pending
    · exact absurd marked unmarked

/-- Without a change or a retry a timer comes to await nothing. -/
theorem keeps_quiet (move : Moves delay s call reply s') (quiet : ¬ s.Awaits)
    (unarmed : ¬ Event.Arms ⟨s, call, reply⟩) (final : ¬ Event.Retries ⟨s, call, reply⟩) :
    ¬ s'.Awaits := by
  cases move with
  | start | defer => exact absurd ⟨_, rfl⟩ unarmed
  | ask | refuse => exact quiet
  | begin => exact absurd (.inl ⟨_, rfl⟩) quiet
  | restart again =>
    obtain marked | retry := again
    · exact absurd (.inr marked) quiet
    · exact absurd ⟨_, by rw [retry]⟩ final
  | rest => rintro (⟨_, h⟩ | h) <;> cases h

/-- A pending timer was started by this call, or was pending for the same time before. -/
theorem start_or_kept (move : Moves delay s call reply (.pending deadline)) :
    (∃ t, Event.start? ⟨s, call, reply⟩ = some t ∧ deadline = t + delay) ∨
      Event.start? ⟨s, call, reply⟩ = none ∧ s = .pending deadline := by
  cases move with
  | start idle =>
    refine .inl ⟨_, ?_, rfl⟩
    cases s with
    | running rearm => exact absurd ⟨rearm, rfl⟩ idle
    | idle | pending => rfl
  | ask => exact .inr ⟨rfl, rfl⟩
  | refuse waiting => exact absurd ⟨_, rfl⟩ waiting
  | restart => exact .inl ⟨_, by cases s <;> rfl, rfl⟩

/-- A run that begins uses up what was awaited, and only a change or a retry makes up for it. -/
theorem count_awaited (move : Moves delay s call reply s') :
    (if Event.Begins ⟨s, call, reply⟩ then 1 else 0) + s'.awaited ≤
      s.awaited + (if Event.Arms ⟨s, call, reply⟩ then 1 else 0) +
        (if Event.Retries ⟨s, call, reply⟩ then 1 else 0) := by
  cases move with
  | start | defer => simp [Event.Begins, Event.Arms, State.awaited]; omega
  | ask | refuse => simp [Event.Begins]; omega
  | begin => simp [Event.Begins, State.awaited]; omega
  | restart again =>
    obtain rfl | rfl := again
    · simp [Event.Begins, State.awaited]; omega
    · simp [Event.Begins, Event.Retries, State.awaited]
  | rest => simp [Event.Begins, State.awaited]

end Moves

/-! ### Whole histories -/

section
variable {d : Debounce} {calls : List Call}

theorem running_kept (running : d.state.IsRunning)
    (unfinished : ∀ e ∈ history d calls, ¬ e.Finishes) : (after d calls).state.IsRunning := by
  induction calls generalizing d with
  | nil => exact running
  | cons call calls ih =>
    obtain ⟨first, rest⟩ := List.forall_mem_cons.mp unfinished
    exact ih ((step_moves d call).keeps_running running first) rest

theorem awaiting_kept (orderly : Orderly d calls) (awaits : d.state.Awaits)
    (unserved : ∀ e ∈ history d calls, ¬ e.Begins) : (after d calls).state.Awaits := by
  induction calls generalizing d with
  | nil => exact awaits
  | cons call calls ih =>
    obtain ⟨first, rest⟩ := List.forall_mem_cons.mp unserved
    obtain ⟨running, orderly⟩ := orderly.cons
    exact ih orderly ((step_moves d call).keeps_awaiting awaits running first) rest

theorem quiet_kept (quiet : ¬ d.state.Awaits)
    (idle : ∀ e ∈ history d calls, ¬ e.Arms ∧ ¬ e.Retries) : ¬ (after d calls).state.Awaits := by
  induction calls generalizing d with
  | nil => exact quiet
  | cons call calls ih =>
    obtain ⟨⟨unarmed, final⟩, rest⟩ := List.forall_mem_cons.mp idle
    exact ih ((step_moves d call).keeps_quiet quiet unarmed final) rest

theorem pending_from_start {deadline : Nat} (pending : (after d calls).state = .pending deadline) :
    (∃ before e later t, history d calls = before ++ e :: later ∧ e.start? = some t ∧
      (∀ e' ∈ later, e'.start? = none) ∧ deadline = t + d.delay) ∨
    (∀ e ∈ history d calls, e.start? = none) ∧ d.state = .pending deadline := by
  induction calls generalizing d with
  | nil => exact .inr ⟨by simp [history], pending⟩
  | cons call calls ih =>
    obtain ⟨before, e, later, t, split, start, last, wait⟩ | ⟨unstarted, pending⟩ := ih pending
    · refine .inl ⟨_ :: before, e, later, t, by rw [history, split]; rfl, start, last, ?_⟩
      rw [wait, step_delay]
    · have move := step_moves d call
      rw [pending] at move
      obtain ⟨t, start, wait⟩ | ⟨unstarted', kept⟩ := move.start_or_kept
      · exact .inl ⟨[], _, _, t, rfl, start, unstarted, wait⟩
      · exact .inr ⟨List.forall_mem_cons.mpr ⟨unstarted', unstarted⟩, kept⟩

theorem count_begins_le :
    (history d calls).countP (·.Begins) + (after d calls).state.awaited ≤
      d.state.awaited + (history d calls).countP (·.Arms) +
        (history d calls).countP (·.Retries) := by
  induction calls generalizing d with
  | nil => simp [history, after]
  | cons call calls ih =>
    have first := (step_moves d call).count_awaited
    have rest := @ih (d.step call).2
    simp only [history, List.countP_cons, after_cons, decide_eq_true_eq]
    omega

/-- From a run in flight to the next run: the first one is finished, and something asks for the
second one. -/
theorem between_begins {before between later : List Event} {first second : Event}
    (split : history d calls = before ++ first :: between ++ second :: later)
    (begins : first.Begins) (again : second.Begins) :
    (∃ e ∈ between, e.Finishes) ∧ ∃ e ∈ between, e.Arms ∨ e.Retries := by
  rw [List.append_assoc, List.cons_append] at split
  obtain ⟨cs, call, rest, -, -, rfl, tail⟩ := history_split split
  obtain ⟨cs', call', -, -, rfl, rfl, -⟩ := history_split tail
  obtain ⟨-, started⟩ := (step_moves _ call).met_pending begins
  obtain ⟨met, -⟩ := (step_moves _ call').met_pending again
  constructor
  · by_contra unfinished
    obtain ⟨rearm, running⟩ := running_kept ⟨false, started⟩
      fun e member finishes => unfinished ⟨e, member, finishes⟩
    obtain ⟨deadline, pending⟩ := met
    cases running.symm.trans pending
  · by_contra idle
    have quiet : ¬ ((after d cs).step call).2.state.Awaits := by
      rw [started]
      rintro (⟨_, h⟩ | h) <;> cases h
    exact quiet_kept quiet
      (fun e member => ⟨fun h => idle ⟨e, member, .inl h⟩, fun h => idle ⟨e, member, .inr h⟩⟩)
      (.inl met)

theorem awaits_of_arm {before later : List Event} {e : Event} (orderly : Orderly d calls)
    (split : history d calls = before ++ e :: later) (arms : e.Arms)
    (unserved : ∀ e' ∈ later, ¬ e'.Begins) : (after d calls).state.Awaits := by
  obtain ⟨cs, call, rest, rfl, -, rfl, rfl⟩ := history_split split
  have armed := (step_moves _ call).arm_awaits arms
  have kept := awaiting_kept orderly.drop.cons.2 armed unserved
  simpa only [after, List.foldl_append, List.foldl_cons] using kept

theorem due_eq_false (running : d.state.IsRunning) (now : Nat) : d.due now = false := by
  obtain ⟨rearm, state⟩ := running
  simp [due, deadline?, state]

end

/-- In every orderly history of a new timer: a run ends before the next one begins, nothing is due
meanwhile, and something asks for the next one; a change that no run has begun after is still
awaited; a pending timer waits from its latest start; and runs are no more than changes and
retries together. -/
theorem orderly_history (delay : Nat) (calls : List Call) (orderly : Orderly { delay } calls) :
    let events := history { delay } calls
    let timer := after { delay } calls
    (∀ before first between second later,
      events = before ++ first :: between ++ second :: later → first.Begins → second.Begins →
      (∃ e ∈ between, e.Finishes) ∧ ∃ e ∈ between, e.Arms ∨ e.Retries) ∧
    (timer.state.IsRunning → ∀ now, timer.due now = false) ∧
    (∀ before e later, events = before ++ e :: later → e.Arms → (∀ e' ∈ later, ¬ e'.Begins) →
      timer.state.Awaits) ∧
    (∀ deadline, timer.state = .pending deadline →
      ∃ before e later t, events = before ++ e :: later ∧ e.start? = some t ∧
        (∀ e' ∈ later, e'.start? = none) ∧ deadline = t + delay) ∧
    events.countP (·.Begins) ≤ events.countP (·.Arms) + events.countP (·.Retries) := by
  refine ⟨fun _ _ _ _ _ => between_begins, due_eq_false, fun _ _ _ => awaits_of_arm orderly,
    fun deadline pending => ?_, ?_⟩
  · obtain started | ⟨-, idle⟩ := pending_from_start pending
    · exact started
    · cases idle
  · have counted := @count_begins_le { delay } calls
    simp only [State.awaited] at counted
    omega

/-- A change reaches a run in flight, which starts the timer again when it ends. -/
theorem orderly_history_deferred :
    let calls : List Call := [.arm 0, .begin, .arm 510, .due 5000, .finish 700 false]
    Orderly { delay := 500 } calls ∧
      (after { delay := 500 } calls).state = .pending 1200 ∧
      ∃ before e later t, history { delay := 500 } calls = before ++ e :: later ∧
        e.start? = some t ∧ (∀ e' ∈ later, e'.start? = none) ∧ 1200 = t + 500 := by
  have orderly : Orderly { delay := 500 }
      [.arm 0, .begin, .arm 510, .due 5000, .finish 700 false] := by
    simp [Orderly, history, step, arm, begin, due, finish, Event.Finishes, State.IsRunning]
  exact ⟨orderly, rfl, (orderly_history 500 _ orderly).2.2.2.1 1200 rfl⟩

end BundleMerge.Debounce
