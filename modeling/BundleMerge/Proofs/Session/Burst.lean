import BundleMerge.Proofs.Session.Attempt

/-! When a session runs. What has happened tells whether there is something to run for, and since
when: the timer waits from the last change, or from the last attempt that came too early, unless
there was an attempt after it. So a burst of changes is merged at once, after the last of them. -/
namespace BundleMerge.Session

variable {s s' : Session} {call : Call} {calls : List Call} {attempt : Option Attempt}
  {events : List Event} {e : Event} {t now delay : Nat} {last : Option Nat} {site : Site}
  {o : Outcome}

/-- When the timer was started by what happened: by a change, or by an attempt that came before
the primary program was built. -/
def Event.arms? (e : Event) : Option Nat :=
  match e.call, e.attempt with
  | .notify _ _ now, _ | .poll now _, some .early | .flush now _, some .early => some now
  | _, _ => none

/-- The timer was last started at `t`, and nothing has been attempted since. -/
def Unserved (events : List Event) (t : Nat) : Prop :=
  ∃ before e later, events = before ++ e :: later ∧ e.arms? = some t ∧
    ∀ e' ∈ later, e'.arms? = none ∧ e'.attempt = none

theorem not_unserved_nil : ¬ Unserved [] t := by
  rintro ⟨before, e, later, none, -⟩
  simp at none

theorem unserved_append : Unserved (events ++ [e]) t ↔
    e.arms? = some t ∨ (e.arms? = none ∧ e.attempt = none) ∧ Unserved events t := by
  constructor
  · rintro ⟨before, first, later, split, arms, quiet⟩
    -- The new event is the one that started the timer, or it is the last of those after it.
    obtain rfl | ⟨front, other, rfl⟩ := later.eq_nil_or_concat'
    · obtain ⟨-, same⟩ := List.append_inj' split rfl
      obtain rfl : e = first := by simpa using same
      exact .inl arms
    · rw [← List.cons_append, ← List.append_assoc] at split
      obtain ⟨rfl, same⟩ := List.append_inj' split rfl
      obtain rfl : e = other := by simpa using same
      refine .inr ⟨quiet e (by simp), before, first, front, rfl, arms, fun e' member => ?_⟩
      exact quiet e' (List.mem_append_left _ member)
  · rintro (arms | ⟨silent, before, first, later, rfl, arms, quiet⟩)
    · exact ⟨events, e, [], rfl, arms, by simp⟩
    · refine ⟨before, first, later ++ [e], by simp, arms, fun e' member => ?_⟩
      rcases List.mem_append.mp member with earlier | here
      · exact quiet e' earlier
      · rwa [List.mem_singleton.mp here]

/-! ### One call -/

/-- The state in which an event leaves the timer. -/
def Event.leaves (e : Event) (delay : Nat) (state : Debounce.State) : Debounce.State :=
  match e.arms? with
  | some t => .pending (t + delay)
  | none => if e.attempt.isSome then .idle else state

theorem Moves.same_timing (move : Moves s call attempt s') :
    s'.closed = s.closed ∧ s'.timer.delay = s.timer.delay := by
  cases move with
  | @hear cwd n now => exact ⟨rfl, Debounce.step_delay s.timer (.arm now)⟩
  | _ => exact ⟨rfl, rfl⟩

/-- The events of a call that starts the timer exactly if it comes too early. -/
theorem called_leaves (called : o = s.poll now site ∨ o = s.flush now site)
    (timed : ∀ attempt, Event.arms? ⟨call, attempt⟩ =
      if attempt = some .early then some now else none) :
    o.session.timer.state = Event.leaves ⟨call, o.attempt⟩ s.timer.delay s.timer.state := by
  rw [Event.leaves, timed]
  rcases attempts_or_waits called with tried | waits
  · obtain ⟨-, pending, rfl⟩ := attempts_fires tried
    rw [fire_pending pending]
    cases s.merger.prepare site.disk with
    | ok bridge => rfl
    | error cause => cases cause <;> rfl
  · rw [waits]
    rfl

/-- While no run is in flight, a call does to the timer of an open session what its event says. -/
theorem step_leaves (still : ¬ s.timer.state.IsRunning) (listening : s.closed = false)
    (call : Call) : (s.step call).1.timer.state =
      Event.leaves ⟨call, (s.step call).2⟩ s.timer.delay s.timer.state := by
  cases call with
  | notify cwd n now =>
    have calm : s.Settled := ⟨still, fun closed => by simp [listening] at closed⟩
    exact notify_pending calm listening cwd n now
  | poll now site =>
    refine called_leaves (.inl rfl) fun attempt => ?_
    rcases attempt with _ | _ | _ | _ <;> rfl
  | flush now site =>
    refine called_leaves (.inr rfl) fun attempt => ?_
    rcases attempt with _ | _ | _ | _ <;> rfl

theorem fire_attempts (pending : s.timer.state.IsPending) : (s.fire now site).attempt.isSome := by
  rw [fire_pending pending]
  split <;> rfl

theorem poll_attempts (listening : s.closed = false) : (s.poll now site).attempt.isSome ↔
    ∃ deadline, s.timer.state = .pending deadline ∧ deadline ≤ now := by
  unfold poll Debounce.due Debounce.deadline?
  cases state : s.timer.state with
  | pending deadline =>
    by_cases due : deadline ≤ now
    · simp [listening, due, fire_attempts ⟨deadline, state⟩]
    · simp [listening, due]
  | _ => simp [listening]

theorem flush_attempts (listening : s.closed = false) : (s.flush now site).attempt.isSome ↔
    s.timer.state.IsPending := by
  unfold flush Debounce.deadline?
  cases state : s.timer.state with
  | pending deadline =>
    simp [listening, fire_attempts ⟨deadline, state⟩, Debounce.State.IsPending]
  | _ => simp [listening, Debounce.State.IsPending]

/-! ### Any number of calls -/

/-- The session is open, and its timer is what its events have made of it: pending if something
is unserved, and idle otherwise. -/
structure Tracks (delay : Nat) (events : List Event) (s : Session) : Prop where
  listening : s.closed = false
  same : s.timer.delay = delay
  rests : s.timer.state = .idle ∨ s.timer.state.IsPending
  pending : ∀ deadline, s.timer.state = .pending deadline ↔
    ∃ t, Unserved events t ∧ deadline = t + delay

namespace Tracks

theorem still (tracks : Tracks delay events s) : ¬ s.timer.state.IsRunning := by
  rintro ⟨rearm, running⟩
  rcases tracks.rests with idle | ⟨deadline, pending⟩
  · rw [idle] at running
    cases running
  · rw [pending] at running
    cases running

theorem step (tracks : Tracks delay events s) (call : Call) :
    Tracks delay (events ++ [⟨call, (s.step call).2⟩]) (s.step call).1 := by
  obtain ⟨closed, timing⟩ := (step_moves s call).same_timing
  have left := step_leaves tracks.still tracks.listening call
  rw [tracks.same] at left timing
  generalize (s.step call).2 = attempt at left
  unfold Event.leaves at left
  constructor
  · exact closed.trans tracks.listening
  · exact timing
  · rw [left]
    split
    · exact .inr ⟨_, rfl⟩
    · split
      · exact .inl rfl
      · exact tracks.rests
  · intro deadline
    simp only [left, unserved_append]
    split
    · next t arms => simp [arms, eq_comm]
    · next silent =>
      cases attempt with
      | none => simp [silent, tracks.pending]
      | some attempt => simp [silent]

theorem after (tracks : Tracks delay [] s) (calls : List Call) :
    Tracks delay (history s calls) (after s calls) := by
  induction calls using List.reverseRecOn with
  | nil => exact tracks
  | append_singleton calls call ih =>
    rw [history_append, after_append]
    exact ih.step call

/-- No change is left to the end of a run. -/
theorem arm (tracks : Tracks delay events s) (now : Nat) :
    (s.timer.arm now).1 = .scheduled (now + delay) := by
  unfold Debounce.arm
  split
  · next running => exact absurd ⟨_, running⟩ tracks.still
  · rw [tracks.same]

theorem poll_iff (tracks : Tracks delay events s) (now : Nat) (site : Site) :
    (s.poll now site).attempt.isSome ↔ ∃ t, Unserved events t ∧ t + delay ≤ now := by
  rw [poll_attempts tracks.listening]
  constructor
  · rintro ⟨deadline, pending, due⟩
    obtain ⟨t, unserved, rfl⟩ := (tracks.pending deadline).mp pending
    exact ⟨t, unserved, due⟩
  · rintro ⟨t, unserved, due⟩
    exact ⟨t + delay, (tracks.pending _).mpr ⟨t, unserved, rfl⟩, due⟩

theorem flush_iff (tracks : Tracks delay events s) (now : Nat) (site : Site) :
    (s.flush now site).attempt.isSome ↔ ∃ t, Unserved events t := by
  rw [flush_attempts tracks.listening]
  constructor
  · rintro ⟨deadline, pending⟩
    obtain ⟨t, unserved, -⟩ := (tracks.pending deadline).mp pending
    exact ⟨t, unserved⟩
  · rintro ⟨t, unserved⟩
    exact ⟨t + delay, (tracks.pending _).mpr ⟨t, unserved, rfl⟩⟩

end Tracks

theorem tracks_of_idle (idle : s.timer.state = .idle) (listening : s.closed = false) :
    Tracks s.timer.delay [] s := by
  refine ⟨listening, rfl, .inl idle, fun deadline => ?_⟩
  constructor
  · intro pending
    rw [idle] at pending
    cases pending
  · rintro ⟨t, unserved, -⟩
    exact absurd unserved not_unserved_nil

/-! ### Bursts -/

/-- Changes in a row, the last of them at `last`. Polls in between come before the deadline that
is then pending. -/
inductive Burst (delay : Nat) : List Call → Option Nat → Prop where
  | start : Burst delay [] none
  | notify {calls : List Call} {last : Option Nat} (cwd : Path) (n : Notification) (now : Nat) :
      Burst delay calls last → Burst delay (calls ++ [.notify cwd n now]) (some now)
  | poll {calls : List Call} {last : Option Nat} (now : Nat) (site : Site) :
      Burst delay calls last → (∀ t ∈ last, now < t + delay) → Burst delay (calls ++ [.poll now site]) last

/-- A burst is not answered by any attempt, and what is unserved after it is its last change. -/
theorem Burst.unanswered (tracks : Tracks delay [] s) (burst : Burst delay calls last) :
    (∀ e ∈ history s calls, e.attempt = none) ∧
      ∀ t, Unserved (history s calls) t ↔ last = some t := by
  induction burst with
  | start => simp [history, not_unserved_nil]
  | notify cwd n now _ ih =>
    obtain ⟨silent, -⟩ := ih
    rw [history_append]
    constructor
    · intro e member
      rcases List.mem_append.mp member with earlier | here
      · exact silent e earlier
      · rw [List.mem_singleton.mp here]
        rfl
    · intro t
      rw [history, history, unserved_append]
      simp [Event.arms?]
  | @poll calls last now site _ before ih =>
    obtain ⟨silent, latest⟩ := ih
    -- Only the last change is unserved, and the poll comes before its deadline.
    have waits : ((Session.after s calls).step (.poll now site)).2 = none := by
      rw [← Option.not_isSome_iff_eq_none]
      intro tried
      obtain ⟨t, unserved, due⟩ := ((tracks.after calls).poll_iff now site).mp tried
      have early := before t ((latest t).mp unserved)
      omega
    rw [history_append, history, history, waits]
    constructor
    · intro e member
      rcases List.mem_append.mp member with earlier | here
      · exact silent e earlier
      · rw [List.mem_singleton.mp here]
    · intro t
      rw [unserved_append, ← latest]
      simp [Event.arms?]

/-- While nothing is attempted, all changes stay in the queue. -/
theorem queue_of_unanswered (silent : ∀ e ∈ history s calls, e.attempt = none) :
    (after s calls).queue = s.queue ++ calls.flatMap s.recorded := by
  have all := conserved s calls
  have nothing : (history s calls).flatMap Event.taken = [] := by
    rw [List.flatMap_eq_nil_iff]
    intro e member
    rw [Event.taken, silent e member]
  rwa [nothing, List.nil_append] at all

theorem Moves.took_queue {queue : List Path} (move : Moves s call (some (.took queue)) s') :
    queue = s.queue := by
  cases move
  rfl

/-- A closed session makes no move. -/
theorem step_closed (deaf : s.closed = true) (call : Call) : s.step call = (s, none) := by
  cases call <;> simp [step, notify, poll, flush, deaf]

theorem after_closed (deaf : s.closed = true) (calls : List Call) :
    after s calls = s ∧ ∀ e ∈ history s calls, e.attempt = none := by
  induction calls with
  | nil => exact ⟨rfl, nofun⟩
  | cons call calls ih =>
    have still := step_closed deaf call
    obtain ⟨same, silent⟩ := ih
    refine ⟨?_, fun e member => ?_⟩
    · rw [after, List.foldl_cons, still, ← after, same]
    · rw [history, still] at member
      rcases List.mem_cons.mp member with rfl | later
      · rfl
      · exact silent e later

/-- However an open session is called, its timer is idle or pending between two calls, and a poll
or a flush attempts a run exactly if something is unserved, the poll not before its deadline. So a
burst is answered by one attempt, at the first poll from its last deadline on, and by then all of
it is in the queue. A closed session is left as it is, and so are its files. -/
theorem burst_coalesced (s : Session) :
    (s.closed = false → s.timer.state = .idle →
      (∀ calls,
        let s' := after s calls
        let events := history s calls
        (s'.timer.state = .idle ∨ s'.timer.state.IsPending) ∧
        (∀ now, (s'.timer.arm now).1 = .scheduled (now + s.timer.delay)) ∧
        ∀ now site,
          ((s'.poll now site).attempt.isSome ↔
            ∃ t, Unserved events t ∧ t + s.timer.delay ≤ now) ∧
          ((s'.flush now site).attempt.isSome ↔ ∃ t, Unserved events t)) ∧
      ∀ calls last, Burst s.timer.delay calls (some last) →
        (∀ e ∈ history s calls, e.attempt = none) ∧
        (after s calls).queue = s.queue ++ calls.flatMap s.recorded ∧
        ∀ now site, last + s.timer.delay ≤ now →
          ∃ attempt, ((after s calls).poll now site).attempt = some attempt ∧
            ∀ queue, attempt = .took queue → queue = s.queue ++ calls.flatMap s.recorded) ∧
    (s.closed = true →
      (∀ calls, after s calls = s ∧ ∀ e ∈ history s calls, e.attempt = none) ∧
      ∀ now site, s.poll now site = ⟨.ok none, s, site, none⟩ ∧
        s.flush now site = ⟨.ok none, s, site, none⟩) := by
  constructor
  · intro listening idle
    have tracks : Tracks s.timer.delay [] s := tracks_of_idle idle listening
    refine ⟨fun calls => ?_, fun calls last burst => ?_⟩
    · have later := tracks.after calls
      exact ⟨later.rests, later.arm,
        fun now site => ⟨later.poll_iff now site, later.flush_iff now site⟩⟩
    · obtain ⟨silent, latest⟩ := burst.unanswered tracks
      have queued := queue_of_unanswered silent
      refine ⟨silent, queued, fun now site due => ?_⟩
      have tried := ((tracks.after calls).poll_iff now site).mpr ⟨last, (latest last).mpr rfl, due⟩
      obtain ⟨attempt, tried⟩ := Option.isSome_iff_exists.mp tried
      refine ⟨attempt, tried, ?_⟩
      rintro queue rfl
      have move := step_moves (after s calls) (.poll now site)
      simp only [step, tried] at move
      exact move.took_queue.trans queued
  · intro deaf
    refine ⟨after_closed deaf, fun now site => ?_⟩
    simp [poll, flush, deaf]

/-- Three changes and two polls that come too soon, answered by one run of all three; and a closed
session that gets the same calls. -/
theorem burst_coalesced_three :
    let change (text : String) (now : Nat) : Call := .notify ⟨"/"⟩ ⟨⟨text⟩, .misc⟩ now
    let built := siteOf [(["dist"], .dir), (["dist", "app.js"], .file ⟨#[49]⟩)]
    let calls := [change "/dist/a.js" 0, change "/dist/b.js" 300, .poll 799 built,
      change "/dist/c.js" 799, .poll 1298 built]
    let s := ofMerger plainMerger
    let closed := { s with closed := true }
    (∀ e ∈ history s calls, e.attempt = none) ∧
      ((after s calls).poll 1299 built).attempt =
        some (.took [⟨"/dist/a.js"⟩, ⟨"/dist/b.js"⟩, ⟨"/dist/c.js"⟩]) ∧
      after closed calls = closed := by
  intro change built calls s closed
  have two : Burst 500 [change "/dist/a.js" 0, change "/dist/b.js" 300] (some 300) :=
    (Burst.start.notify _ _ 0).notify _ _ 300
  have burst : Burst 500 calls (some 799) :=
    ((two.poll 799 built (by simp)).notify _ _ 799).poll 1298 built (by simp)
  obtain ⟨silent, -, answers⟩ := ((burst_coalesced s).1 rfl rfl).2 calls 799 burst
  obtain ⟨attempt, tried, took⟩ := answers 1299 built (by decide)
  have runs : Event.taken ⟨.poll 1299 built, ((after s calls).poll 1299 built).attempt⟩ ≠ [] := by
    decide +kernel
  refine ⟨silent, ?_, (((burst_coalesced closed).2 rfl).1 calls).1⟩
  rw [tried] at runs ⊢
  cases attempt with
  | early | refused cause => exact absurd rfl runs
  | took queue =>
    rw [took queue rfl]
    decide +kernel

end BundleMerge.Session
