import BundleMerge.Proofs.Session.Queue

/-! What an attempt to run a merge leaves behind. If it comes too early or cannot be prepared, the
queue is as before and nothing has happened to the files; the session can try again. -/
namespace BundleMerge.Session

variable {m : Merger} {s s' : Session} {calls : List Call} {call : Call} {attempt : Option Attempt}
  {now : Nat} {site : Site} {o : Outcome}

/-- What a session is made with, and no call changes. -/
structure Configured (m : Merger) (s : Session) : Prop where
  merger : s.merger = m
  closed : s.closed = m.config.isClose
  delay : s.timer.delay = m.config.debounceMs

theorem Moves.configured (move : Moves s call attempt s') (given : Configured m s) :
    Configured m s' := by
  obtain ⟨merger, closed, delay⟩ := given
  cases move with
  | @hear cwd n now => exact ⟨merger, closed, (Debounce.step_delay s.timer (.arm now)).trans delay⟩
  | _ => exact ⟨merger, closed, delay⟩

theorem configured_after (m : Merger) (calls : List Call) :
    Configured m (after (ofMerger m) calls) := by
  induction calls using List.reverseRecOn with
  | nil => exact ⟨rfl, rfl, rfl⟩
  | append_singleton calls call ih =>
    rw [after_append]
    exact (step_moves _ call).configured ih

/-- The session with its timer in another state. -/
def withState (s : Session) (state : Debounce.State) : Session :=
  { s with timer := { s.timer with state } }

/-- The session after a run has taken its queue. -/
def emptied (s : Session) : Session :=
  { s with collector := { s.collector with queue := [] } }

/-- The calls on an open session that attempt a run: a poll that is due, and a flush while the
timer is pending. -/
inductive Attempts (s : Session) (now : Nat) (site : Site) : Outcome → Prop where
  | poll (listening : s.closed = false) (due : s.timer.due now = true) :
      Attempts s now site (s.poll now site)
  | flush (listening : s.closed = false) (pending : s.timer.state.IsPending) :
      Attempts s now site (s.flush now site)

theorem Attempts.called (tried : s.Attempts now site o) :
    o = s.poll now site ∨ o = s.flush now site := by
  cases tried with
  | poll => exact .inl rfl
  | flush => exact .inr rfl

theorem fire_pending (pending : s.timer.state.IsPending) (now : Nat) (site : Site) :
    s.fire now site = match s.merger.prepare site.disk with
      | .error (.notBuiltYet _) =>
        ⟨.ok none, s.withState (.pending (now + s.timer.delay)), site, some .early⟩
      | .error e => ⟨.error e, s.withState .idle, site, some (.refused e)⟩
      | .ok bridge =>
        let ran := (s.merger.apply bridge s.queue).run site
        ⟨ran.1.map some, s.emptied.withState .idle, ran.2, some (.took s.queue)⟩ := by
  obtain ⟨merger, collector, ⟨delay, state⟩, closed⟩ := s
  obtain ⟨deadline, rfl⟩ := pending
  rfl

/-- To the files, an attempt is a run on the queue. -/
theorem fire_run (pending : s.timer.state.IsPending) (now : Nat) (site : Site) :
    (s.fire now site).site = ((s.merger.run s.queue).run site).2 := by
  rw [fire_pending pending, Merger.run, Action.run_bind, Action.run_look]
  cases s.merger.prepare site.disk with
  | ok bridge => rfl
  | error cause => cases cause <;> rfl

theorem attempts_fires (tried : s.Attempts now site o) :
    s.closed = false ∧ s.timer.state.IsPending ∧ o = s.fire now site := by
  cases tried with
  | poll listening due =>
    have pending : s.timer.state.IsPending := by
      simp only [Debounce.due, Debounce.deadline?] at due
      split at due
      · exact ⟨_, ‹_›⟩
      · cases due
    exact ⟨listening, pending, by simp [poll, listening, due]⟩
  | flush listening pending =>
    refine ⟨listening, pending, ?_⟩
    obtain ⟨deadline, pending⟩ := pending
    simp [flush, listening, Debounce.deadline?, pending]

/-- A poll or a flush that attempts nothing changes nothing. -/
theorem attempts_or_waits (called : o = s.poll now site ∨ o = s.flush now site) :
    s.Attempts now site o ∨ o = ⟨.ok none, s, site, none⟩ := by
  cases closed : s.closed with
  | true =>
    refine .inr ?_
    obtain rfl | rfl := called
    · simp [poll, closed]
    · simp [flush, closed]
  | false =>
    obtain rfl | rfl := called
    · cases due : s.timer.due now with
      | true => exact .inl (.poll closed due)
      | false => simp [poll, due]
    · cases state : s.timer.state with
      | pending deadline => exact .inl (.flush closed ⟨deadline, state⟩)
      | _ => simp [flush, Debounce.deadline?, state]

theorem attempts_final {e : Failure} (tried : s.Attempts now site o)
    (failed : o.answer = .error e) : e.Final := by
  obtain ⟨-, pending, rfl⟩ := attempts_fires tried
  rw [fire_pending pending] at failed
  split at failed
  · cases failed
  · next cause other prepared =>
    cases failed
    refine Bool.eq_false_iff.mpr fun recoverable => ?_
    exact other _ (Merger.prepare_recoverable prepared recoverable)
  · next bridge prepared =>
    dsimp only at failed
    cases ran : (s.merger.apply bridge s.queue).run site with
    | mk answer left =>
      rw [ran] at failed
      cases answer with
      | ok report => cases failed
      | error cause =>
        cases failed
        exact Merger.applyWith_final _ _ _ ran

theorem called_moves (called : o = s.poll now site ∨ o = s.flush now site) :
    ∃ call, Moves s call o.attempt o.session := by
  obtain rfl | rfl := called
  · exact ⟨.poll now site, step_moves s (.poll now site)⟩
  · exact ⟨.flush now site, step_moves s (.flush now site)⟩

/-- While no run is in flight, a change starts the timer. -/
theorem notify_pending (calm : s.Settled) (listening : s.closed = false) (cwd : Path)
    (n : Notification) (later : Nat) :
    (s.notify cwd n later).timer.state = .pending (later + s.timer.delay) := by
  simp only [notify, listening, Bool.false_eq_true, if_false, Debounce.arm]
  split
  · next running => exact absurd ⟨_, running⟩ calm.still
  · rfl

/-- After changes alone, all of them are queued and the timer waits. -/
theorem after_changes (m : Merger) (changes : ∀ call ∈ calls, ∃ cwd n now, call = .notify cwd n now) :
    (after (ofMerger m) calls).queue = calls.flatMap (recorded (ofMerger m)) ∧
      (m.config.isClose = false → calls ≠ [] →
        (after (ofMerger m) calls).timer.state.IsPending) := by
  have untaken : ∀ s, (history s calls).flatMap Event.taken = [] := by
    induction calls with
    | nil => exact fun _ => rfl
    | cons call calls ih =>
      intro s
      obtain ⟨cwd, n, now, rfl⟩ := changes call (List.mem_cons_self ..)
      exact ih (fun call member => changes call (List.mem_cons_of_mem _ member)) _
  refine ⟨?_, fun listening some => ?_⟩
  · have kept := conserved (ofMerger m) calls
    rwa [untaken] at kept
  · obtain none | ⟨front, last, rfl⟩ := calls.eq_nil_or_concat'
    · exact absurd none some
    · obtain ⟨cwd, n, now, rfl⟩ := changes last (by simp)
      have listens := (configured_after m front).closed.trans listening
      rw [after_append]
      exact ⟨_, notify_pending (settled_after m front) listens cwd n now⟩

/-- Before the primary program is built, the timer starts again. -/
theorem attempt_early (tried : s.Attempts now site o)
    (absent : site.disk.existsAt s.merger.config.primaryEntry = false) :
    o = ⟨.ok none, s.withState (.pending (now + s.timer.delay)), site, some .early⟩ := by
  obtain ⟨-, pending, rfl⟩ := attempts_fires tried
  have early : s.merger.prepare site.disk = .error (.notBuiltYet s.merger.config.primaryEntry) := by
    simp [Merger.prepare, absent]
  rw [fire_pending pending, early]

theorem attempt_refused {cause : Failure} (tried : s.Attempts now site o)
    (there : site.disk.existsAt s.merger.config.primaryEntry = true)
    (prepared : s.merger.prepare site.disk = .error cause) :
    o = ⟨.error cause, s.withState .idle, site, some (.refused cause)⟩ := by
  obtain ⟨-, pending, rfl⟩ := attempts_fires tried
  have final := Merger.prepare_final there prepared
  rw [fire_pending pending, prepared]
  cases cause with
  | notBuiltYet entry => cases final
  | _ => rfl

theorem attempt_took {bridge : BridgeFile} (tried : s.Attempts now site o)
    (prepared : s.merger.prepare site.disk = .ok bridge) :
    o = ⟨((s.merger.apply bridge s.queue).run site).1.map some, s.emptied.withState .idle,
      ((s.merger.apply bridge s.queue).run site).2, some (.took s.queue)⟩ := by
  obtain ⟨-, pending, rfl⟩ := attempts_fires tried
  rw [fire_pending pending, prepared]

/-- An attempt to run that comes before the primary program is built waits for another delay; one
that cannot be prepared says why and leaves the timer idle. In both cases the queue and the files
are as before. Any other attempt runs on the whole queue, and leaves none of it whether the run
succeeds or not. After each of them the next change starts the timer. No call leaves a run in
flight, and none answers with an error that passes by itself. -/
theorem attempt_retryable (m : Merger) (calls : List Call) (now : Nat) (site : Site) :
    let s := after (ofMerger m) calls
    (∀ o, s.Attempts now site o →
      (site.disk.existsAt m.config.primaryEntry = false →
        o.answer = .ok none ∧ o.site = site ∧
          o.session = s.withState (.pending (now + m.config.debounceMs))) ∧
      (∀ cause, site.disk.existsAt m.config.primaryEntry = true →
        m.prepare site.disk = .error cause →
          o.answer = .error cause ∧ o.site = site ∧ o.session = s.withState .idle) ∧
      (∀ bridge, m.prepare site.disk = .ok bridge →
        o.answer = ((m.apply bridge s.queue).run site).1.map some ∧
          o.site = ((m.apply bridge s.queue).run site).2 ∧
          o.session = s.emptied.withState .idle) ∧
      ∀ cwd n later, (o.session.notify cwd n later).timer.state =
        .pending (later + m.config.debounceMs)) ∧
    ∀ o, o = s.poll now site ∨ o = s.flush now site →
      ¬ o.session.timer.state.IsRunning ∧ ∀ e, o.answer = .error e → e.isRecoverable = false := by
  intro s
  have given : Configured m s := configured_after m calls
  have calm : s.Settled := settled_after m calls
  constructor
  · intro o tried
    obtain ⟨call, move⟩ := called_moves tried.called
    have given' := move.configured given
    rw [← given.delay, ← given.merger]
    refine ⟨fun absent => ?_, fun cause there prepared => ?_, fun bridge prepared => ?_, ?_⟩
    · rw [attempt_early tried absent]
      exact ⟨rfl, rfl, rfl⟩
    · rw [attempt_refused tried there prepared]
      exact ⟨rfl, rfl, rfl⟩
    · rw [attempt_took tried prepared]
      exact ⟨rfl, rfl, rfl⟩
    · intro cwd n later
      have listening : o.session.closed = false := by
        rw [given'.closed, ← given.closed]
        exact (attempts_fires tried).1
      rw [given.delay, ← given'.delay]
      exact notify_pending (move.settled calm) listening cwd n later
  · intro o called
    obtain ⟨call, move⟩ := called_moves called
    refine ⟨(move.settled calm).still, fun e failed => ?_⟩
    obtain tried | waits := attempts_or_waits called
    · exact attempts_final tried failed
    · rw [waits] at failed
      cases failed

def plainMerger : Merger := .ofOptions
  { config := { input := ⟨"/src"⟩, output := ⟨"/dist"⟩, target := ⟨"/out"⟩ }, excludes := [] }

def siteOf (entries : List (Place × Node)) : Site :=
  ⟨entries.foldl (fun d entry => d.assign entry.1 entry.2) (.empty []), []⟩

/-- With one change in the queue: before there is an entry script, while it is no script, and with
a file in the place of the target. -/
theorem attempt_retryable_stages :
    let s := after (ofMerger plainMerger) [.notify ⟨"/"⟩ ⟨⟨"/dist/a.js"⟩, .misc⟩ 0]
    let broken := siteOf [(["dist"], .dir), (["dist", "app.js"], .file ⟨#[40]⟩)]
    let blocked := siteOf [(["dist"], .dir), (["dist", "app.js"], .file ⟨#[49]⟩),
      (["dist", "a.js"], .file ⟨#[50]⟩), (["out"], .file ⟨#[51]⟩)]
    s.queue = [⟨"/dist/a.js"⟩] ∧
      ((s.poll 600 (siteOf [])).answer = .ok none ∧
        (s.poll 600 (siteOf [])).session = s.withState (.pending 1100)) ∧
      ((s.flush 10 broken).answer = .error (.patchFailure ⟨"/dist/app.js"⟩ "syntax error") ∧
        (s.flush 10 broken).session = s.withState .idle) ∧
      (∃ e, (s.flush 10 blocked).answer = .error e ∧ e.isRecoverable = false) ∧
      (s.flush 10 blocked).session = s.emptied.withState .idle := by
  intro s broken blocked
  have pending : s.timer.state.IsPending := ⟨500, by decide +kernel⟩
  have retryable := fun now site =>
    attempt_retryable plainMerger [.notify ⟨"/"⟩ ⟨⟨"/dist/a.js"⟩, .misc⟩ 0] now site
  obtain ⟨early, -, waits⟩ :=
    ((retryable 600 (siteOf [])).1 _ (.poll rfl (by decide +kernel))).1 (by decide +kernel)
  obtain ⟨refused, -, stops⟩ := ((retryable 10 broken).1 _ (.flush rfl pending)).2.1
    (.patchFailure ⟨"/dist/app.js"⟩ "syntax error") (by decide +kernel) (by decide +kernel)
  have runs : (plainMerger.prepare blocked.disk).isOk = true := by decide +kernel
  have empties : (s.flush 10 blocked).session = s.emptied.withState .idle := by
    cases prepared : plainMerger.prepare blocked.disk with
    | error cause => rw [prepared] at runs; cases runs
    | ok bridge =>
      obtain ⟨-, -, took, -⟩ := (retryable 10 blocked).1 _ (.flush rfl pending)
      exact (took bridge prepared).2.2
  have fails : (s.flush 10 blocked).answer =
      .error (.copyFailure ⟨"/dist/a.js"⟩ ⟨"/out/a.js"⟩ .alreadyExists) := by decide +kernel
  exact ⟨by decide +kernel, ⟨early, waits⟩, ⟨refused, stops⟩,
    ⟨_, fails, ((retryable 10 blocked).2 _ (.inr rfl)).2 _ fails⟩, empties⟩

end BundleMerge.Session
