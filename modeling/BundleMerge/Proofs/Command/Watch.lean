import BundleMerge.Command.Execute
import BundleMerge.Proofs.Options
import BundleMerge.Proofs.Session.Attempt
import BundleMerge.Proofs.Text.Bytes

/-! A watch, from its start to the end of input. What it prints is told by the lines alone: not by
the files, by the times at which the timer wakes it, or by what its runs come to. If the timer
does not wake it before the end, it leaves the files as one run does that is given its changes. -/
namespace BundleMerge

namespace Command

theorem linesOf_ne_nil (bytes : List UInt8) : linesOf bytes ≠ [] := by
  cases bytes with
  | nil => simp [linesOf]
  | cons b bytes =>
    simp only [linesOf]
    split
    · simp
    · split <;> simp

theorem linesOf_cons {b : UInt8} (other : b ≠ 10) (bytes : List UInt8) :
    linesOf (b :: bytes) = (linesOf bytes).modifyHead (b :: ·) := by
  simp only [linesOf, if_neg other]
  split
  · next lines => rw [lines]; rfl
  · next none => exact absurd none (linesOf_ne_nil bytes)

theorem linesOf_append {bytes : List UInt8} (unbroken : 10 ∉ bytes) (rest : List UInt8) :
    linesOf (bytes ++ rest) = (linesOf rest).modifyHead (bytes ++ ·) := by
  induction bytes with
  | nil => exact (congrFun List.modifyHead_id (linesOf rest)).symm
  | cons b bytes ih =>
    obtain ⟨other, unbroken⟩ := not_or.mp (List.mem_cons.not.mp unbroken)
    rw [List.cons_append, linesOf_cons (Ne.symm other), ih unbroken, List.modifyHead_modifyHead]
    rfl

/-- The lines of a text, as bytes, are its lines encoded. -/
theorem linesOf_flatMap (cs : List Char) :
    linesOf (cs.flatMap String.utf8EncodeChar) =
      (cs.splitOn '\n').map (·.flatMap String.utf8EncodeChar) := by
  induction cs with
  | nil => rfl
  | cons c cs ih =>
    rw [List.flatMap_cons, List.splitOn_cons_eq_if_modifyHead]
    by_cases cut : c = '\n'
    · subst cut
      have first : linesOf (String.utf8EncodeChar '\n' ++ cs.flatMap String.utf8EncodeChar) =
          [] :: linesOf (cs.flatMap String.utf8EncodeChar) := rfl
      rw [first, ih]
      rfl
    · rw [linesOf_append (Text.lineBreak_not_mem cut), ih, if_neg (by simpa using cut)]
      cases cs.splitOn '\n' <;> rfl

/-! ### What the lines ask for -/

/-- The notifications in a text, a line each. -/
def notifications (text : String) : List Notification :=
  (text.toList.splitOn '\n').filterMap fun line => notificationOf (String.ofList line)

def Event.line? : Event → Option (List UInt8)
  | .line bytes => some bytes
  | .timeout => none

def decoded? (bytes : List UInt8) : Option String := String.fromUTF8? ⟨bytes.toArray⟩

/-- What an event asks for: the timer asks for nothing. -/
def Event.asked? (e : Event) : Option Notification :=
  e.line?.bind fun bytes => (decoded? bytes).bind notificationOf

/-- A line that is text, but no notification. -/
def Event.isNoise (e : Event) : Bool :=
  (e.line?.bind decoded?).any fun line => (notificationOf line).isNone

/-- The events bring the lines of a text, with the timer in between at any time. -/
def Brings (events : List (Nat × Event)) (text : String) : Prop :=
  events.filterMap (·.2.line?) = linesOf text.toUTF8.toList

variable {c : Config} {o : Options} {d : Disk} {text : String} {events : List (Nat × Event)}
  {w : Watch} {now ending : Nat} {e : Event}

theorem Brings.lines (brings : Brings events text) : events.filterMap (·.2.line?) =
    (text.toList.splitOn '\n').map (·.flatMap String.utf8EncodeChar) := by
  rw [← linesOf_flatMap, ← Text.toList_toUTF8]
  exact brings

theorem Brings.readable (brings : Brings events text) :
    ∀ event ∈ events, ∀ bytes, event.2 = .line bytes → ∃ line, decoded? bytes = some line := by
  intro event member bytes line
  have here : bytes ∈ events.filterMap (·.2.line?) :=
    List.mem_filterMap.mpr ⟨event, member, by rw [line]; rfl⟩
  rw [brings.lines] at here
  obtain ⟨cs, -, rfl⟩ := List.mem_map.mp here
  exact ⟨_, Text.fromUTF8?_flatMap cs⟩

theorem Brings.asked (brings : Brings events text) :
    events.filterMap (·.2.asked?) = notifications text := by
  have split : (fun event : Nat × Event => event.2.asked?) = fun event =>
      event.2.line?.bind fun bytes => (decoded? bytes).bind notificationOf := rfl
  rw [split, ← List.filterMap_filterMap, brings.lines, List.filterMap_map, notifications]
  refine List.filterMap_congr fun cs _ => ?_
  simp only [Function.comp_apply, decoded?, Text.fromUTF8?_flatMap, Option.bind_some]

/-! ### One event -/

theorem react_line {bytes : List UInt8} {line : String} (text : decoded? bytes = some line) :
    w.react now (.line bytes) = .ok (w.hear now line) := by
  rw [decoded?] at text
  simp only [Watch.react, text]

theorem hear_eq (line : String) : w.hear now line = match notificationOf line with
    | none => { watch := w }
    | some n => {
        watch := { w with session := w.session.notify w.disk.cwdPath n now }
        said := acknowledgement n } := by
  simp only [Watch.hear, Command.hear]
  cases notificationOf line <;> rfl

/-- An event that brings no text but readable one is answered by what it asks for. -/
theorem react_said (readable : ∀ bytes, e = .line bytes → ∃ line, decoded? bytes = some line) :
    ∃ reaction, w.react now e = .ok reaction ∧
      reaction.said = String.join (e.asked?.toList.map acknowledgement) := by
  cases e with
  | timeout => exact ⟨_, rfl, rfl⟩
  | line bytes =>
    obtain ⟨line, text⟩ := readable bytes rfl
    refine ⟨_, react_line text, ?_⟩
    simp only [hear_eq, Event.asked?, Event.line?, Option.bind_some, text]
    cases notificationOf line with
    | none => rfl
    | some n => simp

theorem react_noise (noise : e.isNoise = true) : w.react now e = .ok { watch := w } := by
  cases e with
  | timeout => cases noise
  | line bytes =>
    obtain ⟨line, text, idle⟩ := (Option.any_eq_true _ _).mp noise
    rw [react_line text, hear_eq, Option.isNone_iff_eq_none.mp idle]

/-! ### All events -/

theorem watchFrom_cons {reaction : Reaction} (reacts : w.react now e = .ok reaction) :
    watchFrom w ending ((now, e) :: events) =
      { watchFrom reaction.watch ending events with
        output := reaction.said ++ (watchFrom reaction.watch ending events).output } := by
  simp only [watchFrom, reacts]

theorem watchFrom_said
    (readable : ∀ event ∈ events, ∀ bytes, event.2 = .line bytes →
      ∃ line, decoded? bytes = some line) :
    (watchFrom w ending events).answer = .ok () ∧ (watchFrom w ending events).output =
      String.join ((events.filterMap (·.2.asked?)).map acknowledgement) := by
  induction events generalizing w with
  | nil => exact ⟨rfl, rfl⟩
  | cons event events ih =>
    obtain ⟨now, e⟩ := event
    obtain ⟨reaction, reacts, said⟩ := react_said (readable (now, e) (List.mem_cons_self ..))
    obtain ⟨ends, output⟩ := @ih reaction.watch fun event member =>
      readable event (List.mem_cons_of_mem _ member)
    rw [watchFrom_cons reacts]
    refine ⟨ends, ?_⟩
    change reaction.said ++ _ = _
    rw [output, said, List.filterMap_cons]
    cases e.asked? <;> simp

/-- Lines that are no notifications might as well not be there. -/
theorem watchFrom_filter (events : List (Nat × Event)) :
    watchFrom w ending (events.filter (!·.2.isNoise)) = watchFrom w ending events := by
  induction events generalizing w with
  | nil => rfl
  | cons event events ih =>
    obtain ⟨now, e⟩ := event
    cases noise : e.isNoise with
    | true =>
      rw [List.filter_cons_of_neg (by simp [noise]), ih, watchFrom_cons (react_noise noise)]
      simp
    | false =>
      rw [List.filter_cons_of_pos (by simp [noise])]
      simp only [watchFrom]
      cases w.react now e with
      | error e => rfl
      | ok reaction => simp only [ih]

theorem watchEvents_eq (accepted : optionsOf d c = .ok o) (events : List (Nat × Event))
    (ending : Nat) : watchEvents c events ending d = watchFrom ⟨.ofOptions o, d⟩ ending events := by
  simp only [watchEvents, accepted]

/-- Whenever the timer wakes it, and whatever its runs come to, a watch of an accepted
configuration acknowledges each notification in a text, in the order of the lines and nothing
else, and succeeds at the end of input. Lines that are no notifications change nothing. -/
theorem watch_acknowledges (accepted : optionsOf d c = .ok o) (brings : Brings events text)
    (ending : Nat) :
    let left := watchEvents c events ending d
    left.answer = .ok () ∧
      left.output = String.join ((notifications text).map acknowledgement) ∧
      watchEvents c (events.filter (!·.2.isNoise)) ending d = left ∧
      ∀ (w : Watch) (now : Nat) (e : Event), e.isNoise = true →
        w.react now e = .ok { watch := w } := by
  intro left
  obtain ⟨ends, output⟩ := @watchFrom_said events ⟨.ofOptions o, d⟩ ending brings.readable
  rw [← watchEvents_eq accepted] at ends output
  refine ⟨ends, output.trans (by rw [brings.asked]), ?_, fun w now e => react_noise⟩
  rw [watchEvents_eq accepted, watchFrom_filter, ← watchEvents_eq accepted]

/-- A line of input, given as text. -/
def Event.ofLine (line : String) : Event :=
  .line (line.toList.flatMap String.utf8EncodeChar)

def hastyConfig : Config := { target := ⟨"out"⟩, debounceMs := 5 }

theorem optionsOf_some (accepted : (optionsOf d c).isOk = true) : ∃ o, optionsOf d c = .ok o := by
  cases made : optionsOf d c with
  | error e => rw [made] at accepted; cases accepted
  | ok o => exact ⟨o, rfl⟩

def scriptLine (file : String) : String :=
  "\x7b\"file\":\"" ++ file ++ "\",\"type\":\"script\"\x7d"

/-- The timer is due after the first of two notifications; between them stands a line that is
none. -/
theorem watch_acknowledges_woken :
    let events := [(0, .ofLine (scriptLine "dist/é.js")), (7, .timeout), (8, .ofLine "\x7b"),
      (9, .ofLine (scriptLine "b.js")), (9, .ofLine "")]
    let left := watchEvents hastyConfig events 9 (.empty [])
    left.answer = .ok () ∧ left.output = "next dist/é.js\nnext b.js\n" := by
  intro events left
  obtain ⟨o, accepted⟩ := @optionsOf_some hastyConfig (.empty []) (by decide +kernel)
  let text := scriptLine "dist/é.js" ++ "\n\x7b\n" ++ scriptLine "b.js" ++ "\n"
  have brings : Brings events text := by
    rw [Brings, Text.toList_toUTF8, linesOf_flatMap]
    decide +kernel
  have asked : notifications text = [⟨⟨"dist/é.js"⟩, .script⟩, ⟨⟨"b.js"⟩, .script⟩] := by
    decide +kernel
  obtain ⟨ends, output, -⟩ := watch_acknowledges accepted brings 9
  exact ⟨ends, output.trans (by rw [asked]; decide +kernel)⟩

/-! ### A watch that the timer does not wake -/

/-- The changes that events report to a session. -/
def reported (cwd : Path) (events : List (Nat × Event)) : List Session.Call :=
  events.filterMap fun event => event.2.asked?.map fun n => .notify cwd n event.1

/-- The paths in the output tree that notifications stand for. -/
def changes (o : Options) (cwd : Path) (ns : List Notification) : List Path :=
  (ns.map ((Session.ofOptions o).collector.resolve cwd)).filter (·.startsWith o.config.output)

theorem watchFrom_disk
    (readable : ∀ event ∈ events, ∀ bytes, event.2 = .line bytes →
      ∃ line, decoded? bytes = some line)
    (asleep : ∀ event ∈ events, event.2 ≠ .timeout) :
    (watchFrom w ending events).disk =
      ((w.session.after (reported w.disk.cwdPath events)).flush ending ⟨w.disk, []⟩).site.disk := by
  induction events generalizing w with
  | nil => rfl
  | cons event events ih =>
    obtain ⟨now, e⟩ := event
    cases e with
    | timeout => exact absurd rfl (asleep _ (List.mem_cons_self ..))
    | line bytes =>
      obtain ⟨line, text⟩ := readable _ (List.mem_cons_self ..) bytes rfl
      have rest := @ih (w.hear now line).watch
        (fun event member => readable event (List.mem_cons_of_mem _ member))
        fun event member => asleep event (List.mem_cons_of_mem _ member)
      rw [watchFrom_cons (react_line text)]
      refine rest.trans ?_
      rw [hear_eq, reported, reported, List.filterMap_cons]
      simp only [Event.asked?, Event.line?, Option.bind_some, text]
      cases notificationOf line <;> rfl

theorem reported_changes (cwd : Path) (events : List (Nat × Event)) :
    ∀ call ∈ reported cwd events, ∃ cwd n now, call = .notify cwd n now := by
  intro call member
  obtain ⟨event, -, asked⟩ := List.mem_filterMap.mp member
  obtain ⟨n, -, rfl⟩ := Option.map_eq_some_iff.mp asked
  exact ⟨cwd, n, event.1, rfl⟩

theorem recorded_reported (listening : o.config.isClose = false) (cwd : Path)
    (events : List (Nat × Event)) :
    (reported cwd events).flatMap (Session.recorded (.ofMerger (.ofOptions o))) =
      changes o cwd (events.filterMap (·.2.asked?)) := by
  have listens : (Session.ofMerger (.ofOptions o)).closed = false := listening
  induction events with
  | nil => rfl
  | cons event events ih =>
    rw [reported, List.filterMap_cons, List.filterMap_cons]
    cases event.2.asked? with
    | none => exact ih
    | some n =>
      have here : Session.recorded (.ofMerger (.ofOptions o)) (.notify cwd n event.1) =
          changes o cwd [n] := by
        simp only [Session.recorded, listens, Bool.not_false, Bool.true_and, changes, List.map_cons,
          List.map_nil, List.filter_cons, List.filter_nil]
        rfl
      rw [Option.map_some, List.flatMap_cons, here]
      exact (congrArg _ ih).trans (List.filter_append ..).symm

theorem reported_eq_nil {cwd : Path} :
    reported cwd events = [] ↔ events.filterMap (·.2.asked?) = [] := by
  simp [reported, List.filterMap_eq_nil_iff]

theorem optionsOf_made (accepted : optionsOf d c = .ok o) :
    Options.ofConfig d.cwdPath c = .ok o := by
  unfold optionsOf at accepted
  cases made : Options.ofConfig d.cwdPath c with
  | error e => rw [made] at accepted; cases accepted
  | ok made => rw [made] at accepted; cases accepted; rfl

/-- A watch that is not woken by the timer before the end of input leaves the files as one run
does on the changes that were reported to it, whatever that run comes to. If none was reported,
or the session is closed, it leaves the files alone. -/
theorem watch_leaves_run (accepted : optionsOf d c = .ok o) (brings : Brings events text)
    (asleep : ∀ event ∈ events, event.2 ≠ .timeout) (ending : Nat) :
    let left := (watchEvents c events ending d).disk
    let ns := notifications text
    (c.isClose = false → ns ≠ [] →
      left = (((Merger.ofOptions o).run (changes o d.cwdPath ns)).run ⟨d, []⟩).2.disk) ∧
    (c.isClose = true ∨ ns = [] → left = d) := by
  intro left ns
  have config : (Merger.ofOptions o).config.isClose = c.isClose :=
    Options.ofConfig_isClose (optionsOf_made accepted)
  let s := Session.after (.ofMerger (.ofOptions o)) (reported d.cwdPath events)
  have flushed : left = (s.flush ending ⟨d, []⟩).site.disk :=
    (congrArg _ (watchEvents_eq accepted events ending)).trans
      (watchFrom_disk brings.readable asleep)
  have given := Session.configured_after (.ofOptions o) (reported d.cwdPath events)
  obtain ⟨queue, pending⟩ := Session.after_changes (.ofOptions o)
    (reported_changes d.cwdPath events)
  have none : ns = [] ↔ reported d.cwdPath events = [] := by
    rw [reported_eq_nil, brings.asked]
  refine ⟨fun listening some => ?_, fun idle => ?_⟩
  · have listens : o.config.isClose = false := config.trans listening
    have waits := pending listens (none.not.mp some)
    have tried : s.Attempts ending ⟨d, []⟩ (s.flush ending ⟨d, []⟩) :=
      .flush (given.closed.trans listens) waits
    obtain ⟨-, -, fires⟩ := Session.attempts_fires tried
    rw [flushed, fires, Session.fire_run waits, given.merger, queue, recorded_reported listens,
      brings.asked]
  · have same : s.flush ending ⟨d, []⟩ = ⟨.ok Option.none, s, ⟨d, []⟩, Option.none⟩ := by
      rcases idle with closed | empty
      · have deaf : s.closed = true := given.closed.trans (config.trans closed)
        simp only [Session.flush, deaf, Bool.true_or, if_true]
      · have start : s = .ofMerger (.ofOptions o) := by
          simp only [s, none.mp empty]
          rfl
        have waits : s.timer.deadline?.isNone = true := by rw [start]; rfl
        simp only [Session.flush, waits, Bool.or_true, if_true]
    rw [flushed, same]

/-- One of two reported changes lies in the output tree, and is copied. A closed session does
nothing with them. -/
theorem watch_leaves_run_copied :
    let d := (Session.siteOf [(["dist"], .dir), (["dist", "app.js"], .file ⟨#[49]⟩),
      (["dist", "a.js"], .file ⟨#[50]⟩)]).disk
    let events := [(0, .ofLine (scriptLine "dist/a.js")), (9, .ofLine (scriptLine "b.js"))]
    let closed := { hastyConfig with isClose := true }
    (∃ o, optionsOf d hastyConfig = .ok o ∧ (watchEvents hastyConfig events 9 d).disk =
        (((Merger.ofOptions o).run (changes o d.cwdPath
          [⟨⟨"dist/a.js"⟩, .script⟩, ⟨⟨"b.js"⟩, .script⟩])).run ⟨d, []⟩).2.disk) ∧
      (watchEvents hastyConfig events 9 d).disk.fileAt ["out", "a.js"] = some ⟨#[50]⟩ ∧
      (watchEvents closed events 9 d).disk = d := by
  intro d events closed
  let text := scriptLine "dist/a.js" ++ "\n" ++ scriptLine "b.js"
  have brings : Brings events text := by
    rw [Brings, Text.toList_toUTF8, linesOf_flatMap]
    decide +kernel
  have asked : notifications text = [⟨⟨"dist/a.js"⟩, .script⟩, ⟨⟨"b.js"⟩, .script⟩] := by
    decide +kernel
  have asleep : ∀ event ∈ events, event.2 ≠ .timeout := by decide +kernel
  obtain ⟨o, accepted⟩ := @optionsOf_some hastyConfig d (by decide +kernel)
  obtain ⟨o', accepted'⟩ := @optionsOf_some closed d (by decide +kernel)
  have ran := (watch_leaves_run accepted brings asleep 9).1 rfl (by simp [asked])
  rw [asked] at ran
  exact ⟨⟨o, accepted, ran⟩, by decide +kernel,
    (watch_leaves_run accepted' brings asleep 9).2 (.inl rfl)⟩

end Command
end BundleMerge
