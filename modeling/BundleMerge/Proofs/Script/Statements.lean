import BundleMerge.Proofs.Script.Lead

/-! Statements that follow others. After some statements and a blank, a text is read as it is
alone, unless it starts with an interpreter line, which only a whole script does. -/
namespace BundleMerge.Script

/-! ### Statements alone and after others -/

/-- Statements are read without a look at what has been read before them. -/
def Symbol.standsAlone : Symbol → Bool
  | .statement => true
  | _ => false

theorem standsAlone_rule (x : Symbol) (alone : x.standsAlone = true) :
    (grammar.rule x).Alone Symbol.standsAlone = true := by
  cases x with
  | statement => decide
  | _ => cases alone

theorem statements_alike (fuel : Nat) (below : List Tree) {c : Char} (blank : isBlank c = true)
    (cs : List Char) : ∃ o, grammar.run fuel Syntax.statements below (.of (c :: cs)) =
      o.onto below ∧ Outcome.Alike (.of (c :: cs)) (.of cs) o
        (grammar.run fuel Syntax.statements [] (.of cs)) := by
  have onto : grammar.run fuel Syntax.statements ([] ++ below) (.of (c :: cs)) = _ :=
    run_onto standsAlone_rule (by decide)
  refine ⟨_, onto, ?_⟩
  refine run_alike profile_right openers_right ?_ (.inr ⟨?_, by decide⟩) rfl
  · simp [Syntax.statements, Rule.Blind]
  · rw [Spot.of_blank blank]

/-- After other statements and a blank, a text is read as statements of the same shapes as alone. -/
theorem comes_statements {c : Char} (blank : isBlank c = true) (below : List Tree) {cs : List Char}
    {ts : List Tree} {s : Spot} (read : grammar.Comes Syntax.statements [] (.of cs) (.read ts s)) :
    ∃ us t, grammar.Comes Syntax.statements below (.of (c :: cs)) (.read (us ++ below) t) ∧
      us.map Tree.shape = ts.map Tree.shape := by
  obtain ⟨-, fuel, read⟩ := read
  obtain ⟨o, same, alike⟩ := statements_alike fuel below blank cs
  rw [read] at alike
  cases alike with
  | read shapes => exact ⟨_, _, ⟨nofun, fuel, same⟩, shapes⟩
  | still shapes => exact ⟨_, _, ⟨nofun, fuel, same⟩, shapes⟩

/-- Nothing is read as statements after others that could not be read alone. -/
theorem exists_comes_statements {c : Char} (blank : isBlank c = true) {below : List Tree}
    {cs : List Char} {us : List Tree} {t : Spot}
    (read : grammar.Comes Syntax.statements below (.of (c :: cs)) (.read us t)) :
    ∃ ts s, grammar.Comes Syntax.statements [] (.of cs) (.read ts s) := by
  obtain ⟨-, fuel, read⟩ := read
  obtain ⟨o, same, alike⟩ := statements_alike fuel below blank cs
  rw [read] at same
  generalize alone : grammar.run fuel Syntax.statements [] (.of cs) = o' at alike
  cases alike with
  | read | still => exact ⟨_, _, nofun, fuel, alone⟩
  | miss | stuck | spent => cases same

/-- As many statements as a number says are read before the others. -/
theorem comes_statements_of_times {n : Nat} {trees ts us : List Tree} {s s' t : Spot}
    (opening : grammar.Comes ((Rule.symbol .statement).times n) trees s (.read ts s')) :
    grammar.Comes Syntax.statements trees s (.read us t) ↔
      grammar.Comes Syntax.statements ts s' (.read us t) := by
  rw [Syntax.statements, comes_seq_read, comes_seq_read]
  simp only [comes_many_of_times opening]

/-! ### Interpreter lines -/

theorem isPrefixOf_hash {m : List Char} (other : m.head?.any (· ≠ '#') = true) (cs : List Char) :
    m.isPrefixOf ('#' :: cs) = false := by
  cases m with
  | nil => cases other
  | cons c m =>
    have other : c ≠ '#' := of_decide_eq_true other
    rw [List.isPrefixOf_cons_cons, beq_false_of_ne other, Bool.false_and]

/-- No statement starts with a hash and an exclamation mark. -/
theorem Token.scan_hash {t : Token} (opens : t.opens = true) (cs : List Char) :
    t.scan (.of ('#' :: '!' :: cs)) = none := by
  have word : ∀ w : String, w.toList.head?.any (· ≠ '#') = true →
      word? w.toList ('#' :: '!' :: cs) = none := fun w other => by
    rw [word?, isPrefixOf_hash other, if_neg Bool.false_ne_true]
  change t.scan ⟨[], '#' :: '!' :: cs⟩ = none
  cases t with
  | mark m =>
    rw [Token.scan, mark?, isPrefixOf_hash opens, if_neg Bool.false_ne_true]
    rfl
  | exact m => rw [Token.scan, isPrefixOf_hash opens, if_neg Bool.false_ne_true]
  | word w =>
    rw [Token.scan, word w opens]
    rfl
  | oneOf words =>
    have none : (words.findSome? fun w => word? w.toList ('#' :: '!' :: cs)) = none :=
      List.findSome?_eq_none_iff.mpr fun w listed => word w (List.all_eq_true.mp opens w listed)
    rw [Token.scan, none]
    rfl
  | name | property | privateName | number | string | regex | condition | markupName | markupString
  | aside | finish => rfl
  | templateChars | templateMark | markupText | reference | statementEnd | interpreterLine =>
    cases opens

theorem not_comes_hash {cs : List Char} {trees us : List Tree} {s : Spot}
    (line : "#!".toList <+: cs) :
    ¬ grammar.Comes Syntax.statements trees (.of cs) (.read us s) := by
  obtain ⟨rest, rfl⟩ := line
  intro comes
  have still := comes.reads.still profile_right openers_right (by decide)
    fun t opens => Token.scan_hash opens rest
  have ended := reads_statements comes.reads
  rw [still, Spot.here_of] at ended
  cases ended

/-! ### Scripts -/

/-- A script without an interpreter line is read as its statements. -/
theorem parse_eq_statements {script : List Char} {t : Tree} (line : ¬ "#!".toList <+: script) :
    parse script = some t ↔ ∃ us s, grammar.Comes Syntax.statements [] (.of script) (.read us s) ∧
      t = .node .program us.reverse := by
  have none : interpreterLine? script = none := by
    unfold interpreterLine?
    split
    · exact absurd (List.prefix_append "#!".toList _) line
    · rfl
  have missed : grammar.Comes (.lexeme .interpreterLine) [] (.of script) .miss :=
    comes_lexeme_miss (by
      change (interpreterLine? (Spot.of script).here).map _ = _
      rw [Spot.here_of, none, Option.map_none])
  rw [parse_eq_some_iff]
  simp only [comes_symbol, program_eq, comes_node_read, comes_seq_read, comes_alt_of_miss missed]
  constructor
  · rintro ⟨s, us, ⟨ts, s', skipped, read⟩, same⟩
    cases skipped.unique comes_nothing
    cases same
    exact ⟨us, s, read, rfl⟩
  · rintro ⟨us, s, read, rfl⟩
    exact ⟨s, us, ⟨_, _, comes_nothing, read⟩, rfl⟩

/-- What is read as statements is a script of its own that has no interpreter line. -/
theorem exists_comes_iff {script : List Char} :
    (∃ us s, grammar.Comes Syntax.statements [] (.of script) (.read us s)) ↔
      (parse script).isSome ∧ ¬ "#!".toList <+: script := by
  constructor
  · rintro ⟨us, s, read⟩
    have line : ¬ "#!".toList <+: script := fun line => not_comes_hash line read
    have parsed := (parse_eq_statements line).mpr ⟨us, s, read, rfl⟩
    exact ⟨Option.isSome_iff_exists.mpr ⟨_, parsed⟩, line⟩
  · rintro ⟨accepted, line⟩
    obtain ⟨t, read⟩ := Option.isSome_iff_exists.mp accepted
    obtain ⟨us, s, read, -⟩ := (parse_eq_statements line).mp read
    exact ⟨us, s, read⟩

/-- After some statements and a blank, a script is accepted if it is accepted alone and has no
interpreter line. -/
theorem isSome_parse_after {n : Nat} {c : Char} {ts : List Tree} {script rest : List Char}
    (opening : grammar.Comes ((Rule.symbol .statement).times n) [] (.of script)
      (.read ts (.of (c :: rest))))
    (blank : isBlank c = true) (line : ¬ "#!".toList <+: script) :
    (parse script).isSome ↔ (parse rest).isSome ∧ ¬ "#!".toList <+: rest := by
  rw [← exists_comes_iff, ← and_iff_left line (a := (parse script).isSome), ← exists_comes_iff]
  simp only [comes_statements_of_times opening]
  constructor
  · rintro ⟨us, s, read⟩
    exact exists_comes_statements blank read
  · rintro ⟨us, s, read⟩
    obtain ⟨us, t, read, -⟩ := comes_statements blank ts read
    exact ⟨_, t, read⟩

end BundleMerge.Script
