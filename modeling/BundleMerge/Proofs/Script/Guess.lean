import BundleMerge.Proofs.Script.Plain
import BundleMerge.Proofs.Script.Prospects

/-! What scans find in a sketch. Marks, strings and the ends of statements are the same whatever
names go into the holes. A name in a hole is found as a name, or else as a word that is meant. -/
namespace BundleMerge.Script

/-! ### The guess -/

/-- What the name characters at the start of a text are. -/
inductive Run where
  | known
  | hole (h : Char)
  | mixed

def runOf (cs : List Char) : Run :=
  match cs.takeWhile isNamePart with
  | [h] => if isHole h then .hole h else .known
  | run => if run.any isHole then .mixed else .known

/-- Whether the text tells if a new line that starts with it starts afresh. -/
def startsKnown : List Char → Bool
  | 'i' :: c :: _ => c ≠ 'n' && !isHole c
  | c :: _ => !isHole c
  | [] => true

def guessWords (choice : Char → Choice) (words : List String) (s : Spot) :
    Option (List (Option (Tree × List Char))) :=
  if words.all isWord then
    match runOf s.next with
    | .known => some [(words.findSome? fun w => word? w.toList s.next).map (s.leaf .mark)]
    | .hole h => some ((if (choice h).isWithin words then [] else [none]) ++
        (words.filter (choice h).allows).map fun w =>
          some (.leaf .mark s.lead w.toList, s.next.dropWhile isNamePart))
    | .mixed => none
  else none

/-- What a token may find at a spot of a sketch, as far as that is known. -/
def guess (choice : Char → Choice) : Guess Token
  | .mark m, s => if m.toList.all isPunctuation then some [Token.scan (.mark m) s] else none
  | .exact m, s => if m.toList.all isPunctuation then some [Token.scan (.exact m) s] else none
  | .word w, s => guessWords choice [w] s
  | .oneOf words, s => guessWords choice words s
  | .name reserved, s =>
    match runOf s.next with
    | .known => some [Token.scan (.name reserved) s]
    | .hole h =>
      some ((if (choice h).isWithin reserved then [] else [some (s.leaf .name 1)]) ++
        if reserved.any (choice h).allows then [none] else [])
    | .mixed => none
  | .property, s =>
    match runOf s.next with
    | .known => some [Token.scan .property s]
    | .hole _ =>
      if ((s.next.dropWhile isNamePart).takeWhile isPlainBlank).contains '\n' then none
      else some [some (s.leaf .name 1)]
    | .mixed => none
  | .string, s =>
    if s.next.head?.any fun c => c = '"' || c = '\'' then
      match string? s.next with
      | some n => if (s.next.take n).any isHole then none else some [some (s.leaf .literal n)]
      | none => none
    else some [none]
  | .statementEnd afterValue, s =>
    if s.lead.all isPlainBlank && (!s.lead.any isNewline || startsKnown s.next) then
      some [Token.scan (.statementEnd afterValue) s]
    else none
  | .finish, s => some [Token.scan .finish s]
  | .privateName, _ | .number, _ | .regex, _ | .condition, _ | .aside, _ | .interpreterLine, _ =>
    some [none]
  | _, _ => none

/-! ### Spots of a sketch -/

/-- A spot in a plain text. -/
structure Spot.InPlain (s : Spot) : Prop where
  plain : Plain s.here
  lead : ∀ c ∈ s.lead, isBlank c = true
  begins : s.next.head?.any isBlank = false

/-- The spot once the holes are filled. There is none before the next lexeme. -/
def Spot.fill (σ : Char → List Char) (s : Spot) : Spot :=
  ⟨s.lead, Script.fill σ s.next⟩

@[simp] theorem Spot.fill_next (σ : Char → List Char) (s : Spot) :
    (s.fill σ).next = Script.fill σ s.next := rfl

/-- What a scan has found, once the holes are filled. -/
def filled (σ : Char → List Char) (found : Tree × List Char) : Tree × List Char :=
  (found.1.mapNames (fill σ), fill σ found.2)

section
variable {σ : Char → List Char} {choice : Char → Choice} {s : Spot}
  {a b cs front rest : List Char} {p c h : Char} {k : LeafKind} {m : String} {words : List String}

theorem startsKnown_head (known : startsKnown (c :: cs) = true) : isHole c = false := by
  unfold startsKnown at known
  split at known
  · rename_i same
    cases same
    rfl
  · rename_i same
    cases same
    simpa using known
  · rename_i empty
    cases empty

theorem Plain.absent (plain : Plain cs) (other : isPlain p = false) : p ∉ cs := by
  intro member
  rw [plain p member] at other
  cases other

theorem Plain.sublist (plain : Plain cs) (among : ∀ c ∈ b, c ∈ cs) : Plain b :=
  fun c member => plain c (among c member)

theorem Spot.inPlain_of (plain : Plain cs) : (Spot.of cs).InPlain := by
  have slash : '/' ∉ cs := plain.absent (by decide)
  have parted := Spot.of_eq (head?_dropWhile_ne isBlank slash)
  refine ⟨?_, ?_, ?_⟩
  · rwa [Spot.here_of]
  · rw [parted]
    exact List.all_eq_true.mp List.all_takeWhile
  · rw [parted]
    have stops := List.head?_dropWhile_not isBlank cs
    cases first : (cs.dropWhile isBlank).head? with
    | none => rfl
    | some c =>
      rw [first] at stops
      exact stops

theorem Spot.InPlain.next (inside : s.InPlain) : Plain s.next :=
  inside.plain.sublist fun _ member => List.mem_append_right _ member

theorem Spot.here_fill (inside : s.InPlain) : (s.fill σ).here = Script.fill σ s.here := by
  have clear : s.lead.any isHole = false := by
    rw [List.any_eq_false]
    intro c member hole
    have solid := blank_of_part (part_of_hole hole)
    rw [inside.lead c member] at solid
    cases solid
  rw [Spot.here, Spot.here, fill_append, fill_clear clear]
  rfl

/-- The leaf that the front of a text makes. -/
theorem Spot.leaf_eq (parted : s.next = front ++ rest) (k : LeafKind) :
    s.leaf k front.length = (.leaf k s.lead front, rest) := by
  rw [Spot.leaf, parted, List.take_left, List.drop_left]

theorem mapNames_leaf_clear (clear : front.any isHole = false) (k : LeafKind) (lead : List Char) :
    (Tree.leaf k lead front).mapNames (Script.fill σ) = .leaf k lead front := by
  cases k <;> simp [Tree.mapNames, fill_clear clear]

/-- What stands before all holes makes the same leaf. -/
theorem Spot.leaf_fill (parted : s.next = front ++ rest) (clear : front.any isHole = false)
    (k : LeafKind) : (s.fill σ).leaf k front.length = filled σ (s.leaf k front.length) := by
  have there : (s.fill σ).next = front ++ Script.fill σ rest := by
    rw [Spot.fill, parted, fill_append, fill_clear clear]
  rw [Spot.leaf_eq there, Spot.leaf_eq parted, filled, mapNames_leaf_clear clear]
  rfl

/-- What the functions of a lexeme class find alike, before all holes, they make the same leaf
of. -/
theorem Spot.map_leaf_fill {found : Option Nat} (k : LeafKind)
    (before : ∀ n, found = some n → ∃ front rest, s.next = front ++ rest ∧ front.length = n ∧
      front.any isHole = false) :
    found.map ((s.fill σ).leaf k) = (found.map (s.leaf k)).map (filled σ) := by
  cases found with
  | none => rfl
  | some n =>
    obtain ⟨front, rest, parted, rfl, clear⟩ := before n rfl
    simp only [Option.map_some, Spot.leaf_fill parted clear]

theorem Spot.of_fill (names : Names σ choice) (plain : Plain cs) :
    Spot.of (Script.fill σ cs) = (Spot.of cs).fill σ := by
  have slash : '/' ∉ cs := plain.absent (by decide)
  rw [Spot.of_eq (head?_dropWhile_ne isBlank slash),
    Spot.of_eq (head?_dropWhile_ne isBlank (not_mem_fill names (by decide) slash))]
  obtain ⟨lead, next⟩ := span_fill names (fun _ => blank_of_part) cs
  rw [lead, next]
  rfl

/-! ### Runs of name characters -/

theorem runOf_known (known : runOf cs = .known) : (cs.takeWhile isNamePart).any isHole = false := by
  unfold runOf at known
  split at known
  · rename_i h run
    split at known
    · cases known
    · rename_i clear
      simpa [run] using clear
  · split at known
    · cases known
    · rename_i clear
      exact Bool.eq_false_iff.mpr clear

theorem runOf_hole (hole : runOf cs = .hole h) : isHole h = true ∧
    cs.takeWhile isNamePart = [h] ∧ cs = h :: cs.dropWhile isNamePart := by
  unfold runOf at hole
  split at hole
  · rename_i h' run
    split at hole
    · cases hole
      refine ⟨‹_›, run, ?_⟩
      have parted := List.takeWhile_append_dropWhile (p := isNamePart) (l := cs)
      rw [run] at parted
      exact parted.symm
    · cases hole
  · split at hole <;> cases hole

/-- Where the run of name characters is known, it stands at the front and has no holes. -/
theorem run_front (known : runOf cs = .known) : ∃ front rest, cs = front ++ rest ∧
    front.length = (cs.takeWhile isNamePart).length ∧ front.any isHole = false :=
  ⟨_, _, List.takeWhile_append_dropWhile.symm, rfl, runOf_known known⟩

section
variable (names : Names σ choice)

include names

theorem run_fill_known (known : runOf cs = .known) :
    (fill σ cs).takeWhile isNamePart = cs.takeWhile isNamePart := by
  rw [(run_fill names).1, fill_clear (runOf_known known)]

theorem run_fill_hole (hole : runOf cs = .hole h) : (fill σ cs).takeWhile isNamePart = σ h ∧
    fill σ cs = σ h ++ fill σ (cs.dropWhile isNamePart) := by
  obtain ⟨hole, run, whole⟩ := runOf_hole hole
  constructor
  · rw [(run_fill names).1, run, fill_hole hole, fill_nil, List.append_nil]
  · exact (congrArg (fill σ) whole).trans (fill_hole hole)

/-- The first character is the same if a name begins with it in the sketch. -/
theorem head?_fill_known (known : runOf cs = .known) :
    (fill σ cs).head?.any isNameStart = cs.head?.any isNameStart := by
  cases cs with
  | nil => rfl
  | cons c cs =>
    obtain ⟨d, ds, filled, ⟨-, rfl, -⟩ | ⟨hole, -⟩⟩ := fill_head names c cs
    · rw [filled]
      rfl
    · have clear := runOf_known known
      rw [List.takeWhile_cons_of_pos (part_of_hole hole), List.any_cons, hole] at clear
      cases clear

theorem head?_fill_hole (hole : runOf cs = .hole h) : (fill σ cs).head?.any isNameStart = true := by
  obtain ⟨c, more, spelled, start⟩ := names.start h (runOf_hole hole).1
  rw [(run_fill_hole names hole).2, spelled]
  exact start

end

/-! ### Marks and words -/

theorem clear_of_marks (marks : cs.all isPunctuation = true) : cs.any isHole = false := by
  rw [List.any_eq_false]
  intro c member hole
  exact ne_of_part (List.all_eq_true.mp marks c member) (part_of_hole hole) rfl

theorem marks_punctuation : ∀ m ∈ marks, m.all isPunctuation = true := by
  decide

/-- What stands at the front of the sketch has no holes if it is made of marks. -/
theorem marks_front (mark : m.toList.all isPunctuation = true)
    (front : m.toList.isPrefixOf cs = true) : ∃ front rest, cs = front ++ rest ∧
      front.length = m.toList.length ∧ front.any isHole = false := by
  obtain ⟨rest, whole⟩ := List.isPrefixOf_iff_prefix.mp front
  exact ⟨m.toList, rest, whole.symm, rfl, clear_of_marks mark⟩

section
variable (names : Names σ choice)

include names

theorem mark?_fill (mark : m.toList.all isPunctuation = true) :
    mark? m.toList (fill σ cs) = mark? m.toList cs := by
  have longer : (marks.any fun l => m.toList.length < l.length && l.isPrefixOf (fill σ cs)) =
      marks.any fun l => m.toList.length < l.length && l.isPrefixOf cs := by
    rw [Bool.eq_iff_iff, List.any_eq_true, List.any_eq_true]
    refine exists_congr fun l => and_congr_right fun member => ?_
    rw [isPrefixOf_fill names (marks_punctuation l member)]
  rw [mark?, mark?, isPrefixOf_fill names mark, longer]

theorem scan_mark (mark : m.toList.all isPunctuation = true) :
    (Token.mark m).scan (s.fill σ) = ((Token.mark m).scan s).map (filled σ) := by
  rw [Token.scan, Token.scan, Spot.fill_next, mark?_fill names mark]
  refine Spot.map_leaf_fill .mark fun n found => ?_
  unfold mark? at found
  split at found
  · split at found
    · cases found
    · cases found
      exact marks_front mark ‹_›
  · cases found

theorem scan_exact (mark : m.toList.all isPunctuation = true) :
    (Token.exact m).scan (s.fill σ) = ((Token.exact m).scan s).map (filled σ) := by
  rw [Token.scan, Token.scan]
  simp only [Spot.fill, isPrefixOf_fill names mark]
  split
  · obtain ⟨front, rest, parted, size, clear⟩ := marks_front mark ‹_›
    rw [← String.length_toList, ← size, Option.map_some, ← Spot.leaf_fill parted clear]
    rfl
  · rfl

theorem scan_words {found : List (Option (Tree × List Char))} (inside : s.InPlain)
    (guessed : guessWords choice words s = some found) : ∃ o ∈ found,
      (Token.oneOf words).scan (s.fill σ) = o.map (filled σ) := by
  have here : '\\' ∉ s.next := inside.next.absent (by decide)
  have there : '\\' ∉ fill σ s.next := not_mem_fill names (by decide) here
  unfold guessWords at guessed
  split at guessed
  · rename_i known
    rw [Token.scan, Spot.fill_next, findWord_eq known there]
    split at guessed
    · rename_i run
      cases guessed
      refine ⟨_, List.mem_singleton_self _, ?_⟩
      rw [findWord_eq known here, run_fill_known names run]
      refine Spot.map_leaf_fill .mark fun n found => ?_
      split at found
      · cases found
        exact run_front run
      · cases found
    · rename_i h run
      cases guessed
      obtain ⟨runs, whole⟩ := run_fill_hole names run
      obtain ⟨hole, -, -⟩ := runOf_hole run
      rw [runs]
      cases met : words.any (·.toList = σ h) with
      | false =>
        refine ⟨none, List.mem_append_left _ ?_, rfl⟩
        rw [names.not_within hole met]
        exact List.mem_singleton_self _
      | true =>
        obtain ⟨w, member, spelled⟩ := List.any_eq_true.mp met
        have spelled : w.toList = σ h := of_decide_eq_true spelled
        refine ⟨_, List.mem_append_right _ (List.mem_map.mpr ⟨w, List.mem_filter.mpr
          ⟨member, names.allows_word hole spelled⟩, rfl⟩), ?_⟩
        rw [if_pos rfl, Option.map_some, Spot.leaf_eq whole, spelled]
        rfl
    · cases guessed
  · cases guessed

/-! ### Names -/

theorem scan_name {reserved : List String} {found : List (Option (Tree × List Char))}
    (inside : s.InPlain) (guessed : guess choice (.name reserved) s = some found) :
    ∃ o ∈ found, (Token.name reserved).scan (s.fill σ) = o.map (filled σ) := by
  have here : '\\' ∉ s.next := inside.next.absent (by decide)
  have there : '\\' ∉ fill σ s.next := not_mem_fill names (by decide) here
  rw [Token.scan, Spot.fill_next, name?_eq there]
  rw [guess] at guessed
  split at guessed
  · rename_i run
    cases guessed
    refine ⟨_, List.mem_singleton_self _, ?_⟩
    rw [Token.scan, name?_eq here, head?_fill_known names run, run_fill_known names run]
    obtain ⟨front, rest, parted, size, clear⟩ := run_front run
    split
    · have spelled : (fill σ s.next).take front.length = s.next.take front.length := by
        rw [parted, fill_append, fill_clear clear, List.take_left, List.take_left]
      rw [Option.bind_some, Option.bind_some, ← size, spelled]
      split
      · rfl
      · rw [Option.map_some, Spot.leaf_fill parted clear]
    · rfl
  · rename_i h run
    cases guessed
    obtain ⟨hole, -, front⟩ := runOf_hole run
    obtain ⟨runs, whole⟩ := run_fill_hole names run
    have spelled : (fill σ s.next).take (σ h).length = σ h := by
      rw [whole, List.take_left]
    rw [if_pos (head?_fill_hole names run), runs, Option.bind_some, spelled]
    cases met : reserved.any (·.toList = σ h) with
    | true =>
      obtain ⟨w, member, spelled⟩ := List.any_eq_true.mp met
      have may : reserved.any (choice h).allows = true := List.any_eq_true.mpr
        ⟨w, member, names.allows_word hole (of_decide_eq_true spelled)⟩
      refine ⟨none, List.mem_append_right _ ?_, rfl⟩
      rw [if_pos may]
      exact List.mem_singleton_self _
    | false =>
      refine ⟨some (s.leaf .name 1), List.mem_append_left _ ?_, ?_⟩
      · rw [names.not_within hole met]
        exact List.mem_singleton_self _
      have alone : s.leaf .name 1 = (.leaf .name s.lead [h], s.next.dropWhile isNamePart) :=
        Spot.leaf_eq (show s.next = [h] ++ s.next.dropWhile isNamePart from front) .name
      rw [if_neg Bool.false_ne_true, Spot.leaf_eq whole, alone, Option.map_some, filled,
        Tree.mapNames, fill_hole hole, fill_nil, List.append_nil]
      rfl
  · cases guessed

theorem scan_property {found : List (Option (Tree × List Char))} (inside : s.InPlain)
    (guessed : guess choice .property s = some found) :
    ∃ o ∈ found, Token.property.scan (s.fill σ) = o.map (filled σ) := by
  have here : '\\' ∉ s.next := inside.next.absent (by decide)
  have there : '\\' ∉ fill σ s.next := not_mem_fill names (by decide) here
  have blanks : ∀ cs, (fill σ cs).takeWhile isPlainBlank = cs.takeWhile isPlainBlank :=
    fun cs => (span_fill names (fun _ => plainBlank_of_part) cs).1
  rw [Token.scan, Spot.fill_next, name?_eq there, isGetLine_eq, (run_fill names).2, blanks]
  rw [guess] at guessed
  split at guessed
  · rename_i run
    cases guessed
    refine ⟨_, List.mem_singleton_self _, ?_⟩
    rw [Token.scan, name?_eq here, isGetLine_eq, head?_fill_known names run,
      run_fill_known names run]
    obtain ⟨front, rest, parted, size, clear⟩ := run_front run
    split
    · rw [Option.bind_some, Option.bind_some, ← size]
      split
      · rfl
      · rw [Option.map_some, Spot.leaf_fill parted clear]
    · rfl
  · rename_i h run
    split at guessed
    · cases guessed
    · rename_i sameLine
      cases guessed
      obtain ⟨hole, one, front⟩ := runOf_hole run
      obtain ⟨runs, whole⟩ := run_fill_hole names run
      have alone : s.leaf .name 1 = (.leaf .name s.lead [h], s.next.dropWhile isNamePart) :=
        Spot.leaf_eq (show s.next = [h] ++ s.next.dropWhile isNamePart from front) .name
      refine ⟨_, List.mem_singleton_self _, ?_⟩
      rw [if_pos (head?_fill_hole names run), runs, Option.bind_some,
        Bool.eq_false_iff.mpr sameLine, Bool.and_false, if_neg Bool.false_ne_true,
        Spot.leaf_eq whole, alone, Option.map_some, filled, Tree.mapNames, fill_hole hole, fill_nil,
        List.append_nil]
      rfl
  · cases guessed

/-! ### Strings -/

theorem scan_string {found : List (Option (Tree × List Char))} (inside : s.InPlain)
    (guessed : guess choice .string s = some found) :
    ∃ o ∈ found, Token.string.scan (s.fill σ) = o.map (filled σ) := by
  have here : '\\' ∉ s.next := inside.next.absent (by decide)
  rw [guess] at guessed
  split at guessed
  · split at guessed
    · rename_i n read
      split at guessed
      · cases guessed
      · rename_i clear
        cases guessed
        obtain ⟨front, rest, parted, rfl, known⟩ := string?_local here read
        rw [parted, List.take_left] at clear
        have clear : front.any isHole = false := Bool.eq_false_iff.mpr clear
        have again : string? (s.fill σ).next = some front.length := by
          rw [Spot.fill, parted, fill_append, fill_clear clear, known]
        refine ⟨_, List.mem_singleton_self _, ?_⟩
        rw [Token.scan, again, Option.map_some, Option.map_some, Spot.leaf_fill parted clear]
    · cases guessed
  · rename_i other
    cases guessed
    have unquoted : ∀ c, isNameStart c = true → (c = '"' || c = '\'') = false := by
      intro c start
      rw [Bool.or_eq_false_iff, decide_eq_false_iff_not, decide_eq_false_iff_not]
      have part := part_of_start start
      exact ⟨ne_of_part (by decide) part, ne_of_part (by decide) part⟩
    have unquoted : (fill σ s.next).head?.any (fun c => c = '"' || c = '\'') = false :=
      (head?_any_fill names unquoted).trans (Bool.eq_false_iff.mpr other)
    refine ⟨none, List.mem_singleton_self _, ?_⟩
    rw [Token.scan, Spot.fill_next, string?_eq_none unquoted]
    rfl

/-! ### Lexemes that plain texts have none of -/

theorem digit_fill (plain : Plain cs) : (fill σ cs).head?.any Char.isDigit = false := by
  have other : ∀ c, isNameStart c = true → c.isDigit = false := by
    intro c start
    rw [isNameStart, Bool.and_eq_true, Bool.not_eq_true'] at start
    exact start.2
  rw [head?_any_fill names other]
  cases cs with
  | nil => rfl
  | cons c cs =>
    have first := plain c List.mem_cons_self
    rw [isPlain, Bool.and_eq_true, Bool.not_eq_true'] at first
    exact first.1

theorem tame_fill (inside : s.InPlain) : (s.fill σ).Tame where
  lead := inside.lead
  solid := (head?_any_fill names fun _ start => blank_of_part (part_of_start start)).trans
    inside.begins
  mark p other mark := head?_ne (not_mem_fill names mark (inside.next.absent other))
  digit := digit_fill names inside.next
  point rest whole := by
    have plain := inside.next
    rw [Spot.fill_next] at whole
    generalize s.next = cs at whole plain
    cases cs with
    | nil => cases whole
    | cons c cs =>
      obtain ⟨d, ds, filled, ⟨-, -, rfl⟩ | ⟨-, start⟩⟩ := fill_head names c cs
      · cases filled.symm.trans whole
        exact digit_fill names (plain.sublist fun _ => List.mem_cons_of_mem _)
      · cases filled.symm.trans whole
        cases start

/-! ### Ends -/

theorem scan_finish (s : Spot) :
    Token.finish.scan (s.fill σ) = (Token.finish.scan s).map (filled σ) := by
  rw [Token.scan, Token.scan]
  simp only [Spot.fill_next, fill_eq_nil names]
  split
  · rename_i empty
    simp [Spot.leaf, empty, filled, Tree.mapNames, Spot.fill]
  · rfl

/-- Whether a new line starts afresh is the same once the holes are filled, where it is known. -/
theorem startsAfresh_fill (plain : Plain cs) (known : startsKnown cs = true) :
    startsAfresh (fill σ cs) = startsAfresh cs := by
  cases cs with
  | nil => rfl
  | cons c cs =>
    have solid : isHole c = false := startsKnown_head known
    rw [fill_cons solid]
    by_cases listed : c ∈ ['.', '+', '-', '!', 'i']
    · simp only [List.mem_cons, List.not_mem_nil, or_false] at listed
      rcases listed with rfl | rfl | rfl | rfl | rfl
      · exact head?_any_fill names fun c start => by
          rw [isNameStart, Bool.and_eq_true, Bool.not_eq_true'] at start
          exact start.2
      · exact decide_eq_decide.mpr (head?_fill names (by decide))
      · cases plain '-' List.mem_cons_self
      · exact decide_eq_decide.mpr (not_congr (head?_fill names (by decide)))
      · cases cs with
        | nil => rfl
        | cons d cs =>
          rw [startsKnown, Bool.and_eq_true, decide_eq_true_eq, Bool.not_eq_true'] at known
          rw [fill_cons known.2, startsAfresh_word known.1, startsAfresh_word known.1]
    · rw [startsAfresh_other listed, startsAfresh_other listed]

theorem scan_statementEnd {afterValue : Bool} {found : List (Option (Tree × List Char))}
    (inside : s.InPlain) (guessed : guess choice (.statementEnd afterValue) s = some found) :
    ∃ o ∈ found, (Token.statementEnd afterValue).scan (s.fill σ) = o.map (filled σ) := by
  rw [guess] at guessed
  split at guessed
  · rename_i known
    cases guessed
    rw [Bool.and_eq_true, Bool.or_eq_true, Bool.not_eq_true', List.all_eq_true] at known
    obtain ⟨blanks, known⟩ := known
    have there := tame_fill names inside
    have ends : statementEnds afterValue (s.fill σ).here = statementEnds afterValue s.here := by
      rw [Spot.here, Spot.here,
        statementEnds_eq _ blanks inside.begins (head?_ne (inside.next.absent (by decide))),
        statementEnds_eq _ (show ∀ c ∈ (s.fill σ).lead, isPlainBlank c = true from blanks)
          there.solid (there.mark '/' (by decide) (by decide)), Spot.fill]
      split
      · rename_i line
        rw [line] at known
        exact startsAfresh_fill names inside.next (known.resolve_left (by decide))
      · simp only [fill_eq_nil names, head?_fill names (p := '\x7d') (by decide)]
    refine ⟨_, List.mem_singleton_self _, ?_⟩
    rw [Token.scan, Token.scan, ends]
    split
    · rw [Option.map_some, Spot.leafHere, Spot.here_fill inside]
      rfl
    · rfl
  · cases guessed

/-! ### Every class -/

theorem scan_guess {t : Token} {found : List (Option (Tree × List Char))} (inside : s.InPlain)
    (guessed : guess choice t s = some found) :
    ∃ o ∈ found, t.scan (s.fill σ) = o.map (filled σ) := by
  cases t with
  | mark m =>
    rw [guess] at guessed
    split at guessed <;> cases guessed
    exact ⟨_, List.mem_singleton_self _, scan_mark names ‹_›⟩
  | exact m =>
    rw [guess] at guessed
    split at guessed <;> cases guessed
    exact ⟨_, List.mem_singleton_self _, scan_exact names ‹_›⟩
  | word w =>
    obtain ⟨o, among, scanned⟩ := scan_words names inside guessed
    refine ⟨o, among, ?_⟩
    rw [← scanned, Token.scan, Token.scan, List.findSome?_cons]
    cases word? w.toList (s.fill σ).next <;> rfl
  | oneOf words => exact scan_words names inside guessed
  | name reserved => exact scan_name names inside guessed
  | property => exact scan_property names inside guessed
  | string => exact scan_string names inside guessed
  | statementEnd afterValue => exact scan_statementEnd names inside guessed
  | finish =>
    cases guessed
    exact ⟨_, List.mem_singleton_self _, scan_finish names s⟩
  | privateName | number | regex | condition | aside | interpreterLine =>
    cases guessed
    exact ⟨none, List.mem_singleton_self _, Token.scan_absent (tame_fill names inside) (by simp)⟩
  | templateChars | templateMark | markupName | markupText | markupString | reference =>
    cases guessed

end

theorem Spot.leaf_suffix {leaf : Tree} {n : Nat} (same : s.leaf k n = (leaf, rest)) :
    rest <:+ s.here := by
  cases same
  exact (List.drop_suffix ..).trans (List.suffix_append ..)

theorem Token.scan_suffix {t : Token} {leaf : Tree} (scanned : t.scan s = some (leaf, rest)) :
    rest <:+ s.here :=
  ⟨_, Token.scan_text scanned⟩

theorem guessWords_suffix {found : List (Option (Tree × List Char))} {leaf : Tree}
    (guessed : guessWords choice words s = some found) (among : some (leaf, rest) ∈ found) :
    rest <:+ s.here := by
  unfold guessWords at guessed
  split at guessed
  · split at guessed <;> cases guessed
    · obtain ⟨n, -, same⟩ := Option.map_eq_some_iff.mp (List.mem_singleton.mp among).symm
      exact Spot.leaf_suffix same
    · rcases List.mem_append.mp among with none | word
      · split at none <;> simp at none
      · obtain ⟨w, -, same⟩ := List.mem_map.mp word
        cases same
        exact (List.dropWhile_suffix _).trans (List.suffix_append ..)
  · cases guessed

/-- Whatever is found, reading goes on in the same text. -/
theorem guess_suffix {t : Token} {found : List (Option (Tree × List Char))} {leaf : Tree}
    (guessed : guess choice t s = some found) (among : some (leaf, rest) ∈ found) :
    rest <:+ s.here := by
  cases t with
  | mark | exact =>
    rw [guess] at guessed
    split at guessed <;> cases guessed
    exact Token.scan_suffix (List.mem_singleton.mp among).symm
  | word w => exact guessWords_suffix guessed among
  | oneOf words => exact guessWords_suffix guessed among
  | name reserved =>
    rw [guess] at guessed
    split at guessed <;> cases guessed
    · exact Token.scan_suffix (List.mem_singleton.mp among).symm
    · rcases List.mem_append.mp among with name | none
      · split at name
        · cases name
        · exact Spot.leaf_suffix (Option.some.inj (List.mem_singleton.mp name)).symm
      · split at none <;> simp at none
  | property =>
    rw [guess] at guessed
    split at guessed
    · cases guessed
      exact Token.scan_suffix (List.mem_singleton.mp among).symm
    · split at guessed <;> cases guessed
      exact Spot.leaf_suffix (Option.some.inj (List.mem_singleton.mp among)).symm
    · cases guessed
  | string =>
    rw [guess] at guessed
    split at guessed
    · split at guessed
      · split at guessed <;> cases guessed
        exact Spot.leaf_suffix (Option.some.inj (List.mem_singleton.mp among)).symm
      · cases guessed
    · cases guessed
      cases List.mem_singleton.mp among
  | statementEnd afterValue =>
    rw [guess] at guessed
    split at guessed <;> cases guessed
    exact Token.scan_suffix (List.mem_singleton.mp among).symm
  | finish =>
    cases guessed
    exact Token.scan_suffix (List.mem_singleton.mp among).symm
  | privateName | number | regex | condition | aside | interpreterLine =>
    cases guessed
    cases List.mem_singleton.mp among
  | templateChars | templateMark | markupName | markupText | markupString | reference =>
    cases guessed

/-- The guess is right about plain texts, whatever names go into the holes. -/
theorem guess_right (names : Names σ choice) :
    (guess choice).Right grammar (fill σ) (fill σ) Plain where
  blind := grammar_blind
  scan t cs found plain guessed := by
    have inside := Spot.inPlain_of plain
    obtain ⟨o, among, scanned⟩ := scan_guess names inside guessed
    refine ⟨o, among, ?_, fun leaf rest same => ?_⟩
    · rw [Spot.of_fill names plain]
      exact scanned
    · have suffix := guess_suffix guessed (same ▸ among)
      exact inside.plain.sublist fun _ member => suffix.mem member

end

end BundleMerge.Script
