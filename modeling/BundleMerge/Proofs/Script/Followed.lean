import BundleMerge.Proofs.Script.Guess

/-! Sketches with another text behind them. Where a line of the sketch has still to end, nothing
that follows the sketch makes a difference to what a scan finds. -/
namespace BundleMerge.Script

/-! ### Lexemes that end before a line does -/

section
variable {xs more m : List Char} {P : Char → Bool} {c quote : Char} {w : String} {n : Nat}

theorem head?_append (nonempty : xs ≠ []) : (xs ++ more).head? = xs.head? := by
  cases xs with
  | nil => contradiction
  | cons c cs => rfl

theorem isPrefixOf_append (line : '\n' ∈ xs) (inLine : '\n' ∉ m) :
    m.isPrefixOf (xs ++ more) = m.isPrefixOf xs := by
  rw [Bool.eq_iff_iff, List.isPrefixOf_iff_prefix, List.isPrefixOf_iff_prefix]
  refine ⟨fun front => ?_, fun front => front.trans (List.prefix_append ..)⟩
  rcases List.prefix_or_prefix_of_prefix front (List.prefix_append xs more) with short | long
  · exact short
  · exact absurd (long.mem line) inLine

/-- A stretch that ends within a text ends there whatever follows. -/
theorem span_append (ends : xs.dropWhile P ≠ []) (more : List Char) :
    (xs ++ more).takeWhile P = xs.takeWhile P ∧
      (xs ++ more).dropWhile P = xs.dropWhile P ++ more := by
  induction xs with
  | nil => exact absurd rfl ends
  | cons c cs ih =>
    cases inside : P c with
    | false => simp [inside]
    | true =>
      rw [List.dropWhile_cons_of_pos inside] at ends
      simp [inside, ih ends]

theorem mem_dropWhile (member : c ∈ xs) (stops : P c = false) : c ∈ xs.dropWhile P := by
  rw [← List.takeWhile_append_dropWhile (p := P) (l := xs), List.mem_append] at member
  refine member.resolve_left fun inside => ?_
  cases (List.all_eq_true.mp List.all_takeWhile c inside).symm.trans stops

theorem line_span (line : '\n' ∈ xs) (stops : P '\n' = false) : xs.dropWhile P ≠ [] :=
  List.ne_nil_of_mem (mem_dropWhile line stops)

/-- Whether a line ends within a stretch is told by the text in which it ends. -/
theorem contains_takeWhile_append (line : '\n' ∈ xs) :
    ((xs ++ more).takeWhile P).contains '\n' = (xs.takeWhile P).contains '\n' := by
  induction xs with
  | nil => cases line
  | cons c cs ih =>
    cases inside : P c with
    | false => simp [inside]
    | true =>
      rcases List.mem_cons.mp line with rfl | later
      · simp [inside]
      · have rest := ih later
        simp only [List.contains_eq_mem] at rest ⊢
        simp [inside, rest]

theorem newline_not_mark (marks : m.all isPunctuation = true) : '\n' ∉ m := fun member =>
  absurd (List.all_eq_true.mp marks '\n' member) (by decide)

theorem newline_not_word (word : isWord w = true) : '\n' ∉ w.toList := by
  rw [isWord, Bool.and_eq_true] at word
  exact fun member => absurd (List.all_eq_true.mp word.2 '\n' member) (by decide)

theorem mark?_append (line : '\n' ∈ xs) (mark : m.all isPunctuation = true) :
    mark? m (xs ++ more) = mark? m xs := by
  have longer : (marks.any fun l => m.length < l.length && l.isPrefixOf (xs ++ more)) =
      marks.any fun l => m.length < l.length && l.isPrefixOf xs := by
    rw [Bool.eq_iff_iff, List.any_eq_true, List.any_eq_true]
    refine exists_congr fun l => and_congr_right fun member => ?_
    rw [isPrefixOf_append line (newline_not_mark (marks_punctuation l member))]
  rw [mark?, mark?, isPrefixOf_append line (newline_not_mark mark), longer]

/-! Without a backslash, the run of name characters tells which name or word it is. -/

section
variable (line : '\n' ∈ xs) (backslash : '\\' ∉ xs)

include line backslash

theorem no_escape (more : List Char) :
    unicodeEscape? (xs ++ more) = none ∧ unicodeEscape? xs = none := by
  have first : (xs ++ more).head? ≠ some '\\' := by
    rw [head?_append (List.ne_nil_of_mem line)]
    exact head?_ne backslash
  exact ⟨unicodeEscape?_eq_none first, unicodeEscape?_eq_none (head?_ne backslash)⟩

theorem nameRest_append : nameRest 0 (xs ++ more) = nameRest 0 xs := by
  induction xs with
  | nil => cases line
  | cons c cs ih =>
    have escapes := no_escape line backslash more
    rw [List.cons_append] at escapes ⊢
    rw [nameRest, nameRest, escapes.1, escapes.2]
    cases part : isNamePart c with
    | false => rfl
    | true =>
      have other : '\n' ≠ c := by
        rintro rfl
        cases part
      rw [if_pos rfl, if_pos rfl, ih ((List.mem_cons.mp line).resolve_left other)
        fun member => backslash (List.mem_cons_of_mem _ member)]

theorem name?_append : name? (xs ++ more) = name? xs := by
  cases xs with
  | nil => cases line
  | cons c cs =>
    have escapes := no_escape line backslash more
    rw [List.cons_append] at escapes ⊢
    rw [name?, name?, escapes.1, escapes.2]
    cases start : isNameStart c with
    | false => rfl
    | true =>
      have other : '\n' ≠ c := by
        rintro rfl
        cases start
      rw [if_pos rfl, if_pos rfl, nameRest_append ((List.mem_cons.mp line).resolve_left other)
        fun member => backslash (List.mem_cons_of_mem _ member)]

theorem word?_append (word : isWord w = true) :
    word? w.toList (xs ++ more) = word? w.toList xs := by
  rw [word?, word?, isPrefixOf_append line (newline_not_word word)]
  split
  · rename_i front
    obtain ⟨rest, rfl⟩ := List.isPrefixOf_iff_prefix.mp front
    have later : '\n' ∈ rest := (List.mem_append.mp line).resolve_left (newline_not_word word)
    have escapes := no_escape later
      (fun member => backslash (List.mem_append_right _ member)) more
    rw [List.append_assoc, List.drop_left, List.drop_left]
    dsimp only
    rw [head?_append (List.ne_nil_of_mem later), escapes.1, escapes.2]
  · rfl

theorem findWord_append {words : List String} (known : words.all isWord = true) :
    (words.findSome? fun w => word? w.toList (xs ++ more)) =
      words.findSome? fun w => word? w.toList xs := by
  induction words with
  | nil => rfl
  | cons w words ih =>
    rw [List.all_cons, Bool.and_eq_true] at known
    rw [List.findSome?_cons, List.findSome?_cons, word?_append line backslash known.1, ih known.2]

theorem stringRest_append :
    stringRest quote 0 (xs ++ more) = stringRest quote 0 xs := by
  induction xs with
  | nil => cases line
  | cons c cs ih =>
    have solid : c ≠ '\\' := fun same => backslash (by simp [same])
    rw [List.cons_append, stringRest, stringRest, if_neg solid, if_neg solid]
    split
    · rfl
    · split
      · rfl
      · rename_i inside
        have other : '\n' ≠ c := by
          rintro rfl
          exact inside rfl
        rw [ih ((List.mem_cons.mp line).resolve_left other)
          fun member => backslash (List.mem_cons_of_mem _ member)]

theorem string?_append : string? (xs ++ more) = string? xs := by
  cases xs with
  | nil => cases line
  | cons c cs =>
    rw [List.cons_append, string?, string?]
    split
    · rename_i quote
      have other : '\n' ≠ c := by
        rintro rfl
        cases quote
      rw [stringRest_append ((List.mem_cons.mp line).resolve_left other)
        fun member => backslash (List.mem_cons_of_mem _ member)]
    · rfl

end

theorem isGetLine_append (line : '\n' ∈ xs) : isGetLine (xs ++ more) = isGetLine xs := by
  obtain ⟨run, after⟩ := span_append (line_span line (P := isNamePart) (by decide)) more
  rw [isGetLine_eq, isGetLine_eq, run, after,
    contains_takeWhile_append (mem_dropWhile line (by decide))]

/-- A line that starts with `in` starts afresh if this is part of another word than an operator. -/
theorem inWord_append (line : '\n' ∈ xs) :
    startsAfresh ('i' :: 'n' :: (xs ++ more)) = startsAfresh ('i' :: 'n' :: xs) := by
  have other : '\n' ∉ "stanceof".toList := by decide
  rw [startsAfresh, startsAfresh, head?_append (List.ne_nil_of_mem line),
    isPrefixOf_append line other]
  split
  · rfl
  · split
    · rename_i front
      obtain ⟨rest, rfl⟩ := List.isPrefixOf_iff_prefix.mp front
      have later : '\n' ∈ rest := (List.mem_append.mp line).resolve_left other
      rw [List.append_assoc]
      exact congrArg (Option.any isLetter) (head?_append (List.ne_nil_of_mem later))
    · rfl

theorem startsAfresh_append (line : '\n' ∈ xs) : startsAfresh (xs ++ more) = startsAfresh xs := by
  cases xs with
  | nil => cases line
  | cons c cs =>
    rw [List.cons_append]
    by_cases listed : c ∈ ['.', '+', '-', '!', 'i']
    · have later : '\n' ∈ cs := by
        refine (List.mem_cons.mp line).resolve_left ?_
        rintro rfl
        revert listed
        decide
      have first : (cs ++ more).head? = cs.head? := head?_append (List.ne_nil_of_mem later)
      simp only [List.mem_cons, List.not_mem_nil, or_false] at listed
      rcases listed with rfl | rfl | rfl | rfl | rfl
      · rw [startsAfresh, startsAfresh, first]
      · rw [startsAfresh, startsAfresh, first]
      · rw [startsAfresh, startsAfresh, first]
      · rw [startsAfresh, startsAfresh, first]
      · cases cs with
        | nil => cases later
        | cons d ds =>
          by_cases word : d = 'n'
          · subst word
            exact inWord_append ((List.mem_cons.mp later).resolve_left (by decide))
          · rw [List.cons_append, startsAfresh_word word, startsAfresh_word word]
    · rw [startsAfresh_other listed, startsAfresh_other listed]

end

/-! ### Spots with another text behind -/

/-- The spot with another text behind it. -/
def Spot.before (s : Spot) (more : List Char) : Spot :=
  ⟨s.lead, s.next ++ more⟩

/-- What a scan has found, with another text behind it. -/
def followed (more : List Char) (found : Tree × List Char) : Tree × List Char :=
  (found.1, found.2 ++ more)

section
variable {s : Spot} {xs more cs : List Char} {k : LeafKind} {t : Token}

@[simp] theorem Spot.before_next (s : Spot) (more : List Char) :
    (s.before more).next = s.next ++ more := rfl

theorem Spot.leaf_before {n : Nat} (k : LeafKind) (inside : n ≤ s.next.length) :
    (s.before more).leaf k n = followed more (s.leaf k n) := by
  rw [Spot.leaf, Spot.before, List.take_append_of_le_length inside,
    List.drop_append_of_le_length inside]
  rfl

theorem Spot.map_leaf_before {found : Option Nat} (k : LeafKind)
    (inside : ∀ n, found = some n → n ≤ s.next.length) :
    found.map ((s.before more).leaf k) = (found.map (s.leaf k)).map (followed more) := by
  cases found with
  | none => rfl
  | some n => exact congrArg some (Spot.leaf_before k (inside n rfl))

/-- What follows a lexeme makes no difference to the gap before it. -/
theorem Spot.of_append (slash : '/' ∉ xs) (next : (Spot.of xs).next ≠ []) :
    Spot.of (xs ++ more) = (Spot.of xs).before more := by
  have parted := Spot.of_eq (head?_dropWhile_ne isBlank slash)
  rw [parted] at next ⊢
  obtain ⟨lead, rest⟩ := span_append next more
  have slash' : ((xs ++ more).dropWhile isBlank).head? ≠ some '/' := by
    rw [rest, head?_append next]
    exact head?_dropWhile_ne isBlank slash
  rw [Spot.of_eq slash', lead, rest]
  rfl

theorem Spot.Tame.before (tame : s.Tame) (line : '\n' ∈ s.next) : (s.before more).Tame where
  lead := tame.lead
  solid := by
    rw [Spot.before_next, head?_append (List.ne_nil_of_mem line)]
    exact tame.solid
  mark p other mark := by
    rw [Spot.before_next, head?_append (List.ne_nil_of_mem line)]
    exact tame.mark p other mark
  digit := by
    rw [Spot.before_next, head?_append (List.ne_nil_of_mem line)]
    exact tame.digit
  point rest whole := by
    have point := tame.point
    rw [Spot.before_next] at whole
    generalize s.next = xs at line point whole
    cases xs with
    | nil => cases line
    | cons c cs =>
      cases whole
      have later : '\n' ∈ cs := (List.mem_cons.mp line).resolve_left (by decide)
      exact (congrArg (Option.any Char.isDigit) (head?_append (List.ne_nil_of_mem later))).trans
        (point cs rfl)

/-! ### Lexemes with another text behind -/

theorem mark?_le {m : List Char} {n : Nat} (found : mark? m xs = some n) : n ≤ xs.length := by
  unfold mark? at found
  split at found
  · rename_i front
    split at found <;> cases found
    exact (List.isPrefixOf_iff_prefix.mp front).length_le
  · cases found

theorem word?_le {w : List Char} {n : Nat} (found : word? w xs = some n) : n ≤ xs.length := by
  unfold word? at found
  split at found
  · rename_i front
    dsimp only at found
    split at found <;> cases found
    exact (List.isPrefixOf_iff_prefix.mp front).length_le
  · cases found

theorem name?_le {n : Nat} (backslash : '\\' ∉ xs) (found : name? xs = some n) :
    n ≤ xs.length := by
  rw [name?_eq backslash] at found
  split at found <;> cases found
  exact (List.takeWhile_prefix _).length_le

theorem string?_le {n : Nat} (backslash : '\\' ∉ xs) (found : string? xs = some n) :
    n ≤ xs.length := by
  obtain ⟨front, rest, rfl, rfl, -⟩ := string?_local backslash found
  rw [List.length_append]
  exact Nat.le_add_right ..

/-- Lexemes of these classes are told by the line in which they are looked for, if it has still to
end. -/
def Token.staysInLine (t : Token) (s : Spot) : Bool :=
  match t with
  | .mark m | .exact m => m.toList.all isPunctuation
  | .word w => isWord w
  | .oneOf words => words.all isWord
  | .statementEnd _ => s.lead.all isPlainBlank
  | .templateChars | .templateMark _ | .markupName | .markupText | .markupString | .reference =>
    false
  | _ => true

theorem Token.scan_before (tame : s.Tame) (line : '\n' ∈ s.next) (backslash : '\\' ∉ s.next)
    (known : t.staysInLine s = true) : t.scan (s.before more) = (t.scan s).map (followed more) := by
  cases t with
  | mark m =>
    rw [Token.scan, Token.scan, Spot.before_next, mark?_append line known]
    exact Spot.map_leaf_before .mark fun n => mark?_le
  | exact m =>
    rw [Token.scan, Token.scan]
    simp only [Spot.before_next, isPrefixOf_append line (newline_not_mark known)]
    split
    · rename_i front
      refine congrArg some (Spot.leaf_before .mark ?_)
      rw [← String.length_toList]
      exact (List.isPrefixOf_iff_prefix.mp front).length_le
    · rfl
  | word w =>
    rw [Token.scan, Token.scan, Spot.before_next, word?_append line backslash known]
    exact Spot.map_leaf_before .mark fun n => word?_le
  | oneOf words =>
    rw [Token.scan, Token.scan, Spot.before_next, findWord_append line backslash known]
    refine Spot.map_leaf_before .mark fun n found => ?_
    obtain ⟨w, -, found⟩ := List.exists_of_findSome?_eq_some found
    exact word?_le found
  | name reserved =>
    rw [Token.scan, Token.scan, Spot.before_next, name?_append line backslash]
    cases named : name? s.next with
    | none => rfl
    | some n =>
      have inside := name?_le backslash named
      rw [Option.bind_some, Option.bind_some, List.take_append_of_le_length inside]
      split
      · rfl
      · exact congrArg some (Spot.leaf_before .name inside)
  | property =>
    rw [Token.scan, Token.scan, Spot.before_next, name?_append line backslash,
      isGetLine_append line]
    cases named : name? s.next with
    | none => rfl
    | some n =>
      rw [Option.bind_some, Option.bind_some]
      split
      · rfl
      · exact congrArg some (Spot.leaf_before .name (name?_le backslash named))
  | string =>
    rw [Token.scan, Token.scan, Spot.before_next, string?_append line backslash]
    exact Spot.map_leaf_before .literal fun n => string?_le backslash
  | statementEnd afterValue =>
    have blanks : ∀ c ∈ s.lead, isPlainBlank c = true := List.all_eq_true.mp known
    have there : (s.before more).Tame := tame.before line
    have nonempty := List.ne_nil_of_mem line
    have ends : statementEnds afterValue (s.before more).here =
        statementEnds afterValue s.here := by
      rw [Spot.here, Spot.here,
        statementEnds_eq _ blanks tame.solid (tame.mark '/' (by decide) (by decide)),
        statementEnds_eq _ (show ∀ c ∈ (s.before more).lead, isPlainBlank c = true from blanks)
          there.solid (there.mark '/' (by decide) (by decide)), Spot.before_next,
        startsAfresh_append line, head?_append nonempty]
      simp [nonempty, Spot.before]
    rw [Token.scan, Token.scan, ends]
    split
    · simp [Spot.leafHere, Spot.here, Spot.before, followed]
    · rfl
  | finish =>
    have nonempty := List.ne_nil_of_mem line
    rw [Token.scan, Token.scan, if_neg nonempty, Spot.before_next,
      if_neg (List.append_ne_nil_of_left_ne_nil nonempty more)]
    rfl
  | privateName | number | regex | condition | aside | interpreterLine =>
    rw [Token.scan_absent tame (by simp), Token.scan_absent (tame.before line) (by simp)]
    rfl
  | templateChars | templateMark | markupName | markupText | markupString | reference =>
    cases known

end

/-! ### The guess -/

/-- What a token may find at a spot of a sketch, as far as the line tells. -/
def guessInLine (choice : Char → Choice) : Guess Token := fun t s =>
  if '\n' ∈ s.next then guess choice t s else none

section
variable {σ : Char → List Char} {choice : Char → Choice} {s : Spot} {t : Token}
  {found : List (Option (Tree × List Char))} {c : Char} {cs : List Char}

theorem mem_fill_of (known : isHole c = false) (member : c ∈ cs) : c ∈ fill σ cs :=
  List.mem_flatMap.mpr ⟨c, member, by simp [known]⟩

theorem guessWords_isWord {words : List String}
    (guessed : guessWords choice words s = some found) : words.all isWord = true := by
  unfold guessWords at guessed
  split at guessed
  · rename_i known
    exact known
  · cases guessed

/-- Only lexemes that a line tells are guessed. -/
theorem staysInLine_of_guess (guessed : guess choice t s = some found) :
    t.staysInLine (s.fill σ) = true := by
  cases t with
  | mark m | exact m =>
    rw [guess] at guessed
    split at guessed
    · rename_i marks
      exact marks
    · cases guessed
  | word w => simpa [Token.staysInLine] using guessWords_isWord guessed
  | oneOf words => exact guessWords_isWord guessed
  | statementEnd afterValue =>
    rw [guess] at guessed
    split at guessed
    · rename_i known
      exact (Bool.and_eq_true_iff.mp known).1
    · cases guessed
  | templateChars | templateMark | markupName | markupText | markupString | reference =>
    cases guessed
  | name | property | string | finish | privateName | number | regex | condition | aside
  | interpreterLine => rfl

/-- Where a line has still to end, the guess is right about plain texts, whatever names go into the
holes and whatever follows. -/
theorem guess_right_followed (names : Names σ choice) (more : List Char) :
    (guessInLine choice).Right grammar (fill σ) (fun cs => fill σ cs ++ more) Plain where
  blind := grammar_blind
  scan t cs found plain guessed := by
    unfold guessInLine at guessed
    split at guessed
    · rename_i line
      obtain ⟨o, among, scanned, stays⟩ := (guess_right names).scan t cs found plain guessed
      refine ⟨o, among, ?_, stays⟩
      have inside := Spot.inPlain_of plain
      have line : '\n' ∈ fill σ (Spot.of cs).next := mem_fill_of (by decide) line
      have backslash : '\\' ∉ fill σ (Spot.of cs).next :=
        not_mem_fill names (by decide) (inside.next.absent (by decide))
      have slash : '/' ∉ fill σ cs := not_mem_fill names (by decide) (plain.absent (by decide))
      have there : Spot.of (fill σ cs ++ more) = ((Spot.of cs).fill σ).before more := by
        rw [Spot.of_append slash, Spot.of_fill names plain]
        rw [Spot.of_fill names plain]
        exact List.ne_nil_of_mem line
      rw [Spot.of_fill names plain] at scanned
      change t.scan _ = _ at scanned
      change t.scan _ = _
      rw [there, Token.scan_before (tame_fill names inside) line backslash
        (staysInLine_of_guess guessed), scanned, Option.map_map]
      rfl
    · cases guessed

end

end BundleMerge.Script
