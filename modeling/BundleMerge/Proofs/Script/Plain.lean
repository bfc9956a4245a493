import BundleMerge.Proofs.Script.Sketch

/-! Lexemes of texts without backslashes, slashes and the like. A name is a run of name characters
there, and a word is found where it is that run. -/
namespace BundleMerge.Script

/-! ### Names and words -/

def isWord (w : String) : Bool :=
  w.toList ≠ [] && w.toList.all isNamePart

section
variable {c : Char} {cs : List Char} {w : String} {words : List String} {n : Nat}

theorem unicodeEscape?_eq_none (backslash : cs.head? ≠ some '\\') : unicodeEscape? cs = none := by
  unfold unicodeEscape?
  split
  · simp at backslash
  · simp at backslash
  · rfl

theorem nameRest_eq (backslash : '\\' ∉ cs) :
    nameRest 0 cs = (cs.takeWhile isNamePart).length := by
  induction cs with
  | nil => rfl
  | cons c cs ih =>
    have others : '\\' ∉ cs := fun member => backslash (List.mem_cons_of_mem _ member)
    rw [nameRest, unicodeEscape?_eq_none (head?_ne backslash)]
    cases inside : isNamePart c with
    | true => simp [inside, ih others]
    | false => simp [inside]

/-- Without a backslash, a name is the run of name characters. -/
theorem name?_eq (backslash : '\\' ∉ cs) : name? cs =
    if cs.head?.any isNameStart then some (cs.takeWhile isNamePart).length else none := by
  cases cs with
  | nil => rfl
  | cons c cs =>
    have others : '\\' ∉ cs := fun member => backslash (List.mem_cons_of_mem _ member)
    rw [name?, unicodeEscape?_eq_none (head?_ne backslash), nameRest_eq others]
    cases start : isNameStart c with
    | true => simp [start, part_of_start start]
    | false => simp [start]

/-- Without a backslash, a word is found where it is the run of name characters. -/
theorem word?_eq (word : isWord w = true) (backslash : '\\' ∉ cs) : word? w.toList cs =
    if cs.takeWhile isNamePart = w.toList then some w.toList.length else none := by
  rw [isWord, Bool.and_eq_true, List.all_eq_true] at word
  obtain ⟨-, parts⟩ := word
  by_cases front : w.toList <+: cs
  · obtain ⟨rest, rfl⟩ := front
    have others : '\\' ∉ rest := fun member => backslash (List.mem_append_right _ member)
    have ahead : w.toList.isPrefixOf (w.toList ++ rest) = true :=
      List.isPrefixOf_iff_prefix.mpr (List.prefix_append ..)
    rw [word?, if_pos ahead, List.drop_left, List.takeWhile_append_of_pos parts]
    dsimp only
    rw [unicodeEscape?_eq_none (head?_ne others)]
    cases rest with
    | nil => simp
    | cons c rest => cases inside : isNamePart c <;> simp [inside]
  · have ahead : ¬ w.toList.isPrefixOf cs = true := mt List.isPrefixOf_iff_prefix.mp front
    rw [word?, if_neg ahead, if_neg]
    intro run
    exact front (run ▸ List.takeWhile_prefix _)

theorem findWord_eq (known : words.all isWord = true) (backslash : '\\' ∉ cs) :
    (words.findSome? fun w => word? w.toList cs) =
      if words.any (·.toList = cs.takeWhile isNamePart) then
        some (cs.takeWhile isNamePart).length
      else none := by
  induction words with
  | nil => rfl
  | cons w words ih =>
    rw [List.all_cons, Bool.and_eq_true] at known
    rw [List.findSome?_cons, word?_eq known.1 backslash, ih known.2, List.any_cons]
    by_cases here : cs.takeWhile isNamePart = w.toList
    · simp [here]
    · simp [here, Ne.symm here]

theorem isGetLine_eq : isGetLine cs = (decide (cs.takeWhile isNamePart = ['g', 'e', 't']) &&
    ((cs.dropWhile isNamePart).takeWhile isPlainBlank).contains '\n') := by
  unfold isGetLine
  split
  · rename_i rest
    have parts : ∀ c ∈ ['g', 'e', 't'], isNamePart c = true := List.all_eq_true.mp (by decide)
    have run : ('g' :: 'e' :: 't' :: rest).takeWhile isNamePart =
        ['g', 'e', 't'] ++ rest.takeWhile isNamePart := List.takeWhile_append_of_pos parts
    have after : ('g' :: 'e' :: 't' :: rest).dropWhile isNamePart = rest.dropWhile isNamePart :=
      List.dropWhile_append_of_pos parts
    rw [after]
    simp only [run]
    cases rest with
    | nil => rfl
    | cons c rest =>
      cases inside : isNamePart c with
      | true => simp [inside, plainBlank_of_part inside]
      | false => simp [inside]
  · rename_i other
    have shorter : cs.takeWhile isNamePart ≠ ['g', 'e', 't'] := by
      intro run
      obtain ⟨rest, whole⟩ := run ▸ List.takeWhile_prefix isNamePart
      exact other rest whole.symm
    rw [decide_eq_false shorter, Bool.false_and]

/-! ### Strings -/

theorem string?_eq_none (other : cs.head?.any (fun c => c = '"' || c = '\'') = false) :
    string? cs = none := by
  cases cs with
  | nil => rfl
  | cons c cs =>
    rw [List.head?_cons, Option.any_some] at other
    rw [string?, other, if_neg Bool.false_ne_true]

/-- A string without a backslash is found whatever follows it. -/
theorem stringRest_local {quote : Char} (backslash : '\\' ∉ cs)
    (found : stringRest quote 0 cs = some n) : ∃ front rest, cs = front ++ rest ∧
      front.length = n ∧ ∀ more, stringRest quote 0 (front ++ more) = some n := by
  induction cs generalizing n with
  | nil => cases found
  | cons c cs ih =>
    have other : c ≠ '\\' := fun same => backslash (by simp [same])
    have others : '\\' ∉ cs := fun member => backslash (List.mem_cons_of_mem _ member)
    rw [stringRest] at found
    by_cases closed : c = quote
    · rw [if_pos closed, Option.some.injEq] at found
      subst found
      exact ⟨[c], cs, rfl, rfl, fun more => by simp [stringRest, closed]⟩
    · rw [if_neg closed, if_neg other] at found
      split at found
      · cases found
      · rename_i inside
        obtain ⟨k, rest, rfl⟩ := Option.map_eq_some_iff.mp found
        obtain ⟨front, tail, rfl, rfl, known⟩ := ih others rest
        refine ⟨c :: front, tail, rfl, rfl, fun more => ?_⟩
        rw [List.cons_append, stringRest, if_neg closed, if_neg other, if_neg inside, known]
        rfl

theorem string?_local (backslash : '\\' ∉ cs)
    (found : string? cs = some n) : ∃ front rest, cs = front ++ rest ∧ front.length = n ∧
      ∀ more, string? (front ++ more) = some n := by
  cases cs with
  | nil => cases found
  | cons c cs =>
    rw [string?] at found
    split at found
    · rename_i quote
      obtain ⟨k, rest, rfl⟩ := Option.map_eq_some_iff.mp found
      have others : '\\' ∉ cs := fun member => backslash (List.mem_cons_of_mem _ member)
      obtain ⟨front, tail, rfl, rfl, known⟩ := stringRest_local others rest
      refine ⟨c :: front, tail, rfl, rfl, fun more => ?_⟩
      rw [List.cons_append, string?, if_pos quote, known]
      rfl
    · cases found

/-! ### Other lexemes -/

theorem digits?_eq_none (solid : cs.head?.any Char.isDigit = false) :
    digits? Char.isDigit cs = none := by
  cases cs with
  | nil => rfl
  | cons c cs =>
    rw [List.head?_cons, Option.any_some] at solid
    rw [digits?, solid, if_neg Bool.false_ne_true]

theorem number?_eq_none (solid : cs.head?.any Char.isDigit = false)
    (point : ∀ rest, cs = '.' :: rest → rest.head?.any Char.isDigit = false) :
    number? cs = none := by
  have decimal : decimal? cs = none := by
    unfold decimal?
    split
    · rw [digits?_eq_none (point _ rfl), Option.map_none]
    · rw [digits?_eq_none solid, Option.map_none]
  unfold number?
  split
  · cases solid
  · exact decimal

theorem privateName?_eq_none (hash : cs.head? ≠ some '#') : privateName? cs = none := by
  unfold privateName?
  split
  · simp at hash
  · rfl

theorem regex?_eq_none (slash : cs.head? ≠ some '/') : regex? cs = none := by
  unfold regex?
  split <;> first | rfl | simp at slash

theorem condition?_eq_none (mark : cs.head? ≠ some '?') : condition? cs = none := by
  unfold condition?
  split <;> first | rfl | simp at mark

theorem interpreterLine?_eq_none (hash : cs.head? ≠ some '#') : interpreterLine? cs = none := by
  unfold interpreterLine?
  split
  · simp at hash
  · rfl

theorem markupComment?_eq_none (angle : cs.head? ≠ some '<') (dash : cs.head? ≠ some '-') :
    markupComment? cs = none := by
  rw [markupComment?, if_neg]
  rw [Bool.or_eq_true, List.isPrefixOf_iff_prefix, List.isPrefixOf_iff_prefix, not_or]
  constructor
  · rintro ⟨rest, rfl⟩
    exact angle rfl
  · rintro ⟨rest, rfl⟩
    exact dash rfl

/-- After the blanks nothing starts that plain texts have none of: no comment, escape, number,
private name or markup. -/
structure Spot.Tame (s : Spot) : Prop where
  lead : ∀ c ∈ s.lead, isBlank c = true
  solid : s.next.head?.any isBlank = false
  mark : ∀ p, isPlain p = false → isPunctuation p = true → s.next.head? ≠ some p
  digit : s.next.head?.any Char.isDigit = false
  point : ∀ rest, s.next = '.' :: rest → rest.head?.any Char.isDigit = false

theorem Token.scan_absent {t : Token} {s : Spot} (tame : s.Tame)
    (among : t ∈ [.privateName, .number, .regex, .condition, .aside, .interpreterLine]) :
    t.scan s = none := by
  have hash := tame.mark '#' (by decide) (by decide)
  simp only [List.mem_cons, List.not_mem_nil, or_false] at among
  rcases among with rfl | rfl | rfl | rfl | rfl | rfl
  · rw [Token.scan, privateName?_eq_none hash]
    rfl
  · rw [Token.scan, number?_eq_none tame.digit tame.point]
    rfl
  · rw [Token.scan, regex?_eq_none (tame.mark '/' (by decide) (by decide))]
    rfl
  · rw [Token.scan, condition?_eq_none (tame.mark '?' (by decide) (by decide))]
    rfl
  · rw [Token.scan, markupComment?_eq_none (tame.mark '<' (by decide) (by decide))
      (tame.mark '-' (by decide) (by decide))]
    rfl
  · have first : s.here.head? ≠ some '#' := by
      obtain ⟨_ | ⟨b, lead⟩, next⟩ := s
      · exact hash
      · intro same
        cases same
        cases tame.lead '#' List.mem_cons_self
    rw [Token.scan, interpreterLine?_eq_none first]
    rfl

/-! ### Starts of lines -/

theorem startsAfresh_word {d : Char} (other : d ≠ 'n') : startsAfresh ('i' :: d :: cs) = true := by
  simp [startsAfresh, other]

theorem startsAfresh_other (other : c ∉ ['.', '+', '-', '!', 'i']) :
    startsAfresh (c :: cs) = !"`,:;*%><=[(?^|&/".toList.contains c := by
  simp only [List.mem_cons, List.not_mem_nil, or_false, not_or] at other
  obtain ⟨dot, plus, minus, bang, word⟩ := other
  unfold startsAfresh
  split
  · rename_i empty
    cases empty
  all_goals
    rename_i same
    cases same
    first | contradiction | rfl

end

end BundleMerge.Script
