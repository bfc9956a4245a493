import BundleMerge.Script.Parse

/-! Sketches: texts in which some names are not known yet. A hole stands for each of them. What a
scan finds in a sketch, it finds once the holes are filled, whatever the names are, except where a
word is looked for: there it matters which names are meant. -/
namespace BundleMerge.Script

/-! ### Holes -/

/-- Characters of private use stand for names that are not known yet. -/
def isHole (c : Char) : Bool :=
  0xE000 ≤ c.toNat && c.toNat ≤ 0xF8FF

/-- The text with a name in each hole. -/
def fill (σ : Char → List Char) (cs : List Char) : List Char :=
  cs.flatMap fun c => if isHole c then σ c else [c]

/-- Which names are meant: all but some words, or only these. -/
inductive Choice where
  | allBut (words : List String)
  | only (words : List String)

namespace Choice

def allows : Choice → String → Bool
  | allBut words, w => !words.contains w
  | only words, w => words.contains w

/-- All names that are meant are among these words. -/
def isWithin : Choice → List String → Bool
  | allBut _, _ => false
  | only words, ws => words.all ws.contains

theorem mem_of_isWithin {choice : Choice} {ws : List String} {w : String}
    (within : choice.isWithin ws = true) (allowed : choice.allows w = true) : w ∈ ws := by
  cases choice with
  | allBut words => cases within
  | only words =>
    have member := List.all_eq_true.mp within w (List.contains_iff_mem.mp allowed)
    exact List.contains_iff_mem.mp member

end Choice

/-- The names that go into holes are names, and each is one that is meant for its hole. -/
structure Names (σ : Char → List Char) (choice : Char → Choice) : Prop where
  start : ∀ h, isHole h = true → ∃ c cs, σ h = c :: cs ∧ isNameStart c = true
  part : ∀ h, isHole h = true → ∀ c ∈ σ h, isNamePart c = true
  allowed : ∀ h, isHole h = true → (choice h).allows (String.ofList (σ h)) = true

namespace Names

variable {σ : Char → List Char} {choice : Char → Choice} {h : Char} {w : String} {ws : List String}

theorem allows_word (names : Names σ choice) (hole : isHole h = true) (spelled : w.toList = σ h) :
    (choice h).allows w = true := by
  have allowed := names.allowed h hole
  rwa [← spelled, String.ofList_toList] at allowed

/-- If the name is none of some words, then others than those are meant too. -/
theorem not_within (names : Names σ choice) (hole : isHole h = true)
    (other : ws.any (·.toList = σ h) = false) : (choice h).isWithin ws = false := by
  rw [← Bool.not_eq_true]
  intro within
  have member := Choice.mem_of_isWithin within (names.allowed h hole)
  have met := List.any_eq_false.mp other _ member
  rw [decide_eq_true_eq, String.toList_ofList] at met
  exact met rfl

end Names

/-- A character that announces no comment, escape, number, private name or markup. -/
def isPlain (c : Char) : Bool :=
  !c.isDigit && !(['/', '\\', '#', '?', '<', '-'].contains c)

def Plain (cs : List Char) : Prop :=
  ∀ c ∈ cs, isPlain c = true

/-! ### Characters -/

section
variable {c p : Char}

theorem blank_of_part (part : isNamePart c = true) : isBlank c = false := by
  simp only [isNamePart, Bool.and_eq_true, Bool.not_eq_true'] at part
  exact part.1.2

theorem punctuation_of_part (part : isNamePart c = true) : isPunctuation c = false := by
  simp only [isNamePart, Bool.and_eq_true, Bool.not_eq_true'] at part
  exact part.2

theorem ne_of_part (mark : isPunctuation p = true) (part : isNamePart c = true) : c ≠ p := by
  rintro rfl
  rw [punctuation_of_part part] at mark
  cases mark

theorem blank_of_plainBlank (blank : isPlainBlank c = true) : isBlank c = true := by
  simp only [isPlainBlank, Bool.or_eq_true, Bool.and_eq_true, decide_eq_true_eq] at blank
  obtain ascii | rfl := blank
  · simp only [isBlank, Bool.or_eq_true, Bool.and_eq_true, decide_eq_true_eq, beq_iff_eq]
    omega
  · rfl

theorem blank_of_newline (newline : isNewline c = true) : isBlank c = true := by
  simp only [isNewline, Bool.or_eq_true, decide_eq_true_eq, beq_iff_eq] at newline
  obtain (rfl | line) | paragraph := newline
  · rfl
  · simp [isBlank, line]
  · simp [isBlank, paragraph]

theorem plainBlank_of_part (part : isNamePart c = true) : isPlainBlank c = false := by
  rw [← Bool.not_eq_true]
  intro blank
  have none := blank_of_part part
  rw [blank_of_plainBlank blank] at none
  cases none

theorem part_of_start (start : isNameStart c = true) : isNamePart c = true := by
  rw [isNameStart, Bool.and_eq_true] at start
  exact start.1

theorem start_of_hole (hole : isHole c = true) : isNameStart c = true := by
  simp only [isHole, Bool.and_eq_true, decide_eq_true_eq] at hole
  have digit : c.isDigit = false := by
    rw [← Bool.not_eq_true, Char.isDigit_iff_toNat]
    simp only [Char.reduceToNat]
    omega
  simp only [isNameStart, isNamePart, isBlank, isPunctuation, digit]
  generalize c.toNat = n at hole
  simp
  omega

theorem part_of_hole (hole : isHole c = true) : isNamePart c = true :=
  part_of_start (start_of_hole hole)

end

/-! ### Texts with holes that are filled -/

section
variable {σ : Char → List Char} {choice : Char → Choice} {c p : Char}
  {a b cs m w : List Char} {P : Char → Bool}

@[simp] theorem fill_nil : fill σ [] = [] := rfl

theorem fill_append (a b : List Char) : fill σ (a ++ b) = fill σ a ++ fill σ b :=
  List.flatMap_append

theorem fill_hole (hole : isHole c = true) : fill σ (c :: cs) = σ c ++ fill σ cs := by
  rw [fill, List.flatMap_cons, if_pos hole, ← fill]

theorem fill_cons (known : isHole c = false) : fill σ (c :: cs) = c :: fill σ cs := by
  rw [fill, List.flatMap_cons, if_neg (by simp [known]), ← fill, List.singleton_append]

theorem fill_clear (clear : cs.any isHole = false) : fill σ cs = cs := by
  induction cs with
  | nil => rfl
  | cons c cs ih =>
    rw [List.any_cons, Bool.or_eq_false_iff] at clear
    rw [fill_cons clear.1, ih clear.2]

variable (names : Names σ choice)

include names

/-- What a filled text begins with: the same character, or that of a name. -/
theorem fill_head (c : Char) (cs : List Char) : ∃ d ds, fill σ (c :: cs) = d :: ds ∧
    (isHole c = false ∧ d = c ∧ ds = fill σ cs ∨ isHole c = true ∧ isNameStart d = true) := by
  cases hole : isHole c with
  | false => exact ⟨c, fill σ cs, fill_cons hole, .inl ⟨rfl, rfl, rfl⟩⟩
  | true =>
    obtain ⟨d, ds, spelled, start⟩ := names.start c hole
    exact ⟨d, ds ++ fill σ cs, by rw [fill_hole hole, spelled, List.cons_append],
      .inr ⟨rfl, start⟩⟩

theorem fill_eq_nil : fill σ cs = [] ↔ cs = [] := by
  cases cs with
  | nil => simp [fill]
  | cons c cs =>
    obtain ⟨d, ds, filled, -⟩ := fill_head names c cs
    simp [filled]

/-- What is true of no character that a name begins with is true of the first one if it was in the
sketch. -/
theorem head?_any_fill (other : ∀ c, isNameStart c = true → P c = false) :
    (fill σ cs).head?.any P = cs.head?.any P := by
  cases cs with
  | nil => rfl
  | cons c cs =>
    obtain ⟨d, ds, filled, ⟨-, rfl, -⟩ | ⟨hole, start⟩⟩ := fill_head names c cs
    · rw [filled, List.head?_cons, List.head?_cons]
    · rw [filled, List.head?_cons, List.head?_cons, Option.any_some, Option.any_some, other d start,
        other c (start_of_hole hole)]

theorem head?_fill (mark : isPunctuation p = true) :
    (fill σ cs).head? = some p ↔ cs.head? = some p := by
  have same : (fill σ cs).head?.any (· = p) = cs.head?.any (· = p) :=
    head?_any_fill names fun c start => decide_eq_false (ne_of_part mark (part_of_start start))
  rw [Bool.eq_iff_iff, Option.any_eq_true, Option.any_eq_true] at same
  simpa using same

theorem mem_fill (member : c ∈ fill σ cs) : c ∈ cs ∨ isNamePart c = true := by
  obtain ⟨d, inside, member⟩ := List.mem_flatMap.mp member
  split at member
  · exact .inr (names.part d ‹_› c member)
  · exact .inl (List.mem_singleton.mp member ▸ inside)

theorem not_mem_fill (mark : isPunctuation p = true) (absent : p ∉ cs) : p ∉ fill σ cs := by
  intro member
  obtain inside | part := mem_fill names member
  · exact absent inside
  · exact ne_of_part mark part rfl

/-- A stretch of characters that are no part of names ends where it did in the sketch. -/
theorem span_fill (stops : ∀ c, isNamePart c = true → P c = false) (cs : List Char) :
    (fill σ cs).takeWhile P = cs.takeWhile P ∧
      (fill σ cs).dropWhile P = fill σ (cs.dropWhile P) := by
  induction cs with
  | nil => exact ⟨rfl, rfl⟩
  | cons c cs ih =>
    obtain ⟨d, ds, filled, ⟨known, rfl, rfl⟩ | ⟨hole, start⟩⟩ := fill_head names c cs
    · rw [filled]
      cases inside : P d with
      | true => simp [inside, ih]
      | false => simp [inside, filled]
    · have here := stops c (part_of_hole hole)
      have there := stops d (part_of_start start)
      simp [filled, here, there]

/-- A stretch of parts of names goes on through holes. -/
theorem run_fill : (fill σ cs).takeWhile isNamePart = fill σ (cs.takeWhile isNamePart) ∧
    (fill σ cs).dropWhile isNamePart = fill σ (cs.dropWhile isNamePart) := by
  induction cs with
  | nil => exact ⟨rfl, rfl⟩
  | cons c cs ih =>
    cases hole : isHole c with
    | true =>
      have parts := names.part c hole
      rw [fill_hole hole, List.takeWhile_append_of_pos parts, List.dropWhile_append_of_pos parts,
        List.takeWhile_cons_of_pos (part_of_hole hole),
        List.dropWhile_cons_of_pos (part_of_hole hole), fill_hole hole, ih.1, ih.2]
      exact ⟨rfl, rfl⟩
    | false =>
      rw [fill_cons hole]
      cases inside : isNamePart c with
      | true => simp [inside, fill_cons hole, ih]
      | false => simp [inside, fill_cons hole]

theorem isPrefixOf_fill (marks : m.all isPunctuation = true) :
    m.isPrefixOf (fill σ cs) = m.isPrefixOf cs := by
  induction m generalizing cs with
  | nil => simp
  | cons p m ih =>
    rw [List.all_cons, Bool.and_eq_true] at marks
    obtain ⟨mark, others⟩ := marks
    cases cs with
    | nil => rfl
    | cons c cs =>
      obtain ⟨d, ds, filled, ⟨-, rfl, rfl⟩ | ⟨hole, start⟩⟩ := fill_head names c cs
      · rw [filled, List.isPrefixOf_cons_cons, List.isPrefixOf_cons_cons, ih others]
      · have here := ne_of_part mark (part_of_hole hole)
        have there := ne_of_part mark (part_of_start start)
        rw [filled, List.isPrefixOf_cons_cons, List.isPrefixOf_cons_cons, beq_false_of_ne here.symm,
          beq_false_of_ne there.symm, Bool.false_and, Bool.false_and]

end

/-! ### Gaps -/

section
variable {c : Char} {cs lead next : List Char}

theorem head?_ne {p : Char} (absent : p ∉ cs) : cs.head? ≠ some p :=
  fun first => absent (List.mem_of_head? first)

theorem head?_dropWhile_ne {p : Char} (P : Char → Bool) (absent : p ∉ cs) :
    (cs.dropWhile P).head? ≠ some p :=
  head?_ne fun member => absent ((List.dropWhile_suffix P).mem member)

theorem next?_between (other : c ≠ '/') : GapState.next? isBlank isLineEnd .between c =
    if isBlank c then some .between else none := by
  simp [GapState.next?, other]

/-- Where no slash follows the blanks there are no comments, and a gap is a stretch of blanks. -/
theorem gapFrom_eq (slash : (cs.dropWhile isBlank).head? ≠ some '/') (n : Nat) :
    gapFrom .between n n cs = n + (cs.takeWhile isBlank).length := by
  induction cs generalizing n with
  | nil => rfl
  | cons c cs ih =>
    rw [gapFrom]
    cases blank : isBlank c with
    | true =>
      have other : c ≠ '/' := by
        rintro rfl
        cases blank
      rw [List.dropWhile_cons_of_pos blank] at slash
      rw [next?_between other, blank]
      simp only [if_true, GapState.isClosed, List.takeWhile_cons_of_pos blank, List.length_cons]
      rw [ih slash]
      omega
    | false =>
      have solid : ¬ isBlank c = true := Bool.eq_false_iff.mp blank
      rw [List.dropWhile_cons_of_neg solid] at slash
      have other : c ≠ '/' := fun same => slash (congrArg some same)
      simp [next?_between other, blank]

theorem Spot.of_eq (slash : (cs.dropWhile isBlank).head? ≠ some '/') :
    Spot.of cs = ⟨cs.takeWhile isBlank, cs.dropWhile isBlank⟩ := by
  have parted : cs = cs.takeWhile isBlank ++ cs.dropWhile isBlank :=
    List.takeWhile_append_dropWhile.symm
  rw [Spot.of, gapLength, gapFrom_eq slash, Nat.zero_add]
  congr 1
  · exact (congrArg (List.take _) parted).trans List.take_left
  · exact (congrArg (List.drop _) parted).trans List.drop_left

/-! ### Ends of statements -/

theorem afterComments_eq (blanks : ∀ c ∈ lead, isBlank c = true)
    (solid : next.head?.any isBlank = false) (slash : next.head? ≠ some '/') :
    afterComments .between (lead ++ next) = [] := by
  induction lead with
  | nil =>
    cases next with
    | nil => rfl
    | cons c cs =>
      have other : c ≠ '/' := fun same => slash (congrArg some same)
      rw [List.head?_cons, Option.any_some] at solid
      simp [afterComments, next?_between other, solid]
  | cons b lead ih =>
    obtain ⟨first, rest⟩ := List.forall_mem_cons.mp blanks
    have other : b ≠ '/' := by
      rintro rfl
      cases first
    rw [List.cons_append, afterComments.eq_def]
    simp [next?_between other, first, ih rest]

theorem skipGap_eq (blanks : ∀ c ∈ lead, isPlainBlank c = true)
    (solid : next.head?.any isPlainBlank = false) (slash : next.head? ≠ some '/') :
    skipGap true .between false (lead ++ next) = .done next := by
  have step : ∀ c, c ≠ '/' → GapState.next? isPlainBlank isNewline .between c =
      if isPlainBlank c then some .between else none := by
    intro c other
    simp [GapState.next?, other]
  induction lead with
  | nil =>
    cases next with
    | nil => rfl
    | cons c cs =>
      have other : c ≠ '/' := fun same => slash (congrArg some same)
      rw [List.head?_cons, Option.any_some] at solid
      rw [List.nil_append, skipGap.eq_def]
      simp [step c other, solid]
  | cons b lead ih =>
    obtain ⟨first, rest⟩ := List.forall_mem_cons.mp blanks
    have other : b ≠ '/' := by
      rintro rfl
      cases first
    rw [List.cons_append, skipGap.eq_def]
    simp [step b other, first, ih rest]

/-- A statement ends after blanks if a line ends there and the next one starts afresh, or at the
end of the script or the block. -/
theorem endsHere_eq (afterValue : Bool) (blanks : ∀ c ∈ lead, isPlainBlank c = true)
    (solid : next.head?.any isBlank = false) (slash : next.head? ≠ some '/') :
    endsHere afterValue (lead ++ next) = if lead.any isNewline then startsAfresh next
      else next = [] || next.head? = some '\x7d' := by
  have plain : next.head?.any isPlainBlank = false := by
    cases next with
    | nil => rfl
    | cons c cs =>
      rw [List.head?_cons, Option.any_some, ← Bool.not_eq_true] at solid ⊢
      exact mt blank_of_plainBlank solid
  induction lead with
  | nil =>
    cases next with
    | nil => simp [endsHere]
    | cons c cs =>
      have solid : isBlank c = false := solid
      have plain : isPlainBlank c = false := plain
      have line : isNewline c = false := by
        rw [← Bool.not_eq_true]
        exact fun newline => by simp [blank_of_newline newline] at solid
      have other : c ≠ '/' := fun same => slash (congrArg some same)
      rw [List.nil_append, endsHere]
      by_cases brace : c = '\x7d' <;> simp [brace, other, plain, line]
  | cons b lead ih =>
    obtain ⟨first, rest⟩ := List.forall_mem_cons.mp blanks
    have other : b ≠ '/' := by
      rintro rfl
      cases first
    have brace : b ≠ '\x7d' := by
      rintro rfl
      cases first
    rw [List.cons_append, endsHere, if_neg brace, if_neg other, List.any_cons]
    cases isNewline b with
    | true => rw [if_pos rfl, skipGap_eq rest plain slash, Bool.true_or, if_pos rfl]
    | false =>
      rw [if_neg Bool.false_ne_true, first, Bool.true_and, ih rest, Bool.false_or]

theorem statementEnds_eq (afterValue : Bool) (blanks : ∀ c ∈ lead, isPlainBlank c = true)
    (solid : next.head?.any isBlank = false) (slash : next.head? ≠ some '/') :
    statementEnds afterValue (lead ++ next) = if lead.any isNewline then startsAfresh next
      else next = [] || next.head? = some '\x7d' := by
  rw [statementEnds, afterComments_eq (fun c member => blank_of_plainBlank (blanks c member)) solid
    slash, List.any_cons, List.any_nil, Bool.or_false, endsHere_eq afterValue blanks solid slash]

end

end BundleMerge.Script
