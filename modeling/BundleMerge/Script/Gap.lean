import BundleMerge.Script.Chars

/-! What stands between lexemes: blanks and comments, and the ends of statements that a script
leaves out. -/
namespace BundleMerge.Script

/-- Where one is in the blanks and comments before a lexeme. -/
inductive GapState where
  | between
  /-- After a slash that may open a comment. -/
  | slash
  /-- In a comment up to the end of the line. -/
  | line
  | block
  /-- In a comment, after a star that may close it. -/
  | star
  deriving DecidableEq

namespace GapState

/-- The state after one more character, if the character may stand there. -/
def next? (blank lineEnd : Char → Bool) : GapState → Char → Option GapState
  | between, c => if c = '/' then some slash else if blank c then some between else none
  | slash, c => if c = '/' then some line else if c = '*' then some block else none
  | line, c => some (if lineEnd c then between else line)
  | block, c => some (if c = '*' then star else block)
  | star, c => some (if c = '/' then between else if c = '*' then star else block)

/-- Whether a lexeme may follow, or the end of the text. -/
def isClosed : GapState → Bool
  | between | line => true
  | slash | block | star => false

end GapState

/-- How many characters of a text are blanks and comments. `read` of them have been read, and
`sure` is that number without a comment that has no end yet. -/
def gapFrom (state : GapState) (read sure : Nat) : List Char → Nat
  | [] => sure
  | c :: cs =>
    match state.next? isBlank isLineEnd c with
    | none => sure
    | some state => gapFrom state (read + 1) (if state.isClosed then read + 1 else sure) cs

def gapLength (cs : List Char) : Nat :=
  gapFrom .between 0 0 cs

/-- The length of the one-line comment that `<!--` or `-->` opens. -/
def markupComment? (cs : List Char) : Option Nat :=
  if "<!--".toList.isPrefixOf cs || "-->".toList.isPrefixOf cs then
    some (cs.takeWhile (!isNewline ·)).length
  else none

/-- The texts that follow the comments at the start of a text. -/
def afterComments (state : GapState) : List Char → List (List Char)
  | [] => if state = .line then [[]] else []
  | c :: cs =>
    match state, state.next? isBlank isLineEnd c with
    | _, none => []
    | .line, some .between => (c :: cs) :: afterComments .between cs
    | .star, some .between => cs :: afterComments .between cs
    | _, some state => afterComments state cs

inductive Skipped where
  /-- A slash that opens no comment. -/
  | slash
  /-- A comment within a line, with the text after it. -/
  | sameLine (rest : List Char)
  | done (rest : List Char)

/-- Skips blanks and comments; unless it is told to go on, it stops after a comment that is not
followed by another slash. `broken` tells whether a line has ended within a comment. -/
def skipGap (goOn : Bool) (state : GapState) (broken : Bool) : List Char → Skipped
  | [] => if state = .slash then .slash else .done []
  | c :: cs =>
    match state, state.next? isPlainBlank isNewline c with
    | .slash, none => .slash
    | _, none => .done (c :: cs)
    | .line, some .between =>
      if isPlainBlank c then skipGap goOn .between broken cs else .done (c :: cs)
    | .star, some .between =>
      if goOn || cs.head? = some '/' then skipGap goOn .between broken cs
      else if broken then .done cs
      else .sameLine cs
    | .block, some state | .star, some state => skipGap goOn state (broken || isNewline c) cs
    | _, some state => skipGap goOn state broken cs

/-- Whether a new line that starts with this text starts a new statement: not if it goes on with
an operator or an opening bracket. -/
def startsAfresh (cs : List Char) : Bool :=
  match cs with
  | [] => true
  | '.' :: cs => cs.head?.any Char.isDigit
  | '+' :: cs => cs.head? = some '+'
  | '-' :: cs => cs.head? = some '-'
  | '!' :: cs => cs.head? ≠ some '='
  | 'i' :: cs =>
    match cs with
    | 'n' :: cs =>
      if !cs.head?.any isLetter then false
      else if "stanceof".toList.isPrefixOf cs then (cs.drop 8).head?.any isLetter
      else true
    | _ => true
  | c :: _ => !"`,:;*%><=[(?^|&/".toList.contains c

theorem skipGap_length {goOn broken : Bool} {state : GapState} {cs rest : List Char}
    (skipped : skipGap goOn state broken cs = .sameLine rest ∨
      skipGap goOn state broken cs = .done rest) : rest.length ≤ cs.length := by
  induction cs generalizing state broken with
  | nil =>
    unfold skipGap at skipped
    grind
  | cons c cs ih =>
    unfold skipGap at skipped
    generalize state.next? isPlainBlank isNewline c = next at skipped
    grind

/-- Whether the statement before a text may end there without a semicolon: at the end of the
script, before a closing brace, or at the end of a line if the next line starts afresh. -/
def endsHere (afterValue : Bool) : List Char → Bool
  | [] => true
  | c :: cs =>
    if c = '\x7d' then true
    else if c = '/' then
      match _ : skipGap false .slash false cs with
      | .slash => false
      | .sameLine rest => rest ≠ [] && endsHere afterValue rest
      | .done rest =>
        (!afterValue && rest.head? ≠ some ',' && rest.head? ≠ some '=') ||
          (rest ≠ [] && endsHere afterValue rest)
    else if isNewline c then
      match skipGap true .between false cs with
      | .slash => false
      | .sameLine rest | .done rest => startsAfresh rest
    else isPlainBlank c && endsHere afterValue cs
termination_by cs => cs.length
decreasing_by
  · exact Nat.lt_succ_of_le (skipGap_length (.inl ‹_›))
  · exact Nat.lt_succ_of_le (skipGap_length (.inr ‹_›))
  · exact Nat.lt_succ_self _

/-- The same at any point of the blanks and comments before the next lexeme. After an expression
that could go on, comments do not end a line. -/
def statementEnds (afterValue : Bool) (cs : List Char) : Bool :=
  (cs :: afterComments .between cs).any (endsHere afterValue)

end BundleMerge.Script
