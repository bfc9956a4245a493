import BundleMerge.Script.Lexeme
import BundleMerge.Script.Rule

/-! The classes of lexemes that the grammar of scripts speaks of. What a word means depends on
where it stands, so the grammar says for each place which words are not names there. -/
namespace BundleMerge.Script

inductive Token where
  | mark (m : String)
  /-- A mark whatever follows it. -/
  | exact (m : String)
  | word (w : String)
  | oneOf (words : List String)
  /-- An identifier other than these words. -/
  | name (reserved : List String)
  /-- The name of a property, where `get` before a line end is none. -/
  | property
  | privateName
  | number
  | string
  | regex
  | condition
  | templateChars
  /-- A mark within a template, where blanks are text. -/
  | templateMark (m : String)
  | markupName
  | markupText
  | markupString
  | reference
  /-- The end of a statement where no semicolon is written. -/
  | statementEnd (afterValue : Bool)
  /-- A comment that starts with `<!--` or `-->`. -/
  | aside
  | interpreterLine
  | finish

namespace Spot

/-- The leaf that `n` characters after the gap make, with the text after it. -/
def leaf (s : Spot) (kind : LeafKind) (n : Nat) : Tree × List Char :=
  (.leaf kind s.lead (s.next.take n), s.next.drop n)

/-- The leaf that `n` characters make, blanks included. -/
def leafHere (s : Spot) (kind : LeafKind) (n : Nat) : Tree × List Char :=
  (.leaf kind [] (s.here.take n), s.here.drop n)

end Spot

def Token.scan (t : Token) (s : Spot) : Option (Tree × List Char) :=
  match t with
  | mark m => (mark? m.toList s.next).map (s.leaf .mark)
  | exact m => if m.toList.isPrefixOf s.next then some (s.leaf .mark m.length) else none
  | word w => (word? w.toList s.next).map (s.leaf .mark)
  | oneOf words => (words.findSome? fun w => word? w.toList s.next).map (s.leaf .mark)
  | name reserved =>
    (name? s.next).bind fun n =>
      if reserved.any (·.toList = s.next.take n) then none else some (s.leaf .name n)
  | property =>
    (name? s.next).bind fun n => if isGetLine s.next then none else some (s.leaf .name n)
  | privateName => (privateName? s.next).map (s.leaf .literal)
  | number => (number? s.next).map (s.leaf .literal)
  | string => (string? s.next).map (s.leaf .literal)
  | regex => (regex? s.next).map (s.leaf .literal)
  | condition => (condition? s.next).map (s.leaf .mark)
  | templateChars => (templateChars? s.here).map (s.leafHere .literal)
  | templateMark m =>
    if m.toList.isPrefixOf s.here then some (s.leafHere .mark m.length) else none
  | markupName => (markupName? s.next).map (s.leaf .literal)
  | markupText => (markupText? s.here).map (s.leafHere .literal)
  | markupString => (markupString? s.next).map (s.leaf .literal)
  | reference => (reference? s.here).map (s.leafHere .literal)
  | statementEnd afterValue =>
    if statementEnds afterValue s.here then some (s.leafHere .gap 0) else none
  | aside => (markupComment? s.next).map (s.leaf .gap)
  | interpreterLine => (interpreterLine? s.here).map (s.leafHere .gap)
  | finish => if s.next = [] then some (s.leaf .gap 0) else none

end BundleMerge.Script
